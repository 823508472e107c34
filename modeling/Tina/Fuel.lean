import Mathlib.Logic.Basic

/-! Loops that take fuel: what it means that such a loop ends, and how ends compose. -/
namespace Fuel

variable {σ : Type} {run next : Nat → Option σ} {t u : σ}

/-- With enough fuel the loop ends in `t`. -/
def Returns (run : Nat → Option σ) (t : σ) : Prop :=
  ∃ enough, ∀ fuel, enough ≤ fuel → run fuel = some t

theorem Returns.now (t : σ) : Returns (fun _ => some t) t := ⟨0, fun _ _ => rfl⟩

/-- A round takes one unit of fuel. -/
theorem Returns.round (later : Returns next t) (round : ∀ fuel, run (fuel + 1) = next fuel) :
    Returns run t := by
  obtain ⟨enough, ends⟩ := later
  refine ⟨enough + 1, fun fuel more => ?_⟩
  obtain ⟨fuel, rfl⟩ := Nat.exists_eq_add_of_le' more
  rw [← Nat.add_assoc, round]
  exact ends _ (Nat.le_add_left _ _)

theorem Returns.bind {τ : Type} {s : τ} {run : Nat → Option τ} {rest : Nat → τ → Option σ}
    (first : Returns run s) (second : Returns (fun fuel => rest fuel s) t) :
    Returns (fun fuel => (run fuel).bind (rest fuel)) t := by
  obtain ⟨enough, ends⟩ := first
  obtain ⟨enough', ends'⟩ := second
  refine ⟨enough + enough', fun fuel more => ?_⟩
  simp only [ends fuel (by omega), Option.bind_some]
  exact ends' fuel (by omega)

end Fuel
