import Tina.Program

/-! Programs over different states. One program simulates another one when the second does what
the first does wherever the first comes to its end. -/
namespace Atomic

variable {σ τ α β γ δ : Type}

/-- Where the program `p` ends, from a state that `R` relates to that of `q`, there `q` ends, and
`R'` relates their results and their states. -/
def Simulates (R : σ → τ → Prop) (p : Program σ α) (q : Program τ β)
    (R' : α → β → σ → τ → Prop) : Prop :=
  ∀ s v a t, R s v → run p s = some (a, t) → ∃ b w, run q v = some (b, w) ∧ R' a b t w

variable {R S : σ → τ → Prop} {p : Program σ α} {q : Program τ β} {R' : α → β → σ → τ → Prop}
  {f : α → Program σ γ} {g : β → Program τ δ} {T : γ → δ → σ → τ → Prop} {a : α} {b : β}

theorem Simulates.of_runs (runs : ∀ s v, R s v → ∃ a t b w, run p s = some (a, t) ∧
    run q v = some (b, w) ∧ R' a b t w) : Simulates R p q R' := by
  intro s v a t related ends
  obtain ⟨a', t', b, w, ends', result, related'⟩ := runs s v related
  obtain ⟨rfl, rfl⟩ := Prod.mk.inj (Option.some.inj (ends'.symm.trans ends))
  exact ⟨b, w, result, related'⟩

theorem Simulates.pure (related : ∀ s v, R s v → R' a b s v) :
    Simulates R (Pure.pure a) (Pure.pure b) R' :=
  .of_runs fun s v before => ⟨a, s, b, v, rfl, rfl, related s v before⟩

theorem Simulates.undefined : Simulates R (.undefined : Program σ α) q R' :=
  fun _ _ _ _ _ ends => nomatch ends

theorem Simulates.read {see : σ → α} {look : τ → β}
    (related : ∀ s v, R s v → R' (see s) (look v) s v) :
    Simulates R (Atomic.read see) (Atomic.read look) R' :=
  .of_runs fun s v before => ⟨see s, s, look v, v, rfl, rfl, related s v before⟩

theorem Simulates.change {act : σ → σ} {do' : τ → τ} {R' : Unit → Unit → σ → τ → Prop}
    (related : ∀ s v, R s v → R' () () (act s) (do' v)) :
    Simulates R (Atomic.change act) (Atomic.change do') R' :=
  .of_runs fun s v before => ⟨(), act s, (), do' v, rfl, rfl, related s v before⟩

theorem Simulates.bind (first : Simulates R p q R')
    (rest : ∀ a b, Simulates (R' a b) (f a) (g b) T) : Simulates R (p >>= f) (q >>= g) T := by
  intro s v c u related ends
  rw [run_bind] at ends
  obtain ⟨⟨a, t⟩, early, late⟩ := Option.bind_eq_some_iff.mp ends
  obtain ⟨b, w, result, middle⟩ := first s v a t related early
  obtain ⟨d, x, result', last⟩ := rest a b t w c u middle late
  exact ⟨d, x, (run_then result).trans result', last⟩

/-- What holds of the results before does not depend on the states. -/
theorem Simulates.assuming {fact : Prop} (simulates : fact → Simulates S p q R') :
    Simulates (fun s v => fact ∧ S s v) p q R' := by
  rintro s v a t ⟨holds, related⟩ ends
  exact simulates holds s v a t related ends

/-- The first part has one result in both. -/
theorem Simulates.bind_same {g : α → Program τ δ} {q : Program τ α}
    (first : Simulates R p q fun a b s v => a = b ∧ S s v)
    (rest : ∀ a, Simulates S (f a) (g a) T) : Simulates R (p >>= f) (q >>= g) T := by
  refine first.bind fun a b => .assuming ?_
  rintro rfl
  exact rest a

theorem Simulates.weaken {U : α → β → σ → τ → Prop} (simulates : Simulates R p q R')
    (before : ∀ s v, S s v → R s v) (after : ∀ a b s v, R' a b s v → U a b s v) :
    Simulates S p q U := by
  intro s v a t related ends
  obtain ⟨b, w, result, related'⟩ := simulates s v a t (before s v related) ends
  exact ⟨b, w, result, after a b t w related'⟩
end Atomic
