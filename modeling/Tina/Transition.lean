/-! Labelled transition systems: reachability under a restriction on steps, and the
induction that every invariant uses. -/
namespace Transition

variable {σ α : Type}

/-- States reached from `start` when every step taken satisfies `allowed`. -/
inductive Reachable (step : σ → α → σ → Prop) (allowed : σ → α → Prop) (start : σ) : σ → Prop where
  | start : Reachable step allowed start start
  | step {s t : σ} {a : α} : Reachable step allowed start s → allowed s a → step s a t →
      Reachable step allowed start t

variable {step : σ → α → σ → Prop} {allowed allowed' : σ → α → Prop} {start s : σ}

theorem Reachable.invariant (property : σ → Prop) (reach : Reachable step allowed start s)
    (initial : property start)
    (preserved : ∀ s a t, property s → allowed s a → step s a t → property t) : property s := by
  induction reach with
  | start => exact initial
  | step _ ok next ih => exact preserved _ _ _ ih ok next

theorem Reachable.mono (reach : Reachable step allowed start s)
    (weaker : ∀ s a, allowed s a → allowed' s a) : Reachable step allowed' start s := by
  induction reach with
  | start => exact .start
  | step _ ok next ih => exact .step ih (weaker _ _ ok) next

/-- Each step of a run comes to a step of the system above, or to none; the run is then one of that
system. -/
theorem Reachable.simulated {σ' α' : Type} {step' : σ' → α' → σ' → Prop}
    {allowed' : σ' → α' → Prop} (property : σ → Prop) (above : σ → σ')
    (reach : Reachable step allowed start s) (initial : property start)
    (follows : ∀ s a t, property s → allowed s a → step s a t → property t ∧
      (above t = above s ∨ ∃ b, allowed' (above s) b ∧ step' (above s) b (above t))) :
    property s ∧ Reachable step' allowed' (above start) (above s) := by
  induction reach with
  | start => exact ⟨initial, .start⟩
  | step _ ok next ih =>
    obtain ⟨holds, reached⟩ := ih
    obtain ⟨holds', idle | ⟨b, ok', next'⟩⟩ := follows _ _ _ holds ok next
    · exact ⟨holds', idle ▸ reached⟩
    · exact ⟨holds', reached.step ok' next'⟩

variable {execute : α → σ → Option σ}

/-- A concrete run, which stops at a step that is not allowed. -/
def runChecked (execute : α → σ → Option σ) (allowed : σ → α → Prop)
    [∀ s a, Decidable (allowed s a)] : List α → σ → Option σ
  | [], s => some s
  | a :: as, s =>
    if allowed s a then (execute a s).bind (runChecked execute allowed as) else none

theorem runChecked_reachable [∀ s a, Decidable (allowed s a)] {t : σ} (as : List α)
    (reach : Reachable (fun s a t => execute a s = some t) allowed start s)
    (result : runChecked execute allowed as s = some t) :
    Reachable (fun s a t => execute a s = some t) allowed start t := by
  induction as generalizing s with
  | nil =>
    obtain rfl := Option.some.inj result
    exact reach
  | cons a as ih =>
    rw [runChecked] at result
    split at result
    next ok =>
      obtain ⟨next, first, rest⟩ := Option.bind_eq_some_iff.mp result
      exact ih (.step reach ok first) rest
    next => cases result

end Transition
