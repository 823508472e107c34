import Tina.Program

/-! Programs whose steps are taken in any order on a state that they share. A program that depends on
its own view of the state only, and leaves the views of the others alone, ends as if it ran
alone. -/
namespace Atomic

variable {σ α β ι γ δ : Type}

/-- From the view `v` the program ends with `a` and the view `w`, whatever else the state holds.
What `apart` sees is changed by no program. -/
inductive Confined (see : ι → σ → γ) (apart : σ → δ) (i : ι) : γ → Program σ α → α → γ → Prop
  | done {v : γ} {a : α} : Confined see apart i v (.done a) a v
  | step {v w x : γ} {a : α} {act : σ → σ} {next : σ → Program σ α} {q : Program σ α}
    (mine : ∀ s, see i s = v → see i (act s) = w ∧ next s = q)
    (others : ∀ s, see i s = v →
      (∀ j, j ≠ i → see j (act s) = see j s) ∧ apart (act s) = apart s)
    (rest : Confined see apart i w q a x) : Confined see apart i v (.step act next) a x

section Confined

variable {see : ι → σ → γ} {apart : σ → δ} {i : ι} {v w x : γ} {a : α} {b : β} {s t : σ}
  {p : Program σ α} {f : α → Program σ β}

theorem Confined.pure : Confined see apart i v (Pure.pure a : Program σ α) a v := .done

theorem Confined.read {g : σ → α} (value : ∀ s, see i s = v → g s = a) :
    Confined see apart i v (Atomic.read g) a v :=
  .step (fun s same => ⟨same, congrArg Program.done (value s same)⟩)
    (fun _ _ => ⟨fun _ _ => rfl, rfl⟩) .done

theorem Confined.change {act : σ → σ} (mine : ∀ s, see i s = v → see i (act s) = w)
    (others : ∀ s, see i s = v → (∀ j, j ≠ i → see j (act s) = see j s) ∧ apart (act s) = apart s) :
    Confined see apart i v (Atomic.change act) () w :=
  .step (fun s same => ⟨mine s same, rfl⟩) others .done

theorem Confined.bind (first : Confined see apart i v p a w)
    (rest : Confined see apart i w (f a) b x) : Confined see apart i v (p >>= f) b x := by
  change Confined see apart i v (p.bind f) b x
  induction first with
  | done => exact rest
  | @step v w y a act next q mine others _ ih =>
    refine .step (q := q.bind f) (fun s same => ?_) others (ih rest)
    exact ⟨(mine s same).1, by rw [(mine s same).2]⟩

/-- Alone, the program does what its view says. -/
theorem Confined.run (confined : Confined see apart i v p a w) (here : see i s = v) :
    ∃ t, Atomic.run p s = some (a, t) ∧ see i t = w ∧ (∀ j, j ≠ i → see j t = see j s) ∧
      apart t = apart s := by
  induction confined generalizing s with
  | done => exact ⟨s, rfl, here, fun _ _ => rfl, rfl⟩
  | @step v w y a act next q mine others _ ih =>
    obtain ⟨view, same⟩ := mine s here
    obtain ⟨kept, outside⟩ := others s here
    obtain ⟨t, result, final, rest, aside⟩ := ih view
    refine ⟨t, ?_, final, fun j other => (rest j other).trans (kept j other), aside.trans outside⟩
    rw [run_step, same, result]

end Confined

variable [DecidableEq ι]

/-- Steps of one program or another of a pool. -/
inductive Interleaved : (ι → Program σ α) → σ → (ι → Program σ α) → σ → Prop
  | none {pool : ι → Program σ α} {s : σ} : Interleaved pool s pool s
  | step {pool pool' : ι → Program σ α} {s s' : σ} {act : σ → σ} {next : σ → Program σ α} (i : ι)
    (here : pool i = .step act next)
    (rest : Interleaved (Function.update pool i (next s)) (act s) pool' s') :
    Interleaved pool s pool' s'

variable {see : ι → σ → γ} {apart : σ → δ} {pool pool' : ι → Program σ α} {s s' : σ} {i : ι}
  {a : ι → α} {v : ι → γ} {b : α}

/-- Whoever takes a step, every program still ends as it would alone. -/
theorem Interleaved.confined (run : Interleaved pool s pool' s')
    (alone : ∀ i, Confined see apart i (see i s) (pool i) (a i) (v i)) :
    (∀ i, Confined see apart i (see i s') (pool' i) (a i) (v i)) ∧ apart s' = apart s := by
  induction run with
  | none => exact ⟨alone, rfl⟩
  | @step pool pool' s s' act next i here rest ih =>
    have own := alone i
    rw [here] at own
    cases own with
    | @step _ w _ _ _ _ q mine others final =>
      obtain ⟨view, same⟩ := mine s rfl
      obtain ⟨kept, outside⟩ := others s rfl
      obtain ⟨confined, aside⟩ := ih fun j => by
        by_cases equal : j = i
        · subst equal
          rw [Function.update_self, same, view]
          exact final
        · rw [Function.update_of_ne equal, kept j equal]
          exact alone j
      exact ⟨confined, aside.trans outside⟩

/-- No order of the steps makes a difference to a program: it is never stuck, and when it has
ended, its result and its view are those of a run alone. -/
theorem Interleaved.alone (run : Interleaved pool s pool' s')
    (alone : ∀ i, Confined see apart i (see i s) (pool i) (a i) (v i)) :
    pool' i ≠ .undefined ∧ (pool' i = .done b → ∃ t, Atomic.run (pool i) s = some (b, t) ∧
      see i t = see i s') := by
  have final := (run.confined alone).1 i
  refine ⟨fun stuck => ?_, fun ended => ?_⟩
  · rw [stuck] at final
    cases final
  · obtain ⟨t, result, view, -⟩ := (alone i).run rfl
    rw [ended] at final
    obtain ⟨rfl, same⟩ : b = a i ∧ see i s' = v i := by
      generalize see i s' = y, v i = z, a i = c at final
      cases final
      exact ⟨rfl, rfl⟩
    exact ⟨t, result, view.trans same.symm⟩

end Atomic
