import Mathlib.Logic.Function.Basic
import Mathlib.Data.Set.Insert
import Mathlib.Tactic.Common

/-! Programs of atomic steps over a state that others may share. A program can be run
to its end, cut after any step, or interleaved with another one. -/
namespace Atomic

/-- A step changes the state at once; what follows may depend on the state it found. -/
inductive Program (σ α : Type) where
  | done (result : α)
  | undefined
  | step (act : σ → σ) (next : σ → Program σ α)

variable {σ α β : Type}

def Program.bind (p : Program σ α) (f : α → Program σ β) : Program σ β :=
  match p with
  | .done a => f a
  | .undefined => .undefined
  | .step act next => .step act fun s => (next s).bind f

instance : Monad (Program σ) where
  pure := .done
  bind := Program.bind

theorem Program.bind_done (p : Program σ α) : p.bind .done = p := by
  induction p with
  | done a => rfl
  | undefined => rfl
  | step act next ih =>
    rw [Program.bind]
    congr 1
    funext s
    exact ih s

theorem Program.bind_assoc {γ : Type} (p : Program σ α) (f : α → Program σ β)
    (g : β → Program σ γ) : (p.bind f).bind g = p.bind fun a => (f a).bind g := by
  induction p with
  | done a => rfl
  | undefined => rfl
  | step act next ih =>
    simp only [Program.bind]
    congr 1
    funext s
    exact ih s

instance : LawfulMonad (Program σ) :=
  LawfulMonad.mk' _ (fun p => p.bind_done) (fun _ _ => rfl) (fun p f g => p.bind_assoc f g)

/-- One step that reads `f` of the state. -/
def read (f : σ → α) : Program σ α := .step id fun s => .done (f s)

/-- One step that changes the state. -/
def change (act : σ → σ) : Program σ Unit := .step act fun _ => .done ()

/-- Alone, from the first step to the last. -/
def run : Program σ α → σ → Option (α × σ)
  | .done a, s => some (a, s)
  | .undefined, _ => none
  | .step act next, s => run (next s) (act s)

variable {p : Program σ α} {f : α → Program σ β} {s t : σ} {a : α} {act : σ → σ}
  {next : σ → Program σ α}

@[simp] theorem run_pure : run (pure a : Program σ α) s = some (a, s) := rfl
@[simp] theorem run_done : run (.done a) s = some (a, s) := rfl
@[simp] theorem run_undefined : run (.undefined : Program σ α) s = none := rfl
@[simp] theorem run_step : run (.step act next) s = run (next s) (act s) := rfl
@[simp] theorem run_read {f : σ → α} : run (read f) s = some (f s, s) := rfl
@[simp] theorem run_change : run (change act) s = some ((), act s) := rfl

@[simp] theorem run_bind : run (p >>= f) s = (run p s).bind fun r => run (f r.1) r.2 := by
  change run (p.bind f) s = _
  induction p generalizing s with
  | done a => rfl
  | undefined => rfl
  | step act next ih => exact ih s

theorem run_then (first : run p s = some (a, t)) : run (p >>= f) s = run (f a) t := by
  rw [run_bind, first]
  rfl

/-- The states of a run, the first and the last included. -/
def visits : Program σ α → σ → Set σ
  | .done _, s => {s}
  | .undefined, s => {s}
  | .step act next, s => insert s (visits (next s) (act s))

@[simp] theorem visits_pure : visits (pure a : Program σ α) s = {s} := rfl

@[simp] theorem visits_read {f : σ → α} : visits (read f) s = {s} := by
  rw [read, visits, visits, id, Set.insert_eq_of_mem (Set.mem_singleton s)]

@[simp] theorem visits_change : visits (change act) s = {s, act s} := rfl

theorem visits_start : s ∈ visits p s := by
  cases p with
  | done a => exact Set.mem_singleton s
  | undefined => exact Set.mem_singleton s
  | step act next => exact Set.mem_insert s _

/-- A sequence is cut inside its first part, or where the second one is cut. -/
theorem visits_bind : t ∈ visits (p >>= f) s ↔
    t ∈ visits p s ∨ ∃ r, run p s = some r ∧ t ∈ visits (f r.1) r.2 := by
  change t ∈ visits (p.bind f) s ↔ _
  induction p generalizing s with
  | done a =>
    simp only [Program.bind, visits, run_done, Option.some.injEq, exists_eq_left']
    refine ⟨.inr, ?_⟩
    rintro (rfl | later)
    · exact visits_start
    · exact later
  | undefined => simp [Program.bind, visits]
  | step act next ih =>
    simp only [Program.bind, visits, Set.mem_insert_iff, run_step, ih]
    tauto

/-- No step changes what `f` sees of the state. -/
def Leaves {γ : Type} (f : σ → γ) : Program σ α → Prop
  | .done _ => True
  | .undefined => True
  | .step act next => (∀ s, f (act s) = f s) ∧ ∀ s, Leaves f (next s)

section Leaves

variable {γ : Type} {see : σ → γ}

theorem Leaves.pure : Leaves see (Pure.pure a : Program σ α) := trivial

theorem Leaves.undefined : Leaves see (.undefined : Program σ α) := trivial

theorem Leaves.read {f : σ → α} : Leaves see (Atomic.read f) := ⟨fun _ => rfl, fun _ => trivial⟩

theorem Leaves.change (same : ∀ s, see (act s) = see s) : Leaves see (Atomic.change act) :=
  ⟨same, fun _ => trivial⟩

theorem Leaves.bind (first : Leaves see p) (rest : ∀ a, Leaves see (f a)) :
    Leaves see (p >>= f) := by
  change Leaves see (p.bind f)
  induction p with
  | done a => exact rest a
  | undefined => exact trivial
  | step act next ih => exact ⟨first.1, fun s => ih s (first.2 s)⟩

theorem Leaves.ite {c : Prop} [Decidable c] {q : Program σ α} (yes : Leaves see p)
    (no : Leaves see q) : Leaves see (if c then p else q) := by
  split
  · exact yes
  · exact no

theorem Leaves.run (leaves : Leaves see p) (result : Atomic.run p s = some (a, t)) :
    see t = see s := by
  induction p generalizing s with
  | done b =>
    cases result
    rfl
  | undefined => cases result
  | step act next ih => exact (ih s (leaves.2 s) result).trans (leaves.1 s)

theorem Leaves.visits (leaves : Leaves see p) (here : t ∈ Atomic.visits p s) : see t = see s := by
  induction p generalizing s with
  | done b | undefined => rw [Set.mem_singleton_iff.mp here]
  | step act next ih =>
    rcases here with rfl | later
    · rfl
    · exact (ih s (leaves.2 s) later).trans (leaves.1 s)

/-- A program that is cut leaves an `old` state, or `see` shows what the whole run makes. -/
def Cut (old : σ → Prop) (see : σ → γ) (p : Program σ α) (s : σ) : Prop :=
  ∀ t ∈ Atomic.visits p s, ∀ a u, Atomic.run p s = some (a, u) → old t ∨ see t = see u

variable {old : σ → Prop} {g : σ → α}

theorem Leaves.cut (leaves : Leaves see p) : Cut old see p s := fun _ here _ _ result =>
  .inr ((leaves.visits here).trans (leaves.run result).symm)

theorem Cut.change (start : old s) : Cut old see (Atomic.change act) s := by
  intro t here a u result
  cases result
  rcases here with rfl | rfl
  · exact .inl start
  · exact .inr rfl

theorem Cut.read (start : old s) (rest : Cut old see (f (g s)) s) :
    Cut old see (Atomic.read g >>= f) s := by
  intro t here b u result
  rw [run_then run_read] at result
  rw [visits_bind, visits_read] at here
  rcases here with rfl | ⟨r, first, later⟩
  · exact .inl start
  · cases first
    exact rest t later b u result

/-- What comes after does not matter when it is not seen. -/
theorem Cut.bind (first : Cut old see p s) (rest : ∀ a, Leaves see (f a)) :
    Cut old see (p >>= f) s := by
  intro t here b u result
  rw [run_bind] at result
  obtain ⟨⟨a, r⟩, made, last⟩ := Option.bind_eq_some_iff.mp result
  have final := (rest a).run last
  rcases visits_bind.mp here with before | ⟨⟨a', r'⟩, made', later⟩
  · exact (first t before a r made).imp_right fun same => same.trans final.symm
  · rw [made] at made'
    cases made'
    exact .inr (((rest a).visits later).trans final.symm)

end Leaves

/-- The state after `k` steps, or after the last one. -/
def after : Nat → Program σ α → σ → σ
  | k + 1, .step act next, s => after k (next s) (act s)
  | _, _, s => s

theorem after_visits {k : Nat} : after k p s ∈ visits p s := by
  induction p generalizing k s with
  | done a => cases k <;> exact Set.mem_singleton s
  | undefined => cases k <;> exact Set.mem_singleton s
  | step act next ih =>
    cases k with
    | zero => exact Set.mem_insert s _
    | succ k => exact Set.mem_insert_of_mem s (ih s)

theorem after_zero : after 0 p s = s := by
  cases p <;> rfl

theorem after_pure {k : Nat} : after k (pure a : Program σ α) s = s := by
  cases k <;> rfl

theorem after_read {k : Nat} {f : σ → α} {g : α → Program σ β} :
    after (k + 1) (read f >>= g) s = after k (g (f s)) s := (rfl)

theorem after_change {k : Nat} {g : Unit → Program σ β} :
    after (k + 1) (change act >>= g) s = after k (g ()) (act s) := (rfl)

theorem after_last {k : Nat} : after (k + 1) (change act) s = act s := by
  cases k <;> rfl

end Atomic
