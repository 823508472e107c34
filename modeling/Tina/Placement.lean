import Mathlib.Logic.Function.Basic

/-! A memory whose places are given out while it is used: names that have a place keep it and no
two share one. Whoever only uses names sees one flat memory. -/
namespace Placement

variable {ν π α : Type}

structure Placed (ν π α : Type) where
  place : ν → Option π
  mem : π → α

/-- A use of a name, a change where no name has its place, or new places. -/
inductive Access (ν π α : Type) where
  | load (v : ν) (a : α)
  | store (v : ν) (a : α)
  | outside (p : π) (a : α)
  | grow

def Apart (place : ν → Option π) : Prop :=
  ∀ v w p, place v = some p → place w = some p → v = w

def Grows (place place' : ν → Option π) : Prop := ∀ v p, place v = some p → place' v = some p

variable [DecidableEq ν] [DecidableEq π]

inductive Step (s : Placed ν π α) : Access ν π α → Placed ν π α → Prop
  | load {v : ν} {p : π} (here : s.place v = some p) : Step s (.load v (s.mem p)) s
  | store {v : ν} {p : π} {a : α} (here : s.place v = some p) :
    Step s (.store v a) { s with mem := Function.update s.mem p a }
  | outside {p : π} {a : α} (free : ∀ v, s.place v ≠ some p) :
    Step s (.outside p a) { s with mem := Function.update s.mem p a }
  | grow {place : ν → Option π} (grows : Grows s.place place) (apart : Apart place) :
    Step s .grow { s with place }

inductive Runs : List (Access ν π α) → Placed ν π α → Placed ν π α → Prop
  | nil {s : Placed ν π α} : Runs [] s s
  | cons {a : Access ν π α} {as : List (Access ν π α)} {s t u : Placed ν π α} :
    Step s a t → Runs as t u → Runs (a :: as) s u

/-- Each load gives what a flat memory has, each store changes it at one name. -/
def Replays (M : ν → α) : List (Access ν π α) → Prop
  | [] => True
  | .load v a :: as => M v = a ∧ Replays M as
  | .store v a :: as => Replays (Function.update M v a) as
  | _ :: as => Replays M as

/-- What the flat memory is in the end. -/
def after (M : ν → α) : List (Access ν π α) → ν → α
  | [] => M
  | .store v a :: as => after (Function.update M v a) as
  | _ :: as => after M as

def Agrees (M : ν → α) (s : Placed ν π α) : Prop := ∀ v p, s.place v = some p → M v = s.mem p

variable {s t : Placed ν π α} {as : List (Access ν π α)}

/-- The flat memory has, for a name without a place, what its place holds when it gets one. -/
theorem Runs.flat [Inhabited α] (runs : Runs as s t) (apart : Apart s.place) :
    ∃ M : ν → α, Agrees M s ∧ Replays M as ∧ Agrees (after M as) t := by
  induction runs with
  | @nil s =>
    have value : Agrees (fun v => (s.place v).elim default s.mem) s := by
      intro v p here
      simp [here]
    exact ⟨_, value, trivial, value⟩
  | @cons a as s t u step runs ih =>
    cases step with
    | @load v p here =>
      obtain ⟨M, agrees, replays, final⟩ := ih apart
      exact ⟨M, agrees, ⟨agrees v p here, replays⟩, final⟩
    | @store v p b here =>
      obtain ⟨M, agrees, replays, final⟩ := ih apart
      have new : M v = b := by
        rw [agrees v p here]
        exact Function.update_self ..
      have same : Function.update (Function.update M v (s.mem p)) v b = M := by
        rw [Function.update_idem, ← new, Function.update_eq_self]
      refine ⟨Function.update M v (s.mem p), ?_, ?_, ?_⟩
      · intro w q there
        by_cases equal : w = v
        · subst equal
          obtain rfl : p = q := Option.some.inj (here.symm.trans there)
          exact Function.update_self ..
        · have other : q ≠ p := fun place => equal (apart w v p (place ▸ there) here)
          rw [Function.update_of_ne equal, agrees w q there]
          exact Function.update_of_ne other ..
      · rw [Replays, same]
        exact replays
      · rw [after, same]
        exact final
    | @outside p b free =>
      obtain ⟨M, agrees, replays, final⟩ := ih apart
      refine ⟨M, ?_, replays, final⟩
      intro w q there
      have other : q ≠ p := fun place => free w (place ▸ there)
      rw [agrees w q there]
      exact Function.update_of_ne other ..
    | grow grows apart' =>
      obtain ⟨M, agrees, replays, final⟩ := ih apart'
      exact ⟨M, fun w q there => agrees w q (grows w q there), replays, final⟩

end Placement
