import Mathlib.Data.Fintype.Card
import Mathlib.Logic.Function.Basic
import Mathlib.Tactic.Common

/-! Places below `n` that get the numbers 0, 1, 2, … in the order in which they are first
used. -/
namespace Numbering

/-- `next` places have a number, each its own. -/
structure Numbered (n next : Nat) (number : Nat → Option Nat) : Prop where
  place : ∀ {i k}, number i = some k → i < n ∧ k < next
  taken : ∀ {k}, k < next → ∃ i, number i = some k
  single : ∀ {i j k}, number i = some k → number j = some k → i = j

variable {n next i : Nat} {number : Nat → Option Nat}

theorem Numbered.nothing : Numbered n 0 fun _ => none where
  place := nofun
  taken low := absurd low (Nat.not_lt_zero _)
  single := nofun

theorem assign_some {j k : Nat} : Function.update number i (some next) j = some k ↔
    j = i ∧ next = k ∨ j ≠ i ∧ number j = some k := by
  by_cases here : j = i
  · subst here
    simp
  · simp [here]

theorem Numbered.assign (numbered : Numbered n next number) (inside : i < n)
    (free : number i = none) : Numbered n (next + 1) (Function.update number i (some next)) where
  place := by
    intro j k here
    rcases assign_some.mp here with ⟨rfl, rfl⟩ | ⟨_, old⟩
    · exact ⟨inside, Nat.lt_succ_self _⟩
    · have place := numbered.place old
      exact ⟨place.1, by omega⟩
  taken := by
    intro k low
    rcases Nat.lt_succ_iff_lt_or_eq.mp low with old | rfl
    · obtain ⟨j, there⟩ := numbered.taken old
      refine ⟨j, assign_some.mpr (.inr ⟨?_, there⟩)⟩
      rintro rfl
      simp [free] at there
    · exact ⟨i, assign_some.mpr (.inl ⟨rfl, rfl⟩)⟩
  single := by
    intro j j' k here there
    rcases assign_some.mp here with ⟨rfl, rfl⟩ | ⟨_, old⟩
    · rcases assign_some.mp there with ⟨rfl, _⟩ | ⟨_, old⟩
      · rfl
      · exact absurd (numbered.place old).2 (Nat.lt_irrefl _)
    · rcases assign_some.mp there with ⟨rfl, rfl⟩ | ⟨_, old'⟩
      · exact absurd (numbered.place old).2 (Nat.lt_irrefl _)
      · exact numbered.single old old'

/-- There are no more numbers than places. -/
theorem Numbered.bound (numbered : Numbered n next number) : next ≤ n := by
  have used : ∀ k : Fin next, ∃ i : Fin n, number i = some k.val := by
    intro k
    obtain ⟨i, there⟩ := numbered.taken k.isLt
    exact ⟨⟨i, (numbered.place there).1⟩, there⟩
  choose place there using used
  have apart : Function.Injective place := by
    intro k l same
    have equal := there k
    rw [same, there l] at equal
    exact Fin.ext (Option.some.inj equal).symm
  simpa using Fintype.card_le_of_injective place apart

/-- While a place is free, so is a number. -/
theorem Numbered.room (numbered : Numbered n next number) (inside : i < n)
    (free : number i = none) : next < n := (numbered.assign inside free).bound

end Numbering
