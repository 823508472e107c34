import Mathlib.Data.List.Basic
import Mathlib.Logic.Function.Basic

/-! Values written one after another to places of their own, and read back. -/
namespace SaveArea

variable {ι κ α : Type} [DecidableEq κ]

/-- Each value goes to its place, in the order of the list. -/
def spill (place : ι → κ) (value : ι → α) : List ι → (κ → α) → κ → α
  | [], m => m
  | i :: is, m => spill place value is (Function.update m (place i) (value i))

variable {place : ι → κ} {value : ι → α} {is : List ι} {m : κ → α} {i : ι} {k : κ}

@[simp] theorem spill_nil : spill place value [] m = m := rfl

@[simp] theorem spill_cons : spill place value (i :: is) m =
    spill place value is (Function.update m (place i) (value i)) := rfl

theorem spill_congr {value' : ι → α} (same : ∀ i ∈ is, value i = value' i) :
    spill place value is m = spill place value' is m := by
  induction is generalizing m with
  | nil => rfl
  | cons i is ih =>
    rw [spill_cons, spill_cons, same i List.mem_cons_self]
    exact ih fun j member => same j (List.mem_cons_of_mem i member)

theorem spill_outside (outside : ∀ i ∈ is, place i ≠ k) : spill place value is m k = m k := by
  induction is generalizing m with
  | nil => rfl
  | cons i is ih =>
    rw [spill_cons, ih fun j member => outside j (List.mem_cons_of_mem i member)]
    exact Function.update_of_ne (outside i List.mem_cons_self).symm ..

/-- A later value does not reach the place of an earlier one. -/
theorem spill_inside (apart : ∀ i ∈ is, ∀ j ∈ is, place i = place j → i = j) (member : i ∈ is) :
    spill place value is m (place i) = value i := by
  induction is generalizing m with
  | nil => cases member
  | cons j is ih =>
    have apart' : ∀ a ∈ is, ∀ b ∈ is, place a = place b → a = b := fun a first b second =>
      apart a (List.mem_cons_of_mem j first) b (List.mem_cons_of_mem j second)
    by_cases again : i ∈ is
    · exact ih apart' again
    · obtain rfl : i = j := (List.mem_cons.mp member).resolve_right again
      have outside : ∀ a ∈ is, place a ≠ place i := by
        intro a first same
        have equal := apart a (List.mem_cons_of_mem i first) i List.mem_cons_self same
        exact again (equal ▸ first)
      rw [spill_cons, spill_outside outside, Function.update_self]

end SaveArea
