import Mathlib.Algebra.Ring.Nat
import Mathlib.Logic.Function.Basic
import Mathlib.Tactic.Common

/-! A file that is read and written at cursors, one for each of its users. -/
namespace Cursor

variable {α κ : Type} [DecidableEq κ] {c : Nat → α} {a b : List α} {p n m k : Nat} {r : κ}

structure File (α κ : Type) where
  content : Nat → α
  cursor : κ → Nat

/-- The elements from `p` on are replaced. -/
def splice (p : Nat) (a : List α) (c : Nat → α) : Nat → α := fun k =>
  if p ≤ k then (a[k - p]?).getD (c k) else c k

/-- The `n` elements from `p` on. -/
def slice (p n : Nat) (c : Nat → α) : List α := (List.range n).map fun k => c (p + k)

namespace File

variable {f : File α κ}

def write (r : κ) (a : List α) (f : File α κ) : File α κ where
  content := splice (f.cursor r) a f.content
  cursor := Function.update f.cursor r (f.cursor r + a.length)

def read (r : κ) (n : Nat) (f : File α κ) : List α := slice (f.cursor r) n f.content

def seek (r : κ) (p : Nat) (f : File α κ) : File α κ :=
  { f with cursor := Function.update f.cursor r p }

def skip (r : κ) (n : Nat) (f : File α κ) : File α κ := f.seek r (f.cursor r + n)

def writeAll (r : κ) (parts : List (List α)) (f : File α κ) : File α κ :=
  parts.foldl (fun f a => f.write r a) f

/-- What successive reads return. -/
def readAll (r : κ) : List Nat → File α κ → List (List α)
  | [], _ => []
  | n :: sizes, f => f.read r n :: readAll r sizes (f.skip r n)

end File

theorem splice_before (early : k < p) : splice p a c k = c k := if_neg (Nat.not_le.mpr early)

theorem splice_behind (late : p + a.length ≤ k) : splice p a c k = c k := by
  rw [splice, if_pos (by omega), List.getElem?_eq_none (by omega), Option.getD_none]

theorem splice_inside (inside : k < a.length) : splice p a c (p + k) = a[k] := by
  rw [splice, if_pos (by omega), Nat.add_sub_cancel_left, List.getElem?_eq_getElem inside,
    Option.getD_some]

@[simp] theorem splice_nil : splice p [] c = c := by
  funext k
  simp [splice]

/-- Writing on where the last write ended is writing both at once. -/
theorem splice_append : splice (p + a.length) b (splice p a c) = splice p (a ++ b) c := by
  funext k
  by_cases early : k < p
  · rw [splice_before (by omega), splice_before early, splice_before early]
  · obtain ⟨k, rfl⟩ := Nat.exists_eq_add_of_le (Nat.le_of_not_lt early)
    by_cases first : k < a.length
    · rw [splice_before (by omega), splice_inside first,
        splice_inside (by rw [List.length_append]; omega), List.getElem_append_left first]
    · obtain ⟨j, rfl⟩ := Nat.exists_eq_add_of_le (Nat.le_of_not_lt first)
      by_cases second : j < b.length
      · rw [← Nat.add_assoc, splice_inside second, Nat.add_assoc,
          splice_inside (by rw [List.length_append]; omega)]
        simp
      · rw [splice_behind (by omega), splice_behind (by omega),
          splice_behind (by rw [List.length_append]; omega)]

theorem slice_length : (slice p n c).length = n := by
  rw [slice, List.length_map, List.length_range]

theorem slice_add : slice p (n + m) c = slice p n c ++ slice (p + n) m c := by
  rw [slice, List.range_add, List.map_append, List.map_map]
  simp [slice, Function.comp_def, Nat.add_assoc]

/-- What was written is read back. -/
theorem slice_splice (inside : n ≤ a.length) : slice p n (splice p a c) = a.take n := by
  apply List.ext_getElem
  · rw [slice_length, List.length_take]
    omega
  · intro k low _
    rw [slice_length] at low
    simp only [slice, List.getElem_map, List.getElem_range, List.getElem_take]
    exact splice_inside (by omega)

section Runs

variable {f : File α κ} {parts : List (List α)} {sizes : List Nat}

theorem writeAll_eq : f.writeAll r parts = f.write r parts.flatten := by
  induction parts generalizing f with
  | nil => simp [File.writeAll, File.write]
  | cons a parts ih =>
    have later : f.writeAll r (a :: parts) = (f.write r a).writeAll r parts := rfl
    rw [later, ih, File.write, File.write, File.write]
    simp only [Function.update_self, Function.update_idem, splice_append, List.flatten_cons,
      List.length_append, Nat.add_assoc]

/-- Reads in parts are one read. -/
theorem readAll_flatten : (f.readAll r sizes).flatten = f.read r sizes.sum := by
  induction sizes generalizing f with
  | nil => rfl
  | cons n sizes ih =>
    have next : (f.skip r n).read r sizes.sum = slice (f.cursor r + n) sizes.sum f.content := by
      simp [File.skip, File.seek, File.read]
    rw [File.readAll, List.flatten_cons, ih, next, List.sum_cons]
    exact slice_add.symm

/-- What is written in parts from a place on is read in parts from there. -/
theorem readAll_writeAll (enough : sizes.sum ≤ parts.flatten.length) :
    (((f.writeAll r parts).seek r (f.cursor r)).readAll r sizes).flatten =
      parts.flatten.take sizes.sum := by
  rw [readAll_flatten, writeAll_eq]
  simp only [File.read, File.seek, Function.update_self]
  exact slice_splice enough

end Runs

end Cursor
