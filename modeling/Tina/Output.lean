import Tina.Cursor

/-! A file that grows while it is written at a position, and the filling of its last block. -/
namespace Output

open Cursor

variable {α : Type} {a b : List α} {p k n block : Nat} {x : α}

structure File (α : Type) where
  content : Nat → α
  position : Nat
  size : Nat

namespace File

variable {f : File α}

/-- Writing nothing does not make the file longer, wherever the position is. -/
def write (a : List α) (f : File α) : File α where
  content := splice f.position a f.content
  position := f.position + a.length
  size := if a.isEmpty then f.size else max f.size (f.position + a.length)

def put (x : α) (f : File α) : File α := f.write [x]

def seek (p : Nat) (f : File α) : File α := { f with position := p }

@[simp] theorem write_nil : f.write [] = f := by simp [write]

/-- Two writes, one after the other, are one. -/
theorem write_append : (f.write a).write b = f.write (a ++ b) := by
  by_cases first : a = []
  · rw [first, write_nil, List.nil_append]
  by_cases second : b = []
  · rw [second, write_nil, List.append_nil]
  simp only [write, splice_append, List.length_append, List.isEmpty_iff, first, second,
    List.append_eq_nil_iff, and_self, if_false]
  congr 1
  · omega
  · omega

theorem write_position : (f.write a).position = f.position + a.length := rfl

/-- Behind the end, the file ends where the write does. -/
theorem write_size (behind : f.size = f.position) : (f.write a).size = f.position + a.length := by
  cases a with
  | nil => exact behind
  | cons x a =>
    simp only [write, List.isEmpty_cons, List.length_cons, Bool.false_eq_true, if_false]
    omega

/-- Before the end, the file stays as long as it is. -/
theorem write_size_inside (inside : f.position + a.length ≤ f.size) :
    (f.write a).size = f.size := by
  cases a with
  | nil => rfl
  | cons x a =>
    simp only [write, List.isEmpty_cons, Bool.false_eq_true, if_false]
    omega

end File

/-- The elements, and what fills the last block. -/
def filled (x : α) (block : Nat) (a : List α) : List α :=
  a ++ List.replicate ((block - a.length % block) % block) x

/-- The blocks that so many elements need. -/
def blocks (block n : Nat) : Nat := (n + (block - 1)) / block

theorem filled_length (positive : 0 < block) :
    (filled x block a).length = block * blocks block a.length := by
  have parts := Nat.div_add_mod a.length block
  have rest := Nat.mod_lt a.length positive
  have few : (block - 1) / block = 0 := Nat.div_eq_of_lt (by omega)
  rw [filled, blocks, List.length_append, List.length_replicate]
  by_cases exact : a.length % block = 0
  · rw [exact, Nat.sub_zero, Nat.mod_self]
    rw [exact] at parts
    rw [← parts, Nat.add_zero, Nat.mul_add_div positive, few, Nat.add_zero]
  · have more : (a.length % block + (block - 1)) / block = 1 := by
      rw [show a.length % block + (block - 1) = a.length % block - 1 + block by omega,
        Nat.add_div_right _ positive, Nat.div_eq_of_lt (by omega)]
    rw [Nat.mod_eq_of_lt (by omega)]
    calc a.length + (block - a.length % block)
        = block * (a.length / block) + block := by omega
      _ = block * (a.length / block + 1) := (Nat.mul_succ ..).symm
      _ = block * ((block * (a.length / block) + a.length % block + (block - 1)) / block) := by
          rw [Nat.add_assoc, Nat.mul_add_div positive, more]
      _ = block * ((a.length + (block - 1)) / block) := by rw [parts]

end Output
