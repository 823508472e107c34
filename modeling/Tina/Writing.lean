import Tina.Buffer
import Mathlib.Data.List.GetD

/-! Texts that are written into arrays of a fixed size, character by character: what the array holds
then, how it is reversed in place, and what is left of a text that is too long. -/
namespace Writing

open ByteBuffer

variable {size p i k len rounds : Nat} {b base : Buffer} {c : Byte} {s t text : List Byte}

/-- The bytes of a text from `p` on. -/
def write (p : Nat) (text : List Byte) (b : Buffer) : Buffer :=
  fun k => if p ≤ k ∧ k < p + text.length then text.getD (k - p) 0 else b k

theorem write_outside (outside : k < p ∨ p + text.length ≤ k) : write p text b k = b k := by
  rw [write, if_neg (by omega)]

theorem write_inside (inside : k < text.length) : write p text b (p + k) = text.getD k 0 := by
  rw [write, if_pos (by omega), Nat.add_sub_cancel_left]

theorem write_start (inside : k < text.length) : write 0 text b k = text.getD k 0 := by
  rw [write, if_pos (by omega), Nat.sub_zero]

@[simp] theorem write_nil : write p [] b = b := by
  funext k
  exact write_outside (by simp only [List.length_nil]; omega)

theorem write_append : write (p + s.length) t (write p s b) = write p (s ++ t) b := by
  funext k
  by_cases second : p + s.length ≤ k ∧ k < p + s.length + t.length
  · obtain ⟨e, rfl⟩ := Nat.exists_eq_add_of_le second.1
    rw [write_inside (by omega), Nat.add_assoc, write_inside (by simp; omega),
      List.getD_append_right _ _ _ _ (by omega), Nat.add_sub_cancel_left]
  · rw [write_outside (by omega)]
    by_cases first : p ≤ k ∧ k < p + s.length
    · obtain ⟨e, rfl⟩ := Nat.exists_eq_add_of_le first.1
      have low : e < s.length := by omega
      rw [write_inside low, write_inside (by simp; omega), List.getD_append _ _ _ _ low]
    · rw [write_outside (by omega), write_outside (by simp; omega)]

theorem write_one : write p [c] b = Function.update b p c := by
  funext k
  by_cases same : k = p
  · subst same
    rw [Function.update_self]
    exact write_inside (k := 0) (by simp)
  · rw [Function.update_of_ne same, write_outside (by simp; omega)]

/-- An array, and where the next character goes. -/
structure Out where
  buffer : Buffer
  p : Nat

/-- `*(p++) = c`; none for a store outside. -/
def Out.push (size : Nat) (c : Byte) (o : Out) : Option Out :=
  if o.p < size then some ⟨Function.update o.buffer o.p c, o.p + 1⟩ else none

def Out.pushAll (size : Nat) : List Byte → Out → Option Out
  | [], o => some o
  | c :: text, o => do
    let o ← o.push size c
    o.pushAll size text

/-- The characters, whether there is room or not. -/
def Out.append (text : List Byte) (o : Out) : Out := ⟨write o.p text o.buffer, o.p + text.length⟩

variable {o : Out}

@[simp] theorem Out.append_p : (o.append text).p = o.p + text.length := rfl

@[simp] theorem Out.append_buffer : (o.append text).buffer = write o.p text o.buffer := rfl

@[simp] theorem Out.append_nil : o.append [] = o := by
  rw [append, write_nil]
  rfl

theorem Out.append_append : (o.append s).append t = o.append (s ++ t) := by
  simp only [append, write_append, List.length_append, Nat.add_assoc]

theorem Out.push_room (room : o.p < size) : o.push size c = some (o.append [c]) := by
  rw [push, if_pos room, append, write_one]
  rfl

theorem Out.pushAll_room (room : o.p + text.length ≤ size) :
    o.pushAll size text = some (o.append text) := by
  induction text generalizing o with
  | nil => rw [append_nil]; rfl
  | cons c text ih =>
    simp only [List.length_cons] at room
    rw [pushAll, push_room (by omega)]
    have rest := ih (o := o.append [c]) (by simp only [append_p, List.length_singleton]; omega)
    simpa [append_append] using rest

/-! Reversal in place. -/

def swap (i j : Nat) (b : Buffer) : Buffer := Function.update (Function.update b i (b j)) j (b i)

/-- `for` over the first half: each with its counterpart. -/
def reverseLoop (len : Nat) : Nat → Nat → Buffer → Buffer
  | 0, _, b => b
  | rounds + 1, i, b => reverseLoop len rounds (i + 1) (swap i (len - i - 1) b)

theorem swap_first {i j : Nat} (apart : i ≠ j) : swap i j b i = b j := by
  rw [swap, Function.update_of_ne apart, Function.update_self]

theorem swap_second {i j : Nat} : swap i j b j = b i := Function.update_self ..

theorem swap_other {i j : Nat} (first : k ≠ i) (second : k ≠ j) : swap i j b k = b k := by
  rw [swap, Function.update_of_ne second, Function.update_of_ne first]

/-- The rounds have exchanged a part at each end. -/
theorem reverseLoop_at (half : 2 * (i + rounds) ≤ len) : reverseLoop len rounds i b k =
    if i ≤ k ∧ k < i + rounds ∨ len ≤ k + i + rounds ∧ k + i < len then b (len - 1 - k)
    else b k := by
  induction rounds generalizing i b with
  | zero =>
    rw [if_neg (by omega)]
    rfl
  | succ rounds ih =>
    rw [reverseLoop, ih (by omega)]
    by_cases first : k = i
    · subst first
      rw [if_neg (by omega), if_pos (by omega), swap_first (by omega),
        show len - k - 1 = len - 1 - k by omega]
    by_cases second : k = len - i - 1
    · subst second
      rw [if_neg (by omega), if_pos (by omega), swap_second,
        show len - 1 - (len - i - 1) = i by omega]
    by_cases between : i + 1 ≤ k ∧ k < i + 1 + rounds ∨
        len ≤ k + (i + 1) + rounds ∧ k + (i + 1) < len
    · rw [if_pos between, if_pos (by omega), swap_other (by omega) (by omega)]
    · rw [if_neg between, if_neg (by omega), swap_other first second]

theorem reverseLoop_reverses : reverseLoop len (len / 2) 0 b k =
    if k < len then b (len - 1 - k) else b k := by
  rw [reverseLoop_at (by omega)]
  by_cases moved : 0 ≤ k ∧ k < 0 + len / 2 ∨ len ≤ k + 0 + len / 2 ∧ k + 0 < len
  · rw [if_pos moved, if_pos (by omega)]
  · rw [if_neg moved]
    split
    · rw [show len - 1 - k = k by omega]
    · rfl

/-- A text with its zero byte is turned around; the zero byte stays where it is. -/
theorem reverseLoop_write : reverseLoop text.length (text.length / 2) 0 (write 0 (text ++ [0]) b) =
    write 0 (text.reverse ++ [0]) b := by
  funext k
  rw [reverseLoop_reverses]
  by_cases inside : k < text.length
  · rw [if_pos inside, write_start (by simp; omega), write_start (by simp; omega)]
    rw [List.getD_append _ _ _ _ (by omega), List.getD_append _ _ _ _ (by simpa), List.getD_reverse _ inside]
  · rw [if_neg inside]
    by_cases zero : k = text.length
    · subst zero
      rw [write_start (by simp), write_start (by simp)]
      simp
    · rw [write_outside (by simp; omega), write_outside (by simp; omega)]

/-! Texts that may be too long. -/

/-- Of the output the array holds what fits before its last byte. Behind it only one byte has been
changed. -/
structure Sink (size : Nat) (base : Buffer) (text : List Byte) (o : Out) : Prop where
  p : o.p = min text.length (size - 1)
  bytes : ∀ k < o.p, o.buffer k = text.getD k 0
  rest : ∀ k, o.p < k → o.buffer k = base k

theorem Sink.start : Sink size base [] ⟨base, 0⟩ where
  p := by simp
  bytes k low := absurd low (Nat.not_lt_zero k)
  rest k _ := rfl

/-- What comes to a full array is lost. -/
theorem Sink.full (sink : Sink size base text o) (full : size ≤ o.p + 1) :
    Sink size base (text ++ s) o where
  p := by
    have here := sink.p
    simp only [List.length_append]
    omega
  bytes k low := by
    have here := sink.p
    rw [sink.bytes k low, List.getD_append _ _ _ _ (by omega)]
  rest := sink.rest

/-- As much as there is room for, and a zero byte. -/
theorem Sink.append (sink : Sink size base text o) (positive : 0 < size) {n : Nat}
    (most : n = min s.length (size - 1 - o.p)) : Sink size base (text ++ s)
      ⟨Function.update (o.append (s.take n)).buffer (o.p + n) 0, o.p + n⟩ := by
  have here := sink.p
  have taken : (s.take n).length = n := by
    rw [List.length_take]
    omega
  refine ⟨?_, fun k low => ?_, fun k beyond => ?_⟩
  · simp only [List.length_append]
    omega
  · dsimp only at low ⊢
    rw [Function.update_of_ne (by omega), Out.append_buffer]
    by_cases old : k < o.p
    · rw [write_outside (by omega), sink.bytes k old, List.getD_append _ _ _ _ (by omega)]
    · obtain ⟨e, rfl⟩ := Nat.exists_eq_add_of_le (Nat.le_of_not_lt old)
      have whole : o.p = text.length := by omega
      rw [write_inside (by omega), whole, List.getD_append_right _ _ _ _ (by omega),
        Nat.add_sub_cancel_left, List.getD_eq_getElem?_getD, List.getD_eq_getElem?_getD,
        List.getElem?_take_of_lt (by omega)]
  · dsimp only at beyond ⊢
    rw [Function.update_of_ne (by omega), Out.append_buffer, write_outside (by omega)]
    exact sink.rest k (by omega)

end Writing
