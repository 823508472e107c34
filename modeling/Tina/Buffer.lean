import Mathlib.Algebra.Ring.Nat
import Mathlib.Logic.Function.Basic
import Mathlib.Data.List.Basic
import Mathlib.Tactic.Common

/-! Buffers of bytes without bounds: 32-bit words in them, little end first, and
strings that end with a zero byte. -/
namespace ByteBuffer

abbrev Byte := BitVec 8

abbrev Buffer := Nat → Byte

/-- A string argument: what stands before its zero byte. -/
abbrev CString := {s : List Byte // ∀ c ∈ s, c ≠ 0}

variable {b b' : Buffer} {a a' k n : Nat} {w : BitVec 32} {s : List Byte} {c : Byte}

/-- The word at `a`. -/
def word (b : Buffer) (a : Nat) : BitVec 32 :=
  BitVec.ofNat 32 ((b a).toNat + 256 * (b (a + 1)).toNat + 65536 * (b (a + 2)).toNat +
    16777216 * (b (a + 3)).toNat)

def byteOf (w : BitVec 32) (k : Nat) : Byte := BitVec.ofNat 8 (w.toNat / 256 ^ k)

def setWord (a : Nat) (w : BitVec 32) (b : Buffer) : Buffer :=
  fun k => if a ≤ k ∧ k < a + 4 then byteOf w (k - a) else b k

theorem word_congr (same : ∀ k, a ≤ k → k < a + 4 → b k = b' (k - a + a')) :
    word b a = word b' a' := by
  simp only [word, same a (by omega) (by omega), same (a + 1) (by omega) (by omega),
    same (a + 2) (by omega) (by omega), same (a + 3) (by omega) (by omega)]
  rw [show a - a + a' = a' by omega, show a + 1 - a + a' = a' + 1 by omega,
    show a + 2 - a + a' = a' + 2 by omega, show a + 3 - a + a' = a' + 3 by omega]

/-- A word of what two buffers have in common. -/
theorem word_same (same : ∀ k < n, b k = b' k) (inside : a + 4 ≤ n) : word b a = word b' a := by
  refine word_congr fun j low high => ?_
  rw [Nat.sub_add_cancel low]
  exact same j (by omega)

theorem setWord_outside (outside : k < a ∨ a + 4 ≤ k) : setWord a w b k = b k := by
  rw [setWord, if_neg (by omega)]

theorem setWord_inside (inside : k < 4) : setWord a w b (a + k) = byteOf w k := by
  rw [setWord, if_pos (by omega)]
  simp

@[simp] theorem word_setWord : word (setWord a w b) a = w := by
  have first : setWord a w b a = byteOf w 0 := setWord_inside (k := 0) (by omega)
  rw [word, first, setWord_inside (by omega), setWord_inside (by omega),
    setWord_inside (by omega)]
  apply BitVec.eq_of_toNat_eq
  have bound := w.isLt
  simp only [byteOf, BitVec.toNat_ofNat]
  omega

theorem word_setWord_other (apart : a' + 4 ≤ a ∨ a + 4 ≤ a') :
    word (setWord a w b) a' = word b a' := by
  refine word_congr fun k low high => ?_
  rw [setWord_outside (by omega)]
  congr 1
  omega

/-- `memcpy` of `n` bytes from `b` in `src` to `a` in `dest`. -/
def copy (dest : Buffer) (a : Nat) (src : Buffer) (b n : Nat) : Buffer :=
  fun k => if a ≤ k ∧ k < a + n then src (b + (k - a)) else dest k

theorem copy_outside {src dest : Buffer} {i : Nat} (outside : k < a ∨ a + n ≤ k) :
    copy dest a src i n k = dest k := by
  rw [copy, if_neg (by omega)]

theorem copy_inside {src dest : Buffer} {i : Nat} (inside : k < n) :
    copy dest a src i n (a + k) = src (i + k) := by
  rw [copy, if_pos (by omega)]
  simp

theorem copy_start {src dest : Buffer} {i : Nat} (inside : k < n) :
    copy dest 0 src i n k = src (i + k) := by
  rw [copy, if_pos (by omega), Nat.sub_zero]

theorem copy_congr {src src' dest : Buffer} {i j : Nat} (same : ∀ k < n, src (i + k) = src' (j + k)) :
    copy dest a src i n = copy dest a src' j n := by
  funext k
  by_cases inside : a ≤ k ∧ k < a + n
  · obtain ⟨e, rfl⟩ := Nat.exists_eq_add_of_le inside.1
    rw [copy_inside (by omega), copy_inside (by omega), same e (by omega)]
  · rw [copy_outside (by omega), copy_outside (by omega)]

theorem word_copy_inside {src dest : Buffer} {i : Nat} (inside : k + 4 ≤ n) :
    word (copy dest a src i n) (a + k) = word src (i + k) := by
  refine word_congr fun j low high => ?_
  obtain ⟨j, rfl⟩ := Nat.exists_eq_add_of_le low
  rw [Nat.add_assoc, copy_inside (by omega)]
  congr 1
  omega

theorem word_copy_start {src dest : Buffer} {i : Nat} (inside : k + 4 ≤ n) :
    word (copy dest 0 src i n) k = word src (i + k) := by
  have read : word (copy dest 0 src i n) (0 + k) = word src (i + k) := word_copy_inside inside
  rwa [Nat.zero_add] at read

/-- Writing a whole array back after a change of some bytes writes these bytes. -/
theorem copy_back {src dest : Buffer} {i m : Nat} (inside : i + m ≤ n)
    (same : ∀ k < n, k < i ∨ i + m ≤ k → src k = dest (a + k)) :
    copy dest a src 0 n = copy dest (a + i) src i m := by
  funext k
  by_cases part : a + i ≤ k ∧ k < a + i + m
  · obtain ⟨j, rfl⟩ := Nat.exists_eq_add_of_le part.1
    rw [copy_inside (by omega), Nat.add_assoc, copy_inside (by omega), Nat.zero_add]
  · have untouched : copy dest (a + i) src i m k = dest k := copy_outside (by omega)
    rw [untouched]
    by_cases whole : a ≤ k ∧ k < a + n
    · obtain ⟨j, rfl⟩ := Nat.exists_eq_add_of_le whole.1
      rw [copy_inside (by omega), Nat.zero_add]
      exact same j (by omega) (by omega)
    · exact copy_outside (by omega)

/-- Two transfers of neighbouring parts are one transfer. -/
theorem copy_append {src dest : Buffer} {i m : Nat} :
    copy (copy dest a src i n) (a + n) src (i + n) m = copy dest a src i (n + m) := by
  funext k
  by_cases second : a + n ≤ k ∧ k < a + n + m
  · obtain ⟨j, rfl⟩ := Nat.exists_eq_add_of_le second.1
    rw [copy_inside (by omega), Nat.add_assoc a, copy_inside (by omega), Nat.add_assoc]
  · have untouched : copy (copy dest a src i n) (a + n) src (i + n) m k = copy dest a src i n k :=
      copy_outside (by omega)
    rw [untouched]
    by_cases first : a ≤ k ∧ k < a + n
    · obtain ⟨j, rfl⟩ := Nat.exists_eq_add_of_le first.1
      rw [copy_inside (by omega), copy_inside (by omega)]
    · rw [copy_outside (by omega), copy_outside (by omega)]

@[simp] theorem copy_nothing {src dest : Buffer} {i : Nat} : copy dest a src i 0 = dest := by
  funext k
  exact copy_outside (by omega)

/-- Copying on what was just copied. -/
theorem copy_copy {src dest z : Buffer} {i m : Nat} :
    copy dest a (copy z i src m n) i n = copy dest a src m n := by
  funext k
  by_cases inside : a ≤ k ∧ k < a + n
  · obtain ⟨j, rfl⟩ := Nat.exists_eq_add_of_le inside.1
    rw [copy_inside (by omega), copy_inside (by omega), copy_inside (by omega)]
  · rw [copy_outside (by omega), copy_outside (by omega)]

/-- The loop of `strcpy`. -/
def strcpy (a : Nat) : List Byte → Buffer → Buffer
  | [], b => Function.update b a 0
  | c :: s, b => strcpy (a + 1) s (Function.update b a c)

theorem strcpy_outside (outside : k < a ∨ a + s.length < k) : strcpy a s b k = b k := by
  induction s generalizing a b with
  | nil =>
    have other : k ≠ a := by simp only [List.length_nil] at outside; omega
    exact Function.update_of_ne other ..
  | cons c s ih =>
    rw [List.length_cons] at outside
    rw [strcpy, ih (by omega), Function.update_of_ne (by omega)]

theorem strcpy_inside (inside : k < s.length) : strcpy a s b (a + k) = s.get ⟨k, inside⟩ := by
  induction s generalizing a b k with
  | nil => simp at inside
  | cons c s ih =>
    rw [strcpy]
    cases k with
    | zero => rw [strcpy_outside (by omega)]; simp
    | succ k =>
      rw [show a + (k + 1) = a + 1 + k by omega, ih (by simpa using inside)]
      rfl

theorem strcpy_end : strcpy a s b (a + s.length) = 0 := by
  induction s generalizing a b with
  | nil => exact Function.update_self ..
  | cons c s ih =>
    rw [strcpy, List.length_cons, show a + (s.length + 1) = a + 1 + s.length by omega]
    exact ih

/-- A string into an object at `a`. -/
theorem strcpy_shift {i : Nat} :
    strcpy (a + i) s b (a + k) = strcpy i s (fun k => b (a + k)) k := by
  have update : ∀ (i : Nat) (c : Byte) (b : Buffer), (fun k => Function.update b (a + i) c
      (a + k)) = Function.update (fun k => b (a + k)) i c := by
    intro i c b
    funext k
    simp only [Function.update_apply, Nat.add_left_cancel_iff]
  induction s generalizing i b with
  | nil => exact congrFun (update i 0 b) k
  | cons c s ih => rw [strcpy, strcpy, Nat.add_assoc, ih, update]

theorem word_strcpy_other (apart : a' + 4 ≤ a ∨ a + s.length < a') :
    word (strcpy a s b) a' = word b a' := by
  refine word_congr fun k low high => ?_
  rw [strcpy_outside (by omega)]
  congr 1
  omega

/-- `strcmp` of the string at `a` and another one. -/
def strcmp (b : Buffer) (a : Nat) : List Byte → Int
  | [] => if b a = 0 then 0 else 1
  | c :: s => if b a = 0 then -1 else if b a = c then strcmp b (a + 1) s else 1

/-- The string at `a`, in an array of `n` bytes. -/
def cstring (b : Buffer) (a : Nat) : Nat → List Byte
  | 0 => []
  | n + 1 => if b a = 0 then [] else b a :: cstring b (a + 1) n

/-- The array of `n` bytes at `a` holds a whole string. -/
def Terminated (b : Buffer) (a n : Nat) : Prop := ∃ k < n, b (a + k) = 0

theorem cstring_congr (same : ∀ k < n, b (a + k) = b' (a' + k)) :
    cstring b a n = cstring b' a' n := by
  induction n generalizing a a' with
  | zero => rfl
  | succ n ih =>
    have rest : cstring b (a + 1) n = cstring b' (a' + 1) n := by
      refine ih fun k small => ?_
      have := same (k + 1) (by omega)
      rwa [show a + 1 + k = a + (k + 1) by omega, show a' + 1 + k = a' + (k + 1) by omega]
    have first : b a = b' a' := same 0 (by omega)
    rw [cstring, cstring, first, rest]

theorem Terminated.congr (terminated : Terminated b a n)
    (same : ∀ k < n, b (a + k) = b' (a' + k)) : Terminated b' a' n := by
  obtain ⟨k, small, zero⟩ := terminated
  exact ⟨k, small, (same k small).symm.trans zero⟩

theorem terminated_tail (other : b a ≠ 0) : Terminated b a (n + 1) ↔ Terminated b (a + 1) n := by
  constructor
  · rintro ⟨k, small, zero⟩
    cases k with
    | zero => exact absurd zero other
    | succ k => exact ⟨k, Nat.lt_of_succ_lt_succ small, by rwa [Nat.add_assoc, Nat.add_comm 1]⟩
  · rintro ⟨k, small, zero⟩
    exact ⟨k + 1, Nat.succ_lt_succ small, by rwa [Nat.add_comm k, ← Nat.add_assoc]⟩

theorem cstring_length : (cstring b a n).length < n ↔ Terminated b a n := by
  induction n generalizing a with
  | zero => exact ⟨fun short => absurd short (Nat.not_lt_zero _), fun ⟨k, small, _⟩ => by omega⟩
  | succ n ih =>
    rw [cstring]
    split
    next zero => exact ⟨fun _ => ⟨0, Nat.succ_pos n, zero⟩, fun _ => Nat.succ_pos n⟩
    next other =>
      rw [List.length_cons, Nat.succ_lt_succ_iff, ih, terminated_tail other]

/-- Reading on beyond the zero byte adds nothing. -/
theorem cstring_longer {m : Nat} (terminated : Terminated b a n) (longer : n ≤ m) :
    cstring b a m = cstring b a n := by
  induction n generalizing a m with
  | zero =>
    obtain ⟨k, none, _⟩ := terminated
    omega
  | succ n ih =>
    obtain ⟨m, rfl⟩ := Nat.exists_eq_succ_of_ne_zero (Nat.ne_of_gt (Nat.zero_lt_of_lt longer))
    rw [cstring, cstring]
    by_cases zero : b a = 0
    · rw [if_pos zero, if_pos zero]
    · have rest := (terminated_tail zero).mp terminated
      rw [if_neg zero, if_neg zero, ih rest (by omega)]

theorem cstring_strcpy (fits : s.length < n) (noNul : ∀ c ∈ s, c ≠ 0) :
    cstring (strcpy a s b) a n = s := by
  induction s generalizing a b n with
  | nil =>
    obtain ⟨n, rfl⟩ := Nat.exists_eq_succ_of_ne_zero (Nat.ne_of_gt fits)
    have zero : strcpy a [] b a = 0 := strcpy_end (s := [])
    rw [cstring, if_pos zero]
  | cons c s ih =>
    obtain ⟨n, rfl⟩ := Nat.exists_eq_succ_of_ne_zero (Nat.ne_of_gt (Nat.zero_lt_of_lt fits))
    have first : strcpy a (c :: s) b a = c := strcpy_inside (k := 0) (by simp)
    rw [cstring, first, if_neg (noNul c (by simp)), strcpy,
      ih (Nat.lt_of_succ_lt_succ fits) fun d member => noNul d (by simp [member])]

theorem strcpy_terminated (fits : s.length < n) : Terminated (strcpy a s b) a n :=
  ⟨s.length, fits, strcpy_end⟩

/-- Comparing with a string in an array is comparing the two strings. -/
theorem strcmp_eq_zero (terminated : Terminated b a n) (noNul : ∀ c ∈ s, c ≠ 0) :
    strcmp b a s = 0 ↔ cstring b a n = s := by
  induction n generalizing a s with
  | zero =>
    obtain ⟨k, none, _⟩ := terminated
    omega
  | succ n ih =>
    by_cases zero : b a = 0
    · cases s with
      | nil => simp [strcmp, cstring, zero]
      | cons c s => simp [strcmp, cstring, zero]
    · have rest := (terminated_tail zero).mp terminated
      cases s with
      | nil => simp [strcmp, cstring]
      | cons c s =>
        have later := ih (s := s) rest fun d member => noNul d (by simp [member])
        rw [strcmp, if_neg zero, cstring, if_neg zero]
        by_cases same : b a = c
        · rw [if_pos same, same]
          simp [later]
        · rw [if_neg same]
          simp [same]

/-- What `g` makes of the first `n` bytes depends on no byte behind them. -/
def LocalTo (n : Nat) (g : Buffer → Buffer) : Prop :=
  ∀ b b' : Buffer, (∀ k < n, b k = b' k) → ∀ k < n, g b k = g b' k

section LocalTo

variable {g h : Buffer → Buffer}

theorem LocalTo.comp (first : LocalTo n g) (second : LocalTo n h) : LocalTo n fun b => h (g b) :=
  fun _ _ same => second _ _ (first _ _ same)

theorem localTo_setWord : LocalTo n (setWord a w) := by
  intro b b' same k low
  rw [setWord, setWord, same k low]

theorem localTo_update : LocalTo n fun b => Function.update b a c := by
  intro b b' same k low
  simp only [Function.update_apply, same k low]

theorem localTo_strcpy : LocalTo n (strcpy a s) := by
  induction s generalizing a with
  | nil => exact localTo_update
  | cons c s ih => exact localTo_update.comp ih

theorem localTo_foldl {ι : Type} {f : Buffer → ι → Buffer} (each : ∀ i, LocalTo n fun b => f b i)
    (l : List ι) : LocalTo n fun b => l.foldl f b := by
  induction l with
  | nil => exact fun _ _ same => same
  | cons i l ih => exact (each i).comp ih

end LocalTo

end ByteBuffer
