import Tina.Killer
import Tina.Writing
import Mathlib.Data.Nat.Digits.Lemmas

/-! `libs/printk.c`: numbers as text, and formats. A store outside an array, an argument that is not
of the kind that is read, and a byte read behind the end of the format are `none`. -/
namespace Tina.Printing

open ByteBuffer Writing

abbrev Word := BitVec 32

def zero : Byte := 0x30
def percent : Byte := 0x25
def minus : Byte := 0x2d

/-- `digit < 10 ? '0' + digit : (uppercase ? 'A' : 'a') + digit - 10`. -/
def digitChar (uppercase : Bool) (digit : Nat) : Byte :=
  BitVec.ofNat 8 (if digit < 10 then 0x30 + digit
    else (if uppercase then 0x41 else 0x61) + digit - 10)

/-- `do … while (value > 0)`. The division is unsigned and the comparison is not. Every round takes
one of the bytes for which there is room. -/
def digitLoop (size radix : Nat) (uppercase : Bool) : Nat → Word → Out → Option Out
  | 0, _, _ => none
  | room + 1, value, o => do
    let o ← o.push size (digitChar uppercase (value.toNat % radix))
    let value := BitVec.ofNat 32 (value.toNat / radix)
    if 0 < value.toInt then digitLoop size radix uppercase room value o else some o

/-- `mini_itoa` with an array of `size` bytes. -/
def miniItoa (value : Word) (radix : Nat) (uppercase unsig : Bool) (size : Nat) (buffer : Buffer)
    (zeroPad : Nat) : Option (Nat × Buffer) :=
  if 16 < radix then some (0, buffer)
  else if radix = 0 then none
  else do
    let negative := decide (value.toInt < 0) && !unsig
    let value := if negative then -value else value
    let o ← digitLoop size radix uppercase (size + 1) value ⟨buffer, 0⟩
    let o ← o.pushAll size (List.replicate (zeroPad - o.p) zero)
    let o ← if negative then o.push size minus else some o
    let stop ← o.push size 0
    some (o.p, reverseLoop o.p (o.p / 2) 0 stop.buffer)

/-! What the text of a number is. -/

/-- The digits from the last to the first. There is at least one. -/
def digitsOf (radix n : Nat) : List Nat := if n = 0 then [0] else Nat.digits radix n

def magnitude (radix : Nat) (uppercase : Bool) (zeroPad n : Nat) : List Byte :=
  (digitsOf radix n).map (digitChar uppercase) ++
    List.replicate (zeroPad - (digitsOf radix n).length) zero

/-- The text of a number: the sign, zeros up to a width, and the digits. -/
def numeral (radix : Nat) (uppercase unsig : Bool) (zeroPad : Nat) (value : Word) : List Byte :=
  if value.toInt < 0 ∧ !unsig then
    minus :: (magnitude radix uppercase zeroPad value.toInt.natAbs).reverse
  else (magnitude radix uppercase zeroPad value.toNat).reverse

/-- What a digit stands for. -/
def digitValue (c : Byte) : Nat :=
  if c.toNat < 0x41 then c.toNat - 0x30
  else if c.toNat < 0x61 then c.toNat - 0x41 + 10 else c.toNat - 0x61 + 10

/-- What a text of digits stands for, read from the left. -/
def reading (radix : Nat) (text : List Byte) : Nat :=
  text.foldl (fun n c => n * radix + digitValue c) 0

variable {radix n zeroPad size room : Nat} {uppercase unsig : Bool} {value : Word} {o : Out}
  {buffer : Buffer} {text : List Byte} {c : Byte}

theorem digitsOf_positive (large : 2 ≤ radix) (positive : 0 < n) :
    digitsOf radix n = n % radix :: if 0 < n / radix then digitsOf radix (n / radix) else [] := by
  rw [digitsOf, if_neg (by omega), Nat.digits_def' (by omega) positive]
  congr 1
  split
  · rw [digitsOf, if_neg (by omega)]
  · rename_i none
    rw [Nat.eq_zero_of_not_pos none, Nat.digits_zero]

theorem digitsOf_zero : digitsOf radix 0 = [0] := if_pos rfl

/-- One digit, and the others if there are any. -/
theorem digitsOf_step (large : 2 ≤ radix) :
    digitsOf radix n = n % radix :: if 0 < n / radix then digitsOf radix (n / radix) else [] := by
  by_cases none : n = 0
  · subst none
    simp [digitsOf_zero]
  · exact digitsOf_positive large (by omega)

theorem digitsOf_length {k : Nat} (large : 2 ≤ radix) (some : 0 < k) (small : n < radix ^ k) :
    (digitsOf radix n).length ≤ k := by
  rw [digitsOf]
  split
  · exact some
  · exact (Nat.digits_length_le_iff (by omega) n).mpr small

theorem digitsOf_lt (large : 2 ≤ radix) {d : Nat} (member : d ∈ digitsOf radix n) : d < radix := by
  rw [digitsOf] at member
  split at member
  · rw [List.mem_singleton.mp member]
    omega
  · exact Nat.digits_lt_base (by omega) member

theorem ofDigits_digitsOf : Nat.ofDigits radix (digitsOf radix n) = n := by
  rw [digitsOf]
  split
  · subst_vars
    simp
  · exact Nat.ofDigits_digits radix n

theorem digitLoop_writes (large : 2 ≤ radix) (rounds : (digitsOf radix value.toNat).length ≤ room)
    (inside : o.p + (digitsOf radix value.toNat).length ≤ size) :
    digitLoop size radix uppercase room value o =
      some (o.append ((digitsOf radix value.toNat).map (digitChar uppercase))) := by
  induction room generalizing value o with
  | zero =>
    rw [digitsOf_step large] at rounds
    simp at rounds
  | succ room ih =>
    have half : value.toNat / radix ≤ value.toNat / 2 := Nat.div_le_div_left large (by decide)
    have low := value.isLt
    rw [digitsOf_step large, List.length_cons] at rounds inside
    rw [digitLoop, Out.push_room (by omega), Option.bind_eq_bind, Option.bind_some,
      digitsOf_step large, List.map_cons]
    generalize value.toNat / radix = quotient at *
    have next : (BitVec.ofNat 32 quotient).toNat = quotient := by
      rw [BitVec.toNat_ofNat]
      omega
    have signed : (BitVec.ofNat 32 quotient).toInt = quotient := by
      rw [BitVec.toInt_eq_toNat_of_lt (by omega), next]
    dsimp only
    rw [signed]
    by_cases more : 0 < quotient
    · rw [if_pos more] at rounds inside
      rw [if_pos (by omega), if_pos more, ih (by rw [next]; omega)
        (by rw [next]; simp only [Out.append_p, List.length_singleton]; omega), next,
        Out.append_append]
      rfl
    · rw [if_neg (by omega), if_neg more]
      rfl

/-- Minus the most negative `int` is that number again, and as an unsigned one it is right. -/
theorem toNat_neg (negative : value.toInt < 0) : (-value).toNat = value.toInt.natAbs := by
  have low := value.isLt
  rw [BitVec.toInt_eq_toNat_cond] at negative ⊢
  rw [BitVec.toNat_neg]
  split at negative <;> split <;> omega

theorem magnitude_length : (magnitude radix uppercase zeroPad n).length =
    max (digitsOf radix n).length zeroPad := by
  rw [magnitude, List.length_append, List.length_map, List.length_replicate]
  omega

/-- Digits and zeros, as the two loops write them. -/
theorem magnitude_writes (large : 2 ≤ radix)
    (inside : (magnitude radix uppercase zeroPad value.toNat).length ≤ size) :
    (do let o ← digitLoop size radix uppercase (size + 1) value ⟨buffer, 0⟩
        o.pushAll size (List.replicate (zeroPad - o.p) zero)) =
      some ((⟨buffer, 0⟩ : Out).append (magnitude radix uppercase zeroPad value.toNat)) := by
  rw [magnitude_length] at inside
  rw [digitLoop_writes large (by omega) (by simp only; omega), Option.bind_eq_bind,
    Option.bind_some, Out.pushAll_room, Out.append_append, magnitude]
  · simp
  · simp only [Out.append_p, List.length_map, List.length_replicate]
    omega

/-- The text of the number and a zero byte, if the array has room for them. -/
theorem miniItoa_writes (large : 2 ≤ radix) (usual : radix ≤ 16)
    (inside : (numeral radix uppercase unsig zeroPad value).length < size) :
    miniItoa value radix uppercase unsig size buffer zeroPad =
      some ((numeral radix uppercase unsig zeroPad value).length,
        write 0 (numeral radix uppercase unsig zeroPad value ++ [0]) buffer) := by
  rw [miniItoa, if_neg (by omega), if_neg (by omega)]
  by_cases signed : value.toInt < 0 ∧ !unsig
  · rw [numeral, if_pos signed, List.length_cons, List.length_reverse] at inside
    have written := @magnitude_writes radix zeroPad size uppercase (-value) buffer large
      (by rw [toNat_neg signed.1]; omega)
    rw [toNat_neg signed.1] at written
    have negative : (decide (value.toInt < 0) && !unsig) = true := by simpa using signed
    rw [numeral, if_pos signed]
    simp only [negative, if_true]
    rw [← bind_assoc, written]
    generalize magnitude radix uppercase zeroPad value.toInt.natAbs = text at *
    simp only [Option.bind_eq_bind, Option.bind_some]
    rw [Out.push_room (by simp only [Out.append_p]; omega), Option.bind_some, Out.append_append,
      Out.push_room (by simp; omega), Option.bind_some, Out.append_append]
    simp only [Out.append_p, Out.append_buffer, Nat.zero_add, reverseLoop_write]
    simp
  · rw [numeral, if_neg signed, List.length_reverse] at inside
    have written := @magnitude_writes _ _ _ uppercase _ buffer large inside.le
    have negative : (decide (value.toInt < 0) && !unsig) = false := by simpa using signed
    rw [numeral, if_neg signed]
    simp only [negative, Bool.false_eq_true, if_false]
    rw [← bind_assoc, written]
    generalize magnitude radix uppercase zeroPad value.toNat = text at *
    simp only [Option.bind_eq_bind, Option.bind_some]
    rw [Out.push_room (by simp only [Out.append_p]; omega), Option.bind_some, Out.append_append]
    simp only [Out.append_p, Out.append_buffer, Nat.zero_add, reverseLoop_write]
    simp

theorem digitValue_digitChar {d : Nat} (small : d < 16) :
    digitValue (digitChar uppercase d) = d := by
  revert uppercase d
  decide

theorem reading_reverse : reading radix text.reverse = Nat.ofDigits radix (text.map digitValue) := by
  induction text with
  | nil => rfl
  | cons c text ih =>
    rw [reading] at ih ⊢
    rw [List.reverse_cons, List.foldl_append, ih, List.map_cons, Nat.ofDigits_cons]
    simp [Nat.mul_comm, Nat.add_comm]

/-- The digits stand for the number, zeros or not. -/
theorem reading_magnitude (large : 2 ≤ radix) (usual : radix ≤ 16) :
    reading radix (magnitude radix uppercase zeroPad n).reverse = n := by
  have digits : ((digitsOf radix n).map (digitChar uppercase)).map digitValue =
      digitsOf radix n := by
    rw [List.map_map]
    refine (List.map_congr_left fun d member => ?_).trans (List.map_id _)
    exact digitValue_digitChar (by have := digitsOf_lt large member; omega)
  rw [reading_reverse, magnitude, List.map_append, digits, List.map_replicate,
    show digitValue zero = 0 by decide, Nat.ofDigits_append_replicate_zero, ofDigits_digitsOf]

/-- What a text stands for that may begin with a sign. -/
def signedReading (radix : Nat) : List Byte → Int
  | [] => 0
  | c :: text => if c = minus then -(reading radix text : Int) else reading radix (c :: text)

theorem digitChar_isDigit {d : Nat} (small : d < 16) :
    digitChar uppercase d ≠ minus ∧ digitChar uppercase d ≠ 0 := by
  revert uppercase d
  decide

/-- No sign and no zero byte stands in the digits. -/
theorem magnitude_plain (large : 2 ≤ radix) (usual : radix ≤ 16)
    (member : c ∈ magnitude radix uppercase zeroPad n) : c ≠ minus ∧ c ≠ 0 := by
  rcases List.mem_append.mp member with digit | padding
  · obtain ⟨d, low, rfl⟩ := List.mem_map.mp digit
    exact digitChar_isDigit (by have := digitsOf_lt large low; omega)
  · rw [List.eq_of_mem_replicate padding]
    decide

theorem signedReading_plain (plain : ∀ c ∈ text, c ≠ minus) :
    signedReading radix text = reading radix text := by
  cases text with
  | nil => rfl
  | cons c text => rw [signedReading, if_neg (plain c List.mem_cons_self)]

theorem numeral_noNul (large : 2 ≤ radix) (usual : radix ≤ 16)
    (member : c ∈ numeral radix uppercase unsig zeroPad value) : c ≠ 0 := by
  rw [numeral] at member
  split at member
  · rcases List.mem_cons.mp member with rfl | digit
    · decide
    · exact (magnitude_plain large usual (List.mem_reverse.mp digit)).2
  · exact (magnitude_plain large usual (List.mem_reverse.mp member)).2

theorem signedReading_numeral (large : 2 ≤ radix) (usual : radix ≤ 16) :
    signedReading radix (numeral radix uppercase unsig zeroPad value) =
      if unsig then (value.toNat : Int) else value.toInt := by
  rw [numeral]
  split
  · rename_i signed
    rw [signedReading, if_pos rfl, reading_magnitude large usual, if_neg (by simpa using signed.2)]
    omega
  · rename_i plain
    rw [signedReading_plain fun c member =>
      (magnitude_plain large usual (List.mem_reverse.mp member)).1, reading_magnitude large usual]
    split
    · rfl
    · rename_i kind
      have positive : ¬value.toInt < 0 := fun negative => plain ⟨negative, by simpa using kind⟩
      rw [BitVec.toInt_eq_toNat_cond] at positive ⊢
      split at positive
      · rw [if_pos ‹_›]
      · have := value.isLt
        omega

/-- No word has more than ten digits. -/
theorem numeral_short (large : 10 ≤ radix) :
    (numeral radix uppercase unsig zeroPad value).length ≤ max 10 zeroPad + 1 := by
  have enough : 10 ^ 10 ≤ radix ^ 10 := Nat.pow_le_pow_left large 10
  have digits : ∀ n < 2 ^ 32, (digitsOf radix n).length ≤ 10 := fun n low =>
    digitsOf_length (by omega) (by decide) (by omega)
  have word := value.isLt
  have sign : value.toInt.natAbs < 2 ^ 32 := by
    rw [BitVec.toInt_eq_toNat_cond]
    split <;> omega
  rw [numeral]
  split
  · rw [List.length_cons, List.length_reverse, magnitude_length]
    have := digits _ sign
    omega
  · rw [List.length_reverse, magnitude_length]
    have := digits _ word
    omega

/-- With room for a number, `mini_itoa` writes a text that stands for it, to the last unsigned word
and the most negative `int`, and a zero byte; nothing behind that is changed. -/
theorem itoa_reads_back (large : 2 ≤ radix) (usual : radix ≤ 16)
    (inside : (numeral radix uppercase unsig zeroPad value).length < size) :
    ∃ text, miniItoa value radix uppercase unsig size buffer zeroPad =
        some (text.length, write 0 (text ++ [0]) buffer) ∧
      (∀ c ∈ text, c ≠ 0) ∧ zeroPad ≤ text.length ∧
      signedReading radix text = if unsig then (value.toNat : Int) else value.toInt := by
  refine ⟨_, miniItoa_writes large usual inside, fun c => numeral_noNul large usual, ?_,
    signedReading_numeral large usual⟩
  rw [numeral]
  split
  · rw [List.length_cons, List.length_reverse, magnitude_length]
    omega
  · rw [List.length_reverse, magnitude_length]
    omega

/-- The most negative `int` fills eleven bytes. -/
theorem itoa_reads_back_least : ∃ text, miniItoa 0x80000000 10 false false 24 (fun _ => 0) 3 =
    some (text.length, write 0 (text ++ [0]) fun _ => 0) ∧
    signedReading 10 text = -2147483648 := by
  have fits : (numeral 10 false false 3 0x80000000).length < 24 :=
    Nat.lt_of_le_of_lt (numeral_short (by decide)) (by decide)
  obtain ⟨text, result, -, -, value⟩ :=
    @itoa_reads_back _ _ _ _ _ _ (fun _ => 0) (by decide) (by decide) fits
  exact ⟨text, result, value.trans (by decide)⟩

/-! The text of an `int` as `ps` prints it, which `atoi` of the shell reads back. -/

theorem itoaLoop_eq {rounds : Nat} (enough : (digitsOf 10 n).length ≤ rounds) :
    Console.itoaLoop rounds n = (digitsOf 10 n).map (digitChar uppercase) := by
  induction rounds generalizing n with
  | zero =>
    rw [digitsOf_step (by decide)] at enough
    simp at enough
  | succ rounds ih =>
    have digit : digitChar uppercase (n % 10) = BitVec.ofNat 8 (0x30 + n % 10) := by
      rw [digitChar, if_pos (Nat.mod_lt n (by decide))]
    rw [digitsOf_step (by decide), List.length_cons] at enough
    rw [Console.itoaLoop, digitsOf_step (by decide), List.map_cons, digit]
    by_cases more : 0 < n / 10
    · rw [if_pos more] at enough
      rw [if_pos more, if_pos more, ih (by omega)]
    · rw [if_neg more, if_neg more]
      rfl

theorem numeral_int (uppercase : Bool) (value : Word) :
    numeral 10 uppercase false 0 value = Console.miniItoa value.toInt := by
  have word := value.isLt
  have small : value.toInt.natAbs < 10 ^ 10 := by
    rw [BitVec.toInt_eq_toNat_cond]
    split <;> omega
  have digits : Console.itoaLoop 10 value.toInt.natAbs =
      magnitude 10 uppercase 0 value.toInt.natAbs := by
    have short := @digitsOf_length 10 _ 10 (by decide) (by decide) small
    rw [itoaLoop_eq short, magnitude, Nat.zero_sub, List.replicate_zero, List.append_nil]
  rw [numeral, Console.miniItoa, digits]
  by_cases negative : value.toInt < 0
  · rw [if_pos ⟨negative, rfl⟩, if_pos negative, List.reverse_append]
    rfl
  · have same : value.toInt.natAbs = value.toNat := by
      rw [BitVec.toInt_eq_toNat_cond] at negative ⊢
      split at negative <;> split <;> omega
    rw [if_neg fun signed => negative signed.1, if_neg negative, List.append_nil, same]

/-- Both models of `mini_itoa` write one text. -/
theorem miniItoa_int (inside : (Console.miniItoa value.toInt).length < size) :
    miniItoa value 10 uppercase false size buffer 0 =
      some ((Console.miniItoa value.toInt).length,
        write 0 (Console.miniItoa value.toInt ++ [0]) buffer) := by
  rw [← numeral_int uppercase] at inside ⊢
  exact miniItoa_writes (by decide) (by decide) inside

end Tina.Printing
