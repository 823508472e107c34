import Tina.Printing

/-! Formats: the loop of `mini_vsnprintf`, `printk` and `printf`. -/
namespace Tina.Printing

open ByteBuffer Writing

/-- An argument behind the format. -/
inductive Arg where
  | int (value : Word)
  | str (text : CString)

def miniStrlen : List Byte → Nat
  | [] => 0
  | c :: s => if c = 0 then 0 else miniStrlen s + 1

/-- `_putc`. The result is not used. -/
def putc (bufferLen : Word) (ch : Byte) (o : Out) : Option Out :=
  if bufferLen ≤ BitVec.ofNat 32 (o.p + 1) then some o
  else do
    let o ← o.push bufferLen.toNat ch
    let stop ← o.push bufferLen.toNat 0
    some ⟨stop.buffer, o.p⟩

/-- `_puts`. What room there is, is computed without a sign. -/
def puts (bufferLen : Word) (s : Buffer) (len : Nat) (o : Out) : Option Out := do
  let room := (bufferLen - BitVec.ofNat 32 o.p - 1).toNat
  let len := if room < len then room else len
  let o ← o.pushAll bufferLen.toNat ((List.range len).map s)
  let stop ← o.push bufferLen.toNat 0
  some ⟨stop.buffer, o.p⟩

/-- The output, `bf`, and the arguments that are left. -/
structure Locals where
  out : Out
  bf : Buffer
  args : List Arg

/-- `va_arg(va, unsigned int)`. -/
def Locals.int (l : Locals) : Option (Word × Locals) :=
  match l.args with
  | .int value :: args => some (value, { l with args := args })
  | _ => none

/-- `va_arg(va, char *)`. -/
def Locals.str (l : Locals) : Option (CString × Locals) :=
  match l.args with
  | .str text :: args => some (text, { l with args := args })
  | _ => none

def letterU : Byte := 0x75
def letterD : Byte := 0x64
def letterX : Byte := 0x78
def capitalX : Byte := 0x58
def letterC : Byte := 0x63
def letterS : Byte := 0x73

/-- `bf` has 24 bytes. -/
def putNumber (bufferLen : Word) (radix : Nat) (uppercase unsig : Bool) (zeroPad : Nat)
    (l : Locals) : Option Locals := do
  let (value, l) ← l.int
  let (len, bf) ← miniItoa value radix uppercase unsig 24 l.bf zeroPad
  let out ← puts bufferLen bf len l.out
  some { l with out := out, bf := bf }

/-- The `switch`. -/
def directive (bufferLen : Word) (ch : Byte) (zeroPad : Nat) (l : Locals) : Option Locals :=
  if ch = letterU ∨ ch = letterD then putNumber bufferLen 10 false (ch == letterU) zeroPad l
  else if ch = letterX ∨ ch = capitalX then
    putNumber bufferLen 16 (ch == capitalX) true zeroPad l
  else if ch = letterC then do
    let (value, l) ← l.int
    let out ← putc bufferLen (value.setWidth 8) l.out
    some { l with out := out }
  else if ch = letterS then do
    let (text, l) ← l.str
    let out ← puts bufferLen (fun k => text.val.getD k 0) (miniStrlen text.val) l.out
    some { l with out := out }
  else do
    let out ← putc bufferLen ch l.out
    some { l with out := out }

/-- What stands between `%` and its character: a zero and one more character, which is the width if
it is a digit. Where the format ends in between, nothing is left of it. -/
def zeroPadding : List Byte → Nat × List Byte
  | [] => (0, [])
  | ch :: fmt =>
    if ch = zero then
      match fmt with
      | [] => (0, [])
      | d :: fmt => (if 0x30 ≤ d.toNat ∧ d.toNat ≤ 0x39 then d.toNat - 0x30 else 0, fmt)
    else (0, ch :: fmt)

theorem zeroPadding_shorter {fmt rest : List Byte} {pad : Nat} {ch : Byte}
    (padding : zeroPadding fmt = (pad, ch :: rest)) : rest.length < fmt.length := by
  unfold zeroPadding at padding
  split at padding
  · cases padding
  · split at padding
    · split at padding <;> cases padding
      simp only [List.length_cons]
      omega
    · cases padding
      simp

/-- The loop over what is left of the format. -/
def formatLoop (bufferLen : Word) (fmt : List Byte) (l : Locals) : Option Locals :=
  match fmt with
  | [] => some l
  | ch :: fmt =>
    if bufferLen ≤ BitVec.ofNat 32 (l.out.p + 1) then some l
    else if ch ≠ percent then do
      let out ← putc bufferLen ch l.out
      formatLoop bufferLen fmt { l with out := out }
    else
      match _padding : zeroPadding fmt with
      | (_, []) => some l
      | (zeroPad, ch :: rest) => do
        let l ← directive bufferLen ch zeroPad l
        formatLoop bufferLen rest l
termination_by fmt.length
decreasing_by
  · simp
  · have := zeroPadding_shorter _padding
    simp only [List.length_cons]
    omega

def miniVsnprintf (buffer bf : Buffer) (bufferLen : Word) (fmt : CString) (args : List Arg) :
    Option Out := do
  let l ← formatLoop bufferLen fmt.val ⟨⟨buffer, 0⟩, bf, args⟩
  some l.out

/-- `printk` and `printf`: the result, and the string that goes to the port or to the screen. What
the two arrays held before is not known. -/
def printk (buff bf : Buffer) (fmt : CString) (args : List Arg) : Option (Nat × List Byte) := do
  let out ← miniVsnprintf buff bf 256 fmt args
  let stop ← out.push 256 0
  some (out.p, cstring stop.buffer 0 256)

/-! What a format means. -/

inductive Piece where
  | char (c : Byte)
  | number (radix : Nat) (uppercase unsig : Bool) (zeroPad : Nat)
  | character
  | string

/-- The text of a piece, and the arguments that it leaves. -/
def Piece.text : Piece → List Arg → Option (List Byte × List Arg)
  | .char c, args => some ([c], args)
  | .number radix uppercase unsig zeroPad, .int value :: args =>
    some (numeral radix uppercase unsig zeroPad value, args)
  | .character, .int value :: args => some ([value.setWidth 8], args)
  | .string, .str text :: args => some (text.val, args)
  | _, _ => none

/-- The text of a format with its arguments, however long. -/
def render : List Piece → List Arg → Option (List Byte)
  | [], _ => some []
  | piece :: pieces, args => do
    let (text, args) ← piece.text args
    let rest ← render pieces args
    some (text ++ rest)

def pieceOf (zeroPad : Nat) (ch : Byte) : Piece :=
  if ch = letterU ∨ ch = letterD then .number 10 false (ch == letterU) zeroPad
  else if ch = letterX ∨ ch = capitalX then .number 16 (ch == capitalX) true zeroPad
  else if ch = letterC then .character
  else if ch = letterS then .string
  else .char ch

/-- The pieces of a format. An unfinished one at its end is dropped. -/
def parse (fmt : List Byte) : List Piece :=
  match fmt with
  | [] => []
  | ch :: fmt =>
    if ch ≠ percent then .char ch :: parse fmt
    else
      match _padding : zeroPadding fmt with
      | (_, []) => []
      | (zeroPad, ch :: rest) => pieceOf zeroPad ch :: parse rest
termination_by fmt.length
decreasing_by
  · simp
  · have := zeroPadding_shorter _padding
    simp only [List.length_cons]
    omega

variable {bufferLen : Word} {base buffer bf : Buffer} {text t fmt : List Byte} {o : Out} {ch : Byte}
  {l l' : Locals} {args rest : List Arg} {zeroPad : Nat}

/-- The comparison without a sign is right, because the next place is inside the array. -/
theorem full_iff (sink : Sink bufferLen.toNat base text o) (positive : 0 < bufferLen.toNat) :
    bufferLen ≤ BitVec.ofNat 32 (o.p + 1) ↔ bufferLen.toNat ≤ o.p + 1 := by
  have low := bufferLen.isLt
  have here := sink.p
  rw [BitVec.le_def, BitVec.toNat_ofNat, Nat.mod_eq_of_lt (by omega)]

theorem room_eq (sink : Sink bufferLen.toNat base text o) (positive : 0 < bufferLen.toNat) :
    (bufferLen - BitVec.ofNat 32 o.p - 1).toNat = bufferLen.toNat - 1 - o.p := by
  have low := bufferLen.isLt
  have here := sink.p
  have one : (1 : Word).toNat = 1 := rfl
  have place : (BitVec.ofNat 32 o.p).toNat = o.p := by
    rw [BitVec.toNat_ofNat, Nat.mod_eq_of_lt (by omega)]
  have before : (bufferLen - BitVec.ofNat 32 o.p).toNat = bufferLen.toNat - o.p := by
    rw [BitVec.toNat_sub_of_le (by rw [BitVec.le_def]; omega), place]
  rw [BitVec.toNat_sub_of_le (by rw [BitVec.le_def]; omega), before, one]
  omega

theorem putc_sink (ch : Byte) (sink : Sink bufferLen.toNat base text o) (positive : 0 < bufferLen.toNat) :
    ∃ o', putc bufferLen ch o = some o' ∧ Sink bufferLen.toNat base (text ++ [ch]) o' := by
  rw [putc]
  simp only [full_iff sink positive]
  by_cases full : bufferLen.toNat ≤ o.p + 1
  · rw [if_pos full]
    exact ⟨o, rfl, sink.full full⟩
  · have here := sink.p
    have appended := sink.append (s := [ch]) positive (n := 1) (by
      simp only [List.length_singleton]
      omega)
    rw [if_neg full, Out.push_room (by omega), Option.bind_eq_bind, Option.bind_some,
      Out.push_room (by simp only [Out.append_p, List.length_singleton]; omega), Option.bind_some]
    refine ⟨_, rfl, ?_⟩
    simpa [write_one] using appended

/-- As much of a text as there is room for. -/
theorem puts_sink {s : Buffer} (sink : Sink bufferLen.toNat base text o)
    (positive : 0 < bufferLen.toNat) (bytes : ∀ k < t.length, s k = t.getD k 0) :
    ∃ o', puts bufferLen s t.length o = some o' ∧ Sink bufferLen.toNat base (text ++ t) o' := by
  have here := sink.p
  have most : (if bufferLen.toNat - 1 - o.p < t.length then bufferLen.toNat - 1 - o.p
      else t.length) = min t.length (bufferLen.toNat - 1 - o.p) := by
    split <;> omega
  have taken : (List.range (min t.length (bufferLen.toNat - 1 - o.p))).map s =
      t.take (min t.length (bufferLen.toNat - 1 - o.p)) := by
    refine List.ext_getElem (by simp) fun k low high => ?_
    rw [List.length_take] at high
    rw [List.getElem_map, List.getElem_range, bytes k (by omega), List.getElem_take,
      List.getD_eq_getElem _ _ (by omega)]
  have appended := sink.append (s := t) positive rfl
  have length : (t.take (min t.length (bufferLen.toNat - 1 - o.p))).length =
      min t.length (bufferLen.toNat - 1 - o.p) := by
    rw [List.length_take]
    omega
  rw [puts]
  simp only [room_eq sink positive, most, taken]
  rw [Out.pushAll_room (by omega), Option.bind_eq_bind, Option.bind_some,
    Out.push_room (by simp only [Out.append_p]; omega), Option.bind_some]
  refine ⟨_, rfl, ?_⟩
  simp only [Out.append_p, length, Out.append_buffer, write_one] at appended ⊢
  exact appended

theorem miniStrlen_eq (noNul : ∀ c ∈ text, c ≠ 0) : miniStrlen text = text.length := by
  induction text with
  | nil => rfl
  | cons c text ih =>
    rw [miniStrlen, if_neg (noNul c List.mem_cons_self),
      ih fun d member => noNul d (List.mem_cons_of_mem c member), List.length_cons]

/-- A number is written to `bf` and from there to the output. -/
theorem putNumber_sink {radix : Nat} {uppercase unsig : Bool}
    (sink : Sink bufferLen.toNat base text l.out) (positive : 0 < bufferLen.toNat)
    (kind : 10 ≤ radix) (usual : radix ≤ 16) (width : zeroPad ≤ 9)
    (meant : (Piece.number radix uppercase unsig zeroPad).text l.args = some (t, rest)) :
    ∃ l', putNumber bufferLen radix uppercase unsig zeroPad l = some l' ∧
      Sink bufferLen.toNat base (text ++ t) l'.out ∧ l'.args = rest := by
  obtain ⟨out, bf, args⟩ := l
  match args, meant with
  | .int value :: args, meant =>
    obtain ⟨rfl, rfl⟩ := Prod.mk.inj (Option.some.inj meant)
    have short : (numeral radix uppercase unsig zeroPad value).length < 24 :=
      Nat.lt_of_le_of_lt (numeral_short kind) (by omega)
    have written : miniItoa value radix uppercase unsig 24 bf zeroPad = some _ :=
      miniItoa_writes (by omega) usual short
    obtain ⟨o', put, sink'⟩ := puts_sink (t := numeral radix uppercase unsig zeroPad value)
      (s := write 0 (numeral radix uppercase unsig zeroPad value ++ [0]) bf) sink positive
      fun k low => by rw [write_start (by simp; omega), List.getD_append _ _ _ _ low]
    refine ⟨⟨o', write 0 (numeral radix uppercase unsig zeroPad value ++ [0]) bf, args⟩, ?_, sink',
      rfl⟩
    simp only [putNumber, Locals.int, Option.bind_eq_bind, Option.bind_some, written, put]

theorem directive_sink (sink : Sink bufferLen.toNat base text l.out)
    (positive : 0 < bufferLen.toNat) (width : zeroPad ≤ 9)
    (meant : (pieceOf zeroPad ch).text l.args = some (t, rest)) :
    ∃ l', directive bufferLen ch zeroPad l = some l' ∧
      Sink bufferLen.toNat base (text ++ t) l'.out ∧ l'.args = rest := by
  rw [pieceOf] at meant
  rw [directive]
  split at meant
  · rw [if_pos ‹_›]
    exact putNumber_sink sink positive (by decide) (by decide) width meant
  rw [if_neg ‹_›]
  split at meant
  · rw [if_pos ‹_›]
    exact putNumber_sink sink positive (by decide) (by decide) width meant
  rw [if_neg ‹_›]
  obtain ⟨out, bf, args⟩ := l
  split at meant
  · rw [if_pos ‹_›]
    match args, meant with
    | .int value :: args, meant =>
      obtain ⟨rfl, rfl⟩ := Prod.mk.inj (Option.some.inj meant)
      obtain ⟨o', put, sink'⟩ := putc_sink (value.setWidth 8) sink positive
      refine ⟨⟨o', bf, args⟩, ?_, sink', rfl⟩
      simp only [Locals.int, Option.bind_eq_bind, Option.bind_some, put]
  rw [if_neg ‹_›]
  split at meant
  · rw [if_pos ‹_›]
    match args, meant with
    | .str string :: args, meant =>
      obtain ⟨rfl, rfl⟩ := Prod.mk.inj (Option.some.inj meant)
      obtain ⟨o', put, sink'⟩ := puts_sink (t := string.val) (s := fun k => string.val.getD k 0)
        sink positive fun k _ => rfl
      refine ⟨⟨o', bf, args⟩, ?_, sink', rfl⟩
      simp only [Locals.str, Option.bind_eq_bind, Option.bind_some, miniStrlen_eq string.property,
        put]
  · rw [if_neg ‹_›]
    obtain ⟨rfl, rfl⟩ := Prod.mk.inj (Option.some.inj meant)
    obtain ⟨o', put, sink'⟩ := putc_sink ch sink positive
    refine ⟨⟨o', bf, args⟩, ?_, sink', rfl⟩
    simp only [Option.bind_eq_bind, Option.bind_some, put]

theorem zeroPadding_width {pad : Nat} {rest : List Byte} (padding : zeroPadding fmt = (pad, rest)) :
    pad ≤ 9 := by
  unfold zeroPadding at padding
  split at padding
  · cases padding
    decide
  · split at padding
    · split at padding
      · cases padding
        decide
      · cases padding
        split <;> omega
    · cases padding
      decide

/-- The loop appends the text of what is left of the format, as far as there is room. It may stop
before the end of the format when there is none. -/
theorem formatLoop_sink (sink : Sink bufferLen.toNat base text l.out)
    (positive : 0 < bufferLen.toNat) (meant : render (parse fmt) l.args = some t) :
    ∃ l', formatLoop bufferLen fmt l = some l' ∧
      Sink bufferLen.toNat base (text ++ t) l'.out := by
  fun_induction parse fmt generalizing l text t with
  | case1 =>
    cases meant
    exact ⟨l, by rw [formatLoop], by rwa [List.append_nil]⟩
  | case2 ch fmt plain ih =>
    rw [formatLoop]
    simp only [full_iff sink positive]
    by_cases full : bufferLen.toNat ≤ l.out.p + 1
    · rw [if_pos full]
      exact ⟨l, rfl, sink.full full⟩
    · obtain ⟨o', put, sink'⟩ := putc_sink ch sink positive
      rw [render, Piece.text, Option.bind_eq_bind, Option.bind_some, Option.bind_eq_bind,
        Option.bind_eq_some_iff] at meant
      obtain ⟨more, later, same⟩ := meant
      cases same
      obtain ⟨l', done, final⟩ := ih (l := { l with out := o' }) sink' later
      rw [if_neg full, if_pos plain, put]
      refine ⟨l', done, ?_⟩
      rwa [List.append_assoc] at final
  | case3 ch fmt special pad padding =>
    cases meant
    rw [formatLoop]
    simp only [full_iff sink positive]
    rw [List.append_nil]
    refine ⟨l, ?_, sink⟩
    split
    · rfl
    · split
      · rfl
      · rename_i same
        rw [padding] at same
        cases same
  | case4 ch fmt special pad ch' rest padding ih =>
    rw [formatLoop]
    simp only [full_iff sink positive]
    by_cases full : bufferLen.toNat ≤ l.out.p + 1
    · rw [if_pos full]
      exact ⟨l, rfl, sink.full full⟩
    · rw [render, Option.bind_eq_bind, Option.bind_eq_some_iff] at meant
      obtain ⟨⟨first, args⟩, here, meant⟩ := meant
      rw [Option.bind_eq_bind, Option.bind_eq_some_iff] at meant
      obtain ⟨more, later, same⟩ := meant
      cases same
      obtain ⟨l₁, put, sink', left⟩ := directive_sink sink positive
        (zeroPadding_width padding) here
      obtain ⟨l', done, final⟩ := ih (l := l₁) sink' (by rw [left]; exact later)
      rw [if_neg full, if_neg special]
      refine ⟨l', ?_, by rwa [List.append_assoc] at final⟩
      split
      · rename_i same
        rw [padding] at same
        cases same
      · rename_i same
        rw [padding] at same
        cases same
        rw [put]
        exact done

theorem cstring_takeWhile {b : Buffer} {i n : Nat}
    (bytes : ∀ k < text.length, b (i + k) = text.getD k 0) (zero : b (i + text.length) = 0)
    (inside : text.length < n) : cstring b i n = text.takeWhile (· != 0) := by
  induction text generalizing i n with
  | nil =>
    obtain ⟨n, rfl⟩ := Nat.exists_eq_add_of_lt inside
    simp only [List.length_nil, Nat.add_zero] at zero
    simp [cstring, zero]
  | cons c text ih =>
    rw [List.length_cons] at inside
    obtain ⟨n, rfl⟩ := Nat.exists_eq_add_of_lt inside
    have first : b i = c := bytes 0 (by simp)
    rw [show text.length + 1 + n + 1 = (text.length + n + 1) + 1 by omega, cstring, first]
    by_cases stop : c = 0
    · rw [if_pos stop, List.takeWhile_cons_of_neg (by simpa using stop)]
    · rw [List.length_cons, show i + (text.length + 1) = i + 1 + text.length by omega] at zero
      have rest := ih (n := text.length + n + 1) (fun k low => ?_) zero (by omega)
      · rw [if_neg stop, List.takeWhile_cons_of_pos (by simpa using stop), rest]
      · have later := bytes (k + 1) (by simpa using low)
        rwa [show i + (k + 1) = i + 1 + k by omega] at later

/-! Formats as they are written. -/

/-- A piece that a format can ask for. -/
def Piece.Writable : Piece → Prop
  | .char c => c ≠ 0
  | .number radix uppercase unsig zeroPad =>
    (radix = 10 ∧ uppercase = false ∨ radix = 16 ∧ unsig = true) ∧ zeroPad ≤ 9
  | .character => True
  | .string => True

/-- The letter of a number. -/
def letter (radix : Nat) (uppercase unsig : Bool) : Byte :=
  if radix = 10 then (if unsig then letterU else letterD)
  else if uppercase then capitalX else letterX

def Piece.spell : Piece → List Byte
  | .char c => if c = percent then [percent, percent] else [c]
  | .number radix uppercase unsig zeroPad =>
    if zeroPad = 0 then [percent, letter radix uppercase unsig]
    else [percent, zero, BitVec.ofNat 8 (0x30 + zeroPad), letter radix uppercase unsig]
  | .character => [percent, letterC]
  | .string => [percent, letterS]

theorem parse_directive {pad : Nat} {rest : List Byte}
    (padding : zeroPadding fmt = (pad, ch :: rest)) :
    parse (percent :: fmt) = pieceOf pad ch :: parse rest := by
  rw [parse, if_neg (by simp)]
  split
  · rename_i same
    rw [padding] at same
    cases same
  · rename_i same
    rw [padding] at same
    cases same
    rfl

theorem zeroPadding_none (other : ch ≠ zero) : zeroPadding (ch :: fmt) = (0, ch :: fmt) := by
  rw [zeroPadding.eq_def]
  exact if_neg other

theorem zeroPadding_some {pad : Nat} (small : pad ≤ 9) :
    zeroPadding (zero :: BitVec.ofNat 8 (0x30 + pad) :: fmt) = (pad, fmt) := by
  have value : (BitVec.ofNat 8 (0x30 + pad)).toNat = 0x30 + pad := by
    rw [BitVec.toNat_ofNat]
    omega
  rw [zeroPadding.eq_def]
  dsimp only
  rw [if_pos rfl, value, if_pos (by omega), Nat.add_sub_cancel_left]

theorem pieceOf_letter {radix : Nat} {uppercase unsig : Bool}
    (kind : radix = 10 ∧ uppercase = false ∨ radix = 16 ∧ unsig = true) :
    pieceOf zeroPad (letter radix uppercase unsig) = .number radix uppercase unsig zeroPad := by
  rcases kind with ⟨rfl, rfl⟩ | ⟨rfl, rfl⟩
  · cases unsig <;> rfl
  · cases uppercase <;> rfl

theorem letter_plain {radix : Nat} {uppercase unsig : Bool} :
    letter radix uppercase unsig ≠ zero ∧ letter radix uppercase unsig ≠ 0 := by
  rw [letter]
  split <;> split <;> decide

/-- A format is read as it was meant. -/
theorem parse_spell {piece : Piece} (writable : piece.Writable) :
    parse (piece.spell ++ fmt) = piece :: parse fmt := by
  cases piece with
  | char c =>
    rw [Piece.spell]
    split
    · rename_i same
      rw [same]
      exact parse_directive (zeroPadding_none (by decide))
    · rename_i other
      rw [List.singleton_append, parse, if_pos other]
  | number radix uppercase unsig zeroPad =>
    obtain ⟨kind, small⟩ := writable
    rw [Piece.spell]
    split
    · rename_i none
      rw [none, ← pieceOf_letter kind]
      exact parse_directive (zeroPadding_none letter_plain.1)
    · rw [← pieceOf_letter kind]
      exact parse_directive (zeroPadding_some small)
  | character => exact parse_directive (zeroPadding_none (by decide))
  | string => exact parse_directive (zeroPadding_none (by decide))

theorem spell_noNul {piece : Piece} (writable : piece.Writable) : ∀ c ∈ piece.spell, c ≠ 0 := by
  intro c member
  cases piece with
  | char d =>
    rw [Piece.spell] at member
    split at member
    · simp only [List.mem_cons, List.not_mem_nil, or_false, or_self] at member
      rw [member]
      decide
    · rw [List.mem_singleton.mp member]
      exact writable
  | number radix uppercase unsig zeroPad =>
    rw [Piece.spell] at member
    split at member
    · simp only [List.mem_cons, List.not_mem_nil, or_false] at member
      rcases member with rfl | rfl
      · decide
      · exact letter_plain.2
    · simp only [List.mem_cons, List.not_mem_nil, or_false] at member
      rcases member with rfl | rfl | rfl | rfl
      · decide
      · decide
      · intro none
        have value := congrArg BitVec.toNat none
        have small := writable.2
        have nothing : (0 : Byte).toNat = 0 := rfl
        rw [BitVec.toNat_ofNat, nothing] at value
        omega
      · exact letter_plain.2
  | character =>
    simp only [Piece.spell, List.mem_cons, List.not_mem_nil, or_false] at member
    rcases member with rfl | rfl <;> decide
  | string =>
    simp only [Piece.spell, List.mem_cons, List.not_mem_nil, or_false] at member
    rcases member with rfl | rfl <;> decide

/-- The format that asks for some pieces. -/
def formatOf (pieces : List {piece : Piece // piece.Writable}) : CString :=
  ⟨pieces.flatMap fun piece => piece.val.spell, by
    intro c member
    obtain ⟨piece, -, here⟩ := List.mem_flatMap.mp member
    exact spell_noNul piece.property c here⟩

theorem parse_formatOf (pieces : List {piece : Piece // piece.Writable}) :
    parse (formatOf pieces).val = pieces.map Subtype.val := by
  induction pieces with
  | nil =>
    change parse [] = []
    rw [parse]
  | cons piece pieces ih =>
    change parse (piece.val.spell ++ (formatOf pieces).val) = _
    rw [parse_spell piece.property, ih, List.map_cons]

/-- Whatever the format and its arguments, no byte outside of the arrays is stored to, and what is
printed are the first 255 characters of what the format means, up to a zero byte among them. -/
theorem printk_prints {fmt : CString} (meant : render (parse fmt.val) args = some text) :
    printk buffer bf fmt args =
      some (min text.length 255, (text.take 255).takeWhile (· != 0)) := by
  have begins : Sink (256 : Word).toNat buffer [] ⟨buffer, 0⟩ := Sink.start
  obtain ⟨l', done, sink⟩ := formatLoop_sink (l := ⟨⟨buffer, 0⟩, bf, args⟩) begins (by decide) meant
  have size : (256 : Word).toNat = 256 := rfl
  rw [List.nil_append, size] at sink
  have here : l'.out.p = min text.length 255 := sink.p
  rw [printk, miniVsnprintf, done]
  simp only [Option.bind_eq_bind, Option.bind_some]
  rw [Out.push_room (by omega), Option.bind_some, here, Out.append_buffer, write_one]
  congr 2
  have taken : (text.take 255).length = l'.out.p := by
    rw [List.length_take]
    omega
  refine cstring_takeWhile (fun k low => ?_) ?_ (by omega)
  · rw [Nat.zero_add, Function.update_of_ne (by omega), sink.bytes k (by omega),
      List.getD_eq_getElem?_getD, List.getD_eq_getElem?_getD, List.getElem?_take_of_lt (by omega)]
  · rw [Nat.zero_add, taken, Function.update_self]

/-- A format that is written for some pieces prints them. -/
theorem printk_pieces {pieces : List {piece : Piece // piece.Writable}}
    (meant : render (pieces.map Subtype.val) args = some text) :
    printk buffer bf (formatOf pieces) args =
      some (min text.length 255, (text.take 255).takeWhile (· != 0)) := by
  rw [← parse_formatOf] at meant
  exact printk_prints meant

/-- A hexadecimal number of five digits and a character. -/
theorem printk_pieces_hex : ∃ pieces : List {piece : Piece // piece.Writable},
    printk (fun _ => 0) (fun _ => 0) (formatOf pieces) [.int 0xbeef, .int 0x21] =
      some (6, [0x30, 0x62, 0x65, 0x65, 0x66, 0x21]) := by
  let pieces : List {piece : Piece // piece.Writable} :=
    [⟨.number 16 false true 5, .inr ⟨rfl, rfl⟩, by decide⟩, ⟨.character, trivial⟩]
  have digits : numeral 16 false true 5 0xbeef = [0x30, 0x62, 0x65, 0x65, 0x66] := by decide
  have meant : render (pieces.map Subtype.val) [.int 0xbeef, .int 0x21] =
      some (numeral 16 false true 5 0xbeef ++ ([0x21] ++ [])) := rfl
  rw [digits] at meant
  exact ⟨pieces, printk_pieces meant⟩

end Tina.Printing
