import Tina.Structure
import Tina.Splitting

/-! `decode_path` as the code has it: the path is copied to `buf` and split there, and its
components stay in `buf`. -/
namespace Tina.Files

open ByteBuffer Atomic SlotTree Runs Splitting

variable {s : FileSystem} {buf buf' : Buffer} {i k fuel : Nat} {args : List Nat}
  {text w : List Byte} {c : Byte} {name : CString}

/-- `sizeof buf` and the number of elements of `dir_args`. -/
def bufSize : Nat := 32
def maxArgs : Nat := 16

/-- The inner loop of `decode_path`: it stops at the end of `buf` or overwrites a slash. -/
def splitInner : Nat → Buffer → Nat → Option (Buffer × Nat)
  | 0, _, _ => none
  | fuel + 1, buf, i =>
    if bufSize ≤ i then none
    else if buf i = 0 then some (buf, i)
    else if buf i = slash then some (Function.update buf i 0, i + 1)
    else splitInner fuel buf (i + 1)

/-- The outer loop. `dir_args` holds places in `buf`, and its length is `dir_num`. -/
def splitOuter : Nat → Buffer → Nat → List Nat → Option (Buffer × List Nat)
  | 0, _, _, _ => none
  | fuel + 1, buf, i, dirArgs =>
    if bufSize ≤ i then none
    else if buf i = 0 then some (buf, dirArgs)
    else if buf i = slash then splitOuter fuel buf (i + 1) dirArgs
    else if maxArgs ≤ dirArgs.length then none
    else match splitInner fuel buf (i + 1) with
      | none => none
      | some (buf, j) => splitOuter fuel buf j (dirArgs ++ [i])

/-- Both loops on a copy of the path; none for an access outside `buf` or `dir_args`. -/
def splitPath (dirName : CString) (buf : Buffer) : Option (Buffer × List Nat) :=
  if bufSize ≤ dirName.val.length then none
  else splitOuter bufSize (strcpy 0 dirName.val buf) 0 []

def bufString (buf : Buffer) (a : Nat) : List Byte := cstring buf a (bufSize - a)

/-- `decode_path` with its `buf`, which holds anything before. -/
def decodePathBuf (dirName : CString) (stack buf : Buffer) : Routine Int :=
  match splitPath dirName buf with
  | none => .undefined
  | some (buf, dirArgs) => do
    initCurDir (some (buf 0))
    if dirArgs.length = 0 then pure 1
    else if dirName.val.length = 0 then pure 1
    else walkPath stack (dirArgs.map (bufString buf))

def isSlash (c : Byte) : Bool := c == slash

example : runs isSlash [0x2f, 0x41, 0x2f, 0x2f, 0x2e, 0x2f] = [[0x41], [0x2e]] := by decide

theorem splitInner_eq : splitInner fuel buf i = endRun slash bufSize fuel buf i := by
  induction fuel generalizing i with
  | zero => rfl
  | succ fuel ih => rw [splitInner, endRun, ih]

theorem splitOuter_eq :
    splitOuter fuel buf i args = splitRuns slash bufSize maxArgs fuel buf i args := by
  induction fuel generalizing buf i args with
  | zero => rfl
  | succ fuel ih =>
    rw [splitOuter, splitRuns, splitInner_eq, ih]
    cases endRun slash bufSize fuel buf (i + 1) with
    | none => rfl
    | some r => simp only [ih]

theorem componentLoop_eq (text w : List Byte) : componentLoop w text =
    (w ++ text.takeWhile fun c => !isSlash c) ::
      skipLoop (text.dropWhile fun c => !isSlash c).tail := by
  induction text generalizing w with
  | nil => simp [componentLoop, skipLoop]
  | cons c text ih =>
    rw [componentLoop]
    by_cases ends : c = slash
    · simp [ends, isSlash]
    · simp [ends, isSlash, ih]

theorem skipLoop_runs (text : List Byte) : skipLoop text = runs isSlash text := by
  generalize size : text.length = n
  induction n using Nat.strong_induction_on generalizing text with
  | _ n ih =>
    cases text with
    | nil => rfl
    | cons c text =>
      rw [List.length_cons] at size
      rw [skipLoop]
      by_cases ends : c = slash
      · rw [if_pos ends, runs_separator isSlash (by simp [ends, isSlash]), ih _ (by omega) _ rfl]
      · have shorter := (text.dropWhile_sublist fun c => !isSlash c).length_le
        rw [if_neg ends, runs_run isSlash (by simpa [isSlash] using ends), componentLoop_eq,
          ih _ (by rw [List.length_tail]; omega) _ rfl]
        rfl

/-- The places of at most 16 strings in `buf`, which are the maximal runs. -/
theorem splitPath_returns (buf : Buffer) (short : name.val.length < bufSize) :
    (starts isSlash name.val).length ≤ maxArgs ∧
    ∃ buf', splitPath name buf = some (buf', starts isSlash name.val) ∧
      buf' 0 = strcpy 0 name.val buf 0 ∧
      ∀ a ∈ starts isSlash name.val, bufString buf' a = runAt isSlash name.val a := by
  have few := (loop_length name.val).1
  have length : (runs isSlash name.val).length = (starts isSlash name.val).length :=
    List.length_map ..
  rw [skipLoop_runs] at few
  have room : ([] : List Nat).length + (runs isSlash name.val).length ≤ maxArgs := by
    simp only [List.length_nil, maxArgs, bufSize] at *
    omega
  have copied : Reads (strcpy 0 name.val buf) 0 name.val := strcpy_reads name.property
  have fits : 0 + name.val.length < bufSize := by rwa [Nat.zero_add]
  obtain ⟨buf', result, frame, found⟩ :=
    @splitRuns_returns slash bufSize maxArgs bufSize 0 _ [] name.val copied fits short room
  refine ⟨by simpa [length] using room, buf', ?_, frame 0 (Nat.le_refl 0), fun a member => ?_⟩
  · rw [splitPath, if_neg (Nat.not_le.mpr short), splitOuter_eq, result]
    simp only [List.nil_append, Nat.add_zero, List.map_id']
    rfl
  · have inside := runAt_fits isSlash (Nat.le_of_lt (mem_starts isSlash member))
    have stands : Reads buf' (a + 0) (runAt isSlash name.val a) := found a member
    exact stands.cstring (by omega)

/-- The zero bytes in `buf` do not change what `init_cur_dir` sees. -/
theorem initCurDir_first (text : List Byte) (buf : Buffer) :
    initCurDir (some (strcpy 0 text buf 0)) = initCurDir text.head? := by
  cases text with
  | nil =>
    have zero : strcpy 0 [] buf 0 = 0 := strcpy_end (s := [])
    rw [zero]
    rfl
  | cons c text =>
    have first : strcpy 0 (c :: text) buf 0 = c := strcpy_inside (k := 0) (by simp)
    rw [first]
    rfl

theorem decodePathBuf_eq (stack buf : Buffer) (short : name.val.length < bufSize) :
    decodePathBuf name stack buf = decodePath name stack := by
  obtain ⟨few, buf', result, first, strings⟩ := splitPath_returns buf short
  have parts : (starts isSlash name.val).map (bufString buf') = skipLoop name.val := by
    rw [skipLoop_runs, runs]
    exact List.map_congr_left strings
  have length : (skipLoop name.val).length = (starts isSlash name.val).length := by
    rw [← parts, List.length_map]
  have inside : ¬(32 ≤ name.val.length ∨ 16 < (skipLoop name.val).length) := by
    simp only [bufSize, maxArgs] at short few
    omega
  simp only [decodePathBuf, result, first, initCurDir_first, parts]
  rw [decodePath, if_neg inside]
  refine congrArg _ (funext fun _ => ?_)
  split
  next none =>
    rw [List.eq_nil_of_length_eq_zero (length.trans none)]
    rfl
  next some =>
    rw [if_neg]
    intro empty
    rw [List.eq_nil_of_length_eq_zero empty] at some
    exact some rfl

/-- What `decode_path` and `cd` make of a path: its maximal runs are followed from the root
or from the directory at `cwd`. -/
structure Resolves (s : FileSystem) (cwd : List Nat) (name : CString) (stack buf : Buffer) :
    Prop where
  few : (starts isSlash name.val).length ≤ maxArgs
  split : ∃ buf', splitPath name buf = some (buf', starts isSlash name.val) ∧
    ∀ a ∈ starts isSlash name.val, bufString buf' a = runAt isSlash name.val a
  same : decodePathBuf name stack buf = decodePath name stack
  found : ∀ q, resolve s.disk (startOf cwd name.val) (runs isSlash name.val) = some q →
    (∃ b, run (decodePathBuf name stack buf) s = some (1, { s with curDir := b }) ∧
      Holds s.disk b q)
  lost : resolve s.disk (startOf cwd name.val) (runs isSlash name.val) = none →
    (∃ b, run (decodePathBuf name stack buf) s = some (-1, { s with curDir := b })) ∧
      ∃ b, run (changeDirectory (some name) stack) s = some ((), { s with curDir := b })

theorem path_resolution (stack buf : Buffer) (session : Session Sane s)
    (short : name.val.length ≤ 31) : ∃ cwd f, locate s.disk cwd = some f ∧ f.mode = dir ∧
      cwdIno s = f.ino ∧ Resolves s cwd name stack buf := by
  have intact := session.intact
  obtain ⟨cwd, f, located, isDir, shell⟩ := intact.cwd
  have fits : name.val.length < bufSize := Nat.lt_succ_of_le short
  obtain ⟨few, buf', result, -, strings⟩ := splitPath_returns buf fits
  have same : components name.val = runs isSlash name.val := by
    rw [← skipLoop_eq, skipLoop_runs]
  have decoded := run_decodePath stack intact.sound intact.rootIno located isDir shell fits
  have moved := run_changeDirectory stack intact.sound intact.rootIno located isDir shell fits
  rw [same] at decoded moved
  have inPlace := decodePathBuf_eq stack buf fits
  refine ⟨cwd, f, located, isDir, shell, few, ⟨buf', result, strings⟩, inPlace,
    fun q found => ?_, fun lost => ?_⟩
  · rw [inPlace]
    rcases decoded with ⟨lost, -⟩ | ⟨q', b, there, ends, holds⟩
    · cases lost.symm.trans found
    · cases there.symm.trans found
      exact ⟨b, ends, holds⟩
  · rw [inPlace]
    constructor
    · rcases decoded with ⟨-, ends⟩ | ⟨q', b, there, -⟩
      · exact ends
      · cases there.symm.trans lost
    · rcases moved with ⟨-, ends⟩ | ⟨q', b, -, -, there, -⟩
      · exact ends
      · cases there.symm.trans lost

theorem path_resolution_mkdir : ∃ s cwd, Session Sane s ∧
    Resolves s cwd nameA blankLocals.db blankLocals.db := by
  obtain ⟨start, s, _, _, _, _, formatted, _, _, _, session⟩ := session_mkdir
  have sane : Sane start (.mkdir (some nameA) blankLocals) :=
    ⟨formatted.fits (by decide), trivial⟩
  obtain ⟨cwd, f, -, -, -, resolves⟩ := @path_resolution s nameA blankLocals.db
    blankLocals.db (session Sane sane) (by decide)
  exact ⟨s, cwd, session Sane sane, resolves⟩

end Tina.Files
