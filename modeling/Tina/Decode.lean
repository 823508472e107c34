import Tina.Console
import Tina.Files
import Mathlib.Data.List.Nodup

/-! `decode` of the shell, and what the commands it calls make of their arguments. A read of an
entry of `args` that is not set, and a copy through an unset pointer, is none. -/
namespace Tina.Console

open ByteBuffer Splitting Runs

/-- `CMD_MAX_COUNT`. -/
def cmdMaxCount : Nat := 16

def space : Byte := 0x20

def ascii (text : List Char) : List Byte := text.map fun c => BitVec.ofNat 8 c.toNat

inductive Command where
  | ps | clear | exec | kill | mkfs | statfs | delfs | mkdir | ls | rm | rmdir | cd | touch | cat
  deriving DecidableEq

def Command.name : Command → List Byte
  | .ps => ascii ['p', 's']
  | .clear => ascii ['c', 'l', 'e', 'a', 'r']
  | .exec => ascii ['e', 'x', 'e', 'c']
  | .kill => ascii ['k', 'i', 'l', 'l']
  | .mkfs => ascii ['m', 'k', 'f', 's']
  | .statfs => ascii ['s', 't', 'a', 't', 'f', 's']
  | .delfs => ascii ['d', 'e', 'l', 'f', 's']
  | .mkdir => ascii ['m', 'k', 'd', 'i', 'r']
  | .ls => ascii ['l', 's']
  | .rm => ascii ['r', 'm']
  | .rmdir => ascii ['r', 'm', 'd', 'i', 'r']
  | .cd => ascii ['c', 'd']
  | .touch => ascii ['t', 'o', 'u', 'c', 'h']
  | .cat => ascii ['c', 'a', 't']

/-- The comparisons of `decode`, in their order. -/
def commands : List Command :=
  [.ps, .clear, .exec, .kill, .mkfs, .statfs, .delfs, .mkdir, .ls, .rm, .rmdir, .cd, .touch, .cat]

/-- What `exec` and `killer` are asked for. -/
inductive Request where
  | usage
  | all
  | each (arguments : List (List Byte))
  deriving DecidableEq

def request (argv : List (List Byte)) : Request :=
  match argv[1]? with
  | none => .usage
  | some first => if first = ascii ['a', 'l', 'l'] then .all else .each (argv.drop 1)

/-- What is called. `plain` commands take no argument, and those of `entry` do nothing without
one. -/
inductive Call where
  | plain (c : Command)
  | tasks (c : Command) (request : Request)
  | entry (c : Command) (name : Option (List Byte))
  | walk (c : Command) (dirName : List Byte)
  | invalid (word : List Byte)
  deriving DecidableEq

/-- `change_directory` and `list_directory` copy "." to where an unset pointer points when there
is no argument. -/
def Command.call (argv : List (List Byte)) : Command → Option Call
  | .exec => some (.tasks .exec (request argv))
  | .kill => some (.tasks .kill (request argv))
  | .cd => argv[1]?.map (.walk .cd)
  | .ls => argv[1]?.map (.walk .ls)
  | .mkdir => some (.entry .mkdir argv[1]?)
  | .rm => some (.entry .rm argv[1]?)
  | .rmdir => some (.entry .rmdir argv[1]?)
  | .touch => some (.entry .touch argv[1]?)
  | .cat => some (.entry .cat argv[1]?)
  | c => some (.plain c)

/-- The string that starts at a place in `cmd`. -/
def cmdString (cmd : Buffer) (a : Nat) : List Byte := cstring cmd a (cmdLen - a)

/-- The two loops on the copy of the line. `cmd` holds anything before. -/
def splitCmd (originCmd : CString) (cmd : Buffer) : Option (Buffer × List Nat) :=
  if cmdLen ≤ originCmd.val.length then none
  else splitRuns space cmdLen cmdMaxCount cmdLen (strcpy 0 originCmd.val cmd) 0 []

/-- The chain of comparisons with `args[0]`. -/
def dispatch (cmd : Buffer) (args : List Nat) : Option Call :=
  match args[0]? with
  | none => none
  | some first =>
    let argv := args.map (cmdString cmd)
    match commands.find? fun c => strcmp cmd first c.name = 0 with
    | none => some (.invalid (cmdString cmd first))
    | some c => c.call argv

/-- What `decode` calls. -/
def decode (originCmd : CString) (cmd : Buffer) : Option (Option Call) := do
  let (cmd, args) ← splitCmd originCmd cmd
  let call ← dispatch cmd args
  return some call

/-! What a line means. -/

def isSpace (c : Byte) : Bool := isSep space c

/-- Without an argument `cd` and `ls` are about the current directory. -/
def Command.meaning (words : List (List Byte)) : Command → Call
  | .cd => .walk .cd (words[1]?.getD Files.dot.val)
  | .ls => .walk .ls (words[1]?.getD Files.dot.val)
  | .exec => .tasks .exec (request words)
  | .kill => .tasks .kill (request words)
  | .mkdir => .entry .mkdir words[1]?
  | .rm => .entry .rm words[1]?
  | .rmdir => .entry .rmdir words[1]?
  | .touch => .entry .touch words[1]?
  | .cat => .entry .cat words[1]?
  | c => .plain c

/-- The call that a line asks for; none for a line without a word. -/
def meaning (words : List (List Byte)) : Option Call :=
  words.head?.map fun word =>
    match commands.find? fun c => word = c.name with
    | none => .invalid word
    | some c => c.meaning words

/-- The words are the maximal runs without spaces, each with its zero byte, and the line is
taken for what it means. -/
structure Parses (line : CString) (cmd : Buffer) : Prop where
  words : ∃ cmd' args, splitCmd line cmd = some (cmd', args) ∧ args.length ≤ cmdMaxCount ∧
    args.map (cmdString cmd') = runs isSpace line.val ∧
    ∀ a ∈ args, Reads cmd' a (cmdString cmd' a) ∧ a + (cmdString cmd' a).length < cmdLen
  calls : decode line cmd = some (meaning (runs isSpace line.val))

/-- At least one word and at most 16, and after `cd` and `ls` at least one more. -/
def Regular (words : List (List Byte)) : Prop :=
  (1 ≤ words.length ∧ words.length ≤ cmdMaxCount) ∧
    (words.head? = some Command.cd.name ∨ words.head? = some Command.ls.name → 2 ≤ words.length)

instance (words : List (List Byte)) : Decidable (Regular words) :=
  inferInstanceAs (Decidable (_ ∧ _))

variable {line : CString} {cmd : Buffer} {args : List Nat} {words : List (List Byte)} {c : Command}

/-- The loops stay in `cmd` and `args` exactly if there are not too many words. -/
theorem splitCmd_returns (cmd : Buffer) (short : line.val.length < cmdLen)
    (few : (runs isSpace line.val).length ≤ cmdMaxCount) :
    ∃ cmd', splitCmd line cmd = some (cmd', starts isSpace line.val) ∧
      ∀ a ∈ starts isSpace line.val, Reads cmd' a (runAt isSpace line.val a) := by
  have copied : Reads (strcpy 0 line.val cmd) 0 line.val := strcpy_reads line.property
  have fits : 0 + line.val.length < cmdLen := by rwa [Nat.zero_add]
  have room : ([] : List Nat).length + (runs isSpace line.val).length ≤ cmdMaxCount := by
    rwa [List.length_nil, Nat.zero_add]
  obtain ⟨cmd', result, _, found⟩ :=
    @splitRuns_returns space cmdLen cmdMaxCount cmdLen 0 _ [] line.val copied fits short room
  refine ⟨cmd', ?_, found⟩
  rw [splitCmd, if_neg (Nat.not_le.mpr short), result]
  simp only [List.nil_append, Nat.add_zero, List.map_id']
  rfl

theorem splitCmd_overflows (cmd : Buffer) (short : line.val.length < cmdLen)
    (many : cmdMaxCount < (runs isSpace line.val).length) : splitCmd line cmd = none := by
  have copied : Reads (strcpy 0 line.val cmd) 0 line.val := strcpy_reads line.property
  have fits : 0 + line.val.length < cmdLen := by rwa [Nat.zero_add]
  have over' : cmdMaxCount < ([] : List Nat).length + (runs isSpace line.val).length := by
    rwa [List.length_nil, Nat.zero_add]
  rw [splitCmd, if_neg (Nat.not_le.mpr short)]
  exact splitRuns_overflow copied fits short (Nat.zero_le _) over'

theorem Command.listed (c : Command) : c ∈ commands := by
  cases c <;> decide

theorem Command.noNul (c : Command) : ∀ b ∈ c.name, b ≠ 0 := by
  have listed : (commands.all fun c => c.name.all fun b => b ≠ 0) = true := by decide
  have bytes := List.all_eq_true.mp listed c c.listed
  exact fun b member => of_decide_eq_true (List.all_eq_true.mp bytes b member)

theorem commands_distinct : (commands.map Command.name).Nodup := by decide

theorem Command.name_inj {d : Command} (same : c.name = d.name) : c = d :=
  List.inj_on_of_nodup_map commands_distinct c.listed d.listed same

/-- The comparisons are comparisons of words. -/
theorem dispatch_eq (reads : ∀ a ∈ args,
      Reads cmd a (cmdString cmd a) ∧ a + (cmdString cmd a).length < cmdLen) :
    dispatch cmd args = (args.map (cmdString cmd)).head?.bind fun word =>
      match commands.find? fun c => word = c.name with
      | none => some (.invalid word)
      | some c => c.call (args.map (cmdString cmd)) := by
  cases args with
  | nil => rfl
  | cons first args =>
    obtain ⟨string, inside⟩ := reads first List.mem_cons_self
    have terminated : Terminated cmd first (cmdLen - first) := by
      refine ⟨_, ?_, string.terminated⟩
      omega
    have compare : (commands.find? fun c => strcmp cmd first c.name = 0) =
        commands.find? fun c => cmdString cmd first = c.name := by
      congr 1
      funext c
      exact decide_eq_decide.mpr (strcmp_eq_zero terminated c.noNul)
    simp only [dispatch, List.getElem?_cons_zero, compare]
    rfl

/-- Only `cd` and `ls` need an argument. -/
theorem Command.call_iff (c : Command) (words : List (List Byte)) :
    c.call words = some (c.meaning words) ↔ (c = .cd ∨ c = .ls → 2 ≤ words.length) := by
  have second : (∃ word, words[1]? = some word) ↔ 2 ≤ words.length := by
    constructor
    · rintro ⟨word, here⟩
      exact (List.getElem?_eq_some_iff.mp here).1
    · intro more
      exact ⟨_, List.getElem?_eq_getElem more⟩
  cases c with
  | cd | ls =>
    rw [← second, Command.call, Command.meaning]
    cases words[1]? <;> simp [Files.dot]
  | _ => simp [Command.call, Command.meaning]

/-- What the first word names. -/
theorem found_iff {word : List Byte} :
    (commands.find? fun c => word = c.name) = some c ↔ word = c.name := by
  constructor
  · intro found
    have here := List.find?_some found
    exact of_decide_eq_true here
  · intro same
    cases found : commands.find? fun c => word = c.name with
    | none =>
      have other := List.find?_eq_none.mp found c c.listed
      exact absurd same (by simpa using other)
    | some d =>
      have here := List.find?_some found
      rw [Command.name_inj ((of_decide_eq_true here).symm.trans same)]

/-- What is called is what the words mean. -/
theorem dispatch_iff (reads : ∀ a ∈ args,
      Reads cmd a (cmdString cmd a) ∧ a + (cmdString cmd a).length < cmdLen)
    (strings : args.map (cmdString cmd) = words) :
    (∃ call, dispatch cmd args = some call ∧ some call = meaning words) ↔
      words ≠ [] ∧
        (words.head? = some Command.cd.name ∨ words.head? = some Command.ls.name →
          2 ≤ words.length) := by
  rw [dispatch_eq reads, strings]
  cases words with
  | nil => simp
  | cons word rest =>
    have named : ∀ d : Command, (word :: rest).head? = some d.name ↔
        (commands.find? fun c => word = c.name) = some d := by
      intro d
      rw [found_iff, List.head?_cons, Option.some_inj]
    rw [named, named, meaning, List.head?_cons, Option.bind_some, Option.map_some]
    cases commands.find? fun c => word = c.name with
    | none => simp
    | some c =>
      have needs := c.call_iff (word :: rest)
      simp only [Option.some_inj, ne_eq, List.cons_ne_nil, not_false_eq_true, true_and, ← needs]
      constructor
      · rintro ⟨call, result, rfl⟩
        exact result
      · intro result
        exact ⟨_, result, rfl⟩

/-- A line is taken for what it means exactly if it has at least one word, at most 16, and the
argument that `cd` and `ls` need. -/
theorem parses_iff (cmd : Buffer) (short : line.val.length < cmdLen) :
    Parses line cmd ↔ Regular (runs isSpace line.val) := by
  have length : (starts isSpace line.val).length = (runs isSpace line.val).length :=
    (List.length_map ..).symm
  by_cases few : (runs isSpace line.val).length ≤ cmdMaxCount
  · obtain ⟨cmd', result, found⟩ := splitCmd_returns cmd short few
    have string : ∀ a ∈ starts isSpace line.val, cmdString cmd' a = runAt isSpace line.val a ∧
        a + (runAt isSpace line.val a).length < cmdLen := by
      intro a member
      have inside := runAt_fits isSpace (Nat.le_of_lt (mem_starts isSpace member))
      exact ⟨(found a member).cstring (by omega), by omega⟩
    have strings : (starts isSpace line.val).map (cmdString cmd') = runs isSpace line.val :=
      List.map_congr_left fun a member => (string a member).1
    have reads : ∀ a ∈ starts isSpace line.val,
        Reads cmd' a (cmdString cmd' a) ∧ a + (cmdString cmd' a).length < cmdLen := by
      intro a member
      rw [(string a member).1]
      exact ⟨found a member, (string a member).2⟩
    have calls : decode line cmd = some (meaning (runs isSpace line.val)) ↔
        ∃ call, dispatch cmd' (starts isSpace line.val) = some call ∧
          some call = meaning (runs isSpace line.val) := by
      simp only [decode, result, Option.bind_eq_bind, Option.bind_some, Option.pure_def]
      cases dispatch cmd' (starts isSpace line.val) <;> simp
    have some : 1 ≤ (runs isSpace line.val).length ↔ runs isSpace line.val ≠ [] :=
      List.length_pos_iff
    rw [Regular, and_iff_left few, some, ← dispatch_iff reads strings, ← calls]
    constructor
    · exact Parses.calls
    · exact fun calls => ⟨⟨cmd', _, result, by rwa [length], strings, reads⟩, calls⟩
  · constructor
    · rintro ⟨⟨cmd', args, result, _⟩, _⟩
      rw [splitCmd_overflows cmd short (Nat.lt_of_not_le few)] at result
      cases result
    · exact fun regular => absurd regular.1.2 few

def catA : CString := ⟨ascii ['c', 'a', 't', ' ', ' ', 'a'], by decide⟩
def emptyLine : CString := ⟨[], by decide⟩
def bareCd : CString := ⟨ascii ['c', 'd'], by decide⟩
def manyWords : CString := ⟨(List.replicate 17 (ascii ['a', ' '])).flatten, by decide⟩

theorem parses_cat : Parses catA (fun _ => 0) :=
  (parses_iff (fun _ => 0) (by decide)).mpr (by decide)

/-- A line without a word, a missing argument, and a word too many. -/
theorem not_parses : ¬Parses emptyLine (fun _ => 0) ∧ ¬Parses bareCd (fun _ => 0) ∧
    ¬Parses manyWords (fun _ => 0) := by
  refine ⟨fun parses => ?_, fun parses => ?_, fun parses => ?_⟩
  · exact absurd ((parses_iff _ (by decide)).mp parses) (by decide)
  · exact absurd ((parses_iff _ (by decide)).mp parses) (by decide)
  · exact absurd ((parses_iff _ (by decide)).mp parses) (by decide)

end Tina.Console
