import Tina.Decode
import Tina.Format
import Tina.Lifetime

/-! The shell and the card: what is typed, what it does to the tree, and what is printed in answer.
`ps` and `clear` do not touch the card, and other processes are left out. Of the messages only
those of `ls`, of `cat` and of an unknown word are here. -/
namespace Tina.Console

open ByteBuffer Splitting Runs Atomic SlotTree Printing

/-- What lies on the stack when a character has been read. -/
structure Stack where
  cmd : Buffer
  block : Buffer
  locals : Files.Locals
  buff : Buffer
  bf : Buffer

/-- The string behind a pointer. -/
def argument (word : List Byte) : CString :=
  ⟨word.takeWhile (· != 0), fun _ member => by simpa using List.mem_takeWhile_imp member⟩

/-- A format and its arguments. -/
abbrev Message := CString × List Arg

theorem ne_of_absent {c : Byte} {text : List Byte} (absent : c ∉ text) : ∀ d ∈ text, d ≠ c :=
  fun _ member same => absent (same ▸ member)

def noDirectory : CString :=
  ⟨ascii ['e', 'r', 'r', 'o', 'r', ':', ' ', 'n', 'o', ' ', 's', 'u', 'c', 'h', ' ',
    'd', 'i', 'r', 'e', 'c', 't', 'o', 'r', 'y', '\n'], ne_of_absent (by decide)⟩

def noFile : CString :=
  ⟨ascii ['e', 'r', 'r', 'o', 'r', ':', ' ', 'n', 'o', ' ', 's', 'u', 'c', 'h', ' ',
    'f', 'i', 'l', 'e', '\n'], ne_of_absent (by decide)⟩

def invalid : List Byte :=
  ascii ['e', 'r', 'r', 'o', 'r', ':', ' ', 'i', 'n', 'v', 'a', 'l', 'i', 'd', ' ',
    'c', 'o', 'm', 'm', 'a', 'n', 'd', ':', ' ']

def invalidCommand : CString := ⟨invalid ++ ascii ['%', 's', '\n'], ne_of_absent (by decide)⟩
def eachName : CString := ⟨ascii ['%', 's', ' ', ' ', ' ', ' '], ne_of_absent (by decide)⟩
def lineFeed : CString := ⟨ascii ['\n'], ne_of_absent (by decide)⟩
def wholeFile : CString := ⟨ascii ['%', 's'], ne_of_absent (by decide)⟩

/-- `delfs`. Only the magic number goes. -/
def deletefs : Files.Routine Unit := do
  Files.superblockRead
  let magic ← read fun s => word s.superblock Files.offMagic
  if magic ≠ Files.fsMagic then pure ()
  else
    change fun s => { s with superblock := setWord Files.offMagic 0 s.superblock }
    Files.superblockWrite

def listed (name : List Byte) : Message := (eachName, [.str (argument name)])

/-- What a call does to the card, and what it prints. What `exec` starts may use the card, and
`kill` may end the shell: both are followed only where they print how they are used. -/
def Call.routine (stack : Stack) : Call → Files.Routine (List Message)
  | .plain .mkfs => do
    Files.doMakefs stack.locals
    return []
  | .plain .delfs => do
    deletefs
    return []
  | .plain .statfs => do
    Files.superblockRead
    return []
  | .tasks _ .usage => return []
  | .tasks _ _ => .undefined
  | .entry .mkdir name => do
    Files.makeDirectory (name.map argument) stack.locals
    return []
  | .entry .touch name => do
    Files.touchFile (name.map argument) stack.locals
    return []
  | .entry .rm name => do
    Files.removeFile (name.map argument) stack.locals
    return []
  | .entry .rmdir name => do
    Files.removeDirectory (name.map argument) stack.locals
    return []
  | .entry .cat none => return []
  | .entry .cat (some name) => do
    match ← Files.catFile (some (argument name)) stack.block with
    | none => return [(noFile, [])]
    | some text => return [(wholeFile, [.str (argument text)])]
  | .walk .cd path => do
    Files.changeDirectory (some (argument path)) stack.block
    return []
  | .walk .ls path => do
    match ← Files.listDirectory (some (argument path)) stack.block with
    | none => return [(noDirectory, [])]
    | some names => return names.map listed ++ [(lineFeed, [])]
  | .invalid word => return [(invalidCommand, [.str (argument word)])]
  | _ => return []

/-- `printf`. -/
def Stack.print (stack : Stack) (message : Message) : Option (List Byte) :=
  (printk stack.buff stack.bf message.1 message.2).map Prod.snd

/-- The line is decoded, and the command is carried out. -/
def obey (line : List Byte) (stack : Stack) (s : Files.FileSystem) :
    Option (List (List Byte) × Files.FileSystem) := do
  match ← decode (argument line) stack.cmd with
  | none => return ([], s)
  | some call =>
    let (messages, s) ← run (call.routine stack) s
    let printed ← messages.mapM stack.print
    return (printed, s)

/-- The loop of `test_shell`. -/
def shell : List (Byte × Stack) → Editor → Files.FileSystem →
    Option (List (List Byte) × Editor × Files.FileSystem)
  | [], e, s => some ([], e, s)
  | (ch, stack) :: input, e, s => do
    let (line, e) ← round ch e
    let (printed, s) ← match line with
      | none => some ([], s)
      | some line => obey line stack s
    let (rest, e, s) ← shell input e s
    return (printed ++ rest, e, s)

end Tina.Console

/-! What it means for the tree. -/
namespace Tina.Files

open ByteBuffer SlotTree Console

def Item.name : Item → List Byte
  | .directory name => name
  | .file name _ => name

def Content.text (content : Content) : List Byte := (List.ofFn content).takeWhile (· != 0)

def Volume.entries (v : Volume) (p : List Nat) : List (List Byte) :=
  dot.val :: dotDot.val :: childSlots.filterMap fun i => (v.tree (i :: p)).map Item.name

/-- A buffer of `printf` has room for this many characters. -/
def screenful : Nat := 255

/-- What a call does to the tree. -/
def Volume.Does (v w : Volume) : Console.Call → Prop
  | .plain .mkfs => w.tree = v.tree ∧ w.cwd = []
  | .entry .mkdir (some name) => v.Step w (.mkdir name)
  | .entry .touch (some name) => v.Step w (.touch name)
  | .entry .rm (some name) => v.Step w (.rm name)
  | .entry .rmdir (some name) => v.Step w (.rmdir name)
  | .walk .cd path => v.Step w (.cd path)
  | _ => w = v

/-- What is printed. Where there is no file to print, `cat` may print one that was. -/
def Volume.Answers (v : Volume) (printed : List (List Byte)) : Console.Call → Prop
  | .walk .ls path => printed = match v.walk path with
    | none => [noDirectory.val]
    | some p => (v.entries p).map (· ++ List.replicate 4 space) ++ [[newline]]
  | .entry .cat (some name) => ∀ i, firstChild childSlots (Item.isFile name) v.tree v.cwd = some i →
    ∀ own content, v.tree (i :: v.cwd) = some (.file own content) →
      printed = [content.text.take screenful]
  | .invalid word =>
    printed = [(invalid ++ word ++ [newline]).take screenful]
  | _ => printed = []

variable {s s' : FileSystem} {v w : Volume} {p : List Nat} {i : Nat} {f n : Node} {d : Buffer}
  {name : CString} {own : List Byte} {content : Content}

theorem item_name : (item d n).name = n.name := by
  rw [item]
  split <;> rfl

/-- What neither the card nor the shell notices. -/
theorem Represents.still (before : Represents s v) (disk : s'.disk = s.disk)
    (shell : s'.shellPathInode = s.shellPathInode) : Represents s' v := by
  obtain ⟨f, located, isDir, number⟩ := before.cwd
  refine ⟨by rw [disk, before.tree], f, by rw [disk, located], isDir, ?_⟩
  rw [cwdIno, shell, ← cwdIno, number]

theorem Represents.listing (before : Represents s v) (intact : Intact s)
    (located : locate s.disk p = some f) (isDir : f.mode = dir) :
    listing s.disk f.ino = v.entries p := by
  obtain ⟨g, above, _⟩ := locate_tail located
  have dots := intact.sound.dots located isDir above
  have slots : List.range dentrysPerBlock = 0 :: 1 :: childSlots := by decide
  rw [Files.listing, slots, List.filterMap_cons, dots.self, List.filterMap_cons, dots.parent,
    Volume.entries]
  simp only [Option.map_some]
  congr 2
  apply List.filterMap_congr
  intro i member
  obtain ⟨slot, inside⟩ := childSlots_member.mp member
  rw [before.tree, image, locate_cons located isDir slot inside, Option.map_map]
  exact Option.map_congr fun n _ => item_name.symm

theorem cstring_ofFn (b : Buffer) (a n : Nat) :
    cstring b a n = (List.ofFn fun k : Fin n => b (a + k)).takeWhile (· != 0) := by
  induction n generalizing a with
  | zero => rfl
  | succ n ih =>
    rw [cstring, ih, List.ofFn_succ, List.takeWhile_cons]
    by_cases ends : b a = 0
    · simp [ends]
    · simp [Nat.add_assoc, Nat.add_comm 1]

theorem Intact.dots_mode (intact : Intact s) (located : locate s.disk p = some f)
    (isDir : f.mode = dir) (low : i < 2) (live : dirEntry s.disk f.ino i = some n) :
    n.mode ≠ file := by
  obtain ⟨g, above, _⟩ := locate_tail located
  have dots := intact.sound.dots located isDir above
  intro isFile
  rcases Nat.lt_or_ge i 1 with zero | one
  · cases Nat.lt_one_iff.mp zero
    cases dots.self.symm.trans live
    cases isFile
  · cases Nat.le_antisymm (Nat.le_of_lt_succ low) one
    cases dots.parent.symm.trans live
    cases isFile

theorem listing_name {ino : Word} (member : own ∈ Files.listing d ino) :
    (∀ c ∈ own, c ≠ 0) ∧ own.length ≤ 24 := by
  obtain ⟨i, _, listed⟩ := List.mem_filterMap.mp member
  obtain ⟨n, live, rfl⟩ := Option.map_eq_some_iff.mp listed
  have text : ∃ a, n.name = cstring d a 24 := by
    rw [dirEntry, entry] at live
    split at live
    · cases live
    · cases live
      exact ⟨_, rfl⟩
  obtain ⟨a, text⟩ := text
  rw [text, cstring_ofFn]
  constructor
  · exact fun c inside => by simpa using List.mem_takeWhile_imp inside
  · exact (List.takeWhile_prefix _).length_le.trans_eq List.length_ofFn

/-- `cat` finds the file that is the first of its name. -/
theorem Represents.catFile (before : Represents s v) (intact : Intact s) (stack : Buffer)
    (first : firstChild childSlots (Item.isFile name.val) v.tree v.cwd = some i)
    (there : v.tree (i :: v.cwd) = some (.file own content)) :
    Atomic.run (Files.catFile (some name) stack) s = some (some content.text, s) := by
  obtain ⟨f, located, isDir, shell⟩ := before.cwd
  have standing := intact.standing
  have search : ∀ j ∈ childSlots, ((v.tree (j :: v.cwd)).any (Item.isFile name.val) = true ↔
      matchesEntry (cwdBlock s stack) file name j = true) := by
    intro j slot
    rw [firstChild_entry before intact located isDir shell intact.sound.isFile slot, ← shell,
      standing.matches stack (childSlots_member.mp slot).2]
  rw [firstChild, childSlots, List.find?_range'_eq_some] at first
  obtain ⟨found, member, earlier⟩ := first
  obtain ⟨slot, inside⟩ := childSlots_member.mp member
  have missed : ∀ j < i, matchesEntry (cwdBlock s stack) file name j = false := by
    intro j low
    rw [Bool.eq_false_iff]
    intro stops
    by_cases child : 2 ≤ j
    · have later := earlier j child low
      rw [(search j (childSlots_member.mpr ⟨child, Nat.lt_trans low inside⟩)).mpr stops] at later
      cases later
    · obtain ⟨n, live, kind, _⟩ := (standing.matches stack (Nat.lt_trans low inside)).mp stops
      rw [shell] at live
      exact intact.dots_mode located isDir (Nat.lt_of_not_le child) live kind
  have stops : scan 0x200 (matchesEntry (cwdBlock s stack) file name) = i :=
    scan_eq (Nat.lt_trans inside (by decide)) ((search i member).mp found) missed
  have child := locate_cons located isDir slot inside
  rw [before.tree, image] at there
  obtain ⟨n, here, same⟩ := Option.map_eq_some_iff.mp there
  rw [child] at here
  have number : dentryIno (cwdBlock s stack) i = n.ino := by
    have read := @entry_read s (cwdIno s) i stack inside
    rw [shell, here, ← shell] at read
    exact (entry_some read).1
  have bytes : content = fun k : Fin blockSize =>
      copy stack 0 s.disk (blockAddress n.ino) blockSize (0 + k) := by
    rw [item] at same
    split at same
    · cases same
    · cases same
      funext k
      rw [Nat.zero_add, copy_start k.isLt]
      rfl
  rw [Files.catFile, Atomic.run_then run_shellPathIno, Atomic.run_then run_dirBlockRead, ← cwdBlock]
  dsimp only
  rw [stops, if_neg (Nat.ne_of_lt (Nat.lt_trans inside (by decide))),
    Atomic.run_then run_fileBlockRead, number, cstring_ofFn, Content.text, bytes]
  rfl

end Tina.Files

namespace Tina.Console

open ByteBuffer Splitting Runs Atomic SlotTree Printing

/-- The lines that are typed, what is printed, and the tree before and after them. -/
inductive Converses : List (List Byte) → Files.Volume → List (List Byte) → Files.Volume → Prop
  | nil {v : Files.Volume} : Converses [] v [] v
  | cons {line : List Byte} {lines printed rest : List (List Byte)} {call : Call}
    {v w x : Files.Volume} (meant : meaning (runs isSpace line) = some call) (does : v.Does w call)
    (answers : v.Answers printed call) (later : Converses lines w rest x) :
    Converses (line :: lines) v (printed ++ rest) x

/-- Creations find room, and paths fit the buffer of `decode_path`. `statfs` and `delfs` store
behind the superblock in memory, and no process is started or killed. -/
def Call.Fits (s : Files.FileSystem) : Call → Prop
  | .entry .mkdir (some name) => Files.CreationFits s (argument name)
  | .entry .touch (some name) => Files.CreationFits s (argument name)
  | .walk _ path => path.length < 32
  | .plain .statfs => False
  | .plain .delfs => False
  | .tasks _ .all => False
  | .tasks _ (.each _) => False
  | _ => True

/-- No line gets too long, and each is regular and fits where it ends. -/
def Orderly : List Byte → List (Byte × Stack) → Files.FileSystem → Prop
  | _, [], _ => True
  | text, (ch, stack) :: input, s =>
    (edit text ch).length ≤ longest ∧
    if EndsLine ch then
      Regular (runs isSpace text) ∧ ∀ call, meaning (runs isSpace text) = some call →
        call.Fits s ∧ ∀ messages s', run (call.routine stack) s = some (messages, s') →
          Orderly [] input s'
    else Orderly (edit text ch) input s

variable {s s' : Files.FileSystem} {v w : Files.Volume} {text line own : List Byte}
  {words : List (List Byte)} {call : Call} {stack : Stack} {e : Editor}
  {input : List (Byte × Stack)} {fmt : CString} {args : List Arg}

theorem argument_val (noNul : ∀ c ∈ text, c ≠ 0) : (argument text).val = text :=
  List.takeWhile_eq_self_iff.mpr fun c member => by simpa using noNul c member

theorem mem_runs {sep : Byte → Bool} (member : own ∈ runs sep text) : ∀ c ∈ own, c ∈ text := by
  obtain ⟨a, _, rfl⟩ := List.mem_map.mp member
  exact fun c inside => List.mem_of_mem_drop (List.takeWhile_subset _ inside)

/-- The strings that a call is about. -/
def Call.strings : Call → List (List Byte)
  | .entry _ name => name.toList
  | .walk _ path => [path]
  | .invalid word => [word]
  | _ => []

/-- They are words of the line, or the path of the current directory. -/
theorem meaning_strings (meant : meaning words = some call) :
    ∀ own ∈ call.strings, own ∈ words ∨ own = Files.dot.val := by
  intro own member
  cases words with
  | nil => cases meant
  | cons word rest =>
    rw [meaning, List.head?_cons, Option.map_some, Option.some_inj] at meant
    have second : ∀ own, rest[0]? = some own → own ∈ word :: rest := fun own here =>
      List.mem_cons_of_mem word (List.mem_of_getElem? here)
    split at meant
    · subst meant
      exact .inl (List.mem_singleton.mp member ▸ List.mem_cons_self)
    next c _ =>
      subst meant
      cases c <;> simp only [Command.meaning, Call.strings, List.not_mem_nil, Option.mem_toList,
        List.getElem?_cons_succ, List.mem_singleton] at member
      case cd | ls =>
        cases here : rest[0]? with
        | none => exact .inr (by rw [member, here]; rfl)
        | some path => exact .inl (by rw [member, here]; exact second path here)
      all_goals exact .inl (second own member)

theorem decode_regular {line : CString} (cmd : Buffer) (short : line.val.length < cmdLen)
    (regular : Regular (runs isSpace line.val)) :
    decode line cmd = some (meaning (runs isSpace line.val)) := by
  obtain ⟨cmd', result, found⟩ := splitCmd_returns cmd short regular.1.2
  have string : ∀ a ∈ starts isSpace line.val, cmdString cmd' a = runAt isSpace line.val a ∧
      a + (runAt isSpace line.val a).length < cmdLen := by
    intro a member
    have inside := runAt_fits isSpace (Nat.le_of_lt (mem_starts isSpace member))
    exact ⟨(found a member).cstring (by omega), by omega⟩
  have reads : ∀ a ∈ starts isSpace line.val,
      Reads cmd' a (cmdString cmd' a) ∧ a + (cmdString cmd' a).length < cmdLen := by
    intro a member
    rw [(string a member).1]
    exact ⟨found a member, (string a member).2⟩
  have strings : (starts isSpace line.val).map (cmdString cmd') = runs isSpace line.val :=
    List.map_congr_left fun a member => (string a member).1
  have some : runs isSpace line.val ≠ [] := List.length_pos_iff.mp regular.1.1
  obtain ⟨call, called, meant⟩ := (dispatch_iff reads strings).mpr ⟨some, regular.2⟩
  rw [decode, result, Option.bind_eq_bind, Option.bind_some]
  simp only [called, Option.bind_eq_bind, Option.bind_some, Option.pure_def]
  rw [meant]

/-- A message that has the first 255 characters of a text. -/
theorem Stack.prints (stack : Stack) (meant : render (parse fmt.val) args = some text)
    (noNul : ∀ c ∈ text, c ≠ 0) : stack.print (fmt, args) = some (text.take Files.screenful) := by
  have whole : (text.take 255).takeWhile (· != 0) = text.take 255 :=
    List.takeWhile_eq_self_iff.mpr fun c member => by
      simpa using noNul c (List.mem_of_mem_take member)
  rw [Stack.print, printk_prints meant, whole]
  rfl

theorem parse_plain (plain : ∀ c ∈ text, c ≠ percent) (fmt : List Byte) :
    parse (text ++ fmt) = text.map Piece.char ++ parse fmt := by
  induction text with
  | nil => rfl
  | cons c text ih =>
    have rest := ih fun d member => plain d (List.mem_cons_of_mem c member)
    rw [List.cons_append, parse, if_pos (plain c List.mem_cons_self), rest]
    rfl

theorem render_plain (text : List Byte) (pieces : List Piece) :
    render (text.map Piece.char ++ pieces) args = (render pieces args).map (text ++ ·) := by
  induction text with
  | nil => simp
  | cons c text ih =>
    simp only [List.map_cons, List.cons_append, render, Piece.text, Option.bind_eq_bind,
      Option.bind_some, ih]
    cases render pieces args <;> rfl

theorem Stack.says (stack : Stack) (plain : ∀ c ∈ fmt.val, c ≠ percent) :
    stack.print (fmt, []) = some (fmt.val.take Files.screenful) := by
  apply stack.prints _ fmt.property
  have pieces := parse_plain plain []
  have end' : parse [] = [] := by rw [parse]
  rw [List.append_nil, end'] at pieces
  rw [pieces, render_plain]
  simp [render]

/-- A text around a string. -/
theorem Stack.quotes {before after : List Byte} (stack : Stack) (own : CString)
    (parts : fmt.val = before ++ ([percent, letterS] ++ after)) (plain : ∀ c ∈ before, c ≠ percent)
    (plain' : ∀ c ∈ after, c ≠ percent) : stack.print (fmt, [.str own]) =
      some ((before ++ own.val ++ after).take Files.screenful) := by
  have noNul := fmt.property
  rw [parts] at noNul
  apply stack.prints
  · have spelled : parse ([percent, letterS] ++ after) = Piece.string :: parse after :=
      @parse_spell _ .string trivial
    have pieces := parse_plain plain' []
    have end' : parse [] = [] := by rw [parse]
    rw [List.append_nil, end'] at pieces
    rw [parts, parse_plain plain, spelled, pieces, render_plain]
    simp only [render, Piece.text, Option.bind_eq_bind, Option.bind_some, render_plain]
    simp
  · intro c member
    rw [List.append_assoc, List.mem_append, List.mem_append] at member
    rcases member with member | member | member
    · exact noNul c (by simp [member])
    · exact own.property c member
    · exact noNul c (by simp [member])

theorem mapM_some {α β : Type} {f : α → Option β} {g : α → β} {l : List α}
    (each : ∀ a ∈ l, f a = some (g a)) : l.mapM f = some (l.map g) := by
  induction l with
  | nil => rfl
  | cons a l ih =>
    rw [List.mapM_cons, each a List.mem_cons_self,
      ih fun b member => each b (List.mem_cons_of_mem a member)]
    rfl

/-- What is left of a call that fits. -/
structure Performed (stack : Stack) (call : Call) (s : Files.FileSystem) (v : Files.Volume)
    (messages : List Message) (s' : Files.FileSystem) (w : Files.Volume) : Prop where
  result : run (call.routine stack) s = some (messages, s')
  intact : Files.Intact s'
  after : Files.Represents s' w
  does : v.Does w call
  answers : ∃ printed, messages.mapM stack.print = some printed ∧ v.Answers printed call

section Performed

variable (intact : Files.Intact s) (before : Files.Represents s v)

include intact before

theorem performed_silently {name : List Byte} (act : List Byte → Files.Action) (c : Files.Command)
    (noNul : ∀ c ∈ name, c ≠ 0) (sane : Files.Sane s c)
    (routine : call.routine stack = do let _ ← c.routine; return [])
    (means : ∀ b, Files.Means s c b → b = act (argument name).val)
    (does : ∀ w, v.Step w (act name) → v.Does w call) (answers : v.Answers [] call) :
    ∃ s' w, Performed stack call s v [] s' w := by
  obtain ⟨s', w, b, result, intact', after, meant, step⟩ := intact.simulates before sane
  rw [means b meant, argument_val noNul] at step
  refine ⟨s', w, ?_, intact', after, does w step, [], rfl, answers⟩
  rw [routine, run_then (Files.perform_run result), run_pure]

/-- `mkfs` on a card that holds a file system mounts it again. -/
theorem performed_mkfs (stack : Stack) :
    ∃ s' w, Performed stack (.plain .mkfs) s v [] s' w := by
  have onCard := intact.onCard
  obtain ⟨s', made, intact', mounted, disk, _⟩ := onCard.mount stack.locals
  obtain ⟨w, after, root⟩ := mounted.represents (disk ▸ onCard)
  refine ⟨s', w, ?_, intact', after, ⟨?_, root⟩, [], rfl, rfl⟩
  · rw [Call.routine, run_then made, run_pure]
  · rw [after.tree, before.tree, disk]

theorem performed_quietly {messages : List Message} {b : Buffer} {printed : List (List Byte)}
    (result : run (call.routine stack) s = some (messages, { s with curDir := b }))
    (does : v.Does v call) (prints : messages.mapM stack.print = some printed)
    (answers : v.Answers printed call) :
    ∃ messages s' w, Performed stack call s v messages s' w := by
  have quiet : Files.Quiet s { s with curDir := b } := ⟨rfl, rfl, rfl, rfl⟩
  exact ⟨_, _, v, result, quiet.intact intact, before.still rfl rfl, does, _, prints, answers⟩

theorem performed_ls {path : List Byte} (stack : Stack) (short : path.length < 32)
    (noNul : ∀ c ∈ path, c ≠ 0) :
    ∃ messages s' w, Performed stack (.walk .ls path) s v messages s' w := by
  obtain ⟨f, located, isDir, shell⟩ := before.cwd
  have text := argument_val noNul
  have lists := Files.run_listDirectory stack.block intact.sound intact.rootIno located isDir shell
    (text.symm ▸ short)
  rw [text, ← before.walk intact path] at lists
  rcases lists with ⟨lost, b, ran⟩ | ⟨p, g, b, found, there, gDir, ran⟩
  · have error : [(noDirectory, [])].mapM stack.print = some [noDirectory.val] :=
      mapM_some (g := fun _ => noDirectory.val) fun m member => by
        rw [List.mem_singleton.mp member]
        exact stack.says (ne_of_absent (by decide))
    have performs : run (Call.routine stack (.walk .ls path)) s =
        some ([(noDirectory, [])], { s with curDir := b }) := by
      rw [Call.routine, run_then ran, run_pure]
    refine performed_quietly intact before performs rfl error ?_
    rw [Files.Volume.Answers, lost]
  · have names : (Files.listing s.disk g.ino).mapM (stack.print ∘ listed) =
        some ((Files.listing s.disk g.ino).map (· ++ List.replicate 4 space)) := by
      apply mapM_some
      intro name member
      obtain ⟨noNul, short⟩ := Files.listing_name member
      have parts : eachName.val = [] ++ ([percent, letterS] ++ List.replicate 4 space) := by decide
      have whole : (name ++ List.replicate 4 space).length ≤ Files.screenful := by
        rw [List.length_append, List.length_replicate, Files.screenful]
        omega
      rw [Function.comp_apply, listed, stack.quotes _ parts (by simp) (ne_of_absent (by decide)),
        argument_val noNul, List.nil_append, List.take_of_length_le whole]
    have ends : stack.print (lineFeed, []) = some [newline] := stack.says (ne_of_absent (by decide))
    have prints : ((Files.listing s.disk g.ino).map listed ++ [(lineFeed, [])]).mapM stack.print =
        some ((v.entries p).map (· ++ List.replicate 4 space) ++ [[newline]]) := by
      rw [List.mapM_append, List.mapM_map, names, before.listing intact there gDir]
      simp [ends]
    have performs : run (Call.routine stack (.walk .ls path)) s =
        some ((Files.listing s.disk g.ino).map listed ++ [(lineFeed, [])],
          { s with curDir := b }) := by
      rw [Call.routine, run_then ran, run_pure]
    refine performed_quietly intact before performs rfl prints ?_
    rw [Files.Volume.Answers, found]

theorem performed_cat {name : List Byte} (stack : Stack) (noNul : ∀ c ∈ name, c ≠ 0) :
    ∃ messages s' w, Performed stack (.entry .cat (some name)) s v messages s' w := by
  obtain ⟨r, ran⟩ := @Files.run_catFile s stack.block (some (argument name))
  have found : ∀ i, firstChild Files.childSlots (Files.Item.isFile name) v.tree v.cwd = some i →
      ∀ own content, v.tree (i :: v.cwd) = some (.file own content) → r = some content.text := by
    intro i first own content there
    rw [← argument_val noNul] at first
    have same := before.catFile intact stack.block first there
    rw [ran] at same
    cases same
    rfl
  cases r with
  | none =>
    have error : [(noFile, [])].mapM stack.print = some [noFile.val] :=
      mapM_some (g := fun _ => noFile.val) fun m member => by
        rw [List.mem_singleton.mp member]
        exact stack.says (ne_of_absent (by decide))
    have performs : run (Call.routine stack (.entry .cat (some name))) s =
        some ([(noFile, [])], { s with curDir := s.curDir }) := by
      rw [Call.routine, run_then ran, run_pure]
    refine performed_quietly intact before performs rfl error ?_
    intro i first own content there
    cases found i first own content there
  | some text =>
    have prints : [(wholeFile, [Arg.str (argument text)])].mapM stack.print =
        some [(argument text).val.take Files.screenful] := by
      have parts : wholeFile.val = [] ++ ([percent, letterS] ++ []) := by decide
      rw [List.mapM_cons, stack.quotes _ parts (by simp) (by simp), List.nil_append,
        List.append_nil]
      rfl
    have performs : run (Call.routine stack (.entry .cat (some name))) s =
        some ([(wholeFile, [.str (argument text)])], { s with curDir := s.curDir }) := by
      rw [Call.routine, run_then ran, run_pure]
    refine performed_quietly intact before performs rfl prints ?_
    intro i first own content there
    have same := Option.some.inj (found i first own content there)
    have noNul : ∀ c ∈ content.text, c ≠ 0 := fun c member => by
      simpa using List.mem_takeWhile_imp member
    rw [same, argument_val noNul]

theorem performed_invalid {word : List Byte} (stack : Stack) (noNul : ∀ c ∈ word, c ≠ 0) :
    ∃ messages s' w, Performed stack (.invalid word) s v messages s' w := by
  have parts : invalidCommand.val = invalid ++ ([percent, letterS] ++ [newline]) := rfl
  have error : [(invalidCommand, [Arg.str (argument word)])].mapM stack.print =
      some [(invalid ++ word ++ [newline]).take Files.screenful] := by
    rw [List.mapM_cons, stack.quotes _ parts (ne_of_absent (by decide)) (ne_of_absent (by decide)),
      argument_val noNul]
    rfl
  exact ⟨_, s, v, rfl, intact, before, rfl, _, error, rfl⟩

theorem performed (stack : Stack) (fits : call.Fits s)
    (noNul : ∀ own ∈ call.strings, ∀ c ∈ own, c ≠ 0) :
    ∃ messages s' w, Performed stack call s v messages s' w := by
  have nothing : run (call.routine stack) s = some ([], s) → v.Does v call → v.Answers [] call →
      ∃ messages s' w, Performed stack call s v messages s' w := fun result does answers =>
    ⟨[], s, v, result, intact, before, does, [], rfl, answers⟩
  cases call with
  | plain c =>
    cases c with
    | mkfs => exact ⟨_, performed_mkfs intact before stack⟩
    | statfs | delfs => exact fits.elim
    | _ => exact nothing rfl rfl rfl
  | tasks c request =>
    cases request with
    | usage => exact nothing rfl rfl rfl
    | _ => exact fits.elim
  | entry c name =>
    cases name with
    | none => cases c <;> exact nothing rfl rfl rfl
    | some name =>
      have clean := noNul name List.mem_cons_self
      cases c with
      | mkdir =>
        exact ⟨_, performed_silently intact before .mkdir (.mkdir (some (argument name)) stack.locals)
          clean ⟨fits, trivial⟩ rfl (fun _ => id) (fun _ => id) rfl⟩
      | touch =>
        exact ⟨_, performed_silently intact before .touch (.touch (some (argument name)) stack.locals)
          clean ⟨fits, trivial⟩ rfl (fun _ => id) (fun _ => id) rfl⟩
      | rm =>
        exact ⟨_, performed_silently intact before .rm (.rm (some (argument name)) stack.locals)
          clean ⟨trivial, trivial⟩ rfl (fun _ => id) (fun _ => id) rfl⟩
      | rmdir =>
        exact ⟨_, performed_silently intact before .rmdir (.rmdir (some (argument name)) stack.locals)
          clean ⟨trivial, trivial⟩ rfl (fun _ => id) (fun _ => id) rfl⟩
      | cat => exact performed_cat intact before stack clean
      | _ => exact nothing rfl rfl rfl
  | walk c path =>
    have clean := noNul path List.mem_cons_self
    cases c with
    | cd =>
      have short : (argument path).val.length < 32 := (argument_val clean).symm ▸ fits
      exact ⟨_, performed_silently intact before .cd (.cd (some (argument path)) stack.block)
        clean ⟨trivial, _, rfl, short⟩ rfl (fun _ => id) (fun _ => id) rfl⟩
    | ls => exact performed_ls intact before stack fits clean
    | _ => exact nothing rfl rfl rfl
  | invalid word => exact performed_invalid intact before stack (noNul word List.mem_cons_self)

theorem obeyed (stack : Stack) (noNul : ∀ c ∈ line, c ≠ 0) (short : line.length < cmdLen)
    (regular : Regular (runs isSpace line))
    (fits : ∀ call, meaning (runs isSpace line) = some call → call.Fits s) :
    ∃ call messages printed s' w, meaning (runs isSpace line) = some call ∧
      run (call.routine stack) s = some (messages, s') ∧ obey line stack s = some (printed, s') ∧
      Files.Intact s' ∧ Files.Represents s' w ∧ v.Does w call ∧ v.Answers printed call := by
  have text := argument_val noNul
  have decoded := @decode_regular (argument line) stack.cmd (text.symm ▸ short)
    (text.symm ▸ regular)
  obtain ⟨word, rest, words⟩ := List.exists_cons_of_length_pos regular.1.1
  obtain ⟨call, meant⟩ : ∃ call, meaning (runs isSpace line) = some call := by
    rw [words]
    exact ⟨_, rfl⟩
  have clean : ∀ own ∈ call.strings, ∀ c ∈ own, c ≠ 0 := by
    intro own member
    rcases meaning_strings meant own member with word | rfl
    · exact fun c inside => noNul c (mem_runs word c inside)
    · decide
  obtain ⟨messages, s', w, result, intact', after, does, printed, prints, answers⟩ :=
    performed intact before stack (fits call meant) clean
  refine ⟨call, messages, printed, s', w, meant, result, ?_, intact', after, does, answers⟩
  rw [text] at decoded
  simp only [obey, decoded, meant, Option.bind_eq_bind, Option.bind_some, result, prints]
  rfl

end Performed

theorem converses (intact : Files.Intact s) (before : Files.Represents s v)
    (holds : Holds text e) (short : text.length ≤ longest) (orderly : Orderly text input s) :
    ∃ printed e' s' w, shell input e s = some (printed, e', s') ∧ Files.Intact s' ∧
      Files.Represents s' w ∧ Converses (linesFrom text (input.map Prod.fst)) v printed w := by
  induction input generalizing text e s v with
  | nil => exact ⟨[], e, s, v, rfl, intact, before, .nil⟩
  | cons key input ih =>
    obtain ⟨ch, stack⟩ := key
    obtain ⟨room, orderly⟩ := orderly
    obtain ⟨u, first, here⟩ := round_holds holds short room
    rw [List.map_cons, linesFrom_cons]
    simp only [shell, first, Option.bind_eq_bind, Option.bind_some]
    by_cases ends : EndsLine ch
    · rw [if_pos ends] at orderly
      obtain ⟨regular, each⟩ := orderly
      have fits := fun call meant => (each call meant).1
      have inside : text.length < cmdLen := Nat.lt_of_le_of_lt short (by decide)
      obtain ⟨call, messages, printed, s', w, meant, result, obeys, intact', after, does,
        answers⟩ := obeyed intact before stack holds.noNul inside regular fits
      have empty : edit text ch = [] := by
        rcases ends with rfl | rfl <;> rfl
      rw [empty] at here
      obtain ⟨rest, e', s'', x, later, intact'', final, dialogue⟩ :=
        ih intact' after here (Nat.zero_le _) ((each call meant).2 messages s' result)
      refine ⟨printed ++ rest, e', s'', x, ?_, intact'', final, ?_⟩
      · simp only [if_pos ends, obeys, Option.bind_some, later]
        rfl
      · rw [if_pos ends, empty]
        exact .cons meant does answers dialogue
    · rw [if_neg ends] at orderly
      obtain ⟨rest, e', s', x, later, intact', final, dialogue⟩ :=
        ih intact before here room orderly
      refine ⟨rest, e', s', x, ?_, intact', final, ?_⟩
      · simp only [if_neg ends, Option.bind_some, later]
        rfl
      · rw [if_neg ends]
        exact dialogue

/-- Whatever is typed on a mounted card, in lines that are regular and fit: the tree after it is
what the lines make of the tree before, and what is printed is what the lines ask of it. -/
theorem shell_converses (intact : Files.Intact s) (before : Files.Represents s v)
    (orderly : Orderly [] input s) :
    ∃ printed e s' w, shell input blank s = some (printed, e, s') ∧ Files.Intact s' ∧
      Files.Represents s' w ∧ Converses (lines (input.map Prod.fst)) v printed w :=
  converses intact before Holds.start (Nat.zero_le _) orderly

def typed (text : List Byte) (stack : Stack) : List (Byte × Stack) := text.map (·, stack)

/-- Characters that are not special stand in the line. -/
theorem Orderly.keys {word : List Byte}
    (plain : ∀ c ∈ word, c ∉ [0, backspace, delete, enter, newline])
    (room : text.length + word.length ≤ longest) (rest : Orderly (text ++ word) input s) :
    Orderly text (typed word stack ++ input) s := by
  induction word generalizing text with
  | nil => rwa [List.append_nil] at rest
  | cons c word ih =>
    have other := plain c List.mem_cons_self
    simp only [List.mem_cons, List.not_mem_nil, or_false, not_or] at other
    obtain ⟨some, noBackspace, noDelete, noEnter, noNewline⟩ := other
    have more : ¬EndsLine c := not_or.mpr ⟨noEnter, noNewline⟩
    have here : edit text c = text ++ [c] := by
      rw [edit, if_neg some, if_neg (not_or.mpr ⟨noBackspace, noDelete⟩), if_neg more]
    rw [List.length_cons] at room
    change _ ∧ _
    rw [if_neg more, here, List.length_append, List.length_singleton]
    refine ⟨by omega, ih (fun d member => plain d (List.mem_cons_of_mem c member)) ?_ ?_⟩
    · rw [List.length_append, List.length_singleton]
      omega
    · rwa [List.append_assoc]

def mkdirA : List Byte := ascii ['m', 'k', 'd', 'i', 'r', ' ', 'a']

def blankStack : Stack := ⟨fun _ => 0, fun _ => 0, Files.blankLocals, fun _ => 0, fun _ => 0⟩

theorem shell_converses_mkdir : ∃ s printed e s' w v, shell
    (typed mkdirA blankStack ++ typed [enter] blankStack) blank s =
      some (printed, e, s') ∧ Files.Intact s' ∧ Files.Represents s' w ∧
      Converses [mkdirA] v printed w := by
  obtain ⟨start, _, formatted, _⟩ := Files.run_doMakefs_format Files.blankLocals
    Files.blankSystem_blank
  obtain ⟨v, before⟩ := formatted.intact.volume
  have means : meaning (runs isSpace mkdirA) =
      some (.entry .mkdir (some (ascii ['a']))) := by decide
  have orderly : Orderly [] (typed mkdirA blankStack ++
      typed [enter] blankStack) start := by
    refine Orderly.keys (by decide) (by decide) ⟨by decide, ?_⟩
    rw [if_pos (by decide)]
    refine ⟨by decide, fun call meant => ?_⟩
    cases means.symm.trans meant
    exact ⟨formatted.fits (by decide), fun _ _ _ => trivial⟩
  obtain ⟨printed, e, s', w, result, rest⟩ := shell_converses formatted.intact before orderly
  exact ⟨start, printed, e, s', w, v, result, rest⟩

end Tina.Console
