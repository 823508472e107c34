import Tina.Mounting

/-! Sessions of file commands on a mounted file system, and what one command does to the
card, the map and the current directory. -/
namespace Tina.Files

open ByteBuffer Atomic SlotTree

variable {s s' t : FileSystem} {stack : Buffer} {name : CString} {i index : Nat}
  {p q cwd : List Nat} {n m f : Node} {locals : Locals} {buf : List Byte}

/-- The commands, each with its arguments and what its locals hold before. -/
inductive Command where
  | mkdir (name : Option CString) (locals : Locals)
  | touch (name : Option CString) (locals : Locals)
  | rm (name : Option CString) (locals : Locals)
  | rmdir (name : Option CString) (locals : Locals)
  | cd (path : Option CString) (stack : Buffer)
  | ls (path : Option CString) (stack : Buffer)
  | cat (name : Option CString) (stack : Buffer)
  | fopen (name : CString) (stack : Buffer) (locals : Locals)
  | fwrite (index : Nat) (buf : List Byte) (stack : Buffer)
  | fseek (index : Nat) (pos : Word)

def Command.routine : Command → Routine Unit
  | .mkdir name locals => makeDirectory name locals
  | .touch name locals => touchFile name locals
  | .rm name locals => removeFile name locals
  | .rmdir name locals => removeDirectory name locals
  | .cd path stack => changeDirectory path stack
  | .ls path stack => do let _ ← listDirectory path stack
  | .cat name stack => do let _ ← catFile name stack
  | .fopen name stack locals => do let _ ← sysFopen name stack locals
  | .fwrite index buf stack => do let _ ← sysFwrite index buf stack
  | .fseek index pos => sysFseek index pos

/-- The state after a command; none when its behaviour is undefined. -/
def perform (c : Command) (s : FileSystem) : Option FileSystem := (run c.routine s).map Prod.snd

/-- The first scan of `sys_fopen` finds the file, or takes what lies on the stack for it. -/
def opens (s : FileSystem) (name : CString) (stack : Buffer) : Prop :=
  scan 0x200 (matchesEntry (cwdBlock s stack) file name) < 0x200

/-- When `sys_fopen` has to make the file, the directory has none of that name. -/
theorem Intact.missed (intact : Intact s) (missed : ¬opens s name stack) :
    ∀ i < dentrysPerBlock, ∀ n, dirEntry s.disk (cwdIno s) i = some n → n.mode = file →
      n.name ≠ name.val := by
  intro i inside n live kind same
  have stops := (intact.standing.matches stack inside).mpr ⟨n, live, kind, same⟩
  exact missed (scan_lt (Nat.lt_trans inside (by decide)) stops)

/-- A descriptor of a file that still exists. -/
def Attached (s : FileSystem) (index : Nat) : Prop :=
  index < fdNum ∧ ∃ p n, locate s.disk p = some n ∧ n.mode = file ∧ (s.fd index).ino = n.ino

/-- Creations find room, and writes stay in the block of a file that exists. -/
def Fits (s : FileSystem) : Command → Prop
  | .mkdir (some name) _ => CreationFits s name
  | .touch (some name) _ => CreationFits s name
  | .fopen name stack _ => ¬opens s name stack → CreationFits s name
  | .fwrite index buf _ => Attached s index ∧ (s.fd index).pos.toNat + buf.length ≤ blockSize
  | .fseek index _ => index < fdNum
  | _ => True

/-- Paths fit the buffer of `decode_path`, and the descriptor table is not full. -/
def InBounds (s : FileSystem) : Command → Prop
  | .cd path _ => ∃ name, path = some name ∧ name.val.length < 32
  | .ls path _ => ∃ name, path = some name ∧ name.val.length < 32
  | .fopen _ _ _ => s.fdIndex < fdNum
  | _ => True

/-- Only `cur_dir`, the copy of a name and the descriptors differ. -/
def Quiet (s s' : FileSystem) : Prop :=
  s'.disk = s.disk ∧ s'.inodeMap = s.inodeMap ∧ s'.superblock = s.superblock ∧
    s'.shellPathInode = s.shellPathInode

/-- The shell moved to the directory at `q`. -/
def Moved (s : FileSystem) (q : List Nat) (s' : FileSystem) : Prop :=
  s'.disk = s.disk ∧ s'.inodeMap = s.inodeMap ∧ s'.superblock = s.superblock ∧
    Holds s.disk s'.shellPathInode q

theorem Quiet.intact (quiet : Quiet s s') (intact : Intact s) : Intact s' := by
  obtain ⟨disk, map, superblock, shell⟩ := quiet
  constructor
  · exact disk ▸ intact.sound
  · rw [disk, map]
    exact intact.map
  · rw [disk, superblock]
    exact intact.superblock
  · exact superblock ▸ intact.magic
  · exact superblock ▸ intact.rootIno
  · rw [disk, shell]
    exact intact.cwd

theorem Moved.intact (moved : Moved s q s') (intact : Intact s) : Intact s' := by
  obtain ⟨disk, map, superblock, holds⟩ := moved
  obtain ⟨g, there, isDir, number⟩ := holds.ino intact.sound
  constructor
  · exact disk ▸ intact.sound
  · rw [disk, map]
    exact intact.map
  · rw [disk, superblock]
    exact intact.superblock
  · exact superblock ▸ intact.magic
  · exact superblock ▸ intact.rootIno
  · exact ⟨q, g, disk ▸ there, isDir, number⟩

/-- What a command does to an intact file system when it fits and stays in bounds. -/
def Effect (s : FileSystem) : Command → FileSystem → Prop
  | .mkdir (some name) _, s' =>
    ∃ cwd f i n, Created s cwd f i n s' ∧ n.mode = dir ∧ n.name = name.val
  | .touch (some name) _, s' =>
    ∃ cwd f i n, Created s cwd f i n s' ∧ n.mode = file ∧ n.name = name.val
  | .rm (some name) _, s' => Takes file name s'
  | .rmdir (some name) _, s' =>
    if name = dot ∨ name = dotDot then s' = s else Takes dir name s'
  | .cd (some path) _, s' => ∃ cwd f, locate s.disk cwd = some f ∧ f.mode = dir ∧
    cwdIno s = f.ino ∧
    match resolve s.disk (startOf cwd path.val) (components path.val) with
    | none => Quiet s s'
    | some q => Moved s q s'
  | .fopen name stack _, s' => opens s name stack ∧ Quiet s s' ∨
    ¬opens s name stack ∧ ∃ t cwd f i n, Created s cwd f i n t ∧ n.mode = file ∧
      n.name = name.val ∧ Quiet t s'
  | .fwrite index buf _, s' => ∃ p n, locate s.disk p = some n ∧ n.mode = file ∧
    (s.fd index).ino = n.ino ∧ s'.inodeMap = s.inodeMap ∧ s'.superblock = s.superblock ∧
    s'.shellPathInode = s.shellPathInode ∧
    s'.disk = copy s.disk (blockAddress n.ino + (s.fd index).pos.toNat) (fun k => buf.getD k 0) 0
      buf.length
  | _, s' => Quiet s s'
where
  /-- The first entry of that kind and name goes, or there is none. -/
  Takes (mode : Word) (name : CString) (s' : FileSystem) : Prop :=
    (∃ cwd f i n, Removed s cwd f i n s' ∧ n.mode = mode ∧ n.name = name.val) ∨
    s' = s ∧ ∀ i < dentrysPerBlock, ∀ n, dirEntry s.disk (cwdIno s) i = some n →
      n.mode = mode → n.name ≠ name.val

theorem Quiet.refl : Quiet s s := ⟨rfl, rfl, rfl, rfl⟩

theorem run_pushDescriptor {ino : Word} (room : s.fdIndex < fdNum) :
    ∃ s', run (pushDescriptor ino) s = some ((s.fdIndex : Int), s') ∧ Quiet s s' := by
  refine ⟨{ s with
    fd := Function.update s.fd s.fdIndex ⟨ino, 0⟩
    fdIndex := s.fdIndex + 1 }, ?_, rfl, rfl, rfl, rfl⟩
  rw [pushDescriptor, run_then run_read, if_pos room]
  rfl

theorem run_catFile {name : Option CString} : ∃ r, run (catFile name stack) s = some (r, s) := by
  cases name with
  | none => exact ⟨none, rfl⟩
  | some name =>
    rw [catFile, run_then run_shellPathIno, run_then run_dirBlockRead]
    dsimp only
    split
    · exact ⟨none, rfl⟩
    · rw [run_then run_fileBlockRead]
      exact ⟨_, run_pure⟩

theorem Intact.makeDirectory (locals : Locals) (intact : Intact s) (fits : CreationFits s name) :
    ∃ s', run (makeDirectory (some name) locals) s = some ((), s') ∧
      ∃ cwd f i n, Created s cwd f i n s' ∧ n.mode = dir ∧ n.name = name.val := by
  obtain ⟨s', cwd, f, i, n, result, created⟩ := intact.create locals fits
    (Nat.le_refl _) (.inr rfl)
  exact ⟨s', result, cwd, f, i, n, created⟩

theorem Intact.touchFile (locals : Locals) (intact : Intact s) (fits : CreationFits s name) :
    ∃ s', run (touchFile (some name) locals) s = some ((), s') ∧
      ∃ cwd f i n, Created s cwd f i n s' ∧ n.mode = file ∧ n.name = name.val := by
  obtain ⟨s', cwd, f, i, n, result, created⟩ := intact.create locals fits
    (by decide : dentrysPerBlock ≤ 0x200) (.inl rfl)
  exact ⟨s', result, cwd, f, i, n, created⟩

theorem Intact.sysFopen (stack : Buffer) (locals : Locals) (intact : Intact s)
    (fits : ¬opens s name stack → CreationFits s name) (room : s.fdIndex < fdNum) :
    ∃ r s', run (sysFopen name stack locals) s = some (r, s') ∧
      Effect s (.fopen name stack locals) s' := by
  rw [Files.sysFopen, run_then run_shellPathIno, run_then run_dirBlockRead]
  dsimp only
  by_cases found : opens s name stack
  · have stops := found
    rw [opens, cwdBlock] at stops
    obtain ⟨s', pushed, quiet⟩ := @run_pushDescriptor s _ room
    rw [if_pos stops]
    exact ⟨_, s', pushed, .inl ⟨found, quiet⟩⟩
  · have missed := found
    rw [opens, cwdBlock] at missed
    obtain ⟨t, touched, cwd, f, i, n, created⟩ := intact.touchFile locals (fits found)
    have room' : t.fdIndex < fdNum := by
      rw [created.1.rest]
      exact room
    rw [if_neg missed, run_then touched, run_then run_shellPathIno, run_then run_dirBlockRead]
    split
    · obtain ⟨s', pushed, quiet⟩ := @run_pushDescriptor t _ room'
      exact ⟨_, s', pushed, .inr ⟨found, t, cwd, f, i, n, created.1, created.2.1, created.2.2, quiet⟩⟩
    · exact ⟨0, t, run_pure, .inr ⟨found, t, cwd, f, i, n, created.1, created.2.1, created.2.2,
        Quiet.refl⟩⟩

theorem run_sysFwrite (stack : Buffer) (valid : index < fdNum)
    (inside : (s.fd index).pos.toNat + buf.length ≤ blockSize) :
    ∃ s', run (sysFwrite index buf stack) s = some (buf.length, s') ∧
      s'.inodeMap = s.inodeMap ∧ s'.superblock = s.superblock ∧
      s'.shellPathInode = s.shellPathInode ∧
      s'.disk = copy s.disk (blockAddress (s.fd index).ino + (s.fd index).pos.toNat)
        (fun k => buf.getD k 0) 0 buf.length ∧
      s'.fd = Function.update s.fd index ⟨(s.fd index).ino,
        (s.fd index).pos + BitVec.ofNat 32 buf.length⟩ ∧ s'.fdIndex = s.fdIndex := by
  have written : copy s.disk (blockAddress (s.fd index).ino)
      (copy (copy stack 0 s.disk (blockAddress (s.fd index).ino) blockSize) (s.fd index).pos.toNat
        (fun k => buf.getD k 0) 0 buf.length) 0 blockSize =
      copy s.disk (blockAddress (s.fd index).ino + (s.fd index).pos.toNat)
        (fun k => buf.getD k 0) 0 buf.length := by
    rw [copy_back inside, copy_copy]
    · intro k low outside
      rw [copy_outside (by omega), copy_start low]
  refine ⟨{ s with
    disk := copy s.disk (blockAddress (s.fd index).ino + (s.fd index).pos.toNat)
      (fun k => buf.getD k 0) 0 buf.length
    fd := Function.update s.fd index ⟨(s.fd index).ino,
      (s.fd index).pos + BitVec.ofNat 32 buf.length⟩ }, ?_, rfl, rfl, rfl, by simp only, rfl, rfl⟩
  have ino : run (descIno index) s = some ((s.fd index).ino, s) := rfl
  have pos : run (descPos index) s = some ((s.fd index).pos.toNat, s) := rfl
  rw [Files.sysFwrite, if_neg (Nat.not_le.mpr valid), run_then ino, run_then run_fileBlockRead,
    run_then pos, if_neg (Nat.not_lt.mpr inside), run_then ino, run_then run_fileBlockWrite,
    written]
  rfl

theorem run_sysFread {size : Nat} (stack : Buffer) (valid : index < fdNum)
    (inside : (s.fd index).pos.toNat + size ≤ blockSize) : run (sysFread index size stack) s =
      some ((List.range size).map fun k =>
          s.disk (blockAddress (s.fd index).ino + ((s.fd index).pos.toNat + k)),
        { s with fd := Function.update s.fd index ⟨(s.fd index).ino,
          (s.fd index).pos + BitVec.ofNat 32 size⟩ }) := by
  have ino : run (descIno index) s = some ((s.fd index).ino, s) := rfl
  have pos : run (descPos index) s = some ((s.fd index).pos.toNat, s) := rfl
  have bytes : ((List.range size).map fun k =>
      copy stack 0 s.disk (blockAddress (s.fd index).ino) blockSize
        ((s.fd index).pos.toNat + k)) =
      (List.range size).map fun k =>
        s.disk (blockAddress (s.fd index).ino + ((s.fd index).pos.toNat + k)) := by
    apply List.map_congr_left
    intro k member
    have low := List.mem_range.mp member
    exact copy_start (by omega)
  rw [sysFread, if_neg (Nat.not_le.mpr valid), run_then ino, run_then run_fileBlockRead,
    run_then pos, if_neg (Nat.not_lt.mpr inside), bytes]
  rfl

theorem Intact.changeDirectory (stack : Buffer) (intact : Intact s) (short : name.val.length < 32) :
    ∃ s', run (changeDirectory (some name) stack) s = some ((), s') ∧
      Effect s (.cd (some name) stack) s' := by
  obtain ⟨cwd, f, located, isDir, shell⟩ := intact.cwd
  rcases run_changeDirectory stack intact.sound intact.rootIno located isDir shell short with
    ⟨lost, b, result⟩ | ⟨q, b, head, inode, found, result, holds⟩
  · refine ⟨_, result, cwd, f, located, isDir, shell, ?_⟩
    rw [lost]
    exact ⟨rfl, rfl, rfl, rfl⟩
  · refine ⟨_, result, cwd, f, located, isDir, shell, ?_⟩
    rw [found]
    exact ⟨rfl, rfl, rfl, holds⟩

theorem Intact.listDirectory (stack : Buffer) (intact : Intact s) (short : name.val.length < 32) :
    ∃ r s', run (listDirectory (some name) stack) s = some (r, s') ∧ Quiet s s' := by
  obtain ⟨cwd, f, located, isDir, shell⟩ := intact.cwd
  rcases run_listDirectory stack intact.sound intact.rootIno located isDir shell short with
    ⟨_, b, result⟩ | ⟨q, g, b, _, _, _, result⟩
  · exact ⟨_, _, result, rfl, rfl, rfl, rfl⟩
  · exact ⟨_, _, result, rfl, rfl, rfl, rfl⟩

theorem Intact.removeFile (name : CString) (locals : Locals) (intact : Intact s) :
    ∃ s', run (removeFile (some name) locals) s = some ((), s') ∧ Effect.Takes s file name s' := by
  have removable : Removable file name := .inl rfl
  rw [Files.removeFile, run_then run_shellPathIno, run_then run_dirBlockRead]
  rcases intact.remove locals.db removable with
    ⟨s', cwd, f, i, n, result, removed⟩ | ⟨result, none⟩
  · exact ⟨s', result, .inl ⟨cwd, f, i, n, removed⟩⟩
  · exact ⟨s, result, .inr ⟨rfl, none⟩⟩

theorem Intact.removeDirectory (name : CString) (locals : Locals) (intact : Intact s) :
    ∃ s', run (removeDirectory (some name) locals) s = some ((), s') ∧
      Effect s (.rmdir (some name) locals) s' := by
  rw [Files.removeDirectory, run_then run_shellPathIno, run_then run_dirBlockRead]
  by_cases dots : name = dot ∨ name = dotDot
  · refine ⟨s, by rw [if_pos dots, run_pure], ?_⟩
    rw [Effect, if_pos dots]
  · have removable : Removable dir name :=
      .inr ⟨rfl, fun same => dots (.inl same), fun same => dots (.inr same)⟩
    rw [if_neg dots]
    rcases intact.remove locals.db removable with
      ⟨s', cwd, f, i, n, result, removed⟩ | ⟨result, none⟩
    · refine ⟨s', result, ?_⟩
      rw [Effect, if_neg dots]
      exact .inl ⟨cwd, f, i, n, removed⟩
    · refine ⟨s, result, ?_⟩
      rw [Effect, if_neg dots]
      exact .inr ⟨rfl, none⟩

theorem perform_of {c : Command} {r : Unit} (result : run c.routine s = some (r, s')) :
    perform c s = some s' := by
  rw [perform, result]
  rfl

/-- A command that fits and stays in bounds has its effect. -/
theorem Intact.step {c : Command} (intact : Intact s) (fits : Fits s c) (bounds : InBounds s c) :
    ∃ s', perform c s = some s' ∧ Effect s c s' := by
  cases c with
  | mkdir name locals =>
    cases name with
    | none => exact ⟨s, rfl, Quiet.refl⟩
    | some name =>
      obtain ⟨s', result, effect⟩ := intact.makeDirectory locals fits
      exact ⟨s', perform_of result, effect⟩
  | touch name locals =>
    cases name with
    | none => exact ⟨s, rfl, Quiet.refl⟩
    | some name =>
      obtain ⟨s', result, effect⟩ := intact.touchFile locals fits
      exact ⟨s', perform_of result, effect⟩
  | rm name locals =>
    cases name with
    | none => exact ⟨s, rfl, Quiet.refl⟩
    | some name =>
      obtain ⟨s', result, effect⟩ := intact.removeFile name locals
      exact ⟨s', perform_of result, effect⟩
  | rmdir name locals =>
    cases name with
    | none => exact ⟨s, rfl, Quiet.refl⟩
    | some name =>
      obtain ⟨s', result, effect⟩ := intact.removeDirectory name locals
      exact ⟨s', perform_of result, effect⟩
  | cd path stack =>
    obtain ⟨name, rfl, short⟩ := bounds
    obtain ⟨s', result, effect⟩ := intact.changeDirectory stack short
    exact ⟨s', perform_of result, effect⟩
  | ls path stack =>
    obtain ⟨name, rfl, short⟩ := bounds
    obtain ⟨r, s', result, quiet⟩ := intact.listDirectory stack short
    exact ⟨s', perform_of (run_then result), quiet⟩
  | cat name stack =>
    obtain ⟨r, result⟩ := @run_catFile s stack name
    exact ⟨s, perform_of (run_then result), Quiet.refl⟩
  | fopen name stack locals =>
    obtain ⟨r, s', result, effect⟩ := intact.sysFopen stack locals fits bounds
    exact ⟨s', perform_of (run_then result), effect⟩
  | fwrite index buf stack =>
    obtain ⟨⟨valid, p, n, located, isFile, number⟩, inside⟩ := fits
    obtain ⟨s', result, map, superblock, shell, disk, _⟩ :=
      run_sysFwrite stack valid inside
    rw [number] at disk
    exact ⟨s', perform_of (run_then result), p, n, located, isFile, number, map, superblock,
      shell, disk⟩
  | fseek index pos =>
    have result : run (sysFseek index pos) s = some ((), { s with
        fd := Function.update s.fd index ⟨(s.fd index).ino, pos⟩ }) := by
      rw [sysFseek, if_neg (Nat.not_le.mpr fits)]
      rfl
    exact ⟨_, perform_of result, rfl, rfl, rfl, rfl⟩

theorem written_of (s : FileSystem) (ino : Word) (inside : i + buf.length ≤ blockSize) :
    Written s.disk (copy s.disk (blockAddress ino + i) (fun k => buf.getD k 0) 0 buf.length)
      ino := by
  intro k beyond
  apply copy_outside
  simp only [Beyond] at beyond
  omega

/-- A write to a block that is no directory's keeps a file system intact. -/
theorem Intact.written {ino : Word} (intact : Intact s) (written : Written s.disk s'.disk ino)
    (free : NoDirectory s.disk ino) (map : s'.inodeMap = s.inodeMap)
    (superblock : s'.superblock = s.superblock) (shell : s'.shellPathInode = s.shellPathInode) :
    Intact s' := by
  have above := written.above free.small
  have small := free.small
  constructor
  · exact Sound.write written intact.sound free
  · intro k low
    rw [map, ← intact.map k low]
    exact above _ (by simp only [mapAddress]; omega)
  · intro k low
    rw [superblock, ← intact.superblock k low]
    apply written
    rw [blockAddress_eq small]
    simp only [Beyond, superblockAddress, blockSize, inodeBound] at *
    omega
  · exact superblock ▸ intact.magic
  · exact superblock ▸ intact.rootIno
  · rw [written.locate intact.sound free, shell]
    exact intact.cwd

/-- The commands that make an entry, with its mode and name. -/
inductive Makes (s : FileSystem) : Command → Word → CString → Prop where
  | mkdir (name : CString) (locals : Locals) : Makes s (.mkdir (some name) locals) dir name
  | touch (name : CString) (locals : Locals) : Makes s (.touch (some name) locals) file name
  | fopen {name : CString} {stack : Buffer} (locals : Locals) :
    ¬opens s name stack → Makes s (.fopen name stack locals) file name

/-- The commands that take an entry away. -/
inductive Drops : Command → Word → CString → Prop where
  | rm (name : CString) (locals : Locals) : Drops (.rm (some name) locals) file name
  | rmdir {name : CString} (locals : Locals) :
    name ≠ dot → name ≠ dotDot → Drops (.rmdir (some name) locals) dir name

/-- What a command does to the card. -/
inductive Change (s : FileSystem) (c : Command) (s' : FileSystem) : Prop where
  | quiet (quiet : Quiet s s')
  | moved {q : List Nat} (moved : Moved s q s')
  | made {t : FileSystem} {cwd : List Nat} {f n : Node} {i : Nat} {name : CString}
    (makes : Makes s c n.mode name) (created : Created s cwd f i n t) (same : n.name = name.val)
    (quiet : Quiet t s')
  | taken {cwd : List Nat} {f n : Node} {i : Nat} {name : CString} (drops : Drops c n.mode name)
    (removed : Removed s cwd f i n s') (same : n.name = name.val)
  | wrote {p : List Nat} {n : Node} (located : locate s.disk p = some n) (isFile : n.mode = file)
    (written : Written s.disk s'.disk n.ino) (map : s'.inodeMap = s.inodeMap)
    (superblock : s'.superblock = s.superblock) (shell : s'.shellPathInode = s.shellPathInode)

theorem Effect.takes_change {c : Command} {mode : Word} (takes : Effect.Takes s mode name s')
    (drops : Drops c mode name) : Change s c s' := by
  rcases takes with ⟨cwd, f, i, n, removed, rfl, same⟩ | ⟨rfl, _⟩
  · exact .taken drops removed same
  · exact .quiet Quiet.refl

theorem Effect.change {c : Command} (effect : Effect s c s') (fits : Fits s c) :
    Change s c s' := by
  cases c with
  | mkdir name locals =>
    cases name with
    | none => exact .quiet effect
    | some name =>
      obtain ⟨cwd, f, i, n, created, isDir, same⟩ := effect
      exact .made (isDir ▸ .mkdir name locals) created same Quiet.refl
  | touch name locals =>
    cases name with
    | none => exact .quiet effect
    | some name =>
      obtain ⟨cwd, f, i, n, created, isFile, same⟩ := effect
      exact .made (isFile ▸ .touch name locals) created same Quiet.refl
  | rm name locals =>
    cases name with
    | none => exact .quiet effect
    | some name => exact Effect.takes_change effect (.rm name locals)
  | rmdir name locals =>
    cases name with
    | none => exact .quiet effect
    | some name =>
      rw [Effect] at effect
      split at effect
      · exact .quiet (effect ▸ Quiet.refl)
      next notDots =>
        obtain ⟨notDot, notDotDot⟩ := not_or.mp notDots
        exact Effect.takes_change effect (.rmdir locals notDot notDotDot)
  | cd path stack =>
    cases path with
    | none => exact .quiet effect
    | some path =>
      obtain ⟨cwd, f, _, _, _, outcome⟩ := effect
      split at outcome
      · exact .quiet outcome
      · exact .moved outcome
  | ls path stack => exact .quiet effect
  | cat name stack => exact .quiet effect
  | fopen name stack locals =>
    rcases effect with ⟨_, quiet⟩ | ⟨missed, t, cwd, f, i, n, created, isFile, same, quiet⟩
    · exact .quiet quiet
    · exact .made (isFile ▸ .fopen locals missed) created same quiet
  | fwrite index buf stack =>
    obtain ⟨p, n, located, isFile, number, map, superblock, shell, disk⟩ := effect
    have written := written_of s n.ino fits.2
    rw [← disk] at written
    exact .wrote located isFile written map superblock shell
  | fseek index pos => exact .quiet effect

theorem Effect.intact {c : Command} (effect : Effect s c s') (fits : Fits s c)
    (intact : Intact s) : Intact s' := by
  cases effect.change fits with
  | quiet quiet => exact quiet.intact intact
  | moved moved => exact moved.intact intact
  | made _ created _ quiet => exact quiet.intact (created.intact intact)
  | taken _ removed _ => exact removed.intact intact
  | wrote located isFile written map superblock shell =>
    exact intact.written written (intact.sound.noDirectory located isFile) map superblock shell

end Tina.Files
