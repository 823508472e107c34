import Tina.Reboot

/-! Commands issued after a reboot and before `mkfs`, when all globals are zero: the inode
map in memory is not the one on the card. -/
namespace Tina.Files

open ByteBuffer Atomic SlotTree Transition

variable {s s' t u : FileSystem} {d d' stack : Buffer} {i j k index : Nat} {p q cwd : List Nat}
  {n m f g : Node} {ino : Word} {name : CString} {locals : Locals} {c : Command}
  {cs : List Command} {buf : List Byte}

/-- After a reboot. -/
def booted (d : Buffer) : FileSystem := { blankSystem with disk := d }

def performAll : List Command → FileSystem → Option FileSystem
  | [], s => some s
  | c :: cs, s => (perform c s).bind (performAll cs)

/-- The numbers that `sys_fwrite` is given. -/
def writtenBy (s : FileSystem) : Command → List Word
  | .fwrite index _ _ => [(s.fd index).ino]
  | _ => []

def written : List Command → FileSystem → List Word
  | [], _ => []
  | c :: cs, s => writtenBy s c ++ ((perform c s).map (written cs)).getD []

/-- The command neither allocates nor frees an inode, and stays in bounds. -/
def Harmless (s : FileSystem) : Command → Prop
  | .mkdir name _ => name = none
  | .touch name _ => name = none
  | .rm (some name) _ => ∀ i n, ¬Target s file name i n
  | .rmdir (some name) _ => name = dot ∨ name = dotDot ∨ ∀ i n, ¬Target s dir name i n
  | .cd path _ => ∃ name, path = some name ∧ name.val.length < 32
  | .ls path _ => ∃ name, path = some name ∧ name.val.length < 32
  | .fopen name stack _ => opens s name stack ∧ s.fdIndex < fdNum
  | .fwrite index buf _ => Attached s index ∧ (s.fd index).pos.toNat + buf.length ≤ blockSize
  | .fseek index _ => index < fdNum
  | _ => True

def AllHarmless : List Command → FileSystem → Prop
  | [], _ => True
  | c :: cs, s => Harmless s c ∧ ∀ t, perform c s = some t → AllHarmless cs t

/-- Nodes are where they were, and those outside `inos` have their contents. -/
structure Unharmed (inos : List Word) (d d' : Buffer) : Prop where
  nodes : locate d' = locate d
  items : ∀ {p n}, locate d p = some n → n.ino ∉ inos → item d' n = item d n

theorem Unharmed.refl {inos : List Word} : Unharmed inos d d := ⟨rfl, fun _ _ => rfl⟩

theorem Unharmed.trans {inos inos' : List Word} {e : Buffer} (first : Unharmed inos d d')
    (second : Unharmed inos' d' e) : Unharmed (inos ++ inos') d e := by
  refine ⟨second.nodes.trans first.nodes, fun {p n} located other => ?_⟩
  rw [List.mem_append, not_or] at other
  have there := located
  rw [← first.nodes] at there
  exact (second.items there other.2).trans (first.items located other.1)

/-- The shell stands where it stood, or where a path leads. -/
theorem Standing.moved (standing : Standing s) (disk : s'.disk = s.disk)
    (superblock : s'.superblock = s.superblock)
    (shell : s'.shellPathInode = s.shellPathInode ∨ ∃ q, Holds s.disk s'.shellPathInode q) :
    Standing s' := by
  refine ⟨disk ▸ standing.sound, superblock ▸ standing.rootIno, ?_⟩
  rw [disk]
  rcases shell with same | ⟨q, holds⟩
  · rw [cwdIno, same]
    exact standing.cwd
  · obtain ⟨g, there, isDir, number⟩ := holds.ino standing.sound
    exact ⟨q, g, there, isDir, number⟩

theorem Standing.no_removal {mode : Word} (standing : Standing s) (stack : Buffer)
    (none : ∀ i n, ¬Target s mode name i n) :
    run (removeEntry mode name (cwdBlock s stack)) s = some ((), s) := by
  rcases standing.target stack mode name with ⟨i, n, target, _⟩ | ⟨slot, _⟩
  · exact absurd target (none i n)
  · exact run_removeEntry_none slot rfl

theorem OnCard.write (onCard : OnCard d) (located : locate d p = some n) (isFile : n.mode = file)
    (written : Written d d' n.ino) : OnCard d' := by
  have small := onCard.sound.small located
  have field : ∀ {k}, k + 4 ≤ superblockSize →
      word d' (superblockAddress + k) = word d (superblockAddress + k) := by
    intro k low
    apply word_congr
    intro l first last
    rw [written l (by
      rw [blockAddress_eq small]
      simp only [Beyond, superblockAddress, blockSize, inodeBound] at *
      omega)]
    exact congrArg _ (by omega)
  exact ⟨Sound.write written onCard.sound (onCard.sound.noDirectory located isFile),
    (field (k := 0) (by decide)).trans onCard.magic, (field (by decide)).trans onCard.rootIno⟩

/-- A write harms the file it goes to only. -/
theorem unharmed_write (sound : Sound d) (located : locate d p = some n) (isFile : n.mode = file)
    (written : Written d d' n.ino) : Unharmed [n.ino] d d' := by
  refine ⟨written.locate sound (sound.noDirectory located isFile), fun {q m} there other => ?_⟩
  rw [List.mem_singleton] at other
  apply item_same
  intro _ k low
  have apart := toNat_ne other
  have small := sound.small located
  apply written
  rw [blockAddress_eq small, blockAddress_eq (sound.small there)]
  simp only [Beyond, blockSize] at *
  omega

theorem Standing.step (standing : Standing s) (onCard : OnCard s.disk) (harmless : Harmless s c) :
    ∃ s', perform c s = some s' ∧ Standing s' ∧ OnCard s'.disk ∧
      Unharmed (writtenBy s c) s.disk s'.disk := by
  have still : ∀ {t : FileSystem}, perform c s = some t → t.disk = s.disk →
      t.superblock = s.superblock →
      (t.shellPathInode = s.shellPathInode ∨ ∃ q, Holds s.disk t.shellPathInode q) →
      ∃ s', perform c s = some s' ∧ Standing s' ∧ OnCard s'.disk ∧
        Unharmed (writtenBy s c) s.disk s'.disk := by
    intro t result disk superblock shell
    refine ⟨t, result, standing.moved disk superblock shell, disk ▸ onCard, ?_⟩
    rw [disk]
    exact Unharmed.refl
  obtain ⟨cwd, f, located, isDir, shell⟩ := standing.cwd
  cases c with
  | mkdir name locals =>
    cases harmless
    exact still rfl rfl rfl (.inl rfl)
  | touch name locals =>
    cases harmless
    exact still rfl rfl rfl (.inl rfl)
  | rm name locals =>
    cases name with
    | none => exact still rfl rfl rfl (.inl rfl)
    | some name =>
      have result : run (removeFile (some name) locals) s = some ((), s) := by
        rw [removeFile, run_then run_shellPathIno, run_then run_dirBlockRead]
        exact standing.no_removal locals.db harmless
      exact still (perform_of result) rfl rfl (.inl rfl)
  | rmdir name locals =>
    cases name with
    | none => exact still rfl rfl rfl (.inl rfl)
    | some name =>
      have result : run (removeDirectory (some name) locals) s = some ((), s) := by
        rw [removeDirectory, run_then run_shellPathIno, run_then run_dirBlockRead]
        by_cases dots : name = dot ∨ name = dotDot
        · rw [if_pos dots, run_pure]
        · rw [if_neg dots]
          rcases harmless with same | same | none
          · exact absurd (.inl same) dots
          · exact absurd (.inr same) dots
          · exact standing.no_removal locals.db none
      exact still (perform_of result) rfl rfl (.inl rfl)
  | cd path stack =>
    obtain ⟨name, rfl, short⟩ := harmless
    rcases run_changeDirectory stack standing.sound standing.rootIno located isDir shell short with
      ⟨_, b, result⟩ | ⟨q, b, head, inode, _, result, holds⟩
    · exact still (perform_of result) rfl rfl (.inl rfl)
    · exact still (perform_of result) rfl rfl (.inr ⟨q, holds⟩)
  | ls path stack =>
    obtain ⟨name, rfl, short⟩ := harmless
    rcases run_listDirectory stack standing.sound standing.rootIno located isDir shell short with
      ⟨_, b, result⟩ | ⟨q, g, b, _, _, _, result⟩
    · exact still (perform_of (run_then result)) rfl rfl (.inl rfl)
    · exact still (perform_of (run_then result)) rfl rfl (.inl rfl)
  | cat name stack =>
    obtain ⟨r, result⟩ := @run_catFile s stack name
    exact still (perform_of (run_then result)) rfl rfl (.inl rfl)
  | fopen name stack locals =>
    exact still (perform_fopen locals harmless.1 harmless.2) rfl rfl (.inl rfl)
  | fwrite index buf stack =>
    obtain ⟨⟨valid, p, n, there, isFile, number⟩, inside⟩ := harmless
    obtain ⟨s', result, _, superblock, same, disk, _⟩ := run_sysFwrite stack valid inside
    have change := written_of s n.ino inside
    rw [number] at disk
    rw [← disk] at change
    have onCard' := onCard.write there isFile change
    refine ⟨s', perform_of (run_then result), ⟨onCard'.sound, superblock ▸ standing.rootIno, ?_⟩,
      onCard', ?_⟩
    · rw [change.locate standing.sound (standing.sound.noDirectory there isFile), cwdIno, same]
      exact standing.cwd
    · rw [writtenBy, number]
      exact unharmed_write standing.sound there isFile change
  | fseek index pos =>
    have result : run (sysFseek index pos) s = some ((), { s with
        fd := Function.update s.fd index ⟨(s.fd index).ino, pos⟩ }) := by
      rw [sysFseek, if_neg (Nat.not_le.mpr harmless)]
      rfl
    exact still (perform_of result) rfl rfl (.inl rfl)

theorem Standing.run (standing : Standing s) (onCard : OnCard s.disk)
    (harmless : AllHarmless cs s) : ∃ t, performAll cs s = some t ∧ OnCard t.disk ∧
      Unharmed (written cs s) s.disk t.disk := by
  induction cs generalizing s with
  | nil => exact ⟨s, rfl, onCard, Unharmed.refl⟩
  | cons c cs ih =>
    obtain ⟨s', result, standing', onCard', first⟩ := standing.step onCard harmless.1
    obtain ⟨t, rest, last, second⟩ := ih standing' onCard' (harmless.2 s' result)
    refine ⟨t, by rw [performAll, result, Option.bind_some, rest], last, ?_⟩
    rw [written, result, Option.map_some, Option.getD_some]
    exact first.trans second

theorem booted_standing (onCard : OnCard d) : Standing (booted d) :=
  ⟨onCard.sound, rfl, [], rootNode, rfl, rfl, rfl⟩

/-- Whatever a session left on the card, harmless commands after a reboot leave it there, but
for the files they write to. -/
theorem unmounted_harmless (locals : Locals) (session : Session Sane s) (harmless : AllHarmless cs (booted s.disk)) :
    ∃ t u, performAll cs (booted s.disk) = some t ∧ run (doMakefs locals) t = some ((), u) ∧
      Intact u ∧ ∀ p n, locate s.disk p = some n →
        locate u.disk p = some n ∧ bit (diskMap u.disk) n.ino.toNat = true ∧
        bit u.inodeMap n.ino.toNat = true ∧
        (n.ino ∉ written cs (booted s.disk) → item u.disk n = item s.disk n) := by
  have onCard := session.intact.onCard
  have standing := booted_standing onCard
  obtain ⟨t, result, onCard', unharmed⟩ := standing.run onCard harmless
  obtain ⟨u, made, intact, _, disk, _⟩ := onCard'.mount locals
  refine ⟨t, u, result, made, intact, fun p n located => ?_⟩
  have there : locate u.disk p = some n := by
    rw [disk, unharmed.nodes]
    exact located
  have marked := intact.sound.marked there
  refine ⟨there, marked, ?_, fun other => ?_⟩
  · rw [← intact.bits (intact.sound.small there)]
    exact marked
  · rw [disk]
    exact unharmed.items located other

theorem unmounted_harmless_ls : ∃ s t u : FileSystem,
    performAll [.ls (some rootPath) blankLocals.db] (booted s.disk) = some t ∧
    run (doMakefs blankLocals) t = some ((), u) ∧
    ∃ p n, locate u.disk p = some n ∧ n.name = nameA.val ∧ item u.disk n = item s.disk n := by
  obtain ⟨start, s, cwd, f, i, n, formatted, created, isDir, same, session⟩ := session_mkdir
  have sane : Sane start (.mkdir (some nameA) blankLocals) :=
    ⟨formatted.fits (by decide), trivial⟩
  have harmless : AllHarmless [.ls (some rootPath) blankLocals.db] (booted s.disk) :=
    ⟨⟨rootPath, rfl, by decide⟩, fun _ _ => trivial⟩
  obtain ⟨t, u, result, made, _, kept⟩ := unmounted_harmless blankLocals (session Sane sane) harmless
  have here : locate s.disk (i :: cwd) = some n := by
    rw [created.located formatted.intact.sound, graft_self]
  obtain ⟨there, _, _, item⟩ := kept (i :: cwd) n here
  refine ⟨s, t, u, result, made, i :: cwd, n, there, same, item ?_⟩
  simp only [written, writtenBy, List.nil_append]
  cases perform (.ls (some rootPath) blankLocals.db) (booted s.disk) with
  | none => exact List.not_mem_nil
  | some t => exact List.not_mem_nil

def nameB : CString := ⟨[0x62], by decide⟩

theorem bit_blank {o : Nat} : bit (fun _ => 0) o = false := by
  have zero : word (fun _ => 0) (4 * (o / 32)) = 0 := rfl
  rw [bit, zero]
  exact BitVec.getLsbD_zero

theorem search_blank : bitmapSearch (fun _ => 0) 0 inodeBound = (0 : Nat) := by
  rcases @bitmapSearch_spec (fun _ => 0) 0 inodeBound (.inl rfl) (by decide) with
    ⟨_, none⟩ | ⟨o, _, search, _, least⟩
  · exact absurd bit_blank (none 0 (by decide))
  · cases o with
    | zero => exact search
    | succ o => exact absurd bit_blank (least 0 (Nat.succ_pos o))

/-- A directory that is made before mounting takes number 0, and the map written for it marks
nothing else. -/
theorem mkdir_before_mount {free : Nat} (onCard : OnCard d) (inside : free < dentrysPerBlock)
    (empty : dirEntry d rootDirIno free = none) (small : ino.toNat < inodeBound)
    (other : ino.toNat ≠ 0) : ∃ t u,
      performAll [.mkdir (some nameB) blankLocals] (booted d) = some t ∧
      run (doMakefs blankLocals) t = some ((), u) ∧ bit (diskMap u.disk) ino.toNat = false := by
  have zero : rootDirIno.toNat < inodeBound := by decide
  have reads : ∀ j < dentrysPerBlock,
      (decide (dentryIno (cwdBlock (booted d) blankLocals.db) j = noIno) = true ↔
        dirEntry d rootDirIno j = none) := by
    intro j inside
    have root : cwdIno (booted d) = rootDirIno := rfl
    rw [decide_eq_true_iff, ← entry_none, cwdBlock, entry_read _ inside, ← cwdIno, root]
    rfl
  have stops : freeSlot (cwdBlock (booted d) blankLocals.db) dentrysPerBlock < dentrysPerBlock :=
    scan_lt inside ((reads free inside).mpr empty)
  have short : nameB.val.length < 24 := by decide
  obtain ⟨t, result, _, disk, _⟩ := @run_createEntry (booted d) rootDirIno dir rootDirIno nameB _
    dentrysPerBlock blankLocals 0 short (by decide) search_blank rfl stops rfl rfl
  have field : ∀ {k}, k + 4 ≤ superblockSize →
      word t.disk (superblockAddress + k) = word d (superblockAddress + k) := by
    intro k low
    apply word_congr
    intro l first last
    have number : rootDirIno.toNat = 0 := by decide
    rw [disk, createdDisk_outside]
    · exact congrArg d (by omega)
    all_goals
      try rw [blockAddress_eq zero]
      simp only [Beyond, superblockAddress, superblockSize, mapAddress, tableAddress, blockSize,
        number] at *
      omega
  obtain ⟨u, made, _, same, _⟩ := run_doMakefs_mount (s := t) blankLocals
    ((field (k := 0) (by decide)).trans onCard.magic) ((field (by decide)).trans onCard.rootIno)
  refine ⟨t, u, ?_, made, ?_⟩
  · have done : perform (.mkdir (some nameB) blankLocals) (booted d) = some t := perform_of result
    rw [performAll, done]
    rfl
  · rw [same, disk]
    have map : bit (diskMap (createdDisk d (bitmapModify (fun _ => 0) 1 (0 : Nat))
        (newBlock dir rootDirIno rootDirIno blankLocals.block)
        (inodeInit rootDirIno dir nameB rootDirIno blankLocals.timer blankLocals.inode)
        (setDentry (freeSlot (cwdBlock (booted d) blankLocals.db) dentrysPerBlock) rootDirIno dir
          nameB (cwdBlock (booted d) blankLocals.db)) rootDirIno rootDirIno)) ino.toNat =
        bit (bitmapModify (fun _ => 0) 1 (0 : Nat)) ino.toNat :=
      bit_congr (fun k low => createdDisk_map zero zero low) small
    refine Eq.trans map ?_
    rw [bit_bitmapModify (.inr rfl), if_neg other, bit_blank]

/-- After a session that makes one directory and a reboot, making another one before `mkfs`
frees the inode of the first. -/
theorem mkdir_frees : ¬∀ s, Session Sane s → ∀ cs t u locals,
    (∀ c ∈ cs, ∃ name locals, c = .mkdir (some name) locals) →
    performAll cs (booted s.disk) = some t → run (doMakefs locals) t = some ((), u) →
    ∀ p n, locate s.disk p = some n → bit (diskMap u.disk) n.ino.toNat = true := by
  intro marked
  obtain ⟨start, s, cwd, f, i, n, formatted, created, isDir, same, session⟩ := session_mkdir
  have sane : Sane start (.mkdir (some nameA) blankLocals) :=
    ⟨formatted.fits (by decide), trivial⟩
  have sound := formatted.intact.sound
  have intact := created.intact formatted.intact
  have here : locate s.disk (i :: cwd) = some n := by
    rw [created.located sound, graft_self]
  have small := created.room.small
  have other : n.ino.toNat ≠ 0 := by
    intro zero
    have root : rootNode.ino = n.ino := BitVec.eq_of_toNat_eq (Eq.trans (by decide) zero.symm)
    exact created.room.other sound (p := []) rfl root
  -- One of the first two free slots of the root is still free.
  obtain ⟨free, inside, slot, apart⟩ : ∃ free, free < dentrysPerBlock ∧ 2 ≤ free ∧ free ≠ i := by
    by_cases second : i = 2
    · exact ⟨3, by decide, by decide, by omega⟩
    · exact ⟨2, by decide, by decide, fun same => second same.symm⟩
  have empty : dirEntry s.disk rootDirIno free = none := by
    have root : cwd = [] ∧ f = rootNode := formatted.locate created.room.cwd
    have entry := (created.grafted.old_entry sound created.room (q := []) (m := rootNode) rfl inside
      fun _ => apart).dirEntry
    exact entry.trans (formatted.root.free free slot inside)
  obtain ⟨t, u, result, made, clear⟩ := mkdir_before_mount intact.onCard inside empty small other
  have kept := marked s (session Sane sane) _ t u blankLocals
    (fun c member => ⟨nameB, blankLocals, List.mem_singleton.mp member⟩) result made (i :: cwd) n here
  rw [clear] at kept
  cases kept

end Tina.Files
