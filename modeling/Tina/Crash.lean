import Tina.Remount

/-! Crashes in the middle of a command. Creations write the entry last; removals clear the
bit of the inode first. -/
namespace Tina.Files

open ByteBuffer Atomic SlotTree Transition

variable {s s' t u : FileSystem} {d d' map block db : Buffer} {i j k o : Nat} {p q cwd : List Nat}
  {n m f g : Node} {ino mode father : Word} {name : CString} {locals : Locals} {c : Command}

/-- The bits on the card while the map is being written. -/
theorem bit_written :
    bit (diskMap (copy d mapAddress map 0 (0x200 * k))) o =
      if o < 0x1000 * k then bit map o else bit (diskMap d) o := by
  have part : ∀ {b : Buffer}, (∀ e < 4, copy d mapAddress map 0 (0x200 * k)
      (mapAddress + (4 * (o / 32) + e)) = b (4 * (o / 32) + e)) →
      bit (diskMap (copy d mapAddress map 0 (0x200 * k))) o = bit b o := by
    intro b same
    have equal : word (diskMap (copy d mapAddress map 0 (0x200 * k))) (4 * (o / 32)) =
        word b (4 * (o / 32)) := by
      apply word_congr
      intro l first last
      obtain ⟨e, rfl⟩ := Nat.exists_eq_add_of_le first
      rw [diskMap, same e (by omega)]
      exact congrArg _ (by omega)
    rw [bit, bit, equal]
  by_cases inside : o < 0x1000 * k
  · rw [if_pos inside]
    apply part
    intro e small
    rw [copy_inside (by omega), Nat.zero_add]
  · rw [if_neg inside]
    apply part
    intro e small
    rw [copy_outside (by omega)]
    rfl

theorem visits_mapLoop {n : Nat} (low : n ≤ 8) (here : t ∈ visits (forM (List.range n) fun i =>
      sectorWrite FileSystem.inodeMap (0x200 * i) (fsInodeMapBase + BitVec.ofNat 32 i)) s) :
    ∃ k ≤ n, t = mapWritten k s := by
  induction n with
  | zero =>
    rw [List.range_zero, List.forM_nil, visits_pure] at here
    exact ⟨0, Nat.le_refl 0, here.trans mapWritten_zero.symm⟩
  | succ n ih =>
    rw [List.range_succ, List.forM_append, visits_bind] at here
    rcases here with before | ⟨r, result, later⟩
    · obtain ⟨k, small, same⟩ := ih (by omega) before
      exact ⟨k, by omega, same⟩
    · rw [run_mapLoop (by omega)] at result
      cases result
      have written := @mapWritten_succ s n (by omega)
      rw [sectorWrite, doSdwrite, run_change, Option.some.injEq, Prod.mk.injEq] at written
      rw [List.forM_cons, visits_bind] at later
      rcases later with first | ⟨r, result, last⟩
      · rw [sectorWrite, doSdwrite, visits_change, written.2] at first
        rcases first with same | same
        · exact ⟨n, by omega, same⟩
        · exact ⟨n + 1, Nat.le_refl _, same⟩
      · rw [mapWritten_succ (by omega)] at result
        cases result
        rw [List.forM_nil, visits_pure] at last
        exact ⟨n + 1, Nat.le_refl _, last⟩

theorem visits_inodeWrite (small : ino.toNat < inodeBound)
    (here : t ∈ visits (inodeWrite map ino) s) :
    t = s ∨ t = { s with disk := copy s.disk (tableAddress ino) map 0 inodeSize } := by
  have result := @run_inodeWrite s map ino small
  rw [inodeWrite, if_neg (checkIno_small small)] at here result
  rw [visits_bind] at here
  rw [run_then run_sectorRead, sectorWrite, doSdwrite, run_change, Option.some.injEq,
    Prod.mk.injEq] at result
  rcases here with before | ⟨r, read, later⟩
  · rw [sectorRead, doSdread, visits_read] at before
    exact .inl before
  · rw [run_sectorRead] at read
    cases read
    rw [sectorWrite, doSdwrite, visits_change, result.2] at later
    exact later

/-- Both kinds of nodes write one block, then the inode. -/
theorem inodeCreate_eq (short : name.val.length < 32) :
    inodeCreate ino mode name father locals =
      fileBlockWrite (newBlock mode ino father locals.block) ino >>= fun _ =>
        inodeWrite (inodeInit ino mode name father locals.timer locals.inode) ino := by
  obtain ⟨number, kind, above⟩ :=
    @inodeInit_fields locals.inode ino mode father locals.timer name short
  have fits : ¬inodeSize ≤ name.val.length := by
    simp only [inodeSize]
    omega
  rw [inodeCreate, if_neg fits]
  simp only [kind]
  by_cases isDir : mode = dir
  · rw [if_pos isDir, dirInit, number, above, newBlock, if_pos isDir]
    rfl
  · rw [if_neg isDir, fileInit, number, newBlock, if_neg isDir]

theorem visits_fileBlockWrite : visits (fileBlockWrite db ino) s =
    {s, { s with disk := copy s.disk (blockAddress ino) db 0 blockSize }} := (rfl)

theorem visits_dirBlockRead : visits (dirBlockRead db ino) s = {s} := visits_read

theorem visits_shellPathIno : visits shellPathIno s = {s} := visits_read

theorem visits_dirBlockWrite : visits (dirBlockWrite db ino) s =
    {s, { s with disk := copy s.disk (blockAddress ino) db 0 blockSize }} := (rfl)

theorem visits_inodeCreate (short : name.val.length < 32) (small : ino.toNat < inodeBound)
    (here : t ∈ visits (inodeCreate ino mode name father locals) s) :
    t.disk = s.disk ∨
    t.disk = copy s.disk (blockAddress ino) (newBlock mode ino father locals.block) 0 blockSize ∨
    t.disk = copy (copy s.disk (blockAddress ino) (newBlock mode ino father locals.block) 0
      blockSize) (tableAddress ino) (inodeInit ino mode name father locals.timer locals.inode) 0
      inodeSize := by
  rw [inodeCreate_eq short, visits_bind] at here
  rcases here with before | ⟨r, result, later⟩
  · rw [visits_fileBlockWrite] at before
    rcases before with rfl | rfl
    · left
      simp only
    · right
      left
      simp only
  · rw [run_fileBlockWrite] at result
    have same := Option.some.inj result
    subst same
    rcases visits_inodeWrite small later with rfl | rfl
    · right
      left
      simp only
    · right
      right
      simp only

/-- The card at any moment of a creation. -/
inductive Stage (s : FileSystem) (map block inode db : Buffer) (ino father : Word) :
    Buffer → Prop where
  | map {k : Nat} : k ≤ 8 →
    Stage s map block inode db ino father (copy s.disk mapAddress map 0 (0x200 * k))
  | block : Stage s map block inode db ino father
    (copy (copy s.disk mapAddress map 0 mapSize) (blockAddress ino) block 0 blockSize)
  | inode : Stage s map block inode db ino father
    (copy (copy (copy s.disk mapAddress map 0 mapSize) (blockAddress ino) block 0 blockSize)
      (tableAddress ino) inode 0 inodeSize)
  | entry {d : Buffer} : d = createdDisk s.disk map block inode db ino father →
    Stage s map block inode db ino father d

theorem visits_inodeAlloc (small : o < inodeBound)
    (search : bitmapSearch s.inodeMap 0 inodeBound = o) (here : t ∈ visits inodeAlloc s) :
    ∃ k ≤ 8, t.disk = copy s.disk mapAddress (bitmapModify s.inodeMap 1 o) 0 (0x200 * k) := by
  have start : ∃ k ≤ 8, s.disk = copy s.disk mapAddress (bitmapModify s.inodeMap 1 o) 0
      (0x200 * k) := ⟨0, by decide, by rw [Nat.mul_zero, copy_nothing]⟩
  simp only [inodeBound] at small
  have positive : (0 : Int) ≤ o := Int.natCast_nonneg o
  have inside : 0 ≤ (o : Int).tdiv 32 ∧ (o : Int).tdiv 32 < 0x400 := by
    rw [Int.tdiv_eq_ediv_of_nonneg positive]
    omega
  rw [inodeAlloc, visits_bind, visits_read] at here
  rcases here with rfl | ⟨r, found, here⟩
  · exact start
  · rw [run_read, search] at found
    cases found
    rw [modifyInodeMap, if_pos inside, visits_bind, visits_change] at here
    rcases here with (rfl | rfl) | ⟨r, changed, here⟩
    · exact start
    · exact start
    · rw [run_change] at changed
      cases changed
      rw [visits_bind] at here
      rcases here with here | ⟨r, written, here⟩
      · obtain ⟨k, low, rfl⟩ := visits_mapLoop (Nat.le_refl 8) here
        exact ⟨k, low, rfl⟩
      · rw [run_inodeMapWrite] at written
        cases written
        rw [visits_pure] at here
        cases here
        exact ⟨8, Nat.le_refl 8, rfl⟩

theorem visits_createEntry (bound : Nat) (short : name.val.length < 24) (small : o < inodeBound)
    (search : bitmapSearch s.inodeMap 0 inodeBound = o)
    (slot : freeSlot (cwdBlock s locals.db) bound = i) (inside : i < dentrysPerBlock)
    (shell : word s.shellPathInode offIno = father) (number : ino = BitVec.ofNat 32 o)
    (here : t ∈ visits (createEntry bound mode name locals) s) :
    Stage s (bitmapModify s.inodeMap 1 o) (newBlock mode ino father locals.block)
      (inodeInit ino mode name father locals.timer locals.inode)
      (setDentry i ino mode name (cwdBlock s locals.db)) ino father t.disk := by
  subst number shell
  have smallWord : (BitVec.ofNat 32 o).toNat < inodeBound := by
    rw [BitVec.toNat_ofNat]
    simp only [inodeBound] at *
    omega
  have fits : i < dentrysPerBlock ∧ dentryName i + name.val.length < blockSize := by
    simp only [dentryName, dentrySize, offDentryName, blockSize, dentrysPerBlock] at *
    omega
  obtain ⟨map, isMap⟩ : ∃ map, bitmapModify s.inodeMap 1 o = map := ⟨_, rfl⟩
  have alloc := run_inodeAlloc small search
  have start : ∀ {block inode db ino father}, Stage s map block inode db ino father s.disk := by
    intro block inode db ino father
    have none : Stage s map block inode db ino father
        (copy s.disk mapAddress map 0 (0x200 * 0)) := .map (by decide)
    rwa [Nat.mul_zero, copy_nothing] at none
  have whole : ∀ {block inode db ino father}, Stage s map block inode db ino father
      (copy s.disk mapAddress map 0 mapSize) := .map (Nat.le_refl 8)
  rw [createEntry, visits_bind, visits_shellPathIno] at here
  rw [isMap] at alloc ⊢
  rcases here with rfl | ⟨r, read, here⟩
  · exact start
  rw [run_shellPathIno] at read
  cases read
  rw [visits_bind, visits_dirBlockRead] at here
  rcases here with rfl | ⟨r, read, here⟩
  · exact start
  rw [run_dirBlockRead] at read
  cases read
  dsimp only at here
  rw [← cwdBlock, slot, visits_bind] at here
  rcases here with here | ⟨r, allocated, here⟩
  · obtain ⟨k, low, same⟩ := visits_inodeAlloc small search here
    rw [same, isMap]
    exact .map low
  rw [alloc] at allocated
  cases allocated
  rw [visits_bind, visits_shellPathIno] at here
  rcases here with rfl | ⟨r, read, here⟩
  · exact whole
  rw [run_shellPathIno] at read
  cases read
  rw [visits_bind] at here
  rcases here with here | ⟨r, created, here⟩
  · rcases visits_inodeCreate (by omega) smallWord here with same | same | same
    · rw [same]
      exact whole
    · rw [same]
      exact .block
    · rw [same]
      exact .inode
  rw [run_inodeCreate (by omega) smallWord] at created
  have same := Option.some.inj created
  subst same
  rw [if_pos fits, visits_bind, visits_shellPathIno] at here
  rcases here with rfl | ⟨r, read, here⟩
  · exact .inode
  rw [run_shellPathIno] at read
  cases read
  rw [visits_dirBlockWrite] at here
  rcases here with rfl | rfl
  · exact .inode
  · apply Stage.entry
    simp only [createdDisk, mapWritten, mapSize]

/-- Nothing reached from the root is where a new node is written. -/
theorem kept_of (sound : Sound d) (small : ino.toNat < inodeBound)
    (unmarked : bit (diskMap d) ino.toNat = false)
    (outside : ∀ k, Beyond mapAddress mapSize k → Beyond (blockAddress ino) blockSize k →
      Beyond (tableAddress ino) inodeSize k → d' k = d k)
    (marks : ∀ o < inodeBound, bit (diskMap d) o = true → bit (diskMap d') o = true) :
    Kept d d' := by
  have other : ∀ {p m}, locate d p = some m → m.ino.toNat ≠ ino.toNat := by
    intro p m located same
    have marked := sound.marked located
    rw [same, unmarked] at marked
    cases marked
  rw [blockAddress_eq small] at outside
  constructor
  · intro p m located k low
    have apart := other located
    rw [blockAddress_eq (sound.small located)]
    have smallM := sound.small located
    apply outside
    all_goals
      simp only [Beyond, mapAddress, mapSize, tableAddress, inodeSize, blockSize, inodeBound] at *
      omega
  · intro p m located k low
    have apart := other located
    apply outside
    all_goals
      simp only [Beyond, mapAddress, mapSize, tableAddress, inodeSize, blockSize, inodeBound] at *
      omega
  · intro p m located
    exact marks _ (sound.small located) (sound.marked located)
  · intro k low
    apply outside
    all_goals
      simp only [Beyond, mapAddress, mapSize, tableAddress, inodeSize, blockSize, inodeBound,
        superblockAddress, superblockSize] at *
      omega

/-- Writing the inode map leaves all else alone. -/
theorem kept_outside_map (sound : Sound d)
    (outside : ∀ k, Beyond mapAddress mapSize k → d' k = d k)
    (marks : ∀ {p m}, locate d p = some m → bit (diskMap d') m.ino.toNat = true) : Kept d d' := by
  constructor
  · intro p m located k low
    have small := sound.small located
    rw [blockAddress_eq small]
    apply outside
    simp only [Beyond, mapAddress, mapSize, blockSize, inodeBound] at *
    omega
  · intro p m located k low
    apply outside
    simp only [Beyond, tableAddress, mapAddress, mapSize, inodeSize] at *
    omega
  · exact marks
  · intro k low
    apply outside
    simp only [Beyond, superblockAddress, superblockSize, mapAddress, mapSize] at *
    omega

theorem Kept.refl (sound : Sound d) : Kept d d :=
  ⟨fun _ _ _ => rfl, fun _ _ _ => rfl, sound.marked, fun _ _ => rfl⟩

/-- Before the entry is written, a creation is not noticed. -/
theorem Stage.kept {inode : Buffer} (stage : Stage s map block inode db ino father d)
    (sound : Sound s.disk) (small : ino.toNat < inodeBound)
    (unmarked : bit (diskMap s.disk) ino.toNat = false)
    (marks : ∀ o < inodeBound, bit (diskMap s.disk) o = true → bit map o = true) :
    Kept s.disk d ∨ d = createdDisk s.disk map block inode db ino father := by
  have whole : ∀ {b : Buffer}, (∀ k < mapSize, b (mapAddress + k) = map k) →
      ∀ o < inodeBound, bit (diskMap s.disk) o = true → bit (diskMap b) o = true := by
    intro b same o low marked
    have equal : bit (diskMap b) o = bit map o := bit_congr same low
    rw [equal]
    exact marks o low marked
  have high : ∀ {k}, Beyond (blockAddress ino) blockSize (mapAddress + k) := by
    intro k
    rw [blockAddress_eq small]
    simp only [Beyond, mapAddress, blockSize, inodeBound] at *
    omega
  cases stage with
  | map low =>
    left
    apply kept_of sound small unmarked
    · intro k notMap _ _
      apply copy_outside
      simp only [Beyond, mapSize] at notMap
      omega
    · intro o inside marked
      rw [bit_written]
      split
      · exact marks o inside marked
      · exact marked
  | block =>
    left
    apply kept_of sound small unmarked
    · intro k notMap notBlock _
      rw [copy_outside notBlock, copy_outside notMap]
    · apply whole
      intro k low
      rw [copy_outside high, copy_inside low, Nat.zero_add]
  | inode =>
    left
    apply kept_of sound small unmarked
    · intro k notMap notBlock notTable
      rw [copy_outside notTable, copy_outside notBlock, copy_outside notMap]
    · apply whole
      intro k low
      rw [copy_outside (by simp only [tableAddress, mapAddress, mapSize] at *; omega),
        copy_outside high, copy_inside low, Nat.zero_add]
  | entry same => exact .inr same

/-- Wherever a creation is cut, the card holds the old tree or the new one. -/
theorem Place.cut {bound : Nat} (place : Place s locals.db bound cwd f i o) (intact : Intact s)
    (short : name.val.length ≤ 23) (kind : mode = file ∨ mode = dir)
    (here : t ∈ visits (createEntry bound mode name locals) s) :
    Kept s.disk t.disk ∨
      ∃ s', run (createEntry bound mode name locals) s = some ((), s') ∧ t.disk = s'.disk := by
  obtain ⟨s', result, created, disk⟩ := place.create intact short kind
  have room := created.room
  have stage := visits_createEntry bound (Nat.lt_succ_of_le short) place.small place.search
    place.slot place.inside place.shell rfl here
  rcases stage.kept intact.sound room.small room.unmarked (fun o low marked => by
    rw [bit_bitmapModify (.inr rfl), ← intact.bits low, marked]
    simp) with kept | same
  · exact .inl kept
  · exact .inr ⟨s', result, same.trans disk.symm⟩

/-- The entry that a removal takes away: the first of that kind and name. -/
structure Target (s : FileSystem) (mode : Word) (name : CString) (i : Nat) (n : Node) : Prop where
  inside : i < dentrysPerBlock
  here : dirEntry s.disk (cwdIno s) i = some n
  kind : n.mode = mode
  same : n.name = name.val
  first : ∀ j < i, ∀ m, dirEntry s.disk (cwdIno s) j = some m → m.mode = mode → m.name ≠ name.val

theorem Target.unique (target : Target s mode name i n) (other : Target s mode name j m) :
    i = j ∧ n = m := by
  have same : i = j := by
    rcases Nat.lt_trichotomy i j with earlier | same | later
    · exact absurd target.same (other.first i earlier n target.here target.kind)
    · exact same
    · exact absurd other.same (target.first j later m other.here other.kind)
  subst same
  have entry := target.here.symm.trans other.here
  exact ⟨rfl, Option.some.inj entry⟩

theorem Standing.target (stack : Buffer) (standing : Standing s) (mode : Word) (name : CString) :
    (∃ i n, Target s mode name i n ∧
      scan dentrysPerBlock (matchesEntry (cwdBlock s stack) mode name) = i) ∨
    scan dentrysPerBlock (matchesEntry (cwdBlock s stack) mode name) = dentrysPerBlock ∧
      ∀ i n, ¬Target s mode name i n := by
  have found : ∀ j < dentrysPerBlock, (matchesEntry (cwdBlock s stack) mode name j = true ↔
      ∃ n, dirEntry s.disk (cwdIno s) j = some n ∧ n.mode = mode ∧ n.name = name.val) :=
    fun j inside => standing.matches stack inside
  by_cases stops : scan dentrysPerBlock (matchesEntry (cwdBlock s stack) mode name) <
      dentrysPerBlock
  · left
    obtain ⟨here, before⟩ := scan_stops stops
    obtain ⟨n, live, kind, same⟩ := (found _ stops).mp here
    refine ⟨_, n, ⟨stops, live, kind, same, fun j earlier m there kind' same' => ?_⟩, rfl⟩
    have missed := before j earlier
    rw [(found j (Nat.lt_trans earlier stops)).mpr ⟨m, there, kind', same'⟩] at missed
    cases missed
  · right
    have bound := @scan_le dentrysPerBlock (matchesEntry (cwdBlock s stack) mode name)
    refine ⟨by omega, fun i n target => ?_⟩
    exact stops (scan_lt target.inside ((found i target.inside).mpr
      ⟨n, target.here, target.kind, target.same⟩))

theorem Target.number (target : Target s mode name i n) (stack : Buffer) :
    dentryIno (cwdBlock s stack) i = n.ino := by
  apply (entry_some (b := cwdBlock s stack) (i := i) (n := n) _).1
  rw [cwdBlock, entry_read _ target.inside]
  exact target.here

section Target

variable (target : Target s mode name i n) (intact : Intact s)

include target intact

theorem Target.slot (stack : Buffer) :
    scan dentrysPerBlock (matchesEntry (cwdBlock s stack) mode name) = i := by
  rcases intact.standing.target stack mode name with ⟨j, m, other, slot⟩ | ⟨_, none⟩
  · rw [slot]
    exact (other.unique target).1
  · exact absurd target (none i n)

theorem Target.held (removable : Removable mode name) : ∃ cwd f, cwdIno s = f.ino ∧
    Held s.disk cwd f i n := by
  obtain ⟨cwd, f, located, isDir, shell⟩ := intact.cwd
  have here := target.here
  rw [cwdIno, shell] at here
  exact ⟨cwd, f, shell, located, isDir,
    removable.slot intact.sound located isDir here target.kind target.same, target.inside, here⟩

theorem Target.small (removable : Removable mode name) : n.ino.toNat < inodeBound := by
  obtain ⟨cwd, f, _, held⟩ := target.held intact removable
  exact intact.sound.small held.located

end Target

/-- The sectors of the inode map are written one by one. -/
theorem after_mapLoop {f : PUnit → Routine Unit} (low : j + o ≤ 8) :
    after k ((forM (List.range' j o) fun i => sectorWrite FileSystem.inodeMap (0x200 * i)
      (fsInodeMapBase + BitVec.ofNat 32 i)) >>= f) (mapWritten j s) =
    if k ≤ o then mapWritten (j + k) s else after (k - o) (f ()) (mapWritten (j + o) s) := by
  induction o generalizing j k with
  | zero =>
    rw [List.range'_zero, List.forM_nil, pure_bind]
    by_cases none : k = 0
    · subst none
      rw [if_pos (Nat.le_refl 0), after_zero, Nat.add_zero]
    · rw [if_neg (by omega), Nat.sub_zero, Nat.add_zero]
  | succ o ih =>
    cases k with
    | zero => rw [if_pos (Nat.zero_le _), after_zero, Nat.add_zero]
    | succ k =>
      have written := @mapWritten_succ s j (by omega)
      rw [sectorWrite, doSdwrite, run_change, Option.some.injEq, Prod.mk.injEq] at written
      rw [List.range'_succ, List.forM_cons, bind_assoc, sectorWrite, doSdwrite, after_change,
        written.2, ih (by omega)]
      by_cases part : k ≤ o
      · rw [if_pos part, if_pos (by omega), Nat.add_assoc, Nat.add_comm 1 k]
      · rw [if_neg part, if_neg (by omega), Nat.add_assoc, Nat.add_comm 1 o,
          Nat.add_sub_add_right]

theorem after_dirBlockWrite : after (k + 1) (dirBlockWrite db ino) s =
    { s with disk := copy s.disk (blockAddress ino) db 0 blockSize } := by
  rw [dirBlockWrite, sectorWrite, doSdwrite, after_last, blockAddress]

/-- The card after `k` steps of a removal: the map in memory, eight sectors of it, the number
of the directory, its block. -/
theorem after_removeEntry (small : ino.toNat < inodeBound)
    (slot : scan dentrysPerBlock (matchesEntry db mode name) = i) (inside : i < dentrysPerBlock)
    (number : dentryIno db i = ino) :
    (after k (removeEntry mode name db) s).disk =
      if k < 11 then copy s.disk mapAddress (bitmapModify s.inodeMap 0 ino.toNat) 0
        (0x200 * min (k - 1) 8)
      else copy (copy s.disk mapAddress (bitmapModify s.inodeMap 0 ino.toNat) 0 mapSize)
        (blockAddress (cwdIno s)) (setWord (dentrySize * i) noIno db) 0 blockSize := by
  have signed : ino.toInt = (ino.toNat : Int) := by
    simp only [inodeBound] at small
    rw [BitVec.toInt_eq_toNat_cond, if_pos (by omega)]
  have word : 0 ≤ (ino.toNat : Int).tdiv 32 ∧ (ino.toNat : Int).tdiv 32 < 0x400 := by
    simp only [inodeBound] at small
    rw [Int.tdiv_eq_ediv_of_nonneg (Int.natCast_nonneg _)]
    omega
  obtain ⟨map, isMap⟩ : ∃ map, bitmapModify s.inodeMap 0 ino.toNat = map := ⟨_, rfl⟩
  have eight : List.range 8 = List.range' 0 8 := by decide
  rw [removeEntry, slot, if_pos inside, number, inodeDelete, signed, modifyInodeMap, if_pos word,
    bind_assoc]
  cases k with
  | zero => rw [after_zero, if_pos (by decide), Nat.zero_sub, Nat.zero_min, Nat.mul_zero, copy_nothing]
  | succ k =>
    have loop : ∀ f : PUnit → Routine Unit, after k (inodeMapWrite >>= f) { s with inodeMap := map } =
        if k ≤ 8 then mapWritten k { s with inodeMap := map }
        else after (k - 8) (f ()) (mapWritten 8 { s with inodeMap := map }) := by
      intro f
      have sectors := @after_mapLoop { s with inodeMap := map } 0 k 8 f (by decide)
      rwa [mapWritten_zero, Nat.zero_add, Nat.zero_add, ← eight] at sectors
    rw [after_change, onInodeMap, isMap, loop]
    by_cases early : k ≤ 8
    · rw [if_pos early, if_pos (by omega), Nat.add_sub_cancel, Nat.min_eq_left early, mapWritten]
    · rw [if_neg early]
      obtain ⟨l, rfl⟩ := Nat.exists_eq_add_of_lt (Nat.lt_of_not_le early)
      rw [show 8 + l + 1 - 8 = l + 1 by omega, shellPathIno, after_read]
      cases l with
      | zero =>
        rw [after_zero, if_pos (by decide), mapWritten]
        simp only [Nat.reduceAdd, Nat.add_one_sub_one, Nat.reduceLeDiff, inf_of_le_right]
      | succ l =>
        rw [if_neg (by omega), after_dirBlockWrite]
        simp only [mapWritten, mapSize, cwdIno]

/-- A removal is cut between the write of the sector of the map that holds the bit and the
write of the directory. -/
def Cleared (s : FileSystem) (mode : Word) (name : CString) (k : Nat) : Prop :=
  ∃ i n, Target s mode name i n ∧ 3 + n.ino.toNat / 0x1000 < k ∧ k < 13

/-- A crash after `k` steps of a command that leaves an entry whose bit is clear. -/
def Exposed (s : FileSystem) : Command → Nat → Prop
  | .rm (some name) _, k => Cleared s file name k
  | .rmdir (some name) _, k => name ≠ dot ∧ name ≠ dotDot ∧ Cleared s dir name k
  | _, _ => False

/-- The commands that change directories. -/
def ChangesDirectory : Command → Prop
  | .mkdir _ _ | .touch _ _ | .rm _ _ | .rmdir _ _ => True
  | _ => False

section Removal

variable (intact : Intact s)

include intact

/-- Cut before or after that, the card holds the old tree or the new one. -/
theorem Intact.cut_removal {s' : FileSystem} (removable : Removable mode name)
    (result : run (removeEntry mode name (cwdBlock s locals.db)) s = some ((), s'))
    (safe : ¬Cleared s mode name (k + 2)) :
    Kept s.disk (after k (removeEntry mode name (cwdBlock s locals.db)) s).disk ∨
    (after k (removeEntry mode name (cwdBlock s locals.db)) s).disk = s'.disk := by
  have sound := intact.sound
  rcases intact.standing.target locals.db mode name with ⟨i, n, target, slot⟩ | ⟨slot, _⟩
  · have small := target.small intact removable
    have number := target.number locals.db
    obtain ⟨t, result', _, disk, _⟩ := @run_removeEntry s _ n.ino mode name i small slot
      target.inside number
    rw [result] at result'
    have same := congrArg Prod.snd (Option.some.inj result')
    dsimp only at same
    subst same
    rw [after_removeEntry small slot target.inside number, disk]
    by_cases early : k < 11
    · left
      rw [if_pos early]
      have sectors : 0x1000 * min (k - 1) 8 ≤ n.ino.toNat := by
        by_contra cleared
        apply safe
        refine ⟨i, n, target, ?_, by omega⟩
        simp only [inodeBound] at small
        omega
      apply kept_outside_map sound
      · intro k notMap
        apply copy_outside
        simp only [Beyond, mapSize] at notMap
        omega
      · intro p m there
        rw [bit_written]
        split
        next written =>
          have other : m.ino.toNat ≠ n.ino.toNat := by omega
          have low := sound.small there
          rw [bit_bitmapModify (.inl rfl), if_neg other, ← intact.bits low]
          exact sound.marked there
        · exact sound.marked there
    · right
      rw [if_neg early]
  · left
    have written : ∀ l, after l (dirBlockWrite (cwdBlock s locals.db) (cwdIno s)) s = s := by
      intro l
      cases l with
      | zero => exact after_zero
      | succ l => rw [after_dirBlockWrite, cwdBlock, ← cwdIno, write_back]
    have kept : after k (removeEntry mode name (cwdBlock s locals.db)) s = s := by
      rw [removeEntry, slot, if_neg (Nat.lt_irrefl _)]
      cases k with
      | zero => exact after_zero
      | succ k =>
        rw [shellPathIno, after_read]
        exact written k
    rw [kept]
    exact Kept.refl sound

/-- Cut there, a directory names a number whose bit is clear. -/
theorem Cleared.loses (removable : Removable mode name) (cleared : Cleared s mode name (k + 2)) :
    (∀ a, Beyond mapAddress mapSize a →
      (after k (removeEntry mode name (cwdBlock s locals.db)) s).disk a = s.disk a) ∧
    ∃ f i n, Directory s.disk f ∧ f.toNat < inodeBound ∧ i < dentrysPerBlock ∧
      dirEntry s.disk f i = some n ∧
      bit (diskMap (after k (removeEntry mode name (cwdBlock s locals.db)) s).disk) n.ino.toNat =
        false := by
  obtain ⟨i, n, target, late, early⟩ := cleared
  obtain ⟨cwd, f, shell, held⟩ := target.held intact removable
  have small := target.small intact removable
  have number := target.number locals.db
  have slot := target.slot intact locals.db
  rw [after_removeEntry small slot target.inside number, if_pos (by omega)]
  constructor
  · intro a notMap
    apply copy_outside
    simp only [Beyond, mapSize] at notMap
    omega
  · refine ⟨f.ino, i, n, directory_of held.cwd held.isDir, intact.sound.small held.cwd,
      held.inside, held.here, ?_⟩
    have written : n.ino.toNat < 0x1000 * min (k - 1) 8 := by
      simp only [inodeBound] at small
      omega
    rw [bit_written, if_pos written, bit_bitmapModify (.inl rfl), if_pos rfl]
    rfl

end Removal

/-- Both removals read the directory first. -/
theorem after_removeFile : after (k + 2) (removeFile (some name) locals) s =
    after k (removeEntry file name (cwdBlock s locals.db)) s := by
  rw [removeFile, shellPathIno, after_read, dirBlockRead, sectorRead, doSdread, after_read]
  rfl

theorem after_removeDirectory : after (k + 2) (removeDirectory (some name) locals) s =
    if name = dot ∨ name = dotDot then s
    else after k (removeEntry dir name (cwdBlock s locals.db)) s := by
  rw [removeDirectory, shellPathIno, after_read, dirBlockRead, sectorRead, doSdread, after_read]
  split
  · rw [after_pure]
  · rfl

theorem perform_run (result : perform c s = some s') : run c.routine s = some ((), s') := by
  obtain ⟨r, there, same⟩ := Option.map_eq_some_iff.mp result
  rw [there, ← same]

/-- A cut that leaves no cleared bit leaves the old tree on the card, or the new one. -/
theorem Intact.cut (intact : Intact s) (fits : Fits s c) (changes : ChangesDirectory c)
    (result : perform c s = some s') (safe : ¬Exposed s c k) :
    Kept s.disk (after k c.routine s).disk ∨ (after k c.routine s).disk = s'.disk := by
  have nothing : ∀ {p : Routine Unit}, after k p s = s →
      Kept s.disk (after k p s).disk ∨ (after k p s).disk = s'.disk := by
    intro p same
    rw [same]
    exact .inl (Kept.refl intact.sound)
  have ends : ∀ {p : Routine Unit} {t}, run p s = some ((), t) → perform c s = (run p s).map Prod.snd →
      t = s' := by
    intro p t made same
    rw [result, made] at same
    exact (Option.some.inj same).symm
  cases c with
  | mkdir name locals =>
    cases name with
    | none => exact nothing after_pure
    | some name =>
      obtain ⟨cwd, f, i, o, place⟩ := intact.place locals.db fits (Nat.le_refl _)
      rcases place.cut intact fits.short (.inr rfl) after_visits with kept | ⟨t, made, same⟩
      · exact .inl kept
      · exact .inr (ends made rfl ▸ same)
  | touch name locals =>
    cases name with
    | none => exact nothing after_pure
    | some name =>
      obtain ⟨cwd, f, i, o, place⟩ := intact.place locals.db fits
        (by decide : dentrysPerBlock ≤ 0x200)
      rcases place.cut intact fits.short (.inl rfl) after_visits with kept | ⟨t, made, same⟩
      · exact .inl kept
      · exact .inr (ends made rfl ▸ same)
  | rm name locals =>
    cases name with
    | none => exact nothing after_pure
    | some name =>
      cases k with
      | zero => exact nothing after_zero
      | succ k =>
        cases k with
        | zero =>
          apply nothing
          rw [Command.routine, Files.removeFile, shellPathIno, after_read, after_zero]
        | succ k =>
          have entry := perform_run result
          rw [Command.routine, Files.removeFile, run_then run_shellPathIno,
            run_then run_dirBlockRead] at entry
          rw [Command.routine, after_removeFile]
          exact intact.cut_removal (.inl rfl) entry safe
  | rmdir name locals =>
    cases name with
    | none => exact nothing after_pure
    | some name =>
      cases k with
      | zero => exact nothing after_zero
      | succ k =>
        cases k with
        | zero =>
          apply nothing
          rw [Command.routine, Files.removeDirectory, shellPathIno, after_read, after_zero]
        | succ k =>
          have entry := perform_run result
          rw [Command.routine, Files.removeDirectory, run_then run_shellPathIno,
            run_then run_dirBlockRead] at entry
          rw [Command.routine, after_removeDirectory]
          split
          · exact .inl (Kept.refl intact.sound)
          next notDots =>
            rw [if_neg notDots] at entry
            have notDot : name ≠ dot := fun same => notDots (.inl same)
            have notDotDot : name ≠ dotDot := fun same => notDots (.inr same)
            apply intact.cut_removal (.inr ⟨rfl, notDot, notDotDot⟩) entry
            exact fun cleared => safe ⟨notDot, notDotDot, cleared⟩
  | cd | ls | cat | fopen | fwrite | fseek => exact changes.elim

/-- Directories keep their entries when only the inode map is written. -/
theorem Directory.congr (sound : Sound d) (outside : ∀ k, Beyond mapAddress mapSize k → d' k = d k)
    (directory : Directory d father) : Directory d' father := by
  have same : ∀ {f i}, Directory d f → i < dentrysPerBlock → dirEntry d' f i = dirEntry d f i := by
    intro f i directory inside
    obtain ⟨p, g, located, _, rfl⟩ := directory.located sound
    have small := sound.small located
    apply Same.dirEntry
    intro k low
    apply outside
    rw [blockAddress_eq small]
    simp only [Beyond, mapAddress, blockSize, dentrySize, inodeBound, dentrysPerBlock] at *
    omega
  induction directory with
  | root => exact .root
  | child above inside live isDir ih => exact .child ih inside ((same above inside).trans live) isDir

/-- What is asked of a file system that is mounted after a crash in a command from `s` to
`s'`: live entries lead to allocated and described inodes, the tree is the one before or the one
after the command, and no number in use is handed out later. -/
structure Recovered (s s' u : FileSystem) : Prop where
  entries : ∀ f i n, Directory u.disk f → i < dentrysPerBlock → dirEntry u.disk f i = some n →
    n.ino.toNat < inodeBound ∧ bit (diskMap u.disk) n.ino.toNat = true ∧
      word u.disk (tableAddress n.ino + offIno) = n.ino ∧
      word u.disk (tableAddress n.ino + offMode) = n.mode
  tree : image (item u.disk) (locate u.disk) = image (item s.disk) (locate s.disk) ∨
    image (item u.disk) (locate u.disk) = image (item s'.disk) (locate s'.disk)
  later : ∀ w, Reachable (fun s c s' => perform c s = some s') Sane u w →
    ∀ f i n, Directory w.disk f → i < dentrysPerBlock → dirEntry w.disk f i = some n →
      bitmapSearch w.inodeMap 0 inodeBound ≠ n.ino.toNat

theorem Intact.recovered {u : FileSystem} (intact : Intact u)
    (tree : image (item u.disk) (locate u.disk) = image (item s.disk) (locate s.disk) ∨
      image (item u.disk) (locate u.disk) = image (item s'.disk) (locate s'.disk)) :
    Recovered s s' u := by
  have entries : ∀ {w : FileSystem}, Intact w → ∀ f i n, Directory w.disk f →
      i < dentrysPerBlock → dirEntry w.disk f i = some n →
      n.ino.toNat < inodeBound ∧ bit (diskMap w.disk) n.ino.toNat = true ∧
        word w.disk (tableAddress n.ino + offIno) = n.ino ∧
        word w.disk (tableAddress n.ino + offMode) = n.mode := by
    intro w intact f i n directory inside live
    obtain ⟨p, g, located, isDir, rfl⟩ := directory.located intact.sound
    exact entry_described intact.sound located isDir inside live
  refine ⟨entries intact, tree, fun w reach f i n directory inside live search => ?_⟩
  have intact' : Intact w := by
    apply reach.invariant Intact intact
    intro s c s' before sane step
    exact (step_effect before sane step).2
  obtain ⟨small, marked, _⟩ := entries intact' f i n directory inside live
  rw [intact'.bits small] at marked
  rcases @bitmapSearch_spec w.inodeMap 0 inodeBound (.inl rfl) (by decide) with
    ⟨none, _⟩ | ⟨o, _, found, clear, _⟩
  · rw [none] at search
    omega
  · rw [found] at search
    have same : o = n.ino.toNat := by omega
    rw [same, marked] at clear
    cases clear

/-- A crash that leaves no cleared bit is survived. -/
theorem Intact.survives (intact : Intact s) (sane : Sane s c) (changes : ChangesDirectory c)
    (result : perform c s = some s') (lost : u.disk = (after k c.routine s).disk)
    (safe : ¬Exposed s c k) (locals : Locals) :
    ∃ u', run (doMakefs locals) u = some ((), u') ∧ Recovered s s' u' := by
  have intact' := (step_effect intact sane result).2
  have onCard : OnCard u.disk := by
    rcases intact.cut sane.1 changes result safe with kept | same
    · exact lost ▸ kept.onCard intact.onCard
    · exact lost ▸ same ▸ intact'.onCard
  obtain ⟨u', made, mounted, _, disk, _⟩ := onCard.mount locals
  refine ⟨u', made, mounted.recovered ?_⟩
  rw [disk, lost]
  rcases intact.cut sane.1 changes result safe with kept | same
  · exact .inl kept.tree
  · exact .inr (by rw [same])

theorem Exposed.loses (intact : Intact s) (exposed : Exposed s c k) :
    (∀ a, Beyond mapAddress mapSize a → (after k c.routine s).disk a = s.disk a) ∧
    ∃ f i n, Directory s.disk f ∧ f.toNat < inodeBound ∧ i < dentrysPerBlock ∧
      dirEntry s.disk f i = some n ∧
      bit (diskMap (after k c.routine s).disk) n.ino.toNat = false := by
  have late : ∀ {mode name}, Cleared s mode name k → ∃ l, k = l + 2 := by
    rintro mode name ⟨i, n, _, late, _⟩
    exact ⟨k - 2, by omega⟩
  cases c with
  | rm name locals =>
    cases name with
    | none => exact exposed.elim
    | some name =>
      have cleared : Cleared s file name k := exposed
      obtain ⟨l, rfl⟩ := late cleared
      rw [Command.routine, after_removeFile]
      exact cleared.loses intact (.inl rfl)
  | rmdir name locals =>
    cases name with
    | none => exact exposed.elim
    | some name =>
      obtain ⟨notDot, notDotDot, cleared⟩ := exposed
      obtain ⟨l, rfl⟩ := late cleared
      have notDots : ¬(name = dot ∨ name = dotDot) := by
        rintro (same | same)
        · exact notDot same
        · exact notDotDot same
      rw [Command.routine, after_removeDirectory, if_neg notDots]
      exact cleared.loses intact (.inr ⟨rfl, notDot, notDotDot⟩)
  | mkdir | touch | cd | ls | cat | fopen | fwrite | fseek => exact exposed.elim

/-- A crash between the two writes of a removal is not. -/
theorem Intact.not_survives (intact : Intact s) (lost : u.disk = (after k c.routine s).disk)
    (exposed : Exposed s c k) (locals : Locals) :
    ¬∃ u', run (doMakefs locals) u = some ((), u') ∧ Recovered s s' u' := by
  rintro ⟨u', made, recovered⟩
  obtain ⟨outside, f, i, n, directory, small, inside, live, clear⟩ := exposed.loses intact
  rw [← lost] at outside clear
  have field : ∀ {k}, k + 4 ≤ superblockSize →
      word u.disk (superblockAddress + k) = word s.disk (superblockAddress + k) := by
    intro k low
    apply word_congr
    intro l first last
    rw [outside _ (by
      simp only [Beyond, superblockAddress, superblockSize, mapAddress, mapSize] at *
      omega)]
    exact congrArg _ (by omega)
  obtain ⟨t, mount, _, disk, _⟩ := run_doMakefs_mount (s := u) locals
    ((field (k := 0) (by decide)).trans intact.onCard.magic)
    ((field (by decide)).trans intact.onCard.rootIno)
  rw [made] at mount
  have same := congrArg Prod.snd (Option.some.inj mount)
  dsimp only at same
  subst same
  have there : dirEntry u'.disk f i = some n := by
    rw [← live, disk]
    apply Same.dirEntry
    intro k low
    apply outside
    rw [blockAddress_eq small]
    simp only [Beyond, mapAddress, blockSize, dentrySize, inodeBound, dentrysPerBlock] at *
    omega
  have directory' : Directory u'.disk f := by
    rw [disk]
    exact directory.congr intact.sound outside
  have marked := (recovered.entries f i n directory' inside there).2.1
  rw [disk, clear] at marked
  cases marked

/-- In every session and after every step of every command that changes a directory: what is
mounted after a crash there is recovered exactly if no entry was left with a clear bit. -/
theorem crash_recovers (session : Session Sane s) (sane : Sane s c) (changes : ChangesDirectory c)
    (result : perform c s = some s') (lost : u.disk = (after k c.routine s).disk) :
    (∃ u', run (doMakefs locals) u = some ((), u') ∧ Recovered s s' u') ↔ ¬Exposed s c k := by
  have intact := session.intact
  constructor
  · intro recovered exposed
    exact intact.not_survives lost exposed locals recovered
  · intro safe
    exact intact.survives sane changes result lost safe locals

/-- While the first directory is made. -/
theorem crash_recovers_mkdir : ∃ s s' u u', perform (.mkdir (some nameA) blankLocals) s = some s' ∧
    u.disk = (after 5 (Command.mkdir (some nameA) blankLocals).routine s).disk ∧
    run (doMakefs blankLocals) u = some ((), u') ∧ Recovered s s' u' := by
  obtain ⟨start, made, formatted, _⟩ := run_doMakefs_format blankLocals blankSystem_blank
  have session : Session Sane start :=
    ⟨blankSystem, blankLocals, start, blankSystem_blank, made, .start⟩
  have sane : Sane start (.mkdir (some nameA) blankLocals) := ⟨formatted.fits (by decide), trivial⟩
  obtain ⟨s', result, _⟩ := formatted.intact.step sane.1 sane.2
  obtain ⟨u', mounted, recovered⟩ : ∃ u', run (doMakefs blankLocals)
      (after 5 (Command.mkdir (some nameA) blankLocals).routine start) = some ((), u') ∧
      Recovered start s' u' := (crash_recovers session sane trivial result rfl).mpr id
  exact ⟨start, s', _, u', result, rfl, mounted, recovered⟩

theorem Target.of_entry (inside : i < dentrysPerBlock) (here : dirEntry s.disk (cwdIno s) i = some n)
    (kind : n.mode = mode) (same : n.name = name.val) : ∃ j m, Target s mode name j m := by
  classical
  have found : ∃ j, j < dentrysPerBlock ∧ ∃ m, dirEntry s.disk (cwdIno s) j = some m ∧
      m.mode = mode ∧ m.name = name.val := ⟨i, inside, n, here, kind, same⟩
  obtain ⟨low, m, live, kind', same'⟩ := Nat.find_spec found
  refine ⟨Nat.find found, m, low, live, kind', same', fun j earlier e there kind same => ?_⟩
  exact Nat.find_min found earlier ⟨Nat.lt_trans earlier low, e, there, kind, same⟩

/-- A directory is made and taken away again, and the crash comes after the first sectors of
the map. -/
theorem rmdir_exposes : ¬∀ s c s' k u locals, Session Sane s → Sane s c → ChangesDirectory c →
    perform c s = some s' → u.disk = (after k c.routine s).disk →
    ∃ u', run (doMakefs locals) u = some ((), u') ∧ Recovered s s' u' := by
  intro recovers
  obtain ⟨start, s, cwd, f, i, n, formatted, created, isDir, same, session⟩ := session_mkdir
  have sane : Sane start (.mkdir (some nameA) blankLocals) := ⟨formatted.fits (by decide), trivial⟩
  have intact := created.intact formatted.intact
  obtain ⟨j, m, target⟩ := Target.of_entry created.room.inside created.listed isDir same
  have sane' : Sane s (.rmdir (some nameA) blankLocals) := ⟨trivial, trivial⟩
  obtain ⟨s', result, _⟩ := intact.step sane'.1 sane'.2
  obtain ⟨p, g, located, gDir, number⟩ := intact.cwd
  have small : m.ino.toNat < inodeBound := by
    have live := target.here
    rw [cwdIno, number] at live
    exact (entry_described intact.sound located gDir target.inside live).1
  have exposed : Exposed s (.rmdir (some nameA) blankLocals) (4 + m.ino.toNat / 0x1000) := by
    refine ⟨by decide, by decide, j, m, target, by omega, ?_⟩
    simp only [inodeBound] at small
    omega
  exact intact.not_survives rfl exposed blankLocals
    (recovers s _ s' _ _ blankLocals (session Sane sane) sane' trivial result rfl)

end Tina.Files
