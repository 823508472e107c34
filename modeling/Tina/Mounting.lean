import Tina.Paths

/-! `do_makefs`: making a file system on a card without one, and mounting one that is
there. -/
namespace Tina.Files

open ByteBuffer Atomic SlotTree

variable {s s' : FileSystem} {b map : Buffer} {i j k n o : Nat} {p : List Nat} {m : Node}
  {locals : Locals}

theorem superblockSector : sdAddress (fsSuperblockBase * sectorSize) = superblockAddress := by
  have number : fsSuperblockBase.toNat = 0xfdff7 := by decide
  rw [sectorAddress (by omega), number, superblockAddress]

/-- The first part of a sector is the superblock, the rest lands on the inode map. -/
theorem run_superblockRead : run superblockRead s = some ((), { s with
    superblock := copy s.superblock 0 s.disk superblockAddress superblockSize
    inodeMap := copy s.inodeMap 0 s.disk (superblockAddress + superblockSize)
      (blockSize - superblockSize) }) := by
  rw [superblockRead, run_change, superblockSector]

/-- The sector that `superblock_write` writes. -/
def superblockBytes (superblock map : Buffer) : Buffer :=
  copy (fun k => map (k - superblockSize)) 0 superblock 0 superblockSize

theorem superblockBytes_start (low : k < superblockSize) : superblockBytes b map k = b k := by
  rw [superblockBytes, copy_start low, Nat.zero_add]

theorem run_superblockWrite : run superblockWrite s = some ((), { s with
    disk := copy s.disk superblockAddress (superblockBytes s.superblock s.inodeMap) 0
      blockSize }) := by
  rw [superblockWrite, run_sectorWrite, superblockSector]
  rfl

theorem word_freshSuperblock : word (freshSuperblock b) offMagic = fsMagic ∧
    word (freshSuperblock b) offRootDirIno = rootDirIno := by
  simp only [freshSuperblock, offMagic, offRootDirIno]
  constructor
  · rw [word_setWord_other (by omega), word_setWord_other (by omega),
      word_setWord_other (by omega), word_setWord_other (by omega), word_setWord_other (by omega),
      word_setWord_other (by omega), word_setWord]
  · rw [word_setWord_other (by omega), word_setWord_other (by omega),
      word_setWord_other (by omega), word_setWord_other (by omega), word_setWord_other (by omega),
      word_setWord]

def zeroMap (map : Buffer) : Buffer :=
  (List.range 0x400).foldl (fun m i => setWord (4 * i) 0 m) map

theorem word_zeroLoop (small : j < n) :
    word ((List.range n).foldl (fun m i => setWord (4 * i) 0 m) map) (4 * j) = 0 := by
  induction n with
  | zero => exact absurd small (Nat.not_lt_zero j)
  | succ n ih =>
    rw [List.range_succ, List.foldl_append, List.foldl_cons, List.foldl_nil]
    by_cases last : j = n
    · subst j
      exact word_setWord
    · rw [word_setWord_other (by omega), ih (by omega)]

theorem bit_zeroMap (small : o < inodeBound) : bit (zeroMap map) o = false := by
  rw [bit, zeroMap, word_zeroLoop (by simp only [inodeBound] at small; omega)]
  exact BitVec.getLsbD_zero

/-- In an empty map the first number is free. -/
theorem search_clear (clear : ∀ o < inodeBound, bit map o = false) :
    bitmapSearch map 0 inodeBound = (0 : Nat) := by
  rcases @bitmapSearch_spec map 0 inodeBound (.inl rfl) (by decide) with
    ⟨_, none⟩ | ⟨o, small, search, _, least⟩
  · exact absurd (clear 0 (by decide)) (none 0 (by decide))
  · cases o with
    | zero => exact search
    | succ o => exact absurd (clear 0 (by decide)) (least 0 (Nat.succ_pos o))

/-- What a new file system has on its card. -/
structure Formatted (s : FileSystem) : Prop where
  root : Fresh s.disk rootDirIno rootDirIno
  table : Described s.disk rootNode rootDirIno
  marks : ∀ o < inodeBound, bit s.inodeMap o = decide (o = 0)
  map : ∀ k < mapSize, s.disk (mapAddress + k) = s.inodeMap k
  superblock : ∀ k < superblockSize, s.disk (superblockAddress + k) = s.superblock k
  magic : word s.superblock offMagic = fsMagic
  rootIno : word s.superblock offRootDirIno = rootDirIno
  shell : ∀ k < inodeSize, s.shellPathInode k = s.disk (tableAddress rootDirIno + k)

/-- Nothing but the root is reached. -/
theorem Formatted.locate (formatted : Formatted s) (located : locate s.disk p = some m) :
    p = [] ∧ m = rootNode := by
  cases p with
  | nil =>
    cases located
    exact ⟨rfl, rfl⟩
  | cons i p =>
    have empty : ∀ i, Files.locate s.disk [i] = none := by
      intro i
      rw [Files.locate, Files.locate, Option.bind_some]
      split
      next inside => exact formatted.root.free i inside.2.1 inside.2.2
      · rfl
    have top : [(i :: p).getLast (by simp)] <:+ i :: p :=
      ⟨(i :: p).dropLast, List.dropLast_append_getLast _⟩
    rw [locate_closed.below (empty _) top] at located
    cases located

/-- A new file system is intact. -/
theorem Formatted.intact (formatted : Formatted s) : Intact s := by
  have bits : ∀ o < inodeBound, bit (diskMap s.disk) o = decide (o = 0) := by
    intro o low
    rw [← formatted.marks o low]
    exact bit_congr formatted.map low
  have sound : Sound s.disk := by
    constructor
    · intro p n located
      rw [(formatted.locate located).2]
      decide
    · intro p n located
      rw [(formatted.locate located).2]
      exact .inr rfl
    · intro p q n m here there _
      rw [(formatted.locate here).1, (formatted.locate there).1]
    · intro p n located
      rw [(formatted.locate located).2]
      exact bits 0 (by decide)
    · intro p n f here there
      rw [(formatted.locate here).2, (formatted.locate there).2]
      exact formatted.table
    · intro p n f here _ there
      rw [(formatted.locate here).2, (formatted.locate there).2]
      exact formatted.root.dots
    · intro p n i m here _ inside live
      rw [(formatted.locate here).2] at live ⊢
      by_cases first : i < 2
      · exact formatted.root.named i first
      · have free : dirEntry s.disk rootNode.ino i = none :=
          formatted.root.free i (by omega) inside
        rw [free] at live
        cases live
  have holds : Holds s.disk s.shellPathInode [] := ⟨rootNode, rfl, rfl, formatted.shell⟩
  obtain ⟨g, there, isDir, number⟩ := holds.ino sound
  exact ⟨sound, formatted.map, formatted.superblock, formatted.magic, formatted.rootIno,
    [], g, there, isDir, number⟩

theorem run_mount (rootIno : word s.superblock offRootDirIno = rootDirIno) :
    ∃ head, run mount s = some ((), { s with
      shellPathInode := copy s.shellPathInode 0 s.disk (tableAddress rootDirIno) inodeSize
      shellPathHead := head }) := by
  have small : rootDirIno.toNat < inodeBound := by decide
  refine ⟨strcpy 0 (cstring (copy s.shellPathInode 0 s.disk (tableAddress rootDirIno) inodeSize)
    0 inodeSize) s.shellPathHead, ?_⟩
  rw [mount, run_then run_rootIno, rootIno, run_then (run_inodeRead small)]
  rfl

/-- The card after formatting. -/
def formattedDisk (d map block inode sb : Buffer) : Buffer :=
  let d := copy d mapAddress map 0 mapSize
  let d := copy d (blockAddress rootDirIno) block 0 blockSize
  let d := copy d (tableAddress rootDirIno) inode 0 inodeSize
  let d := copy d superblockAddress sb 0 blockSize
  copy d mapAddress map 0 mapSize

section FormattedDisk

variable {d block inode sb : Buffer}

theorem formattedDisk_map (low : k < mapSize) :
    formattedDisk d map block inode sb (mapAddress + k) = map k := by
  rw [formattedDisk, copy_inside low, Nat.zero_add]

theorem formattedDisk_superblock (low : k < blockSize) :
    formattedDisk d map block inode sb (superblockAddress + k) = sb k := by
  rw [formattedDisk, copy_outside, copy_inside low, Nat.zero_add]
  simp only [superblockAddress, mapAddress, blockSize] at *
  omega

theorem formattedDisk_table (low : k < inodeSize) :
    formattedDisk d map block inode sb (tableAddress rootDirIno + k) = inode k := by
  have number : rootDirIno.toNat = 0 := by decide
  rw [formattedDisk, copy_outside, copy_outside, copy_inside low, Nat.zero_add]
  · simp only [superblockAddress, tableAddress, inodeSize, blockSize, number] at *
    omega
  · simp only [mapAddress, mapSize, tableAddress, inodeSize, number] at *
    omega

theorem formattedDisk_block (low : k < blockSize) :
    formattedDisk d map block inode sb (blockAddress rootDirIno + k) = block k := by
  have small : rootDirIno.toNat < inodeBound := by decide
  have number : rootDirIno.toNat = 0 := by decide
  simp only [formattedDisk, blockAddress_eq small, number]
  rw [copy_outside, copy_outside, copy_outside, copy_inside low, Nat.zero_add]
  all_goals
    simp only [superblockAddress, mapAddress, tableAddress, blockSize, number] at *
    omega

end FormattedDisk

@[simp] theorem run_superblockInit : run superblockInit s =
    some ((), { s with superblock := freshSuperblock s.superblock }) := (rfl)

@[simp] theorem run_inodeMapInit : run inodeMapInit s =
    some ((), { s with inodeMap := zeroMap s.inodeMap }) := (rfl)

/-- `do_makefs` on a card without the magic number makes a new file system. -/
theorem run_doMakefs_format (locals : Locals) (blank : word s.disk superblockAddress ≠ fsMagic) :
    ∃ s', run (doMakefs locals) s = some ((), s') ∧ Formatted s' ∧ s'.fdIndex = s.fdIndex := by
  have read : word (copy s.superblock 0 s.disk superblockAddress superblockSize) offMagic =
      word s.disk superblockAddress := word_copy_start (by decide)
  have other : word (copy s.superblock 0 s.disk superblockAddress superblockSize) offMagic ≠
      fsMagic := by
    rw [read]
    exact blank
  have small : rootDirIno.toNat < inodeBound := by decide
  have positive : 0 < inodeBound := by decide
  have first : ¬BitVec.ofNat 32 0 ≠ 0 := by decide
  obtain ⟨clear, isClear⟩ : ∃ clear, zeroMap (copy s.inodeMap 0 s.disk
    (superblockAddress + superblockSize) (blockSize - superblockSize)) = clear := ⟨_, rfl⟩
  obtain ⟨sb, isSb⟩ : ∃ sb, freshSuperblock
    (copy s.superblock 0 s.disk superblockAddress superblockSize) = sb := ⟨_, rfl⟩
  have fields : word sb offMagic = fsMagic ∧ word sb offRootDirIno = rootDirIno :=
    isSb ▸ word_freshSuperblock
  have search : bitmapSearch clear 0 inodeBound = (0 : Nat) := isClear ▸ search_clear fun _ low => bit_zeroMap low
  have alloc := run_inodeAlloc (s := { s with superblock := sb, inodeMap := clear }) (o := 0)
    positive search
  obtain ⟨map, isMap⟩ : ∃ map, bitmapModify clear 1 (0 : Nat) = map := ⟨_, rfl⟩
  have marks : ∀ o < inodeBound, bit map o = decide (o = 0) := by
    intro o low
    rw [← isMap, bit_bitmapModify (.inr rfl), ← isClear, bit_zeroMap low]
    by_cases zero : o = 0
    · simp [zero]
    · simp [zero]
  obtain ⟨d, isDisk⟩ : ∃ d, formattedDisk s.disk map
    (newBlock dir rootDirIno rootDirIno locals.block)
    (inodeInit rootDirIno dir tilde rootDirIno locals.timer locals.inode)
    (superblockBytes sb map) = d := ⟨_, rfl⟩
  obtain ⟨head, mounted⟩ := @run_mount { s with superblock := sb, inodeMap := map, disk := d }
    fields.2
  refine ⟨{ s with
    superblock := sb
    inodeMap := map
    disk := d
    shellPathInode := copy s.shellPathInode 0 d (tableAddress rootDirIno) inodeSize
    shellPathHead := head }, ?_, ?_, by simp only⟩
  · rw [doMakefs, run_then run_superblockRead, run_then run_read, if_neg other,
      run_then run_superblockInit, isSb, run_then run_inodeMapInit, isClear, run_then alloc, isMap,
      if_neg first, run_then (run_inodeCreate (by decide) small), run_then run_superblockWrite,
      run_then run_inodeMapWrite]
    subst isDisk
    exact mounted
  · have block : ∀ k < blockSize, d (blockAddress rootDirIno + k) =
        freshDirBlock rootDirIno rootDirIno locals.block k := by
      intro k low
      rw [← isDisk, formattedDisk_block low, newBlock, if_pos rfl]
    have mapBytes : ∀ k < mapSize, d (mapAddress + k) = map k := by
      intro k low
      rw [← isDisk, formattedDisk_map low]
    have sbBytes : ∀ k < superblockSize, d (superblockAddress + k) = sb k := by
      intro k low
      rw [← isDisk, formattedDisk_superblock (Nat.lt_trans low (by decide)),
        superblockBytes_start low]
    have live : rootDirIno ≠ noIno := by decide
    obtain ⟨self, parent, rest⟩ := @freshDirBlock_entries locals.block _ _ live live
    obtain ⟨number, kind, above⟩ := @inodeInit_fields locals.inode rootDirIno dir rootDirIno
      locals.timer tilde (by decide)
    have table : ∀ {k}, k + 4 ≤ inodeSize → word d (tableAddress rootDirIno + k) =
        word (inodeInit rootDirIno dir tilde rootDirIno locals.timer locals.inode) k := by
      intro k low
      apply word_congr
      intro l first last
      obtain ⟨e, rfl⟩ := Nat.exists_eq_add_of_le first
      rw [Nat.add_assoc, ← isDisk, formattedDisk_table (by omega)]
      exact congrArg _ (by omega)
    constructor
    · constructor
      · exact ⟨(dirEntry_of_block block (by decide)).trans self,
          (dirEntry_of_block block (by decide)).trans parent⟩
      · intro i low
        exact named_of_block block (by simp only [dentrysPerBlock]; omega) (freshDirBlock_named low)
      · intro i slot low
        exact (dirEntry_of_block block low).trans (rest i slot low)
    · exact ⟨(table (by decide)).trans number, (table (by decide)).trans kind,
        (table (by decide)).trans above⟩
    · exact marks
    · exact mapBytes
    · exact sbBytes
    · exact fields.1
    · exact fields.2
    · intro k low
      exact copy_start low

end Tina.Files
