import Tina.Intact

/-! What `make_directory` and `touch_file` do: the bytes they write, and that these add
one node to the tree. -/
namespace Tina.Files

open ByteBuffer Atomic SlotTree

variable {s : FileSystem} {b db inode : Buffer} {ino mode father timer : Word} {name : CString}
  {i j k n bound : Nat} {locals : Locals}

/-- Entries only depend on their own bytes. -/
theorem setDentry_outside (short : name.val.length < 24)
    (outside : Beyond (dentrySize * i) dentrySize k) : setDentry i ino mode name db k = db k := by
  simp only [Beyond, dentrySize] at outside
  simp only [setDentry, dentryName, dentrySize, offDentryMode, offDentryName]
  rw [strcpy_outside (by omega), setWord_outside (by omega), setWord_outside (by omega)]

theorem setDentry_entry (short : name.val.length < 24) (live : ino ≠ noIno) :
    entry (setDentry i ino mode name db) 0 i = some ⟨ino, mode, name.val⟩ := by
  have number : word (setDentry i ino mode name db) (0 + dentrySize * i) = ino := by
    simp only [setDentry, dentryName, dentrySize, offDentryMode, offDentryName, Nat.zero_add]
    rw [word_strcpy_other (by omega), word_setWord_other (by omega), word_setWord]
  have kind : word (setDentry i ino mode name db) (0 + dentrySize * i + offDentryMode) = mode := by
    simp only [setDentry, dentryName, dentrySize, offDentryMode, offDentryName, Nat.zero_add]
    rw [word_strcpy_other (by omega), word_setWord]
  have text : cstring (setDentry i ino mode name db) (0 + dentrySize * i + offDentryName) 24 =
      name.val := by
    rw [Nat.zero_add]
    exact cstring_strcpy short name.property
  rw [entry, if_neg (by rw [number]; exact live), number, kind, text]

theorem setDentry_named (short : name.val.length < 24) :
    Terminated (setDentry i ino mode name db) (dentrySize * i + offDentryName) 24 :=
  strcpy_terminated short

/-- Another slot keeps its entry. -/
theorem setDentry_other (short : name.val.length < 24) (other : j ≠ i) :
    entry (setDentry i ino mode name db) 0 j = entry db 0 j := by
  apply entry_congr
  intro k small
  apply setDentry_outside short
  simp only [Beyond, dentrySize] at *
  omega

theorem word_freeDentries (small : j < n) :
    word ((List.range n).foldl (fun d i => setWord (dentrySize * i) noIno d) db) (dentrySize * j) =
      noIno := by
  induction n with
  | zero => exact absurd small (Nat.not_lt_zero j)
  | succ n ih =>
    rw [List.range_succ, List.foldl_append, List.foldl_cons, List.foldl_nil]
    by_cases last : j = n
    · subst j
      exact word_setWord
    · rw [word_setWord_other (by simp only [dentrySize]; omega), ih (by omega)]

theorem freeDentries_entry (inside : i < dentrysPerBlock) : entry (freeDentries db) 0 i = none := by
  rw [entry, Nat.zero_add, freeDentries, if_pos (word_freeDentries inside)]

/-- A new directory holds itself and its father. -/
theorem freshDirBlock_entries (live : ino ≠ noIno) (fatherLive : father ≠ noIno) :
    entry (freshDirBlock ino father db) 0 0 = some ⟨ino, dir, dot.val⟩ ∧
    entry (freshDirBlock ino father db) 0 1 = some ⟨father, dir, dotDot.val⟩ ∧
    ∀ i, 2 ≤ i → i < dentrysPerBlock → entry (freshDirBlock ino father db) 0 i = none := by
  refine ⟨?_, setDentry_entry (by decide) fatherLive, fun i slot inside => ?_⟩
  · rw [freshDirBlock, setDentry_other (by decide) (by decide)]
    exact setDentry_entry (by decide) live
  · rw [freshDirBlock, setDentry_other (by decide) (by omega),
      setDentry_other (by decide) (by omega)]
    exact freeDentries_entry inside

theorem freshDirBlock_named (first : i < 2) :
    Terminated (freshDirBlock ino father db) (dentrySize * i + offDentryName) 24 := by
  have slots : i = 0 ∨ i = 1 := by omega
  rcases slots with rfl | rfl
  · have named : Terminated (setDentry 0 ino dir dot (freeDentries db))
        (dentrySize * 0 + offDentryName) 24 := setDentry_named (by decide)
    apply Terminated.congr named
    intro k small
    apply Eq.symm
    apply setDentry_outside (by decide)
    simp only [Beyond, dentrySize, offDentryName]
    omega
  · exact setDentry_named (by decide)

/-- The fields of a new inode, when its name leaves them alone. -/
theorem inodeInit_fields (short : name.val.length < 32) :
    word (inodeInit ino mode name father timer inode) offIno = ino ∧
    word (inodeInit ino mode name father timer inode) offMode = mode ∧
    word (inodeInit ino mode name father timer inode) offFatherIno = father := by
  simp only [inodeInit, offIno, offMode, offFatherIno, offTimestamp, offSize, offPtr]
  refine ⟨?_, ?_, ?_⟩
  · rw [word_setWord_other (by omega), word_setWord_other (by omega),
      word_setWord_other (by omega), word_strcpy_other (by omega), word_setWord_other (by omega),
      word_setWord]
  · rw [word_setWord_other (by omega), word_setWord_other (by omega),
      word_setWord_other (by omega), word_strcpy_other (by omega), word_setWord]
  · rw [word_setWord_other (by omega), word_setWord_other (by omega),
      word_setWord_other (by omega), word_strcpy_other (by omega), word_setWord_other (by omega),
      word_setWord_other (by omega), word_setWord]

/-- What `dir_init` or `file_init` writes. -/
def newBlock (mode ino father : Word) (block : Buffer) : Buffer :=
  if mode = dir then freshDirBlock ino father block else setWord 0 0 block

theorem run_inodeCreate (short : name.val.length < 32) (small : ino.toNat < inodeBound) :
    run (inodeCreate ino mode name father locals) s = some ((), { s with
      disk := copy (copy s.disk (blockAddress ino) (newBlock mode ino father locals.block) 0 blockSize)
        (tableAddress ino) (inodeInit ino mode name father locals.timer locals.inode) 0 inodeSize }) := by
  obtain ⟨number, kind, above⟩ := @inodeInit_fields locals.inode ino mode father locals.timer name short
  have fits : ¬inodeSize ≤ name.val.length := by
    simp only [inodeSize]
    omega
  rw [inodeCreate, if_neg fits]
  simp only [kind]
  by_cases isDir : mode = dir
  · rw [if_pos isDir, dirInit, number, above, run_then run_dirBlockWrite, run_inodeWrite small,
      newBlock, if_pos isDir]
  · rw [if_neg isDir, fileInit, number, run_then run_fileBlockWrite, run_inodeWrite small,
      newBlock, if_neg isDir]

/-- The card after a creation: the map, the new block, the new inode, the directory. -/
def createdDisk (d map block inode db : Buffer) (ino father : Word) : Buffer :=
  let d := copy d mapAddress map 0 mapSize
  let d := copy d (blockAddress ino) block 0 blockSize
  let d := copy d (tableAddress ino) inode 0 inodeSize
  copy d (blockAddress father) db 0 blockSize

/-- The current directory as a command reads it. -/
def cwdBlock (s : FileSystem) (stack : Buffer) : Buffer :=
  copy stack 0 s.disk (blockAddress (word s.shellPathInode offIno)) blockSize

theorem run_createEntry {o : Nat} (short : name.val.length < 24) (small : o < inodeBound)
    (search : bitmapSearch s.inodeMap 0 inodeBound = o)
    (slot : freeSlot (cwdBlock s locals.db) bound = i) (inside : i < dentrysPerBlock)
    (shell : word s.shellPathInode offIno = father) (number : ino = BitVec.ofNat 32 o) :
    ∃ s', run (createEntry bound mode name locals) s = some ((), s') ∧
      s'.inodeMap = bitmapModify s.inodeMap 1 o ∧
      s'.disk = createdDisk s.disk (bitmapModify s.inodeMap 1 o)
        (newBlock mode ino father locals.block)
        (inodeInit ino mode name father locals.timer locals.inode)
        (setDentry i ino mode name (cwdBlock s locals.db)) ino father ∧
      s' = { s with disk := s'.disk, inodeMap := s'.inodeMap } := by
  subst number
  have smallWord : (BitVec.ofNat 32 o).toNat < inodeBound := by
    rw [BitVec.toNat_ofNat]
    simp only [inodeBound] at *
    omega
  have fits : i < dentrysPerBlock ∧ dentryName i + name.val.length < blockSize := by
    simp only [dentryName, dentrySize, offDentryName, blockSize, dentrysPerBlock] at *
    omega
  refine ⟨{ s with
    inodeMap := bitmapModify s.inodeMap 1 o
    disk := createdDisk s.disk (bitmapModify s.inodeMap 1 o)
      (newBlock mode (BitVec.ofNat 32 o) father locals.block)
      (inodeInit (BitVec.ofNat 32 o) mode name father locals.timer locals.inode)
      (setDentry i (BitVec.ofNat 32 o) mode name (cwdBlock s locals.db)) (BitVec.ofNat 32 o)
      father }, ?_, by simp only, by simp only, by simp only⟩
  subst shell
  rw [cwdBlock] at slot
  rw [createEntry, run_then run_shellPathIno, run_then run_dirBlockRead, slot,
    run_then (run_inodeAlloc small search), run_then run_shellPathIno,
    run_then (run_inodeCreate (by omega) smallWord), if_pos fits, run_then run_shellPathIno,
    run_dirBlockWrite]
  rfl

/-- A block on the card has the entries of the buffer it was written from. -/
theorem dirEntry_of_block {d b : Buffer}
    (block : ∀ k < blockSize, d (blockAddress ino + k) = b k) (inside : i < dentrysPerBlock) :
    dirEntry d ino i = entry b 0 i := by
  apply entry_congr
  intro k low
  rw [Nat.add_assoc, block _ (by simp only [dentrySize, blockSize, dentrysPerBlock] at *; omega),
    Nat.zero_add]

theorem named_of_block {d b : Buffer}
    (block : ∀ k < blockSize, d (blockAddress ino + k) = b k) (inside : i < dentrysPerBlock)
    (named : Terminated b (dentrySize * i + offDentryName) 24) : Named d ino i := by
  apply Terminated.congr named
  intro k low
  have byte := block (dentrySize * i + offDentryName + k) (by
    simp only [dentrySize, blockSize, dentrysPerBlock, offDentryName] at *
    omega)
  rw [← byte, Nat.add_assoc (blockAddress ino), Nat.add_assoc (blockAddress ino)]

section CreatedDisk

variable {d map block : Buffer} (small : ino.toNat < inodeBound)
  (smallF : father.toNat < inodeBound)

theorem createdDisk_dir (inside : k < blockSize) :
    createdDisk d map block inode db ino father (blockAddress father + k) = db k := by
  rw [createdDisk, copy_inside inside, Nat.zero_add]

theorem createdDisk_outside (notMap : Beyond mapAddress mapSize k)
    (notBlock : Beyond (blockAddress ino) blockSize k)
    (notTable : Beyond (tableAddress ino) inodeSize k)
    (notDir : Beyond (blockAddress father) blockSize k) :
    createdDisk d map block inode db ino father k = d k := by
  rw [createdDisk, copy_outside notDir, copy_outside notTable, copy_outside notBlock,
    copy_outside notMap]

include small smallF

theorem createdDisk_map (inside : k < mapSize) :
    createdDisk d map block inode db ino father (mapAddress + k) = map k := by
  simp only [createdDisk, blockAddress_eq small, blockAddress_eq smallF]
  simp only [mapSize, inodeBound] at *
  rw [copy_outside, copy_outside, copy_outside, copy_inside inside, Nat.zero_add]
  all_goals
    simp only [mapAddress, tableAddress, blockSize, inodeSize]
    omega

theorem createdDisk_table (inside : k < inodeSize) :
    createdDisk d map block inode db ino father (tableAddress ino + k) = inode k := by
  simp only [createdDisk, blockAddress_eq small, blockAddress_eq smallF]
  rw [copy_outside, copy_inside inside, Nat.zero_add]
  simp only [tableAddress, blockSize, inodeSize, inodeBound] at *
  omega

theorem createdDisk_block (other : ino ≠ father) (inside : k < blockSize) :
    createdDisk d map block inode db ino father (blockAddress ino + k) = block k := by
  have apart := toNat_ne other
  simp only [createdDisk, blockAddress_eq small, blockAddress_eq smallF]
  rw [copy_outside, copy_outside, copy_inside inside, Nat.zero_add]
  · simp only [tableAddress, blockSize, inodeBound] at *
    omega
  · simp only [blockSize] at *
    omega

/-- A creation adds one node. -/
theorem createdDisk_grafted {junk : Buffer} (other : ino ≠ father)
    (kind : mode = file ∨ mode = dir) (short : name.val.length < 24)
    (inside : i < dentrysPerBlock) (dirBlock : ∀ k < blockSize, db k = d (blockAddress father + k))
    (marks : ∀ o < inodeBound, bit map o = if o = ino.toNat then true else bit (diskMap d) o) :
    Grafted d (createdDisk d map (newBlock mode ino father junk)
      (inodeInit ino mode name father timer inode) (setDentry i ino mode name db) ino father)
      father i ⟨ino, mode, name.val⟩ := by
  have live : ∀ {v : Word}, v.toNat < inodeBound → v ≠ noIno := by
    intro v low same
    subst same
    exact absurd low (by decide)
  obtain ⟨number, kind', above⟩ := @inodeInit_fields inode ino mode father timer name (by omega)
  constructor
  · intro k notMap notBlock notTable notSlot
    by_cases notDir : Beyond (blockAddress father) blockSize k
    · exact createdDisk_outside notMap notBlock notTable notDir
    · obtain ⟨j, rfl⟩ : ∃ j, k = blockAddress father + j := by
        apply Nat.exists_eq_add_of_le
        simp only [Beyond] at notDir
        omega
      have within : j < blockSize := by
        simp only [Beyond] at notDir
        omega
      rw [createdDisk_dir within, setDentry_outside short, dirBlock j within]
      simp only [Beyond] at *
      omega
  · rw [dirEntry_of_block (fun k low => createdDisk_dir low) inside]
    exact setDentry_entry short (live small)
  · exact named_of_block (fun k low => createdDisk_dir low) inside (setDentry_named short)
  · intro o low
    rw [← marks o low]
    exact bit_congr (fun k low => createdDisk_map small smallF low) low
  · have table : ∀ {k}, k + 4 ≤ inodeSize →
        word (createdDisk d map (newBlock mode ino father junk)
          (inodeInit ino mode name father timer inode) (setDentry i ino mode name db) ino father)
          (tableAddress ino + k) = word (inodeInit ino mode name father timer inode) k := by
      intro k low
      apply word_congr
      intro l first last
      obtain ⟨e, rfl⟩ := Nat.exists_eq_add_of_le first
      rw [Nat.add_assoc, createdDisk_table small smallF (by omega)]
      congr 1
      omega
    exact ⟨(table (by decide)).trans number, (table (by decide)).trans kind',
      (table (by decide)).trans above⟩
  · intro isDir
    change mode = dir at isDir
    subst isDir
    have block : ∀ k < blockSize, createdDisk d map (newBlock dir ino father junk)
        (inodeInit ino dir name father timer inode) (setDentry i ino dir name db) ino father
        (blockAddress ino + k) = freshDirBlock ino father junk k := by
      intro k low
      rw [createdDisk_block small smallF other low, newBlock, if_pos rfl]
    obtain ⟨first, second, rest⟩ := @freshDirBlock_entries junk ino father (live small) (live smallF)
    constructor
    · exact ⟨(dirEntry_of_block block (by decide)).trans first,
        (dirEntry_of_block block (by decide)).trans second⟩
    · intro j low
      exact named_of_block block (by simp only [dentrysPerBlock]; omega) (freshDirBlock_named low)
    · intro j slot low
      rw [dirEntry_of_block block low]
      exact rest j slot low

end CreatedDisk

end Tina.Files
