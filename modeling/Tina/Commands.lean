import Tina.Creation

/-! The file commands on a file system whose card is sound: what each of them finds and
what it changes. -/
namespace Tina.Files

open ByteBuffer Atomic SlotTree

variable {s s' : FileSystem} {b stack : Buffer} {ino mode : Word} {name : CString}
  {i j k bound : Nat} {p q cwd : List Nat} {n m f : Node} {locals : Locals}

/-- Memory and card agree, and the shell is in a directory reached from the root. -/
structure Intact (s : FileSystem) : Prop where
  sound : Sound s.disk
  map : ∀ k < mapSize, s.disk (mapAddress + k) = s.inodeMap k
  superblock : ∀ k < superblockSize, s.disk (superblockAddress + k) = s.superblock k
  magic : word s.superblock offMagic = fsMagic
  rootIno : word s.superblock offRootDirIno = rootDirIno
  cwd : ∃ p n, locate s.disk p = some n ∧ n.mode = dir ∧ word s.shellPathInode offIno = n.ino

def cwdIno (s : FileSystem) : Word := word s.shellPathInode offIno

/-- What holds before the file system is mounted, too. -/
structure Standing (s : FileSystem) : Prop where
  sound : Sound s.disk
  rootIno : word s.superblock offRootDirIno = rootDirIno
  cwd : ∃ p n, locate s.disk p = some n ∧ n.mode = dir ∧ cwdIno s = n.ino

theorem Intact.standing (intact : Intact s) : Standing s :=
  ⟨intact.sound, intact.rootIno, intact.cwd⟩

theorem entry_none : entry b 0 i = none ↔ dentryIno b i = noIno := by
  rw [entry, dentryIno, Nat.zero_add]
  by_cases free : word b (dentrySize * i) = noIno
  · simp [free]
  · simp [free]

theorem entry_some (live : entry b 0 i = some n) :
    dentryIno b i = n.ino ∧ dentryMode b i = n.mode ∧ cstring b (dentryName i) 24 = n.name := by
  rw [entry, Nat.zero_add] at live
  split at live
  · cases live
  · cases live
    exact ⟨rfl, rfl, rfl⟩

/-- The block of a directory as it is read into a local object. -/
theorem entry_read (stack : Buffer) (inside : i < dentrysPerBlock) :
    entry (copy stack 0 s.disk (blockAddress ino) blockSize) 0 i = dirEntry s.disk ino i := by
  apply Eq.symm
  apply dirEntry_of_block _ inside
  intro k low
  exact (copy_start low).symm

theorem named_read (named : Named s.disk ino i) (inside : i < dentrysPerBlock) :
    Terminated (copy stack 0 s.disk (blockAddress ino) blockSize) (dentryName i) 24 := by
  apply Terminated.congr named
  intro k low
  rw [dentryName, copy_start (by
    simp only [dentrySize, offDentryName, blockSize, dentrysPerBlock] at *
    omega)]
  simp only [Nat.add_assoc]

/-- Comparing the name of a live entry with a string. -/
theorem strcmp_read (stack : Buffer) {text : List Byte} (named : Named s.disk ino i)
    (inside : i < dentrysPerBlock) (live : dirEntry s.disk ino i = some n) (noNul : ∀ c ∈ text, c ≠ 0) :
    strcmp (copy stack 0 s.disk (blockAddress ino) blockSize) (dentryName i) text = 0 ↔
      n.name = text := by
  rw [← entry_read stack inside] at live
  rw [strcmp_eq_zero (named_read named inside) noNul, (entry_some live).2.2]

/-- What the loops of `rm`, `rmdir`, `cat` and `sys_fopen` look for. -/
theorem matchesEntry_read (stack : Buffer)
    (named : ∀ n, dirEntry s.disk ino i = some n → Named s.disk ino i)
    (inside : i < dentrysPerBlock) :
    matchesEntry (copy stack 0 s.disk (blockAddress ino) blockSize) mode name i = true ↔
      ∃ n, dirEntry s.disk ino i = some n ∧ n.mode = mode ∧ n.name = name.val := by
  have read := @entry_read s ino i stack inside
  rw [matchesEntry]
  cases live : dirEntry s.disk ino i with
  | none =>
    rw [live, entry_none] at read
    simp [read]
  | some n =>
    rw [live] at read
    obtain ⟨number, kind, _⟩ := entry_some read
    have other := dirEntry_live live
    have compare := strcmp_read stack (named n live) inside live name.property
    simp [number, kind, other, compare]

/-- What they look for in the current directory. -/
theorem Standing.matches (stack : Buffer) (standing : Standing s) (inside : i < dentrysPerBlock) :
    matchesEntry (cwdBlock s stack) mode name i = true ↔
      ∃ n, dirEntry s.disk (cwdIno s) i = some n ∧ n.mode = mode ∧ n.name = name.val := by
  obtain ⟨cwd, f, located, isDir, shell⟩ := standing.cwd
  rw [cwdBlock, ← cwdIno, shell]
  exact matchesEntry_read stack (fun n live => standing.sound.named located isDir inside live)
    inside

/-- Room for one more entry: a name that fits, a free dentry and a free inode. -/
structure CreationFits (s : FileSystem) (name : CString) : Prop where
  short : name.val.length ≤ 23
  slot : ∃ i < dentrysPerBlock, dirEntry s.disk (cwdIno s) i = none
  inode : ∃ o < inodeBound, bit s.inodeMap o = false

/-- What a creation leaves: a node in the first free slot of the current directory. -/
structure Created (s : FileSystem) (cwd : List Nat) (f : Node) (i : Nat) (n : Node)
    (s' : FileSystem) : Prop where
  shell : cwdIno s = f.ino
  room : Room s.disk cwd f i n
  first : ∀ j < i, dirEntry s.disk f.ino j ≠ none
  least : ∀ o < n.ino.toNat, bit s.inodeMap o = true
  grafted : Grafted s.disk s'.disk f.ino i n
  empty : n.mode = file → ∀ k < 4, s'.disk (blockAddress n.ino + k) = 0
  map : ∀ k < mapSize, s'.disk (mapAddress + k) = s'.inodeMap k
  rest : s' = { s with disk := s'.disk, inodeMap := s'.inodeMap }

/-- The shell stays where it was. -/
theorem Created.stays (created : Created s cwd f i n s') : cwdIno s' = f.ino := by
  rw [created.rest]
  exact created.shell

theorem Created.listed (created : Created s cwd f i n s') :
    dirEntry s'.disk (cwdIno s') i = some n := by
  rw [created.stays]
  exact created.grafted.here

theorem Intact.bits (intact : Intact s) {o : Nat} (small : o < inodeBound) :
    bit (diskMap s.disk) o = bit s.inodeMap o :=
  bit_congr intact.map small

theorem Intact.free_slot (intact : Intact s) (located : locate s.disk cwd = some f)
    (isDir : f.mode = dir) (free : dirEntry s.disk f.ino i = none) : 2 ≤ i := by
  obtain ⟨g, above, _⟩ := locate_tail located
  have dots := intact.sound.dots located isDir above
  have notFirst : i ≠ 0 := by
    rintro rfl
    rw [dots.self] at free
    cases free
  have notSecond : i ≠ 1 := by
    rintro rfl
    rw [dots.parent] at free
    cases free
  omega

/-- Where a creation puts its entry, and the number it takes: the first free ones. -/
structure Place (s : FileSystem) (stack : Buffer) (bound : Nat) (cwd : List Nat) (f : Node)
    (i o : Nat) : Prop where
  cwd : locate s.disk cwd = some f
  isDir : f.mode = dir
  shell : cwdIno s = f.ino
  slot : freeSlot (cwdBlock s stack) bound = i
  inside : i < dentrysPerBlock
  free : dirEntry s.disk f.ino i = none
  first : ∀ j < i, dirEntry s.disk f.ino j ≠ none
  small : o < inodeBound
  search : bitmapSearch s.inodeMap 0 inodeBound = o
  clear : bit s.inodeMap o = false
  least : ∀ p < o, bit s.inodeMap p = true

theorem Intact.place (stack : Buffer) (intact : Intact s) (fits : CreationFits s name)
    (wide : dentrysPerBlock ≤ bound) : ∃ cwd f i o, Place s stack bound cwd f i o := by
  obtain ⟨cwd, f, located, isDir, shell⟩ := intact.cwd
  have reads : ∀ j < dentrysPerBlock, (decide (dentryIno (cwdBlock s stack) j = noIno) = true ↔
      dirEntry s.disk f.ino j = none) := by
    intro j inside
    rw [decide_eq_true_iff, ← entry_none, cwdBlock, entry_read _ inside, shell]
  obtain ⟨j, inside, isFree⟩ := fits.slot
  rw [cwdIno, shell] at isFree
  have stops : freeSlot (cwdBlock s stack) dentrysPerBlock < dentrysPerBlock :=
    scan_lt inside ((reads j inside).mpr isFree)
  have slot : freeSlot (cwdBlock s stack) bound = freeSlot (cwdBlock s stack) dentrysPerBlock :=
    scan_longer stops wide
  obtain ⟨here, before⟩ := scan_stops stops
  have first : ∀ j < freeSlot (cwdBlock s stack) dentrysPerBlock,
      dirEntry s.disk f.ino j ≠ none := by
    intro j earlier empty
    have low : j < dentrysPerBlock := Nat.lt_trans earlier stops
    have found := (reads j low).mpr empty
    have missed := before j earlier
    rw [found] at missed
    cases missed
  rcases @bitmapSearch_spec s.inodeMap 0 inodeBound (.inl rfl) (by decide) with
    ⟨_, none⟩ | ⟨o, small, search, clear, least⟩
  · obtain ⟨o, small, clear⟩ := fits.inode
    exact absurd clear (none o small)
  · exact ⟨cwd, f, _, o, located, isDir, shell, slot, stops, (reads _ stops).mp here, first, small,
      search, clear, fun p earlier => by simpa using least p earlier⟩

theorem Place.number {o : Nat} (place : Place s stack bound cwd f i o) :
    (BitVec.ofNat 32 o).toNat = o := by
  have small := place.small
  rw [BitVec.toNat_ofNat]
  simp only [inodeBound] at small
  omega

theorem Place.room {o : Nat} (place : Place s stack bound cwd f i o) (intact : Intact s)
    (kind : mode = file ∨ mode = dir) :
    Room s.disk cwd f i ⟨BitVec.ofNat 32 o, mode, name.val⟩ := by
  refine ⟨place.cwd, place.isDir, intact.free_slot place.cwd place.isDir place.free, place.inside,
    place.free, ?_, ?_, kind⟩
  · rw [place.number]
    exact place.small
  · rw [place.number, intact.bits place.small]
    exact place.clear

/-- A creation adds one node there. -/
theorem Place.create {o : Nat} (place : Place s locals.db bound cwd f i o) (intact : Intact s)
    (short : name.val.length ≤ 23) (kind : mode = file ∨ mode = dir) :
    ∃ s', run (createEntry bound mode name locals) s = some ((), s') ∧
      Created s cwd f i ⟨BitVec.ofNat 32 o, mode, name.val⟩ s' ∧
      s'.disk = createdDisk s.disk (bitmapModify s.inodeMap 1 o)
        (newBlock mode (BitVec.ofNat 32 o) f.ino locals.block)
        (inodeInit (BitVec.ofNat 32 o) mode name f.ino locals.timer locals.inode)
        (setDentry i (BitVec.ofNat 32 o) mode name (cwdBlock s locals.db)) (BitVec.ofNat 32 o)
        f.ino := by
  have room : Room s.disk cwd f i ⟨BitVec.ofNat 32 o, mode, name.val⟩ := place.room intact kind
  have short : name.val.length < 24 := Nat.lt_succ_of_le short
  have smallF := intact.sound.small place.cwd
  have other : BitVec.ofNat 32 o ≠ f.ino := (room.other intact.sound place.cwd).symm
  have smallWord := room.small
  have stops := place.inside
  obtain ⟨s', result, map, disk, rest⟩ := @run_createEntry s (BitVec.ofNat 32 o) mode f.ino name i
    bound locals o short place.small place.search place.slot stops place.shell rfl
  refine ⟨s', result, ?_, disk⟩
  constructor
  · exact place.shell
  · exact room
  · exact place.first
  · rw [place.number]
    exact place.least
  · rw [disk]
    apply createdDisk_grafted smallWord smallF other kind short stops
    · intro k low
      rw [cwdBlock, copy_start low, ← cwdIno, place.shell]
    · intro p low
      rw [bit_bitmapModify (.inr rfl), place.number, intact.bits low]
      rfl
  · intro isFile k low
    change mode = file at isFile
    subst isFile
    have zero : setWord 0 0 locals.block (0 + k) = byteOf 0 k := setWord_inside low
    rw [Nat.zero_add] at zero
    rw [disk, createdDisk_block smallWord smallF other (by simp only [blockSize]; omega),
      newBlock, if_neg (by decide), zero]
    simp [byteOf]
  · intro k low
    rw [disk, map]
    exact createdDisk_map smallWord smallF low
  · exact rest

/-- A creation that fits adds one node. -/
theorem Intact.create (locals : Locals) (intact : Intact s) (fits : CreationFits s name)
    (wide : dentrysPerBlock ≤ bound) (kind : mode = file ∨ mode = dir) :
    ∃ s' cwd f i n, run (createEntry bound mode name locals) s = some ((), s') ∧
      Created s cwd f i n s' ∧ n.mode = mode ∧ n.name = name.val := by
  obtain ⟨cwd, f, i, o, place⟩ := intact.place locals.db fits wide
  obtain ⟨s', result, created, _⟩ := place.create intact fits.short kind
  exact ⟨s', cwd, f, i, _, result, created, rfl, rfl⟩

theorem Created.located (created : Created s cwd f i n s') (sound : Sound s.disk) :
    locate s'.disk = graft (locate s.disk) (i :: cwd) n :=
  created.grafted.locate sound created.room

/-- A creation keeps a file system intact. -/
theorem Created.intact (created : Created s cwd f i n s') (intact : Intact s) : Intact s' := by
  have sound := intact.sound
  have rest := created.rest
  have smallN := created.room.small
  have smallF := sound.small created.room.cwd
  constructor
  · exact Sound.graft created.grafted sound created.room
  · exact created.map
  · intro k low
    have same : s'.superblock = s.superblock := by rw [rest]
    rw [same, ← intact.superblock k low]
    apply created.grafted.outside
    · simp only [Beyond, superblockAddress, superblockSize, mapAddress, mapSize] at *
      omega
    · rw [blockAddress_eq smallN]
      simp only [Beyond, superblockAddress, blockSize, inodeBound] at *
      omega
    · simp only [Beyond, superblockAddress, superblockSize, tableAddress] at *
      omega
    · have inside := created.room.inside
      rw [blockAddress_eq smallF]
      simp only [Beyond, superblockAddress, blockSize, dentrySize, inodeBound,
        dentrysPerBlock] at *
      omega
  · rw [rest]
    exact intact.magic
  · rw [rest]
    exact intact.rootIno
  · refine ⟨cwd, f, ?_, created.room.isDir, ?_⟩
    · rw [created.located sound, graft_other (by simp), created.room.cwd]
    · exact created.stays

/-- What a removal leaves: one entry of the current directory is gone. -/
structure Removed (s : FileSystem) (cwd : List Nat) (f : Node) (i : Nat) (n : Node)
    (s' : FileSystem) : Prop where
  shell : cwdIno s = f.ino
  held : Held s.disk cwd f i n
  first : ∀ j < i, ∀ m, dirEntry s.disk f.ino j = some m → m.mode = n.mode → m.name ≠ n.name
  pruned : Pruned s.disk s'.disk f.ino i n.ino
  map : ∀ k < mapSize, s'.disk (mapAddress + k) = s'.inodeMap k
  rest : s' = { s with disk := s'.disk, inodeMap := s'.inodeMap }

theorem Removed.stays (removed : Removed s cwd f i n s') : cwdIno s' = f.ino := by
  rw [removed.rest]
  exact removed.shell

/-- A removal keeps a file system intact. -/
theorem Removed.intact (removed : Removed s cwd f i n s') (intact : Intact s) : Intact s' := by
  have sound := intact.sound
  have rest := removed.rest
  have smallF := sound.small removed.held.cwd
  constructor
  · exact Sound.prune removed.pruned sound removed.held
  · exact removed.map
  · intro k low
    have same : s'.superblock = s.superblock := by rw [rest]
    rw [same, ← intact.superblock k low]
    apply removed.pruned.outside
    · simp only [Beyond, superblockAddress, superblockSize, mapAddress, mapSize] at *
      omega
    · have inside := removed.held.inside
      rw [blockAddress_eq smallF]
      simp only [Beyond, superblockAddress, blockSize, dentrySize, inodeBound,
        dentrysPerBlock] at *
      omega
  · rw [rest]
    exact intact.magic
  · rw [rest]
    exact intact.rootIno
  · refine ⟨cwd, f, ?_, removed.held.isDir, ?_⟩
    · rw [removed.pruned.locate sound removed.held, prune_other not_suffix_parent,
        removed.held.cwd]
    · exact removed.stays

/-- Writing back a block as it was read changes nothing. -/
theorem write_back : copy s.disk (blockAddress ino)
    (copy stack 0 s.disk (blockAddress ino) blockSize) 0 blockSize = s.disk := by
  rw [copy_copy]
  funext k
  by_cases inside : blockAddress ino ≤ k ∧ k < blockAddress ino + blockSize
  · obtain ⟨j, rfl⟩ := Nat.exists_eq_add_of_le inside.1
    exact copy_inside (by omega)
  · exact copy_outside (by omega)

theorem run_removeEntry (small : ino.toNat < inodeBound)
    (slot : scan dentrysPerBlock (matchesEntry b mode name) = i) (inside : i < dentrysPerBlock)
    (number : dentryIno b i = ino) :
    ∃ s', run (removeEntry mode name b) s = some ((), s') ∧
      s'.inodeMap = bitmapModify s.inodeMap 0 ino.toNat ∧
      s'.disk = copy (copy s.disk mapAddress (bitmapModify s.inodeMap 0 ino.toNat) 0 mapSize)
        (blockAddress (cwdIno s)) (setWord (dentrySize * i) noIno b) 0 blockSize ∧
      s' = { s with disk := s'.disk, inodeMap := s'.inodeMap } := by
  refine ⟨{ s with
    inodeMap := bitmapModify s.inodeMap 0 ino.toNat
    disk := copy (copy s.disk mapAddress (bitmapModify s.inodeMap 0 ino.toNat) 0 mapSize)
        (blockAddress (cwdIno s)) (setWord (dentrySize * i) noIno b) 0 blockSize }, ?_,
    by simp only, by simp only, by simp only⟩
  rw [removeEntry, slot, if_pos inside, number, run_then (run_inodeDelete small),
    run_then run_shellPathIno, run_dirBlockWrite]
  rfl

theorem run_removeEntry_none (slot : scan dentrysPerBlock (matchesEntry b mode name) =
    dentrysPerBlock) (read : b = cwdBlock s stack) :
    run (removeEntry mode name b) s = some ((), s) := by
  subst read
  rw [removeEntry, slot, if_neg (Nat.lt_irrefl _), run_then run_shellPathIno, run_dirBlockWrite,
    cwdBlock, write_back]

/-- The map and one word of the directory are what a removal writes. -/
theorem prunedDisk {d map db : Buffer} {father : Word} (small : father.toNat < inodeBound)
    (inside : i < dentrysPerBlock) (dirBlock : ∀ k < blockSize, db k = d (blockAddress father + k))
    (marks : ∀ o < inodeBound, bit map o = if o = ino.toNat then false else bit (diskMap d) o) :
    Pruned d (copy (copy d mapAddress map 0 mapSize) (blockAddress father)
      (setWord (dentrySize * i) noIno db) 0 blockSize) father i ino := by
  constructor
  · intro k notMap notWord
    by_cases notDir : Beyond (blockAddress father) blockSize k
    · rw [copy_outside notDir, copy_outside notMap]
    · obtain ⟨j, rfl⟩ : ∃ j, k = blockAddress father + j := by
        apply Nat.exists_eq_add_of_le
        simp only [Beyond] at notDir
        omega
      have within : j < blockSize := by
        simp only [Beyond] at notDir
        omega
      rw [copy_inside within, Nat.zero_add, setWord_outside, dirBlock j within]
      simp only [Beyond] at notWord
      omega
  · rw [dirEntry_of_block (fun k low => by rw [copy_inside low, Nat.zero_add]) inside, entry_none]
    exact word_setWord
  · intro o low
    rw [← marks o low]
    apply bit_congr _ low
    intro k inMap
    rw [diskMap, blockAddress_eq small, copy_outside, copy_inside inMap, Nat.zero_add]
    simp only [mapAddress, blockSize, inodeBound] at *
    omega

/-- `.` and `..` are never removed. -/
def Removable (mode : Word) (name : CString) : Prop :=
  mode = file ∨ mode = dir ∧ name ≠ dot ∧ name ≠ dotDot

theorem Removable.slot (removable : Removable mode name) (sound : Sound s.disk)
    (located : locate s.disk cwd = some f) (isDir : f.mode = dir)
    (live : dirEntry s.disk f.ino i = some n) (kind : n.mode = mode)
    (same : n.name = name.val) : 2 ≤ i := by
  obtain ⟨g, above, _⟩ := locate_tail located
  have dots := sound.dots located isDir above
  have no : ∀ m : Node, m.mode = dir → (m.name = dot.val ∨ m.name = dotDot.val) → n ≠ m := by
    rintro m mode' text rfl
    rcases removable with isFile | ⟨_, notDot, notDotDot⟩
    · rw [← kind, mode'] at isFile
      exact absurd isFile (by decide)
    · rw [same] at text
      rcases text with text | text
      · exact notDot (Subtype.ext text)
      · exact notDotDot (Subtype.ext text)
  have notFirst : i ≠ 0 := by
    rintro rfl
    rw [dots.self] at live
    exact no _ rfl (.inl rfl) (Option.some.inj live).symm
  have notSecond : i ≠ 1 := by
    rintro rfl
    rw [dots.parent] at live
    exact no _ rfl (.inr rfl) (Option.some.inj live).symm
  omega

/-- A removal takes the first entry of that kind and name away, or changes nothing. -/
theorem Intact.remove (stack : Buffer) (intact : Intact s) (removable : Removable mode name) :
    (∃ s' cwd f i n, run (removeEntry mode name (cwdBlock s stack)) s = some ((), s') ∧
      Removed s cwd f i n s' ∧ n.mode = mode ∧ n.name = name.val) ∨
    run (removeEntry mode name (cwdBlock s stack)) s = some ((), s) ∧
      ∀ i < dentrysPerBlock, ∀ n, dirEntry s.disk (cwdIno s) i = some n → n.mode = mode →
        n.name ≠ name.val := by
  obtain ⟨cwd, f, located, isDir, shell⟩ := intact.cwd
  have sound := intact.sound
  have smallF := sound.small located
  have found : ∀ j < dentrysPerBlock, (matchesEntry (cwdBlock s stack) mode name j = true ↔
      ∃ n, dirEntry s.disk f.ino j = some n ∧ n.mode = mode ∧ n.name = name.val) := by
    intro j inside
    rw [intact.standing.matches stack inside, cwdIno, shell]
  by_cases stops : scan dentrysPerBlock (matchesEntry (cwdBlock s stack) mode name) <
      dentrysPerBlock
  · left
    obtain ⟨here, before⟩ := scan_stops stops
    obtain ⟨n, live, kind, same⟩ := (found _ stops).mp here
    have first : ∀ j < scan dentrysPerBlock (matchesEntry (cwdBlock s stack) mode name),
        ∀ m, dirEntry s.disk f.ino j = some m → m.mode = n.mode → m.name ≠ n.name := by
      intro j earlier m there kind' same'
      have missed := before j earlier
      rw [(found j (Nat.lt_trans earlier stops)).mpr
        ⟨m, there, kind'.trans kind, same'.trans same⟩] at missed
      cases missed
    generalize slot : scan dentrysPerBlock (matchesEntry (cwdBlock s stack) mode name) = i at *
    have held : Held s.disk cwd f i n :=
      ⟨located, isDir, removable.slot sound located isDir live kind same, stops, live⟩
    have small := sound.small held.located
    have number : dentryIno (cwdBlock s stack) i = n.ino := by
      apply (entry_some (b := cwdBlock s stack) (i := i) (n := n) _).1
      rw [cwdBlock, entry_read _ stops, shell]
      exact live
    obtain ⟨s', result, map, disk, rest⟩ := @run_removeEntry s _ n.ino mode name i small slot
      stops number
    rw [cwdIno, shell] at disk
    refine ⟨s', cwd, f, i, n, result, ⟨shell, held, first, ?_, ?_, rest⟩, kind, same⟩
    · rw [disk]
      apply prunedDisk smallF stops
      · intro k low
        rw [cwdBlock, copy_start low, shell]
      · intro o low
        rw [bit_bitmapModify (.inl rfl), intact.bits low]
        rfl
    · intro k low
      rw [disk, map, blockAddress_eq smallF, copy_outside, copy_inside low, Nat.zero_add]
      simp only [mapAddress, blockSize, inodeBound] at *
      omega
  · right
    have bound := @scan_le dentrysPerBlock (matchesEntry (cwdBlock s stack) mode name)
    refine ⟨run_removeEntry_none (by omega) rfl, fun i inside n live kind same => ?_⟩
    rw [cwdIno, shell] at live
    exact stops (scan_lt inside ((found i inside).mpr ⟨n, live, kind, same⟩))

end Tina.Files
