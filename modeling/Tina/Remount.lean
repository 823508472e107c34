import Tina.Refinement

/-! Mounting a card that holds a file system, and changes of the card that nothing reached
from the root notices. -/
namespace Tina.Files

open ByteBuffer Atomic SlotTree

variable {s s' t u : FileSystem} {d d' : Buffer} {i j k n o : Nat} {p q cwd : List Nat}
  {m f g : Node} {ino : Word} {locals : Locals}

/-- The card alone holds a file system. -/
structure OnCard (d : Buffer) : Prop where
  sound : Sound d
  magic : word d superblockAddress = fsMagic
  rootIno : word d (superblockAddress + offRootDirIno) = rootDirIno

theorem Intact.onCard (intact : Intact s) : OnCard s.disk := by
  have field : ∀ {k}, k + 4 ≤ superblockSize →
      word s.disk (superblockAddress + k) = word s.superblock k := by
    intro k low
    apply word_congr
    intro l first last
    obtain ⟨e, rfl⟩ := Nat.exists_eq_add_of_le first
    rw [Nat.add_assoc, intact.superblock _ (by omega)]
    exact congrArg _ (by omega)
  refine ⟨intact.sound, ?_, ?_⟩
  · rw [← intact.magic]
    exact field (k := 0) (by decide)
  · rw [← intact.rootIno]
    exact field (by decide)

/-- Everything reached from the root is as it was. -/
structure Kept (d d' : Buffer) : Prop where
  blocks : ∀ {p m}, locate d p = some m → Same d d' (blockAddress m.ino) blockSize
  tables : ∀ {p m}, locate d p = some m → Same d d' (tableAddress m.ino) inodeSize
  marks : ∀ {p m}, locate d p = some m → bit (diskMap d') m.ino.toNat = true
  superblock : Same d d' superblockAddress superblockSize

section Kept

variable (kept : Kept d d')

include kept

theorem Kept.entries (located : Files.locate d p = some m) (inside : i < dentrysPerBlock) :
    Same d d' (blockAddress m.ino + dentrySize * i) dentrySize := by
  intro k low
  rw [Nat.add_assoc]
  apply kept.blocks located
  simp only [dentrySize, blockSize, dentrysPerBlock] at *
  omega

theorem Kept.locate : Files.locate d' = Files.locate d := by
  funext p
  induction p with
  | nil => rfl
  | cons i p ih =>
    rw [Files.locate, ih, Files.locate]
    cases located : Files.locate d p with
    | none => rfl
    | some m =>
      rw [Option.bind_some, Option.bind_some]
      split
      next inside => exact (kept.entries located inside.2.2).dirEntry
      · rfl

theorem Kept.sound (sound : Sound d) : Sound d' := by
  have nodes := kept.locate
  constructor
  · intro p m here
    exact sound.small (nodes ▸ here)
  · intro p m here
    exact sound.kind (nodes ▸ here)
  · intro p q m e here there
    exact sound.apart (nodes ▸ here) (nodes ▸ there)
  · intro p m here
    exact kept.marks (nodes ▸ here)
  · intro p m f here there
    rw [nodes] at here there
    exact (kept.tables here).described (sound.table here there)
  · intro p m f here isDir there
    rw [nodes] at here there
    have dots := sound.dots here isDir there
    have first := kept.entries here (i := 0) (by decide)
    have second := kept.entries here (i := 1) (by decide)
    exact ⟨first.dirEntry.trans dots.self, second.dirEntry.trans dots.parent⟩
  · intro p m i e here isDir inside live
    rw [nodes] at here
    have same := kept.entries here inside
    rw [same.dirEntry] at live
    exact same.named (sound.named here isDir inside live)

theorem Kept.tree : image (item d') (Files.locate d') = image (item d) (Files.locate d) := by
  rw [kept.locate]
  funext p
  cases located : Files.locate d p with
  | none => rw [image, image, located, Option.map_none, Option.map_none]
  | some m => rw [image, image, located, Option.map_some, Option.map_some,
      item_same fun _ => kept.blocks located]

theorem Kept.onCard (onCard : OnCard d) : OnCard d' := by
  refine ⟨kept.sound onCard.sound, ?_, ?_⟩
  · rw [← onCard.magic]
    exact kept.superblock.word (k := 0) (by decide)
  · rw [← onCard.rootIno]
    exact kept.superblock.word (by decide)

end Kept

/-- The first sectors of the inode map are read. -/
theorem run_mapReadLoop (small : n ≤ 8) : run (forM (List.range n) fun i =>
      doSdreadGlobal onInodeMap (0x200 * i) ((fsInodeMapBase + BitVec.ofNat 32 i) * sectorSize)
        blockSize) s =
    some ((), { s with inodeMap := copy s.inodeMap 0 s.disk mapAddress (0x200 * n) }) := by
  induction n with
  | zero => rw [List.range_zero, List.forM_nil, run_pure, Nat.mul_zero, copy_nothing]
  | succ n ih =>
    have joined := @copy_append 0 (0x200 * n) s.disk s.inodeMap mapAddress 0x200
    rw [Nat.zero_add] at joined
    rw [List.range_succ, List.forM_append, run_then (ih (by omega)), List.forM_cons,
      doSdreadGlobal, mapSector (by omega), run_then run_change, List.forM_nil, run_pure, onInodeMap]
    simp only [blockSize]
    rw [joined]
    rfl

theorem run_inodeMapRead : run inodeMapRead s =
    some ((), { s with inodeMap := copy s.inodeMap 0 s.disk mapAddress mapSize }) :=
  run_mapReadLoop (Nat.le_refl 8)

/-- What mounting a card leaves in memory: the superblock, the map, and the shell at the root. -/
structure Mounted (s : FileSystem) : Prop where
  superblock : ∀ k < superblockSize, s.superblock k = s.disk (superblockAddress + k)
  map : ∀ k < mapSize, s.inodeMap k = s.disk (mapAddress + k)
  shell : ∀ k < inodeSize, s.shellPathInode k = s.disk (tableAddress rootDirIno + k)

/-- `do_makefs` on a card with a file system mounts it and writes nothing. -/
theorem run_doMakefs_mount (locals : Locals) (magic : word s.disk superblockAddress = fsMagic)
    (rootIno : word s.disk (superblockAddress + offRootDirIno) = rootDirIno) :
    ∃ s', run (doMakefs locals) s = some ((), s') ∧ Mounted s' ∧ s'.disk = s.disk ∧
      s'.fd = s.fd ∧ s'.fdIndex = s.fdIndex ∧ s'.curDir = s.curDir := by
  obtain ⟨sb, isSb⟩ : ∃ sb, copy s.superblock 0 s.disk superblockAddress superblockSize = sb :=
    ⟨_, rfl⟩
  have there : word sb offMagic = fsMagic := by
    rw [← isSb, ← magic]
    exact word_copy_start (by decide)
  have root : word sb offRootDirIno = rootDirIno := by
    rw [← isSb, ← rootIno]
    exact word_copy_start (by decide)
  obtain ⟨rest, isRest⟩ : ∃ rest, copy s.inodeMap 0 s.disk (superblockAddress + superblockSize)
      (blockSize - superblockSize) = rest := ⟨_, rfl⟩
  obtain ⟨map, isMap⟩ : ∃ map, copy rest 0 s.disk mapAddress mapSize = map := ⟨_, rfl⟩
  obtain ⟨head, mounted⟩ := @run_mount { s with superblock := sb, inodeMap := map } root
  refine ⟨{ s with
    superblock := sb
    inodeMap := map
    shellPathInode := copy s.shellPathInode 0 s.disk (tableAddress rootDirIno) inodeSize
    shellPathHead := head }, ?_, ?_, by simp only, by simp only, by simp only, by simp only⟩
  · rw [doMakefs, run_then run_superblockRead, isSb, isRest, run_then run_read, if_pos there,
      run_then run_inodeMapRead, isMap]
    exact mounted
  · constructor
    · intro k low
      dsimp only
      rw [← isSb, copy_start low]
    · intro k low
      dsimp only
      rw [← isMap, copy_start low]
    · intro k low
      exact copy_start low

theorem Mounted.holds (mounted : Mounted s) : Holds s.disk s.shellPathInode [] :=
  ⟨rootNode, rfl, rfl, mounted.shell⟩

theorem Mounted.intact (mounted : Mounted s) (onCard : OnCard s.disk) : Intact s := by
  have field : ∀ {k}, k + 4 ≤ superblockSize →
      word s.superblock k = word s.disk (superblockAddress + k) := by
    intro k low
    apply word_congr
    intro l first last
    rw [mounted.superblock _ (by omega)]
    exact congrArg _ (by omega)
  obtain ⟨g, there, isDir, number⟩ := mounted.holds.ino onCard.sound
  refine ⟨onCard.sound, fun k low => (mounted.map k low).symm,
    fun k low => (mounted.superblock k low).symm, ?_, ?_, [], g, there, isDir, number⟩
  · rw [field (k := offMagic) (by decide)]
    exact onCard.magic
  · rw [field (by decide)]
    exact onCard.rootIno

/-- Mounted after a reboot, the tree is the one on the card. -/
theorem OnCard.mount (onCard : OnCard u.disk) (locals : Locals) : ∃ u',
    run (doMakefs locals) u = some ((), u') ∧ Intact u' ∧ Mounted u' ∧ u'.disk = u.disk ∧
      u'.fd = u.fd ∧ u'.fdIndex = u.fdIndex ∧ u'.curDir = u.curDir := by
  obtain ⟨u', made, mounted, disk, rest⟩ :=
    run_doMakefs_mount locals onCard.magic onCard.rootIno
  exact ⟨u', made, mounted.intact (disk ▸ onCard), mounted, disk, rest⟩

end Tina.Files
