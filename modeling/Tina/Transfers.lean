import Tina.Bitmap
import Tina.Files

/-! What the routines of `disk.c` do to the card: each of them is one copy to or from
the place of its object. -/
namespace Tina.Files

open ByteBuffer Atomic

variable {s t : FileSystem} {src db : Buffer} {ino : Word} {n : Nat}

/-- Where a block lies; a bad number may lead anywhere. -/
def blockAddress (ino : Word) : Nat := sdAddress ((ino + fsDataBase) * sectorSize)

def mapAddress : Nat := 0x3fbff000
def mapSize : Nat := 0x1000
def tableAddress (ino : Word) : Nat := 0x3fc00000 + inodeSize * ino.toNat
def superblockAddress : Nat := 0x3fbfee00

theorem sdAddress_eq {offset : Word} (small : offset.toNat < 0x20000000) :
    sdAddress offset = 0x20000000 + offset.toNat := by
  have base : (fsBase * sectorSize).toNat = 0x20000000 := by decide
  rw [sdAddress, BitVec.toNat_add, base, Nat.mod_eq_of_lt (by omega), Nat.add_comm]

theorem sector_toNat {sector : Word} (small : sector.toNat < 0x100000) :
    (sector * sectorSize).toNat = 0x200 * sector.toNat := by
  have size : sectorSize.toNat = 0x200 := by decide
  rw [BitVec.toNat_mul, size, Nat.mod_eq_of_lt (by omega), Nat.mul_comm]

theorem sectorAddress {sector : Word} (small : sector.toNat < 0x100000) :
    sdAddress (sector * sectorSize) = 0x20000000 + 0x200 * sector.toNat := by
  have size := sector_toNat small
  rw [sdAddress_eq (by omega), size]

theorem blockAddress_eq (small : ino.toNat < inodeBound) :
    blockAddress ino = 0x20000000 + blockSize * ino.toNat := by
  simp only [inodeBound] at small
  have same : ino + fsDataBase = ino := by simp [fsDataBase]
  rw [blockAddress, same, sectorAddress (by omega), blockSize]

theorem checkIno_small (small : ino.toNat < inodeBound) : ¬checkIno ino := by
  simp only [inodeBound] at small
  simp only [checkIno, inodeBound, BitVec.toInt_eq_toNat_cond]
  split
  · omega
  · omega

@[simp] theorem run_sectorRead {sector : Word} : run (sectorRead db sector) s =
    some (copy db 0 s.disk (sdAddress (sector * sectorSize)) blockSize, s) := (rfl)

@[simp] theorem run_sectorWrite {f : FileSystem → Buffer} {sector : Word} :
    run (sectorWrite f n sector) s = some ((), { s with
      disk := copy s.disk (sdAddress (sector * sectorSize)) (f s) n blockSize }) := (rfl)

@[simp] theorem run_shellPathIno :
    run shellPathIno s = some (word s.shellPathInode offIno, s) := (rfl)

@[simp] theorem run_rootIno : run rootIno s = some (word s.superblock offRootDirIno, s) := (rfl)

@[simp] theorem run_curDirIno : run curDirIno s = some (word s.curDir offIno, s) := (rfl)

@[simp] theorem run_dirBlockRead : run (dirBlockRead db ino) s =
    some (copy db 0 s.disk (blockAddress ino) blockSize, s) := (rfl)

@[simp] theorem run_dirBlockWrite : run (dirBlockWrite db ino) s =
    some ((), { s with disk := copy s.disk (blockAddress ino) db 0 blockSize }) := (rfl)

@[simp] theorem run_fileBlockRead : run (fileBlockRead db ino) s =
    some (copy db 0 s.disk (blockAddress ino) blockSize, s) := (rfl)

@[simp] theorem run_fileBlockWrite : run (fileBlockWrite db ino) s =
    some ((), { s with disk := copy s.disk (blockAddress ino) db 0 blockSize }) := (rfl)

theorem mapSector {i : Nat} (small : i < 8) :
    sdAddress ((fsInodeMapBase + BitVec.ofNat 32 i) * sectorSize) = mapAddress + 0x200 * i := by
  have base : fsInodeMapBase.toNat = 0xfdff8 := by decide
  have number : (fsInodeMapBase + BitVec.ofNat 32 i).toNat = 0xfdff8 + i := by
    rw [BitVec.toNat_add, BitVec.toNat_ofNat, base]
    omega
  rw [sectorAddress (by omega), number, mapAddress]
  omega

/-- The state after the first `n` sectors of the inode map are written. -/
def mapWritten (n : Nat) (s : FileSystem) : FileSystem :=
  { s with disk := copy s.disk mapAddress s.inodeMap 0 (0x200 * n) }

theorem mapWritten_zero : mapWritten 0 s = s := by
  rw [mapWritten, Nat.mul_zero, copy_nothing]

theorem mapWritten_succ (small : n < 8) :
    run (sectorWrite FileSystem.inodeMap (0x200 * n) (fsInodeMapBase + BitVec.ofNat 32 n))
      (mapWritten n s) = some ((), mapWritten (n + 1) s) := by
  rw [run_sectorWrite, mapSector small]
  have joined : copy (copy s.disk mapAddress s.inodeMap 0 (0x200 * n)) (mapAddress + 0x200 * n)
      s.inodeMap (0x200 * n) 0x200 = copy s.disk mapAddress s.inodeMap 0 (0x200 * n + 0x200) := by
    have append := @copy_append mapAddress (0x200 * n) s.inodeMap s.disk 0 0x200
    rwa [Nat.zero_add] at append
  simp only [mapWritten, blockSize, joined, Nat.mul_succ]

theorem run_mapLoop (small : n ≤ 8) :
    run (forM (List.range n) fun i => sectorWrite FileSystem.inodeMap (0x200 * i)
      (fsInodeMapBase + BitVec.ofNat 32 i)) s = some ((), mapWritten n s) := by
  induction n with
  | zero => rw [List.range_zero, List.forM_nil, run_pure, mapWritten_zero]
  | succ n ih =>
    rw [List.range_succ, List.forM_append, run_bind, ih (by omega), Option.bind_some,
      List.forM_cons, run_bind, mapWritten_succ (by omega), Option.bind_some, List.forM_nil,
      run_pure]

@[simp] theorem run_inodeMapWrite : run inodeMapWrite s = some ((), mapWritten 8 s) :=
  run_mapLoop (Nat.le_refl 8)

/-- One of the eight entries in a sector is replaced. -/
@[simp] theorem run_inodeWrite (small : ino.toNat < inodeBound) :
    run (inodeWrite src ino) s =
      some ((), { s with disk := copy s.disk (tableAddress ino) src 0 inodeSize }) := by
  simp only [inodeBound] at small
  have base : fsInodeTableBase.toNat = 0xfe000 := by decide
  have sector : (ino / 8 + fsInodeTableBase).toNat = ino.toNat / 8 + 0xfe000 := by
    have eight : (8 : Word).toNat = 8 := by decide
    rw [BitVec.toNat_add, BitVec.toNat_udiv, base, eight]
    omega
  have offset : (ino % 8).toNat = ino.toNat % 8 := by
    have eight : (8 : Word).toNat = 8 := by decide
    rw [BitVec.toNat_umod, eight]
  have place : sdAddress ((ino / 8 + fsInodeTableBase) * sectorSize) + inodeSize * (ino.toNat % 8) =
      tableAddress ino := by
    rw [sectorAddress (by omega), sector, tableAddress, inodeSize]
    omega
  have written : copy s.disk (sdAddress ((ino / 8 + fsInodeTableBase) * sectorSize))
      (copy (copy (fun _ => 0) 0 s.disk
        (sdAddress ((ino / 8 + fsInodeTableBase) * sectorSize)) blockSize)
        (inodeSize * (ino.toNat % 8)) src 0 inodeSize) 0 blockSize =
      copy s.disk (tableAddress ino) src 0 inodeSize := by
    rw [copy_back (i := inodeSize * (ino.toNat % 8)) (m := inodeSize), place, copy_copy]
    · simp only [inodeSize, blockSize]
      omega
    · intro k small outside
      rw [copy_outside (by omega)]
      exact copy_start small
  rw [inodeWrite, if_neg (checkIno_small small), run_bind, run_sectorRead, Option.bind_some,
    run_sectorWrite, offset, written]

@[simp] theorem run_inodeRead {dest : (Buffer → Buffer) → FileSystem → FileSystem}
    (small : ino.toNat < inodeBound) :
    run (inodeRead dest ino) s = some ((),
      dest (fun b => copy b 0 s.disk (tableAddress ino) inodeSize) s) := by
  simp only [inodeBound] at small
  have base : (fsInodeTableBase * sectorSize).toNat = 0x1fc00000 := by decide
  have place : sdAddress (fsInodeTableBase * sectorSize + ino * 64) = tableAddress ino := by
    have size : (ino * 64).toNat = 64 * ino.toNat := by
      have width : (64 : Word).toNat = 64 := by decide
      rw [BitVec.toNat_mul, width]
      omega
    have sum : (fsInodeTableBase * sectorSize + ino * 64).toNat = 0x1fc00000 + 64 * ino.toNat := by
      rw [BitVec.toNat_add, base, size]
      omega
    rw [sdAddress_eq (by omega), sum, tableAddress, inodeSize]
    omega
  rw [inodeRead, if_neg (checkIno_small small), doSdreadGlobal, run_change, place]

/-- Allocation finds a clear bit, sets it and writes the map. -/
theorem run_inodeAlloc {o : Nat} (small : o < inodeBound)
    (search : bitmapSearch s.inodeMap 0 inodeBound = o) :
    run inodeAlloc s = some (BitVec.ofNat 32 o,
      mapWritten 8 { s with inodeMap := bitmapModify s.inodeMap 1 o }) := by
  simp only [inodeBound] at small
  have positive : (0 : Int) ≤ o := Int.natCast_nonneg o
  have inside : 0 ≤ (o : Int).tdiv 32 ∧ (o : Int).tdiv 32 < 0x400 := by
    rw [Int.tdiv_eq_ediv_of_nonneg positive]
    omega
  rw [inodeAlloc, run_bind, run_read, Option.bind_some, search, run_bind, modifyInodeMap,
    if_pos inside, run_change, Option.bind_some, run_bind, run_inodeMapWrite, Option.bind_some,
    run_pure, BitVec.ofInt_natCast, onInodeMap]

theorem run_inodeDelete (small : ino.toNat < inodeBound) :
    run (inodeDelete ino) s = some ((),
      mapWritten 8 { s with inodeMap := bitmapModify s.inodeMap 0 ino.toNat }) := by
  simp only [inodeBound] at small
  have signed : ino.toInt = (ino.toNat : Int) := by
    rw [BitVec.toInt_eq_toNat_cond, if_pos (by omega)]
  have inside : 0 ≤ (ino.toNat : Int).tdiv 32 ∧ (ino.toNat : Int).tdiv 32 < 0x400 := by
    rw [Int.tdiv_eq_ediv_of_nonneg (Int.natCast_nonneg _)]
    omega
  rw [inodeDelete, signed, run_bind, modifyInodeMap, if_pos inside, run_change, Option.bind_some,
    run_inodeMapWrite, onInodeMap]

end Tina.Files
