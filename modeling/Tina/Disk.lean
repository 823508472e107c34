import Tina.Buffer
import Tina.Program

/-! `bitmap.c` and `disk.c`. A transfer of the card driver is one step, and so is a
search or an update of the inode map in memory. -/
namespace Tina.Files

open ByteBuffer Atomic

abbrev Word := BitVec 32

def fsBase : Word := 0x100000
def sectorSize : Word := 0x200
def fsMagic : Word := 0x0711
def fsDataBase : Word := 0x00
def fsSuperblockBase : Word := 0xfdff7
def fsInodeMapBase : Word := 0xfdff8
def fsInodeTableBase : Word := 0xfe000
def rootDirIno : Word := 0
def fdNum : Nat := 0x10

/-- Bytes in a block, in an inode entry and in a dentry. -/
def blockSize : Nat := 0x200
def inodeSize : Nat := 0x40
def dentrySize : Nat := 0x20

def dentrysPerBlock : Nat := 16

/-- The inode map has this many bits. -/
def inodeBound : Nat := 0x1000 * 8

/-- `enum inode_mode`. -/
def file : Word := 0
def dir : Word := 1

/-- A free dentry has this inode number. -/
def noIno : Word := 0xffffffff

structure FileDesc where
  ino : Word
  pos : Word

/-- The card, by byte address, and the globals. `superblock` has 28 bytes, and
`inode_map` comes right after it in the build. -/
structure FileSystem where
  disk : Buffer
  superblock : Buffer
  inodeMap : Buffer
  shellPathInode : Buffer
  shellPathHead : Buffer
  curDir : Buffer
  fd : Nat → FileDesc
  fdIndex : Nat

def superblockSize : Nat := 28

/-- Fields of `superblock_t`, `inode_entry_t` and `dentry_t`, in bytes. -/
def offMagic : Nat := 0
def offRootDirIno : Nat := 24
def offIno : Nat := 32
def offSize : Nat := 36
def offMode : Nat := 40
def offTimestamp : Nat := 44
def offFatherIno : Nat := 48
def offPtr : Nat := 52
def offDentryMode : Nat := 4
def offDentryName : Nat := 8

/-- Where a `for` loop from 0 to `bound` stops when `found` breaks it. -/
def scan (bound : Nat) (found : Nat → Bool) : Nat := ((List.range bound).find? found).getD bound

/-- `-1` for a target that is no bit, `-2` when no bit matches. -/
def bitmapSearch (map : Buffer) (target : Word) (bound : Nat) : Int :=
  if target ≠ 0 ∧ target ≠ 1 then -1
  else
    let flat : Word := if target = 1 then 0 else 0xffffffff
    ((List.range (bound / 32)).findSome? fun i =>
      if word map (4 * i) = flat then none
      else
        ((List.range 32).find? fun j =>
          (1#32 <<< j) &&& word map (4 * i) = target <<< j).map
            fun j => ((32 * i + j : Nat) : Int)).getD (-2)

/-- `offset / 32` and `offset % 32` round towards zero; the processor shifts by the low
five bits of a count. -/
def bitmapModify (map : Buffer) (target : Word) (offset : Int) : Buffer :=
  if target ≠ 0 ∧ target ≠ 1 then map
  else
    let i := 4 * (offset.tdiv 32).toNat
    let j := (offset.tmod 32 % 32).toNat
    setWord i ((word map i &&& ~~~(1#32 <<< j)) ||| target <<< j) map

abbrev Routine := Program FileSystem

/-- `offset + FS_BASE * SECTOR_SIZE`, a byte address on the card. -/
def sdAddress (offset : Word) : Nat := (offset + fsBase * sectorSize).toNat

/-- `do_sdread` into a local object. -/
def doSdread (dest : Buffer) (offset : Word) (size : Nat) : Routine Buffer :=
  read fun s => copy dest 0 s.disk (sdAddress offset) size

/-- `do_sdread` into a global object, from its byte `start` on. -/
def doSdreadGlobal (put : (Buffer → Buffer) → FileSystem → FileSystem) (start : Nat)
    (offset : Word) (size : Nat) : Routine Unit :=
  change fun s => put (fun dest => copy dest start s.disk (sdAddress offset) size) s

/-- The bytes come from `src` at the time of the transfer, from its byte `start` on. -/
def doSdwrite (src : FileSystem → Buffer) (start : Nat) (offset : Word) (size : Nat) :
    Routine Unit :=
  change fun s => { s with disk := copy s.disk (sdAddress offset) (src s) start size }

def sectorRead (dest : Buffer) (sector : Word) : Routine Buffer :=
  doSdread dest (sector * sectorSize) blockSize

def sectorWrite (src : FileSystem → Buffer) (start : Nat) (sector : Word) : Routine Unit :=
  doSdwrite src start (sector * sectorSize) blockSize

def onInodeMap (f : Buffer → Buffer) (s : FileSystem) : FileSystem :=
  { s with inodeMap := f s.inodeMap }

def onCurDir (f : Buffer → Buffer) (s : FileSystem) : FileSystem :=
  { s with curDir := f s.curDir }

def onShellPathInode (f : Buffer → Buffer) (s : FileSystem) : FileSystem :=
  { s with shellPathInode := f s.shellPathInode }

/-- When `check_ino` returns from the caller. -/
def checkIno (ino : Word) : Prop := ino.toInt < 0 ∨ (inodeBound : Int) ≤ ino.toInt

instance (ino : Word) : Decidable (checkIno ino) := inferInstanceAs (Decidable (_ ∨ _))

/-- The read fills all of `ie`. -/
def inodeWrite (src : Buffer) (ino : Word) : Routine Unit :=
  if checkIno ino then pure ()
  else do
    let sector := ino / 8 + fsInodeTableBase
    let offset := (ino % 8).toNat
    let ie ← sectorRead (fun _ => 0) sector
    sectorWrite (fun _ => copy ie (inodeSize * offset) src 0 inodeSize) 0 sector

def inodeRead (dest : (Buffer → Buffer) → FileSystem → FileSystem) (ino : Word) :
    Routine Unit :=
  if checkIno ino then pure ()
  else doSdreadGlobal dest 0 (fsInodeTableBase * sectorSize + ino * 64) inodeSize

def inodeMapRead : Routine Unit :=
  forM (List.range 8) fun i =>
    doSdreadGlobal onInodeMap (0x200 * i) ((fsInodeMapBase + BitVec.ofNat 32 i) * sectorSize)
      blockSize

def inodeMapWrite : Routine Unit :=
  forM (List.range 8) fun i =>
    sectorWrite FileSystem.inodeMap (0x200 * i) (fsInodeMapBase + BitVec.ofNat 32 i)

/-- `bitmap_modify` of `inode_map`, which has `0x400` words. -/
def modifyInodeMap (target : Word) (offset : Int) : Routine Unit :=
  if 0 ≤ offset.tdiv 32 ∧ offset.tdiv 32 < 0x400 then
    change (onInodeMap fun map => bitmapModify map target offset)
  else .undefined

def inodeAlloc : Routine Word := do
  let i ← read fun s => bitmapSearch s.inodeMap 0 inodeBound
  modifyInodeMap 1 i
  inodeMapWrite
  return BitVec.ofInt 32 i

/-- Nothing calls it. -/
def inodeFree (ino : Word) : Routine Unit :=
  if checkIno ino then pure ()
  else do
    modifyInodeMap 0 ino.toInt
    inodeMapWrite

/-- A sector is longer than the superblock: its rest goes to the inode map. -/
def superblockRead : Routine Unit :=
  change fun s =>
    let start := sdAddress (fsSuperblockBase * sectorSize)
    { s with
      superblock := copy s.superblock 0 s.disk start superblockSize
      inodeMap := copy s.inodeMap 0 s.disk (start + superblockSize) (blockSize - superblockSize) }

def superblockWrite : Routine Unit :=
  sectorWrite (fun s => copy (fun k => s.inodeMap (k - superblockSize)) 0 s.superblock 0
    superblockSize) 0 fsSuperblockBase

def fileBlockRead (fb : Buffer) (ino : Word) : Routine Buffer := sectorRead fb (ino + fsDataBase)

def fileBlockWrite (fb : Buffer) (ino : Word) : Routine Unit :=
  sectorWrite (fun _ => fb) 0 (ino + fsDataBase)

def dirBlockRead (db : Buffer) (ino : Word) : Routine Buffer := sectorRead db (ino + fsDataBase)

def dirBlockWrite (db : Buffer) (ino : Word) : Routine Unit :=
  sectorWrite (fun _ => db) 0 (ino + fsDataBase)

end Tina.Files
