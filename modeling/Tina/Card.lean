import Tina.Files

/-! `disk.c`, `do_makefs`, `deletefs` and `statfs` over a memory of bytes: every transfer goes
to or comes from an address, whatever lies there. Numbers of type `int` are integers, and an
overflow is `undefined`. -/
namespace Tina.Card

open ByteBuffer Atomic
open Tina.Files (fsMagic rootDirIno blockSize inodeSize superblockSize inodeBound offMagic
  offRootDirIno offIno offMode offFatherIno bitmapSearch bitmapModify freshSuperblock inodeInit
  freshDirBlock tilde)

def fsBase : Int := 0x100000
def sectorSize : Int := 0x200
def fsDataBase : Int := 0x00
def fsSuperblockBase : Int := 0xfdff7
def fsInodeMapBase : Int := 0xfdff8
def fsInodeMapSize : Nat := 8
def fsInodeTableBase : Int := 0xfe000
def fsInodeTableSize : Int := 0x1000
def fsBlockSize : Int := 1
def fsInodeSize : Nat := 0x40

/-- An object in memory: where it starts, and its declared size. -/
structure Object where
  start : Nat
  size : Nat

def Object.Has (o : Object) (a : Nat) : Prop := o.start ≤ a ∧ a < o.start + o.size

def Object.Apart (o o' : Object) : Prop :=
  o.start + o.size ≤ o'.start ∨ o'.start + o'.size ≤ o.start

instance (o o' : Object) : Decidable (o.Apart o') := inferInstanceAs (Decidable (_ ∨ _))

def inodeMapSize : Nat := 0x1000
def shellPathHeadSize : Nat := 128

/-- Where the globals lie, and the locals `inode` of `inode_create`, `db` or `fb` of `dir_init`
and `file_init`, and `ie` of `inode_write`. -/
structure Layout where
  superblock : Nat
  inodeMap : Nat
  shellPathInode : Nat
  shellPathHead : Nat
  inode : Nat
  block : Nat
  ie : Nat
  apart : [Object.mk superblock superblockSize, ⟨inodeMap, inodeMapSize⟩,
    ⟨shellPathInode, inodeSize⟩, ⟨shellPathHead, shellPathHeadSize⟩, ⟨inode, inodeSize⟩,
    ⟨block, blockSize⟩, ⟨ie, blockSize⟩].Pairwise Object.Apart

/-- `transfers` lists the card address and the size of every transfer, the last one first. -/
structure State where
  memory : Buffer
  disk : Buffer
  transfers : List (Int × Nat)

abbrev Routine := Program State

/-- The result of an operation on `int`. -/
def checked (z : Int) : Routine Int :=
  if -0x80000000 ≤ z ∧ z < 0x80000000 then pure z else .undefined

def sdread (dest : Nat) (offset : Int) (size : Nat) : Routine Unit :=
  change fun s => { s with
    memory := copy s.memory dest s.disk offset.toNat size
    transfers := (offset, size) :: s.transfers }

def sdwrite (src : Nat) (offset : Int) (size : Nat) : Routine Unit :=
  change fun s => { s with
    disk := copy s.disk offset.toNat s.memory src size
    transfers := (offset, size) :: s.transfers }

def doSdread (dest : Nat) (offset : Int) (size : Nat) : Routine Unit := do
  let base ← checked (fsBase * sectorSize)
  let address ← checked (offset + base)
  sdread dest address size

def doSdwrite (src : Nat) (offset : Int) (size : Nat) : Routine Unit := do
  let base ← checked (fsBase * sectorSize)
  let address ← checked (offset + base)
  sdwrite src address size

def sectorWrite (src : Nat) (sector : Int) : Routine Unit := do
  let offset ← checked (sector * sectorSize)
  doSdwrite src offset sectorSize.toNat

def sectorRead (dest : Nat) (sector : Int) : Routine Unit := do
  let offset ← checked (sector * sectorSize)
  doSdread dest offset sectorSize.toNat

/-- When `check_ino` returns from the caller. -/
def checkIno (ino : Int) : Prop := ino < 0 ∨ fsInodeTableSize * 8 ≤ ino

instance (ino : Int) : Decidable (checkIno ino) := inferInstanceAs (Decidable (_ ∨ _))

/-- `ie[offset] = *src`. -/
def setEntry (ie : Nat) (offset : Int) (src : Nat) : Routine Unit :=
  change fun s => { s with
    memory := copy s.memory (ie + inodeSize * offset.toNat) s.memory src inodeSize }

def inodeWrite (L : Layout) (src : Nat) (ino : Int) : Routine Unit :=
  if checkIno ino then pure ()
  else do
    let sector ← checked (ino.tdiv 8 + fsInodeTableBase)
    let offset := ino.tmod 8
    sectorRead L.ie sector
    setEntry L.ie offset src
    sectorWrite L.ie sector

def inodeRead (dest : Nat) (ino : Int) : Routine Unit :=
  if checkIno ino then pure ()
  else do
    let table ← checked (fsInodeTableBase * sectorSize)
    let entry ← checked (ino * fsInodeSize)
    let offset ← checked (table + entry)
    doSdread dest offset fsInodeSize

def inodeMapRead (L : Layout) : Routine Unit :=
  forM (List.range fsInodeMapSize) fun (i : Nat) => do
    let sector ← checked (fsInodeMapBase + i)
    sectorRead (L.inodeMap + 4 * (0x80 * i)) sector

def inodeMapWrite (L : Layout) : Routine Unit :=
  forM (List.range fsInodeMapSize) fun (i : Nat) => do
    let sector ← checked (fsInodeMapBase + i)
    sectorWrite (L.inodeMap + 4 * (0x80 * i)) sector

/-- The stores of `f` into the object at `a`, whose bytes it counts from 0. -/
def onObject (a size : Nat) (f : Buffer → Buffer) : Routine Unit :=
  change fun s => { s with memory := copy s.memory a (f fun k => s.memory (a + k)) 0 size }

def wordAt (a : Nat) : Routine Files.Word := read fun s => word s.memory a

/-- `bitmap_modify` of `inode_map`. -/
def modifyInodeMap (L : Layout) (target : Files.Word) (offset : Int) : Routine Unit :=
  if 0 ≤ offset.tdiv 32 ∧ offset.tdiv 32 < 0x400 then
    onObject L.inodeMap inodeMapSize fun map => bitmapModify map target offset
  else .undefined

def inodeAlloc (L : Layout) : Routine Int := do
  let i ← read fun s => bitmapSearch (fun k => s.memory (L.inodeMap + k)) 0 inodeBound
  modifyInodeMap L 1 i
  inodeMapWrite L
  return i

def superblockRead (L : Layout) : Routine Unit := sectorRead L.superblock fsSuperblockBase

def superblockWrite (L : Layout) : Routine Unit := sectorWrite L.superblock fsSuperblockBase

/-- The common loop of the four block routines, over the one sector of a block. -/
def blockLoop (transfer : Nat → Int → Routine Unit) (block : Nat) (ino : Int) : Routine Unit := do
  let first ← checked (ino * fsBlockSize)
  let sector ← checked (first + fsDataBase)
  forM (List.range fsBlockSize.toNat) fun (i : Nat) => do
    let next ← checked (sector + i)
    transfer (block + 0x200 * i) next

def fileBlockRead (fb : Nat) (ino : Int) : Routine Unit := blockLoop sectorRead fb ino

def fileBlockWrite (fb : Nat) (ino : Int) : Routine Unit := blockLoop sectorWrite fb ino

def dirBlockRead (db : Nat) (ino : Int) : Routine Unit := blockLoop sectorRead db ino

def dirBlockWrite (db : Nat) (ino : Int) : Routine Unit := blockLoop sectorWrite db ino

def superblockInit (L : Layout) : Routine Unit :=
  onObject L.superblock superblockSize freshSuperblock

def inodeMapInit (L : Layout) : Routine Unit :=
  onObject L.inodeMap inodeMapSize fun map =>
    (List.range 0x400).foldl (fun m i => setWord (4 * i) 0 m) map

def dirInit (L : Layout) : Routine Unit := do
  let ino ← wordAt (L.inode + offIno)
  let fatherIno ← wordAt (L.inode + offFatherIno)
  onObject L.block blockSize (freshDirBlock ino fatherIno)
  dirBlockWrite L.block ino.toInt

def fileInit (L : Layout) : Routine Unit := do
  let ino ← wordAt (L.inode + offIno)
  onObject L.block blockSize (setWord 0 0)
  fileBlockWrite L.block ino.toInt

def inodeCreate (L : Layout) (ino mode : Files.Word) (name : CString)
    (fatherIno timer : Files.Word) : Routine Unit :=
  if inodeSize ≤ name.val.length then .undefined
  else do
    onObject L.inode inodeSize (inodeInit ino mode name fatherIno timer)
    if (← wordAt (L.inode + offMode)) = Files.dir then dirInit L
    else fileInit L
    inodeWrite L L.inode ino.toInt

/-- `strcpy(shell_path_head, shell_path_inode.name)`; the name has to end inside the inode. -/
def copyHead (L : Layout) : Routine Unit := do
  let name ← read fun s => cstring s.memory L.shellPathInode inodeSize
  if name.length < inodeSize then
    change fun s => { s with memory := strcpy L.shellPathHead name s.memory }
  else .undefined

def mount (L : Layout) : Routine Unit := do
  let ino ← wordAt (L.superblock + offRootDirIno)
  inodeRead L.shellPathInode ino.toInt
  copyHead L

def doMakefs (L : Layout) (timer : Files.Word) : Routine Unit := do
  superblockRead L
  let magic ← wordAt (L.superblock + offMagic)
  if magic = fsMagic then
    inodeMapRead L
    mount L
  else
    superblockInit L
    inodeMapInit L
    let ino ← inodeAlloc L
    if ino ≠ 0 then pure ()
    else
      inodeCreate L rootDirIno Files.dir tilde rootDirIno timer
      superblockWrite L
      inodeMapWrite L
      mount L

def deletefs (L : Layout) : Routine Unit := do
  superblockRead L
  let magic ← wordAt (L.superblock + offMagic)
  if magic ≠ fsMagic then pure ()
  else
    onObject L.superblock superblockSize (setWord offMagic 0)
    superblockWrite L

/-- The six fields it prints. -/
def statfs (L : Layout) : Routine (List Files.Word) := do
  superblockRead L
  read fun s => (List.range 6).map fun i => word s.memory (L.superblock + 4 * i)

end Tina.Card
