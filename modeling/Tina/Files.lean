import Tina.Disk

/-! `fs.c`, `path.c` and `text.c`. What uninitialised locals hold, what lies beyond the
local blocks on the stack and what the clock says are parameters. A store outside an
object, or through an unset pointer, is `undefined`. -/
namespace Tina.Files

open ByteBuffer Atomic

def dot : CString := ⟨[0x2e], by decide⟩
def dotDot : CString := ⟨[0x2e, 0x2e], by decide⟩
def tilde : CString := ⟨[0x7e], by decide⟩
def slash : Byte := 0x2f

/-- The stack and the clock during one call. -/
structure Locals where
  db : Buffer
  inode : Buffer
  block : Buffer
  timer : Word

def dentryIno (db : Buffer) (i : Nat) : Word := word db (dentrySize * i)
def dentryMode (db : Buffer) (i : Nat) : Word := word db (dentrySize * i + offDentryMode)
def dentryName (i : Nat) : Nat := dentrySize * i + offDentryName

/-- `inode_read(dest, superblock.root_dir_ino)` and the like. -/
def rootIno : Routine Word := read fun s => word s.superblock offRootDirIno
def shellPathIno : Routine Word := read fun s => word s.shellPathInode offIno
def curDirIno : Routine Word := read fun s => word s.curDir offIno

/-- The fields between `magic` and `root_dir_ino` are only printed. -/
def freshSuperblock (sb : Buffer) : Buffer :=
  let sb := setWord offMagic fsMagic sb
  let sb := setWord offRootDirIno rootDirIno sb
  let sb := setWord 4 0x20000000 sb
  let sb := setWord 8 fsInodeMapBase sb
  let sb := setWord 12 8 sb
  let sb := setWord 16 fsInodeTableBase sb
  setWord 20 0x1000 sb

def superblockInit : Routine Unit :=
  change fun s => { s with superblock := freshSuperblock s.superblock }

def inodeMapInit : Routine Unit :=
  change (onInodeMap fun map => (List.range 0x400).foldl (fun m i => setWord (4 * i) 0 m) map)

/-- `dentry[i]` gets a number, a mode and a name. The name may run over what follows. -/
def setDentry (i : Nat) (ino mode : Word) (name : CString) (db : Buffer) : Buffer :=
  let db := setWord (dentrySize * i) ino db
  let db := setWord (dentrySize * i + offDentryMode) mode db
  strcpy (dentryName i) name.val db

def freeDentries (db : Buffer) : Buffer :=
  (List.range dentrysPerBlock).foldl (fun d i => setWord (dentrySize * i) noIno d) db

/-- The block that `dir_init` fills. -/
def freshDirBlock (ino fatherIno : Word) (db : Buffer) : Buffer :=
  let db := freeDentries db
  let db := setDentry 0 ino dir dot db
  setDentry 1 fatherIno dir dotDot db

def dirInit (inode db : Buffer) : Routine Unit :=
  dirBlockWrite (freshDirBlock (word inode offIno) (word inode offFatherIno) db)
    (word inode offIno)

/-- Only the first word of the block is set. -/
def fileInit (inode fb : Buffer) : Routine Unit :=
  fileBlockWrite (setWord 0 0 fb) (word inode offIno)

/-- A long name runs over the fields after `name`, some of them already set. -/
def inodeInit (ino mode : Word) (name : CString) (fatherIno timer : Word) (inode : Buffer) :
    Buffer :=
  let inode := setWord offFatherIno fatherIno inode
  let inode := setWord offIno ino inode
  let inode := setWord offMode mode inode
  let inode := strcpy 0 name.val inode
  let inode := setWord offPtr (fsDataBase + ino) inode
  let inode := setWord offSize 1 inode
  setWord offTimestamp timer inode

def inodeCreate (ino mode : Word) (name : CString) (fatherIno : Word) (locals : Locals) :
    Routine Unit :=
  if inodeSize ≤ name.val.length then .undefined
  else do
    let inode := inodeInit ino mode name fatherIno locals.timer locals.inode
    if word inode offMode = dir then dirInit inode locals.block
    else fileInit inode locals.block
    inodeWrite inode ino

def inodeDelete (ino : Word) : Routine Unit := do
  modifyInodeMap 0 ino.toInt
  inodeMapWrite

/-- `strcpy(shell_path_head, shell_path_inode.name)`. -/
def copyHead : Routine Unit :=
  change fun s => { s with
    shellPathHead := strcpy 0 (cstring s.shellPathInode 0 inodeSize) s.shellPathHead }

def mount : Routine Unit := do
  inodeRead onShellPathInode (← rootIno)
  copyHead

def doMakefs (locals : Locals) : Routine Unit := do
  superblockRead
  let magic ← read fun s => word s.superblock offMagic
  if magic = fsMagic then
    inodeMapRead
    mount
  else
    superblockInit
    inodeMapInit
    let ino ← inodeAlloc
    if ino ≠ 0 then pure ()
    else
      inodeCreate rootDirIno dir tilde rootDirIno locals
      superblockWrite
      inodeMapWrite
      mount

/-- The loop that looks for a free dentry. -/
def freeSlot (db : Buffer) (bound : Nat) : Nat := scan bound fun i => dentryIno db i = noIno

/-- The common body of `make_directory` and `touch_file`, which scan to different bounds. -/
def createEntry (bound : Nat) (mode : Word) (name : CString) (locals : Locals) :
    Routine Unit := do
  let db ← dirBlockRead locals.db (← shellPathIno)
  let i := freeSlot db bound
  let ino ← inodeAlloc
  inodeCreate ino mode name (← shellPathIno) locals
  if i < dentrysPerBlock ∧ dentryName i + name.val.length < blockSize then
    dirBlockWrite (setDentry i ino mode name db) (← shellPathIno)
  else .undefined

/-- Without an argument nothing happens. -/
def makeDirectory (name : Option CString) (locals : Locals) : Routine Unit :=
  match name with
  | none => pure ()
  | some dirName => createEntry dentrysPerBlock dir dirName locals

def touchFile (name : Option CString) (locals : Locals) : Routine Unit :=
  match name with
  | none => pure ()
  | some fileName => createEntry 0x200 file fileName locals

/-- A live dentry of that mode and name. -/
def matchesEntry (db : Buffer) (mode : Word) (name : CString) (i : Nat) : Bool :=
  dentryIno db i ≠ noIno ∧ dentryMode db i = mode ∧ strcmp db (dentryName i) name.val = 0

/-- The common loop of `remove_directory` and `remove_file`: the inode is deleted in it, and
the block written after it. -/
def removeEntry (mode : Word) (name : CString) (db : Buffer) : Routine Unit := do
  let i := scan dentrysPerBlock (matchesEntry db mode name)
  if i < dentrysPerBlock then
    inodeDelete (dentryIno db i)
    dirBlockWrite (setWord (dentrySize * i) noIno db) (← shellPathIno)
  else dirBlockWrite db (← shellPathIno)

def removeDirectory (name : Option CString) (locals : Locals) : Routine Unit :=
  match name with
  | none => pure ()
  | some dirName => do
    let db ← dirBlockRead locals.db (← shellPathIno)
    if dirName = dot ∨ dirName = dotDot then pure ()
    else removeEntry dir dirName db

def removeFile (name : Option CString) (locals : Locals) : Routine Unit :=
  match name with
  | none => pure ()
  | some fileName => do
    let db ← dirBlockRead locals.db (← shellPathIno)
    removeEntry file fileName db

mutual
/-- The outer loop of `decode_path` that splits `buf`; the argument is what is left of it.
A slash that ends a component is overwritten, the others are skipped. -/
def skipLoop : List Byte → List (List Byte)
  | [] => []
  | c :: s => if c = slash then skipLoop s else componentLoop [c] s

def componentLoop (component : List Byte) : List Byte → List (List Byte)
  | [] => [component]
  | c :: s => if c = slash then component :: skipLoop s else componentLoop (component ++ [c]) s
end

/-- The first byte of `buf` is never overwritten. -/
def initCurDir (s : Option Byte) : Routine Unit := do
  if s = some slash then inodeRead onCurDir (← rootIno)
  else inodeRead onCurDir (← shellPathIno)

/-- Every live entry that is no file counts as a directory. -/
def leadsTo (db : Buffer) (component : List Byte) (j : Nat) : Bool :=
  dentryIno db j ≠ noIno ∧ dentryMode db j ≠ file ∧ strcmp db (dentryName j) component = 0

/-- The loop over `dir_args`. -/
def walkPath (stack : Buffer) : List (List Byte) → Routine Int
  | [] => pure 1
  | component :: rest => do
    let db ← dirBlockRead stack (← curDirIno)
    let j := scan dentrysPerBlock (leadsTo db component)
    if j = dentrysPerBlock then pure (-1)
    else do
      inodeRead onCurDir (dentryIno db j)
      walkPath stack rest

/-- `buf` has 32 bytes and `dir_args` 16 elements. -/
def decodePath (dirName : CString) (stack : Buffer) : Routine Int :=
  let dirArgs := skipLoop dirName.val
  if 32 ≤ dirName.val.length ∨ 16 < dirArgs.length then .undefined
  else do
    initCurDir dirName.val.head?
    walkPath stack dirArgs

/-- Without an argument the name is copied to where an unset pointer points. -/
def changeDirectory (name : Option CString) (stack : Buffer) : Routine Unit :=
  match name with
  | none => .undefined
  | some dirName => do
    let found ← decodePath dirName stack
    if found < 0 then pure ()
    else
      inodeRead onShellPathInode (← curDirIno)
      copyHead

/-- The names it prints; none for an error. -/
def listDirectory (name : Option CString) (stack : Buffer) : Routine (Option (List (List Byte))) :=
  match name with
  | none => .undefined
  | some dirName => do
    let found ← decodePath dirName stack
    if found < 0 then pure none
    else
      let db ← dirBlockRead stack (← curDirIno)
      return some (((List.range dentrysPerBlock).filter fun i => dentryIno db i ≠ noIno).map
        fun i => cstring db (dentryName i) (blockSize - dentryName i))

/-- The text it prints; none for an error. It scans far beyond the block. -/
def catFile (name : Option CString) (stack : Buffer) : Routine (Option (List Byte)) :=
  match name with
  | none => pure none
  | some fileName => do
    let db ← dirBlockRead stack (← shellPathIno)
    let i := scan 0x200 (matchesEntry db file fileName)
    if i = 0x200 then pure none
    else
      let fb ← fileBlockRead stack (dentryIno db i)
      return some (cstring fb 0 blockSize)

/-- `fd[fd_index]` is set and `fd_index` incremented. -/
def pushDescriptor (ino : Word) : Routine Int := do
  let index ← read FileSystem.fdIndex
  if index < fdNum then
    change fun s => { s with
      fd := Function.update s.fd index ⟨ino, 0⟩
      fdIndex := index + 1 }
    return index
  else .undefined

/-- `stack` lies beyond its own block, `locals` are those of the call of `touch_file`. -/
def sysFopen (name : CString) (stack : Buffer) (locals : Locals) : Routine Int := do
  let db ← dirBlockRead stack (← shellPathIno)
  let i := scan 0x200 (matchesEntry db file name)
  if i < 0x200 then pushDescriptor (dentryIno db i)
  else
    touchFile (some name) locals
    let db ← dirBlockRead stack (← shellPathIno)
    let i := scan 0x200 (matchesEntry db file name)
    if i < 0x200 then pushDescriptor (dentryIno db i) else return 0

def setPos (index : Nat) (pos : Word → Word) : Routine Unit :=
  change fun s => { s with
    fd := Function.update s.fd index ⟨(s.fd index).ino, pos (s.fd index).pos⟩ }

def descIno (index : Nat) : Routine Word := read fun s => (s.fd index).ino
def descPos (index : Nat) : Routine Nat := read fun s => (s.fd index).pos.toNat

/-- The bytes it reads. The local block has `blockSize` bytes. -/
def sysFread (index size : Nat) (stack : Buffer) : Routine (List Byte) :=
  if fdNum ≤ index then .undefined
  else do
    let fb ← fileBlockRead stack (← descIno index)
    let pos ← descPos index
    if blockSize < pos + size then .undefined
    else
      setPos index (· + BitVec.ofNat 32 size)
      return (List.range size).map fun k => fb (pos + k)

def sysFwrite (index : Nat) (buf : List Byte) (stack : Buffer) : Routine Nat :=
  if fdNum ≤ index then .undefined
  else do
    let fb ← fileBlockRead stack (← descIno index)
    let pos ← descPos index
    if blockSize < pos + buf.length then .undefined
    else
      fileBlockWrite (copy fb pos (fun k => buf.getD k 0) 0 buf.length) (← descIno index)
      setPos index (· + BitVec.ofNat 32 buf.length)
      return buf.length

def sysFseek (index : Nat) (pos : Word) : Routine Unit :=
  if fdNum ≤ index then .undefined else setPos index fun _ => pos

def sysFclose (index : Nat) (stack : Buffer) : Routine Unit := do
  let _ ← sysFwrite index [0] stack
  setPos index fun _ => 0

end Tina.Files
