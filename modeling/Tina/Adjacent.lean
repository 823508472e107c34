import Tina.Dialogue
import Tina.Neighbours
import Tina.Relational

/-! The globals of the file system as the bytes that they are in memory. Where `inode_map` comes
right after `superblock`, `do_makefs`, `statfs` and `deletefs` do to these bytes what they do to
the globals by themselves. -/
namespace Tina.Card

open ByteBuffer Atomic Transition
open Tina.Files (fsMagic rootDirIno blockSize inodeSize superblockSize inodeBound offMagic
  offRootDirIno offIno offMode offFatherIno mapAddress superblockAddress
  blockAddress tableAddress freshSuperblock
  inodeInit freshDirBlock tilde bitmapSearch bitmapModify)

variable {L : Layout} {s t : State} {v w : Files.FileSystem} {locals : Files.Locals} {k n : Nat}
  {ino : Files.Word}

/-- The objects of a layout. -/
inductive Part where
  | superblock
  | inodeMap
  | shellPathInode
  | shellPathHead
  | inode
  | block
  | ie
  deriving DecidableEq

def Part.object (L : Layout) : Part → Object
  | .superblock => L.superblockObject
  | .inodeMap => L.inodeMapObject
  | .shellPathInode => L.shellPathInodeObject
  | .shellPathHead => L.shellPathHeadObject
  | .inode => L.inodeObject
  | .block => L.blockObject
  | .ie => L.ieObject

/-- The globals, and the locals before they are set. What `ie` holds is never asked for. -/
def Part.content (locals : Files.Locals) (v : Files.FileSystem) : Part → Buffer
  | .superblock => v.superblock
  | .inodeMap => v.inodeMap
  | .shellPathInode => v.shellPathInode
  | .shellPathHead => v.shellPathHead
  | .inode => locals.inode
  | .block => locals.block
  | .ie => fun _ => 0

def Part.index : Part → Fin 7
  | .superblock => 0
  | .inodeMap => 1
  | .shellPathInode => 2
  | .shellPathHead => 3
  | .inode => 4
  | .block => 5
  | .ie => 6

theorem Part.apart {x y : Part} (other : x ≠ y) : (x.object L).Apart (y.object L) := by
  have place : ∀ z : Part, z.object L = L.objects.get z.index := by
    intro z
    cases z <;> rfl
  have different : x.index ≠ y.index := by
    intro same
    cases x <;> cases y <;> first | exact other rfl | cases same
  have inOrder := List.pairwise_iff_get.mp L.pairwise
  rw [place x, place y]
  rcases lt_or_gt_of_ne different with before | after
  · exact inOrder _ _ before
  · exact (inOrder _ _ after).symm

/-- The memory holds the objects in `parts`, and the card is the same. -/
structure Pictures (L : Layout) (locals : Files.Locals) (parts : List Part) (s : State)
    (v : Files.FileSystem) : Prop where
  disk : v.disk = s.disk
  bytes : ∀ x ∈ parts, ∀ k < (x.object L).size,
    x.content locals v k = s.memory ((x.object L).start + k)

def globals : List Part := [.superblock, .inodeMap, .shellPathInode, .shellPathHead]

variable {parts l : List Part} {x : Part}

theorem Pictures.fewer {fewer : List Part} (pictures : Pictures L locals parts s v)
    (less : ∀ x ∈ fewer, x ∈ parts) : Pictures L locals fewer s v :=
  ⟨pictures.disk, fun x known => pictures.bytes x (less x known)⟩

theorem Pictures.otherLocals {locals' : Files.Locals} (pictures : Pictures L locals globals s v) :
    Pictures L locals' globals s v where
  disk := pictures.disk
  bytes x known k inside := by
    rw [← pictures.bytes x known k inside]
    cases x with
    | superblock | inodeMap | shellPathInode | shellPathHead => rfl
    | inode | block | ie => exact absurd known (by decide)

/-- The objects in `l` change on both sides. -/
theorem Pictures.altered (pictures : Pictures L locals parts s v) (disk : w.disk = t.disk)
    (frame : Frame (l.map (Part.object L)) s t)
    (kept : ∀ x, x ∉ l → x.content locals w = x.content locals v)
    (new : ∀ x ∈ l, x ∈ parts → ∀ k < (x.object L).size,
      x.content locals w k = t.memory ((x.object L).start + k)) :
    Pictures L locals parts t w where
  disk := disk
  bytes x known k inside := by
    by_cases changed : x ∈ l
    · exact new x changed known k inside
    · rw [kept x changed, pictures.bytes x known k inside]
      refine (frame.byte (fun o member => ?_) inside).symm
      obtain ⟨y, there, rfl⟩ := List.mem_map.mp member
      refine Part.apart ?_
      rintro rfl
      exact changed there

theorem Pictures.altered_one (pictures : Pictures L locals parts s v) (disk : w.disk = t.disk)
    (frame : Frame [x.object L] s t)
    (kept : ∀ y, y ≠ x → y.content locals w = y.content locals v)
    (new : x ∈ parts → ∀ k < (x.object L).size,
      x.content locals w k = t.memory ((x.object L).start + k)) : Pictures L locals parts t w := by
  refine pictures.altered (l := [x]) disk frame (fun y other => kept y (by simpa using other)) ?_
  intro y one
  obtain rfl := List.mem_singleton.mp one
  exact new

/-- Only the card changes. -/
theorem Pictures.stored (pictures : Pictures L locals parts s v) (same : t.memory = s.memory)
    {d : Buffer} (disk : d = t.disk) : Pictures L locals parts t { v with disk := d } where
  disk := disk
  bytes x known k inside := by
    rw [same, ← pictures.bytes x known k inside]
    cases x <;> rfl

theorem Pictures.word (pictures : Pictures L locals parts s v) (known : x ∈ parts)
    (inside : k + 4 ≤ (x.object L).size) :
    word s.memory ((x.object L).start + k) = word (x.content locals v) k := by
  refine word_congr fun j low high => ?_
  obtain ⟨e, rfl⟩ := Nat.exists_eq_add_of_le low
  rw [pictures.bytes x known _ (by omega)]
  congr 1
  omega

/-! The routines. -/

/-- A routine of the memory does to the pictured objects what that of the globals does. -/
abbrev Follows (L : Layout) (locals : Files.Locals) (parts : List Part) (p : Routine Unit)
    (q : Files.Routine Unit) : Prop :=
  Simulates (Pictures L locals parts) p q fun _ _ => Pictures L locals parts

theorem wordAt_simulates (known : .superblock ∈ parts) (inside : k + 4 ≤ superblockSize) :
    Simulates (Pictures L locals parts) (wordAt (L.superblock + k))
      (read fun v => word v.superblock k)
      fun a b s v => a = b ∧ Pictures L locals parts s v :=
  .read fun _ _ pictures => ⟨pictures.word (x := .superblock) known inside, pictures⟩

/-- Stores into one object that depend on nothing behind it. -/
theorem onObject_follows {g : Buffer → Buffer} {act : Files.FileSystem → Files.FileSystem}
    (local' : LocalTo (x.object L).size g) (disk : ∀ v, (act v).disk = v.disk)
    (kept : ∀ v y, y ≠ x → y.content locals (act v) = y.content locals v)
    (new : ∀ v, x.content locals (act v) = g (x.content locals v)) :
    Follows L locals parts (onObject (x.object L).start (x.object L).size g) (change act) := by
  refine .change fun s v pictures => ?_
  have edit : edited (x.object L).start (x.object L).size g s = { s with
      memory := copy s.memory (x.object L).start (g fun k => s.memory ((x.object L).start + k)) 0
        (x.object L).size } := rfl
  rw [← edit]
  refine pictures.altered_one ((disk v).trans pictures.disk) (edited_frame (Nat.le_refl _))
    (kept v) fun known k inside => ?_
  rw [byte_edited inside, new]
  exact local' _ _ (pictures.bytes x known) k inside

theorem checkIno_word : checkIno ino.toInt ↔ Files.checkIno ino := Iff.rfl

theorem toInt_of_small (inside : ¬Files.checkIno ino) :
    ino.toNat < inodeBound ∧ ino.toInt.toNat = ino.toNat := by
  simp only [Files.checkIno, inodeBound, BitVec.toInt_eq_toNat_cond] at inside ⊢
  split at inside
  · omega
  · have := ino.isLt
    omega

theorem inodeRead_follows : Follows L locals parts (inodeRead L.shellPathInode ino.toInt)
    (Files.inodeRead Files.onShellPathInode ino) := by
  refine .of_runs fun s v pictures => ?_
  obtain ⟨t, result, frame, disk, bytes⟩ := run_inodeRead L ino.toInt s
  by_cases outside : Files.checkIno ino
  · have same : t = s := by
      rw [inodeRead, if_pos (checkIno_word.mpr outside), run_pure] at result
      exact (Prod.mk.inj (Option.some.inj result)).2.symm
    exact ⟨(), t, (), v, result, by rw [Files.inodeRead, if_pos outside, run_pure],
      same ▸ pictures⟩
  · obtain ⟨small, number⟩ := toInt_of_small outside
    refine ⟨(), t, (), _, result, Files.run_inodeRead small, ?_⟩
    refine pictures.altered_one (x := .shellPathInode) (pictures.disk.trans disk.symm) frame
      (fun y other => ?_) fun _ k inside => ?_
    · cases y <;> first | rfl | exact absurd rfl other
    · have moved := bytes k inside
      rw [mountedInode, if_neg (mt checkIno_word.mp outside), number] at moved
      exact (copy_start inside).trans ((congrFun pictures.disk _).trans moved.symm)

theorem inodeMapRead_follows : Follows L locals parts (inodeMapRead L) Files.inodeMapRead := by
  refine .of_runs fun s v pictures => ?_
  obtain ⟨t, result, loads⟩ := map_loads L.inodeMap s (Nat.le_refl 8)
  refine ⟨(), t, (), _, result, Files.run_inodeMapRead, ?_⟩
  refine pictures.altered_one (x := .inodeMap) (pictures.disk.trans loads.disk.symm)
    (frame_copy (Nat.le_refl _) loads.memory) (fun y other => ?_) fun _ k inside => ?_
  · cases y <;> first | rfl | exact absurd rfl other
  · have moved : t.memory (L.inodeMap + k) = s.disk (mapAddress + k) := by
      rw [loads.memory]
      exact copy_inside inside
    exact (copy_start inside).trans ((congrFun pictures.disk _).trans moved.symm)

theorem inodeMapWrite_follows (known : .inodeMap ∈ parts) :
    Follows L locals parts (inodeMapWrite L) Files.inodeMapWrite := by
  refine .of_runs fun s v pictures => ?_
  obtain ⟨t, result, stores, same⟩ := map_stores L.inodeMap L.inodeMapObject s (Nat.le_refl 8)
  refine ⟨(), t, (), _, result, Files.run_inodeMapWrite, pictures.stored same ?_⟩
  rw [stores.disk, pictures.disk]
  refine copy_congr fun k inside => ?_
  rw [Nat.zero_add]
  exact pictures.bytes .inodeMap known k inside

/-! A new file system. -/

theorem freshSuperblock_local : LocalTo n freshSuperblock :=
  localTo_setWord.comp <| localTo_setWord.comp <| localTo_setWord.comp <| localTo_setWord.comp <|
    localTo_setWord.comp <| localTo_setWord.comp localTo_setWord

theorem onSuperblock_follows {g : Buffer → Buffer} (local' : LocalTo superblockSize g) :
    Follows L locals parts (onObject L.superblock superblockSize g)
      (change fun v => { v with superblock := g v.superblock }) := by
  refine onObject_follows (x := .superblock) local' (fun _ => rfl) (fun v y other => ?_)
    fun _ => rfl
  cases y <;> first | rfl | exact absurd rfl other

theorem superblockInit_follows :
    Follows L locals parts (superblockInit L) Files.superblockInit :=
  onSuperblock_follows freshSuperblock_local

theorem zeroMap_local : LocalTo n Files.zeroMap := by
  have each : ∀ i : Nat, LocalTo n (setWord (4 * i) 0) := fun _ => localTo_setWord
  unfold Files.zeroMap
  exact localTo_foldl each (List.range 0x400)

theorem onInodeMap_follows {g : Buffer → Buffer} (local' : LocalTo inodeMapSize g) :
    Follows L locals parts (onObject L.inodeMap inodeMapSize g) (change (Files.onInodeMap g)) := by
  refine onObject_follows (x := .inodeMap) local' (fun _ => rfl) (fun v y other => ?_) fun _ => rfl
  cases y <;> first | rfl | exact absurd rfl other

theorem inodeMapInit_follows : Follows L locals parts (inodeMapInit L) Files.inodeMapInit :=
  onInodeMap_follows (g := Files.zeroMap) zeroMap_local

/-- The search reads words of the map only. -/
theorem bitmapSearch_congr {b b' : Buffer} (same : ∀ k < inodeMapSize, b k = b' k) :
    bitmapSearch b 0 inodeBound = bitmapSearch b' 0 inodeBound := by
  have words : ∀ i < inodeBound / 32, Files.searchWord b 0 i = Files.searchWord b' 0 i := by
    intro i small
    simp only [inodeBound] at small
    rw [Files.searchWord, Files.searchWord, word_same same (by simp only [inodeMapSize]; omega)]
  rw [Files.bitmapSearch_eq (.inl rfl), Files.bitmapSearch_eq (.inl rfl)]
  refine congrArg (Option.getD · (-2)) ?_
  generalize inodeBound / 32 = n at words
  induction n with
  | zero => rfl
  | succ n ih =>
    have last := words n (Nat.lt_succ_self n)
    rw [List.range_succ, List.findSome?_append, List.findSome?_append,
      ih fun i small => words i (Nat.lt_succ_of_lt small)]
    simp only [List.findSome?_cons, List.findSome?_nil, last]

theorem bitmapModify_local {target : Files.Word} {o : Int}
    (inside : 0 ≤ o.tdiv 32 ∧ o.tdiv 32 < 0x400) :
    LocalTo inodeMapSize fun map => bitmapModify map target o := by
  intro b b' same k low
  have place : word b (4 * (o.tdiv 32).toNat) = word b' (4 * (o.tdiv 32).toNat) :=
    word_same same (by simp only [inodeMapSize]; omega)
  simp only [bitmapModify]
  split
  · exact same k low
  · rw [place]
    exact localTo_setWord _ _ same k low

theorem inodeAlloc_simulates (known : .inodeMap ∈ parts) :
    Simulates (Pictures L locals parts) (inodeAlloc L) Files.inodeAlloc
      fun i ino s v => (i = 0 ↔ ino = 0) ∧ Pictures L locals parts s v := by
  refine Simulates.bind_same (S := Pictures L locals parts) (.read fun s v pictures =>
    ⟨(bitmapSearch_congr (pictures.bytes .inodeMap known)).symm, pictures⟩) fun i => ?_
  by_cases inside : 0 ≤ i.tdiv 32 ∧ i.tdiv 32 < 0x400
  · rw [modifyInodeMap, if_pos inside, Files.modifyInodeMap, if_pos inside]
    refine (onInodeMap_follows (bitmapModify_local inside)).bind fun _ _ =>
      (inodeMapWrite_follows known).bind fun _ _ => .pure ?_
    refine fun s v pictures => ⟨?_, pictures⟩
    have parts := Int.mul_tdiv_add_tmod i 32
    have low := Int.lt_tmod_of_pos i (by decide : (0 : Int) < 32)
    have high := Int.tmod_lt_of_pos i (by decide : (0 : Int) < 32)
    have number : (BitVec.ofInt 32 i).toInt = i := by
      rw [BitVec.toInt_ofInt, Int.bmod_eq_of_le (by omega) (by omega)]
    refine ⟨fun zero => by rw [zero]; rfl, fun zero => ?_⟩
    rw [← number, zero]
    rfl
  · rw [modifyInodeMap, if_neg inside]
    exact .undefined

theorem inodeInit_local {mode fatherIno timer : Files.Word} {name : CString} :
    LocalTo n (inodeInit ino mode name fatherIno timer) :=
  localTo_setWord.comp <| localTo_setWord.comp <| localTo_setWord.comp <| localTo_strcpy.comp <|
    localTo_setWord.comp <| localTo_setWord.comp localTo_setWord

/-- The root directory is made from the locals as they are before. -/
theorem inodeCreate_simulates : Simulates (Pictures L locals (globals ++ [.inode, .block]))
    (inodeCreate L rootDirIno Files.dir tilde rootDirIno locals.timer)
    (Files.inodeCreate rootDirIno Files.dir tilde rootDirIno locals)
    fun _ _ => Pictures L locals globals := by
  refine .of_runs fun s v pictures => ?_
  obtain ⟨t, result, frame, disk⟩ := run_inodeCreate L locals.timer s
  refine ⟨(), t, (), _, result, Files.run_inodeCreate (by decide) (by decide), ?_⟩
  have less : ∀ x ∈ globals, x ∈ globals ++ [.inode, .block] := by decide
  have other : ∀ x ∈ [Part.inode, .block, .ie], x ∉ globals := by decide
  refine (pictures.fewer less).altered (l := [.inode, .block, .ie]) ?_ frame (fun x _ => ?_)
    fun x one known => absurd known (other x one)
  · have block : blockAddress rootDirIno = 0x20000000 := by decide
    have table : tableAddress rootDirIno = 0x3fc00000 := by decide
    have root : copy s.disk 0x20000000 (Files.newBlock Files.dir rootDirIno rootDirIno
        locals.block) 0 blockSize = copy s.disk 0x20000000 (freshDirBlock rootDirIno rootDirIno
          fun k => s.memory (L.block + k)) 0 blockSize := by
      refine copy_congr fun k inside => ?_
      rw [Nat.zero_add, Files.newBlock, if_pos rfl]
      exact freshDirBlock_local _ _ (pictures.bytes .block (by decide)) k inside
    rw [disk, block, table, pictures.disk, root]
    refine copy_congr fun k inside => ?_
    rw [Nat.zero_add]
    exact inodeInit_local _ _ (pictures.bytes .inode (by decide)) k inside
  · cases x <;> rfl

theorem copyHead_follows (known : .shellPathInode ∈ parts) :
    Follows L locals parts (copyHead L) Files.copyHead := by
  intro s v _ t pictures ends
  have same : cstring s.memory L.shellPathInode inodeSize =
      cstring v.shellPathInode 0 inodeSize := cstring_congr fun k inside => by
    rw [Nat.zero_add]
    exact (pictures.bytes .shellPathInode known k inside).symm
  rw [copyHead, run_then run_read] at ends
  split at ends
  next short =>
    have small : (cstring s.memory L.shellPathInode inodeSize).length < 0x40 := short
    cases ends
    refine ⟨(), _, run_change, ?_⟩
    refine pictures.altered_one (x := .shellPathHead) pictures.disk ?_ (fun y other => ?_)
      fun known k inside => ?_
    · intro a outside
      have head := outside L.shellPathHeadObject (List.mem_singleton_self _)
      simp only [Object.Has, Layout.shellPathHeadObject, shellPathHeadSize] at head
      exact strcpy_outside (by omega)
    · cases y <;> first | rfl | exact absurd rfl other
    · have before := localTo_strcpy (a := 0) (s := cstring v.shellPathInode 0 inodeSize)
        _ _ (pictures.bytes .shellPathHead known) k inside
      refine before.trans ?_
      rw [same]
      exact strcpy_shift.symm
  next => cases ends

theorem mount_follows (superblock : .superblock ∈ parts) (inode : .shellPathInode ∈ parts) :
    Follows L locals parts (mount L) Files.mount :=
  (wordAt_simulates superblock (by decide)).bind_same fun _ =>
    inodeRead_follows.bind fun _ _ => copyHead_follows inode

/-- A command of the shell that moves the superblock ends on the memory. -/
inductive Does (L : Layout) (s : State) : Console.Command → State → Prop where
  | mkfs {timer : Files.Word} {t : State} (ends : run (doMakefs L timer) s = some ((), t)) :
    Does L s .mkfs t
  | statfs {fields : List Files.Word} {t : State} (ends : run (statfs L) s = some (fields, t)) :
    Does L s .statfs t
  | delfs {t : State} (ends : run (deletefs L) s = some ((), t)) : Does L s .delfs t

/-- The command ends on the globals. -/
def Obeys (v : Files.FileSystem) (c : Console.Command) (w : Files.FileSystem) : Prop :=
  ∃ stack messages, run (Console.Call.routine stack (.plain c)) v = some (messages, w)

section Adjacent

variable (adjacent : L.inodeMap = L.superblock + superblockSize)

include adjacent

/-- A sector goes to the superblock and to the beginning of the map behind it. -/
theorem superblockRead_follows :
    Follows L locals parts (superblockRead L) Files.superblockRead := by
  refine .of_runs fun s v pictures => ?_
  obtain ⟨t, result, loads⟩ := superblock_loads L s
  have header : superblockSize = 28 := rfl
  have sector : blockSize = 0x200 := rfl
  have map : inodeMapSize = 0x1000 := rfl
  refine ⟨(), t, (), _, result, Files.run_superblockRead, ?_⟩
  refine pictures.altered (l := [.superblock, .inodeMap])
    (pictures.disk.trans loads.disk.symm) ?_ (fun y other => ?_) ?_
  · intro a outside
    have first := outside L.superblockObject List.mem_cons_self
    have second := outside L.inodeMapObject (List.mem_cons_of_mem _ List.mem_cons_self)
    simp only [Object.Has, Layout.superblockObject, Layout.inodeMapObject] at first second
    rw [loads.memory, copy_outside (by omega)]
  · cases y <;> first | rfl | simp at other
  · simp only [List.forall_mem_cons, List.not_mem_nil, false_implies, implies_true, and_true]
    refine ⟨fun _ k inside => ?_, fun known k inside => ?_⟩
    · have low : k < superblockSize := inside
      rw [loads.memory]
      refine (copy_start low).trans ((congrFun pictures.disk _).trans ?_)
      exact (copy_inside (Nat.lt_trans low (by decide))).symm
    · have old := pictures.bytes .inodeMap known k inside
      have place : (Part.object L .inodeMap).start + k = L.superblock + (superblockSize + k) := by
        rw [← Nat.add_assoc, ← adjacent]
        rfl
      rw [place] at old ⊢
      rw [loads.memory]
      by_cases first : k < blockSize - superblockSize
      · refine (copy_start first).trans ((congrFun pictures.disk _).trans ?_)
        rw [copy_inside (by omega), Nat.add_assoc]
      · rw [copy_outside (by omega), ← old]
        exact copy_outside (by omega)

theorem superblockWrite_follows (superblock : .superblock ∈ parts) (inodeMap : .inodeMap ∈ parts) :
    Follows L locals parts (superblockWrite L) Files.superblockWrite := by
  refine .of_runs fun s v pictures => ?_
  obtain ⟨t, result, stores, same⟩ := superblock_stores L L.superblockObject s
  refine ⟨(), t, (), _, result, Files.run_superblockWrite, pictures.stored same ?_⟩
  rw [stores.disk, pictures.disk]
  refine copy_congr fun k inside => ?_
  rw [Nat.zero_add]
  by_cases first : k < superblockSize
  · exact (Files.superblockBytes_start first).trans (pictures.bytes .superblock superblock k first)
  · obtain ⟨j, rfl⟩ := Nat.exists_eq_add_of_le (Nat.le_of_not_lt first)
    have beyond : Files.superblockBytes v.superblock v.inodeMap (superblockSize + j) =
        v.inodeMap j := by
      rw [Files.superblockBytes, copy_outside (by omega), Nat.add_sub_cancel_left]
    have small : j < inodeMapSize :=
      Nat.lt_of_le_of_lt (Nat.le_add_left ..) (Nat.lt_trans inside (by decide))
    rw [beyond, ← Nat.add_assoc, ← adjacent]
    exact pictures.bytes .inodeMap inodeMap j small

/-- `do_makefs` on the memory makes of the globals what it makes of them by themselves. -/
theorem doMakefs_simulates : Simulates (Pictures L locals (globals ++ [.inode, .block]))
    (doMakefs L locals.timer) (Files.doMakefs locals) fun _ _ => Pictures L locals globals := by
  refine (superblockRead_follows adjacent).bind fun _ _ =>
    (wordAt_simulates (by decide) (by decide)).bind_same fun magic => ?_
  by_cases formatted : magic = fsMagic
  · rw [if_pos formatted, if_pos formatted]
    have mounted : Follows L locals (globals ++ [.inode, .block]) _ _ :=
      inodeMapRead_follows.bind fun _ _ => mount_follows (by decide) (by decide)
    exact mounted.weaken (fun _ _ => id) fun _ _ _ _ pictures => pictures.fewer (by decide)
  · rw [if_neg formatted, if_neg formatted]
    refine superblockInit_follows.bind fun _ _ => inodeMapInit_follows.bind fun _ _ =>
      (inodeAlloc_simulates (by decide)).bind fun i ino => .assuming fun same => ?_
    by_cases taken : i ≠ 0
    · rw [if_pos taken, if_pos (mt same.mpr taken)]
      exact .pure fun _ _ pictures => pictures.fewer (by decide)
    · rw [if_neg taken, if_neg (not_not_intro (same.mp (not_not.mp taken)))]
      exact inodeCreate_simulates.bind fun _ _ =>
        (superblockWrite_follows adjacent (by decide) (by decide)).bind fun _ _ =>
          (inodeMapWrite_follows (by decide)).bind fun _ _ => mount_follows (by decide) (by decide)

theorem deletefs_follows : Follows L locals globals (deletefs L) Console.deletefs := by
  refine (superblockRead_follows adjacent).bind fun _ _ =>
    (wordAt_simulates (by decide) (by decide)).bind_same fun magic => ?_
  by_cases formatted : magic ≠ fsMagic
  · rw [if_pos formatted, if_pos formatted]
    exact .pure fun _ _ => id
  · rw [if_neg formatted, if_neg formatted]
    exact (onSuperblock_follows localTo_setWord).bind fun _ _ =>
      superblockWrite_follows adjacent (by decide) (by decide)

/-- `statfs` prints what the globals hold. -/
theorem statfs_simulates : Simulates (Pictures L locals globals) (statfs L) Files.superblockRead
    fun fields _ s v => fields = (List.range 6).map (fun i => word v.superblock (4 * i)) ∧
      Pictures L locals globals s v := by
  have printed : Simulates (Pictures L locals globals)
      (read fun s => (List.range 6).map fun i => word s.memory (L.superblock + 4 * i))
      (pure () : Files.Routine Unit)
      fun fields _ s v => fields = (List.range 6).map (fun i => word v.superblock (4 * i)) ∧
        Pictures L locals globals s v := by
    refine .of_runs fun s v pictures => ⟨_, s, (), v, run_read, run_pure, ?_, pictures⟩
    refine List.map_congr_left fun i member => ?_
    have small := List.mem_range.mp member
    refine pictures.word (x := .superblock) (by decide) ?_
    simp only [Part.object, Layout.superblockObject, superblockSize]
    omega
  have both := (superblockRead_follows adjacent).bind fun _ _ => printed
  rwa [bind_pure_unit] at both

theorem does_obeys {c : Console.Command} (does : Does L s c t)
    (pictures : Pictures L locals globals s v) :
    ∃ w, Obeys v c w ∧ Pictures L locals globals t w := by
  let stack (below : Files.Locals) : Console.Stack :=
    ⟨fun _ => 0, fun _ => 0, below, fun _ => 0, fun _ => 0⟩
  cases does with
  | @mkfs timer t ends =>
    -- What the stack holds is what the locals are before they are set.
    let below : Files.Locals := ⟨fun _ => 0, fun k => s.memory (L.inode + k),
      fun k => s.memory (L.block + k), timer⟩
    have whole : Pictures L below (globals ++ [.inode, .block]) s v := by
      refine ⟨pictures.disk, fun x known => ?_⟩
      rcases List.mem_append.mp known with outer | inner
      · exact pictures.otherLocals.bytes x outer
      · simp only [List.mem_cons, List.not_mem_nil, or_false] at inner
        rcases inner with rfl | rfl <;> exact fun _ _ => rfl
    obtain ⟨_, w, result, after⟩ := doMakefs_simulates adjacent s v () t whole ends
    exact ⟨w, ⟨stack below, [], run_then result⟩, after.otherLocals⟩
  | @statfs fields t ends =>
    obtain ⟨_, w, result, _, after⟩ := statfs_simulates adjacent s v fields t pictures ends
    exact ⟨w, ⟨stack locals, [], run_then result⟩, after⟩
  | @delfs t ends =>
    obtain ⟨_, w, result, after⟩ := deletefs_follows adjacent s v () t pictures ends
    exact ⟨w, ⟨stack locals, [], run_then result⟩, after⟩

/-- In any number of these commands the sectors that reach over the superblock do to the globals
what `superblockRead` and `superblockWrite` do. -/
theorem commands_pictured (reach : Reachable (Does L) (fun _ _ => True) s t)
    (pictures : Pictures L locals globals s v) :
    ∃ w, Reachable Obeys (fun _ _ => True) v w ∧ Pictures L locals globals t w := by
  refine reach.invariant (fun t => ∃ w, Reachable Obeys (fun _ _ => True) v w ∧
    Pictures L locals globals t w) ⟨v, .start, pictures⟩ ?_
  rintro t c u ⟨w, reached, here⟩ _ does
  obtain ⟨x, obeys, there⟩ := does_obeys adjacent does here
  exact ⟨x, reached.step trivial obeys, there⟩

end Adjacent

example : image.inodeMap = image.superblock + superblockSize := by decide

end Tina.Card
