import Tina.Card
import Tina.Mounting

/-! The five structures on the card: what one transfer of each moves, that no two of them share
a byte of the card, and which bytes of the memory a transfer reaches. -/
namespace Tina.Card

open ByteBuffer Atomic
open Tina.Files (fsMagic rootDirIno blockSize inodeSize superblockSize inodeBound offMagic
  offRootDirIno mapAddress superblockAddress)

variable {L : Layout} {s t : State} {a dest src k n : Nat} {sector z : Int}

theorem checked_eq (low : -0x80000000 ≤ z) (high : z < 0x80000000) : checked z = pure z := by
  rw [checked, if_pos ⟨low, high⟩]

/-- One transfer from the card address `a` on. -/
def loaded (dest a n : Nat) (s : State) : State :=
  { s with memory := copy s.memory dest s.disk a n, transfers := ((a : Int), n) :: s.transfers }

def stored (src a n : Nat) (s : State) : State :=
  { s with disk := copy s.disk a s.memory src n, transfers := ((a : Int), n) :: s.transfers }

theorem run_sdread : run (sdread dest a n) s = some ((), loaded dest a n s) := (rfl)

theorem run_sdwrite : run (sdwrite src a n) s = some ((), stored src a n s) := (rfl)

theorem doSdread_eq (low : 0 ≤ z) (high : z < 0x60000000) :
    doSdread dest z n = sdread dest (0x20000000 + z) n := by
  have base : fsBase * sectorSize = 0x20000000 := by decide
  rw [doSdread, base, checked_eq (by omega) (by omega), pure_bind,
    checked_eq (by omega) (by omega), pure_bind, Int.add_comm]

theorem doSdwrite_eq (low : 0 ≤ z) (high : z < 0x60000000) :
    doSdwrite src z n = sdwrite src (0x20000000 + z) n := by
  have base : fsBase * sectorSize = 0x20000000 := by decide
  rw [doSdwrite, base, checked_eq (by omega) (by omega), pure_bind,
    checked_eq (by omega) (by omega), pure_bind, Int.add_comm]

theorem sectorRead_eq (low : 0 ≤ sector) (high : sector < 0x100000) :
    sectorRead dest sector = sdread dest (0x20000000 + 0x200 * sector) 0x200 := by
  have size : sectorSize = 0x200 := rfl
  rw [sectorRead, size, checked_eq (by omega) (by omega), pure_bind,
    doSdread_eq (by omega) (by omega), Int.mul_comm]
  rfl

theorem sectorWrite_eq (low : 0 ≤ sector) (high : sector < 0x100000) :
    sectorWrite src sector = sdwrite src (0x20000000 + 0x200 * sector) 0x200 := by
  have size : sectorSize = 0x200 := rfl
  rw [sectorWrite, size, checked_eq (by omega) (by omega), pure_bind,
    doSdwrite_eq (by omega) (by omega), Int.mul_comm]
  rfl

/-- The addresses in the image, with the locals on a stack above it. -/
def image : Layout where
  superblock := 0xa0819434
  inodeMap := 0xa0819450
  shellPathInode := 0xa081a490
  shellPathHead := 0xa080b5d0
  inode := 0xa0f00000
  block := 0xa0f00100
  ie := 0xa0f00400
  apart := by decide

def ones : State := ⟨fun _ => 1, fun _ => 0, []⟩

instance : NeZero inodeBound := ⟨by decide⟩

/-- The structures on the card. -/
inductive Item where
  | inode (ino : Fin inodeBound)
  | dirBlock (ino : Fin inodeBound)
  | fileBlock (ino : Fin inodeBound)
  | inodeMap
  | superblock
  deriving DecidableEq

/-- The object in memory that a transfer names. -/
def Item.object (L : Layout) (a : Nat) : Item → Object
  | .inode _ => ⟨a, inodeSize⟩
  | .dirBlock _ => ⟨a, blockSize⟩
  | .fileBlock _ => ⟨a, blockSize⟩
  | .inodeMap => ⟨L.inodeMap, inodeMapSize⟩
  | .superblock => ⟨L.superblock, superblockSize⟩

def Item.read (L : Layout) (dest : Nat) : Item → Routine Unit
  | .inode ino => inodeRead dest ino
  | .dirBlock ino => dirBlockRead dest ino
  | .fileBlock ino => fileBlockRead dest ino
  | .inodeMap => inodeMapRead L
  | .superblock => superblockRead L

def Item.write (L : Layout) (src : Nat) : Item → Routine Unit
  | .inode ino => inodeWrite L src ino
  | .dirBlock ino => dirBlockWrite src ino
  | .fileBlock ino => fileBlockWrite src ino
  | .inodeMap => inodeMapWrite L
  | .superblock => superblockWrite L

/-- A file block and a directory block of one number are one sector. -/
def Item.storage : Item → Item
  | .fileBlock ino => .dirBlock ino
  | item => item

/-- Where the structure starts on the card, and how many bytes from there on a transfer moves. -/
def Item.address : Item → Nat
  | .inode ino => 0x3fc00000 + inodeSize * ino
  | .dirBlock ino => 0x20000000 + blockSize * ino
  | .fileBlock ino => 0x20000000 + blockSize * ino
  | .inodeMap => mapAddress
  | .superblock => superblockAddress

def Item.moved : Item → Nat
  | .inode _ => inodeSize
  | .dirBlock _ => blockSize
  | .fileBlock _ => blockSize
  | .inodeMap => inodeMapSize
  | .superblock => blockSize

/-- The card from its first data sector to the end of the inode table. -/
def InWindow (transfer : Int × Nat) : Prop :=
  fsBase * sectorSize ≤ transfer.1 ∧
    transfer.1 + transfer.2 ≤ (fsBase + fsInodeTableBase + fsInodeTableSize) * sectorSize

/-- All transfers between two states stay in the window. -/
def Inside (s t : State) : Prop := ∀ x ∈ t.transfers, x ∈ s.transfers ∨ InWindow x

theorem Inside.refl : Inside s s := fun _ member => .inl member

theorem Inside.trans {u : State} (first : Inside s t) (second : Inside t u) : Inside s u := by
  intro x member
  rcases second x member with old | new
  · exact first x old
  · exact .inr new

theorem inWindow (low : 0x20000000 ≤ a) (high : a + n ≤ 0x3fe00000) : InWindow ((a : Int), n) := by
  have start : fsBase * sectorSize = 0x20000000 := by decide
  have limit : (fsBase + fsInodeTableBase + fsInodeTableSize) * sectorSize = 0x3fe00000 := by
    decide
  rw [InWindow, start, limit]
  omega

theorem inside_loaded (low : 0x20000000 ≤ a) (high : a + n ≤ 0x3fe00000) :
    Inside s (loaded dest a n s) := by
  intro x member
  rcases List.mem_cons.mp member with rfl | old
  · exact .inr (inWindow low high)
  · exact .inl old

theorem inside_stored (low : 0x20000000 ≤ a) (high : a + n ≤ 0x3fe00000) :
    Inside s (stored src a n s) := by
  intro x member
  rcases List.mem_cons.mp member with rfl | old
  · exact .inr (inWindow low high)
  · exact .inl old

/-- What a read does: one copy from the card. -/
structure Loads (dest a n : Nat) (s t : State) : Prop where
  memory : t.memory = copy s.memory dest s.disk a n
  disk : t.disk = s.disk
  inside : Inside s t

/-- What a write does: one copy to the card. The memory changes in the object `o` only. -/
structure Stores (src a n : Nat) (o : Object) (s t : State) : Prop where
  disk : t.disk = copy s.disk a s.memory src n
  memory : ∀ k, ¬o.Has k → t.memory k = s.memory k
  inside : Inside s t

theorem loads_loaded (low : 0x20000000 ≤ a) (high : a + n ≤ 0x3fe00000) :
    Loads dest a n s (loaded dest a n s) := ⟨rfl, rfl, inside_loaded low high⟩

theorem stores_stored {o : Object} (low : 0x20000000 ≤ a) (high : a + n ≤ 0x3fe00000) :
    Stores src a n o s (stored src a n s) := ⟨rfl, fun _ _ => rfl, inside_stored low high⟩

/-- A block has one sector, whose number is the inode number. -/
theorem blockLoop_eq {transfer : Nat → Int → Routine Unit} {ino : Fin inodeBound} :
    blockLoop transfer dest ino = transfer dest (ino.val : Int) := by
  have small := ino.isLt
  simp only [inodeBound] at small
  have one : List.range fsBlockSize.toNat = [0] := by decide
  have size : fsBlockSize = 1 := rfl
  have base : fsDataBase = 0 := rfl
  rw [blockLoop, one, size, base, Int.mul_one, checked_eq (by omega) (by omega), pure_bind,
    checked_eq (by omega) (by omega), pure_bind, List.forM_cons, List.forM_nil,
    checked_eq (by omega) (by omega), pure_bind, bind_pure, Int.add_zero]
  exact congrArg (transfer dest) (Int.add_zero _)

theorem sector_nat {m : Nat} : (0x20000000 + 0x200 * (m : Int)) =
    ((0x20000000 + blockSize * m : Nat) : Int) := by
  simp only [blockSize]
  omega

theorem block_loads (dest : Nat) (ino : Fin inodeBound) (s : State) :
    ∃ t, run (blockLoop sectorRead dest ino) s =
    some ((), t) ∧ Loads dest (0x20000000 + blockSize * ino) blockSize s t := by
  have small := ino.isLt
  simp only [inodeBound] at small
  refine ⟨_, ?_, loads_loaded (by omega) (by simp only [blockSize]; omega)⟩
  rw [blockLoop_eq, sectorRead_eq (by omega) (by omega), sector_nat]
  exact run_sdread

theorem block_stores (src : Nat) (ino : Fin inodeBound) (o : Object) (s : State) :
    ∃ t, run (blockLoop sectorWrite src ino) s = some ((), t) ∧
      Stores src (0x20000000 + blockSize * ino) blockSize o s t := by
  have small := ino.isLt
  simp only [inodeBound] at small
  refine ⟨_, ?_, stores_stored (by omega) (by simp only [blockSize]; omega)⟩
  rw [blockLoop_eq, sectorWrite_eq (by omega) (by omega), sector_nat]
  exact run_sdwrite

theorem checkIno_small {ino : Fin inodeBound} : ¬checkIno ino := by
  have small := ino.isLt
  simp only [inodeBound] at small
  simp only [checkIno, fsInodeTableSize]
  omega

/-- The byte offset of an entry. -/
theorem inode_loads (dest : Nat) (ino : Fin inodeBound) (s : State) :
    ∃ t, run (inodeRead dest ino) s = some ((), t) ∧
    Loads dest (0x3fc00000 + inodeSize * ino) inodeSize s t := by
  have small := ino.isLt
  simp only [inodeBound] at small
  have table : fsInodeTableBase * sectorSize = 0x1fc00000 := by decide
  have size : ((fsInodeSize : Nat) : Int) = 0x40 := rfl
  refine ⟨_, ?_, loads_loaded (by omega) (by simp only [inodeSize]; omega)⟩
  have place : (0x20000000 + (0x1fc00000 + (ino.val : Int) * 0x40)) =
      ((0x3fc00000 + inodeSize * ino.val : Nat) : Int) := by
    simp only [inodeSize]
    omega
  rw [inodeRead, if_neg checkIno_small, table, size, checked_eq (by omega) (by omega), pure_bind,
    checked_eq (by omega) (by omega), pure_bind, checked_eq (by omega) (by omega), pure_bind,
    doSdread_eq (by omega) (by omega), place]
  exact run_sdread

/-- A sector is read into `ie`, the entry at `k` set from `src`, and the sector written back. -/
theorem entry_back {m d : Buffer} {ie : Nat} (inside : k + inodeSize ≤ blockSize)
    (apart : Object.Apart ⟨src, inodeSize⟩ ⟨ie, blockSize⟩) :
    copy d a (copy (copy m ie d a blockSize) (ie + k) (copy m ie d a blockSize) src inodeSize) ie
      blockSize = copy d (a + k) m src inodeSize := by
  simp only [Object.Apart] at apart
  funext i
  by_cases sector : a ≤ i ∧ i < a + blockSize
  · obtain ⟨j, rfl⟩ := Nat.exists_eq_add_of_le sector.1
    rw [copy_inside (by omega)]
    by_cases entry : k ≤ j ∧ j < k + inodeSize
    · obtain ⟨j, rfl⟩ := Nat.exists_eq_add_of_le entry.1
      rw [← Nat.add_assoc, ← Nat.add_assoc, copy_inside (by omega), copy_inside (by omega),
        copy_outside (by omega)]
    · rw [copy_outside (by omega), copy_inside (by omega), copy_outside (by omega)]
  · rw [copy_outside (by omega), copy_outside (by omega)]

/-- The sector that holds an entry is read, changed in this entry and written back. -/
theorem inode_stores (ino : Fin inodeBound) (s : State)
    (apart : Object.Apart ⟨src, inodeSize⟩ ⟨L.ie, blockSize⟩) :
    ∃ t, run (inodeWrite L src ino) s = some ((), t) ∧
      Stores src (0x3fc00000 + inodeSize * ino) inodeSize ⟨L.ie, blockSize⟩ s t := by
  have small := ino.isLt
  simp only [inodeBound] at small
  have table : fsInodeTableBase = 0xfe000 := rfl
  have quotient : (ino.val : Int).tdiv 8 = (ino.val / 8 : Nat) := by
    rw [Int.tdiv_eq_ediv_of_nonneg (by omega)]
    rfl
  have rest : ((ino.val : Int).tmod 8).toNat = ino.val % 8 := by
    rw [Int.tmod_eq_emod_of_nonneg (by omega)]
    omega
  have sector : (0x20000000 + 0x200 * (((ino.val / 8 : Nat) : Int) + 0xfe000)) =
      ((0x3fc00000 + blockSize * (ino.val / 8) : Nat) : Int) := by
    simp only [blockSize]
    omega
  let sectorIn := loaded L.ie (0x3fc00000 + blockSize * (ino.val / 8)) blockSize s
  let slot := L.ie + inodeSize * (ino.val % 8)
  let changed : State := { sectorIn with
    memory := copy sectorIn.memory slot sectorIn.memory src inodeSize }
  have size : blockSize = 0x200 := rfl
  have entry : inodeSize = 0x40 := rfl
  have inner : inodeSize * (ino.val % 8) = 0x40 * (ino.val % 8) := rfl
  have offset : inodeSize * ino.val = 0x40 * ino.val := rfl
  refine ⟨stored L.ie (0x3fc00000 + blockSize * (ino.val / 8)) blockSize changed, ?_, ?_, ?_, ?_⟩
  · rw [inodeWrite, if_neg checkIno_small, table, quotient, checked_eq (by omega) (by omega),
      pure_bind, sectorRead_eq (by omega) (by omega), sectorWrite_eq (by omega) (by omega), sector,
      run_then run_sdread, setEntry, rest]
    rfl
  · have place : 0x3fc00000 + inodeSize * ino.val =
        0x3fc00000 + blockSize * (ino.val / 8) + inodeSize * (ino.val % 8) := by omega
    rw [place]
    exact entry_back (by omega) apart
  · intro k outside
    simp only [Object.Has] at outside
    have untouched : changed.memory k = sectorIn.memory k := copy_outside (by omega)
    exact untouched.trans (copy_outside (by omega))
  · have read : Inside s sectorIn := inside_loaded (by omega) (by omega)
    have kept : Inside s changed := read
    exact kept.trans (inside_stored (by omega) (by omega))

theorem map_place (n : Nat) : (0x20000000 + 0x200 * (0xfdff8 + (n : Int))) =
    ((mapAddress + 0x200 * n : Nat) : Int) := by
  simp only [mapAddress]
  omega

/-- The eight sectors of the map, one after the other. -/
theorem map_loads (dest : Nat) (s : State) (few : n ≤ 8) :
    ∃ t, run (forM (List.range n) fun (i : Nat) => do
    let sector ← checked (fsInodeMapBase + i)
    sectorRead (dest + 4 * (0x80 * i)) sector) s = some ((), t) ∧
      Loads dest mapAddress (0x200 * n) s t := by
  induction n with
  | zero =>
    refine ⟨s, rfl, ?_, rfl, Inside.refl⟩
    rw [Nat.mul_zero, copy_nothing]
  | succ n ih =>
    obtain ⟨t, result, loads⟩ := ih (by omega)
    have base : fsInodeMapBase = 0xfdff8 := rfl
    refine ⟨loaded (dest + 0x200 * n) (mapAddress + 0x200 * n) 0x200 t, ?_, ?_⟩
    · rw [List.range_succ, List.forM_append, run_then result, List.forM_cons, List.forM_nil, base,
        checked_eq (by omega) (by omega), pure_bind, sectorRead_eq (by omega) (by omega), map_place,
        bind_pure, show 4 * (0x80 * n) = 0x200 * n by omega]
      exact run_sdread
    · refine ⟨?_, loads.disk, loads.inside.trans (inside_loaded ?_ ?_)⟩
      · have joined := @copy_append dest (0x200 * n) s.disk s.memory mapAddress 0x200
        rw [loaded, loads.memory, loads.disk, joined, Nat.mul_succ]
      · simp only [mapAddress]
        omega
      · simp only [mapAddress]
        omega

theorem map_stores (src : Nat) (o : Object) (s : State) (few : n ≤ 8) :
    ∃ t, run (forM (List.range n) fun (i : Nat) => do
      let sector ← checked (fsInodeMapBase + i)
      sectorWrite (src + 4 * (0x80 * i)) sector) s = some ((), t) ∧
        Stores src mapAddress (0x200 * n) o s t ∧ t.memory = s.memory := by
  induction n with
  | zero =>
    refine ⟨s, rfl, ⟨?_, fun _ _ => rfl, Inside.refl⟩, rfl⟩
    rw [Nat.mul_zero, copy_nothing]
  | succ n ih =>
    obtain ⟨t, result, stores, same⟩ := ih (by omega)
    have base : fsInodeMapBase = 0xfdff8 := rfl
    refine ⟨stored (src + 0x200 * n) (mapAddress + 0x200 * n) 0x200 t, ?_, ⟨?_, stores.memory,
      stores.inside.trans (inside_stored ?_ ?_)⟩, same⟩
    · rw [List.range_succ, List.forM_append, run_then result, List.forM_cons, List.forM_nil, base,
        checked_eq (by omega) (by omega), pure_bind, sectorWrite_eq (by omega) (by omega), map_place,
        bind_pure, show 4 * (0x80 * n) = 0x200 * n by omega]
      exact run_sdwrite
    · have joined := @copy_append mapAddress (0x200 * n) s.memory s.disk src 0x200
      rw [stored, same, stores.disk, joined, Nat.mul_succ]
    · simp only [mapAddress]
      omega
    · simp only [mapAddress]
      omega

theorem superblock_loads (L : Layout) (s : State) : ∃ t, run (superblockRead L) s = some ((), t) ∧
    Loads L.superblock superblockAddress blockSize s t := by
  have number : (0x20000000 + 0x200 * fsSuperblockBase) = ((superblockAddress : Nat) : Int) := by
    decide
  refine ⟨_, ?_, loads_loaded (by decide) (by decide)⟩
  rw [superblockRead, sectorRead_eq (by decide) (by decide), number]
  exact run_sdread

theorem superblock_stores (L : Layout) (o : Object) (s : State) :
    ∃ t, run (superblockWrite L) s = some ((), t) ∧
    Stores L.superblock superblockAddress blockSize o s t ∧ t.memory = s.memory := by
  have number : (0x20000000 + 0x200 * fsSuperblockBase) = ((superblockAddress : Nat) : Int) := by
    decide
  refine ⟨_, ?_, stores_stored (by decide) (by decide), rfl⟩
  rw [superblockWrite, sectorWrite_eq (by decide) (by decide), number]
  exact run_sdwrite

/-- Every read moves the bytes of its structure into its object. -/
theorem Item.loads (item : Item) (L : Layout) (dest : Nat) (s : State) :
    ∃ t, run (item.read L dest) s = some ((), t) ∧
    Loads (item.object L dest).start item.address item.moved s t := by
  cases item with
  | inode ino => exact inode_loads dest ino s
  | dirBlock ino => exact block_loads dest ino s
  | fileBlock ino => exact block_loads dest ino s
  | inodeMap => exact map_loads L.inodeMap s (Nat.le_refl 8)
  | superblock => exact superblock_loads L s

/-- The source of `inode_write` is no part of its local. -/
def Item.Fits (L : Layout) (src : Nat) : Item → Prop
  | .inode _ => Object.Apart ⟨src, inodeSize⟩ ⟨L.ie, blockSize⟩
  | _ => True

theorem Item.stores (item : Item) (s : State) (fits : item.Fits L src) :
    ∃ t, run (item.write L src) s = some ((), t) ∧
      Stores (item.object L src).start item.address item.moved ⟨L.ie, blockSize⟩ s t := by
  cases item with
  | inode ino => exact inode_stores ino s fits
  | dirBlock ino => exact block_stores src ino ⟨L.ie, blockSize⟩ s
  | fileBlock ino => exact block_stores src ino ⟨L.ie, blockSize⟩ s
  | inodeMap =>
    obtain ⟨t, result, stores, _⟩ := map_stores L.inodeMap ⟨L.ie, blockSize⟩ s (Nat.le_refl 8)
    exact ⟨t, result, stores⟩
  | superblock =>
    obtain ⟨t, result, stores, _⟩ := superblock_stores L ⟨L.ie, blockSize⟩ s
    exact ⟨t, result, stores⟩

/-- Different storages share no byte of the card. -/
theorem Item.separate {item other : Item} (differ : other.storage ≠ item.storage) :
    other.address + other.moved ≤ item.address ∨ item.address + item.moved ≤ other.address := by
  cases item <;> cases other <;>
    simp only [Item.storage, ne_eq, Item.inode.injEq, Item.dirBlock.injEq, Fin.ext_iff,
      not_true_eq_false, reduceCtorEq, not_false_eq_true] at differ <;>
    simp only [Item.address, Item.moved, mapAddress, superblockAddress, inodeMapSize, blockSize,
      inodeSize, inodeBound] at * <;>
    omega

theorem Item.same_place {item other : Item} (same : other.storage = item.storage) :
    other.address = item.address ∧ other.moved = item.moved := by
  cases item <;> cases other <;> cases same <;> exact ⟨rfl, rfl⟩

/-- An object is not longer than a transfer of its structure. -/
theorem Item.size_le (item : Item) (L : Layout) (a : Nat) :
    (item.object L a).size ≤ item.moved := by
  cases item <;> simp [Item.object, Item.moved, superblockSize, blockSize]

theorem Item.size_eq {item other : Item} (same : other.storage = item.storage)
    (L : Layout) (dest src : Nat) :
    (other.object L dest).size = (item.object L src).size := by
  cases item <;> cases other <;> cases same <;> rfl

/-- Reading the structure puts `value` into its object, whatever the memory holds. -/
def Item.Returns (L : Layout) (item : Item) (t : State) (value : Nat → Byte) : Prop :=
  ∀ dest m, ∃ u, run (item.read L dest) { t with memory := m } = some ((), u) ∧ Inside t u ∧
    ∀ k < (item.object L dest).size, u.memory ((item.object L dest).start + k) = value k

/-- Reading the structure does the same in both states, whatever the memory holds. -/
def Item.Unchanged (L : Layout) (item : Item) (s t : State) : Prop :=
  ∀ dest m, ∃ u v, run (item.read L dest) { s with memory := m } = some ((), u) ∧ Inside s u ∧
    run (item.read L dest) { t with memory := m } = some ((), v) ∧ Inside t v ∧
    v.memory = u.memory

/-- A read returns what was last written into its storage; the other storages keep what they
had. Nothing overflows, and every transfer stays in the window. -/
theorem storages_independent (L : Layout) (item : Item) (src : Nat) (s : State)
    (fits : item.Fits L src) :
    ∃ t, run (item.write L src) s = some ((), t) ∧ Inside s t ∧ ∀ other : Item,
      (other.storage = item.storage →
        other.Returns L t fun k => s.memory ((item.object L src).start + k)) ∧
      (other.storage ≠ item.storage → other.Unchanged L s t) := by
  obtain ⟨t, written, stores⟩ := item.stores s fits
  refine ⟨t, written, stores.inside, fun other => ⟨fun same dest m => ?_, fun differ dest m => ?_⟩⟩
  · obtain ⟨u, result, loads⟩ := other.loads L dest { t with memory := m }
    refine ⟨u, result, loads.inside, fun k small => ?_⟩
    have size := item.size_le L src
    rw [Item.size_eq same L dest src] at small
    obtain ⟨place, moved⟩ := Item.same_place same
    rw [loads.memory, copy_inside (by omega)]
    change t.disk (other.address + k) = _
    rw [stores.disk, place, copy_inside (by omega)]
  · obtain ⟨u, before, loads⟩ := other.loads L dest { s with memory := m }
    obtain ⟨v, later, loads'⟩ := other.loads L dest { t with memory := m }
    refine ⟨u, v, before, loads.inside, later, loads'.inside, ?_⟩
    rw [loads.memory, loads'.memory]
    funext k
    by_cases inside : (other.object L dest).start ≤ k ∧
        k < (other.object L dest).start + other.moved
    · obtain ⟨j, rfl⟩ := Nat.exists_eq_add_of_le inside.1
      have apart := Item.separate differ
      rw [copy_inside (by omega), copy_inside (by omega)]
      change t.disk (other.address + j) = s.disk (other.address + j)
      rw [stores.disk, copy_outside (by omega)]
    · rw [copy_outside (by omega), copy_outside (by omega)]

theorem storages_independent_root : ∃ t, run (Item.write image 0 (.inode 0)) ones = some ((), t) ∧
    Inside ones t ∧ ∀ other : Item,
      (other.storage = Item.inode 0 → other.Returns image t fun k => ones.memory (0 + k)) ∧
      (other.storage ≠ Item.inode 0 → other.Unchanged image ones t) :=
  storages_independent image (.inode 0) 0 ones (.inl (by decide))

/-- Writing the file block of a number changes what reading its directory block returns. -/
theorem block_overwritten : ∃ t, run (Item.write image 0 (.fileBlock 5)) ones = some ((), t) ∧
    ¬(Item.dirBlock 5).Unchanged image ones t := by
  obtain ⟨t, written, stores⟩ := (Item.fileBlock 5).stores (L := image) ones trivial
  refine ⟨t, written, fun unchanged => ?_⟩
  obtain ⟨u, v, before, _, later, _, same⟩ := unchanged 0 ones.memory
  obtain ⟨u', result, loads⟩ := (Item.dirBlock 5).loads image 0 { ones with memory := ones.memory }
  obtain ⟨v', result', loads'⟩ := (Item.dirBlock 5).loads image 0 { t with memory := ones.memory }
  cases before.symm.trans result
  cases later.symm.trans result'
  have first := congrFun same 0
  rw [loads.memory, loads'.memory, stores.disk] at first
  have equal : (1 : Byte) = 0 := first
  exact absurd equal (by decide)

end Tina.Card
