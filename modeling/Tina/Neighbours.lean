import Tina.Extents
import Tina.Remount

/-! What the transfers do to the memory around their os. A sector is longer than the
superblock, so reading it overwrites what follows `superblock` in memory and writing it stores
that on the card. The other transfers are as long as their os. -/
namespace Tina.Card

open ByteBuffer Atomic
open Tina.Files (fsMagic rootDirIno blockSize inodeSize superblockSize inodeBound offMagic
  offRootDirIno offIno offMode offFatherIno mapAddress superblockAddress freshSuperblock
  inodeInit freshDirBlock tilde)

variable {α β : Type} {L : Layout} {s t u : State} {o o' : Object} {os : List Object}
  {a dest src k n : Nat} {p : Routine α} {f : α → Routine β} {r : α}

/-- No byte outside the objects `os` changes. -/
def Frame (os : List Object) (s t : State) : Prop :=
  ∀ a, (∀ o ∈ os, ¬o.Has a) → t.memory a = s.memory a

theorem Frame.refl : Frame os s s := fun _ _ => rfl

theorem Frame.trans (first : Frame os s t) (second : Frame os t u) :
    Frame os s u := fun a outside => (second a outside).trans (first a outside)

theorem Frame.wider {wide : List Object} (frame : Frame os s t)
    (more : ∀ o ∈ os, o ∈ wide) : Frame wide s t :=
  fun a outside => frame a fun o member => outside o (more o member)

/-- An object that is apart from those that change keeps its bytes. -/
theorem Frame.byte (frame : Frame os s t) (apart : ∀ o' ∈ os, o.Apart o')
    (inside : k < o.size) : t.memory (o.start + k) = s.memory (o.start + k) := by
  refine frame _ fun o' member has => ?_
  have := apart o' member
  simp only [Object.Apart, Object.Has] at this has
  omega

theorem Frame.word (frame : Frame os s t) (apart : ∀ o' ∈ os, o.Apart o')
    (inside : k + 4 ≤ o.size) : word t.memory (o.start + k) = word s.memory (o.start + k) := by
  refine word_congr fun l low high => ?_
  obtain ⟨e, rfl⟩ := Nat.exists_eq_add_of_le low
  rw [Nat.add_assoc, frame.byte apart (by omega)]
  exact congrArg _ (by omega)

theorem frame_copy {m : Buffer} {b : Nat} (inside : n ≤ o.size)
    (same : t.memory = copy s.memory o.start m b n) : Frame [o] s t := by
  intro a outside
  have := outside o (List.mem_singleton_self o)
  simp only [Object.Has] at this
  rw [same, copy_outside (by omega)]

/-- The program runs to its end and changes no byte outside `os`. -/
def AltersOnly (os : List Object) (p : Routine α) (s : State) : Prop :=
  ∃ r t, run p s = some (r, t) ∧ Frame os s t

theorem altersOnly_iff (result : run p s = some (r, t)) :
    AltersOnly os p s ↔ Frame os s t := by
  constructor
  · rintro ⟨r', t', result', frame⟩
    cases result.symm.trans result'
    exact frame
  · exact fun frame => ⟨r, t, result, frame⟩

/-- After changes inside `os`, only what came before decides about the rest. -/
theorem Frame.after (later : Frame os t u) : Frame os s u ↔ Frame os s t := by
  refine ⟨fun whole a outside => ?_, fun first => first.trans later⟩
  rw [← later a outside]
  exact whole a outside

/-- What follows `superblock` in memory is what follows it in its sector. -/
def Tail (L : Layout) (s : State) : Prop :=
  ∀ k, superblockSize ≤ k → k < blockSize →
    s.memory (L.superblock + k) = s.disk (superblockAddress + k)

/-- Of the bytes that follow `superblock`, only those outside `os` matter. -/
def TailOutside (os : List Object) (L : Layout) (s : State) : Prop :=
  ∀ k, superblockSize ≤ k → k < blockSize → (∀ o ∈ os, ¬o.Has (L.superblock + k)) →
    s.memory (L.superblock + k) = s.disk (superblockAddress + k)

def Layout.superblockObject (L : Layout) : Object := ⟨L.superblock, superblockSize⟩

/-- A sector in place of the superblock, next to any os. -/
theorem frame_superblock (member : L.superblockObject ∈ os)
    (loads : Loads L.superblock superblockAddress blockSize s t) :
    Frame os s t ↔ TailOutside os L s := by
  constructor
  · intro frame k low high outside
    rw [← frame _ outside, loads.memory, copy_inside high]
  · intro tail a outside
    rw [loads.memory]
    by_cases sector : L.superblock ≤ a ∧ a < L.superblock + blockSize
    · obtain ⟨k, rfl⟩ := Nat.exists_eq_add_of_le sector.1
      have beyond := outside _ member
      simp only [Object.Has, Layout.superblockObject] at beyond
      rw [copy_inside (by omega), tail k (by omega) (by omega) outside]
    · exact copy_outside (by omega)

theorem tailOutside_superblock : TailOutside [L.superblockObject] L s ↔ Tail L s := by
  refine ⟨fun tail k low high => tail k low high ?_, fun tail k low high _ => tail k low high⟩
  intro o member has
  cases List.mem_singleton.mp member
  simp only [Object.Has, Layout.superblockObject] at has
  omega

/-- Only the superblock is shorter than what its transfers move. -/
theorem Item.moved_eq {item : Item} (other : item ≠ .superblock) (L : Layout) (a : Nat) :
    item.moved = (item.object L a).size := by
  cases item with
  | superblock => exact absurd rfl other
  | _ => rfl

theorem read_exact (item : Item) :
    AltersOnly [item.object L dest] (item.read L dest) s ↔ (item = .superblock → Tail L s) := by
  obtain ⟨t, result, loads⟩ := item.loads L dest s
  rw [altersOnly_iff result]
  by_cases isSuperblock : item = .superblock
  · subst isSuperblock
    have exact := (frame_superblock (List.mem_singleton_self _) loads).trans tailOutside_superblock
    exact ⟨fun frame _ => exact.mp frame, fun tail => exact.mpr (tail rfl)⟩
  · refine ⟨fun _ is => absurd is isSuperblock, fun _ => ?_⟩
    exact frame_copy (Nat.le_of_eq (item.moved_eq isSuperblock L dest)) loads.memory

/-- Every byte of the card stays, or becomes the byte of the source that belongs there. -/
def StoresOnly (L : Layout) (item : Item) (src : Nat) (s : State) : Prop :=
  ∃ t, run (item.write L src) s = some ((), t) ∧ ∀ a, t.disk a = s.disk a ∨
    ∃ k < (item.object L src).size, a = item.address + k ∧
      t.disk a = s.memory ((item.object L src).start + k)

theorem write_exact (item : Item) (fits : item.Fits L src) :
    StoresOnly L item src s ↔ (item = .superblock → Tail L s) := by
  obtain ⟨t, result, stores⟩ := item.stores s fits
  constructor
  · rintro ⟨t', result', only⟩ rfl k low high
    cases result.symm.trans result'
    have written : t.disk (superblockAddress + k) = s.memory (L.superblock + k) := by
      rw [stores.disk]
      exact copy_inside high
    rcases only (superblockAddress + k) with same | ⟨j, small, place, _⟩
    · exact written.symm.trans same
    · simp only [Item.object, Item.address] at small place
      omega
  · intro tail
    refine ⟨t, result, fun a => ?_⟩
    rw [stores.disk]
    by_cases moved : item.address ≤ a ∧ a < item.address + item.moved
    · obtain ⟨k, rfl⟩ := Nat.exists_eq_add_of_le moved.1
      rw [copy_inside (by omega)]
      by_cases short : k < (item.object L src).size
      · exact .inr ⟨k, short, rfl, rfl⟩
      · by_cases isSuperblock : item = .superblock
        · subst isSuperblock
          exact .inl (tail rfl k (Nat.le_of_not_lt short) (by simpa [Item.moved] using moved.2))
        · rw [item.moved_eq isSuperblock L src] at moved
          omega
    · exact .inl (copy_outside (by omega))

theorem statfs_exact : AltersOnly [L.superblockObject] (statfs L) s ↔ Tail L s := by
  obtain ⟨t, result, loads⟩ := superblock_loads L s
  have printed : run (statfs L) s =
      some ((List.range 6).map fun i => word t.memory (L.superblock + 4 * i), t) := by
    rw [statfs, run_then result]
    rfl
  rw [altersOnly_iff printed]
  exact (frame_superblock (List.mem_singleton_self _) loads).trans tailOutside_superblock

/-- The state after the stores of `g` into an object. -/
def edited (a n : Nat) (g : Buffer → Buffer) (s : State) : State :=
  { s with memory := copy s.memory a (g fun k => s.memory (a + k)) 0 n }

theorem run_onObject {g : Buffer → Buffer} :
    run (onObject a n g) s = some ((), edited a n g s) := (rfl)

theorem edited_frame {g : Buffer → Buffer} (inside : n ≤ o.size) :
    Frame [o] s (edited o.start n g s) := frame_copy inside rfl

theorem run_wordAt : run (wordAt a) s = some (word s.memory a, s) := (rfl)

theorem deletefs_exact : AltersOnly [L.superblockObject] (deletefs L) s ↔ Tail L s := by
  obtain ⟨t, result, loads⟩ := superblock_loads L s
  have tail := (frame_superblock (List.mem_singleton_self _) loads).trans tailOutside_superblock
  by_cases magic : word t.memory (L.superblock + offMagic) = fsMagic
  · obtain ⟨u, written, _, same⟩ := superblock_stores L L.superblockObject
      (edited L.superblock superblockSize (setWord offMagic 0) t)
    have deleted : run (deletefs L) s = some ((), u) := by
      rw [deletefs, run_then result, run_then run_wordAt, if_neg (not_not_intro magic),
        run_then run_onObject, written]
    have later : Frame [L.superblockObject] t u :=
      frame_copy (o := L.superblockObject) (Nat.le_refl _) same
    rw [altersOnly_iff deleted, later.after]
    exact tail
  · have refused : run (deletefs L) s = some ((), t) := by
      rw [deletefs, run_then result, run_then run_wordAt, if_pos magic, run_pure]
    rw [altersOnly_iff refused]
    exact tail

def Layout.inodeMapObject (L : Layout) : Object := ⟨L.inodeMap, inodeMapSize⟩
def Layout.shellPathInodeObject (L : Layout) : Object := ⟨L.shellPathInode, inodeSize⟩
def Layout.shellPathHeadObject (L : Layout) : Object := ⟨L.shellPathHead, shellPathHeadSize⟩
def Layout.inodeObject (L : Layout) : Object := ⟨L.inode, inodeSize⟩
def Layout.blockObject (L : Layout) : Object := ⟨L.block, blockSize⟩
def Layout.ieObject (L : Layout) : Object := ⟨L.ie, blockSize⟩

/-- The globals that `do_makefs` is meant to set, and the locals below it. -/
def Layout.objects (L : Layout) : List Object := [L.superblockObject, L.inodeMapObject,
  L.shellPathInodeObject, L.shellPathHeadObject, L.inodeObject, L.blockObject, L.ieObject]

theorem Layout.pairwise (L : Layout) : L.objects.Pairwise Object.Apart := L.apart

/-- What `mount` leaves in `shell_path_inode`. -/
def mountedInode (L : Layout) (memory disk : Buffer) (ino : Int) : Buffer := fun k =>
  if checkIno ino then memory (L.shellPathInode + k)
  else disk (0x3fc00000 + inodeSize * ino.toNat + k)

theorem run_inodeRead (L : Layout) (ino : Int) (s : State) :
    ∃ t, run (inodeRead L.shellPathInode ino) s = some ((), t) ∧
    Frame [L.shellPathInodeObject] s t ∧ t.disk = s.disk ∧ ∀ k < inodeSize,
      t.memory (L.shellPathInode + k) = mountedInode L s.memory s.disk ino k := by
  by_cases outside : checkIno ino
  · refine ⟨s, by rw [inodeRead, if_pos outside, run_pure], Frame.refl, rfl, fun k _ => ?_⟩
    rw [mountedInode, if_pos outside]
  · have low := outside
    simp only [checkIno, fsInodeTableSize] at low
    have number : ((ino.toNat : Nat) : Int) = ino := Int.toNat_of_nonneg (by omega)
    have small : ino.toNat < inodeBound := by
      simp only [inodeBound]
      omega
    obtain ⟨t, result, loads⟩ := inode_loads L.shellPathInode ⟨ino.toNat, small⟩ s
    simp only [number] at result
    refine ⟨t, result, frame_copy (o := L.shellPathInodeObject) (Nat.le_refl _) loads.memory,
      loads.disk, fun k inside => ?_⟩
    rw [loads.memory, copy_inside inside, mountedInode, if_neg outside]

theorem mounted_name (named : Terminated
    (mountedInode L s.memory s.disk (word s.memory (L.superblock + offRootDirIno)).toInt) 0
      inodeSize) :
    ∃ t, run (mount L) s = some ((), t) ∧
      Frame [L.shellPathInodeObject, L.shellPathHeadObject] s t := by
  obtain ⟨t, result, frame, _, bytes⟩ := run_inodeRead L
    (word s.memory (L.superblock + offRootDirIno)).toInt s
  have short : (cstring t.memory L.shellPathInode inodeSize).length < inodeSize :=
    cstring_length.mpr (named.congr fun k small => by rw [Nat.zero_add, bytes k small])
  obtain ⟨name, isName⟩ : ∃ name, cstring t.memory L.shellPathInode inodeSize = name := ⟨_, rfl⟩
  rw [isName] at short
  refine ⟨{ t with memory := strcpy L.shellPathHead name t.memory }, ?_,
    (frame.wider (by simp)).trans ?_⟩
  · rw [mount, run_then run_wordAt, run_then result, copyHead, run_then run_read, isName,
      if_pos short]
    exact run_change
  · intro a outside
    have head := outside L.shellPathHeadObject (by simp)
    simp only [Object.Has, Layout.shellPathHeadObject, shellPathHeadSize] at head
    simp only [inodeSize] at short
    exact strcpy_outside (by omega)

theorem mount_overrun (endless : ¬Terminated
    (mountedInode L s.memory s.disk (word s.memory (L.superblock + offRootDirIno)).toInt) 0
      inodeSize) : run (mount L) s = none := by
  obtain ⟨t, result, _, _, bytes⟩ := run_inodeRead L
    (word s.memory (L.superblock + offRootDirIno)).toInt s
  have long : ¬(cstring t.memory L.shellPathInode inodeSize).length < inodeSize := by
    intro short
    refine endless ((cstring_length.mp short).congr fun k small => ?_)
    rw [Nat.zero_add, bytes k small]
  rw [mount, run_then run_wordAt, run_then result, copyHead, run_then run_read, if_neg long,
    run_undefined]

theorem Object.Apart.symm (apart : o.Apart o') : o'.Apart o := Or.symm apart

theorem Layout.superblock_apart (L : Layout) {o : Object} (member : o ∈ [L.inodeMapObject,
    L.shellPathInodeObject, L.shellPathHeadObject, L.inodeObject, L.blockObject, L.ieObject]) :
    L.superblockObject.Apart o := List.rel_of_pairwise_cons L.pairwise member

theorem Layout.inodeMap_apart (L : Layout) {o : Object} (member : o ∈ [L.shellPathInodeObject,
    L.shellPathHeadObject, L.inodeObject, L.blockObject, L.ieObject]) :
    L.inodeMapObject.Apart o := List.rel_of_pairwise_cons L.pairwise.of_cons member

theorem Layout.inode_apart (L : Layout) {o : Object} (member : o ∈ [L.blockObject, L.ieObject]) :
    L.inodeObject.Apart o :=
  List.rel_of_pairwise_cons L.pairwise.of_cons.of_cons.of_cons.of_cons member

theorem word_edited {g : Buffer → Buffer} (inside : k + 4 ≤ n) :
    word (edited a n g s).memory (a + k) = word (g fun k => s.memory (a + k)) k := by
  rw [edited, word_copy_inside inside, Nat.zero_add]

theorem byte_edited {g : Buffer → Buffer} (inside : k < n) :
    (edited a n g s).memory (a + k) = g (fun k => s.memory (a + k)) k := by
  have read := @copy_inside a k n (g fun k => s.memory (a + k)) s.memory 0 inside
  rwa [Nat.zero_add] at read

/-- In an empty map the first bit is taken. -/
theorem run_inodeAlloc (clear : ∀ i < inodeBound,
    Files.bit (fun k => s.memory (L.inodeMap + k)) i = false) :
    ∃ t, run (inodeAlloc L) s = some (0, t) ∧ Frame [L.inodeMapObject] s t := by
  have first : (0 : Int) ≤ ((0 : Nat) : Int).tdiv 32 ∧ ((0 : Nat) : Int).tdiv 32 < 0x400 := by
    decide
  obtain ⟨t, written, _, same⟩ := map_stores L.inodeMap ⟨L.ie, blockSize⟩
    (edited L.inodeMap inodeMapSize (fun map => Files.bitmapModify map 1 ((0 : Nat) : Int)) s)
    (Nat.le_refl 8)
  refine ⟨t, ?_, frame_copy (Nat.le_refl _) same⟩
  rw [inodeAlloc, run_then run_read, Files.search_clear clear, modifyInodeMap, if_pos first,
    run_then run_onObject, inodeMapWrite, fsInodeMapSize, run_then written]
  rfl

theorem Stores.frame (stores : Stores src a n o s t) : Frame [o] s t :=
  fun k outside => stores.memory k (outside o (List.mem_singleton_self o))

theorem freshDirBlock_local {ino fatherIno : Files.Word} :
    LocalTo n (freshDirBlock ino fatherIno) := by
  have free : LocalTo n Files.freeDentries := localTo_foldl (fun _ => localTo_setWord) _
  have entry : ∀ i ino mode name, LocalTo n (Files.setDentry i ino mode name) := fun _ _ _ _ =>
    localTo_setWord.comp (localTo_setWord.comp localTo_strcpy)
  exact free.comp ((entry 0 _ _ _).comp (entry 1 _ _ _))

/-- The block and the inode of the root go to the card. -/
theorem run_inodeCreate (L : Layout) (timer : Files.Word) (s : State) :
    ∃ t, run (inodeCreate L rootDirIno Files.dir tilde rootDirIno timer) s = some ((), t) ∧
      Frame [L.inodeObject, L.blockObject, L.ieObject] s t ∧
      t.disk = copy (copy s.disk 0x20000000
          (freshDirBlock rootDirIno rootDirIno fun k => s.memory (L.block + k)) 0 blockSize)
        0x3fc00000 (inodeInit rootDirIno Files.dir tilde rootDirIno timer
          fun k => s.memory (L.inode + k)) 0 inodeSize := by
  obtain ⟨s₁, isFirst⟩ : ∃ s₁, edited L.inode inodeSize
    (inodeInit rootDirIno Files.dir tilde rootDirIno timer) s = s₁ := ⟨_, rfl⟩
  obtain ⟨number, kind, above⟩ := @Files.inodeInit_fields (fun k => s.memory (L.inode + k))
    rootDirIno Files.dir rootDirIno timer tilde (by decide)
  have numberAt : word s₁.memory (L.inode + offIno) = rootDirIno := by
    rw [← isFirst, word_edited (by decide), number]
  have kindAt : word s₁.memory (L.inode + offMode) = Files.dir := by
    rw [← isFirst, word_edited (by decide), kind]
  have aboveAt : word s₁.memory (L.inode + offFatherIno) = rootDirIno := by
    rw [← isFirst, word_edited (by decide), above]
  obtain ⟨s₂, isSecond⟩ : ∃ s₂, edited L.block blockSize
    (freshDirBlock rootDirIno rootDirIno) s₁ = s₂ := ⟨_, rfl⟩
  obtain ⟨s₃, written, stores⟩ := block_stores L.block 0 L.blockObject s₂
  obtain ⟨s₄, entry, stores'⟩ := inode_stores 0 s₃ (L.inode_apart (o := L.ieObject) (by simp))
  have inodeFrame : Frame [L.inodeObject] s s₁ := isFirst ▸ edited_frame (Nat.le_refl _)
  have blockFrame : Frame [L.blockObject] s₁ s₃ :=
    Frame.trans (isSecond ▸ edited_frame (Nat.le_refl _)) stores.frame
  have apart : L.inodeObject.Apart L.blockObject := L.inode_apart List.mem_cons_self
  refine ⟨s₄, ?_, ?_, ?_⟩
  · rw [inodeCreate, if_neg (by decide), run_then run_onObject, isFirst, run_then run_wordAt,
      if_pos kindAt]
    have init : run (dirInit L) s₁ = some ((), s₃) := by
      rw [dirInit, run_then run_wordAt, run_then run_wordAt, numberAt, aboveAt,
        run_then run_onObject, isSecond]
      exact written
    exact (run_then init).trans entry
  · exact (inodeFrame.wider (by simp)).trans ((blockFrame.wider (by simp)).trans
      (Frame.wider stores'.frame (by simp [Layout.ieObject])))
  · have inode : ∀ k < inodeSize, s₃.memory (L.inode + k) =
        inodeInit rootDirIno Files.dir tilde rootDirIno timer
          (fun k => s.memory (L.inode + k)) (0 + k) := by
      intro k inside
      have kept := blockFrame.byte (o := L.inodeObject) (fun o member => by
        rwa [List.mem_singleton.mp member]) inside
      rw [Nat.zero_add]
      refine Eq.trans kept ?_
      rw [← isFirst]
      exact byte_edited inside
    have block : ∀ k < blockSize, s₂.memory (L.block + k) =
        freshDirBlock rootDirIno rootDirIno (fun k => s.memory (L.block + k)) (0 + k) := by
      intro k inside
      rw [Nat.zero_add, ← isSecond, byte_edited inside]
      refine freshDirBlock_local _ _ (fun j small => ?_) k inside
      exact inodeFrame.byte (o := L.blockObject) (fun o member => by
        rw [List.mem_singleton.mp member]
        exact apart.symm) small
    have same : s₂.disk = s.disk := by rw [← isSecond, ← isFirst]; rfl
    rw [stores'.disk, stores.disk, same, copy_congr inode, copy_congr block]
    rfl

/-- The second byte of the root inode ends its name. -/
theorem rootName_ends {inode : Buffer} {timer : Files.Word} :
    inodeInit rootDirIno Files.dir tilde rootDirIno timer inode 1 = 0 := by
  rw [inodeInit, setWord_outside (by decide), setWord_outside (by decide),
    setWord_outside (by decide)]
  exact strcpy_end (a := 0) (s := tilde.val)

/-- The rest of `do_makefs` on a card without a file system. -/
def formatRest (L : Layout) (timer : Files.Word) : Routine Unit := do
  superblockInit L
  inodeMapInit L
  let ino ← inodeAlloc L
  if ino ≠ 0 then pure ()
  else
    inodeCreate L rootDirIno Files.dir tilde rootDirIno timer
    superblockWrite L
    inodeMapWrite L
    mount L

theorem run_format (L : Layout) (timer : Files.Word) (s : State) :
    ∃ t, run (formatRest L timer) s = some ((), t) ∧ Frame L.objects s t := by
  obtain ⟨s₁, isFirst⟩ : ∃ s₁, edited L.superblock superblockSize freshSuperblock s = s₁ :=
    ⟨_, rfl⟩
  obtain ⟨s₂, isSecond⟩ : ∃ s₂, edited L.inodeMap inodeMapSize Files.zeroMap s₁ = s₂ := ⟨_, rfl⟩
  have clear : ∀ i < inodeBound, Files.bit (fun k => s₂.memory (L.inodeMap + k)) i = false := by
    intro i small
    rw [← isSecond, ← Files.bit_zeroMap small]
    exact Files.bit_congr (fun k inside => byte_edited inside) small
  obtain ⟨s₃, allocated, mapFrame⟩ := run_inodeAlloc clear
  obtain ⟨s₄, created, rootFrame, disk⟩ := run_inodeCreate L timer s₃
  obtain ⟨s₅, superblockWritten, superblockStores, same₅⟩ :=
    superblock_stores L L.superblockObject s₄
  obtain ⟨s₆, mapWritten, mapStores, same₆⟩ :=
    map_stores L.inodeMap L.inodeMapObject s₅ (Nat.le_refl 8)
  have rootIno : word s₆.memory (L.superblock + offRootDirIno) = rootDirIno := by
    have fresh : word s₁.memory (L.superblock + offRootDirIno) = rootDirIno := by
      rw [← isFirst, word_edited (by decide)]
      exact Files.word_freshSuperblock.2
    have second : Frame [L.inodeMapObject] s₁ s₂ := isSecond ▸ edited_frame (Nat.le_refl _)
    have rest : Frame [L.inodeMapObject, L.inodeObject, L.blockObject, L.ieObject] s₁ s₄ :=
      (second.wider (by simp)).trans ((mapFrame.wider (by simp)).trans (rootFrame.wider (by simp)))
    have apart : ∀ o ∈ [L.inodeMapObject, L.inodeObject, L.blockObject, L.ieObject],
        L.superblockObject.Apart o := by
      intro o member
      apply L.superblock_apart
      simp only [List.mem_cons, List.not_mem_nil, or_false] at member
      rcases member with rfl | rfl | rfl | rfl <;> simp
    have kept := rest.word (o := L.superblockObject) (k := offRootDirIno) apart (Nat.le_refl _)
    rw [same₆, same₅]
    exact kept.trans fresh
  have named : Terminated (mountedInode L s₆.memory s₆.disk
      (word s₆.memory (L.superblock + offRootDirIno)).toInt) 0 inodeSize := by
    refine ⟨1, by decide, ?_⟩
    have inside : ¬checkIno rootDirIno.toInt := by decide
    have place : 0x3fc00000 + inodeSize * rootDirIno.toInt.toNat + (0 + 1) = 0x3fc00001 := by decide
    have beyond : mapAddress + 0x200 * 8 ≤ 0x3fc00001 := by decide
    have beyond' : superblockAddress + blockSize ≤ 0x3fc00001 := by decide
    rw [rootIno, mountedInode, if_neg inside, place, mapStores.disk, copy_outside (.inr beyond),
      superblockStores.disk, copy_outside (.inr beyond'), disk]
    exact (copy_inside (by decide : 1 < inodeSize)).trans rootName_ends
  obtain ⟨s₇, mounted, shellFrame⟩ := mounted_name named
  refine ⟨s₇, ?_, ?_⟩
  · rw [formatRest, superblockInit, run_then run_onObject, isFirst, inodeMapInit,
      run_then run_onObject]
    change run _ (edited L.inodeMap inodeMapSize Files.zeroMap s₁) = _
    rw [isSecond, run_then allocated, if_neg (by decide), run_then created,
      run_then superblockWritten, inodeMapWrite, fsInodeMapSize, run_then mapWritten, mounted]
  · have first : Frame [L.superblockObject] s s₁ := isFirst ▸ edited_frame (Nat.le_refl _)
    have second : Frame [L.inodeMapObject] s₁ s₂ := isSecond ▸ edited_frame (Nat.le_refl _)
    have unmoved : Frame [] s₄ s₆ := fun a _ => congrFun (same₆.trans same₅) a
    exact (first.wider (by simp [Layout.objects])).trans <|
      (second.wider (by simp [Layout.objects])).trans <|
      (mapFrame.wider (by simp [Layout.objects])).trans <|
      (rootFrame.wider (by simp [Layout.objects])).trans <|
      (unmoved.wider (by simp)).trans (shellFrame.wider (by simp [Layout.objects]))

/-- A mounted root inode has its name ended. -/
def Named (L : Layout) (s : State) : Prop :=
  word s.disk superblockAddress = fsMagic → Terminated
    (mountedInode L (copy s.memory L.superblock s.disk superblockAddress blockSize) s.disk
      (word s.disk (superblockAddress + offRootDirIno)).toInt) 0 inodeSize

theorem makefs_exact {timer : Files.Word} : AltersOnly L.objects (doMakefs L timer) s ↔
    TailOutside L.objects L s ∧ Named L s := by
  obtain ⟨t, result, loads⟩ := superblock_loads L s
  have member : L.superblockObject ∈ L.objects := List.mem_cons_self
  have field : ∀ {k}, k + 4 ≤ blockSize →
      word t.memory (L.superblock + k) = word s.disk (superblockAddress + k) := by
    intro k inside
    rw [loads.memory, word_copy_inside inside]
  have magic : word t.memory (L.superblock + offMagic) = word s.disk superblockAddress :=
    field (by decide)
  by_cases formatted : word s.disk superblockAddress = fsMagic
  · obtain ⟨u, mapRead, mapLoads⟩ := map_loads L.inodeMap t (Nat.le_refl 8)
    have mapFrame : Frame [L.inodeMapObject] t u := frame_copy (Nat.le_refl _) mapLoads.memory
    have rootIno : word u.memory (L.superblock + offRootDirIno) =
        word s.disk (superblockAddress + offRootDirIno) := by
      have kept := mapFrame.word (o := L.superblockObject) (k := offRootDirIno)
        (fun o one => L.superblock_apart (List.mem_cons.mpr (.inl (List.mem_singleton.mp one))))
        (Nat.le_refl _)
      exact kept.trans (field (by decide))
    have shell : ∀ k < inodeSize,
        u.memory (L.shellPathInode + k) = t.memory (L.shellPathInode + k) := by
      intro k inside
      refine mapFrame.byte (o := L.shellPathInodeObject) (fun o one => ?_) inside
      rw [List.mem_singleton.mp one]
      exact (L.inodeMap_apart List.mem_cons_self).symm
    have same : ∀ k < inodeSize, mountedInode L u.memory u.disk
        (word u.memory (L.superblock + offRootDirIno)).toInt (0 + k) =
        mountedInode L (copy s.memory L.superblock s.disk superblockAddress blockSize) s.disk
          (word s.disk (superblockAddress + offRootDirIno)).toInt (0 + k) := by
      intro k inside
      rw [rootIno, mountedInode, mountedInode, Nat.zero_add, shell k inside, loads.memory,
        mapLoads.disk, loads.disk]
    have start : run (doMakefs L timer) s = run (mount L) u := by
      rw [doMakefs, run_then result, run_then run_wordAt, if_pos (magic.trans formatted),
        inodeMapRead, fsInodeMapSize, run_then mapRead]
    by_cases named : Named L s
    · obtain ⟨v, mounted, shellFrame⟩ := mounted_name ((named formatted).congr fun k inside =>
        (same k inside).symm)
      have later : Frame L.objects t v := (mapFrame.wider (by simp [Layout.objects])).trans
        (shellFrame.wider (by simp [Layout.objects]))
      rw [altersOnly_iff (start.trans mounted), later.after, frame_superblock member loads]
      exact ⟨fun tail => ⟨tail, named⟩, And.left⟩
    · have endless := mount_overrun (L := L) (s := u) fun ends =>
        named fun _ => ends.congr same
      constructor
      · rintro ⟨r, v, ended, _⟩
        rw [start, endless] at ended
        cases ended
      · exact fun both => absurd both.2 named
  · obtain ⟨v, rest, frame⟩ := run_format L timer t
    have ended : run (doMakefs L timer) s = some ((), v) := by
      rw [doMakefs, run_then result, run_then run_wordAt,
        if_neg fun is => formatted (magic.symm.trans is)]
      exact rest
    rw [altersOnly_iff ended, frame.after, frame_superblock member loads]
    exact ⟨fun tail => ⟨tail, fun is => absurd is formatted⟩, And.left⟩

/-- The transfers of the superblock, and the three commands that read it, leave the memory
around their objects alone exactly when that memory agrees with the rest of the sector. All
other transfers always do. -/
theorem transfers_exact (L : Layout) (s : State) (timer : Files.Word) :
    (∀ item dest, AltersOnly [Item.object L dest item] (item.read L dest) s ↔
      (item = .superblock → Tail L s)) ∧
    (∀ item src, item.Fits L src →
      (StoresOnly L item src s ↔ (item = .superblock → Tail L s))) ∧
    (AltersOnly [L.superblockObject] (statfs L) s ↔ Tail L s) ∧
    (AltersOnly [L.superblockObject] (deletefs L) s ↔ Tail L s) ∧
    (AltersOnly L.objects (doMakefs L timer) s ↔ TailOutside L.objects L s ∧ Named L s) :=
  ⟨fun item _ => read_exact item, fun item _ fits => write_exact item fits, statfs_exact,
    deletefs_exact, makefs_exact⟩

/-- The card and the memory of the image after `mkfs` and one `touch`: the sector of the
superblock still has the inode map as it was before. -/
def touched : State where
  memory := setWord image.superblock fsMagic (setWord image.inodeMap 3 fun _ => 0)
  disk := setWord superblockAddress fsMagic (setWord (superblockAddress + superblockSize) 1
    fun _ => 0)
  transfers := []

theorem transfers_exact_touched :
    AltersOnly [image.superblockObject] (statfs image) touched ↔ Tail image touched :=
  (transfers_exact image touched 0).2.2.1

/-- Printing the state of the file system gives the touched file's inode back. -/
theorem map_overwritten : ¬AltersOnly [image.superblockObject] (statfs image) touched := by
  rw [statfs_exact]
  intro tail
  have first : touched.memory (image.superblock + superblockSize) =
      touched.disk (superblockAddress + superblockSize) := tail _ (Nat.le_refl _) (by decide)
  exact absurd first (by decide)

end Tina.Card
