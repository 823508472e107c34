import Tina.Commands
import Mathlib.Data.List.Find

/-! `decode_path`, `cd` and `ls`: a path is split at its slashes, and its components are
followed through the tree. -/
namespace Tina.Files

open ByteBuffer Atomic SlotTree

variable {s s' : FileSystem} {b d stack : Buffer} {c : Byte} {text w component : List Byte}
  {i j k : Nat} {p q cwd : List Nat} {n m f : Node} {name : CString}

/-- The parts of a path between slashes, empty ones left out. -/
def components (text : List Byte) : List (List Byte) :=
  (text.splitOnP (· == slash)).filter (· ≠ [])

theorem components_slash : components (slash :: text) = components text := by
  simp [components, List.splitOnP_cons_eq_if_modifyHead]

/-- What the inner loop has collected stands before the next part. -/
theorem splitLoops (text : List Byte) : skipLoop text = components text ∧
    ∀ w ≠ [], componentLoop w text =
      ((text.splitOnP (· == slash)).modifyHead (w ++ ·)).filter (· ≠ []) := by
  induction text with
  | nil =>
    refine ⟨rfl, fun w other => ?_⟩
    simp [componentLoop, other]
  | cons c text ih =>
    obtain ⟨skip, collect⟩ := ih
    by_cases sep : c = slash
    · subst sep
      refine ⟨?_, fun w other => ?_⟩
      · rw [skipLoop, if_pos rfl, skip, components_slash]
      · rw [componentLoop, if_pos rfl, skip]
        simp [List.splitOnP_cons_eq_if_modifyHead, components, other]
    · have apart : (c == slash) = false := by simpa using sep
      have parts : (c :: text).splitOnP (· == slash) =
          (text.splitOnP (· == slash)).modifyHead (c :: ·) := by
        rw [List.splitOnP_cons_eq_if_modifyHead, apart]
        rfl
      refine ⟨?_, fun w other => ?_⟩
      · rw [skipLoop, if_neg sep, collect [c] (by simp), components, parts]
        rfl
      · rw [componentLoop, if_neg sep, collect (w ++ [c]) (by simp), parts]
        cases text.splitOnP (· == slash) with
        | nil => rfl
        | cons first rest => simp

theorem skipLoop_eq : skipLoop text = components text := (splitLoops text).1

theorem loop_length (text : List Byte) : 2 * (skipLoop text).length ≤ text.length + 1 ∧
    ∀ w, 2 * (componentLoop w text).length ≤ text.length + 2 := by
  induction text with
  | nil => simp [skipLoop, componentLoop]
  | cons c text ih =>
    obtain ⟨skip, collect⟩ := ih
    rw [skipLoop, List.length_cons]
    constructor
    · split
      · omega
      · have := collect [c]
        omega
    · intro w
      rw [componentLoop]
      split
      · rw [List.length_cons]
        omega
      · have := collect (w ++ [c])
        omega

theorem loop_member (text : List Byte) :
    (∀ w ∈ skipLoop text, ∀ c ∈ w, c ∈ text) ∧
    ∀ v, ∀ w ∈ componentLoop v text, ∀ c ∈ w, c ∈ v ∨ c ∈ text := by
  induction text with
  | nil => simp [skipLoop, componentLoop]
  | cons e text ih =>
    obtain ⟨skip, collect⟩ := ih
    constructor
    · intro w part c member
      rw [skipLoop] at part
      split at part
      · exact List.mem_cons_of_mem e (skip w part c member)
      · cases collect [e] w part c member with
        | inl first => exact List.mem_cons.mpr (.inl (List.mem_singleton.mp first))
        | inr later => exact List.mem_cons_of_mem e later
    · intro v w part c member
      rw [componentLoop] at part
      split at part
      · cases List.mem_cons.mp part with
        | inl whole => exact .inl (whole ▸ member)
        | inr later => exact .inr (List.mem_cons_of_mem e (skip w later c member))
      · cases collect (v ++ [e]) w part c member with
        | inl first =>
          cases List.mem_append.mp first with
          | inl old => exact .inl old
          | inr new => exact .inr (List.mem_cons.mpr (.inl (List.mem_singleton.mp new)))
        | inr later => exact .inr (List.mem_cons_of_mem e later)

/-- The slots after `.` and `..`. -/
def childSlots : List Nat := List.range' 2 14

theorem childSlots_member : i ∈ childSlots ↔ 2 ≤ i ∧ i < dentrysPerBlock := by
  rw [childSlots, List.mem_range'_1]
  rfl

def Node.isDir (name : List Byte) (n : Node) : Bool := n.mode = dir ∧ n.name = name

def followNode (d : Buffer) (p : List Nat) (component : List Byte) : Option (List Nat) :=
  follow childSlots Node.isDir dot.val dotDot.val (locate d) p component

def resolve (d : Buffer) (p : List Nat) (components : List (List Byte)) : Option (List Nat) :=
  components.foldlM (followNode d) p

theorem scan_split {found : Nat → Bool} : scan dentrysPerBlock found =
    if found 0 then 0 else if found 1 then 1
    else (childSlots.find? found).getD dentrysPerBlock := by
  have slots : List.range dentrysPerBlock = 0 :: 1 :: childSlots := by decide
  rw [scan, slots, List.find?_cons, List.find?_cons]
  cases found 0 with
  | true => rfl
  | false => cases found 1 <;> rfl

theorem leadsTo_read (stack : Buffer) (sound : Sound s.disk) (located : locate s.disk p = some f)
    (isDir : f.mode = dir) (inside : j < dentrysPerBlock) (noNul : ∀ c ∈ component, c ≠ 0) :
    leadsTo (copy stack 0 s.disk (blockAddress f.ino) blockSize) component j = true ↔
      ∃ n, dirEntry s.disk f.ino j = some n ∧ n.mode ≠ file ∧ n.name = component := by
  have read := @entry_read s f.ino j stack inside
  rw [leadsTo]
  cases live : dirEntry s.disk f.ino j with
  | none =>
    rw [live, entry_none] at read
    simp [read]
  | some n =>
    rw [live] at read
    obtain ⟨number, kind, _⟩ := entry_some read
    have other := dirEntry_live live
    have compare := strcmp_read stack (sound.named located isDir inside live) inside
      live noNul
    simp [number, kind, other, compare]

/-- Below a directory the loop looks for what `firstChild` looks for. -/
theorem find_child (stack : Buffer) (sound : Sound s.disk) (located : locate s.disk p = some f)
    (isDir : f.mode = dir) (noNul : ∀ c ∈ component, c ≠ 0) :
    childSlots.find?
        (leadsTo (copy stack 0 s.disk (blockAddress f.ino) blockSize) component) =
      firstChild childSlots (Node.isDir component) (locate s.disk) p := by
  apply List.find?_congr
  intro i member
  obtain ⟨slot, inside⟩ := childSlots_member.mp member
  have child := locate_cons located isDir slot inside
  have found := leadsTo_read stack sound located isDir inside noNul
  rw [Bool.eq_iff_iff, found, child]
  cases live : dirEntry s.disk f.ino i with
  | none => simp
  | some n =>
    rw [live] at child
    have kind := sound.kind child
    have notFile : n.mode ≠ file ↔ n.mode = dir := by
      constructor
      · exact kind.resolve_left
      · intro same
        rw [same]
        decide
    simp [Node.isDir, notFile]

/-- One round of the loop: the scan fails, or stops at the entry of the directory that the
component leads to. -/
theorem scan_follow (stack : Buffer) (sound : Sound s.disk) (located : locate s.disk p = some f)
    (isDir : f.mode = dir) (noNul : ∀ c ∈ component, c ≠ 0)
    (read : b = copy stack 0 s.disk (blockAddress f.ino) blockSize) :
    followNode s.disk p component = none ∧
      scan dentrysPerBlock (leadsTo b component) = dentrysPerBlock ∨
    ∃ q g, followNode s.disk p component = some q ∧ locate s.disk q = some g ∧ g.mode = dir ∧
      scan dentrysPerBlock (leadsTo b component) < dentrysPerBlock ∧
      dentryIno b (scan dentrysPerBlock (leadsTo b component)) = g.ino := by
  obtain ⟨g, above, gDir⟩ := locate_tail located
  have dots := sound.dots located isDir above
  have first : leadsTo b component 0 = true ↔ dot.val = component := by
    rw [read, leadsTo_read stack sound located isDir (by decide) noNul, dots.self]
    simp [dir, file]
  have second : leadsTo b component 1 = true ↔ dotDot.val = component := by
    rw [read, leadsTo_read stack sound located isDir (by decide) noNul, dots.parent]
    simp [dir, file]
  have number : ∀ {j} (n : Node), j < dentrysPerBlock → dirEntry s.disk f.ino j = some n →
      dentryIno b j = n.ino := by
    intro j n inside live
    rw [← entry_read stack inside, ← read] at live
    exact (entry_some live).1
  rw [followNode, follow, scan_split]
  by_cases self : component = dot.val
  · right
    rw [if_pos self, if_pos (first.mpr self.symm)]
    have self' : dentryIno b 0 = f.ino := number ⟨f.ino, dir, dot.val⟩ (by decide) dots.self
    exact ⟨p, f, rfl, located, isDir, by decide, self'⟩
  · rw [if_neg self, if_neg fun found => self (first.mp found).symm]
    by_cases parent : component = dotDot.val
    · right
      rw [if_pos parent, if_pos (second.mpr parent.symm)]
      have parent' : dentryIno b 1 = g.ino := number ⟨g.ino, dir, dotDot.val⟩ (by decide) dots.parent
      exact ⟨p.tail, g, rfl, above, gDir, by decide, parent'⟩
    · have search := find_child stack sound located isDir noNul
      rw [← read] at search
      rw [if_neg parent, if_neg fun found => parent (second.mp found).symm, search]
      cases child : firstChild childSlots (Node.isDir component) (locate s.disk) p with
      | none => exact .inl ⟨rfl, rfl⟩
      | some i =>
        right
        have here := List.find?_some child
        obtain ⟨slot, inside⟩ := childSlots_member.mp (List.mem_of_find?_eq_some child)
        cases there : locate s.disk (i :: p) with
        | none =>
          rw [there] at here
          cases here
        | some n =>
          rw [there] at here
          have like : n.mode = dir ∧ n.name = component := by simpa [Node.isDir] using here
          have live := there
          rw [locate_cons located isDir slot inside] at live
          exact ⟨i :: p, n, rfl, there, like.1, inside, number n inside live⟩

/-- `b` holds the inode entry of the directory at `p`. -/
def Holds (d b : Buffer) (p : List Nat) : Prop :=
  ∃ g, locate d p = some g ∧ g.mode = dir ∧ ∀ k < inodeSize, b k = d (tableAddress g.ino + k)

theorem Holds.ino (holds : Holds d b p) (sound : Sound d) :
    ∃ g, locate d p = some g ∧ g.mode = dir ∧ word b offIno = g.ino := by
  obtain ⟨g, located, isDir, bytes⟩ := holds
  obtain ⟨e, above, _⟩ := locate_tail located
  refine ⟨g, located, isDir, ?_⟩
  rw [← (sound.table located above).ino]
  apply word_congr
  intro k low high
  simp only [offIno, inodeSize] at *
  rw [bytes k (by omega)]
  congr 1
  omega

/-- Reading the inode entry of a directory reached from the root. -/
theorem holds_read {dest : Buffer} (located : locate d p = some f) (isDir : f.mode = dir) :
    Holds d (copy dest 0 d (tableAddress f.ino) inodeSize) p :=
  ⟨f, located, isDir, fun _ low => copy_start low⟩

theorem run_walkPath (stack : Buffer) {parts : List (List Byte)} (sound : Sound s.disk)
    (here : Holds s.disk s.curDir p) (noNul : ∀ w ∈ parts, ∀ c ∈ w, c ≠ 0) :
    (resolve s.disk p parts = none ∧
      ∃ b, run (walkPath stack parts) s = some (-1, { s with curDir := b })) ∨
    ∃ q b, resolve s.disk p parts = some q ∧
      run (walkPath stack parts) s = some (1, { s with curDir := b }) ∧ Holds s.disk b q := by
  induction parts generalizing s p with
  | nil =>
    right
    exact ⟨p, s.curDir, rfl, rfl, here⟩
  | cons component parts ih =>
    obtain ⟨f, located, isDir, cur⟩ := here.ino sound
    have round := scan_follow stack sound located isDir
      (noNul component List.mem_cons_self) rfl
    rw [resolve, List.foldlM_cons, walkPath, run_then run_curDirIno, cur,
      run_then run_dirBlockRead]
    rcases round with ⟨lost, missed⟩ | ⟨q, g, next, there, gDir, found, number⟩
    · left
      rw [lost, missed, if_pos rfl]
      exact ⟨rfl, s.curDir, rfl⟩
    · have small := sound.small there
      rw [next, if_neg (Nat.ne_of_lt found), number, run_then (run_inodeRead small)]
      exact ih (s := onCurDir (fun b => copy b 0 s.disk (tableAddress g.ino) inodeSize) s) sound
        (holds_read there gDir) fun w member => noNul w (List.mem_cons_of_mem component member)

def startOf (cwd : List Nat) (text : List Byte) : List Nat :=
  if text.head? = some slash then [] else cwd

theorem run_initCurDir (text : List Byte) (sound : Sound s.disk)
    (rootIno : word s.superblock offRootDirIno = rootDirIno) (located : locate s.disk cwd = some f)
    (isDir : f.mode = dir) (shell : cwdIno s = f.ino) :
    ∃ b, run (initCurDir text.head?) s = some ((), { s with curDir := b }) ∧
      Holds s.disk b (startOf cwd text) := by
  rw [initCurDir, startOf]
  by_cases root : text.head? = some slash
  · have small : rootDirIno.toNat < inodeBound := by decide
    rw [if_pos root, if_pos root, run_then run_rootIno, rootIno, run_inodeRead small]
    have held : Holds s.disk (copy s.curDir 0 s.disk (tableAddress rootNode.ino) inodeSize) [] :=
      holds_read rfl rfl
    exact ⟨_, rfl, held⟩
  · have small := sound.small located
    rw [if_neg root, if_neg root, run_then run_shellPathIno, ← cwdIno, shell,
      run_inodeRead small]
    exact ⟨_, rfl, holds_read located isDir⟩

theorem run_decodePath (stack : Buffer) (sound : Sound s.disk)
    (rootIno : word s.superblock offRootDirIno = rootDirIno) (located : locate s.disk cwd = some f)
    (isDir : f.mode = dir) (shell : cwdIno s = f.ino) (fits : name.val.length < 32) :
    (resolve s.disk (startOf cwd name.val) (components name.val) = none ∧
      ∃ b, run (decodePath name stack) s = some (-1, { s with curDir := b })) ∨
    ∃ q b, resolve s.disk (startOf cwd name.val) (components name.val) = some q ∧
      run (decodePath name stack) s = some (1, { s with curDir := b }) ∧ Holds s.disk b q := by
  have few := (loop_length name.val).1
  have inside : ¬(32 ≤ name.val.length ∨ 16 < (skipLoop name.val).length) := by omega
  have noNul : ∀ w ∈ skipLoop name.val, ∀ c ∈ w, c ≠ 0 := fun w part c member =>
    name.property c ((loop_member name.val).1 w part c member)
  obtain ⟨b, init, start⟩ := run_initCurDir name.val sound rootIno located isDir shell
  have walk := run_walkPath (s := { s with curDir := b }) stack sound start noNul
  rw [decodePath, if_neg inside, run_then init, ← skipLoop_eq]
  exact walk

/-- `cd` moves the shell along the path, or leaves it where it is. -/
theorem run_changeDirectory (stack : Buffer) (sound : Sound s.disk)
    (rootIno : word s.superblock offRootDirIno = rootDirIno) (located : locate s.disk cwd = some f)
    (isDir : f.mode = dir) (shell : cwdIno s = f.ino) (fits : name.val.length < 32) :
    (resolve s.disk (startOf cwd name.val) (components name.val) = none ∧
      ∃ b, run (changeDirectory (some name) stack) s = some ((), { s with curDir := b })) ∨
    ∃ q b head inode, resolve s.disk (startOf cwd name.val) (components name.val) = some q ∧
      run (changeDirectory (some name) stack) s = some ((), { s with
        curDir := b, shellPathInode := inode, shellPathHead := head }) ∧
      Holds s.disk inode q := by
  rcases run_decodePath stack sound rootIno located isDir shell fits with
    ⟨lost, b, decoded⟩ | ⟨q, b, found, decoded, holds⟩
  · left
    refine ⟨lost, b, ?_⟩
    rw [changeDirectory, run_then decoded, if_pos (by decide), run_pure]
  · right
    obtain ⟨g, there, gDir, number⟩ := holds.ino sound
    have small := sound.small there
    have held : Holds s.disk (copy s.shellPathInode 0 s.disk (tableAddress g.ino) inodeSize) q :=
      holds_read there gDir
    refine ⟨q, b, strcpy 0 (cstring (copy s.shellPathInode 0 s.disk (tableAddress g.ino) inodeSize)
      0 inodeSize) s.shellPathHead, _, found, ?_, held⟩
    rw [changeDirectory, run_then decoded, if_neg (by decide), run_then run_curDirIno, number,
      run_then (run_inodeRead small)]
    rfl

/-- The names in a directory, in the order of its slots. -/
def listing (d : Buffer) (ino : Word) : List (List Byte) :=
  (List.range dentrysPerBlock).filterMap fun i => (dirEntry d ino i).map Node.name

theorem listing_read (sound : Sound s.disk) (located : locate s.disk p = some f)
    (isDir : f.mode = dir) (read : b = copy stack 0 s.disk (blockAddress f.ino) blockSize) :
    ((List.range dentrysPerBlock).filter fun i => dentryIno b i ≠ noIno).map
      (fun i => cstring b (dentryName i) (blockSize - dentryName i)) = listing s.disk f.ino := by
  have part : ∀ slots : List Nat, (∀ i ∈ slots, i < dentrysPerBlock) →
      (slots.filter fun i => dentryIno b i ≠ noIno).map
        (fun i => cstring b (dentryName i) (blockSize - dentryName i)) =
      slots.filterMap fun i => (dirEntry s.disk f.ino i).map Node.name := by
    intro slots inside
    induction slots with
    | nil => rfl
    | cons i slots ih =>
      have low := inside i List.mem_cons_self
      have rest := ih fun j member => inside j (List.mem_cons_of_mem i member)
      have entryRead := @entry_read s f.ino i stack low
      rw [← read] at entryRead
      cases live : dirEntry s.disk f.ino i with
      | none =>
        rw [live, entry_none] at entryRead
        rw [List.filter_cons_of_neg (by simp [entryRead]), rest,
          List.filterMap_cons_none (by rw [live]; rfl)]
      | some n =>
        rw [live] at entryRead
        obtain ⟨number, _, text⟩ := entry_some entryRead
        have other := dirEntry_live live
        have named : Terminated b (dentryName i) 24 := by
          rw [read]
          exact named_read (sound.named located isDir low live) low
        have wide : 24 ≤ blockSize - dentryName i := by
          simp only [dentryName, dentrySize, offDentryName, blockSize, dentrysPerBlock] at *
          omega
        have printed := (cstring_longer named wide).trans text
        rw [List.filter_cons_of_pos (by simp [number, other]), List.map_cons, rest, printed,
          List.filterMap_cons_some (by rw [live]; rfl)]
  exact part _ fun i member => List.mem_range.mp member

/-- `ls` only moves `cur_dir`, and prints the names of the directory it is given. -/
theorem run_listDirectory (stack : Buffer) (sound : Sound s.disk)
    (rootIno : word s.superblock offRootDirIno = rootDirIno) (located : locate s.disk cwd = some f)
    (isDir : f.mode = dir) (shell : cwdIno s = f.ino) (fits : name.val.length < 32) :
    (resolve s.disk (startOf cwd name.val) (components name.val) = none ∧
      ∃ b, run (listDirectory (some name) stack) s = some (none, { s with curDir := b })) ∨
    ∃ q g b, resolve s.disk (startOf cwd name.val) (components name.val) = some q ∧
      locate s.disk q = some g ∧ g.mode = dir ∧
      run (listDirectory (some name) stack) s =
        some (some (listing s.disk g.ino), { s with curDir := b }) := by
  rcases run_decodePath stack sound rootIno located isDir shell fits with
    ⟨lost, b, decoded⟩ | ⟨q, b, found, decoded, holds⟩
  · left
    exact ⟨lost, b, by rw [listDirectory, run_then decoded, if_pos (by decide), run_pure]⟩
  · right
    obtain ⟨g, there, gDir, number⟩ := holds.ino sound
    refine ⟨q, g, b, found, there, gDir, ?_⟩
    rw [listDirectory, run_then decoded, if_neg (by decide), run_then run_curDirIno, number,
      run_then run_dirBlockRead, run_pure, listing_read sound there gDir rfl]

end Tina.Files
