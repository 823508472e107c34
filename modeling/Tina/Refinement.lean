import Tina.LongPaths
import Mathlib.Data.Set.Finite.Basic

/-! What the file system is for: a tree of directories and files and a current directory.
Every command does to the tree what its name says. -/
namespace Tina.Files

open ByteBuffer Atomic SlotTree Transition

variable {s s' t : FileSystem} {d d' : Buffer} {i j k : Nat} {p q cwd : List Nat}
  {n m f g : Node} {name : CString} {locals : Locals} {c : Command}

abbrev Content := Fin blockSize → Byte

inductive Item where
  | directory (name : List Byte)
  | file (name : List Byte) (content : Content)

def Item.isDirectory (name : List Byte) : Item → Bool
  | .directory own => own = name
  | .file _ _ => false

def Item.isFile (name : List Byte) : Item → Bool
  | .directory _ => false
  | .file own _ => own = name

/-- The bytes from `pos` on are replaced. -/
def overwrite (pos : Nat) (buf : List Byte) (content : Content) : Content := fun k =>
  if pos ≤ k ∧ k < pos + buf.length then buf.getD (k - pos) 0 else content k

def Item.write (pos : Nat) (buf : List Byte) : Item → Item
  | .directory name => .directory name
  | .file name content => .file name (overwrite pos buf content)

/-- A tree of items, and a directory in it. The path of a node lists slots, its own slot
first, and the entries of a directory are ordered by their slots. -/
@[ext] structure Volume where
  tree : Tree Nat Item
  cwd : List Nat
  finite : {p | tree p ≠ none}.Finite
  inside : ∀ i p it, tree (i :: p) = some it → i ∈ childSlots ∧ ∃ name, tree p = some (.directory name)
  root : ∃ name, tree [] = some (.directory name)
  stands : ∃ name, tree cwd = some (.directory name)

/-- The commands, seen from the tree. -/
inductive Action where
  | mkdir (name : List Byte)
  | touch (name : List Byte)
  | rm (name : List Byte)
  | rmdir (name : List Byte)
  | cd (path : List Byte)
  | fopen (name : List Byte)
  | write (p : List Nat) (pos : Nat) (buf : List Byte)
  | nothing

section Volume

variable (v v' : Volume)

/-- One item more, in the first free slot of the current directory. -/
def Volume.Adds (it : Item) : Prop :=
  ∃ i, firstFree childSlots v.tree v.cwd = some i ∧ v'.tree = graft v.tree (i :: v.cwd) it ∧
    v'.cwd = v.cwd

/-- The first such item of the current directory goes, with all below it, if there is one. -/
def Volume.Drops (like : Item → Bool) : Prop :=
  v'.cwd = v.cwd ∧ v'.tree = match firstChild childSlots like v.tree v.cwd with
    | none => v.tree
    | some i => prune v.tree (i :: v.cwd)

def Volume.walk (path : List Byte) : Option (List Nat) :=
  (components path).foldlM (follow childSlots Item.isDirectory dot.val dotDot.val v.tree)
    (startOf v.cwd path)

/-- The text of a new file is empty; the bytes after its end are any. -/
def Volume.Touches (name : List Byte) : Prop :=
  ∃ content : Content, content ⟨0, by decide⟩ = 0 ∧ v.Adds v' (.file name content)

def Volume.Step : Action → Prop
  | .mkdir name => v.Adds v' (.directory name)
  | .touch name => v.Touches v' name
  | .rm name => v.Drops v' (Item.isFile name)
  | .rmdir name =>
    if name = dot.val ∨ name = dotDot.val then v' = v else v.Drops v' (Item.isDirectory name)
  | .cd path => v'.tree = v.tree ∧ v'.cwd = (v.walk path).getD v.cwd
  -- What lies on the stack may pass for the file.
  | .fopen name => v' = v ∨ firstChild childSlots (Item.isFile name) v.tree v.cwd = none ∧
    v.Touches v' name
  | .write p pos buf => (∃ name content, v.tree p = some (.file name content)) ∧
    v'.tree = modify v.tree p (Item.write pos buf) ∧ v'.cwd = v.cwd
  | .nothing => v' = v

end Volume

/-- What a command is meant to do. A descriptor stands for the file of its number. -/
def Means (s : FileSystem) : Command → Action → Prop
  | .mkdir (some name) _, a => a = .mkdir name.val
  | .touch (some name) _, a => a = .touch name.val
  | .rm (some name) _, a => a = .rm name.val
  | .rmdir (some name) _, a => a = .rmdir name.val
  | .cd (some path) _, a => a = .cd path.val
  | .fopen name _ _, a => a = .fopen name.val
  | .fwrite index buf _, a => ∃ p n, locate s.disk p = some n ∧ n.ino = (s.fd index).ino ∧
    a = .write p (s.fd index).pos.toNat buf
  | _, a => a = .nothing

def content (d : Buffer) (ino : Word) : Content := fun k => d (blockAddress ino + k)

def item (d : Buffer) (n : Node) : Item :=
  if n.mode = dir then .directory n.name else .file n.name (content d n.ino)

/-- The tree on the card and the directory of the shell. -/
structure Represents (s : FileSystem) (v : Volume) : Prop where
  tree : v.tree = image (item s.disk) (locate s.disk)
  cwd : ∃ f, locate s.disk v.cwd = some f ∧ f.mode = dir ∧ cwdIno s = f.ino

theorem item_directory (isDir : n.mode = dir) : item d n = .directory n.name := if_pos isDir

theorem item_file (isFile : n.mode = file) : item d n = .file n.name (content d n.ino) := by
  rw [item, if_neg]
  rw [isFile]
  decide

theorem image_directory (located : locate d p = some n) (isDir : n.mode = dir) :
    image (item d) (locate d) p = some (.directory n.name) := by
  rw [image, located, Option.map_some, item_directory isDir]

theorem Sound.isDirectory {text : List Byte} (sound : Sound d) (located : locate d p = some n) :
    Item.isDirectory text (item d n) = n.isDir text := by
  rcases sound.kind located with isFile | isDir
  · rw [item_file isFile]
    simp [Item.isDirectory, Node.isDir, isFile, file, dir]
  · rw [item_directory isDir]
    simp [Item.isDirectory, Node.isDir, isDir]

theorem Sound.isFile {text : List Byte} (sound : Sound d) (located : locate d p = some n) :
    Item.isFile text (item d n) = true ↔ n.mode = file ∧ n.name = text := by
  rcases sound.kind located with isFile | isDir
  · rw [item_file isFile]
    simp [Item.isFile, isFile]
  · rw [item_directory isDir]
    simp [Item.isFile, isDir, file, dir]

/-- No two nodes have one number, and there are finitely many numbers. -/
theorem Sound.finite (sound : Sound d) : {p | image (item d) (locate d) p ≠ none}.Finite := by
  have numbered : ∀ p ∈ {p | image (item d) (locate d) p ≠ none}, ∃ n, locate d p = some n := by
    intro p there
    apply Option.ne_none_iff_exists'.mp
    intro absent
    rw [Set.mem_ofPred_eq, image, absent] at there
    exact there rfl
  apply Set.Finite.of_finite_image (f := fun p => ((locate d p).map fun n => n.ino.toNat).getD 0)
  · apply (Set.finite_lt_nat inodeBound).subset
    rintro _ ⟨p, there, rfl⟩
    obtain ⟨n, located⟩ := numbered p there
    rw [Set.mem_ofPred_eq]
    simp only [located, Option.map_some, Option.getD_some]
    exact sound.small located
  · intro p there q there' same
    obtain ⟨n, located⟩ := numbered p there
    obtain ⟨m, located'⟩ := numbered q there'
    simp only [located, located', Option.map_some, Option.getD_some] at same
    exact sound.apart located located' (BitVec.eq_of_toNat_eq same)

theorem Intact.volume (intact : Intact s) : ∃ v, Represents s v := by
  obtain ⟨cwd, f, located, isDir, shell⟩ := intact.cwd
  refine ⟨{
    tree := image (item s.disk) (locate s.disk)
    cwd := cwd
    finite := intact.sound.finite
    inside := ?_
    root := ⟨tilde.val, image_directory (n := rootNode) rfl rfl⟩
    stands := ⟨f.name, image_directory located isDir⟩ }, rfl, f, located, isDir, shell⟩
  intro i p it there
  obtain ⟨n, here, _⟩ := Option.map_eq_some_iff.mp there
  obtain ⟨g, above, gDir, slot, low, _⟩ := locate_parent here
  exact ⟨childSlots_member.mpr ⟨slot, low⟩, g.name, image_directory above gDir⟩

/-- The tree and the current directory are all that the card and the shell say. -/
theorem Represents.unique {v w : Volume} (intact : Intact s) (left : Represents s v)
    (right : Represents s w) : v = w := by
  obtain ⟨f, here, _, shell⟩ := left.cwd
  obtain ⟨g, there, _, shell'⟩ := right.cwd
  apply Volume.ext
  · rw [left.tree, right.tree]
  · exact intact.sound.apart here there (shell.symm.trans shell')

theorem item_same (same : n.mode ≠ dir → Same d d' (blockAddress n.ino) blockSize) :
    item d' n = item d n := by
  by_cases isDir : n.mode = dir
  · rw [item_directory isDir, item_directory isDir]
  · have equal : content d' n.ino = content d n.ino := by
      funext k
      exact same isDir k k.isLt
    rw [item, item, if_neg isDir, if_neg isDir, equal]

/-- The blocks of the files there were are left alone. -/
theorem Grafted.item (grafted : Grafted d d' f.ino i n) (sound : Sound d) (room : Room d cwd f i n)
    (located : Files.locate d q = some m) : Files.item d' m = Files.item d m := by
  apply item_same
  intro notDir k low
  have small := sound.small located
  have smallF := sound.small room.cwd
  have inside := room.inside
  have other := toNat_ne (room.other sound located)
  have notFather : m.ino.toNat ≠ f.ino.toNat := by
    intro same
    have path := sound.apart located room.cwd (BitVec.eq_of_toNat_eq same)
    subst path
    rw [room.cwd] at located
    cases located
    exact notDir room.isDir
  apply grafted.outside
  · rw [blockAddress_eq small]
    simp only [Beyond, mapAddress, mapSize, blockSize, inodeBound] at *
    omega
  · rw [blockAddress_eq small, blockAddress_eq room.small]
    simp only [Beyond, blockSize] at *
    omega
  · rw [blockAddress_eq small]
    simp only [Beyond, tableAddress, inodeSize, blockSize, inodeBound] at *
    omega
  · rw [blockAddress_eq small, blockAddress_eq smallF]
    simp only [Beyond, blockSize, dentrySize, dentrysPerBlock] at *
    omega

theorem Pruned.item (pruned : Pruned d d' f.ino i n.ino) (sound : Sound d) (held : Held d cwd f i n)
    (located : Files.locate d q = some m) : Files.item d' m = Files.item d m := by
  apply item_same
  intro notDir k low
  have small := sound.small located
  have smallF := sound.small held.cwd
  have inside := held.inside
  have notFather : m.ino.toNat ≠ f.ino.toNat := by
    intro same
    have path := sound.apart located held.cwd (BitVec.eq_of_toNat_eq same)
    subst path
    rw [held.cwd] at located
    cases located
    exact notDir held.isDir
  apply pruned.outside
  · rw [blockAddress_eq small]
    simp only [Beyond, mapAddress, mapSize, blockSize, inodeBound] at *
    omega
  · rw [blockAddress_eq small, blockAddress_eq smallF]
    simp only [Beyond, blockSize, dentrySize, dentrysPerBlock] at *
    omega

section Effects

variable {v v' : Volume} (before : Represents s v) (after : Represents s' v') (intact : Intact s)

include before intact

theorem Represents.stand (located : locate s.disk cwd = some f) (shell : cwdIno s = f.ino) :
    v.cwd = cwd := by
  obtain ⟨g, there, _, shell'⟩ := before.cwd
  exact intact.sound.apart there located (shell'.symm.trans shell)

/-- The first free slot, seen from the tree. -/
theorem Created.firstFree (created : Created s cwd f i n s') :
    SlotTree.firstFree childSlots v.tree v.cwd = some i := by
  have room := created.room
  rw [before.stand intact room.cwd created.shell, before.tree, firstFree_image,
    SlotTree.firstFree, childSlots, List.find?_range'_eq_some]
  refine ⟨?_, List.mem_range'_1.mpr ⟨room.slot, room.inside⟩, fun j slot earlier => ?_⟩
  · rw [room.absent]
    rfl
  · rw [locate_cons room.cwd room.isDir slot (Nat.lt_trans earlier room.inside)]
    simpa using Option.isSome_iff_ne_none.mpr (created.first j earlier)

theorem firstChild_entry {mode : Word} {like : Item → Bool} {text : List Byte}
    (located : locate s.disk cwd = some f) (isDir : f.mode = dir) (shell : cwdIno s = f.ino)
    (means : ∀ {p m}, locate s.disk p = some m →
      (like (item s.disk m) = true ↔ m.mode = mode ∧ m.name = text))
    (slot : i ∈ childSlots) : ((v.tree (i :: v.cwd)).any like = true ↔
      ∃ n, dirEntry s.disk f.ino i = some n ∧ n.mode = mode ∧ n.name = text) := by
  obtain ⟨low, inside⟩ := childSlots_member.mp slot
  have child := locate_cons located isDir low inside
  rw [before.stand intact located shell, before.tree, image, child]
  cases live : dirEntry s.disk f.ino i with
  | none => simp
  | some m =>
    rw [live] at child
    simp [means child]

include after

theorem Created.adds (created : Created s cwd f i n s') : v.Adds v' (item s'.disk n) := by
  have sound := intact.sound
  have intact' := created.intact intact
  have here := before.stand intact created.room.cwd created.shell
  have there : v'.cwd = cwd := by
    apply after.stand intact' (f := f)
    · rw [created.located sound, graft_other (by simp), created.room.cwd]
    · exact created.stays
  refine ⟨i, created.firstFree before intact, ?_, there.trans here.symm⟩
  rw [after.tree, before.tree, here, created.located sound]
  exact image_graft fun q m located _ => created.grafted.item sound created.room located

theorem Removed.drops (removed : Removed s cwd f i n s') {like : Item → Bool}
    (means : ∀ {p m}, locate s.disk p = some m →
      (like (item s.disk m) = true ↔ m.mode = n.mode ∧ m.name = n.name)) : v.Drops v' like := by
  have sound := intact.sound
  have intact' := removed.intact intact
  have held := removed.held
  have here := before.stand intact held.cwd removed.shell
  have there : v'.cwd = cwd := by
    apply after.stand intact' (f := f)
    · rw [removed.pruned.locate sound held, prune_other not_suffix_parent, held.cwd]
    · exact removed.stays
  have search : ∀ j ∈ childSlots, ((v.tree (j :: v.cwd)).any like = true ↔
      ∃ m, dirEntry s.disk f.ino j = some m ∧ m.mode = n.mode ∧ m.name = n.name) := by
    intro j slot
    exact firstChild_entry before intact held.cwd held.isDir removed.shell means slot
  have first : firstChild childSlots like v.tree v.cwd = some i := by
    rw [firstChild, childSlots, List.find?_range'_eq_some]
    have member := childSlots_member.mpr ⟨held.slot, held.inside⟩
    refine ⟨(search i member).mpr ⟨n, held.here, rfl, rfl⟩, member, fun j slot earlier => ?_⟩
    rw [Bool.not_eq_true', Bool.eq_false_iff]
    intro found
    have member' := childSlots_member.mpr ⟨slot, Nat.lt_trans earlier held.inside⟩
    obtain ⟨m, live, kind, same⟩ := (search j member').mp found
    exact removed.first j earlier m live kind same
  refine ⟨there.trans here.symm, ?_⟩
  rw [first, after.tree, before.tree, here, removed.pruned.locate sound held]
  exact image_prune fun q m located _ => removed.pruned.item sound held located

/-- What neither the card nor the shell notices. -/
theorem Represents.same (disk : s'.disk = s.disk) (shell : s'.shellPathInode = s.shellPathInode) :
    v' = v := by
  apply Volume.ext
  · rw [after.tree, before.tree, disk]
  · obtain ⟨f, located, _, number⟩ := after.cwd
    rw [disk] at located
    rw [cwdIno, shell] at number
    exact (before.stand intact located number).symm

theorem Effect.Takes.drops {mode : Word} {like : Item → Bool} (takes : Effect.Takes s mode name s')
    (means : ∀ {p m}, locate s.disk p = some m →
      (like (item s.disk m) = true ↔ m.mode = mode ∧ m.name = name.val)) : v.Drops v' like := by
  rcases takes with ⟨cwd, f, i, n, removed, rfl, same⟩ | ⟨rfl, missing⟩
  · rw [← same] at means
    exact removed.drops before after intact means
  · obtain ⟨f, located, isDir, shell⟩ := before.cwd
    have equal := before.same after intact rfl rfl
    have nothing : firstChild childSlots like v.tree v.cwd = none := by
      rw [firstChild, List.find?_eq_none]
      intro i slot found
      obtain ⟨n, live, kind, same⟩ :=
        (firstChild_entry before intact located isDir shell means slot).mp found
      rw [shell] at missing
      exact missing i (childSlots_member.mp slot).2 n live kind same
    rw [Volume.Drops, nothing, equal]
    exact ⟨rfl, rfl⟩

end Effects

theorem Represents.walk {v : Volume} (before : Represents s v) (intact : Intact s)
    (path : List Byte) :
    v.walk path = resolve s.disk (startOf v.cwd path) (components path) := by
  have step : SlotTree.follow childSlots Item.isDirectory dot.val dotDot.val v.tree =
      followNode s.disk := by
    funext p component
    have search : firstChild childSlots (fun a => Item.isDirectory component (item s.disk a))
        (locate s.disk) p = firstChild childSlots (Node.isDir component) (locate s.disk) p := by
      apply List.find?_congr
      intro i _
      cases located : locate s.disk (i :: p) with
      | none => rfl
      | some n => exact intact.sound.isDirectory located
    rw [followNode, before.tree, follow_image, follow, follow, search]
  rw [Volume.walk, resolve, step]

theorem Moved.represents {v v' : Volume} (before : Represents s v) (after : Represents s' v')
    (intact : Intact s) (moved : Moved s q s') : v'.tree = v.tree ∧ v'.cwd = q := by
  obtain ⟨disk, _, _, holds⟩ := moved
  obtain ⟨g, there, isDir, number⟩ := holds.ino intact.sound
  obtain ⟨f, located, _, shell⟩ := after.cwd
  rw [disk] at located
  refine ⟨by rw [after.tree, before.tree, disk], ?_⟩
  exact intact.sound.apart located there (shell.symm.trans number)

theorem write_item {pos : Nat} {buf : List Byte} (intact : Intact s)
    (located : locate s.disk p = some n) (isFile : n.mode = file)
    (inside : pos + buf.length ≤ blockSize)
    (disk : s'.disk = copy s.disk (blockAddress n.ino + pos) (fun k => buf.getD k 0) 0 buf.length) :
    image (item s'.disk) (locate s'.disk) =
      modify (image (item s.disk) (locate s.disk)) p (Item.write pos buf) := by
  have sound := intact.sound
  have written := written_of s n.ino inside
  rw [← disk] at written
  have small := sound.small located
  rw [written.locate sound (sound.noDirectory located isFile)]
  apply image_modify
  · intro q m there other
    apply item_same
    intro _ k low
    have apart : m.ino.toNat ≠ n.ino.toNat := by
      intro same
      exact other (sound.apart there located (BitVec.eq_of_toNat_eq same))
    apply written
    rw [blockAddress_eq small, blockAddress_eq (sound.small there)]
    simp only [Beyond, blockSize] at *
    omega
  · intro m there
    rw [located] at there
    cases there
    have bytes : content s'.disk n.ino = overwrite pos buf (content s.disk n.ino) := by
      funext k
      rw [overwrite, content, disk]
      by_cases within : pos ≤ k ∧ k.val < pos + buf.length
      · obtain ⟨e, same⟩ := Nat.exists_eq_add_of_le within.1
        rw [if_pos within, same, ← Nat.add_assoc, copy_inside (by omega), Nat.zero_add,
          Nat.add_sub_cancel_left]
      · rw [if_neg within, copy_outside (by omega)]
        rfl
    rw [item_file isFile, item_file isFile, Item.write, bytes]

theorem Created.text (created : Created s cwd f i n s') (isFile : n.mode = file) :
    content s'.disk n.ino ⟨0, by decide⟩ = 0 := created.empty isFile 0 (Nat.zero_lt_succ 3)

theorem not_opens {v : Volume} {stack : Buffer} (before : Represents s v) (intact : Intact s)
    (missed : ¬opens s name stack) :
    firstChild childSlots (Item.isFile name.val) v.tree v.cwd = none := by
  obtain ⟨f, located, isDir, shell⟩ := before.cwd
  rw [firstChild, List.find?_eq_none]
  intro i slot found
  obtain ⟨n, live, kind, same⟩ :=
    (firstChild_entry before intact located isDir shell intact.sound.isFile slot).mp found
  rw [← shell] at live
  exact intact.missed missed i (childSlots_member.mp slot).2 n live kind same

/-- The concrete step does what the command means. -/
theorem Effect.simulates {v v' : Volume} (effect : Effect s c s') (fits : Fits s c)
    (intact : Intact s) (before : Represents s v) (after : Represents s' v') :
    ∃ a, Means s c a ∧ v.Step v' a := by
  have sound := intact.sound
  have quietStep : Quiet s s' → v' = v := fun quiet =>
    before.same after intact quiet.1 quiet.2.2.2
  cases c with
  | mkdir name locals =>
    cases name with
    | none => exact ⟨.nothing, rfl, quietStep effect⟩
    | some name =>
      obtain ⟨cwd, f, i, n, created, isDir, same⟩ := effect
      have adds := created.adds before after intact
      rw [item_directory isDir, same] at adds
      exact ⟨.mkdir name.val, rfl, adds⟩
  | touch name locals =>
    cases name with
    | none => exact ⟨.nothing, rfl, quietStep effect⟩
    | some name =>
      obtain ⟨cwd, f, i, n, created, isFile, same⟩ := effect
      have adds := created.adds before after intact
      rw [item_file isFile, same] at adds
      exact ⟨.touch name.val, rfl, _, created.text isFile, adds⟩
  | rm name locals =>
    cases name with
    | none => exact ⟨.nothing, rfl, quietStep effect⟩
    | some name =>
      exact ⟨.rm name.val, rfl, Effect.Takes.drops before after intact effect sound.isFile⟩
  | rmdir name locals =>
    cases name with
    | none => exact ⟨.nothing, rfl, quietStep effect⟩
    | some name =>
      have dots : name = dot ∨ name = dotDot ↔ name.val = dot.val ∨ name.val = dotDot.val := by
        rw [Subtype.ext_iff, Subtype.ext_iff]
      refine ⟨.rmdir name.val, rfl, ?_⟩
      rw [Effect] at effect
      rw [Volume.Step]
      split at effect
      next here =>
        rw [if_pos (dots.mp here)]
        subst effect
        exact before.same after intact rfl rfl
      next here =>
        rw [if_neg fun h => here (dots.mpr h)]
        apply Effect.Takes.drops before after intact effect
        intro p m located
        rw [sound.isDirectory located, Node.isDir, decide_eq_true_iff]
  | cd path stack =>
    cases path with
    | none => exact ⟨.nothing, rfl, quietStep effect⟩
    | some path =>
      obtain ⟨cwd, f, located, isDir, shell, outcome⟩ := effect
      have stand := before.stand intact located shell
      refine ⟨.cd path.val, rfl, ?_⟩
      rw [Volume.Step, before.walk intact, stand]
      split at outcome
      next lost =>
        rw [lost, quietStep outcome]
        exact ⟨rfl, stand⟩
      next q found =>
        rw [found]
        exact outcome.represents before after intact
  | ls path stack =>
    cases path <;> exact ⟨.nothing, rfl, quietStep effect⟩
  | cat name stack =>
    cases name <;> exact ⟨.nothing, rfl, quietStep effect⟩
  | fopen name stack locals =>
    refine ⟨.fopen name.val, rfl, ?_⟩
    rcases effect with ⟨_, quiet⟩ | ⟨missed, t, cwd, f, i, n, created, isFile, same, quiet⟩
    · exact .inl (quietStep quiet)
    · right
      obtain ⟨w, between⟩ := (created.intact intact).volume
      have adds := created.adds before between intact
      have equal := between.same after (created.intact intact) quiet.1 quiet.2.2.2
      rw [item_file isFile, same, ← equal] at adds
      exact ⟨not_opens before intact missed, _, created.text isFile, adds⟩
  | fwrite index buf stack =>
    obtain ⟨p, n, located, isFile, number, map, superblock, shell, disk⟩ := effect
    refine ⟨.write p (s.fd index).pos.toNat buf, ⟨p, n, located, number.symm, rfl⟩, ?_, ?_, ?_⟩
    · refine ⟨n.name, content s.disk n.ino, ?_⟩
      rw [before.tree, image, located, Option.map_some, item_file isFile]
    · rw [after.tree, before.tree]
      exact write_item intact located isFile fits.2 disk
    · obtain ⟨f, there, _, stands⟩ := after.cwd
      have written := written_of s n.ino fits.2
      rw [← disk] at written
      rw [written.locate sound (sound.noDirectory located isFile)] at there
      rw [cwdIno, shell] at stands
      exact (before.stand intact there stands).symm
  | fseek index pos => exact ⟨.nothing, rfl, quietStep effect⟩

theorem Volume.closed (v : Volume) : Closed v.tree := by
  intro i p absent
  cases there : v.tree (i :: p) with
  | none => rfl
  | some it =>
    obtain ⟨_, name, above⟩ := v.inside i p it there
    rw [absent] at above
    cases above

/-- A new item that is the first of its kind is what a removal takes away. -/
theorem Volume.Adds.undone {v w u : Volume} {it : Item} {like : Item → Bool} (adds : v.Adds w it)
    (new : like it = true) (absent : firstChild childSlots like v.tree v.cwd = none)
    (drops : w.Drops u like) : u = v := by
  obtain ⟨i, free, tree, cwd⟩ := adds
  obtain ⟨cwd', tree'⟩ := drops
  have empty : v.tree (i :: v.cwd) = none := by
    have isNone := List.find?_some free
    exact Option.isNone_iff_eq_none.mp isNone
  have first : firstChild childSlots like w.tree w.cwd = some i := by
    rw [tree, cwd]
    exact firstChild_graft (List.mem_of_find?_eq_some free) absent new
  apply Volume.ext
  · rw [tree', first, tree, cwd]
    exact prune_graft v.closed empty
  · rw [cwd', cwd]

theorem Intact.simulates {v : Volume} (intact : Intact s) (before : Represents s v)
    (sane : Sane s c) : ∃ s' v' a, perform c s = some s' ∧ Intact s' ∧ Represents s' v' ∧
      Means s c a ∧ v.Step v' a := by
  obtain ⟨s', result, effect⟩ := intact.step sane.1 sane.2
  have intact' := effect.intact sane.1 intact
  obtain ⟨v', after⟩ := intact'.volume
  obtain ⟨a, means, step⟩ := effect.simulates sane.1 intact before after
  exact ⟨s', v', a, result, intact', after, means, step⟩

/-- A file of a new name is made and removed again. -/
theorem Intact.touch_rm {v : Volume} {locals' : Locals} (intact : Intact s)
    (before : Represents s v) (fits : CreationFits s name)
    (absent : firstChild childSlots (Item.isFile name.val) v.tree v.cwd = none) :
    ∃ s' t, perform (.touch (some name) locals) s = some s' ∧
      perform (.rm (some name) locals') s' = some t ∧ Represents t v := by
  obtain ⟨s', w, a, result, intact', between, rfl, content, _, adds⟩ :=
    intact.simulates (c := .touch (some name) locals) before ⟨fits, trivial⟩
  obtain ⟨t, u, a, result', _, after, rfl, drops⟩ :=
    intact'.simulates (c := .rm (some name) locals') between ⟨trivial, trivial⟩
  have same : u = v := adds.undone (by simp [Item.isFile]) absent drops
  exact ⟨s', t, result, result', same ▸ after⟩

theorem Intact.mkdir_rmdir {v : Volume} {locals' : Locals} (intact : Intact s)
    (before : Represents s v) (fits : CreationFits s name) (notDots : name ≠ dot ∧ name ≠ dotDot)
    (absent : firstChild childSlots (Item.isDirectory name.val) v.tree v.cwd = none) :
    ∃ s' t, perform (.mkdir (some name) locals) s = some s' ∧
      perform (.rmdir (some name) locals') s' = some t ∧ Represents t v := by
  obtain ⟨s', w, a, result, intact', between, rfl, adds⟩ :=
    intact.simulates (c := .mkdir (some name) locals) before ⟨fits, trivial⟩
  obtain ⟨t, u, a, result', _, after, rfl, drops⟩ :=
    intact'.simulates (c := .rmdir (some name) locals') between ⟨trivial, trivial⟩
  have other : ¬(name.val = dot.val ∨ name.val = dotDot.val) := by
    rintro (same | same)
    · exact notDots.1 (Subtype.ext same)
    · exact notDots.2 (Subtype.ext same)
  rw [Volume.Step, if_neg other] at drops
  have same : u = v := adds.undone (by simp [Item.isDirectory]) absent drops
  exact ⟨s', t, result, result', same ▸ after⟩

/-- What it means that the file system refines the tree: every state stands for one tree,
every command does to it what it means, and what was just made can be unmade. -/
structure Refines (s : FileSystem) : Prop where
  represented : ∃ v, Represents s v
  unique : ∀ v w, Represents s v → Represents s w → v = w
  step : ∀ v c, Represents s v → Sane s c → ∃ s' v' a, perform c s = some s' ∧
    Represents s' v' ∧ Means s c a ∧ v.Step v' a
  touched : ∀ v name locals locals', Represents s v → CreationFits s name →
    firstChild childSlots (Item.isFile name.val) v.tree v.cwd = none →
    ∃ s' t, perform (.touch (some name) locals) s = some s' ∧
      perform (.rm (some name) locals') s' = some t ∧ Represents t v
  made : ∀ v name locals locals', Represents s v → CreationFits s name →
    name ≠ dot ∧ name ≠ dotDot →
    firstChild childSlots (Item.isDirectory name.val) v.tree v.cwd = none →
    ∃ s' t, perform (.mkdir (some name) locals) s = some s' ∧
      perform (.rmdir (some name) locals') s' = some t ∧ Represents t v

theorem Intact.refines (intact : Intact s) : Refines s where
  represented := intact.volume
  unique _ _ left right := left.unique intact right
  step v c before sane := by
    obtain ⟨s', v', a, result, _, after, means, step⟩ := intact.simulates before sane
    exact ⟨s', v', a, result, after, means, step⟩
  touched _ _ _ _ before fits absent := intact.touch_rm before fits absent
  made _ _ _ _ before fits notDots absent := intact.mkdir_rmdir before fits notDots absent

theorem session_refines (session : Session Sane s) : Refines s := session.intact.refines

theorem session_refines_mkdir : ∃ s, Refines s ∧ ∃ v, Represents s v ∧
    ∃ i, v.tree (i :: v.cwd) = some (.directory nameA.val) := by
  obtain ⟨start, s, cwd, f, i, n, formatted, created, isDir, same, session⟩ := session_mkdir
  have sane : Sane start (.mkdir (some nameA) blankLocals) :=
    ⟨formatted.fits (by decide), trivial⟩
  obtain ⟨v, before⟩ := formatted.intact.volume
  obtain ⟨w, after⟩ := (created.intact formatted.intact).volume
  obtain ⟨j, _, tree, shell⟩ := created.adds before after formatted.intact
  refine ⟨s, session_refines (session Sane sane), w, after, j, ?_⟩
  rw [tree, shell, graft_self, item_directory isDir, same]

/-- With the arrays of `decode_path` as they lie in the build, short paths make no difference. -/
theorem Intact.simulates_frame {v : Volume} {buf : Buffer} (intact : Intact s)
    (before : Represents s v) (sane : Sane s c) : ∃ s' v' a, performFrame buf c s = some s' ∧
      Represents s' v' ∧ Means s c a ∧ v.Step v' a := by
  obtain ⟨s', v', a, result, _, after, means, step⟩ := intact.simulates before sane
  exact ⟨s', v', a, (performFrame_eq sane.2).trans result, after, means, step⟩

/-- 40 slashes and the name of the directory. -/
def longPath : CString := ⟨padded nameA.val, by decide⟩

theorem walk_longPath {v : Volume} (there : v.tree [i] = some (.directory nameA.val)) :
    ∃ j, v.walk longPath.val = some [j] := by
  have parts : components longPath.val = [nameA.val] := by
    rw [← skipLoop_eq, skipLoop_runs]
    decide
  have start : startOf v.cwd longPath.val = [] := if_pos rfl
  obtain ⟨slot, _⟩ := v.inside i [] _ there
  have found : firstChild childSlots (Item.isDirectory nameA.val) v.tree [] ≠ none := by
    intro absent
    have missed := List.find?_eq_none.mp absent i slot
    rw [there] at missed
    exact missed (by decide)
  obtain ⟨j, first⟩ := Option.ne_none_iff_exists'.mp found
  refine ⟨j, ?_⟩
  rw [Volume.walk, parts, start, List.foldlM_cons, follow, if_neg (by decide),
    if_neg (by decide), first]
  rfl

/-- `cd` with such a path leaves the shell in the root instead of moving it to `a`. -/
theorem cd_stays : ¬∃ buf, ∀ s, Session Fits s → ∀ v c, Represents s v → Fits s c →
    ∃ s' v' a, performFrame buf c s = some s' ∧ Represents s' v' ∧ Means s c a ∧
      v.Step v' a := by
  rintro ⟨buf, refines⟩
  obtain ⟨start, s, cwd, f, i, n, formatted, created, isDir, same, session⟩ := session_mkdir
  obtain ⟨rfl, rfl⟩ := formatted.locate created.room.cwd
  have intact := created.intact formatted.intact
  obtain ⟨v, before⟩ := intact.volume
  obtain ⟨s', v', a, result, after, rfl, _, moved⟩ := refines s
    (session Fits (formatted.fits (by decide))) v (.cd (some longPath) blankLocals.db) before
    trivial
  have located : locate s.disk [i] = some n := by
    rw [created.located formatted.intact.sound, graft_self]
  have there : v.tree [i] = some (.directory nameA.val) := by
    rw [before.tree, image_directory located isDir, same]
  obtain ⟨j, leads⟩ := walk_longPath there
  obtain ⟨t, result', stays⟩ := @performFrame_padded s buf blankLocals.db longPath nameA.val
    intact rfl (by decide) (by decide) (by decide)
  cases result'.symm.trans result
  have root := (stays.represents before after intact).2
  rw [root, leads] at moved
  cases moved

end Tina.Files
