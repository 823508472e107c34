import Tina.Shell
import Tina.Transition

/-! The structure of the file system after any run of commands: dots, numbers, marks and
inode entries of every directory reached from the root. -/
namespace Tina.Files

open ByteBuffer Atomic SlotTree Transition

variable {s s' boot : FileSystem} {d : Buffer} {i : Nat} {p q cwd : List Nat}
  {n m f g : Node} {ino : Word} {locals : Locals} {c : Command}

/-- The directories reached from the root through live dentries. -/
inductive Directory (d : Buffer) : Word → Prop where
  | root : Directory d rootDirIno
  | child {f : Word} {i : Nat} {n : Node} : Directory d f → i < dentrysPerBlock →
      dirEntry d f i = some n → n.mode = dir →
      Directory d n.ino

structure Structured (s : FileSystem) : Prop where
  self : ∀ f, Directory s.disk f → dirEntry s.disk f 0 = some ⟨f, dir, dot.val⟩
  rootParent : dirEntry s.disk rootDirIno 1 = some ⟨rootDirIno, dir, dotDot.val⟩
  parent : ∀ f i n, Directory s.disk f → 2 ≤ i → i < dentrysPerBlock →
    dirEntry s.disk f i = some n → n.mode = dir →
    dirEntry s.disk n.ino 1 = some ⟨f, dir, dotDot.val⟩
  numbers : ∀ f i n, Directory s.disk f → i < dentrysPerBlock → dirEntry s.disk f i = some n →
    n.ino.toNat < inodeBound ∧ bit s.inodeMap n.ino.toNat = true ∧
      bit (diskMap s.disk) n.ino.toNat = true
  inodes : ∀ f i n, Directory s.disk f → i < dentrysPerBlock → dirEntry s.disk f i = some n →
    word s.disk (tableAddress n.ino + offIno) = n.ino ∧
      word s.disk (tableAddress n.ino + offMode) = n.mode ∧
      (2 ≤ i → word s.disk (tableAddress n.ino + offFatherIno) = f)
  unique : ∀ f i n f' i' n', Directory s.disk f → Directory s.disk f' → 2 ≤ i → 2 ≤ i' →
    i < dentrysPerBlock → i' < dentrysPerBlock → dirEntry s.disk f i = some n →
    dirEntry s.disk f' i' = some n' → n.ino = n'.ino → f = f' ∧ i = i'
  shell : Directory s.disk (cwdIno s)

/-- The marks in the map are the numbers that live dentries name. -/
def Exact (s : FileSystem) : Prop := ∀ o < inodeBound, bit s.inodeMap o = true ↔
  ∃ f i n, Directory s.disk f ∧ i < dentrysPerBlock ∧ dirEntry s.disk f i = some n ∧
    n.ino.toNat = o

theorem Directory.located (sound : Sound d) (directory : Directory d ino) :
    ∃ p g, locate d p = some g ∧ g.mode = dir ∧ g.ino = ino := by
  induction directory with
  | root => exact ⟨[], rootNode, rfl, rfl, rfl⟩
  | @child f i n _ inside live isDir ih =>
    obtain ⟨p, g, located, gDir, rfl⟩ := ih
    obtain ⟨e, above, eDir⟩ := locate_tail located
    have dots := sound.dots located gDir above
    by_cases first : i = 0
    · subst first
      rw [dots.self] at live
      cases live
      exact ⟨p, g, located, gDir, rfl⟩
    · by_cases second : i = 1
      · subst second
        rw [dots.parent] at live
        cases live
        exact ⟨p.tail, e, above, eDir, rfl⟩
      · rw [← locate_cons located gDir (by omega) inside] at live
        exact ⟨i :: p, n, live, isDir, rfl⟩

theorem directory_of (located : locate d p = some g) (isDir : g.mode = dir) :
    Directory d g.ino := by
  induction p generalizing g with
  | nil =>
    cases located
    exact .root
  | cons i p ih =>
    obtain ⟨f, above, fDir, _, inside, live⟩ := locate_parent located
    exact .child (ih above fDir) inside live isDir

/-- A live dentry of a directory is one of its dots or the place of a node. -/
theorem entry_cases (sound : Sound d) (located : locate d p = some g) (isDir : g.mode = dir)
    (inside : i < dentrysPerBlock) (live : dirEntry d g.ino i = some n) :
    (∃ q m, locate d q = some m ∧ m.mode = dir ∧ n.ino = m.ino ∧ n.mode = dir ∧ i < 2) ∨
    2 ≤ i ∧ locate d (i :: p) = some n := by
  obtain ⟨e, above, eDir⟩ := locate_tail located
  have dots := sound.dots located isDir above
  by_cases first : i = 0
  · subst first
    rw [dots.self] at live
    cases live
    exact .inl ⟨p, g, located, isDir, rfl, rfl, by decide⟩
  · by_cases second : i = 1
    · subst second
      rw [dots.parent] at live
      cases live
      exact .inl ⟨p.tail, e, above, eDir, rfl, rfl, by decide⟩
    · have slot : 2 ≤ i := by omega
      rw [← locate_cons located isDir slot inside] at live
      exact .inr ⟨slot, live⟩

theorem entry_described (sound : Sound d) (located : locate d p = some g) (isDir : g.mode = dir)
    (inside : i < dentrysPerBlock) (live : dirEntry d g.ino i = some n) :
    n.ino.toNat < inodeBound ∧ bit (diskMap d) n.ino.toNat = true ∧
      word d (tableAddress n.ino + offIno) = n.ino ∧
      word d (tableAddress n.ino + offMode) = n.mode := by
  rcases entry_cases sound located isDir inside live with
    ⟨q, m, there, mDir, number, nDir, _⟩ | ⟨_, there⟩
  · obtain ⟨e, above, _⟩ := locate_tail there
    have table := sound.table there above
    rw [number, nDir, ← mDir]
    exact ⟨sound.small there, sound.marked there, table.ino, table.mode⟩
  · obtain ⟨e, above, _⟩ := locate_tail there
    have table := sound.table there above
    exact ⟨sound.small there, sound.marked there, table.ino, table.mode⟩

theorem Intact.structured (intact : Intact s) : Structured s := by
  have sound := intact.sound
  constructor
  · intro f directory
    obtain ⟨p, g, located, isDir, rfl⟩ := directory.located sound
    obtain ⟨e, above, _⟩ := locate_tail located
    exact (sound.dots located isDir above).self
  · exact (sound.dots (p := []) (n := rootNode) rfl rfl rfl).parent
  · intro f i n directory slot inside live isDir
    obtain ⟨p, g, located, gDir, rfl⟩ := directory.located sound
    have there := locate_cons located gDir slot inside
    rw [live] at there
    exact (sound.dots there isDir located).parent
  · intro f i n directory inside live
    obtain ⟨p, g, located, gDir, rfl⟩ := directory.located sound
    obtain ⟨small, marked, _⟩ := entry_described sound located gDir inside live
    exact ⟨small, intact.bits small ▸ marked, marked⟩
  · intro f i n directory inside live
    obtain ⟨p, g, located, gDir, rfl⟩ := directory.located sound
    obtain ⟨_, _, number, mode⟩ := entry_described sound located gDir inside live
    refine ⟨number, mode, fun slot => ?_⟩
    have there := locate_cons located gDir slot inside
    rw [live] at there
    exact (sound.table there located).father
  · intro f i n f' i' n' directory directory' slot slot' inside inside' live live' same
    obtain ⟨p, g, located, gDir, rfl⟩ := directory.located sound
    obtain ⟨p', g', located', gDir', rfl⟩ := directory'.located sound
    have there := locate_cons located gDir slot inside
    have there' := locate_cons located' gDir' slot' inside'
    rw [live] at there
    rw [live'] at there'
    have paths := sound.apart there there' same
    cases paths
    rw [located] at located'
    cases located'
    exact ⟨rfl, rfl⟩
  · obtain ⟨p, g, located, gDir, number⟩ := intact.cwd
    rw [cwdIno, number]
    exact directory_of located gDir

/-- The states of a session: a file system is made on a card without one, and then come
commands, each of them allowed where it is issued. -/
def Session (allowed : FileSystem → Command → Prop) (s : FileSystem) : Prop :=
  ∃ boot locals start, word boot.disk superblockAddress ≠ fsMagic ∧
    run (doMakefs locals) boot = some ((), start) ∧
    Reachable (fun s c s' => perform c s = some s') allowed start s

/-- Commands that fit and stay in bounds. -/
def Sane (s : FileSystem) (c : Command) : Prop := Fits s c ∧ InBounds s c

theorem Session.formatted {allowed : FileSystem → Command → Prop} (session : Session allowed s) :
    ∃ start, Formatted start ∧ Reachable (fun s c s' => perform c s = some s') allowed start s := by
  obtain ⟨boot, locals, start, blank, made, reach⟩ := session
  obtain ⟨start', made', formatted, _⟩ := run_doMakefs_format locals blank
  rw [made'] at made
  cases made
  exact ⟨start, formatted, reach⟩

theorem step_effect (intact : Intact s) (sane : Sane s c) (step : perform c s = some s') :
    Effect s c s' ∧ Intact s' := by
  obtain ⟨t, result, effect⟩ := intact.step sane.1 sane.2
  rw [step] at result
  cases result
  exact ⟨effect, effect.intact sane.1 intact⟩

theorem Session.intact (session : Session Sane s) : Intact s := by
  obtain ⟨start, formatted, reach⟩ := session.formatted
  apply reach.invariant Intact formatted.intact
  intro s c s' intact sane step
  exact (step_effect intact sane step).2

/-- The directory that `rmdir` takes away holds nothing but its dots. -/
def Tidy (s : FileSystem) : Command → Prop
  | .rmdir (some name) _ => name ≠ dot → name ≠ dotDot →
    ∀ i n, i < dentrysPerBlock → dirEntry s.disk (cwdIno s) i = some n → n.mode = dir →
      n.name = name.val →
      (∀ j < i, ∀ m, dirEntry s.disk (cwdIno s) j = some m → m.mode = dir → m.name ≠ name.val) →
      ∀ k, 2 ≤ k → k < dentrysPerBlock → dirEntry s.disk n.ino k = none
  | _ => True

/-- The marks in the map are the numbers of the nodes reached from the root. -/
def Filled (s : FileSystem) : Prop := ∀ o < inodeBound, bit s.inodeMap o = true ↔
  ∃ p n, locate s.disk p = some n ∧ n.ino.toNat = o

theorem Formatted.filled (formatted : Formatted s) : Filled s := by
  intro o low
  rw [formatted.marks o low]
  constructor
  · intro zero
    have zero : o = 0 := by simpa using zero
    exact ⟨[], rootNode, rfl, zero.symm⟩
  · rintro ⟨p, n, located, rfl⟩
    rw [(formatted.locate located).2]
    decide

theorem Quiet.filled (quiet : Quiet s s') (filled : Filled s) : Filled s' := by
  rw [Filled, quiet.1, quiet.2.1]
  exact filled

theorem Created.filled (created : Created s cwd f i n s') (intact : Intact s)
    (filled : Filled s) : Filled s' := by
  intro o low
  have same : bit s'.inodeMap o = bit (diskMap s'.disk) o :=
    (bit_congr created.map low).symm
  rw [same, created.grafted.marks o low, created.located intact.sound]
  by_cases new : o = n.ino.toNat
  · rw [if_pos new]
    exact ⟨fun _ => ⟨i :: cwd, n, graft_self, new.symm⟩, fun _ => rfl⟩
  · rw [if_neg new, intact.bits low, filled o low]
    constructor
    · rintro ⟨p, m, located, number⟩
      refine ⟨p, m, ?_, number⟩
      rw [graft_other, located]
      rintro rfl
      rw [created.room.absent] at located
      cases located
    · rintro ⟨p, m, located, number⟩
      refine ⟨p, m, ?_, number⟩
      by_cases here : p = i :: cwd
      · subst here
        rw [graft_self] at located
        cases located
        exact absurd number.symm new
      · rwa [graft_other here] at located

/-- When nothing lies below it, only the node itself goes. -/
theorem Removed.filled (removed : Removed s cwd f i n s') (intact : Intact s)
    (alone : ∀ j, locate s.disk (j :: i :: cwd) = none) (filled : Filled s) : Filled s' := by
  have sound := intact.sound
  have here := removed.held.located
  intro o low
  have same : bit s'.inodeMap o = bit (diskMap s'.disk) o :=
    (bit_congr removed.map low).symm
  rw [same, removed.pruned.marks o low, removed.pruned.locate sound removed.held]
  by_cases gone : o = n.ino.toNat
  · rw [if_pos gone]
    constructor
    · intro marked
      cases marked
    · rintro ⟨p, m, located, number⟩
      by_cases below : i :: cwd <:+ p
      · rw [prune_below below] at located
        cases located
      · rw [prune_other below] at located
        have paths := sound.apart located here (BitVec.eq_of_toNat_eq (number.trans gone))
        subst paths
        exact absurd List.suffix_rfl below
  · rw [if_neg gone, intact.bits low, filled o low]
    constructor
    · rintro ⟨p, m, located, number⟩
      refine ⟨p, m, ?_, number⟩
      rw [prune_other, located]
      rintro ⟨above, rfl⟩
      cases reversed : above.reverse with
      | nil =>
        have nothing : above = [] := by simpa using reversed
        subst nothing
        rw [List.nil_append, here] at located
        cases located
        exact gone number.symm
      | cons j rest =>
        have split : above = rest.reverse ++ [j] := by
          rw [← List.reverse_reverse above, reversed, List.reverse_cons]
        have below : j :: i :: cwd <:+ above ++ i :: cwd := ⟨rest.reverse, by rw [split]; simp⟩
        rw [locate_closed.below (alone j) below] at located
        cases located
    · rintro ⟨p, m, located, number⟩
      refine ⟨p, m, ?_, number⟩
      by_cases below : i :: cwd <:+ p
      · rw [prune_below below] at located
        cases located
      · rwa [prune_other below] at located

theorem file_alone {j : Nat} (located : locate s.disk p = some n) (isFile : n.mode = file) :
    locate s.disk (j :: p) = none := by
  rw [locate, located, Option.bind_some, if_neg]
  rintro ⟨isDir, _⟩
  rw [isFile] at isDir
  exact absurd isDir (by decide)

/-- The entry that goes leaves nothing unreachable behind. -/
theorem Tidy.alone {name : CString} (tidy : Tidy s c) (drops : Drops c n.mode name)
    (removed : Removed s cwd f i n s') (same : n.name = name.val) (j : Nat) :
    locate s.disk (j :: i :: cwd) = none := by
  have held := removed.held
  generalize kind : n.mode = mode at drops
  cases drops with
  | rm => exact file_alone held.located kind
  | rmdir _ notDot notDotDot =>
    have here := held.here
    rw [← removed.shell] at here
    have first : ∀ j < i, ∀ m, dirEntry s.disk (cwdIno s) j = some m → m.mode = dir →
        m.name ≠ name.val := by
      intro j earlier m live mode
      rw [removed.shell] at live
      exact same ▸ removed.first j earlier m live (mode.trans kind.symm)
    have empty := tidy notDot notDotDot i n held.inside here kind same first
    rw [locate, held.located, Option.bind_some]
    split
    next inside => exact empty j inside.2.1 inside.2.2
    · rfl

theorem Effect.filled (effect : Effect s c s') (sane : Sane s c) (tidy : Tidy s c)
    (intact : Intact s) (filled : Filled s) : Filled s' := by
  cases effect.change sane.1 with
  | quiet quiet => exact quiet.filled filled
  | moved moved =>
    rw [Filled, moved.1, moved.2.1]
    exact filled
  | made _ created _ quiet => exact quiet.filled (created.filled intact filled)
  | taken drops removed same =>
    exact removed.filled intact (tidy.alone drops removed same) filled
  | wrote located isFile written map _ _ =>
    rw [Filled, map, written.locate intact.sound (intact.sound.noDirectory located isFile)]
    exact filled

theorem Filled.exact (filled : Filled s) (intact : Intact s) : Exact s := by
  have sound := intact.sound
  intro o low
  rw [filled o low]
  constructor
  · rintro ⟨p, n, located, number⟩
    cases p with
    | nil =>
      cases located
      have self := (sound.dots (p := []) (n := rootNode) rfl rfl rfl).self
      exact ⟨rootDirIno, 0, _, .root, by decide, self, number⟩
    | cons i p =>
      obtain ⟨f, above, isDir, _, inside, live⟩ := locate_parent located
      exact ⟨f.ino, i, n, directory_of above isDir, inside, live, number⟩
  · rintro ⟨f, i, n, directory, inside, live, number⟩
    obtain ⟨p, g, located, isDir, rfl⟩ := directory.located sound
    rcases entry_cases sound located isDir inside live with ⟨q, m, there, _, same, _⟩ | ⟨_, there⟩
    · exact ⟨q, m, there, same ▸ number⟩
    · exact ⟨i :: p, n, there, number⟩

/-- In every session the file system keeps its structure, and no command that fits is
undefined. While only empty directories are removed, the map marks exactly what is named. -/
theorem session_structured :
    (∀ s, Session Sane s → Structured s ∧ ∀ c, Sane s c → ∃ s', perform c s = some s') ∧
    ∀ s, Session (fun s c => Sane s c ∧ Tidy s c) s → Exact s := by
  constructor
  · intro s session
    have intact := session.intact
    refine ⟨intact.structured, fun c sane => ?_⟩
    obtain ⟨s', result, _⟩ := intact.step sane.1 sane.2
    exact ⟨s', result⟩
  · intro s session
    obtain ⟨start, formatted, reach⟩ := session.formatted
    have both : Intact s ∧ Filled s := by
      apply reach.invariant (fun s => Intact s ∧ Filled s) ⟨formatted.intact, formatted.filled⟩
      rintro s c s' ⟨intact, filled⟩ ⟨sane, tidy⟩ step
      obtain ⟨effect, intact'⟩ := step_effect intact sane step
      exact ⟨intact', effect.filled sane tidy intact filled⟩
    exact both.2.exact both.1

/-- All bytes zero. -/
def blankSystem : FileSystem where
  disk := fun _ => 0
  superblock := fun _ => 0
  inodeMap := fun _ => 0
  shellPathInode := fun _ => 0
  shellPathHead := fun _ => 0
  curDir := fun _ => 0
  fd := fun _ => ⟨0, 0⟩
  fdIndex := 0

def blankLocals : Locals := ⟨fun _ => 0, fun _ => 0, fun _ => 0, 0⟩

def nameA : CString := ⟨[0x61], by decide⟩

theorem blankSystem_blank : word blankSystem.disk superblockAddress ≠ fsMagic := by
  have zero : word blankSystem.disk superblockAddress = 0 := rfl
  rw [zero]
  decide

theorem Formatted.fits (formatted : Formatted s) {name : CString} (short : name.val.length ≤ 23) :
    CreationFits s name := by
  obtain ⟨cwd, f, located, _, shell⟩ := formatted.intact.cwd
  have root : f = rootNode := (formatted.locate located).2
  refine ⟨short, ⟨2, by decide, ?_⟩, 1, by decide, ?_⟩
  · rw [cwdIno, shell, root]
    exact formatted.root.free 2 (by decide) (by decide)
  · rw [formatted.marks 1 (by decide)]
    rfl

theorem session_mkdir : ∃ start s cwd f i n, Formatted start ∧ Created start cwd f i n s ∧
    n.mode = dir ∧ n.name = nameA.val ∧
    ∀ allowed, allowed start (.mkdir (some nameA) blankLocals) → Session allowed s := by
  obtain ⟨start, made, formatted, _⟩ := run_doMakefs_format blankLocals blankSystem_blank
  have fits : Fits start (.mkdir (some nameA) blankLocals) := formatted.fits (by decide)
  obtain ⟨s, step, cwd, f, i, n, created, isDir, same⟩ := formatted.intact.step fits trivial
  refine ⟨start, s, cwd, f, i, n, formatted, created, isDir, same, fun allowed ok => ?_⟩
  exact ⟨blankSystem, blankLocals, start, blankSystem_blank, made, .step .start ok step⟩

theorem session_structured_mkdir : ∃ s, Structured s ∧ Exact s ∧
    ∃ i n, dirEntry s.disk (cwdIno s) i = some n ∧ n.mode = dir := by
  obtain ⟨start, s, cwd, f, i, n, formatted, created, isDir, _, session⟩ := session_mkdir
  have sane : Sane start (.mkdir (some nameA) blankLocals) :=
    ⟨formatted.fits (by decide), trivial⟩
  refine ⟨s, (session_structured.1 s (session Sane sane)).1,
    session_structured.2 s (session _ ⟨sane, trivial⟩), i, n, created.listed, isDir⟩

/-- The entry `.` of a directory names an inode whose father is another directory. -/
theorem dot_father : ¬∀ s, Session Sane s → ∀ f i n, Directory s.disk f → i < dentrysPerBlock →
    dirEntry s.disk f i = some n → word s.disk (tableAddress n.ino + offFatherIno) = f := by
  intro fathers
  obtain ⟨start, s, cwd, f, i, n, formatted, created, isDir, _, session⟩ := session_mkdir
  have sound := formatted.intact.sound
  have sane : Sane start (.mkdir (some nameA) blankLocals) :=
    ⟨formatted.fits (by decide), trivial⟩
  have here : locate s.disk (i :: cwd) = some n := by
    rw [created.located sound, graft_self]
  have directory : Directory s.disk n.ino := directory_of here isDir
  have self := (created.grafted.inside isDir).dots.self
  have father := fathers s (session Sane sane) n.ino 0 _ directory (by decide) self
  have other := created.room.other sound created.room.cwd
  exact other (created.grafted.table.father.symm.trans father)

end Tina.Files
