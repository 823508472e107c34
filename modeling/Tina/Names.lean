import Tina.Structure

/-! Names in a directory. Only `sys_fopen` looks for one before it makes another. -/
namespace Tina.Files

open ByteBuffer Atomic SlotTree Transition

variable {s s' t : FileSystem} {d d' : Buffer} {mode : Word} {name : CString} {i j : Nat}
  {p q cwd : List Nat} {n m f : Node} {locals : Locals} {c : Command}

/-- No directory holds two live dentries of one name and mode. -/
def UniqueNames (s : FileSystem) : Prop := ∀ f i j n m, Directory s.disk f →
  i < dentrysPerBlock → j < dentrysPerBlock → dirEntry s.disk f i = some n →
  dirEntry s.disk f j = some m → n.name = m.name → n.mode = m.mode → i = j

def Novel (s : FileSystem) (mode : Word) (name : CString) : Prop :=
  ∀ i < dentrysPerBlock, ∀ n, dirEntry s.disk (cwdIno s) i = some n → n.mode = mode →
    n.name ≠ name.val

/-- The commands that do not look make new names only. -/
def New (s : FileSystem) : Command → Prop
  | .mkdir (some name) _ => Novel s dir name
  | .touch (some name) _ => Novel s file name
  | _ => True

/-- What lookups and removals rely on. -/
structure Unambiguous (s : FileSystem) : Prop where
  unique : UniqueNames s
  found : ∀ f i n (name : CString) stack bound, Directory s.disk f → i < dentrysPerBlock →
    dirEntry s.disk f i = some n → n.name = name.val → dentrysPerBlock ≤ bound →
    scan bound (matchesEntry (copy stack 0 s.disk (blockAddress f) blockSize) n.mode name) = i
  followed : ∀ f i n (name : CString) stack, Directory s.disk f → i < dentrysPerBlock →
    dirEntry s.disk f i = some n → n.name = name.val → n.mode = dir →
    scan dentrysPerBlock (leadsTo (copy stack 0 s.disk (blockAddress f) blockSize) name.val) = i
  removed : ∀ name locals s', perform (.rm (some name) locals) s = some s' → Novel s' file name
  emptied : ∀ name locals s', name ≠ dot → name ≠ dotDot →
    perform (.rmdir (some name) locals) s = some s' → Novel s' dir name

/-- The names in the tree: children differ, and no directory has the name of a dot. -/
structure Told (d : Buffer) : Prop where
  distinct : Distinct (fun n : Node => (n.mode, n.name)) (locate d)
  plain : ∀ i p n, locate d (i :: p) = some n → n.mode = dir →
    n.name ≠ dot.val ∧ n.name ≠ dotDot.val

/-- The dots are told from the other entries by their names. -/
theorem Told.slots (told : Told d) (sound : Sound d) (located : locate d p = some f)
    (isDir : f.mode = dir) (inside : i < dentrysPerBlock) (live : dirEntry d f.ino i = some n) :
    (i = 0 ↔ n.mode = dir ∧ n.name = dot.val) ∧ (i = 1 ↔ n.mode = dir ∧ n.name = dotDot.val) := by
  obtain ⟨g, above, _⟩ := locate_tail located
  have dots := sound.dots located isDir above
  have apart : dot.val ≠ dotDot.val := by decide
  by_cases first : i = 0
  · subst first
    cases dots.self.symm.trans live
    simp [apart]
  · by_cases second : i = 1
    · subst second
      cases dots.parent.symm.trans live
      simp [apart.symm]
    · have here := locate_cons located isDir (by omega : 2 ≤ i) inside
      have plain := told.plain i p n (here.trans live)
      constructor
      · exact ⟨fun same => absurd same first, fun same => absurd same.2 (plain same.1).1⟩
      · exact ⟨fun same => absurd same second, fun same => absurd same.2 (plain same.1).2⟩

theorem Told.unique (told : Told s.disk) (sound : Sound s.disk) : UniqueNames s := by
  intro f i j n m directory insideI insideJ liveI liveJ name mode
  obtain ⟨p, g, located, isDir, rfl⟩ := directory.located sound
  obtain ⟨selfI, parentI⟩ := told.slots sound located isDir insideI liveI
  obtain ⟨selfJ, parentJ⟩ := told.slots sound located isDir insideJ liveJ
  rw [name, mode] at selfI parentI
  have selfs : i = 0 ↔ j = 0 := selfI.trans selfJ.symm
  have parents : i = 1 ↔ j = 1 := parentI.trans parentJ.symm
  by_cases low : i < 2
  · omega
  · apply told.distinct p i j n m
    · rw [locate_cons located isDir (by omega) insideI, liveI]
    · rw [locate_cons located isDir (by omega) insideJ, liveJ]
    · exact Prod.ext mode name

theorem Formatted.told (formatted : Formatted s) : Told s.disk where
  distinct := by
    intro p i j n m here _ _
    cases (formatted.locate here).1
  plain := by
    intro i p n here _
    cases (formatted.locate here).1

theorem Created.told (created : Created s cwd f i n s') (sound : Sound s.disk)
    (told : Told s.disk) (novel : Novel s n.mode name) (same : n.name = name.val) :
    Told s'.disk := by
  have room := created.room
  have shell := created.shell
  constructor
  · rw [created.located sound]
    apply told.distinct.graft
    intro j m here alike
    obtain ⟨g, above, _, _, inside, live⟩ := locate_parent here
    cases room.cwd.symm.trans above
    rw [← shell] at live
    obtain ⟨mode, text⟩ := Prod.mk.inj alike
    exact novel j inside m live mode (text.trans same)
  · intro j q m here isDir
    rcases created.grafted.located sound room here with ⟨_, rfl⟩ | ⟨_, old⟩
    · -- the current directory has its dots already
      obtain ⟨g, above, _⟩ := locate_tail room.cwd
      have dots := sound.dots room.cwd room.isDir above
      rw [← shell] at dots
      have first := novel 0 (by decide) _ dots.self isDir.symm
      have second := novel 1 (by decide) _ dots.parent isDir.symm
      rw [same]
      exact ⟨first.symm, second.symm⟩
    · exact told.plain j q m old isDir

theorem Removed.told (removed : Removed s cwd f i n s') (sound : Sound s.disk)
    (told : Told s.disk) : Told s'.disk := by
  constructor
  · rw [removed.pruned.locate sound removed.held]
    exact told.distinct.prune
  · intro j q m here isDir
    have old := (removed.pruned.located sound removed.held here).2
    exact told.plain j q m old isDir

theorem Quiet.told (quiet : Quiet s s') (told : Told s.disk) : Told s'.disk := by
  rw [quiet.1]
  exact told

theorem New.novel (new : New s c) (intact : Intact s) (makes : Makes s c mode name) :
    Novel s mode name := by
  cases makes with
  | mkdir => exact new
  | touch => exact new
  | fopen _ missed => exact intact.missed missed

theorem Effect.told (effect : Effect s c s') (sane : Sane s c) (new : New s c)
    (intact : Intact s) (told : Told s.disk) : Told s'.disk := by
  have sound := intact.sound
  cases effect.change sane.1 with
  | quiet quiet => exact quiet.told told
  | moved moved =>
    rw [moved.1]
    exact told
  | made makes created same quiet =>
    exact quiet.told (created.told sound told (new.novel intact makes) same)
  | taken _ removed _ => exact removed.told sound told
  | wrote located isFile written _ _ _ =>
    have tree := written.locate sound (sound.noDirectory located isFile)
    constructor
    · rw [tree]
      exact told.distinct
    · rw [tree]
      exact told.plain

theorem Session.told (session : Session (fun s c => Sane s c ∧ New s c) s) :
    Intact s ∧ Told s.disk := by
  obtain ⟨start, formatted, reach⟩ := session.formatted
  apply reach.invariant (fun s => Intact s ∧ Told s.disk) ⟨formatted.intact, formatted.told⟩
  rintro s c s' ⟨intact, told⟩ ⟨sane, new⟩ step
  obtain ⟨effect, intact'⟩ := step_effect intact sane step
  exact ⟨intact', effect.told sane new intact told⟩

/-- After a removal the first entry of that name is gone, and there was no second one. -/
theorem Effect.takes_novel (takes : Effect.Takes s mode name s') (intact : Intact s)
    (unique : UniqueNames s) : Novel s' mode name := by
  rcases takes with ⟨cwd, f, i, n, removed, kind, same⟩ | ⟨rfl, none⟩
  · intro j inside m live mode text
    have held := removed.held
    rw [removed.stays] at live
    by_cases here : j = i
    · subst here
      rw [removed.pruned.here] at live
      cases live
    · have old := removed.pruned.old_entry intact.sound held held.cwd inside fun _ => here
      rw [old.dirEntry] at live
      have directory := directory_of held.cwd held.isDir
      exact here (unique f.ino j i m n directory inside held.inside live held.here
        (text.trans same.symm) (mode.trans kind.symm))
  · exact none

theorem Told.unambiguous (told : Told s.disk) (intact : Intact s) : Unambiguous s := by
  have sound := intact.sound
  have unique := told.unique sound
  constructor
  · exact unique
  · intro f i n name stack bound directory inside live same wide
    obtain ⟨p, g, located, isDir, rfl⟩ := directory.located sound
    have reads : ∀ j < dentrysPerBlock, _ := fun j low =>
      @matchesEntry_read s g.ino n.mode name j stack
        (fun m there => sound.named located isDir low there) low
    have here := (reads i inside).mpr ⟨n, live, rfl, same⟩
    apply scan_only (Nat.lt_of_lt_of_le inside wide) here
    intro j earlier found
    have low := Nat.lt_trans earlier inside
    obtain ⟨m, there, mode, text⟩ := (reads j low).mp found
    exact unique g.ino j i m n directory low inside there live (text.trans same.symm) mode
  · intro f i n name stack directory inside live same isDir
    obtain ⟨p, g, located, gDir, rfl⟩ := directory.located sound
    have reads : ∀ j < dentrysPerBlock, _ := fun j low =>
      leadsTo_read stack sound located gDir low name.property
    have notFile : n.mode ≠ file := by
      rw [isDir]
      decide
    apply scan_only inside ((reads i inside).mpr ⟨n, live, notFile, same⟩)
    intro j earlier found
    have low := Nat.lt_trans earlier inside
    obtain ⟨m, there, other, text⟩ := (reads j low).mp found
    have kind : m.mode = dir := by
      rcases entry_cases sound located gDir low there with ⟨_, _, _, _, _, kind, _⟩ | ⟨_, here⟩
      · exact kind
      · exact (sound.kind here).resolve_left other
    exact unique g.ino j i m n directory low inside there live (text.trans same.symm)
      (kind.trans isDir.symm)
  · intro name locals s' step
    have sane : Sane s (.rm (some name) locals) := ⟨trivial, trivial⟩
    have effect := (step_effect intact sane step).1
    exact Effect.takes_novel effect intact unique
  · intro name locals s' notDot notDotDot step
    have sane : Sane s (.rmdir (some name) locals) := ⟨trivial, trivial⟩
    have effect := (step_effect intact sane step).1
    rw [Effect, if_neg (not_or.mpr ⟨notDot, notDotDot⟩)] at effect
    exact Effect.takes_novel effect intact unique

/-- A name that the directory has already is in it twice. -/
theorem Created.twice (created : Created s cwd f i n s') (intact : Intact s)
    (same : n.name = name.val) (unique : UniqueNames s') : Novel s n.mode name := by
  intro j inside m live mode text
  have room := created.room
  rw [created.shell] at live
  have other : j ≠ i := by
    rintro rfl
    rw [room.free] at live
    cases live
  have old := created.grafted.old_entry intact.sound room room.cwd inside fun _ => other
  have directory : Directory s'.disk f.ino := by
    apply directory_of _ room.isDir
    · exact cwd
    · rw [created.located intact.sound, graft_other (by simp), room.cwd]
  apply other
  apply unique f.ino j i m n directory inside room.inside _ created.grafted.here
    (text.trans same.symm) mode
  rw [old.dirEntry, live]

theorem Effect.new (effect : Effect s c s') (intact : Intact s) (unique : UniqueNames s') :
    New s c := by
  cases c with
  | mkdir name locals =>
    cases name with
    | none => trivial
    | some name =>
      obtain ⟨cwd, f, i, n, created, isDir, same⟩ := effect
      have novel := created.twice intact same unique
      rw [isDir] at novel
      exact novel
  | touch name locals =>
    cases name with
    | none => trivial
    | some name =>
      obtain ⟨cwd, f, i, n, created, isFile, same⟩ := effect
      have novel := created.twice intact same unique
      rw [isFile] at novel
      exact novel
  | _ => trivial

/-- While `mkdir` and `touch` make new names only, every name has one entry in its
directory, lookups reach every entry, and a removed name is gone. One name made twice ends
that. -/
theorem names_unique (session : Session (fun s c => Sane s c ∧ New s c) s) :
    Unambiguous s ∧ ∀ c s', Sane s c → perform c s = some s' → (UniqueNames s' ↔ New s c) := by
  obtain ⟨intact, told⟩ := session.told
  constructor
  · exact told.unambiguous intact
  · intro c s' sane step
    obtain ⟨effect, intact'⟩ := step_effect intact sane step
    constructor
    · exact effect.new intact
    · intro new
      exact (effect.told sane new intact told).unique intact'.sound

theorem Formatted.novel (formatted : Formatted s) (notDot : name ≠ dot)
    (notDotDot : name ≠ dotDot) : Novel s mode name := by
  intro i inside n live _ same
  obtain ⟨cwd, f, located, _, shell⟩ := formatted.intact.cwd
  obtain ⟨_, rfl⟩ : cwd = [] ∧ f = rootNode := formatted.locate located
  rw [cwdIno, shell] at live
  have root := formatted.root
  by_cases low : i < 2
  · rcases (by omega : i = 0 ∨ i = 1) with rfl | rfl
    · cases root.dots.self.symm.trans live
      exact notDot (Subtype.ext same.symm)
    · cases root.dots.parent.symm.trans live
      exact notDotDot (Subtype.ext same.symm)
  · rw [rootNode, root.free i (by omega) inside] at live
    cases live

theorem names_unique_mkdir : ∃ s s', Unambiguous s ∧ UniqueNames s' ∧
    perform (.mkdir (some nameA) blankLocals) s = some s' ∧
    ∃ i n, dirEntry s'.disk (cwdIno s') i = some n ∧ n.name = nameA.val := by
  obtain ⟨start, made, formatted, _⟩ := run_doMakefs_format blankLocals blankSystem_blank
  have sane : Sane start (.mkdir (some nameA) blankLocals) :=
    ⟨formatted.fits (by decide), trivial⟩
  have new : New start (.mkdir (some nameA) blankLocals) :=
    formatted.novel (by decide) (by decide)
  have session : Session (fun s c => Sane s c ∧ New s c) start :=
    ⟨blankSystem, blankLocals, start, blankSystem_blank, made, .start⟩
  obtain ⟨s, step, cwd, f, i, n, created, _, same⟩ := formatted.intact.step sane.1 sane.2
  obtain ⟨unambiguous, steps⟩ := names_unique session
  exact ⟨start, s, unambiguous, (steps _ s sane step).mpr new, step, i, n, created.listed, same⟩

theorem Created.fits_again (created : Created s cwd f i n s') (formatted : Formatted s)
    (short : name.val.length ≤ 23) : CreationFits s' name := by
  have room := created.room
  have root : cwd = [] ∧ f = rootNode := formatted.locate room.cwd
  obtain ⟨rfl, rfl⟩ := root
  refine ⟨short, ?_, ?_⟩
  · obtain ⟨j, other, slot, inside⟩ : ∃ j, j ≠ i ∧ 2 ≤ j ∧ j < dentrysPerBlock := by
      by_cases second : i = 2
      · exact ⟨3, by omega, by decide, by decide⟩
      · exact ⟨2, by omega, by decide, by decide⟩
    have old := created.grafted.old_entry formatted.intact.sound room room.cwd inside
      fun _ => other
    refine ⟨j, inside, ?_⟩
    rw [created.stays, old.dirEntry]
    exact formatted.root.free j slot inside
  · obtain ⟨o, other, high, low⟩ : ∃ o, o ≠ n.ino.toNat ∧ o ≠ 0 ∧ o < inodeBound := by
      by_cases first : n.ino.toNat = 1
      · exact ⟨2, by omega, by decide, by decide⟩
      · exact ⟨1, by omega, by decide, by decide⟩
    refine ⟨o, low, ?_⟩
    have marks := formatted.marks o low
    rw [← bit_congr created.map low]
    change bit (diskMap s'.disk) o = false
    rw [created.grafted.marks o low, if_neg other, formatted.intact.bits low, marks]
    exact decide_eq_false high

/-- `touch a` twice makes two files of one name. -/
theorem touched_twice : ¬∀ s, Session Sane s → UniqueNames s := by
  intro names
  obtain ⟨start, made, formatted, _⟩ := run_doMakefs_format blankLocals blankSystem_blank
  have first : Sane start (.touch (some nameA) blankLocals) :=
    ⟨formatted.fits (by decide), trivial⟩
  obtain ⟨s, step, cwd, f, i, n, created, isFile, same⟩ :=
    formatted.intact.step first.1 first.2
  have second : Sane s (.touch (some nameA) blankLocals) :=
    ⟨created.fits_again formatted (by decide), trivial⟩
  have intact := created.intact formatted.intact
  obtain ⟨s', step', effect⟩ := intact.step second.1 second.2
  have session : Session Sane s' := ⟨blankSystem, blankLocals, start, blankSystem_blank, made,
    .step (.step .start first step) second step'⟩
  have new := effect.new intact (names s' session)
  exact new i created.room.inside n created.listed isFile same

end Tina.Files
