import Tina.Unmounted

/-! Creations without room. The allocator's `-2` is used as a number, and the index at which
the search for a free dentry ends as a slot. -/
namespace Tina.Files

open ByteBuffer Atomic SlotTree Transition

variable {s s' : FileSystem} {i k o bound : Nat} {mode ino : Word} {name : CString}
  {locals : Locals} {c : Command}

/-- No dentry of the current directory is free. -/
def NoSlot (s : FileSystem) : Prop := ∀ i < dentrysPerBlock, dirEntry s.disk (cwdIno s) i ≠ none

def NoInode (s : FileSystem) : Prop := ∀ o < inodeBound, bit s.inodeMap o = true

def Creates (s : FileSystem) (name : CString) : Command → Prop
  | .mkdir own _ => own = some name
  | .touch own _ => own = some name
  | .fopen own stack _ => own = name ∧
    ∀ i < dentrysPerBlock, matchesEntry (cwdBlock s stack) file name i = false
  | _ => False

/-- A loop that scans looks at all slots up to the one where it stops. -/
def Looks (bound : Nat) (found : Nat → Bool) (j : Nat) : Prop := j < bound ∧ j ≤ scan bound found

/-- The slots that a creation looks at, and the one it stores to. -/
def createAccesses (s : FileSystem) (bound : Nat) (locals : Locals) (j : Nat) : Prop :=
  Looks bound (fun i => dentryIno (cwdBlock s locals.db) i = noIno) j ∨
    j = freeSlot (cwdBlock s locals.db) bound

def Accesses (s : FileSystem) : Command → Nat → Prop
  | .mkdir (some _) locals, j => createAccesses s dentrysPerBlock locals j
  | .touch (some _) locals, j => createAccesses s 0x200 locals j
  | .fopen name stack locals, j => Looks 0x200 (matchesEntry (cwdBlock s stack) file name) j ∨
    ¬opens s name stack ∧ createAccesses s 0x200 locals j
  | _, _ => False

/-- The command changes neither the map nor the card, and stays in the directory block. -/
structure Clean (s : FileSystem) (c : Command) : Prop where
  unchanged : ∃ s', perform c s = some s' ∧ s'.inodeMap = s.inodeMap ∧
    Same s.disk s'.disk (blockAddress (cwdIno s)) blockSize ∧
    ∀ k, Beyond superblockAddress blockSize k → s'.disk k = s.disk k
  inside : ∀ j, Accesses s c j → j < dentrysPerBlock

theorem bitmapSearch_full (full : NoInode s) : bitmapSearch s.inodeMap 0 inodeBound = -2 := by
  rcases @bitmapSearch_spec s.inodeMap 0 inodeBound (.inl rfl) (by decide) with
    ⟨search, _⟩ | ⟨o, low, _, clear, _⟩
  · exact search
  · rw [full o low] at clear
    cases clear

/-- The number that a creation takes when there is none. -/
def lostIno : Word := BitVec.ofInt 32 (-2)

theorem run_inodeAlloc_full (full : NoInode s) : run inodeAlloc s =
    some (lostIno, mapWritten 8 { s with inodeMap := bitmapModify s.inodeMap 1 (-2) }) := by
  have inside : 0 ≤ (-2 : Int).tdiv 32 ∧ (-2 : Int).tdiv 32 < 0x400 := by decide
  rw [inodeAlloc, run_then run_read, bitmapSearch_full full, modifyInodeMap, if_pos inside,
    run_then run_change, run_then run_inodeMapWrite, run_pure, lostIno]
  rfl

/-- The block goes to a sector in front of the file system, and no inode is written. -/
theorem run_inodeCreate_lost (short : name.val.length < 32) :
    run (inodeCreate lostIno mode name ino locals) s = some ((), { s with
      disk := copy s.disk (blockAddress lostIno) (newBlock mode lostIno ino locals.block) 0
        blockSize }) := by
  have bad : checkIno lostIno := by decide
  rw [inodeCreate_eq short, run_then run_fileBlockWrite, inodeWrite, if_pos bad, run_pure]

theorem slot_free (stack : Buffer) (inside : i < dentrysPerBlock) :
    dentryIno (cwdBlock s stack) i = noIno ↔ dirEntry s.disk (cwdIno s) i = none := by
  rw [← entry_none, cwdBlock, entry_read _ inside, cwdIno]

theorem dirEntry_stored {d db : Buffer} {father : Word} (live : ino ≠ noIno)
    (short : name.val.length < 24) (inside : i < dentrysPerBlock) :
    dirEntry (copy d (blockAddress father) (setDentry i ino mode name db) 0 blockSize) father i =
      some ⟨ino, mode, name.val⟩ := by
  rw [dirEntry_of_block (fun k low => by rw [copy_inside low, Nat.zero_add]) inside]
  exact setDentry_entry short live

theorem run_store {db : Buffer} (live : ino ≠ noIno) (short : name.val.length < 24)
    (inside : i < dentrysPerBlock) : ∃ s',
      run (do dirBlockWrite (setDentry i ino mode name db) (← shellPathIno)) s = some ((), s') ∧
      dirEntry s'.disk (cwdIno s) i = some ⟨ino, mode, name.val⟩ := by
  refine ⟨{ s with
    disk := copy s.disk (blockAddress (cwdIno s)) (setDentry i ino mode name db) 0 blockSize }, ?_,
    by simp only [dirEntry_stored live short inside]⟩
  rw [run_then run_shellPathIno, run_dirBlockWrite, cwdIno]

/-- Without an inode the entry is written all the same. -/
theorem run_createEntry_full (full : NoInode s) (short : name.val.length ≤ 23)
    (slot : freeSlot (cwdBlock s locals.db) bound = i) (inside : i < dentrysPerBlock) :
    ∃ s', run (createEntry bound mode name locals) s = some ((), s') ∧
      dirEntry s'.disk (cwdIno s) i = some ⟨lostIno, mode, name.val⟩ := by
  have fits : i < dentrysPerBlock ∧ dentryName i + name.val.length < blockSize := by
    simp only [dentryName, dentrySize, offDentryName, blockSize, dentrysPerBlock] at *
    omega
  have live : lostIno ≠ noIno := by decide
  rw [cwdBlock] at slot
  rw [createEntry, run_then run_shellPathIno, run_then run_dirBlockRead, slot,
    run_then (run_inodeAlloc_full full), run_then run_shellPathIno,
    run_then (run_inodeCreate_lost (by omega)), if_pos fits]
  exact run_store live (by omega) inside

/-- A full directory sends a creation beyond the block. -/
theorem NoSlot.outside (full : NoSlot s) (wide : dentrysPerBlock ≤ bound) :
    createAccesses s bound locals dentrysPerBlock := by
  have none : ∀ i < dentrysPerBlock,
      decide (dentryIno (cwdBlock s locals.db) i = noIno) = false := by
    intro i inside
    rw [decide_eq_false_iff_not, slot_free _ inside]
    exact full i inside
  have beyond : dentrysPerBlock ≤ freeSlot (cwdBlock s locals.db) bound := by
    apply Nat.le_of_not_lt
    intro stops
    obtain ⟨here, _⟩ := scan_stops (Nat.lt_of_lt_of_le stops wide)
    exact Bool.false_ne_true ((none _ stops).symm.trans here)
  rcases Nat.lt_or_eq_of_le wide with longer | same
  · exact .inl ⟨longer, beyond⟩
  · subst same
    exact .inr (Nat.le_antisymm beyond scan_le)

/-- A full map puts a bogus entry into the directory. -/
theorem NoInode.changes (full : NoInode s) (short : name.val.length ≤ 23)
    (room : ¬NoSlot s) (wide : dentrysPerBlock ≤ bound) :
    ∃ s' i, run (createEntry bound mode name locals) s = some ((), s') ∧
      i < dentrysPerBlock ∧ dirEntry s'.disk (cwdIno s) i ≠ dirEntry s.disk (cwdIno s) i := by
  obtain ⟨j, inside, empty⟩ : ∃ j < dentrysPerBlock, dirEntry s.disk (cwdIno s) j = none := by
    by_contra none
    exact room fun j inside empty => none ⟨j, inside, empty⟩
  have free := decide_eq_true ((slot_free locals.db inside).mpr empty)
  have stops : freeSlot (cwdBlock s locals.db) dentrysPerBlock < dentrysPerBlock :=
    scan_lt inside free
  have slot : freeSlot (cwdBlock s locals.db) bound =
      freeSlot (cwdBlock s locals.db) dentrysPerBlock := scan_longer stops wide
  obtain ⟨s', result, here⟩ := @run_createEntry_full s _ bound mode name locals full short slot stops
  have before := (slot_free locals.db stops).mp (of_decide_eq_true (scan_stops stops).1)
  refine ⟨s', _, result, stops, ?_⟩
  rw [here, before]
  exact Option.some_ne_none _

theorem Clean.creation (clean : Clean s c) (short : name.val.length ≤ 23)
    (result : ∀ s', run (createEntry bound mode name locals) s = some ((), s') →
      perform c s = some s')
    (accesses : ∀ j, createAccesses s bound locals j → Accesses s c j)
    (wide : dentrysPerBlock ≤ bound) : ¬(NoSlot s ∨ NoInode s) := by
  intro exhausted
  by_cases noSlot : NoSlot s
  · exact Nat.lt_irrefl _ (clean.inside _ (accesses _ (noSlot.outside wide)))
  · have full := exhausted.resolve_left noSlot
    obtain ⟨s', i, runs, inside, differs⟩ :=
      @NoInode.changes s bound mode name locals full short noSlot wide
    obtain ⟨t, performs, _, same, _⟩ := clean.unchanged
    rw [result s' runs] at performs
    obtain rfl := Option.some.inj performs
    refine differs (Same.dirEntry fun k low => ?_)
    rw [Nat.add_assoc]
    apply same
    simp only [dentrySize, blockSize, dentrysPerBlock] at *
    omega

/-- Without room no creation is clean. -/
theorem creation_never_clean (exhausted : NoSlot s ∨ NoInode s) (short : name.val.length ≤ 23)
    (creates : Creates s name c) : ¬Clean s c := by
  intro clean
  cases c with
  | mkdir own locals =>
    obtain rfl := creates
    have result : ∀ s', run (createEntry dentrysPerBlock dir name locals) s = some ((), s') →
        perform (.mkdir (some name) locals) s = some s' := fun s' runs => perform_of runs
    exact clean.creation short result (fun j accesses => accesses) (Nat.le_refl _) exhausted
  | touch own locals =>
    obtain rfl := creates
    have result : ∀ s', run (createEntry 0x200 file name locals) s = some ((), s') →
        perform (.touch (some name) locals) s = some s' := fun s' runs => perform_of runs
    exact clean.creation short result (fun j accesses => accesses)
      (by decide : dentrysPerBlock ≤ 0x200) exhausted
  | fopen own stack locals =>
    obtain ⟨rfl, none⟩ := creates
    -- The first loop leaves the block before it gives up, whether there is room or not.
    refine Nat.lt_irrefl _ (clean.inside dentrysPerBlock (.inl ⟨by decide, ?_⟩))
    apply Nat.le_of_not_lt
    intro stops
    obtain ⟨here, _⟩ := scan_stops (Nat.lt_trans stops (by decide : dentrysPerBlock < 0x200))
    rw [none _ stops] at here
    cases here
  | _ => exact creates

/-- A root directory with `k` entries of its own, made one after the other. -/
structure Crowded (k : Nat) (s : FileSystem) : Prop where
  session : Session Sane s
  cwd : cwdIno s = rootDirIno
  taken : ∀ i < 2 + k, dirEntry s.disk rootDirIno i ≠ none
  free : ∀ i, 2 + k ≤ i → i < dentrysPerBlock → dirEntry s.disk rootDirIno i = none
  clear : ∀ o, k < o → o < inodeBound → bit s.inodeMap o = false

theorem crowded_zero : ∃ s, Crowded 0 s := by
  obtain ⟨start, made, formatted, _⟩ := run_doMakefs_format blankLocals blankSystem_blank
  obtain ⟨cwd, f, located, _, shell⟩ := formatted.intact.cwd
  have root : f = rootNode := (formatted.locate located).2
  refine ⟨start, ⟨blankSystem, blankLocals, start, blankSystem_blank, made, .start⟩, ?_, ?_, ?_, ?_⟩
  · rw [cwdIno, shell, root]
    rfl
  · intro i low
    have slots : i = 0 ∨ i = 1 := by omega
    rcases slots with rfl | rfl
    · rw [formatted.root.dots.self]
      exact Option.some_ne_none _
    · rw [formatted.root.dots.parent]
      exact Option.some_ne_none _
  · exact formatted.root.free
  · intro o positive small
    rw [formatted.marks o small]
    exact decide_eq_false (Nat.ne_of_gt positive)

theorem Session.next {t : FileSystem} (session : Session Sane s) (sane : Sane s c)
    (step : perform c s = some t) : Session Sane t := by
  obtain ⟨boot, locals, start, blank, made, reach⟩ := session
  exact ⟨boot, locals, start, blank, made, reach.step sane step⟩

theorem Crowded.succ (crowded : Crowded k s) (room : 2 + k < dentrysPerBlock) :
    ∃ s', Crowded (k + 1) s' := by
  have intact := crowded.session.intact
  have small : k + 1 < inodeBound := Nat.lt_trans (by omega) (by decide : dentrysPerBlock < inodeBound)
  have fits : CreationFits s nameA := by
    refine ⟨by decide, ⟨2 + k, room, ?_⟩, k + 1, small, crowded.clear _ (by omega) small⟩
    rw [crowded.cwd]
    exact crowded.free _ (Nat.le_refl _) room
  have sane : Sane s (.mkdir (some nameA) blankLocals) := ⟨fits, trivial⟩
  obtain ⟨s', step, cwd, f, i, n, created, _⟩ := intact.step sane.1 sane.2
  have root : f.ino = rootDirIno := created.shell.symm.trans crowded.cwd
  have shell : cwdIno s' = cwdIno s := by
    rw [created.rest]
    rfl
  have slot : i = 2 + k := by
    have free := created.room.free
    rw [root] at free
    have first := created.first (2 + k)
    rw [root] at first
    have low : ¬i < 2 + k := fun taken => crowded.taken i taken free
    have high : ¬2 + k < i := fun later =>
      first later (crowded.free _ (Nat.le_refl _) room)
    omega
  have number : n.ino.toNat ≤ k + 1 := by
    apply Nat.le_of_not_lt
    intro later
    have set := created.least _ later
    rw [crowded.clear _ (by omega) small] at set
    cases set
  have keeps : ∀ j < dentrysPerBlock, j ≠ i →
      dirEntry s'.disk rootDirIno j = dirEntry s.disk rootDirIno j := by
    intro j inside other
    rw [← root]
    exact (created.grafted.old_entry intact.sound created.room created.room.cwd inside
      fun _ => other).dirEntry
  refine ⟨s', crowded.session.next sane step, shell.trans crowded.cwd, ?_, ?_, ?_⟩
  · intro j low
    by_cases here : j = i
    · rw [here, ← root, created.grafted.here]
      exact Option.some_ne_none n
    · rw [keeps j (by omega) here]
      exact crowded.taken j (by omega)
  · intro j high inside
    rw [keeps j inside (by omega)]
    exact crowded.free j (by omega) inside
  · intro o later low
    have other : o ≠ n.ino.toNat := by omega
    rw [← (created.intact intact).bits low, created.grafted.marks o low, if_neg other,
      intact.bits low]
    exact crowded.clear o (by omega) low

theorem crowded_all (k : Nat) (low : k ≤ 14) : ∃ s, Crowded k s := by
  induction k with
  | zero => exact crowded_zero
  | succ k ih =>
    obtain ⟨s, crowded⟩ := ih (by omega)
    exact crowded.succ (by simp only [dentrysPerBlock]; omega)

theorem session_full : ∃ s, Session Sane s ∧ NoSlot s := by
  obtain ⟨s, crowded⟩ := crowded_all 14 (Nat.le_refl _)
  refine ⟨s, crowded.session, fun i inside => ?_⟩
  rw [crowded.cwd]
  exact crowded.taken i inside

theorem creation_never_clean_full : ∃ s, Session Sane s ∧ NoSlot s ∧
    ¬Clean s (.mkdir (some nameB) blankLocals) := by
  obtain ⟨s, session, full⟩ := session_full
  have short : nameB.val.length ≤ 23 := by decide
  exact ⟨s, session, full, creation_never_clean (.inl full) short rfl⟩

/-- The fifteenth directory in the root is stored beyond the block. -/
theorem creation_beyond_block : ¬∀ s, Session Sane s → ∀ name c, name.val.length ≤ 23 →
    NoSlot s ∨ NoInode s → Creates s name c → Clean s c := by
  intro clean
  obtain ⟨s, session, full⟩ := session_full
  have kept := clean s session nameB (.mkdir (some nameB) blankLocals) (by decide) (.inl full) rfl
  exact Nat.lt_irrefl _ (kept.inside _ (full.outside (Nat.le_refl _)))

end Tina.Files
