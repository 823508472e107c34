import Tina.Reboot

/-! The descriptors that `sys_fopen` hands out. Nothing ever lowers `fd_index`, so the numbers
differ, and the sixteenth is the last. The scan for the name runs over 512 dentries, of which
the block has sixteen. -/
namespace Tina.Files

open ByteBuffer Atomic Transition

variable {s t u : FileSystem} {b b' stack : Buffer} {a a' i j k : Nat} {name : CString}
  {locals : Locals} {ino mode : Word} {text : List Byte} {n : Node}

/-- The calls on descriptors, each with its arguments and what its locals hold before. -/
inductive FileCall where
  | fopen (name : CString) (stack : Buffer) (locals : Locals)
  | fread (index size : Nat) (stack : Buffer)
  | fwrite (index : Nat) (buf : List Byte) (stack : Buffer)
  | fseek (index : Nat) (pos : Word)
  | fclose (index : Nat) (stack : Buffer)

/-- `opened` are the numbers that `sys_fopen` returned and that were not closed since. -/
structure OpenFiles where
  system : FileSystem
  opened : List Nat

/-- One call of one task; none when its behaviour is undefined. -/
def FileCall.execute : FileCall → OpenFiles → Option OpenFiles
  | .fopen name stack locals, s => (run (sysFopen name stack locals) s.system).map fun r =>
    ⟨r.2, r.1.toNat :: s.opened⟩
  | .fread index size stack, s => (run (sysFread index size stack) s.system).map fun r =>
    ⟨r.2, s.opened⟩
  | .fwrite index buf stack, s => (run (sysFwrite index buf stack) s.system).map fun r =>
    ⟨r.2, s.opened⟩
  | .fseek index pos, s => (run (sysFseek index pos) s.system).map fun r => ⟨r.2, s.opened⟩
  | .fclose index stack, s => (run (sysFclose index stack) s.system).map fun r =>
    ⟨r.2, s.opened.filter (· ≠ index)⟩

def cwdBytes (s : FileSystem) : Buffer := fun k => s.disk (blockAddress (cwdIno s) + k)

/-- The dentry `i` of the current directory is live, a file's, and spells `name`, all of it
inside the block. -/
def Spells (s : FileSystem) (name : CString) (i : Nat) : Prop :=
  dentryName i + name.val.length < blockSize ∧ matchesEntry (cwdBytes s) file name i = true

def FirstFile (s : FileSystem) (name : CString) (i : Nat) : Prop :=
  Spells s name i ∧ ∀ j < i, ¬Spells s name j

/-- What `sys_fopen` owes its caller: a new descriptor at the start of the first file of that
name, or a value that is no descriptor. -/
def Proper (s : OpenFiles) (name : CString) : Option (Int × FileSystem) → Prop
  | none => False
  | some (r, t) =>
    (∃ k i : Nat, r = k ∧ k < fdNum ∧ k ∉ s.opened ∧ FirstFile t name i ∧
      t.fd k = ⟨dentryIno (cwdBytes t) i, 0⟩) ∨
    ((r < 0 ∨ (fdNum : Int) ≤ r) ∧ t.fd = s.system.fd)

/-- There is room for a new file of that name: a free dentry inside the block, and a name that
fits behind it and into the inode. -/
def RoomFor (s : FileSystem) (name : CString) (locals : Locals) : Prop :=
  freeSlot (cwdBlock s locals.db) 0x200 < dentrysPerBlock ∧
    dentryName (freeSlot (cwdBlock s locals.db) 0x200) + name.val.length < blockSize ∧
    name.val.length < inodeSize

/-- There is a descriptor left. The first scan finds the name inside the block, or nowhere, and
then there is room for the file. -/
def OpensWell (s : FileSystem) (name : CString) (stack : Buffer) (locals : Locals) : Prop :=
  s.fdIndex < fdNum ∧
    (opens s name stack →
      dentryName (scan 0x200 (matchesEntry (cwdBlock s stack) file name)) + name.val.length <
        blockSize) ∧
    (¬opens s name stack → RoomFor s name locals)

theorem strcmp_congr (same : ∀ k ≤ text.length, b (a + k) = b' (a' + k)) :
    strcmp b a text = strcmp b' a' text := by
  induction text generalizing a a' with
  | nil =>
    have first : b a = b' a' := same 0 (Nat.zero_le _)
    rw [strcmp, strcmp, first]
  | cons c text ih =>
    have first : b a = b' a' := same 0 (Nat.zero_le _)
    have rest : strcmp b (a + 1) text = strcmp b' (a' + 1) text := by
      refine ih fun k low => ?_
      have next := same (k + 1) (Nat.succ_le_succ low)
      rwa [Nat.add_comm k, ← Nat.add_assoc, ← Nat.add_assoc] at next
    rw [strcmp, strcmp, first, rest]

/-- What a scan reads of a dentry lies inside the block. -/
theorem matchesEntry_congr (same : ∀ k < blockSize, b k = b' k)
    (inside : dentryName i + name.val.length < blockSize) :
    matchesEntry b mode name i = matchesEntry b' mode name i := by
  simp only [dentryName, dentrySize, offDentryName, blockSize] at same inside
  have number : dentryIno b i = dentryIno b' i := by
    refine word_congr fun k low high => ?_
    simp only [dentrySize] at *
    rw [same k (by omega)]
    exact congrArg b' (by omega)
  have kind : dentryMode b i = dentryMode b' i := by
    refine word_congr fun k low high => ?_
    simp only [dentrySize, offDentryMode] at *
    rw [same k (by omega)]
    exact congrArg b' (by omega)
  have text : strcmp b (dentryName i) name.val = strcmp b' (dentryName i) name.val := by
    refine strcmp_congr fun k low => ?_
    simp only [dentryName, dentrySize, offDentryName]
    exact same _ (by omega)
  rw [matchesEntry, matchesEntry, number, kind, text]

theorem dentryIno_bytes (inside : dentryName i + name.val.length < blockSize) :
    dentryIno (cwdBlock s stack) i = dentryIno (cwdBytes s) i := by
  simp only [dentryName, dentrySize, offDentryName, blockSize] at inside
  refine word_congr fun k low high => ?_
  simp only [dentrySize] at *
  have read : cwdBlock s stack k = cwdBytes s k := copy_start (by simp only [blockSize]; omega)
  rw [read]
  exact congrArg _ (by omega)

theorem cwdBlock_bytes (k : Nat) (inside : k < blockSize) : cwdBlock s stack k = cwdBytes s k :=
  copy_start inside

theorem spells_iff (stack : Buffer) : Spells s name i ↔ dentryName i + name.val.length < blockSize ∧
    matchesEntry (cwdBlock s stack) file name i = true := by
  refine and_congr_right fun inside => ?_
  rw [matchesEntry_congr cwdBlock_bytes inside]

/-- Whatever the map holds, the number is none that marks a free dentry. -/
theorem alloc_any : ∃ ino d map, run inodeAlloc s =
    some (ino, { s with disk := d, inodeMap := map }) ∧ ino ≠ noIno := by
  rcases @bitmapSearch_spec s.inodeMap 0 inodeBound (.inl rfl) (by decide) with
    ⟨search, _⟩ | ⟨o, small, search, _⟩
  · have inside : (0 : Int) ≤ Int.tdiv (-2) 32 ∧ Int.tdiv (-2) 32 < 0x400 := by decide
    have other : BitVec.ofInt 32 (-2) ≠ noIno := by decide
    rw [inodeAlloc, run_then run_read, search, modifyInodeMap, if_pos inside, run_then run_change,
      run_then run_inodeMapWrite, run_pure]
    exact ⟨_, _, _, rfl, other⟩
  · have other : BitVec.ofNat 32 o ≠ noIno := by
      intro same
      have number := congrArg BitVec.toNat same
      have free : noIno.toNat = 0xffffffff := by decide
      rw [BitVec.toNat_ofNat, free] at number
      simp only [inodeBound] at small
      omega
    rw [run_inodeAlloc small search]
    exact ⟨_, _, _, rfl, other⟩

theorem inodeWrite_any {src : Buffer} :
    ∃ d, run (inodeWrite src ino) s = some ((), { s with disk := d }) := by
  by_cases outside : checkIno ino
  · exact ⟨s.disk, by rw [inodeWrite, if_pos outside, run_pure]⟩
  · rw [inodeWrite, if_neg outside, run_then run_sectorRead, run_sectorWrite]
    exact ⟨_, rfl⟩

/-- A long name may change what the inode says, but not whether the call ends. -/
theorem create_any (ino mode father : Word) (locals : Locals) (s : FileSystem)
    (short : name.val.length < inodeSize) :
    ∃ d, run (inodeCreate ino mode name father locals) s = some ((), { s with disk := d }) := by
  rw [inodeCreate, if_neg (Nat.not_le_of_lt short)]
  dsimp only
  split
  · rw [dirInit, run_then run_dirBlockWrite]
    exact inodeWrite_any
  · rw [fileInit, run_then run_fileBlockWrite]
    exact inodeWrite_any

structure Touched (s : FileSystem) (name : CString) (locals : Locals) (t : FileSystem) : Prop where
  rest : t = { s with disk := t.disk, inodeMap := t.inodeMap }
  block : ∃ ino, ino ≠ noIno ∧ ∀ k < blockSize, cwdBytes t k =
    setDentry (freeSlot (cwdBlock s locals.db) 0x200) ino file name (cwdBlock s locals.db) k

theorem cwdBytes_written {d db map : Buffer} (inside : k < blockSize) : cwdBytes { s with
    disk := copy d (blockAddress (cwdIno s)) db 0 blockSize, inodeMap := map } k = db k := by
  simp only [cwdBytes, cwdIno]
  rw [copy_inside inside, Nat.zero_add]

theorem touchFile_cases (s : FileSystem) (name : CString) (locals : Locals) :
    RoomFor s name locals ∧
      (∃ t, run (touchFile (some name) locals) s = some ((), t) ∧ Touched s name locals t) ∨
    ¬RoomFor s name locals ∧ run (touchFile (some name) locals) s = none := by
  obtain ⟨ino, d, map, allocated, live⟩ := @alloc_any s
  have start : ∀ {p : Word → Routine Unit}, run (inodeAlloc >>= p) s =
      run (p ino) { s with disk := d, inodeMap := map } := run_then allocated
  rw [touchFile, createEntry, run_then run_shellPathIno, run_then run_dirBlockRead, start,
    run_then run_shellPathIno]
  by_cases short : name.val.length < inodeSize
  · obtain ⟨d', created⟩ := create_any ino file (word s.shellPathInode offIno) locals
      { s with disk := d, inodeMap := map } short
    rw [run_then created, ← cwdBlock]
    by_cases room : freeSlot (cwdBlock s locals.db) 0x200 < dentrysPerBlock ∧
        dentryName (freeSlot (cwdBlock s locals.db) 0x200) + name.val.length < blockSize
    · refine .inl ⟨⟨room.1, room.2, short⟩, ?_⟩
      rw [if_pos room, run_then run_shellPathIno, run_dirBlockWrite]
      refine ⟨_, rfl, ⟨by simp only, ino, live, fun k inside => ?_⟩⟩
      exact cwdBytes_written inside
    · refine .inr ⟨fun fits => room ⟨fits.1, fits.2.1⟩, ?_⟩
      rw [if_neg room, run_undefined]
  · refine .inr ⟨fun fits => short fits.2.2, ?_⟩
    rw [inodeCreate, if_pos (Nat.le_of_not_lt short)]
    rfl

/-- The new dentry is found, or one before it. -/
theorem Touched.opens (touched : Touched s name locals t) (room : RoomFor s name locals)
    (stack : Buffer) : scan 0x200 (matchesEntry (cwdBlock t stack) file name) ≤
      freeSlot (cwdBlock s locals.db) 0x200 := by
  obtain ⟨ino, live, block⟩ := touched.block
  obtain ⟨k, isSlot⟩ : ∃ k, freeSlot (cwdBlock s locals.db) 0x200 = k := ⟨_, rfl⟩
  rw [RoomFor, isSlot] at room
  rw [isSlot] at block ⊢
  have number : dentryIno (setDentry k ino file name (cwdBlock s locals.db)) k = ino := by
    simp only [dentryIno, setDentry, dentryName, dentrySize, offDentryMode, offDentryName]
    rw [word_strcpy_other (by omega), word_setWord_other (by omega), word_setWord]
  have kind : dentryMode (setDentry k ino file name (cwdBlock s locals.db)) k = file := by
    simp only [dentryMode, setDentry, dentryName, dentrySize, offDentryMode, offDentryName]
    rw [word_strcpy_other (by omega), word_setWord]
  have text : strcmp (setDentry k ino file name (cwdBlock s locals.db)) (dentryName k)
      name.val = 0 :=
    (strcmp_eq_zero (strcpy_terminated (Nat.lt_succ_self _)) name.property).mpr
      (cstring_strcpy (Nat.lt_succ_self _) name.property)
  have here : matchesEntry (cwdBlock t stack) file name k = true := by
    have read : ∀ l < blockSize,
        cwdBlock t stack l = setDentry k ino file name (cwdBlock s locals.db) l :=
      fun l inside => (cwdBlock_bytes l inside).trans (block l inside)
    rw [matchesEntry_congr read room.2.1]
    simp [matchesEntry, number, kind, text, live]
  have stops : scan 0x200 (matchesEntry (cwdBlock t stack) file name) < 0x200 :=
    scan_lt (Nat.lt_trans room.1 (by decide)) here
  by_contra later
  have missed := (scan_stops stops).2 k (Nat.lt_of_not_le later)
  rw [here] at missed
  cases missed

theorem firstFile_scan (found : opens s name stack) (inside : dentryName
    (scan 0x200 (matchesEntry (cwdBlock s stack) file name)) + name.val.length < blockSize) :
    FirstFile s name (scan 0x200 (matchesEntry (cwdBlock s stack) file name)) := by
  obtain ⟨here, before⟩ := scan_stops found
  refine ⟨(spells_iff stack).mpr ⟨inside, here⟩, fun j earlier spells => ?_⟩
  have missed := before j earlier
  rw [((spells_iff stack).mp spells).2] at missed
  cases missed

theorem push_full (full : ¬s.fdIndex < fdNum) : run (pushDescriptor ino) s = none := by
  rw [pushDescriptor, run_then run_read, if_neg full, run_undefined]

theorem sysFopen_cases (s : FileSystem) (name : CString) (stack : Buffer) (locals : Locals) :
    opens s name stack ∧ run (sysFopen name stack locals) s =
      run (pushDescriptor (foundIno s name stack)) s ∨
    (∃ t, ¬opens s name stack ∧ RoomFor s name locals ∧ Touched s name locals t ∧
      opens t name stack ∧ run (sysFopen name stack locals) s =
        run (pushDescriptor (foundIno t name stack)) t) ∨
    ¬opens s name stack ∧ ¬RoomFor s name locals ∧ run (sysFopen name stack locals) s = none := by
  have first : run (sysFopen name stack locals) s =
      if scan 0x200 (matchesEntry (cwdBlock s stack) file name) < 0x200 then
        run (pushDescriptor (foundIno s name stack)) s
      else run (do
        touchFile (some name) locals
        let db ← dirBlockRead stack (← shellPathIno)
        let i := scan 0x200 (matchesEntry db file name)
        if i < 0x200 then pushDescriptor (dentryIno db i) else return 0) s := by
    rw [sysFopen, run_then run_shellPathIno, run_then run_dirBlockRead, ← cwdBlock]
    dsimp only
    split
    · rfl
    · rfl
  by_cases found : opens s name stack
  · exact .inl ⟨found, first.trans (if_pos found)⟩
  · have missed := first.trans (if_neg found)
    rcases touchFile_cases s name locals with ⟨room, t, result, touched⟩ | ⟨none, result⟩
    · have again : opens t name stack :=
        Nat.lt_of_le_of_lt (touched.opens room stack) (Nat.lt_trans room.1 (by decide))
      refine .inr (.inl ⟨t, found, room, touched, again, ?_⟩)
      have stops : scan 0x200 (matchesEntry (cwdBlock t stack) file name) < 0x200 := again
      rw [missed, run_then result, run_then run_shellPathIno, run_then run_dirBlockRead, ← cwdBlock]
      dsimp only
      rw [if_pos stops, foundIno]
    · refine .inr (.inr ⟨found, none, ?_⟩)
      rw [missed, run_bind, result]
      rfl

theorem Touched.index (touched : Touched s name locals t) : t.fdIndex = s.fdIndex := by
  rw [touched.rest]

theorem sysFopen_result {r : Int} (result : run (sysFopen name stack locals) s = some (r, t)) :
    s.fdIndex < fdNum ∧ r = s.fdIndex ∧ ∃ u, opens u name stack ∧
      (u = s ∨ ¬opens s name stack ∧ RoomFor s name locals ∧ Touched s name locals u) ∧
      t = pushed (foundIno u name stack) u := by
  have pushes : ∀ {u : FileSystem} {ino : Word}, u.fdIndex = s.fdIndex →
      run (pushDescriptor ino) u = some (r, t) →
      s.fdIndex < fdNum ∧ r = s.fdIndex ∧ t = pushed ino u := by
    intro u ino same ends
    by_cases room : u.fdIndex < fdNum
    · rw [run_push room] at ends
      cases ends
      exact ⟨same ▸ room, congrArg _ same, rfl⟩
    · rw [push_full room] at ends
      cases ends
  rcases sysFopen_cases s name stack locals with
    ⟨found, ends⟩ | ⟨u, missed, room, touched, again, ends⟩ | ⟨_, _, ends⟩
  · obtain ⟨low, number, state⟩ := pushes rfl (ends.symm.trans result)
    exact ⟨low, number, s, found, .inl rfl, state⟩
  · obtain ⟨low, number, state⟩ := pushes touched.index (ends.symm.trans result)
    exact ⟨low, number, u, again, .inr ⟨missed, room, touched⟩, state⟩
  · rw [ends] at result
    cases result

theorem sysFopen_ends (low : s.fdIndex < fdNum)
    (room : ¬opens s name stack → RoomFor s name locals) :
    ∃ r t, run (sysFopen name stack locals) s = some (r, t) := by
  rcases sysFopen_cases s name stack locals with
    ⟨_, ends⟩ | ⟨u, _, _, touched, _, ends⟩ | ⟨missed, none, _⟩
  · exact ⟨_, _, ends.trans (run_push low)⟩
  · exact ⟨_, _, ends.trans (run_push (touched.index.symm ▸ low))⟩
  · exact absurd (room missed) none

theorem FirstFile.scan (first : FirstFile s name i) (stack : Buffer) :
    Files.scan 0x200 (matchesEntry (cwdBlock s stack) file name) ≤ i := by
  have here := ((spells_iff stack).mp first.1).2
  have inside := first.1.1
  simp only [dentryName, dentrySize, offDentryName, blockSize] at inside
  have stops : Files.scan 0x200 (matchesEntry (cwdBlock s stack) file name) < 0x200 :=
    scan_lt (by omega) here
  by_contra later
  have missed := (scan_stops stops).2 i (Nat.lt_of_not_le later)
  rw [here] at missed
  cases missed

/-- One call, from a state in which all numbers handed out are below `fd_index`. -/
theorem proper_iff {s : OpenFiles} (below : ∀ k ∈ s.opened, k < s.system.fdIndex) :
    Proper s name (run (sysFopen name stack locals) s.system) ↔
      OpensWell s.system name stack locals := by
  generalize outcome : run (sysFopen name stack locals) s.system = result
  constructor
  · intro proper
    cases result with
    | none => exact absurd proper id
    | some r =>
      obtain ⟨r, t⟩ := r
      obtain ⟨low, number, u, found, origin, state⟩ := sysFopen_result outcome
      refine ⟨low, fun old => ?_, fun missed => ?_⟩
      · rcases origin with rfl | ⟨missed, _⟩
        · rcases proper with ⟨k, i, _, _, _, first, _⟩ | ⟨none, _⟩
          · have stops : FirstFile s.system name i := by
              rw [state] at first
              exact first
            have le := stops.scan stack
            have inside := first.1.1
            simp only [dentryName, dentrySize] at inside ⊢
            omega
          · simp only [fdNum] at *
            omega
        · exact absurd old missed
      · rcases origin with rfl | ⟨_, room, _⟩
        · exact absurd found missed
        · exact room
  · intro well
    have ends := sysFopen_ends well.1 well.2.2
    rw [outcome] at ends
    obtain ⟨r, t, rfl⟩ := ends
    obtain ⟨low, number, u, found, origin, state⟩ := sysFopen_result outcome
    have within : dentryName (scan 0x200 (matchesEntry (cwdBlock u stack) file name)) +
        name.val.length < blockSize := by
      rcases origin with rfl | ⟨_, room, touched⟩
      · exact well.2.1 found
      · have le := touched.opens room stack
        have fits := room.2.1
        simp only [dentryName, dentrySize] at fits ⊢
        omega
    have first := firstFile_scan found within
    have index : u.fdIndex = s.system.fdIndex := by
      rcases origin with rfl | ⟨_, _, touched⟩
      · rfl
      · exact touched.index
    have ino : foundIno u name stack = dentryIno (cwdBytes u) _ := dentryIno_bytes within
    generalize scan 0x200 (matchesEntry (cwdBlock u stack) file name) = i at first ino
    refine .inl ⟨s.system.fdIndex, i, number, low, fun old => Nat.lt_irrefl _ (below _ old), ?_, ?_⟩
    · rw [state]
      exact first
    · rw [state, ino, ← index]
      exact Function.update_self u.fdIndex _ _

section Index

variable {index size : Nat} {pos : Word} {buf : List Byte}

theorem setPos_leaves {f : Word → Word} : Leaves FileSystem.fdIndex (setPos index f) :=
  .change fun _ => rfl

theorem fread_leaves : Leaves FileSystem.fdIndex (sysFread index size stack) :=
  .ite .undefined <| .bind .read fun _ => .bind .read fun _ => .bind .read fun _ =>
    .ite .undefined <| .bind setPos_leaves fun _ => .pure

theorem fwrite_leaves : Leaves FileSystem.fdIndex (sysFwrite index buf stack) :=
  .ite .undefined <| .bind .read fun _ => .bind .read fun _ => .bind .read fun _ =>
    .ite .undefined <| .bind .read fun _ => .bind (.change fun _ => rfl) fun _ =>
      .bind setPos_leaves fun _ => .pure

theorem fseek_leaves : Leaves FileSystem.fdIndex (sysFseek index pos) :=
  .ite .undefined setPos_leaves

theorem fclose_leaves : Leaves FileSystem.fdIndex (sysFclose index stack) :=
  .bind fwrite_leaves fun _ => setPos_leaves

end Index

def Calls (s : OpenFiles) (c : FileCall) (t : OpenFiles) : Prop := c.execute s = some t

/-- The numbers of the descriptors in use stay below `fd_index`, which no call lowers. -/
theorem opened_below {start s : OpenFiles} (none : start.opened = [])
    (reach : Reachable Calls (fun _ _ => True) start s) :
    ∀ k ∈ s.opened, k < s.system.fdIndex := by
  refine reach.invariant (fun s => ∀ k ∈ s.opened, k < s.system.fdIndex) ?_ ?_
  · intro k member
    rw [none] at member
    cases member
  intro s c t below _ next
  have keeps : ∀ {α : Type} {p : Routine α} {r : α} {u : FileSystem},
      Leaves FileSystem.fdIndex p → run p s.system = some (r, u) →
      ∀ k ∈ s.opened, k < u.fdIndex := by
    intro α p r u leaves result k member
    rw [leaves.run result]
    exact below k member
  cases c with
  | fopen name stack locals =>
    rw [Calls, FileCall.execute] at next
    obtain ⟨⟨r, u⟩, result, rfl⟩ := Option.map_eq_some_iff.mp next
    obtain ⟨_, number, v, _, origin, state⟩ := sysFopen_result result
    have index : u.fdIndex = s.system.fdIndex + 1 := by
      rcases origin with rfl | ⟨_, _, touched⟩
      · rw [state, pushed]
      · rw [state, pushed, touched.index]
    intro k member
    rcases List.mem_cons.mp member with rfl | old
    · simp only [number, index]
      omega
    · have := below k old
      simp only [index]
      omega
  | fread index size stack =>
    rw [Calls, FileCall.execute] at next
    obtain ⟨⟨r, u⟩, result, rfl⟩ := Option.map_eq_some_iff.mp next
    exact keeps fread_leaves result
  | fwrite index buf stack =>
    rw [Calls, FileCall.execute] at next
    obtain ⟨⟨r, u⟩, result, rfl⟩ := Option.map_eq_some_iff.mp next
    exact keeps fwrite_leaves result
  | fseek index pos =>
    rw [Calls, FileCall.execute] at next
    obtain ⟨⟨r, u⟩, result, rfl⟩ := Option.map_eq_some_iff.mp next
    exact keeps fseek_leaves result
  | fclose index stack =>
    rw [Calls, FileCall.execute] at next
    obtain ⟨⟨r, u⟩, result, rfl⟩ := Option.map_eq_some_iff.mp next
    exact fun k member => keeps fclose_leaves result k (List.mem_filter.mp member).1

/-- After any calls, `sys_fopen` does what it owes exactly when a descriptor is left and neither
of its scans leaves the block. -/
theorem open_descriptors_valid {fs : FileSystem} {s : OpenFiles}
    (reach : Reachable Calls (fun _ _ => True) ⟨fs, []⟩ s) (name : CString) (stack : Buffer)
    (locals : Locals) : Proper s name (run (sysFopen name stack locals) s.system) ↔
      OpensWell s.system name stack locals :=
  proper_iff (opened_below rfl reach)

theorem Target.short (target : Target s mode name i n) (intact : Intact s) :
    name.val.length < 24 := by
  obtain ⟨cwd, f, located, isDir, shell⟩ := intact.cwd
  have here := target.here
  rw [cwdIno, shell] at here
  have named := intact.sound.named located isDir target.inside here
  have text : n.name = cstring s.disk (blockAddress f.ino + dentrySize * i + offDentryName) 24 := by
    rw [dirEntry, entry] at here
    split at here
    · cases here
    · cases here
      rfl
  rw [← target.same, text]
  exact cstring_length.mpr named

/-- On a mounted file system with room only the stack can spoil the scan: it stops at the file
when there is one, and finds nothing beyond the block when there is none. -/
theorem opensWell_mounted (intact : Intact s) (fits : ¬opens s name stack → CreationFits s name) :
    OpensWell s name stack locals ↔
      s.fdIndex < fdNum ∧ (opens s name stack → ∃ i n, Target s file name i n) := by
  constructor
  · intro well
    refine ⟨well.1, fun found => ?_⟩
    have inside := well.2.1 found
    rcases intact.standing.target stack file name with ⟨i, n, target, _⟩ | ⟨missed, _⟩
    · exact ⟨i, n, target⟩
    · have early : scan 0x200 (matchesEntry (cwdBlock s stack) file name) < dentrysPerBlock := by
        simp only [dentryName, dentrySize, offDentryName, blockSize, dentrysPerBlock] at inside ⊢
        omega
      have stops := scan_lt early (scan_stops found).1
      omega
  · rintro ⟨low, target⟩
    refine ⟨low, fun found => ?_, fun missed => ?_⟩
    · obtain ⟨i, n, target⟩ := target found
      have slot := target.slot intact stack
      have inside := target.inside
      have wide : scan 0x200 (matchesEntry (cwdBlock s stack) file name) =
          scan dentrysPerBlock (matchesEntry (cwdBlock s stack) file name) :=
        scan_longer (by rw [slot]; exact inside) (by decide)
      have short := target.short intact
      rw [wide, slot]
      simp only [dentryName, dentrySize, offDentryName, blockSize, dentrysPerBlock] at inside ⊢
      omega
    · obtain ⟨cwd, f, i, o, place⟩ := intact.place locals.db (fits missed)
        (by decide : dentrysPerBlock ≤ 0x200)
      have short := (fits missed).short
      have inside := place.inside
      rw [RoomFor, place.slot]
      simp only [dentryName, dentrySize, offDentryName, blockSize, dentrysPerBlock,
        inodeSize] at inside ⊢
      omega

theorem open_again (intact : Intact s) (target : Target s file name i n) (none : s.fdIndex = 0)
    (few : k ≤ fdNum) : ∃ t, Reachable Calls (fun _ _ => True) ⟨s, []⟩ t ∧ Intact t.system ∧
      Target t.system file name i n ∧ t.system.fdIndex = k := by
  induction k with
  | zero => exact ⟨⟨s, []⟩, .start, intact, target, none⟩
  | succ k ih =>
    obtain ⟨t, reach, intact, target, index⟩ := ih (Nat.le_of_succ_le few)
    have room : t.system.fdIndex < fdNum := index ▸ few
    obtain ⟨found, _⟩ := target.opens intact blankLocals.db
    have result : run (sysFopen name blankLocals.db blankLocals) t.system = some
        ((t.system.fdIndex : Int), pushed (foundIno t.system name blankLocals.db) t.system) := by
      rcases sysFopen_cases t.system name blankLocals.db blankLocals with
        ⟨_, ends⟩ | ⟨_, missed, _⟩ | ⟨missed, _⟩
      · exact ends.trans (run_push room)
      · exact absurd found missed
      · exact absurd found missed
    have next : Calls t (.fopen name blankLocals.db blankLocals)
        ⟨pushed (foundIno t.system name blankLocals.db) t.system,
          t.system.fdIndex :: t.opened⟩ := by
      rw [Calls, FileCall.execute, result]
      rfl
    refine ⟨_, .step reach trivial next, ?_, ?_, congrArg (· + 1) index⟩
    · exact Quiet.intact (s := t.system) ⟨rfl, rfl, rfl, rfl⟩ intact
    · exact ⟨target.inside, target.here, target.kind, target.same, target.first⟩

/-- A file that was made and opened twice is opened once more. -/
theorem open_descriptors_valid_again : ∃ fs s, Session Sane fs ∧
    Reachable Calls (fun _ _ => True) ⟨fs, []⟩ s ∧ s.system.fdIndex = 2 ∧
    Proper s nameA (run (sysFopen nameA blankLocals.db blankLocals) s.system) := by
  obtain ⟨fs, i, n, session, intact, target, none, _⟩ := session_touch
  have few : 2 ≤ fdNum := by decide
  obtain ⟨s, reach, intact, target, index⟩ := open_again intact target none few
  refine ⟨fs, s, session, reach, index, ?_⟩
  have found := (target.opens intact blankLocals.db).1
  have fits : ¬opens s.system nameA blankLocals.db → CreationFits s.system nameA :=
    fun missed => absurd found missed
  have low : s.system.fdIndex < fdNum := by
    rw [index]
    decide
  have well : OpensWell s.system nameA blankLocals.db blankLocals :=
    (opensWell_mounted intact fits).mpr ⟨low, fun _ => ⟨i, n, target⟩⟩
  rw [open_descriptors_valid reach]
  exact well

/-- The seventeenth descriptor lies beyond the table. -/
theorem table_overrun : ∃ fs s, Session Sane fs ∧ Reachable Calls (fun _ _ => True) ⟨fs, []⟩ s ∧
    opens s.system nameA blankLocals.db ∧
    ¬Proper s nameA (run (sysFopen nameA blankLocals.db blankLocals) s.system) := by
  obtain ⟨fs, i, n, session, intact, target, none, _⟩ := session_touch
  obtain ⟨s, reach, intact, target, full⟩ := open_again intact target none (Nat.le_refl fdNum)
  refine ⟨fs, s, session, reach, (target.opens intact _).1, ?_⟩
  rw [proper_iff (opened_below rfl reach)]
  intro well
  have low := well.1
  rw [full] at low
  exact Nat.lt_irrefl _ low

end Tina.Files
