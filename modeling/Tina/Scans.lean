import Tina.Reboot

/-! The loops over the dentries of a directory block. Those of `text.c` go on behind the
block, those of `path.c` do not. -/
namespace Tina.Files

open ByteBuffer Atomic

variable {s t : FileSystem} {b stack stack' : Buffer} {name : CString} {mode : Word}
  {bound left i j : Nat} {found : Nat → Bool} {locals : Locals}

/-- What a loop looks at, and where it stops early. -/
structure Search where
  examined : List Nat
  result : Option Nat

/-- The loop from `i` on, with `left` rounds to go. -/
def searchFrom (found : Nat → Bool) : Nat → Nat → Search
  | 0, _ => ⟨[], none⟩
  | left + 1, i =>
    if found i then ⟨[i], some i⟩
    else ⟨i :: (searchFrom found left (i + 1)).examined,
      (searchFrom found left (i + 1)).result⟩

def search (bound : Nat) (found : Nat → Bool) : Search := searchFrom found bound 0

/-- The loop of `cat_file` and the two of `sys_fopen`. -/
def textLookup (name : CString) (db : Buffer) : Search := search 0x200 (matchesEntry db file name)

/-- The loop of `remove_file`. -/
def pathLookup (name : CString) (db : Buffer) : Search :=
  search dentrysPerBlock (matchesEntry db file name)

/-- The loop of `touch_file`. -/
def textSlot (db : Buffer) : Search := search 0x200 fun i => dentryIno db i = noIno

/-- The loop of `make_directory`. -/
def pathSlot (db : Buffer) : Search := search dentrysPerBlock fun i => dentryIno db i = noIno

/-- What `list_directory` prints the names of. -/
def listed (db : Buffer) : List Nat :=
  (List.range dentrysPerBlock).filter fun i => dentryIno db i ≠ noIno

/-- The loops see the same directory, whatever lies behind the block on each stack. -/
structure ScansAgree (s : FileSystem) (name : CString) : Prop where
  lookup : ∀ stack, ∀ i ∈ (textLookup name (cwdBlock s stack)).examined, i < dentrysPerBlock
  slot : ∀ stack, ∀ i ∈ (textSlot (cwdBlock s stack)).examined, i < dentrysPerBlock
  sameDentry : ∀ stack stack', (textLookup name (cwdBlock s stack)).result =
    (pathLookup name (cwdBlock s stack')).result
  sameSlot : ∀ stack stack',
    (textSlot (cwdBlock s stack)).result = (pathSlot (cwdBlock s stack')).result
  listed : ∀ stack stack' i, (textLookup name (cwdBlock s stack)).result = some i →
    i ∈ listed (cwdBlock s stack')

/-- The first dentry of the block that is a file of that name, whatever lies behind it. -/
def FirstMatch (s : FileSystem) (name : CString) (i : Nat) : Prop :=
  ∀ stack, matchesEntry (cwdBlock s stack) file name i = true ∧
    ∀ j < i, matchesEntry (cwdBlock s stack) file name j = false

abbrev FreeDentry (s : FileSystem) (i : Nat) : Prop :=
  word s.disk (blockAddress (cwdIno s) + dentrySize * i) = noIno

theorem searchFrom_found (k : Nat) (small : k < left) (here : found (i + k) = true)
    (before : ∀ j < k, found (i + j) = false) :
    searchFrom found left i = ⟨List.range' i (k + 1), some (i + k)⟩ := by
  induction left generalizing i k with
  | zero => exact absurd small (Nat.not_lt_zero k)
  | succ left ih =>
    cases k with
    | zero =>
      rw [Nat.add_zero] at here
      rw [searchFrom, if_pos here]
      rfl
    | succ k =>
      have later : searchFrom found left (i + 1) = ⟨List.range' (i + 1) (k + 1), some (i + 1 + k)⟩ := by
        apply ih k (Nat.lt_of_succ_lt_succ small)
        · rw [← here]
          congr 1
          omega
        · intro j earlier
          rw [← before (j + 1) (Nat.succ_lt_succ earlier)]
          congr 1
          omega
      have first : found i = false := before 0 (Nat.zero_lt_succ k)
      rw [searchFrom, first, if_neg Bool.false_ne_true, later, Nat.add_right_comm i 1 k,
        Nat.add_assoc i k 1]
      rfl

theorem searchFrom_missed (none : ∀ k < left, found (i + k) = false) :
    searchFrom found left i = ⟨List.range' i left, Option.none⟩ := by
  induction left generalizing i with
  | zero => rfl
  | succ left ih =>
    have later : searchFrom found left (i + 1) = ⟨List.range' (i + 1) left, Option.none⟩ := by
      apply ih
      intro k small
      rw [← none (k + 1) (Nat.succ_lt_succ small)]
      congr 1
      omega
    have first : found i = false := none 0 (Nat.zero_lt_succ left)
    rw [searchFrom, first, if_neg Bool.false_ne_true, later, List.range'_succ]

theorem search_found (small : i < bound) (here : found i = true)
    (before : ∀ j < i, found j = false) : search bound found = ⟨List.range (i + 1), some i⟩ := by
  rw [search, searchFrom_found i small (by rwa [Nat.zero_add]) (by simpa using before),
    Nat.zero_add, List.range_eq_range']

theorem search_missed (none : ∀ i < bound, found i = false) :
    search bound found = ⟨List.range bound, Option.none⟩ := by
  rw [search, searchFrom_missed (by simpa using none), List.range_eq_range']

theorem search_cases (bound : Nat) (found : Nat → Bool) :
    (∃ i < bound, found i = true ∧ (∀ j < i, found j = false) ∧
      search bound found = ⟨List.range (i + 1), some i⟩) ∨
    (∀ i < bound, found i = false) ∧ search bound found = ⟨List.range bound, none⟩ := by
  by_cases stops : scan bound found < bound
  · obtain ⟨here, before⟩ := scan_stops stops
    exact .inl ⟨_, stops, here, before, search_found stops here before⟩
  · have none : ∀ i < bound, found i = false := by
      intro i small
      rw [Bool.eq_false_iff]
      intro here
      exact stops (scan_lt small here)
    exact .inr ⟨none, search_missed none⟩

theorem search_scan : scan bound found = (search bound found).result.getD bound := by
  rcases search_cases bound found with ⟨i, small, here, before, result⟩ | ⟨none, result⟩
  · rw [result, scan_eq small here before]
    rfl
  · rw [result]
    apply Nat.le_antisymm scan_le
    by_contra early
    obtain ⟨here, -⟩ := scan_stops (Nat.lt_of_not_le early)
    rw [none _ (Nat.lt_of_not_le early)] at here
    cases here

theorem run_catFile_lookup : run (catFile (some name) stack) s =
    some ((textLookup name (cwdBlock s stack)).result.map fun i =>
      cstring (copy stack 0 s.disk (blockAddress (dentryIno (cwdBlock s stack) i)) blockSize) 0
        blockSize, s) := by
  rw [catFile, run_then run_shellPathIno, run_then run_dirBlockRead, ← cwdBlock]
  dsimp only
  rw [search_scan, textLookup]
  rcases search_cases 0x200 (matchesEntry (cwdBlock s stack) file name) with
    ⟨i, small, -, -, result⟩ | ⟨-, result⟩
  · rw [result, Option.getD_some, if_neg (Nat.ne_of_lt small), run_then run_fileBlockRead]
    rfl
  · rw [result, Option.getD_none, if_pos rfl]
    rfl

theorem run_sysFopen_lookup : run (sysFopen name stack locals) s =
    match (textLookup name (cwdBlock s stack)).result with
    | some i => run (pushDescriptor (dentryIno (cwdBlock s stack) i)) s
    | none => (run (touchFile (some name) locals) s).bind fun r =>
      match (textLookup name (cwdBlock r.2 stack)).result with
      | some i => run (pushDescriptor (dentryIno (cwdBlock r.2 stack) i)) r.2
      | none => some (0, r.2) := by
  have again : ∀ u, run (do
      let db ← dirBlockRead stack (← shellPathIno)
      let i := scan 0x200 (matchesEntry db file name)
      if i < 0x200 then pushDescriptor (dentryIno db i) else return 0) u =
      match (textLookup name (cwdBlock u stack)).result with
      | some i => run (pushDescriptor (dentryIno (cwdBlock u stack) i)) u
      | none => some (0, u) := by
    intro u
    rw [run_then run_shellPathIno, run_then run_dirBlockRead, ← cwdBlock]
    dsimp only
    rw [search_scan, textLookup]
    rcases search_cases 0x200 (matchesEntry (cwdBlock u stack) file name) with
      ⟨i, small, -, -, result⟩ | ⟨-, result⟩
    · rw [result, Option.getD_some, if_pos small]
    · rw [result, Option.getD_none, if_neg (Nat.lt_irrefl _)]
      rfl
  rw [sysFopen, run_then run_shellPathIno, run_then run_dirBlockRead, ← cwdBlock]
  dsimp only
  rw [search_scan, textLookup]
  rcases search_cases 0x200 (matchesEntry (cwdBlock s stack) file name) with
    ⟨i, small, -, -, result⟩ | ⟨-, result⟩
  · rw [result, Option.getD_some, if_pos small]
  · rw [result, Option.getD_none, if_neg (Nat.lt_irrefl _), run_bind]
    exact congrArg _ (funext fun r => again r.2)

theorem run_removeFile_lookup : run (removeFile (some name) locals) s =
    match (pathLookup name (cwdBlock s locals.db)).result with
    | some i => run (do
        inodeDelete (dentryIno (cwdBlock s locals.db) i)
        dirBlockWrite (setWord (dentrySize * i) noIno (cwdBlock s locals.db)) (← shellPathIno)) s
    | none => run (do dirBlockWrite (cwdBlock s locals.db) (← shellPathIno)) s := by
  rw [removeFile, run_then run_shellPathIno, run_then run_dirBlockRead, ← cwdBlock, removeEntry]
  rw [search_scan, pathLookup]
  rcases search_cases dentrysPerBlock (matchesEntry (cwdBlock s locals.db) file name) with
    ⟨i, small, -, -, result⟩ | ⟨-, result⟩
  · rw [result, Option.getD_some, if_pos small]
  · rw [result, Option.getD_none, if_neg (Nat.lt_irrefl _)]

theorem freeSlot_search (db : Buffer) : freeSlot db 0x200 = (textSlot db).result.getD 0x200 ∧
    freeSlot db dentrysPerBlock = (pathSlot db).result.getD dentrysPerBlock :=
  ⟨search_scan, search_scan⟩

theorem dentryIno_block (stack : Buffer) (inside : i < dentrysPerBlock) :
    dentryIno (cwdBlock s stack) i = word s.disk (blockAddress (cwdIno s) + dentrySize * i) := by
  apply word_congr
  intro k first last
  rw [cwdBlock, copy_start (by simp only [dentrySize, blockSize, dentrysPerBlock] at *; omega)]
  exact congrArg s.disk (by rw [cwdIno]; omega)

theorem FirstMatch.search {longer : Nat} (first : FirstMatch s name i) (small : i < longer)
    (stack : Buffer) : Files.search longer (matchesEntry (cwdBlock s stack) file name) =
      ⟨List.range (i + 1), some i⟩ :=
  search_found small (first stack).1 (first stack).2

/-- The loops agree exactly if the block has a file of that name and a free dentry. -/
theorem scans_agree_iff (s : FileSystem) (name : CString) : ScansAgree s name ↔
    (∃ i < dentrysPerBlock, FirstMatch s name i) ∧ ∃ i < dentrysPerBlock, FreeDentry s i := by
  have wide : dentrysPerBlock < 0x200 := by decide
  constructor
  · intro agree
    -- A loop that finds nothing looks behind the block.
    have stops : ∀ {found}, (∀ i ∈ (search 0x200 found).examined, i < dentrysPerBlock) →
        ∃ i < dentrysPerBlock, found i = true ∧ (∀ j < i, found j = false) ∧
          (search 0x200 found).result = some i := by
      intro found within
      rcases search_cases 0x200 found with ⟨i, _, here, before, result⟩ | ⟨_, result⟩
      · rw [result] at within ⊢
        exact ⟨i, within i (List.mem_range.mpr (Nat.lt_succ_self i)), here, before, rfl⟩
      · rw [result] at within
        dsimp only at within
        exact absurd (within dentrysPerBlock (List.mem_range.mpr wide)) (Nat.lt_irrefl _)
    constructor
    · obtain ⟨i, inside, _, _, result⟩ := stops (agree.lookup fun _ => 0)
      refine ⟨i, inside, fun stack => ?_⟩
      obtain ⟨j, _, here, before, result'⟩ := stops (agree.lookup stack)
      have same := (agree.sameDentry (fun _ => 0) stack).trans (agree.sameDentry stack stack).symm
      cases result.symm.trans (same.trans result')
      exact ⟨here, before⟩
    · obtain ⟨i, inside, here, _⟩ := stops (agree.slot fun _ => 0)
      refine ⟨i, inside, ?_⟩
      rw [FreeDentry, ← dentryIno_block (fun _ => 0) inside]
      exact of_decide_eq_true here
  · rintro ⟨⟨i, inside, first⟩, ⟨j, low, free⟩⟩
    -- The first free dentry is the same in every local copy of the block.
    have slots : ∃ k < dentrysPerBlock, ∀ stack longer, k < longer →
        search longer (fun i => dentryIno (cwdBlock s stack) i = noIno) =
          ⟨List.range (k + 1), some k⟩ := by
      rcases search_cases dentrysPerBlock
        (fun i => word s.disk (blockAddress (cwdIno s) + dentrySize * i) = noIno) with
        ⟨k, small, here, before, _⟩ | ⟨none, _⟩
      · refine ⟨k, small, fun stack longer early => search_found early ?_ fun l earlier => ?_⟩
        · rw [dentryIno_block stack small]
          exact here
        · rw [dentryIno_block stack (Nat.lt_trans earlier small)]
          exact before l earlier
      · exact absurd free (of_decide_eq_false (none j low))
    obtain ⟨k, small, slot⟩ := slots
    have wide' := Nat.lt_trans inside wide
    refine ⟨fun stack l member => ?_, fun stack l member => ?_, fun stack stack' => ?_,
      fun stack stack' => ?_, fun stack stack' l result => ?_⟩
    · rw [textLookup, first.search wide'] at member
      exact Nat.lt_of_lt_of_le (List.mem_range.mp member) inside
    · rw [textSlot, slot stack _ (Nat.lt_trans small wide)] at member
      exact Nat.lt_of_lt_of_le (List.mem_range.mp member) small
    · rw [textLookup, pathLookup, first.search wide', first.search inside]
    · rw [textSlot, pathSlot, slot stack _ (Nat.lt_trans small wide), slot stack' _ small]
    · rw [textLookup, first.search wide'] at result
      cases result
      have live : dentryIno (cwdBlock s stack) i ≠ noIno := by
        have here := (first stack).1
        rw [matchesEntry, decide_eq_true_iff] at here
        exact here.1
      rw [listed, List.mem_filter, List.mem_range, decide_eq_true_iff,
        dentryIno_block stack' inside, ← dentryIno_block stack inside]
      exact ⟨inside, live⟩

theorem Target.firstMatch {n : Node} (target : Target s file name i n) (intact : Intact s) :
    FirstMatch s name i := by
  intro stack
  refine ⟨?_, fun j earlier => ?_⟩
  · exact (intact.standing.matches stack target.inside).mpr ⟨n, target.here, target.kind, target.same⟩
  · rw [Bool.eq_false_iff]
    intro here
    obtain ⟨m, live, kind, same⟩ :=
      (intact.standing.matches stack (Nat.lt_trans earlier target.inside)).mp here
    exact target.first j earlier m live kind same

/-- A directory without files, and a name that is looked for in it. -/
theorem scans_disagree : ¬∀ s name, Session Sane s → ScansAgree s name := by
  intro agree
  obtain ⟨start, made, formatted, _⟩ := run_doMakefs_format blankLocals blankSystem_blank
  have session : Session Sane start :=
    ⟨blankSystem, blankLocals, start, blankSystem_blank, made, .start⟩
  obtain ⟨⟨i, inside, first⟩, -⟩ :=
    (scans_agree_iff start nameA).mp (agree start nameA session)
  obtain ⟨n, live, isFile, same⟩ :=
    (formatted.intact.standing.matches (fun _ => 0) inside).mp (first fun _ => 0).1
  obtain ⟨j, m, target⟩ := Target.of_entry inside live isFile same
  obtain ⟨cwd, f, _, held⟩ := target.held formatted.intact (.inl rfl)
  cases (formatted.locate held.located).1

end Tina.Files
