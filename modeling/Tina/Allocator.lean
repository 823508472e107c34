import Mathlib.Order.Bounds.Defs
import Tina.Exhaustion

/-! The inode map as a set of numbers: `inode_alloc` takes the least one that is left. -/
namespace Tina.Files

open ByteBuffer Atomic Transition

variable {s s' start : FileSystem} {map : Buffer} {target ino i : Word} {bound o p : Nat}
  {offset : Int}

/-- `bitmap_getbit`. -/
def bitmapGetbit (map : Buffer) (offset : Int) : Word :=
  let i := 4 * (offset.tdiv 32).toNat
  let j := (offset.tmod 32 % 32).toNat
  (word map i >>> j) &&& 1

/-- The number whose bit an offset stands for: counts are taken by their low five bits. -/
def place (offset : Int) : Nat := 32 * (offset.tdiv 32).toNat + (offset.tmod 32 % 32).toNat

/-- The numbers that are marked. -/
def marked (s : FileSystem) : Set Nat := {o | o < inodeBound ∧ bitmapGetbit s.inodeMap o = 1}

/-- The map on the card is the one in memory. -/
def Mirrored (s : FileSystem) : Prop := ∀ k < mapSize, s.disk (mapAddress + k) = s.inodeMap k

theorem place_natCast (o : Nat) : place o = o := by
  have positive : (0 : Int) ≤ o := Int.natCast_nonneg o
  rw [place, Int.tdiv_eq_ediv_of_nonneg positive, Int.tmod_eq_emod_of_nonneg positive]
  omega

theorem place_split (offset : Int) : place offset / 32 = (offset.tdiv 32).toNat ∧
    place offset % 32 = (offset.tmod 32 % 32).toNat := by
  rw [place]
  omega

theorem bitmapGetbit_eq (map : Buffer) (offset : Int) :
    bitmapGetbit map offset = if bit map (place offset) then 1 else 0 := by
  obtain ⟨word, index⟩ := place_split offset
  apply BitVec.eq_of_getLsbD_eq
  intro k inside
  simp only [bitmapGetbit, bit, word, index, BitVec.getLsbD_and, BitVec.getLsbD_ushiftRight]
  by_cases first : k = 0
  · subst k
    rw [Nat.add_zero]
    split <;> simp [*]
  · have others : (1 : Word).getLsbD k = false := by
      rw [show (1 : Word) = 1#32 from rfl, BitVec.getLsbD_one]
      simp [first]
    rw [others, Bool.and_false]
    split <;> simp [first]

theorem bitmapGetbit_one (map : Buffer) (o : Nat) :
    bitmapGetbit map o = 1 ↔ bit map o = true := by
  rw [bitmapGetbit_eq, place_natCast]
  split <;> simp [*]

/-- A bit is the target exactly if the search takes it for one. -/
theorem bitmapGetbit_target (binary : target = 0 ∨ target = 1) (map : Buffer) (o : Nat) :
    bitmapGetbit map o = target ↔ bit map o = decide (target = 1) := by
  rw [bitmapGetbit_eq, place_natCast]
  rcases binary with rfl | rfl <;> split <;> simp [*]

theorem bitmapModify_place (map : Buffer) (target : Word) (offset : Int) :
    bitmapModify map target offset = bitmapModify map target (place offset) := by
  obtain ⟨word, index⟩ := place_split offset
  have positive : (0 : Int) ≤ place offset := Int.natCast_nonneg _
  have same : ((place offset : Int).tdiv 32).toNat = (offset.tdiv 32).toNat := by
    rw [← word, Int.tdiv_eq_ediv_of_nonneg positive]
    omega
  have same' : ((place offset : Int).tmod 32 % 32).toNat = (offset.tmod 32 % 32).toNat := by
    rw [← index, Int.tmod_eq_emod_of_nonneg positive]
    omega
  rw [bitmapModify, bitmapModify, same, same']

/-- An update sets the bit of its offset and no other. -/
theorem bit_modify (binary : target = 0 ∨ target = 1) (offset : Int) :
    bit (bitmapModify map target offset) p =
      if p = place offset then decide (target = 1) else bit map p := by
  rw [bitmapModify_place, bit_bitmapModify binary]

/-- What `bitmap_search` is to return. -/
structure Searches (map : Buffer) (target : Word) (bound : Nat) (r : Int) : Prop where
  least : r ≠ -2 → ∃ o : Nat, r = o ∧
    IsLeast {p | p < bound ∧ bitmapGetbit map p = target} o
  none : r = -2 ↔ ∀ p < bound, bitmapGetbit map p ≠ target

theorem bitmapSearch_searches (binary : target = 0 ∨ target = 1) (whole : bound % 32 = 0) :
    Searches map target bound (bitmapSearch map target bound) := by
  have test := bitmapGetbit_target binary map
  rcases @bitmapSearch_spec map target bound binary whole with
    ⟨result, none⟩ | ⟨o, small, result, here, before⟩
  · refine ⟨fun other => absurd result other, fun _ p low same => ?_, fun _ => result⟩
    exact none p low ((test p).mp same)
  · have found : bitmapGetbit map o = target := (test o).mpr here
    refine ⟨fun _ => ⟨o, result, ⟨small, found⟩, ?_⟩, fun lost => ?_, fun none => ?_⟩
    · rintro p ⟨_, same⟩
      by_contra early
      exact before p (Nat.lt_of_not_le early) ((test p).mp same)
    · rw [result] at lost
      omega
    · exact absurd found (none o small)

/-! One operation on the map. -/

/-- The file system after an update of the map that is written to the card. -/
def updated (target : Word) (offset : Int) (s : FileSystem) : FileSystem :=
  mapWritten 8 { s with inodeMap := bitmapModify s.inodeMap target offset }

theorem updated_mirrored : Mirrored (updated target offset s) := by
  intro k low
  have written : (updated target offset s).disk (mapAddress + k) =
      (updated target offset s).inodeMap (0 + k) := copy_inside low
  rwa [Nat.zero_add] at written

theorem bit_updated (binary : target = 0 ∨ target = 1) :
    bit (updated target offset s).inodeMap p =
      if p = place offset then decide (target = 1) else bit s.inodeMap p :=
  bit_modify binary offset

theorem mem_marked : o ∈ marked s ↔ o < inodeBound ∧ bit s.inodeMap o = true :=
  and_congr_right fun _ => bitmapGetbit_one s.inodeMap o

theorem marked_set (s : FileSystem) (offset : Int) (small : place offset < inodeBound) :
    marked (updated 1 offset s) = insert (place offset) (marked s) := by
  ext o
  simp only [mem_marked, bit_updated (.inr rfl), Set.mem_insert_iff]
  by_cases same : o = place offset
  · simp [same, small]
  · simp [same]

theorem marked_clear (s : FileSystem) (offset : Int) :
    marked (updated 0 offset s) = marked s \ {place offset} := by
  ext o
  simp only [mem_marked, bit_updated (.inl rfl), Set.mem_sdiff, Set.mem_singleton_iff]
  by_cases same : o = place offset
  · simp [same]
  · simp [same]

theorem run_modify (inside : 0 ≤ offset.tdiv 32 ∧ offset.tdiv 32 < 0x400) :
    run (do modifyInodeMap target offset; inodeMapWrite) s =
      some ((), updated target offset s) := by
  rw [modifyInodeMap, if_pos inside, run_then run_change, run_inodeMapWrite]
  rfl

theorem toInt_small (small : ino.toNat < inodeBound) : ino.toInt = ino.toNat := by
  simp only [inodeBound] at small
  rw [BitVec.toInt_eq_toNat_cond, if_pos (by omega)]

theorem natCast_inside (small : o < inodeBound) :
    0 ≤ (o : Int).tdiv 32 ∧ (o : Int).tdiv 32 < 0x400 := by
  simp only [inodeBound] at small
  rw [Int.tdiv_eq_ediv_of_nonneg (Int.natCast_nonneg o)]
  omega

theorem checkIno_iff : checkIno ino ↔ inodeBound ≤ ino.toNat := by
  have bound := ino.isLt
  simp only [checkIno, inodeBound, BitVec.toInt_eq_toNat_cond]
  split <;> omega

/-- `inode_free` refuses what is no number. -/
theorem run_inodeFree (ino : Word) (s : FileSystem) : run (inodeFree ino) s =
    some ((), if ino.toNat < inodeBound then updated 0 ino.toNat s else s) := by
  by_cases small : ino.toNat < inodeBound
  · have number : ¬checkIno ino := by rw [checkIno_iff]; omega
    rw [inodeFree, if_neg number, toInt_small small, if_pos small]
    exact run_modify (natCast_inside small)
  · have number : checkIno ino := by rw [checkIno_iff]; omega
    rw [inodeFree, if_pos number, if_neg small, run_pure]

/-! Sequences of operations. -/

inductive Request where
  | alloc
  | free (ino : Word)
  | delete (ino : Word)

/-- A file system, and the numbers that have been taken and not been given back. -/
structure Ledger where
  system : FileSystem
  taken : Set Nat

/-- One call. `inode_delete` gives back what its argument stands for, which is the argument
unless that is no number. -/
def Performs (l : Ledger) : Request → Ledger → Prop
  | .alloc, l' => ∃ i, run inodeAlloc l.system = some (i, l'.system) ∧
    l'.taken = if 0 ≤ i.toInt then insert i.toNat l.taken else l.taken
  | .free ino, l' => run (inodeFree ino) l.system = some ((), l'.system) ∧
    l'.taken = l.taken \ {ino.toNat}
  | .delete ino, l' => run (inodeDelete ino) l.system = some ((), l'.system) ∧
    l'.taken = l.taken \ {place ino.toInt}

/-- What `inode_alloc` is to do when `taken` is allocated and it returns `i`. -/
structure Allocates (s : FileSystem) (taken : Set Nat) (i : Word) (s' : FileSystem) : Prop where
  least : 0 ≤ i.toInt → IsLeast {o | o < inodeBound ∧ o ∉ taken} i.toNat
  marks : 0 ≤ i.toInt → marked s' = insert i.toNat taken
  full : i.toInt < 0 ↔ ∀ o < inodeBound, o ∈ taken
  unchanged : i.toInt < 0 → ∀ o, bit s'.inodeMap o = bit s.inodeMap o
  mirrored : Mirrored s'
  undone : ∃ u, run (inodeFree i) s' = some ((), u) ∧ Mirrored u ∧
    ∀ o, bit u.inodeMap o = bit s.inodeMap o

/-- A call that gives the number `o` back. -/
def Frees (taken : Set Nat) (o : Nat) (s' : FileSystem) : Prop :=
  marked s' = taken \ {o} ∧ Mirrored s'

/-- Without a free number the shift by -2 marks number 30, which is marked. -/
theorem updated_full (full : ∀ o < inodeBound, bit s.inodeMap o = true) (o : Nat) :
    bit (updated 1 (-2) s).inodeMap o = bit s.inodeMap o := by
  have thirty : place (-2) = 30 := by decide
  rw [bit_updated (.inr rfl), thirty]
  by_cases here : o = 30
  · rw [if_pos here, here, full 30 (by decide)]
    rfl
  · rw [if_neg here]

theorem lostIno_signed : lostIno.toInt = -2 := by decide

theorem allocates_full (full : ∀ o < inodeBound, bit s.inodeMap o = true) :
    Allocates s (marked s) lostIno (updated 1 (-2) s) := by
  have all : ∀ o < inodeBound, o ∈ marked s := fun o low => mem_marked.mpr ⟨low, full o low⟩
  constructor
  · intro positive
    rw [lostIno_signed] at positive
    omega
  · intro positive
    rw [lostIno_signed] at positive
    omega
  · exact ⟨fun _ => all, fun _ => by rw [lostIno_signed]; decide⟩
  · exact fun _ => updated_full full
  · exact updated_mirrored
  · refine ⟨_, run_inodeFree _ _, ?_⟩
    rw [if_neg (by decide)]
    exact ⟨updated_mirrored, updated_full full⟩

theorem toNat_number (small : o < inodeBound) : (BitVec.ofNat 32 o).toNat = o := by
  simp only [inodeBound] at small
  rw [BitVec.toNat_ofNat]
  omega

theorem allocates_least (small : o < inodeBound) (clear : bit s.inodeMap o = false)
    (before : ∀ p < o, bit s.inodeMap p = true) :
    Allocates s (marked s) (BitVec.ofNat 32 o) (updated 1 o s) := by
  have number := toNat_number small
  have signed : (BitVec.ofNat 32 o).toInt = o := by
    rw [toInt_small (by rwa [number]), number]
  have free : o ∉ marked s := by
    rw [mem_marked, clear]
    simp
  constructor
  · intro _
    rw [number]
    refine ⟨⟨small, free⟩, ?_⟩
    rintro p ⟨low, other⟩
    by_contra early
    exact other (mem_marked.mpr ⟨low, before p (Nat.lt_of_not_le early)⟩)
  · intro _
    have set := marked_set s o (by rwa [place_natCast])
    rw [number]
    rwa [place_natCast] at set
  · rw [signed]
    exact ⟨fun negative => by omega, fun all => absurd (all o small) free⟩
  · intro negative
    omega
  · exact updated_mirrored
  · refine ⟨_, run_inodeFree _ _, ?_⟩
    rw [number, if_pos small]
    refine ⟨updated_mirrored, fun p => ?_⟩
    rw [bit_updated (.inl rfl), bit_updated (.inr rfl), place_natCast]
    by_cases here : p = o
    · rw [if_pos here, here, clear]
      rfl
    · rw [if_neg here, if_neg here]

theorem inodeAlloc_allocates (s : FileSystem) :
    ∃ i s', run inodeAlloc s = some (i, s') ∧ Allocates s (marked s) i s' := by
  rcases @bitmapSearch_spec s.inodeMap 0 inodeBound (.inl rfl) (by decide) with
    ⟨result, none⟩ | ⟨o, small, result, clear, before⟩
  · have full : ∀ o < inodeBound, bit s.inodeMap o = true := fun o low => by
      simpa using none o low
    exact ⟨_, _, run_inodeAlloc_full full, allocates_full full⟩
  · exact ⟨_, _, run_inodeAlloc small result, allocates_least small (by simpa using clear)
      fun p early => by simpa using before p early⟩

theorem inodeFree_frees (mirrored : Mirrored s) (ino : Word) :
    ∃ s', run (inodeFree ino) s = some ((), s') ∧ Frees (marked s) ino.toNat s' := by
  refine ⟨_, run_inodeFree ino s, ?_⟩
  by_cases small : ino.toNat < inodeBound
  · rw [if_pos small, Frees, marked_clear, place_natCast]
    exact ⟨rfl, updated_mirrored⟩
  · have absent : ino.toNat ∉ marked s := fun member => small member.1
    rw [if_neg small, Frees, Set.sdiff_singleton_eq_self absent]
    exact ⟨rfl, mirrored⟩

theorem run_inodeDelete_any (ends : run (inodeDelete ino) s = some ((), s')) :
    s' = updated 0 ino.toInt s := by
  by_cases inside : 0 ≤ ino.toInt.tdiv 32 ∧ ino.toInt.tdiv 32 < 0x400
  · rw [inodeDelete, run_modify inside] at ends
    exact (congrArg Prod.snd (Option.some.inj ends)).symm
  · rw [inodeDelete, modifyInodeMap, if_neg inside] at ends
    cases ends

theorem inodeDelete_frees (small : ino.toNat < inodeBound) (s : FileSystem) :
    ∃ s', run (inodeDelete ino) s = some ((), s') ∧ Frees (marked s) ino.toNat s' := by
  refine ⟨_, run_inodeDelete small, ?_⟩
  have cleared := marked_clear s ino.toNat
  rw [place_natCast] at cleared
  exact ⟨cleared, updated_mirrored⟩

/-- The ledger is right: it lists the marks, and the card has the same map. -/
def Balanced (l : Ledger) : Prop := marked l.system = l.taken ∧ Mirrored l.system

theorem Performs.balanced {l l' : Ledger} {request : Request} (performs : Performs l request l')
    (balanced : Balanced l) : Balanced l' := by
  obtain ⟨marks, mirrored⟩ := balanced
  cases request with
  | alloc =>
    obtain ⟨i, ends, taken⟩ := performs
    obtain ⟨i', s', ends', allocates⟩ := inodeAlloc_allocates l.system
    cases ends.symm.trans ends'
    refine ⟨?_, allocates.mirrored⟩
    rw [taken, ← marks]
    split
    next positive => exact allocates.marks positive
    next negative =>
      ext o
      rw [mem_marked, mem_marked, allocates.unchanged (by omega) o]
  | free ino =>
    obtain ⟨ends, taken⟩ := performs
    obtain ⟨s', ends', frees⟩ := inodeFree_frees mirrored ino
    cases ends.symm.trans ends'
    exact ⟨by rw [taken, ← marks, frees.1], frees.2⟩
  | delete ino =>
    obtain ⟨ends, taken⟩ := performs
    have state := run_inodeDelete_any ends
    exact ⟨by rw [taken, ← marks, state, marked_clear], state ▸ updated_mirrored⟩

/-- The map is a set of numbers, whatever is taken and given back. -/
theorem inode_allocator :
    (∀ map target bound, target = 0 ∨ target = 1 → bound % 32 = 0 →
      Searches map target bound (bitmapSearch map target bound)) ∧
    (∀ (map : Buffer) (target : Word) (o p : Nat), target = 0 ∨ target = 1 →
      bitmapGetbit (bitmapModify map target o) p =
        if p = o then target else bitmapGetbit map p) ∧
    ∀ start s taken, Mirrored start →
      Reachable Performs (fun _ _ => True) ⟨start, marked start⟩ ⟨s, taken⟩ →
      Mirrored s ∧ (∃ i s', run inodeAlloc s = some (i, s') ∧ Allocates s taken i s') ∧
      ∀ ino : Word,
        (∃ s', run (inodeFree ino) s = some ((), s') ∧ Frees taken ino.toNat s') ∧
        (ino.toNat < inodeBound →
          ∃ s', run (inodeDelete ino) s = some ((), s') ∧ Frees taken ino.toNat s') := by
  refine ⟨fun map target bound binary whole => bitmapSearch_searches binary whole, ?_, ?_⟩
  · intro map target o p binary
    rw [bitmapGetbit_eq, place_natCast, bit_bitmapModify binary]
    by_cases here : p = o
    · rw [if_pos here, if_pos here]
      rcases binary with rfl | rfl <;> rfl
    · rw [if_neg here, if_neg here, bitmapGetbit_eq, place_natCast]
  · intro start s taken mirrored reach
    obtain ⟨marks, same⟩ := reach.invariant Balanced ⟨rfl, mirrored⟩
      fun l request l' balanced _ performs => performs.balanced balanced
    dsimp only at marks same
    rw [← marks]
    exact ⟨same, inodeAlloc_allocates s, fun ino => ⟨inodeFree_frees same ino,
      fun small => inodeDelete_frees small s⟩⟩

/-- The number that is taken when all before it are. -/
theorem Allocates.number {taken : Set Nat} (allocates : Allocates s taken i s')
    (small : o < inodeBound) (free : o ∉ taken) (before : ∀ p < o, p ∈ taken) :
    i.toNat = o ∧ 0 ≤ i.toInt := by
  have positive : 0 ≤ i.toInt := by
    by_contra negative
    exact free (allocates.full.mp (by omega) o small)
  obtain ⟨⟨_, fresh⟩, least⟩ := allocates.least positive
  refine ⟨Nat.le_antisymm (least ⟨small, free⟩) ?_, positive⟩
  by_contra earlier
  exact fresh (before _ (by omega))

theorem Balanced.alloc {taken : Set Nat} (balanced : Balanced ⟨s, taken⟩)
    (small : o < inodeBound) (free : o ∉ taken) (before : ∀ p < o, p ∈ taken) :
    ∃ s', Performs ⟨s, taken⟩ .alloc ⟨s', insert o taken⟩ := by
  obtain ⟨i, s', ends, allocates⟩ := inodeAlloc_allocates s
  have marks : marked s = taken := balanced.1
  rw [marks] at allocates
  obtain ⟨number, positive⟩ := allocates.number small free before
  refine ⟨s', i, ends, ?_⟩
  rw [if_pos positive, number]

/-- Two numbers are taken after mkfs, and the first of them is given back and taken again. -/
theorem inode_allocator_again : ∃ start s i s', Mirrored start ∧
    Reachable Performs (fun _ _ => True) ⟨start, marked start⟩ ⟨s, {2, 1, 0} \ {1}⟩ ∧
    run inodeAlloc s = some (i, s') ∧ Allocates s ({2, 1, 0} \ {1}) i s' ∧ i = 1 := by
  obtain ⟨start, _, formatted, _⟩ := run_doMakefs_format blankLocals blankSystem_blank
  have root : marked start = {0} := by
    ext o
    rw [mem_marked, Set.mem_singleton_iff]
    constructor
    · rintro ⟨small, marked⟩
      rw [formatted.marks o small] at marked
      exact of_decide_eq_true marked
    · rintro rfl
      exact ⟨by decide, formatted.marks 0 (by decide)⟩
  have balanced : Balanced ⟨start, {0}⟩ := ⟨root, formatted.map⟩
  obtain ⟨s₁, first⟩ := @Balanced.alloc start 1 {0} balanced (by decide) (by simp) (by simp)
  have balanced₁ := first.balanced balanced
  obtain ⟨s₂, second⟩ := @Balanced.alloc s₁ 2 {1, 0} balanced₁ (by decide) (by simp) (by
    intro p low
    simp only [Set.mem_insert_iff, Set.mem_singleton_iff]
    omega)
  have third : Performs ⟨s₂, {2, 1, 0}⟩ (.free 1) ⟨updated 0 1 s₂, {2, 1, 0} \ {1}⟩ :=
    ⟨run_inodeFree 1 s₂, rfl⟩
  have reach : Reachable Performs (fun _ _ => True) ⟨start, marked start⟩
      ⟨updated 0 1 s₂, {2, 1, 0} \ {1}⟩ := by
    rw [root]
    exact .step (.step (.step .start trivial first) trivial second) trivial third
  obtain ⟨_, ⟨i, s', ends, allocates⟩, _⟩ :=
    inode_allocator.2.2 start _ _ formatted.map reach
  have least := allocates.number (o := 1) (by decide) (by simp) (by simp)
  exact ⟨start, _, i, s', formatted.map, reach, ends, allocates,
    BitVec.eq_of_toNat_eq least.1⟩

end Tina.Files
