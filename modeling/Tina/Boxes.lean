import Mathlib.Algebra.Ring.Int.Defs
import Tina.Kernel
import Tina.Mailbox

/-! The table of mailboxes in `libs/mailbox.c`: opening by name, sharing, and reuse. A box that
nobody uses is called `$$$`, and a search by name finds it as well. -/
namespace Tina.Mbox

open ByteBuffer Transition

def maxNumBox : Nat := 32

/-- Observable actions, for stating properties of runs. -/
inductive BoxAct where
  | init
  | reset (i : Nat)
  | opened (i : Nat)
  | closed (i : Nat)
  deriving DecidableEq

/-- The static storage of the file. `history` is newest first, and no function reads it. -/
structure Boxes where
  mboxs : Nat → Mailbox
  mboxinit : Int
  history : List BoxAct

/-- The storage at the start of the system. -/
def zeroed : Boxes := ⟨fun _ => ⟨0, 0, fun _ => 0, 0, 0, 0, fun _ => 0, 0, 0⟩, 0, []⟩

def Boxes.set (i : Nat) (m : Mailbox) (b : Boxes) : Boxes :=
  { b with mboxs := Function.update b.mboxs i m }

def Boxes.record (a : BoxAct) (b : Boxes) : Boxes := { b with history := a :: b.history }

def mboxInit (b : Boxes) : Boxes :=
  { b with mboxs := fun i => oneInit i (b.mboxs i) }.record .init

/-- The first box with a property. -/
def search (found : Mailbox → Bool) (b : Boxes) : Option Nat :=
  (List.range maxNumBox).find? fun i => found (b.mboxs i)

/-- `mbox_create`, whose caller gets NULL when there is no free box. -/
def createBox (name : List Byte) (b : Boxes) : Option Nat × Boxes :=
  match search (fun m => m.refCount == 0 && strcmp m.name 0 unused == 0) b with
  | some i =>
    (some i, ((b.set i (mboxCreate i name (b.mboxs i))).record (.reset i)).record (.opened i))
  | none => (none, b)

/-- `mbox_destroy`; there are no boxes outside the table. -/
def mboxDestroy (i : Int) (b : Boxes) : Option Boxes :=
  if 0 ≤ i ∧ i < maxNumBox then
    some ((b.set i.toNat (oneInit i (b.mboxs i.toNat))).record (.reset i.toNat))
  else none

/-- The first call initialises the table. -/
def prepare (b : Boxes) : Boxes :=
  if b.mboxinit = 0 then { mboxInit b with mboxinit := b.mboxinit + 1 } else b

/-- What `tmp` holds of a name. -/
def shorten (name : CString) : List Byte := name.val.take 15

def mboxOpen (name : CString) (b : Boxes) : Option Nat × Boxes :=
  let b := prepare b
  let tmp := shorten name
  match search (fun m => strcmp m.name 0 tmp == 0) b with
  | some i =>
    let m := b.mboxs i
    (some i, (b.set i { m with refCount := int32 (m.refCount + 1) }).record (.opened i))
  | none => createBox tmp b

def mboxClose (i : Nat) (b : Boxes) : Option Boxes :=
  let m := b.mboxs i
  let m := { m with refCount := int32 (m.refCount - 1) }
  let b := (b.set i m).record (.closed i)
  if m.refCount = 0 then mboxDestroy m.boxid b else some b

/-- A program opens a box by its name, or closes one that is open. -/
inductive BoxEvent where
  | open (name : CString)
  | close (i : Nat)

def IsOpen (b : Boxes) (i : Nat) : Prop := i < maxNumBox ∧ 0 < (b.mboxs i).refCount

instance IsOpen.decidable (b : Boxes) (i : Nat) : Decidable (IsOpen b i) :=
  inferInstanceAs (Decidable (i < maxNumBox ∧ 0 < (b.mboxs i).refCount))

def useBox (event : BoxEvent) (b : Boxes) : Option Boxes :=
  match event with
  | .open name => some (mboxOpen name b).2
  | .close i => if IsOpen b i then mboxClose i b else none

def BoxStep (b : Boxes) (event : BoxEvent) (b' : Boxes) : Prop := useBox event b = some b'

/-- The opens that returned the box, less its closes, since it was last reset. -/
def outstanding (i : Nat) : List BoxAct → Int
  | [] | .init :: _ => 0
  | .reset j :: h => if j = i then 0 else outstanding i h
  | .opened j :: h => if j = i then outstanding i h + 1 else outstanding i h
  | .closed j :: h => if j = i then outstanding i h - 1 else outstanding i h

/-- The name of a box. -/
def Mailbox.text (m : Mailbox) : List Byte := cstring m.name 0 16

/-- What `one_init` leaves behind, the name and the count apart. -/
structure Mailbox.Empty (m : Mailbox) : Prop where
  wp : m.wp = 0
  rp : m.rp = 0
  rsem : m.rsem = 0
  wsem : m.wsem = bufferSize

/-- The table once it is initialised. -/
structure Ordered (b : Boxes) : Prop where
  ready : b.mboxinit ≠ 0
  boxid : ∀ i < maxNumBox, (b.mboxs i).boxid = i
  terminated : ∀ i < maxNumBox, Terminated (b.mboxs i).name 0 16
  count : ∀ i < maxNumBox, (b.mboxs i).refCount = outstanding i b.history
  nonneg : ∀ i < maxNumBox, 0 ≤ (b.mboxs i).refCount
  small : ∀ i < maxNumBox, (b.mboxs i).refCount < 2 ^ 31
  unique : ∀ i j, IsOpen b i → IsOpen b j → (b.mboxs i).text = (b.mboxs j).text → i = j
  free : ∀ i < maxNumBox, (b.mboxs i).refCount = 0 →
    (b.mboxs i).Empty ∧ (b.mboxs i).text = unused

/-- The table before the first call. -/
structure Blank (b : Boxes) : Prop where
  fresh : b.mboxinit = 0
  count : ∀ i, (b.mboxs i).refCount = 0
  history : b.history = []

/-- The count has room for one more open, and if the name is `$$$` no free box comes before. -/
def Shareable (b : Boxes) (name : CString) (i : Nat) : Prop :=
  (b.mboxs i).refCount < 2 ^ 31 - 1 ∧ (shorten name = unused → ∀ j < i, (b.mboxs j).refCount ≠ 0)

/-- The condition under which a name leads to one box. -/
def Leads (b : Boxes) (name : CString) : Prop :=
  ∀ i, IsOpen b i → (b.mboxs i).text = shorten name → Shareable b name i

/-- What an open is to do. -/
structure Opened (b : Boxes) (name : CString) (result : Option Nat) (b' : Boxes) : Prop where
  shared : ∀ i, IsOpen b i → (b.mboxs i).text = shorten name → result = some i ∧
    b'.mboxs i = { b.mboxs i with refCount := (b.mboxs i).refCount + 1 } ∧
    ∀ j ≠ i, b'.mboxs j = b.mboxs j
  fresh : (∀ i, IsOpen b i → (b.mboxs i).text ≠ shorten name) →
    (∃ i < maxNumBox, ¬IsOpen b i) → ∃ i < maxNumBox, ¬IsOpen b i ∧ (∀ j < i, IsOpen b j) ∧
      result = some i ∧ (b'.mboxs i).Empty ∧ (b'.mboxs i).text = shorten name ∧
      (b'.mboxs i).refCount = 1 ∧ ∀ j ≠ i, IsOpen b j → b'.mboxs j = b.mboxs j
  full : (∀ i, IsOpen b i → (b.mboxs i).text ≠ shorten name) →
    (∀ i < maxNumBox, IsOpen b i) → result = none ∧ b' = b

variable {b b' : Boxes} {i j : Nat} {m : Mailbox} {name : CString} {s : List Byte}

theorem search_some {found : Mailbox → Bool} : search found b = some i ↔
    found (b.mboxs i) = true ∧ i < maxNumBox ∧ ∀ j < i, found (b.mboxs j) = false := by
  simp only [search, List.find?_range_eq_some, List.mem_range, Bool.not_eq_true']

theorem search_none {found : Mailbox → Bool} : search found b = none ↔
    ∀ i < maxNumBox, found (b.mboxs i) = false := by
  simp only [search, List.find?_range_eq_none, Bool.not_eq_true']

theorem shorten_noNul (name : CString) : ∀ c ∈ shorten name, c ≠ 0 :=
  fun c member => name.property c (List.mem_of_mem_take member)

theorem shorten_short (name : CString) : (shorten name).length < 16 :=
  Nat.lt_succ_of_le (List.length_take_le 15 _)

theorem unused_noNul : ∀ c ∈ unused, c ≠ 0 := by decide

/-- What the two loops ask of a box. -/
theorem Ordered.called (ordered : Ordered b) (inside : i < maxNumBox) (noNul : ∀ c ∈ s, c ≠ 0) :
    (strcmp (b.mboxs i).name 0 s == 0) = true ↔ (b.mboxs i).text = s := by
  rw [beq_iff_eq, strcmp_eq_zero (ordered.terminated i inside) noNul, Mailbox.text]

theorem Ordered.open_iff (ordered : Ordered b) (inside : i < maxNumBox) :
    IsOpen b i ↔ (b.mboxs i).refCount ≠ 0 := by
  have nonneg := ordered.nonneg i inside
  rw [IsOpen]
  omega

theorem Ordered.closed (ordered : Ordered b) (inside : i < maxNumBox) (closed : ¬IsOpen b i) :
    (b.mboxs i).refCount = 0 := by
  rw [ordered.open_iff inside, not_not] at closed
  exact closed

theorem Ordered.unclaimed (ordered : Ordered b) (inside : i < maxNumBox) :
    ((b.mboxs i).refCount == 0 && strcmp (b.mboxs i).name 0 unused == 0) = true ↔ ¬IsOpen b i := by
  rw [Bool.and_eq_true, ordered.called inside unused_noNul, beq_iff_eq, ordered.open_iff inside,
    not_not]
  exact ⟨And.left, fun free => ⟨free, (ordered.free i inside free).2⟩⟩

/-- One box changes, with what is recorded about it. -/
theorem Ordered.edit (ordered : Ordered b) {h : List BoxAct} (boxid : m.boxid = i)
    (terminated : Terminated m.name 0 16) (nonneg : 0 ≤ m.refCount)
    (small : m.refCount < 2 ^ 31) (count : m.refCount = outstanding i h)
    (others : ∀ j ≠ i, outstanding j h = outstanding j b.history)
    (unique : 0 < m.refCount → ∀ j ≠ i, IsOpen b j → (b.mboxs j).text ≠ m.text)
    (free : m.refCount = 0 → m.Empty ∧ m.text = unused) :
    Ordered { b.set i m with history := h } := by
  have here : (b.set i m).mboxs i = m := Function.update_self _ _ _
  have there : ∀ j, j ≠ i → (b.set i m).mboxs j = b.mboxs j :=
    fun j other => Function.update_of_ne other _ _
  have each (P : Nat → Mailbox → Prop) (new : P i m) (old : ∀ j < maxNumBox, P j (b.mboxs j)) :
      ∀ j < maxNumBox, P j ((b.set i m).mboxs j) := by
    intro j low
    by_cases same : j = i
    · rw [same, here]
      exact new
    · rw [there j same]
      exact old j low
  constructor
  · exact ordered.ready
  · exact each (fun j m => m.boxid = j) boxid ordered.boxid
  · exact each (fun _ m => Terminated m.name 0 16) terminated ordered.terminated
  · intro j low
    by_cases same : j = i
    · rw [same]
      exact (congrArg Mailbox.refCount here).trans count
    · refine (congrArg Mailbox.refCount (there j same)).trans ?_
      exact (ordered.count j low).trans (others j same).symm
  · exact each (fun _ m => 0 ≤ m.refCount) nonneg ordered.nonneg
  · exact each (fun _ m => m.refCount < 2 ^ 31) small ordered.small
  · rintro j k ⟨lowJ, openJ⟩ ⟨lowK, openK⟩ text
    change 0 < ((b.set i m).mboxs j).refCount at openJ
    change 0 < ((b.set i m).mboxs k).refCount at openK
    change ((b.set i m).mboxs j).text = ((b.set i m).mboxs k).text at text
    by_cases sameJ : j = i <;> by_cases sameK : k = i
    · rw [sameJ, sameK]
    · rw [sameJ, here] at openJ text
      rw [there k sameK] at openK text
      exact absurd text.symm (unique openJ k sameK ⟨lowK, openK⟩)
    · rw [sameK, here] at openK text
      rw [there j sameJ] at openJ text
      exact absurd text (unique openK j sameJ ⟨lowJ, openJ⟩)
    · rw [there j sameJ] at openJ text
      rw [there k sameK] at openK text
      exact ordered.unique j k ⟨lowJ, openJ⟩ ⟨lowK, openK⟩ text
  · exact each (fun _ m => m.refCount = 0 → m.Empty ∧ m.text = unused) free ordered.free

theorem prepare_ordered (ordered : Ordered b) : prepare b = b := if_neg ordered.ready

theorem oneInit_empty {n : Int} : (oneInit n m).Empty ∧ (oneInit n m).text = unused :=
  ⟨⟨rfl, rfl, rfl, rfl⟩, cstring_strcpy (by decide) unused_noNul⟩

theorem mboxCreate_empty {n : Int} : (mboxCreate n s m).Empty := ⟨rfl, rfl, rfl, rfl⟩

theorem mboxCreate_text {n : Int} : (mboxCreate n (shorten name) m).text = shorten name :=
  cstring_strcpy (shorten_short name) (shorten_noNul name)

theorem Blank.ordered (blank : Blank b) : Ordered (prepare b) := by
  have one : (prepare b) = { mboxInit b with mboxinit := b.mboxinit + 1 } := if_pos blank.fresh
  rw [one]
  constructor
  · change b.mboxinit + 1 ≠ 0
    rw [blank.fresh]
    decide
  · exact fun _ _ => rfl
  · exact fun _ _ => strcpy_terminated (by decide)
  · exact fun _ _ => rfl
  · exact fun _ _ => Int.le_refl 0
  · exact fun _ _ => (by decide : (0 : Int) < 2 ^ 31)
  · exact fun i j first => absurd first.2 (Int.lt_irrefl 0)
  · exact fun _ _ _ => oneInit_empty

/-- One more open of a box. -/
def shareBox (i : Nat) (b : Boxes) : Boxes :=
  (b.set i { b.mboxs i with refCount := int32 ((b.mboxs i).refCount + 1) }).record (.opened i)

/-- The first open of a free box. -/
def claimBox (i : Nat) (name : List Byte) (b : Boxes) : Boxes :=
  ((b.set i (mboxCreate i name (b.mboxs i))).record (.reset i)).record (.opened i)

/-- An open finds the first box of the name, or else the first free box, or none. -/
theorem mboxOpen_cases (ordered : Ordered b) (name : CString) :
    (∃ i < maxNumBox, (b.mboxs i).text = shorten name ∧
      (∀ j < i, (b.mboxs j).text ≠ shorten name) ∧ mboxOpen name b = (some i, shareBox i b)) ∨
    (∀ i < maxNumBox, (b.mboxs i).text ≠ shorten name) ∧
      ((∃ i < maxNumBox, ¬IsOpen b i ∧ (∀ j < i, IsOpen b j) ∧
        mboxOpen name b = (some i, claimBox i (shorten name) b)) ∨
      (∀ i < maxNumBox, IsOpen b i) ∧ mboxOpen name b = (none, b)) := by
  have named {i : Nat} (inside : i < maxNumBox) := ordered.called inside (shorten_noNul name)
  simp only [mboxOpen, prepare_ordered ordered]
  cases byName : search (fun m => strcmp m.name 0 (shorten name) == 0) b with
  | some i =>
    obtain ⟨here, inside, before⟩ := search_some.mp byName
    refine .inl ⟨i, inside, (named inside).mp here, fun j earlier same => ?_, rfl⟩
    have none := before j earlier
    rw [(named (by omega)).mpr same] at none
    cases none
  | none =>
    refine .inr ⟨fun i inside same => ?_, ?_⟩
    · have none := search_none.mp byName i inside
      rw [(named inside).mpr same] at none
      cases none
    · simp only [createBox]
      cases free : search (fun m => m.refCount == 0 && strcmp m.name 0 unused == 0) b with
      | some i =>
        obtain ⟨here, inside, before⟩ := search_some.mp free
        refine .inl ⟨i, inside, (ordered.unclaimed inside).mp here, fun j earlier => ?_, rfl⟩
        by_contra closed
        have taken := before j earlier
        rw [(ordered.unclaimed (by omega)).mpr closed] at taken
        cases taken
      | none =>
        refine .inr ⟨fun i inside => ?_, rfl⟩
        by_contra closed
        have taken := search_none.mp free i inside
        rw [(ordered.unclaimed inside).mpr closed] at taken
        cases taken

theorem Ordered.share (ordered : Ordered b) (inside : i < maxNumBox)
    (named : (b.mboxs i).text = shorten name) (first : ∀ j < i, (b.mboxs j).text ≠ shorten name)
    (leads : Leads b name) : Ordered (shareBox i b) := by
  have nonneg := ordered.nonneg i inside
  have room : (b.mboxs i).refCount < 2 ^ 31 - 1 := by
    by_cases isOpen : IsOpen b i
    · exact (leads i isOpen named).1
    · rw [IsOpen] at isOpen
      omega
  have next : int32 ((b.mboxs i).refCount + 1) = (b.mboxs i).refCount + 1 :=
    int32_of_lt (by omega) (by omega)
  refine ordered.edit (ordered.boxid i inside) (ordered.terminated i inside) ?_ ?_ ?_ ?_ ?_ ?_
  · change 0 ≤ int32 _
    omega
  · change int32 _ < 2 ^ 31
    omega
  · change int32 _ = outstanding i (.opened i :: b.history)
    rw [outstanding, if_pos rfl, next, ordered.count i inside]
  · intro j other
    change outstanding j (.opened i :: b.history) = _
    rw [outstanding, if_neg other.symm]
  · intro _ j other openJ same
    have same : (b.mboxs j).text = (b.mboxs i).text := same
    by_cases isOpen : IsOpen b i
    · exact other (ordered.unique j i openJ isOpen same)
    · -- a free box of this name comes first, which only happens for the reserved name
      have zero := ordered.closed inside isOpen
      have reserved : shorten name = unused := named ▸ (ordered.free i inside zero).2
      have later : i < j := by
        by_contra before
        exact first j (by omega) (same.trans named)
      exact (leads j openJ (same.trans named)).2 reserved i later zero
  · intro zero
    change int32 _ = 0 at zero
    omega

theorem Ordered.claim (ordered : Ordered b)
    (none : ∀ j < maxNumBox, (b.mboxs j).text ≠ shorten name) :
    Ordered (claimBox i (shorten name) b) := by
  have one : (mboxCreate i (shorten name) (b.mboxs i)).refCount = 1 := rfl
  refine ordered.edit rfl (strcpy_terminated (shorten_short name)) (by rw [one]; decide)
    (by rw [one]; decide) ?_ ?_ ?_ nofun
  · change 1 = outstanding i (.opened i :: .reset i :: b.history)
    rw [outstanding, if_pos rfl, outstanding, if_pos rfl]
    rfl
  · intro j other
    change outstanding j (.opened i :: .reset i :: b.history) = _
    rw [outstanding, if_neg other.symm, outstanding, if_neg other.symm]
  · intro _ j _ openJ same
    exact none j openJ.1 (same.trans mboxCreate_text)

theorem Ordered.open (ordered : Ordered b) (leads : Leads b name) :
    Ordered (mboxOpen name b).2 := by
  obtain ⟨i, inside, named, first, result⟩ | ⟨none, ⟨i, inside, _, _, result⟩ | ⟨_, result⟩⟩ :=
    mboxOpen_cases ordered name
  · rw [result]
    exact ordered.share inside named first leads
  · rw [result]
    exact ordered.claim none
  · rw [result]
    exact ordered

/-- The last close resets the box; its record comes before that of the reset. -/
theorem mboxClose_last (ordered : Ordered b) (inside : i < maxNumBox)
    (last : (b.mboxs i).refCount = 1) : ∃ b', mboxClose i b = some b' ∧ Ordered b' ∧
      (b'.mboxs i).refCount = 0 ∧ (∀ j ≠ i, b'.mboxs j = b.mboxs j) ∧
      (b'.mboxs i).Empty ∧ (b'.mboxs i).text = unused := by
  have here (m : Mailbox) : (b.set i m).mboxs i = m := Function.update_self _ _ _
  have result : mboxClose i b = some (((b.set i (oneInit i { b.mboxs i with refCount := 0 })).record
      (.closed i)).record (.reset i)) := by
    have zero : int32 ((b.mboxs i).refCount - 1) = 0 := by
      rw [last]
      rfl
    have index : 0 ≤ (i : Int) ∧ (i : Int) < maxNumBox := by omega
    simp only [mboxClose, zero, if_true, mboxDestroy, if_pos index, ordered.boxid i inside,
      Int.toNat_natCast, Boxes.set, Boxes.record, Function.update_self, Function.update_idem]
  refine ⟨_, result, ?_, congrArg Mailbox.refCount (here _),
    fun j other => Function.update_of_ne other _ _, ?_⟩
  · refine ordered.edit rfl (strcpy_terminated (by decide)) (Int.le_refl 0)
      (by decide : (0 : Int) < 2 ^ 31) ?_ ?_ (fun more => absurd more (Int.lt_irrefl 0))
      fun _ => oneInit_empty
    · change 0 = outstanding i (.reset i :: .closed i :: b.history)
      rw [outstanding, if_pos rfl]
    · intro j other
      change outstanding j (.reset i :: .closed i :: b.history) = _
      rw [outstanding, if_neg other.symm, outstanding, if_neg other.symm]
  · change ((b.set i _).mboxs i).Empty ∧ ((b.set i _).mboxs i).text = unused
    rw [here]
    exact oneInit_empty

theorem mboxClose_more (ordered : Ordered b) (isOpen : IsOpen b i)
    (more : (b.mboxs i).refCount ≠ 1) : ∃ b', mboxClose i b = some b' ∧ Ordered b' ∧
      b'.mboxs i = { b.mboxs i with refCount := (b.mboxs i).refCount - 1 } ∧
      ∀ j ≠ i, b'.mboxs j = b.mboxs j := by
  obtain ⟨inside, positive⟩ := isOpen
  have small := ordered.small i inside
  have less : int32 ((b.mboxs i).refCount - 1) = (b.mboxs i).refCount - 1 :=
    int32_of_lt (by omega) (by omega)
  have result : mboxClose i b = some ((b.set i
      { b.mboxs i with refCount := (b.mboxs i).refCount - 1 }).record (.closed i)) := by
    have left : (b.mboxs i).refCount - 1 ≠ 0 := by omega
    simp only [mboxClose, less, if_neg left]
  refine ⟨_, result, ?_, Function.update_self _ _ _, fun j other => Function.update_of_ne other _ _⟩
  refine ordered.edit (ordered.boxid i inside) (ordered.terminated i inside) ?_ ?_ ?_ ?_ ?_ ?_
  · change 0 ≤ _ - 1
    omega
  · change _ - 1 < _
    omega
  · change _ = outstanding i (.closed i :: b.history)
    rw [outstanding, if_pos rfl, ordered.count i inside]
  · intro j other
    change outstanding j (.closed i :: b.history) = _
    rw [outstanding, if_neg other.symm]
  · intro _ j other openJ same
    exact other (ordered.unique j i openJ ⟨inside, positive⟩ same)
  · intro zero
    change _ - 1 = 0 at zero
    omega

theorem mboxClose_spec (ordered : Ordered b) (isOpen : IsOpen b i) :
    ∃ b', mboxClose i b = some b' ∧ Ordered b' ∧ (b'.mboxs i).refCount = (b.mboxs i).refCount - 1 ∧
      (∀ j ≠ i, b'.mboxs j = b.mboxs j) ∧
      ((b.mboxs i).refCount = 1 → (b'.mboxs i).Empty ∧ (b'.mboxs i).text = unused) ∧
      ((b.mboxs i).refCount ≠ 1 → b'.mboxs i =
        { b.mboxs i with refCount := (b.mboxs i).refCount - 1 }) := by
  by_cases last : (b.mboxs i).refCount = 1
  · obtain ⟨b', result, ordered', zero, others, empty⟩ := mboxClose_last ordered isOpen.1 last
    refine ⟨b', result, ordered', ?_, others, fun _ => empty, fun more => absurd last more⟩
    rw [zero, last]
    rfl
  · obtain ⟨b', result, ordered', here, others⟩ := mboxClose_more ordered isOpen last
    exact ⟨b', result, ordered', congrArg Mailbox.refCount here, others,
      fun one => absurd one last, fun _ => here⟩

theorem Leads.opened (ordered : Ordered b) (leads : Leads b name) :
    Opened b name (mboxOpen name b).1 (mboxOpen name b).2 := by
  have called (i : Nat) (zero : ¬IsOpen b i) (inside : i < maxNumBox) :
      (b.mboxs i).text = unused := (ordered.free i inside (ordered.closed inside zero)).2
  obtain ⟨i, inside, named, first, result⟩ | ⟨none, ⟨i, inside, free, before, result⟩ | ⟨all, result⟩⟩ :=
    mboxOpen_cases ordered name
  · have here : (shareBox i b).mboxs i = _ := Function.update_self _ _ _
    have there : ∀ j, j ≠ i → (shareBox i b).mboxs j = b.mboxs j :=
      fun j other => Function.update_of_ne other _ _
    have nonneg := ordered.nonneg i inside
    rw [result]
    constructor
    · intro j openJ namedJ
      have same : i = j := by
        by_cases isOpen : IsOpen b i
        · exact ordered.unique i j isOpen openJ (named.trans namedJ.symm)
        · by_contra other
          have later : i < j := by
            by_contra before
            exact first j (by omega) namedJ
          exact (leads j openJ namedJ).2 (named ▸ called i isOpen inside) i later
            (ordered.closed inside isOpen)
      subst same
      have room := (leads i openJ namedJ).1
      refine ⟨rfl, ?_, there⟩
      rw [here, int32_of_lt (by omega) (by omega)]
    · intro alone _
      have closed : ¬IsOpen b i := fun isOpen => alone i isOpen named
      have zero := ordered.closed inside closed
      have empty := (ordered.free i inside zero).1
      refine ⟨i, inside, closed, fun j earlier => ?_, rfl, ?_, ?_, ?_, fun j other _ => there j other⟩
      · by_contra closedJ
        refine first j earlier ?_
        rw [← named, called i closed inside, called j closedJ (by omega)]
      · rw [here]
        exact ⟨empty.wp, empty.rp, empty.rsem, empty.wsem⟩
      · rw [here]
        exact named
      · rw [here, zero]
        rfl
    · intro alone all
      exact absurd named (alone i (all i inside))
  · have here : (claimBox i (shorten name) b).mboxs i = _ := Function.update_self _ _ _
    have there : ∀ j, j ≠ i → (claimBox i (shorten name) b).mboxs j = b.mboxs j :=
      fun j other => Function.update_of_ne other _ _
    rw [result]
    constructor
    · exact fun j openJ namedJ => absurd namedJ (none j openJ.1)
    · intro _ _
      refine ⟨i, inside, free, before, rfl, ?_, ?_, ?_, fun j other _ => there j other⟩
      · rw [here]
        exact mboxCreate_empty
      · rw [here]
        exact mboxCreate_text
      · rw [here]
        rfl
    · exact fun _ all => absurd (all i inside) free
  · rw [result]
    refine ⟨fun j openJ namedJ => absurd namedJ (none j openJ.1), fun _ ⟨i, inside, free⟩ => ?_,
      fun _ _ => ⟨rfl, rfl⟩⟩
    exact absurd (all i inside) free

theorem Opened.leads (ordered : Ordered b)
    (opened : Opened b name (mboxOpen name b).1 (mboxOpen name b).2) : Leads b name := by
  intro j openJ namedJ
  obtain ⟨found, counted, _⟩ := opened.shared j openJ namedJ
  obtain ⟨i, inside, named, first, result⟩ | ⟨none, _⟩ := mboxOpen_cases ordered name
  · rw [result] at found counted
    obtain rfl := Option.some.inj found
    have small := ordered.small i inside
    have here : (shareBox i b).mboxs i = _ := Function.update_self _ _ _
    rw [here] at counted
    have count := congrArg Mailbox.refCount counted
    change int32 ((b.mboxs i).refCount + 1) = (b.mboxs i).refCount + 1 at count
    refine ⟨?_, fun reserved j earlier zero => ?_⟩
    · have range := Int.bmod_lt (x := (b.mboxs i).refCount + 1) (m := 2 ^ 32) (by decide)
      rw [int32] at count
      omega
    · refine first j earlier ?_
      rw [reserved]
      exact (ordered.free j (by omega) zero).2
  · exact absurd namedJ (none j openJ.1)

/-- What holds of the table at any time. -/
structure Tidy (b : Boxes) : Prop where
  count : ∀ i < maxNumBox, (b.mboxs i).refCount = outstanding i b.history ∧ 0 ≤ (b.mboxs i).refCount
  unique : ∀ i j, IsOpen b i → IsOpen b j → (b.mboxs i).text = (b.mboxs j).text → i = j
  close : ∀ i, IsOpen b i → ∃ b', mboxClose i b = some b' ∧
    (b'.mboxs i).refCount = (b.mboxs i).refCount - 1 ∧ (∀ j ≠ i, b'.mboxs j = b.mboxs j) ∧
    ((b.mboxs i).refCount = 1 → (b'.mboxs i).Empty ∧ (b'.mboxs i).text = unused)

theorem Ordered.tidy (ordered : Ordered b) : Tidy b where
  count i inside := ⟨ordered.count i inside, ordered.nonneg i inside⟩
  unique := ordered.unique
  close i isOpen := by
    obtain ⟨b', result, _, count, others, last, _⟩ := mboxClose_spec ordered isOpen
    exact ⟨b', result, count, others, last⟩

theorem Blank.closed (blank : Blank b) (i : Nat) : ¬IsOpen b i := by
  rintro ⟨_, positive⟩
  rw [blank.count i] at positive
  exact absurd positive (Int.lt_irrefl 0)

theorem Blank.tidy (blank : Blank b) : Tidy b where
  count i _ := by
    rw [blank.count i, blank.history]
    exact ⟨rfl, Int.le_refl 0⟩
  unique i _ isOpen := absurd isOpen (blank.closed i)
  close i isOpen := absurd isOpen (blank.closed i)

/-- The first call prepares the table and goes on as any other. -/
theorem Blank.mboxOpen_prepare (blank : Blank b) : mboxOpen name (prepare b) = mboxOpen name b := by
  simp only [mboxOpen, prepare_ordered blank.ordered]

theorem Blank.none_open (blank : Blank b) (i : Nat) : ¬IsOpen (prepare b) i := by
  have count : ((prepare b).mboxs i).refCount = 0 := by
    rw [prepare, if_pos blank.fresh]
    rfl
  rintro ⟨_, positive⟩
  rw [count] at positive
  exact absurd positive (Int.lt_irrefl 0)

theorem Blank.opened (blank : Blank b) :
    Opened b name (mboxOpen name b).1 (mboxOpen name b).2 := by
  have prepared : Leads (prepare b) name := fun i isOpen => absurd isOpen (blank.none_open i)
  have opened := prepared.opened blank.ordered
  rw [blank.mboxOpen_prepare] at opened
  refine ⟨fun i isOpen => absurd isOpen (blank.closed i), fun _ _ => ?_,
    fun _ all => absurd (all 0 (by decide)) (blank.closed 0)⟩
  obtain ⟨i, inside, _, before, rest⟩ := opened.fresh
    (fun i isOpen => absurd isOpen (blank.none_open i)) ⟨0, by decide, blank.none_open 0⟩
  obtain ⟨result, empty, text, count, _⟩ := rest
  refine ⟨i, inside, blank.closed i, fun j earlier => ?_, result, empty, text, count,
    fun j _ isOpen => absurd isOpen (blank.closed j)⟩
  exact absurd (before j earlier) (blank.none_open j)

/-- Every open leads to one box. -/
def Shares (b : Boxes) : BoxEvent → Prop
  | .open name => Leads b name
  | _ => True

theorem Ordered.step {event : BoxEvent} (ordered : Ordered b) (shares : Shares b event)
    (step : BoxStep b event b') : Ordered b' := by
  cases event with
  | «open» name =>
    obtain rfl := Option.some.inj step
    exact ordered.open shares
  | close i =>
    simp only [BoxStep, useBox] at step
    split at step
    next isOpen =>
      obtain ⟨b₁, result, ordered', _⟩ := mboxClose_spec ordered isOpen
      rw [result] at step
      exact Option.some.inj step ▸ ordered'
    · cases step

theorem Blank.step {event : BoxEvent} (blank : Blank b) (step : BoxStep b event b') : Ordered b' := by
  cases event with
  | «open» name =>
    obtain rfl := Option.some.inj step
    rw [← blank.mboxOpen_prepare]
    exact blank.ordered.open fun i isOpen => absurd isOpen (blank.none_open i)
  | close i =>
    simp only [BoxStep, useBox, if_neg (blank.closed _)] at step
    cases step

/-- Names and counts are right as long as every open leads to one box, and an open does what it
is to do exactly then. -/
theorem reachable_tidy (reach : Reachable BoxStep Shares zeroed b) : Tidy b ∧ ∀ name,
    Opened b name (mboxOpen name b).1 (mboxOpen name b).2 ↔ Leads b name := by
  have invariant : Blank b ∨ Ordered b := by
    refine reach.invariant (fun b => Blank b ∨ Ordered b) (.inl ⟨rfl, fun _ => rfl, rfl⟩) ?_
    rintro b event b' (blank | ordered) shares step
    · exact .inr (blank.step step)
    · exact .inr (ordered.step shares step)
  rcases invariant with blank | ordered
  · exact ⟨blank.tidy, fun name => ⟨fun _ i isOpen => absurd isOpen (blank.closed i),
      fun _ => blank.opened⟩⟩
  · exact ⟨ordered.tidy, fun name => ⟨fun opened => opened.leads ordered,
      fun leads => leads.opened ordered⟩⟩

instance Shareable.decidable (b : Boxes) (name : CString) (i : Nat) :
    Decidable (Shareable b name i) := by
  unfold Shareable
  infer_instance

instance Leads.decidable (b : Boxes) (name : CString) : Decidable (Leads b name) :=
  decidable_of_iff (∀ i < maxNumBox, IsOpen b i → (b.mboxs i).text = shorten name →
    Shareable b name i) ⟨fun all i isOpen => all i isOpen.1 isOpen, fun all i _ => all i⟩

instance Shares.decidable (b : Boxes) (event : BoxEvent) : Decidable (Shares b event) := by
  cases event <;> simp only [Shares] <;> infer_instance

theorem boxA_noNul : ∀ c ∈ [(0x61 : Byte)], c ≠ 0 := by decide

def boxA : CString := ⟨[0x61], boxA_noNul⟩
def reserved : CString := ⟨unused, unused_noNul⟩

/-- A box is opened twice and closed twice; its slot is then used again. -/
theorem reachable_tidy_shared : ∃ b, Reachable BoxStep Shares zeroed b ∧ (Tidy b ∧ ∀ name,
    Opened b name (mboxOpen name b).1 (mboxOpen name b).2 ↔ Leads b name) ∧
    (b.mboxs 0).text = unused ∧ (b.mboxs 0).refCount = 1 := by
  obtain ⟨b, run, text, count⟩ : ∃ b, runChecked useBox Shares
      [.open boxA, .open boxA, .close 0, .close 0, .open reserved] zeroed = some b ∧
      (b.mboxs 0).text = unused ∧ (b.mboxs 0).refCount = 1 := ⟨_, rfl, rfl, rfl⟩
  have reach : Reachable BoxStep Shares zeroed b := runChecked_reachable _ .start run
  exact ⟨b, reach, reachable_tidy reach, text, count⟩

/-- Two open boxes of one name: the second open of `$$$` finds the box that the close has
freed. -/
theorem reserved_name_twice : ∃ b, Reachable BoxStep (fun _ _ => True) zeroed b ∧
    IsOpen b 0 ∧ IsOpen b 1 ∧ (b.mboxs 0).text = (b.mboxs 1).text ∧ ¬Tidy b := by
  obtain ⟨b, run, first, second, same⟩ : ∃ b, runChecked useBox (fun _ _ => True)
      [.open boxA, .open reserved, .close 0, .open reserved] zeroed = some b ∧
      (b.mboxs 0).refCount = 1 ∧ (b.mboxs 1).refCount = 1 ∧
      (b.mboxs 0).text = (b.mboxs 1).text := ⟨_, rfl, rfl, rfl, rfl⟩
  have reach : Reachable BoxStep (fun _ _ => True) zeroed b := runChecked_reachable _ .start run
  have openFirst : IsOpen b 0 := ⟨by decide, by omega⟩
  have openSecond : IsOpen b 1 := ⟨by decide, by omega⟩
  refine ⟨b, reach, openFirst, openSecond, same, fun tidy => ?_⟩
  exact absurd (tidy.unique 0 1 openFirst openSecond same) (by decide)

end Tina.Mbox
