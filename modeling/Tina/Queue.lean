import Tina.LinkedQueue

/-! The untyped queue of `kernel/sched/queue.c`. Every item is reached through
`item_t = pcb_t`, so the same code links processes and mutexes; `pcb` below is the
address of the process array, which `queueRemove` dereferences. -/
namespace Tina

open LinkedQueue LinkedQueue.Links

variable {ι κ : Type} [DecidableEq ι] [DecidableEq κ]

def queueInit (q : κ) (h : Links ι κ) : Links ι κ := (h.setHead q none).setTail q none

def queueIsEmpty (q : κ) (h : Links ι κ) : Bool := (h.head q).isNone

def queuePush (q : κ) (item : ι) (h : Links ι κ) : Links ι κ :=
  if h.head q = none then
    (((h.setHead q (some item)).setTail q (some item)).setNext (some item) none).setPrev
      (some item) none
  else
    let h := (h.setNext (h.tail q) (some item)).setNext (some item) none
    (h.setPrev (some item) (h.tail q)).setTail q (some item)

def queueDequeue (q : κ) (h : Links ι κ) : Option ι × Links ι κ :=
  match h.head q with
  | none => (none, h)
  | some temp =>
    let h :=
      if h.next temp = none then (h.setHead q none).setTail q none
      else
        let h := h.setHead q (h.next temp)
        h.setPrev (h.head q) none
    (some temp, (h.setPrev (some temp) none).setNext (some temp) none)

/-- The last branch unlinks an inner item. It repairs the predecessor, but the
successor it repairs is that of the process array, not that of the item. -/
def queueRemove (pcb : ι) (q : κ) (item : ι) (h : Links ι κ) : Option ι × Links ι κ :=
  let next := h.next item
  let h :=
    if h.head q = some item ∧ h.tail q = some item then (h.setHead q none).setTail q none
    else if h.head q = some item then
      let h := h.setHead q (h.next item)
      h.setPrev (h.head q) none
    else if h.tail q = some item then
      let h := h.setTail q (h.prev item)
      h.setNext (h.tail q) none
    else
      let h := h.setNext (h.prev item) (h.next item)
      h.setPrev (h.next pcb) (h.prev item)
  (next, (h.setPrev (some item) none).setNext (some item) none)

def queueHasFrom (q : κ) (item : ι) (h : Links ι κ) : Nat → Option ι → Option Bool
  | 0, _ => none
  | fuel + 1, iterator =>
    if iterator = h.tail q then some (iterator == some item)
    else match iterator with
      | none => some false
      | some y => if y = item then some true else queueHasFrom q item h fuel (h.next y)

def queueHas (fuel : Nat) (q : κ) (item : ι) (h : Links ι κ) : Option Bool :=
  queueHasFrom q item h fuel (h.head q)

variable {h : Links ι κ} {L : κ → List ι} {q : κ} {x : ι} {l : List ι}

omit [DecidableEq ι] in
theorem queueInit_spells (s : h.Spells L) (empty : L q = []) : (queueInit q h).Spells L := by
  have same := s.edit (g := queueInit q h) q []
    (by intro r other; simp [queueInit, other]) (by intro r other; simp [queueInit, other])
    (by simp [queueInit]) (by simp [queueInit]) (by simp [queueInit]) trivial List.nodup_nil (by simp)
  rwa [← empty, Function.update_eq_self] at same

omit [DecidableEq ι] [DecidableEq κ] in
theorem queueIsEmpty_spells (s : h.Spells L) : queueIsEmpty q h = (L q).isEmpty := by
  rw [queueIsEmpty, s.head]
  cases L q <;> rfl

theorem queuePush_spells (s : h.Spells L) (fresh : ∀ r, x ∉ L r) :
    (queuePush q x h).Spells (Function.update L q (L q ++ [x])) := by
  have nodup : (L q ++ [x]).Nodup := by
    simpa [List.nodup_append] using ⟨s.nodup q, fun a member same => fresh q (same ▸ member)⟩
  have settled : ∀ y ∈ L q ++ [x], y ∈ L q ∨ ∀ r, y ∉ L r := by
    intro y member
    rcases List.mem_append.mp member with old | new
    · exact Or.inl old
    · exact Or.inr (List.mem_singleton.mp new ▸ fresh)
  by_cases empty : L q = []
  · have noHead : h.head q = none := s.head_nil.mpr empty
    refine s.edit q _ ?_ ?_ ?_ ?_ ?_ ?_ nodup settled
    · intro r other; simp [queuePush, noHead, other]
    · intro r other; simp [queuePush, noHead, other]
    · intro r other y member
      have away : y ≠ x := fun same => fresh r (same ▸ member)
      simp [queuePush, noHead, away]
    · simp [queuePush, noHead, empty]
    · simp [queuePush, noHead]
    · simp [queuePush, noHead, empty, Seg]
  · obtain ⟨l, t, split⟩ := List.eq_nil_or_concat (L q) |>.resolve_left empty
    rw [List.concat_eq_append] at split
    have someHead : h.head q ≠ none := fun none => empty (s.head_nil.mp none)
    have atTail : h.tail q = some t := by simp [s.tail, split]
    have inside : t ∈ L q := by simp [split]
    have apart : t ≠ x := fun same => fresh q (same ▸ inside)
    have seg := s.seg q
    rw [split, seg_append] at seg
    have distinct := s.nodup q
    rw [split] at distinct
    refine s.edit q _ ?_ ?_ ?_ ?_ ?_ ?_ nodup settled
    · intro r other; simp [queuePush, someHead]
    · intro r other; simp [queuePush, someHead, other]
    · intro r other y member
      have away : y ≠ x := fun same => fresh r (same ▸ member)
      have awayTail : y ≠ t := fun same => other (s.apart r q y member (same ▸ inside))
      simp [queuePush, someHead, atTail, away, awayTail]
    · simp [queuePush, s.head, split]
    · simp [queuePush, someHead]
    · rw [split, List.append_assoc, seg_append]
      constructor
      · refine seg.1.congr ?_
        intro y member
        have away : y ≠ x := fun same => fresh q (by simp [split, ← same, member])
        have awayTail : y ≠ t := by
          rintro rfl
          exact (List.nodup_append.mp distinct).2.2 y member y (by simp) rfl
        simp [queuePush, someHead, atTail, away, awayTail]
      · have back := seg.2.1
        simp only [Option.or_none] at back
        simp [Seg, queuePush, someHead, atTail, apart, back]

theorem queueDequeue_nil (s : h.Spells L) (empty : L q = []) :
    queueDequeue q h = (none, h) := by
  simp [queueDequeue, s.head_nil.mpr empty]

theorem queueDequeue_cons (s : h.Spells L) (front : L q = x :: l) :
    (queueDequeue q h).1 = some x ∧ (queueDequeue q h).2.Spells (Function.update L q l) := by
  have atHead := s.head_cons front
  have after := s.next_front front
  have seg := s.seg q
  have distinct := s.nodup q
  rw [front] at seg distinct
  have unseen : x ∉ l := (List.nodup_cons.mp distinct).1
  have settled : ∀ y ∈ l, y ∈ L q ∨ ∀ r, y ∉ L r := by
    intro y member; simp [front, member]
  refine ⟨by simp [queueDequeue, atHead], ?_⟩
  have away : ∀ r, r ≠ q → ∀ y ∈ L r, y ∉ L q :=
    fun r other y member inside => other (s.apart r q y member inside)
  cases l with
  | nil =>
    refine s.edit q [] ?_ ?_ ?_ ?_ ?_ trivial List.nodup_nil settled
    · intro r other; simp [queueDequeue, atHead, after, other]
    · intro r other; simp [queueDequeue, atHead, after, other]
    · intro r other y member
      have := away r other y member
      simp only [front, List.mem_singleton] at this
      simp [queueDequeue, atHead, after, this]
    · simp [queueDequeue, atHead, after]
    · simp [queueDequeue, atHead, after]
  | cons y l =>
    refine s.edit q (y :: l) ?_ ?_ ?_ ?_ ?_ ?_ (List.nodup_cons.mp distinct).2 settled
    · intro r other; simp [queueDequeue, atHead, after, other]
    · intro r other; simp [queueDequeue, atHead, after]
    · intro r other z member
      have := away r other z member
      simp only [front, List.mem_cons, not_or] at this
      simp [queueDequeue, atHead, after, this]
    · simp [queueDequeue, atHead, after]
    · simp [queueDequeue, atHead, after, s.tail, front]
    · obtain ⟨_, _, _, forth, rest⟩ := seg
      have first : y ≠ x := fun same => unseen (by simp [same])
      refine ⟨by simp [queueDequeue, atHead, after, first], ?_, rest.congr ?_⟩
      · simpa [queueDequeue, atHead, after, first] using forth
      · intro z member
        have notFirst : z ≠ x := fun same => unseen (by simp [← same, member])
        have notSecond : z ≠ y := by
          rintro rfl
          simp [member] at distinct
        simp [queueDequeue, atHead, after, notFirst, notSecond]

/-- Removal is correct at either end of the chain. Strictly inside it the last
branch of `queueRemove` applies and the list meaning is lost. -/
theorem queueRemove_spells (pcb : ι) (s : h.Spells L)
    (atEnd : h.head q = some x ∨ h.tail q = some x) :
    (queueRemove pcb q x h).2.Spells (Function.update L q ((L q).erase x)) := by
  have away : ∀ r, r ≠ q → ∀ y ∈ L r, y ∉ L q :=
    fun r other y member inside => other (s.apart r q y member inside)
  have distinct := s.nodup q
  have settled : ∀ y ∈ (L q).erase x, y ∈ L q ∨ ∀ r, y ∉ L r :=
    fun y inside => Or.inl (List.mem_of_mem_erase inside)
  by_cases atHead : h.head q = some x
  · obtain ⟨l, front⟩ : ∃ l, L q = x :: l := by
      have := s.head q ▸ atHead
      cases split : L q with
      | nil => simp [split] at this
      | cons y l => simp only [split, List.head?_cons, Option.some.injEq] at this; exact ⟨l, this ▸ rfl⟩
    have erased : (L q).erase x = l := by simp [front]
    have dequeue := (queueDequeue_cons s front).2
    have after := s.next_front front
    have same : (queueRemove pcb q x h).2 = (queueDequeue q h).2 := by
      cases l with
      | nil =>
        have atTail : h.tail q = some x := by simp [s.tail, front]
        simp [queueRemove, queueDequeue, atHead, atTail, after]
      | cons y l =>
        have notTail : h.tail q ≠ some x := by
          rw [s.tail, front]
          intro last
          rw [front, List.nodup_cons] at distinct
          exact distinct.1 (List.mem_of_getLast? (by simpa using last))
        simp [queueRemove, queueDequeue, atHead, notTail, after]
    rw [same, erased]
    exact dequeue
  · have atTail := atEnd.resolve_left atHead
    obtain ⟨l, back⟩ : ∃ l, L q = l ++ [x] :=
      List.getLast?_eq_some_iff.mp (s.tail q ▸ atTail)
    have seg := s.seg q
    rw [back] at distinct seg
    have unseen : x ∉ l := fun inside => (List.nodup_append.mp distinct).2.2 x inside x (by simp) rfl
    have erased : (L q).erase x = l := by simp [back, List.erase_append, unseen]
    obtain ⟨l, t, rfl⟩ : ∃ l' t, l = l' ++ [t] := by
      rcases List.eq_nil_or_concat l with rfl | ⟨l', t, rfl⟩
      · exact absurd (by simp [s.head, back]) atHead
      · exact ⟨l', t, by simp⟩
    have before : h.prev x = some t := by simpa using seg.prev_last
    rw [erased]
    have others : ∀ y ∈ l ++ [t], y ≠ x := fun y inside same => unseen (same ▸ inside)
    refine s.edit q _ ?_ ?_ ?_ ?_ ?_ ?_ (List.nodup_append.mp distinct).1 (erased ▸ settled)
    · intro r other; simp [queueRemove, atHead, atTail, before]
    · intro r other; simp [queueRemove, atHead, atTail, before, other]
    · intro r other y inside
      have := away r other y inside
      simp only [back, List.mem_append, List.mem_singleton, not_or] at this
      simp [queueRemove, atHead, atTail, before, this]
    · have kept : (queueRemove pcb q x h).2.head q = h.head q := by
        simp [queueRemove, atHead, atTail, before]
      rw [kept, s.head, back]
      simp [List.head?_append]
    · simp [queueRemove, atHead, atTail, before]
    · have inner := (seg_append.mp seg).1
      rw [seg_append] at inner ⊢
      constructor
      · refine inner.1.congr ?_
        intro y inside
        have first := others y (by simp [inside])
        have second : y ≠ t := by
          rintro rfl
          exact (List.nodup_append.mp (List.nodup_append.mp distinct).1).2.2 y inside y (by simp) rfl
        simp [queueRemove, atHead, atTail, before, first, second]
      · have first := others t (by simp)
        have back := inner.2.1
        simp only [Option.or_none] at back
        simp [Seg, queueRemove, atHead, atTail, before, first, back]

omit [DecidableEq κ] in
theorem queueHasFrom_suffix (pre : List ι) (s : h.Spells L) (split : L q = pre ++ l) (fuel : Nat)
    (outside : l = [] → L q = []) :
    (∀ b, queueHasFrom q x h fuel l.head? = some b → b = decide (x ∈ l)) ∧
    (l.length < fuel → (queueHasFrom q x h fuel l.head?).isSome) := by
  induction fuel generalizing pre l with
  | zero => simp [queueHasFrom]
  | succ fuel ih =>
    cases l with
    | nil =>
      have noTail : h.tail q = none := by simp [s.tail, outside rfl]
      simp [queueHasFrom, noTail]
    | cons y l =>
      have tail : h.tail q = (y :: l).getLast? := by
        simp [s.tail, split, List.getLast?_eq_some_getLast]
      cases l with
      | nil => simp [queueHasFrom, tail, beq_eq_decide, eq_comm]
      | cons z l =>
        have notTail : some y ≠ h.tail q := by
          rw [tail]
          intro last
          have distinct := (List.nodup_append.mp (split ▸ s.nodup q)).2.1
          exact (List.nodup_cons.mp distinct).1 (List.mem_of_getLast? (by simpa using last.symm))
        have seg := s.seg q
        rw [split, seg_append] at seg
        have next : h.next y = (z :: l).head? := by simpa using seg.2.2.1
        have rest := ih (l := z :: l) (pre ++ [y]) (by simp [split]) (by simp)
        by_cases here : y = x
        · simp [queueHasFrom, here]
        · have unlike : x ≠ y := fun same => here same.symm
          simp only [queueHasFrom, List.head?_cons, if_neg notTail, if_neg here, next]
          simp only [List.mem_cons, unlike, false_or, List.length_cons] at rest ⊢
          exact ⟨rest.1, fun enough => rest.2 (by omega)⟩

omit [DecidableEq κ] in
theorem queueHas_spells (s : h.Spells L) {fuel : Nat} {b : Bool}
    (result : queueHas fuel q x h = some b) : b = decide (x ∈ L q) := by
  rw [queueHas, s.head] at result
  exact (queueHasFrom_suffix [] s rfl fuel id).1 b result

omit [DecidableEq κ] in
theorem queueHas_returns (s : h.Spells L) {fuel : Nat} (enough : (L q).length < fuel) :
    queueHas fuel q x h = some (decide (x ∈ L q)) := by
  have some := (queueHasFrom_suffix (x := x) [] s rfl fuel id).2 enough
  rw [← s.head] at some
  obtain ⟨b, result⟩ := Option.isSome_iff_exists.mp some
  rw [← queueHas] at result
  rw [result, queueHas_spells s result]

/-! Whatever the links look like, the operations store no pointer that was not there, but for
the one to a pushed item. -/

section Within

variable {P : ι → Prop} (within : h.Within P)

omit [DecidableEq ι] [DecidableEq κ] in
theorem absent (y : ι) (none : Option.none = some y) : P y := nomatch none

include within

omit [DecidableEq ι] in
theorem queueInit_within : (queueInit q h).Within P :=
  (within.setHead absent).setTail absent

theorem queuePush_within (inside : P x) : (queuePush q x h).Within P := by
  have new : ∀ y, some x = some y → P y := fun y same => Option.some.inj same ▸ inside
  rw [queuePush]
  split
  · exact (((within.setHead new).setTail new).setNext absent).setPrev absent
  · have linked : ((h.setNext (h.tail q) (some x)).setNext (some x) none).Within P :=
      (within.setNext new).setNext absent
    have back : ∀ y, h.tail q = some y → P y := within.tail q
    rw [← setNext_tail h (h.tail q) (some x), ← setNext_tail _ (some x) none] at back
    exact (linked.setPrev back).setTail new

theorem queueDequeue_within :
    (queueDequeue q h).2.Within P ∧ ∀ y, (queueDequeue q h).1 = some y → P y := by
  rw [queueDequeue]
  dsimp only
  split
  · exact ⟨within, absent⟩
  next temp first =>
    refine ⟨?_, fun y same => ?_⟩
    · dsimp only
      refine Within.setNext (Within.setPrev ?_ absent) absent
      split
      · exact (within.setHead absent).setTail absent
      · exact (within.setHead (within.next temp)).setPrev absent
    · cases same
      exact within.head q temp first

theorem queueRemove_within {pcb : ι} : (queueRemove pcb q x h).2.Within P := by
  rw [queueRemove]
  dsimp only
  refine Within.setNext (Within.setPrev ?_ absent) absent
  split
  · exact (within.setHead absent).setTail absent
  · split
    · exact (within.setHead (within.next x)).setPrev absent
    · split
      · exact (within.setTail (within.prev x)).setNext absent
      · refine (within.setNext (within.next x)).setPrev ?_
        rw [setNext_prev]
        exact within.prev x

end Within

end Tina
