import Tina.Proc

/-! One queue at a time: what each operation of `queue.c` does to the list that a queue
stands for, whatever the other queues of the store look like. -/
namespace Tina

open LinkedQueue LinkedQueue.Links

section Laws

variable {ι κ : Type} [DecidableEq ι] [DecidableEq κ] {h : Links ι κ} {q : κ} {l l₁ l₂ : List ι}
  {x y pcb : ι}

/-! An operation on `q` does the same to the store in which `q` is the only queue. -/

theorem only_queuePush : queuePush () x (h.only q) = (queuePush q x h).only q := by
  by_cases empty : h.head q = none <;> simp [queuePush, empty]

theorem only_queueDequeue : queueDequeue () (h.only q) =
    ((queueDequeue q h).1, (queueDequeue q h).2.only q) := by
  cases first : h.head q with
  | none => simp [queueDequeue, first]
  | some y => by_cases last : h.next y = none <;> simp [queueDequeue, first, last]

theorem only_queueRemove : queueRemove pcb () x (h.only q) =
    ((queueRemove pcb q x h).1, (queueRemove pcb q x h).2.only q) := by
  have linked : ((h.only q).setNext (h.prev x) (h.next x)).next =
      (h.setNext (h.prev x) (h.next x)).next := by
    rw [← only_setNext, only_next]
  by_cases first : h.head q = some x <;> by_cases last : h.tail q = some x <;>
    simp [queueRemove, first, last, linked]

omit [DecidableEq κ] in
theorem only_queueHas (fuel : Nat) : queueHas fuel () x (h.only q) = queueHas fuel q x h := by
  have loop : ∀ iterator, queueHasFrom () x (h.only q) fuel iterator =
      queueHasFrom q x h fuel iterator := by
    induction fuel with
    | zero => exact fun _ => rfl
    | succ fuel ih => exact fun iterator => by simp only [queueHasFrom, only_tail, only_next, ih]
  exact loop (h.head q)

omit [DecidableEq ι] [DecidableEq κ] in
/-- Rewriting the only queue there is. -/
theorem represents_alone {g : Links ι κ} {l' : List ι}
    (s : (g.only q).Spells (Function.update (fun _ => l) () l')) : g.Represents q l' := by
  have same : Function.update (fun _ : Unit => l) () l' = fun _ => l' := by
    funext u
    exact Function.update_self () l' fun _ : Unit => l
  rw [same] at s
  exact spells_only.mp s

theorem queuePush_represents (r : h.Represents q l) (fresh : x ∉ l) :
    (queuePush q x h).Represents q (l ++ [x]) := by
  have pushed := queuePush_spells (q := ()) (spells_only.mpr r) fun _ => fresh
  rw [only_queuePush] at pushed
  exact represents_alone pushed

theorem queueDequeue_represents (r : h.Represents q l) :
    (queueDequeue q h).1 = l.head? ∧ (queueDequeue q h).2.Represents q l.tail := by
  cases l with
  | nil =>
    have none : h.head q = none := r.head
    simp only [queueDequeue, none]
    exact ⟨rfl, r⟩
  | cons y l =>
    have dequeued := queueDequeue_cons (q := ()) (spells_only.mpr r) rfl
    rw [only_queueDequeue] at dequeued
    exact ⟨dequeued.1, represents_alone dequeued.2⟩

/-- What is removed from an end. -/
theorem queueRemove_end (r : h.Represents q l) (atEnd : l.head? = some x ∨ l.getLast? = some x) :
    (queueRemove pcb q x h).2.Represents q (l.erase x) := by
  rw [← r.head, ← r.tail] at atEnd
  have removed := queueRemove_spells (q := ()) pcb (spells_only.mpr r) atEnd
  rw [only_queueRemove] at removed
  exact represents_alone removed

omit [DecidableEq ι] [DecidableEq κ] in
theorem represents_next (l₁ : List ι) (r : h.Represents q (l₁ ++ x :: l₂)) :
    h.next x = l₂.head? := by
  have seg := (seg_append.mp r.seg).2.2.1
  rwa [Option.or_none] at seg

omit [DecidableEq κ] in
theorem queueHas_represents (r : h.Represents q l) {fuel : Nat} (enough : l.length < fuel) :
    queueHas fuel q x h = some (decide (x ∈ l)) := by
  rw [← only_queueHas]
  exact queueHas_returns (q := ()) (spells_only.mpr r) enough

/-- The item to repair is found: `pcb` precedes the item that goes, or leads to the same
successor. -/
def Adjoins (pcb x : ι) (h : Links ι κ) : Prop := h.prev x = some pcb ∨ h.next pcb = h.next x

instance Adjoins.decidable (pcb x : ι) (h : Links ι κ) : Decidable (Adjoins pcb x h) :=
  inferInstanceAs (Decidable (_ ∨ _))

section Inner

variable {a b : ι} (r : h.Represents q (l₁ ++ [a] ++ x :: b :: l₂))

include r

omit [DecidableEq ι] [DecidableEq κ] in
/-- An inner item, its neighbours, and what `queueRemove` does to it. -/
theorem inner_parts : h.prev x = some a ∧ h.next x = some b ∧ h.head q ≠ some x ∧
    h.tail q ≠ some x ∧ x ∉ l₁ ++ [a] ∧ x ∉ b :: l₂ := by
  have distinct := List.nodup_append.mp r.nodup
  have before : x ∉ l₁ ++ [a] := fun inside => distinct.2.2 x inside x (by simp) rfl
  have after : x ∉ b :: l₂ := (List.nodup_cons.mp distinct.2.1).1
  refine ⟨?_, represents_next _ r, ?_, ?_, before, after⟩
  · simpa using (seg_append.mp r.seg).2.1
  · rw [r.head]
    intro first
    have : (l₁ ++ [a]).head? = some x := by simpa [List.head?_append] using first
    exact before (List.mem_of_head? this)
  · rw [r.tail]
    intro last
    have : (b :: l₂).getLast? = some x := by simpa using last
    exact after (List.mem_of_getLast? this)

theorem queueRemove_inner : (queueRemove pcb q x h).2 =
    ((((h.setNext (some a) (some b)).setPrev (if pcb = a then some b else h.next pcb)
      (some a)).setPrev (some x) none).setNext (some x) none) := by
  obtain ⟨prev, next, first, last, -, -⟩ := inner_parts r
  simp [queueRemove, prev, next, first, last, Function.update_apply]

omit [DecidableEq κ] in
theorem inner_found : Adjoins pcb x h ↔ (if pcb = a then some b else h.next pcb) = some b := by
  obtain ⟨prev, next, -, -, -, -⟩ := inner_parts r
  rw [Adjoins, prev, next]
  by_cases same : pcb = a <;> simp [same, Ne.symm]

/-- The item behind points back to the one before, if it is the one that is repaired. -/
theorem queueRemove_inner_prev :
    (queueRemove pcb q x h).2.prev b = some a ↔ Adjoins pcb x h := by
  obtain ⟨-, -, -, -, before, after⟩ := inner_parts r
  have old : h.prev b = some x := (seg_append.mp r.seg).2.2.2.1
  have apart : b ≠ x ∧ x ≠ a := by grind
  rw [queueRemove_inner r, inner_found r, setNext_prev,
    setPrev_of_ne _ _ _ _ (by simpa using Ne.symm apart.1)]
  constructor
  · intro back
    by_contra missed
    rw [setPrev_of_ne _ _ _ _ missed, setNext_prev, old] at back
    exact apart.2 (Option.some.inj back)
  · intro found
    rw [found]
    simp

/-- Strictly inside a queue, removal is correct exactly if it repairs the right item. -/
theorem queueRemove_inner_iff :
    (queueRemove pcb q x h).2.Represents q (l₁ ++ [a] ++ b :: l₂) ↔ Adjoins pcb x h := by
  constructor
  · intro kept
    rw [← queueRemove_inner_prev r]
    simpa using (seg_append.mp kept.seg).2.1
  · intro meets
    have found := (inner_found r).mp meets
    obtain ⟨prev, next, -, -, before, after⟩ := inner_parts r
    rw [queueRemove_inner r, found]
    have distinct := r.nodup
    have seg := r.seg
    rw [seg_append, seg_append] at seg
    simp only [List.mem_append, List.mem_cons, not_or] at before after
    have apart : (a ∉ l₁ ∧ b ∉ l₁) ∧ (a ∉ l₂ ∧ b ∉ l₂) ∧ (a ≠ x ∧ a ≠ b) ∧ b ≠ x ∧ b ≠ a := by
      simp only [List.nodup_append, List.nodup_cons, List.mem_append, List.mem_cons] at distinct
      grind
    obtain ⟨outsideFront, outsideRest, atA, atB⟩ := apart
    constructor
    · simp [r.head, List.head?_append]
    · simp [r.tail]
    · rw [seg_append, seg_append]
      obtain ⟨⟨front, ⟨back, -⟩⟩, -, -, -, forth, rest⟩ := seg
      refine ⟨⟨front.congr fun y inside => ?_, ?_⟩, ?_⟩
      · have : y ≠ x ∧ y ≠ a ∧ y ≠ b := by grind
        simp [this]
      · simp [Seg, back, atA]
      · refine ⟨by simp [atB], by simp [forth, atB], rest.congr fun y inside => ?_⟩
        have : y ≠ x ∧ y ≠ a ∧ y ≠ b := by grind
        simp [this]
    · exact distinct.sublist (by simp)

end Inner

omit [DecidableEq ι] in
/-- Where a member can stand. -/
theorem mem_position (inside : x ∈ l) : (l.head? = some x ∨ l.getLast? = some x) ∨
    ∃ l₁ a b l₂, l = l₁ ++ [a] ++ x :: b :: l₂ := by
  obtain ⟨front, back, rfl⟩ := List.append_of_mem inside
  rcases List.eq_nil_or_concat front with rfl | ⟨l₁, a, rfl⟩
  · exact Or.inl (Or.inl rfl)
  · cases back with
    | nil => exact Or.inl (Or.inr (by simp))
    | cons b l₂ => exact Or.inr ⟨l₁, a, b, l₂, by simp⟩

/-- `queueRemove` repairs the neighbours of the item. -/
def Repairs (pcb x : ι) (l : List ι) (h : Links ι κ) : Prop :=
  l.head? = some x ∨ l.getLast? = some x ∨ Adjoins pcb x h

theorem erase_inner {a b : ι} (distinct : (l₁ ++ [a] ++ x :: b :: l₂).Nodup) :
    (l₁ ++ [a] ++ x :: b :: l₂).erase x = l₁ ++ [a] ++ b :: l₂ := by
  have before : x ∉ l₁ ++ [a] :=
    fun inside => (List.nodup_append.mp distinct).2.2 x inside x (by simp) rfl
  rw [List.erase_append_right _ before, List.erase_cons_head]

theorem queueRemove_represents_iff (r : h.Represents q l) (inside : x ∈ l) :
    (queueRemove pcb q x h).2.Represents q (l.erase x) ↔ Repairs pcb x l h := by
  rcases mem_position inside with atEnd | ⟨l₁, a, b, l₂, rfl⟩
  · exact ⟨fun _ => atEnd.imp_right .inl, fun _ => queueRemove_end r atEnd⟩
  · obtain ⟨-, -, first, last, -, -⟩ := inner_parts r
    rw [r.head] at first
    rw [r.tail] at last
    rw [erase_inner r.nodup, queueRemove_inner_iff r, Repairs]
    simp only [first, last, false_or]

/-! What lies outside a queue is not written to. -/

/-- The link fields of `y` are the same. -/
def Untouched (h g : Links ι κ) (y : ι) : Prop := g.next y = h.next y ∧ g.prev y = h.prev y

theorem queuePush_frame (r : h.Represents q l) (outside : y ∉ l) (other : y ≠ x) :
    Untouched h (queuePush q x h) y := by
  cases last : l.getLast? with
  | none =>
    have empty : l.head? = none := by simpa using last
    simp [Untouched, queuePush, r.head, empty, other]
  | some t =>
    have first : l.head? ≠ none := fun empty => by simp_all
    have away : y ≠ t := fun same => outside (same ▸ List.mem_of_getLast? last)
    simp [Untouched, queuePush, r.head, r.tail, first, last, other, away]

theorem queueDequeue_frame (r : h.Represents q l) (outside : y ∉ l) :
    Untouched h (queueDequeue q h).2 y := by
  cases l with
  | nil => simp [Untouched, queueDequeue, r.head]
  | cons x l =>
    have next : h.next x = l.head? := represents_next [] r
    cases l with
    | nil => simp_all [Untouched, queueDequeue, r.head]
    | cons z l => simp_all [Untouched, queueDequeue, r.head]

theorem queueRemove_frame (r : h.Represents q l) (inside : x ∈ l) (repairs : Repairs pcb x l h)
    (outside : y ∉ l) : Untouched h (queueRemove pcb q x h).2 y := by
  have other : y ≠ x := fun same => outside (same ▸ inside)
  by_cases first : h.head q = some x
  · by_cases last : h.tail q = some x
    · simp [Untouched, queueRemove, first, last, other]
    · -- the new first item loses its predecessor
      obtain ⟨rest, rfl⟩ := List.head?_eq_some_iff.mp (r.head ▸ first)
      have next : h.next x = rest.head? := represents_next [] r
      have away : rest.head? ≠ some y := fun same => outside (by
        simp [List.mem_of_head? same])
      constructor
      · simp [queueRemove, first, last, other]
      · simp [queueRemove, first, last, next, other, setPrev_of_ne _ _ _ _ away]
  · by_cases last : h.tail q = some x
    · -- the new last item loses its successor
      obtain ⟨rest, rfl⟩ := List.getLast?_eq_some_iff.mp (r.tail ▸ last)
      have prev : h.prev x = rest.getLast? := by simpa using (seg_append.mp r.seg).2.1
      have away : rest.getLast? ≠ some y := fun same => outside (by
        simp [List.mem_of_getLast? same])
      constructor
      · simp [queueRemove, first, last, prev, other, setNext_of_ne _ _ _ _ away]
      · simp [queueRemove, first, last, other]
    · rcases mem_position inside with atEnd | ⟨l₁, a, b, l₂, rfl⟩
      · rw [← r.head, ← r.tail] at atEnd
        exact absurd atEnd (by simp [first, last])
      · rw [Repairs, ← r.head, ← r.tail] at repairs
        have found := (inner_found r).mp ((repairs.resolve_left first).resolve_left last)
        have away : y ≠ a ∧ y ≠ b := by grind
        simp [Untouched, queueRemove_inner r, found, other, away]

/-- The operations on `q` are those of the list `l`, as far as `x` is concerned. -/
structure QueueLaws (pcb : ι) (q : κ) (l : List ι) (x : ι) (h : Links ι κ) : Prop where
  init : (queueInit q h).Represents q []
  push : x ∉ l → (queuePush q x h).Represents q (l ++ [x])
  dequeue : (queueDequeue q h).1 = l.head? ∧ (queueDequeue q h).2.Represents q l.tail
  remove : ∀ l₁ l₂, l = l₁ ++ x :: l₂ → (queueRemove pcb q x h).1 = l₂.head? ∧
    (queueRemove pcb q x h).2.Represents q (l₁ ++ l₂)
  has : ∀ fuel, l.length < fuel → queueHas fuel q x h = some (decide (x ∈ l))
  isEmpty : queueIsEmpty q h = true ↔ l = []
  dequeued : ∀ y, (queueDequeue q h).1 = some y →
    (queueDequeue q h).2.next y = none ∧ (queueDequeue q h).2.prev y = none
  removed : (queueRemove pcb q x h).2.next x = none ∧ (queueRemove pcb q x h).2.prev x = none
  frame : ∀ y, y ∉ l → y ≠ x → Untouched h (queuePush q x h) y ∧
    Untouched h (queueDequeue q h).2 y ∧ (x ∈ l → Untouched h (queueRemove pcb q x h).2 y)

theorem erase_split (distinct : (l₁ ++ x :: l₂).Nodup) : (l₁ ++ x :: l₂).erase x = l₁ ++ l₂ := by
  have before : x ∉ l₁ := fun inside => (List.nodup_append.mp distinct).2.2 x inside x (by simp) rfl
  rw [List.erase_append_right _ before, List.erase_cons_head]

/-- All of `queue.c` is right about an item, except that `queue_remove` breaks the list when
it stands between two others and the process array does not lead to the item behind it. -/
theorem queue_laws_iff (r : h.Represents q l) :
    QueueLaws pcb q l x h ↔ (x ∈ l → Repairs pcb x l h) := by
  constructor
  · intro laws inside
    obtain ⟨l₁, l₂, split⟩ := List.append_of_mem inside
    have removed := (laws.remove l₁ l₂ split).2
    rw [← erase_split (split ▸ r.nodup), ← split] at removed
    exact (queueRemove_represents_iff r inside).mp removed
  · intro repairs
    constructor
    · constructor <;> simp [queueInit, Seg]
    · exact queuePush_represents r
    · exact queueDequeue_represents r
    · intro l₁ l₂ split
      have inside : x ∈ l := by simp [split]
      have removed := (queueRemove_represents_iff r inside).mpr (repairs inside)
      subst split
      rw [erase_split r.nodup] at removed
      exact ⟨represents_next l₁ r, removed⟩
    · exact fun fuel enough => queueHas_represents r enough
    · rw [queueIsEmpty, r.head]
      simp
    · intro y first
      cases atHead : h.head q with
      | none => simp [queueDequeue, atHead] at first
      | some z =>
        obtain rfl : z = y := by simpa [queueDequeue, atHead] using first
        simp [queueDequeue, atHead]
    · simp [queueRemove]
    · exact fun y outside other => ⟨queuePush_frame r outside other, queueDequeue_frame r outside,
        fun inside => queueRemove_frame r inside (repairs inside) outside⟩

theorem queueRemove_ends {r' : κ} (other : r' ≠ q) :
    (queueRemove pcb q x h).2.head r' = h.head r' ∧
      (queueRemove pcb q x h).2.tail r' = h.tail r' := by
  by_cases first : h.head q = some x <;> by_cases last : h.tail q = some x <;>
    simp [queueRemove, first, last, other]

/-- In a store of queues, removal keeps them all exactly if it repairs the neighbours. -/
theorem queueRemove_spells_iff {L : κ → List ι} (s : h.Spells L) (inside : x ∈ L q) :
    (queueRemove pcb q x h).2.Spells (Function.update L q ((L q).erase x)) ↔
      Repairs pcb x (L q) h := by
  have here := s.represents q
  constructor
  · intro kept
    have represents := kept.represents q
    rw [Function.update_self] at represents
    exact (queueRemove_represents_iff here inside).mp represents
  · intro repairs
    have removed := (queueRemove_represents_iff here inside).mpr repairs
    refine s.edit q _ (fun r other => (queueRemove_ends other).1)
      (fun r other => (queueRemove_ends other).2) ?_ removed.head removed.tail removed.seg
      removed.nodup fun y member => Or.inl (List.mem_of_mem_erase member)
    intro r other y member
    exact queueRemove_frame here inside repairs fun own => other (s.apart r q y member own)

end Laws

/-- Three processes queued one after the other. -/
def threeQueued : Links Item QueueId :=
  queuePush (.user 0) (.pcb 3) (queuePush (.user 0) (.pcb 2) (queuePush (.user 0) (.pcb 1)
    (queueInit (.user 0) boot.links)))

/-- The first of them may be removed. -/
theorem queue_laws_first :
    QueueLaws (.pcb 0) (.user 0) [.pcb 1, .pcb 2, .pcb 3] (.pcb 1) threeQueued :=
  (queue_laws_iff (by decide)).mpr fun _ => Or.inl rfl

/-- The one in the middle may not: walked forwards the list looks right, but process 3 still
points back to the one that has gone. -/
theorem queueRemove_breaks : ∃ h : Links Item QueueId,
    h.Represents (.user 0) [.pcb 1, .pcb 2, .pcb 3] ∧
    (queueRemove (.pcb 0) (.user 0) (.pcb 2) h).2.Walk (some (.pcb 1)) [.pcb 1, .pcb 3] ∧
    (queueRemove (.pcb 0) (.user 0) (.pcb 2) h).2.prev (.pcb 3) = some (.pcb 2) ∧
    ¬(queueRemove (.pcb 0) (.user 0) (.pcb 2) h).2.Represents (.user 0) [.pcb 1, .pcb 3] :=
  ⟨threeQueued, by decide⟩

end Tina
