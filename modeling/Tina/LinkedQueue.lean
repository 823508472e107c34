import Mathlib.Logic.Function.Basic
import Mathlib.Data.List.Basic
import Mathlib.Data.List.Nodup

/-! Intrusive doubly linked queues over arbitrary items and queue heads. One
store holds the link fields of every item and the two ends of every queue, so a
write made for one queue is visible to all of them. `Spells` is the exact list
meaning of a whole store, not of one queue in isolation. -/
namespace LinkedQueue

structure Links (ι κ : Type) where
  next : ι → Option ι
  prev : ι → Option ι
  head : κ → Option ι
  tail : κ → Option ι

namespace Links

variable {ι κ : Type}

section
variable [DecidableEq ι] (h : Links ι κ) (p v : Option ι) (x : ι)

/-- A store through a null pointer touches no modelled cell. -/
def setNext (p v : Option ι) (h : Links ι κ) : Links ι κ :=
  match p with
  | none => h
  | some x => { h with next := Function.update h.next x v }

def setPrev (p v : Option ι) (h : Links ι κ) : Links ι κ :=
  match p with
  | none => h
  | some x => { h with prev := Function.update h.prev x v }

@[simp] theorem setNext_none : h.setNext none v = h := rfl
@[simp] theorem setPrev_none : h.setPrev none v = h := rfl
@[simp] theorem setNext_next : (h.setNext (some x) v).next = Function.update h.next x v := rfl
@[simp] theorem setPrev_prev : (h.setPrev (some x) v).prev = Function.update h.prev x v := rfl
@[simp] theorem setNext_prev : (h.setNext p v).prev = h.prev := by cases p <;> rfl
@[simp] theorem setNext_head : (h.setNext p v).head = h.head := by cases p <;> rfl
@[simp] theorem setNext_tail : (h.setNext p v).tail = h.tail := by cases p <;> rfl
@[simp] theorem setPrev_next : (h.setPrev p v).next = h.next := by cases p <;> rfl
@[simp] theorem setPrev_head : (h.setPrev p v).head = h.head := by cases p <;> rfl
@[simp] theorem setPrev_tail : (h.setPrev p v).tail = h.tail := by cases p <;> rfl

theorem setNext_of_ne (other : p ≠ some x) : (h.setNext p v).next x = h.next x := by
  cases p with
  | none => rfl
  | some y => exact Function.update_of_ne (fun same => other (congrArg some same.symm)) _ _

theorem setPrev_of_ne (other : p ≠ some x) : (h.setPrev p v).prev x = h.prev x := by
  cases p with
  | none => rfl
  | some y => exact Function.update_of_ne (fun same => other (congrArg some same.symm)) _ _

end

section
variable [DecidableEq κ] (h : Links ι κ) (q : κ) (v : Option ι)

def setHead (q : κ) (v : Option ι) (h : Links ι κ) : Links ι κ :=
  { h with head := Function.update h.head q v }

def setTail (q : κ) (v : Option ι) (h : Links ι κ) : Links ι κ :=
  { h with tail := Function.update h.tail q v }

@[simp] theorem setHead_next : (h.setHead q v).next = h.next := rfl
@[simp] theorem setHead_prev : (h.setHead q v).prev = h.prev := rfl
@[simp] theorem setHead_head : (h.setHead q v).head = Function.update h.head q v := rfl
@[simp] theorem setHead_tail : (h.setHead q v).tail = h.tail := rfl
@[simp] theorem setTail_next : (h.setTail q v).next = h.next := rfl
@[simp] theorem setTail_prev : (h.setTail q v).prev = h.prev := rfl
@[simp] theorem setTail_head : (h.setTail q v).head = h.head := rfl
@[simp] theorem setTail_tail : (h.setTail q v).tail = Function.update h.tail q v := rfl

end

/-- The items of `l` are linked in order; `p` precedes the first and `n` follows
the last. -/
def Seg (h : Links ι κ) : Option ι → List ι → Option ι → Prop
  | _, [], _ => True
  | p, x :: l, n => h.prev x = p ∧ h.next x = l.head?.or n ∧ h.Seg (some x) l n

variable {h g : Links ι κ} {L : κ → List ι} {p n : Option ι} {l l₁ l₂ : List ι} {q : κ} {x : ι}

theorem Seg.congr (s : h.Seg p l n)
    (frame : ∀ x ∈ l, g.next x = h.next x ∧ g.prev x = h.prev x) : g.Seg p l n := by
  induction l generalizing p with
  | nil => trivial
  | cons x l ih =>
    obtain ⟨back, forth, rest⟩ := s
    have same := frame x (by simp)
    refine ⟨same.2.trans back, same.1.trans forth, ih rest ?_⟩
    intro y member
    exact frame y (by simp [member])

theorem seg_append : h.Seg p (l₁ ++ l₂) n ↔
    h.Seg p l₁ (l₂.head?.or n) ∧ h.Seg (l₁.getLast?.or p) l₂ n := by
  induction l₁ generalizing p with
  | nil => simp [Seg]
  | cons x l ih =>
    have last : (x :: l).getLast?.or p = l.getLast?.or (some x) := by
      cases l with
      | nil => rfl
      | cons y l => simp [List.getLast?_eq_some_getLast]
    simp only [List.cons_append, Seg, ih, last, List.head?_append, and_assoc, Option.or_assoc]

theorem Seg.prev_last (s : h.Seg p (l ++ [x]) n) : h.prev x = l.getLast?.or p :=
  (seg_append.mp s).2.1

/-- Every queue is a finite duplicate-free chain from its head to its tail with
null ends, and no item is on two queues. -/
structure Spells (h : Links ι κ) (L : κ → List ι) : Prop where
  head : ∀ q, h.head q = (L q).head?
  tail : ∀ q, h.tail q = (L q).getLast?
  seg : ∀ q, h.Seg none (L q) none
  nodup : ∀ q, (L q).Nodup
  apart : ∀ q r x, x ∈ L q → x ∈ L r → q = r

/-- The items met on the way from `start` through `next` to the null pointer. -/
def Walk (h : Links ι κ) : Option ι → List ι → Prop
  | start, [] => start = none
  | start, x :: l => start = some x ∧ h.Walk (h.next x) l

instance Walk.decidable [DecidableEq ι] (h : Links ι κ) :
    (start : Option ι) → (l : List ι) → Decidable (h.Walk start l)
  | start, [] => inferInstanceAs (Decidable (start = none))
  | start, x :: l =>
    haveI := Walk.decidable h (h.next x) l
    inferInstanceAs (Decidable (start = some x ∧ h.Walk (h.next x) l))

theorem Walk.unique {start : Option ι} (one : h.Walk start l₁) (two : h.Walk start l₂) :
    l₁ = l₂ := by
  induction l₁ generalizing start l₂ with
  | nil =>
    cases l₂ with
    | nil => rfl
    | cons y l₂ => exact absurd (one.symm.trans two.1) (by simp)
  | cons x l₁ ih =>
    cases l₂ with
    | nil => exact absurd (two.symm.trans one.1) (by simp)
    | cons y l₂ =>
      obtain rfl : x = y := by simpa using one.1.symm.trans two.1
      rw [ih one.2 two.2]

theorem Seg.walk (s : h.Seg p l none) : h.Walk l.head? l := by
  induction l generalizing p with
  | nil => rfl
  | cons x l ih =>
    refine ⟨rfl, ?_⟩
    have next : h.next x = l.head? := by simpa using s.2.1
    rw [next]
    exact ih s.2.2

theorem Spells.walk (s : h.Spells L) (q : κ) : h.Walk (h.head q) (L q) :=
  s.head q ▸ (s.seg q).walk

/-- Rewriting one queue is a local matter: the other queues only need their own
ends and items left alone. -/
theorem Spells.edit [DecidableEq κ] (s : h.Spells L) (q : κ) (l : List ι)
    (heads : ∀ r, r ≠ q → g.head r = h.head r) (tails : ∀ r, r ≠ q → g.tail r = h.tail r)
    (frame : ∀ r, r ≠ q → ∀ x ∈ L r, g.next x = h.next x ∧ g.prev x = h.prev x)
    (head : g.head q = l.head?) (tail : g.tail q = l.getLast?) (seg : g.Seg none l none)
    (nodup : l.Nodup) (fresh : ∀ x ∈ l, x ∈ L q ∨ ∀ r, x ∉ L r) :
    g.Spells (Function.update L q l) := by
  have moved : ∀ r, r ≠ q → ∀ x ∈ l, x ∉ L r := by
    intro r other x member inside
    rcases fresh x member with old | new
    · exact other (s.apart r q x inside old)
    · exact new r inside
  constructor
  · intro r
    by_cases same : r = q
    · subst r; simpa using head
    · simpa [same] using (heads r same).trans (s.head r)
  · intro r
    by_cases same : r = q
    · subst r; simpa using tail
    · simpa [same] using (tails r same).trans (s.tail r)
  · intro r
    by_cases same : r = q
    · subst r; simpa using seg
    · simpa [same] using (s.seg r).congr (frame r same)
  · intro r
    by_cases same : r = q
    · subst r; simpa using nodup
    · simpa [same] using s.nodup r
  · intro r r' x first second
    by_cases same : r = q <;> by_cases same' : r' = q
    · exact same.trans same'.symm
    · subst r
      simp only [Function.update_self, ne_eq, same', not_false_eq_true,
        Function.update_of_ne] at first second
      exact absurd second (moved r' same' x first)
    · subst r'
      simp only [Function.update_self, ne_eq, same, not_false_eq_true,
        Function.update_of_ne] at first second
      exact absurd first (moved r same x second)
    · simp only [ne_eq, same, same', not_false_eq_true, Function.update_of_ne] at first second
      exact s.apart r r' x first second

theorem Spells.head_nil (s : h.Spells L) : h.head q = none ↔ L q = [] := by
  rw [s.head]; exact List.head?_eq_none_iff

theorem Spells.head_cons (s : h.Spells L) (front : L q = x :: l) : h.head q = some x := by
  rw [s.head, front]; rfl

/-- The successor field of the first item is exactly the rest of the chain. -/
theorem Spells.next_front (s : h.Spells L) (front : L q = x :: l) : h.next x = l.head? := by
  have seg := s.seg q
  rw [front] at seg
  simpa using seg.2.1

/-- The meaning of one queue by itself, whatever else the store holds. -/
structure Represents (h : Links ι κ) (q : κ) (l : List ι) : Prop where
  head : h.head q = l.head?
  tail : h.tail q = l.getLast?
  seg : h.Seg none l none
  nodup : l.Nodup

instance Seg.decidable [DecidableEq ι] (h : Links ι κ) :
    (p : Option ι) → (l : List ι) → (n : Option ι) → Decidable (h.Seg p l n)
  | _, [], _ => inferInstanceAs (Decidable True)
  | p, x :: l, n =>
    haveI := Seg.decidable h (some x) l n
    inferInstanceAs (Decidable (h.prev x = p ∧ h.next x = l.head?.or n ∧ h.Seg (some x) l n))

instance Represents.decidable [DecidableEq ι] (h : Links ι κ) (q : κ) (l : List ι) :
    Decidable (h.Represents q l) :=
  decidable_of_iff (h.head q = l.head? ∧ h.tail q = l.getLast? ∧ h.Seg none l none ∧ l.Nodup)
    ⟨fun ⟨head, tail, seg, nodup⟩ => ⟨head, tail, seg, nodup⟩,
      fun r => ⟨r.head, r.tail, r.seg, r.nodup⟩⟩

theorem Spells.represents (s : h.Spells L) (q : κ) : h.Represents q (L q) :=
  ⟨s.head q, s.tail q, s.seg q, s.nodup q⟩

/-- The store in which `q` is the only queue. -/
def only (q : κ) (h : Links ι κ) : Links ι Unit where
  next := h.next
  prev := h.prev
  head _ := h.head q
  tail _ := h.tail q

@[simp] theorem only_next : (h.only q).next = h.next := rfl
@[simp] theorem only_prev : (h.only q).prev = h.prev := rfl
@[simp] theorem only_head (u : Unit) : (h.only q).head u = h.head q := rfl
@[simp] theorem only_tail (u : Unit) : (h.only q).tail u = h.tail q := rfl

theorem seg_only : (h.only q).Seg p l n ↔ h.Seg p l n := by
  induction l generalizing p with
  | nil => rfl
  | cons x l ih => exact and_congr Iff.rfl (and_congr Iff.rfl ih)

theorem spells_only : (h.only q).Spells (fun _ => l) ↔ h.Represents q l where
  mp s := ⟨s.head (), s.tail (), seg_only.mp (s.seg ()), s.nodup ()⟩
  mpr r := ⟨fun _ => r.head, fun _ => r.tail, fun _ => seg_only.mpr r.seg, fun _ => r.nodup,
    fun _ _ _ _ _ => rfl⟩

section
variable (v : Option ι)

@[simp] theorem only_setNext [DecidableEq ι] :
    (h.setNext p v).only q = (h.only q).setNext p v := by cases p <;> rfl
@[simp] theorem only_setPrev [DecidableEq ι] :
    (h.setPrev p v).only q = (h.only q).setPrev p v := by cases p <;> rfl
@[simp] theorem only_setHead [DecidableEq κ] :
    (h.setHead q v).only q = (h.only q).setHead () v := by
  simp only [only, setHead, Function.update_self]
  congr 1
@[simp] theorem only_setTail [DecidableEq κ] :
    (h.setTail q v).only q = (h.only q).setTail () v := by
  simp only [only, setTail, Function.update_self]
  congr 1

end

/-- Every pointer in the store is null or leads to an item in `P`. -/
structure Within (P : ι → Prop) (h : Links ι κ) : Prop where
  next : ∀ x y, h.next x = some y → P y
  prev : ∀ x y, h.prev x = some y → P y
  head : ∀ q y, h.head q = some y → P y
  tail : ∀ q y, h.tail q = some y → P y

section Within

variable {P : ι → Prop} {v : Option ι}

theorem within_update {σ : Type} [DecidableEq σ] {f : σ → Option ι} {a : σ}
    (old : ∀ x y, f x = some y → P y) (new : ∀ y, v = some y → P y) (x : σ) (y : ι) :
    Function.update f a v x = some y → P y := by
  by_cases here : x = a
  · rw [here, Function.update_self]
    exact new y
  · rw [Function.update_of_ne here]
    exact old x y

variable (within : h.Within P) (new : ∀ y, v = some y → P y)

include within new

theorem Within.setNext [DecidableEq ι] : (h.setNext p v).Within P := by
  cases p with
  | none => exact within
  | some x => exact ⟨within_update within.next new, within.prev, within.head, within.tail⟩

theorem Within.setPrev [DecidableEq ι] : (h.setPrev p v).Within P := by
  cases p with
  | none => exact within
  | some x => exact ⟨within.next, within_update within.prev new, within.head, within.tail⟩

theorem Within.setHead [DecidableEq κ] : (h.setHead q v).Within P :=
  ⟨within.next, within.prev, within_update within.head new, within.tail⟩

theorem Within.setTail [DecidableEq κ] : (h.setTail q v).Within P :=
  ⟨within.next, within.prev, within.head, within_update within.tail new⟩

end Within

end Links

end LinkedQueue
