import Mathlib.Data.List.Basic
import Mathlib.Data.List.Find
import Mathlib.Data.List.Infix
import Mathlib.Logic.Function.Basic
import Mathlib.Tactic.Common

/-! Trees whose nodes are named by the slots passed on the way to them, the last one
first. The empty path is the root. -/
namespace SlotTree

abbrev Tree (ι α : Type) := List ι → Option α

variable {ι α : Type} {t : Tree ι α} {p q : List ι} {i : ι} {a : α}

/-- Every node hangs on one that is there. -/
def Closed (t : Tree ι α) : Prop := ∀ i p, t p = none → t (i :: p) = none

/-- A child does not lie above its parent. -/
theorem not_suffix_parent : ¬(i :: p) <:+ p := by
  intro suffix
  have shorter := suffix.length_le
  rw [List.length_cons] at shorter
  omega

theorem Closed.below (closed : Closed t) (absent : t p = none) (below : p <:+ q) :
    t q = none := by
  induction q with
  | nil =>
    cases List.suffix_nil.mp below
    exact absent
  | cons j q ih =>
    cases List.suffix_cons_iff.mp below with
    | inl same =>
      subst same
      exact absent
    | inr deeper => exact closed j q (ih deeper)

/-- The first of the slots below `p` that holds a node like that. -/
def firstChild (slots : List ι) (like : α → Bool) (t : Tree ι α) (p : List ι) : Option ι :=
  slots.find? fun i => (t (i :: p)).any like

/-- One step along a path of names: up, down, or nowhere. -/
def follow {γ : Type} [DecidableEq γ] (slots : List ι) (like : γ → α → Bool) (self parent : γ)
    (t : Tree ι α) (p : List ι) (name : γ) : Option (List ι) :=
  if name = self then some p
  else if name = parent then some p.tail
  else (firstChild slots (like name) t p).map (· :: p)

/-- The first of the slots below `p` that holds nothing. -/
def firstFree (slots : List ι) (t : Tree ι α) (p : List ι) : Option ι :=
  slots.find? fun i => (t (i :: p)).isNone

/-- Every node is seen through `f`. -/
def image {β : Type} (f : α → β) (t : Tree ι α) : Tree ι β := fun p => (t p).map f

section Image

variable {β γ : Type} {f : α → β}

theorem firstChild_image {slots : List ι} {like : β → Bool} :
    firstChild slots like (image f t) p = firstChild slots (like ∘ f) t p := by
  apply List.find?_congr
  intro i _
  rw [image, Option.any_map]
  rfl

theorem firstFree_image {slots : List ι} : firstFree slots (image f t) p = firstFree slots t p := by
  apply List.find?_congr
  intro i _
  rw [image, Option.isNone_map]

theorem follow_image [DecidableEq γ] {slots : List ι} {like : γ → β → Bool}
    {self parent name : γ} : follow slots like self parent (image f t) p name =
      follow slots (fun c a => like c (f a)) self parent t p name := by
  rw [follow, follow, firstChild_image]
  rfl

end Image

variable [DecidableEq ι]

/-- One node is put at `p`. -/
def graft (t : Tree ι α) (p : List ι) (a : α) : Tree ι α := fun q => if q = p then some a else t q

/-- The node at `p` is taken away, and all that lies below it. -/
def prune (t : Tree ι α) (p : List ι) : Tree ι α := fun q => if p <:+ q then none else t q

/-- The node at `p` is changed where it is. -/
def modify (t : Tree ι α) (p : List ι) (f : α → α) : Tree ι α :=
  fun q => if q = p then (t q).map f else t q

@[simp] theorem graft_self : graft t p a p = some a := if_pos rfl
theorem graft_other (other : q ≠ p) : graft t p a q = t q := if_neg other
theorem prune_below (below : p <:+ q) : prune t p q = none := if_pos below
theorem prune_other (other : ¬p <:+ q) : prune t p q = t q := if_neg other

/-- How the nodes are seen may change with the tree. -/
theorem image_graft {β : Type} {f f' : α → β}
    (agree : ∀ q b, t q = some b → q ≠ p → f' b = f b) :
    image f' (graft t p a) = graft (image f t) p (f' a) := by
  funext q
  by_cases here : q = p
  · subst here
    rw [image, graft_self, graft_self, Option.map_some]
  · rw [image, graft_other here, graft_other here, image]
    exact Option.map_congr fun b there => agree q b there here

theorem image_prune {β : Type} {f f' : α → β}
    (agree : ∀ q b, t q = some b → ¬p <:+ q → f' b = f b) :
    image f' (prune t p) = prune (image f t) p := by
  funext q
  by_cases below : p <:+ q
  · rw [image, prune_below below, prune_below below, Option.map_none]
  · rw [image, prune_other below, prune_other below, image]
    exact Option.map_congr fun b there => agree q b there below

theorem image_modify {β : Type} {f f' : α → β} {g : β → β}
    (agree : ∀ q b, t q = some b → q ≠ p → f' b = f b)
    (here : ∀ b, t p = some b → f' b = g (f b)) :
    image f' t = modify (image f t) p g := by
  funext q
  by_cases same : q = p
  · subst same
    rw [image, modify, if_pos rfl, image, Option.map_map]
    exact Option.map_congr fun b there => here b there
  · rw [image, modify, if_neg same, image]
    exact Option.map_congr fun b there => agree q b there same

/-- Taking away what was just put at a free place restores the tree. -/
theorem prune_graft (closed : Closed t) (free : t p = none) : prune (graft t p a) p = t := by
  funext q
  by_cases below : p <:+ q
  · rw [prune_below below, closed.below free below]
  · have other : q ≠ p := by
      rintro rfl
      exact below List.suffix_rfl
    rw [prune_other below, graft_other other]

/-- A new node like no other child is the first of its kind. -/
theorem firstChild_graft {slots : List ι} {like : α → Bool} (member : i ∈ slots)
    (absent : firstChild slots like t p = none) (new : like a = true) :
    firstChild slots like (graft t (i :: p) a) p = some i := by
  rw [firstChild, List.find?_eq_none] at absent
  obtain ⟨before, after, rfl, first⟩ := List.eq_append_cons_of_mem member
  rw [firstChild, List.find?_eq_some_iff_append]
  refine ⟨by simp [new], before, after, rfl, fun j earlier => ?_⟩
  have other : j :: p ≠ i :: p := by
    intro same
    cases same
    exact first earlier
  rw [graft_other other]
  simpa using absent j (by simp [earlier])

/-- The children of a node differ in what `key` says of them. -/
def Distinct {κ : Type} (key : α → κ) (t : Tree ι α) : Prop :=
  ∀ p i j a b, t (i :: p) = some a → t (j :: p) = some b → key a = key b → i = j

section Distinct

variable {κ : Type} {key : α → κ}

/-- A new leaf that no other child resembles. -/
theorem Distinct.graft (distinct : Distinct key t)
    (new : ∀ j b, t (j :: p) = some b → key b ≠ key a) : Distinct key (graft t (i :: p) a) := by
  intro q j k b c first second same
  by_cases one : j :: q = i :: p
  · cases one
    by_cases two : k :: p = i :: p
    · cases two
      rfl
    · rw [graft_self] at first
      rw [graft_other two] at second
      cases first
      exact absurd same.symm (new k c second)
  · rw [graft_other one] at first
    by_cases two : k :: q = i :: p
    · cases two
      rw [graft_self] at second
      cases second
      exact absurd same (new j b first)
    · rw [graft_other two] at second
      exact distinct q j k b c first second same

theorem Distinct.prune (distinct : Distinct key t) : Distinct key (prune t p) := by
  intro q j k b c first second same
  have there : ∀ l e, SlotTree.prune t p (l :: q) = some e → t (l :: q) = some e := by
    intro l e here
    rw [SlotTree.prune] at here
    split at here
    · cases here
    · exact here
  exact distinct q j k b c (there j b first) (there k c second) same

end Distinct

end SlotTree
