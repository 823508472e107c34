import Mathlib.Logic.Function.Basic
import Mathlib.Data.List.Basic
import Mathlib.Tactic.Common

/-! Rings of `n` slots. Positions are counted without wrap-around; position `k` lies in the
slot `k % n`. -/
namespace Ring

variable {α : Type} {n r k : Nat} {buffer : Nat → α} {items : List α} {a : α}

/-- The slots from position `r` on hold `items`. -/
structure Holds (n : Nat) (buffer : Nat → α) (r : Nat) (items : List α) : Prop where
  room : items.length ≤ n
  item : ∀ k < items.length, items[k]? = some (buffer ((r + k) % n))

/-- The slot holds one of `m` items from position `r` on. -/
def Taken (n r m slot : Nat) : Prop := ∃ k < m, (r + k) % n = slot

theorem Holds.nothing : Holds n buffer r [] :=
  ⟨Nat.zero_le n, fun k inside => absurd inside (Nat.not_lt_zero k)⟩

/-- Positions less than `n` apart have slots of their own. -/
theorem slot_ne {i j : Nat} (less : i < j) (close : j < i + n) : i % n ≠ j % n := by
  intro same
  have divides : n ∣ j - i := Nat.dvd_of_mod_eq_zero (Nat.sub_mod_eq_zero_of_mod_eq same.symm)
  have apart := Nat.le_of_dvd (by omega) divides
  omega

theorem free_slot {m : Nat} (free : m < n) : ¬Taken n r m ((r + m) % n) := by
  rintro ⟨k, inside, same⟩
  exact slot_ne (by omega) (by omega) same

theorem Holds.push (holds : Holds n buffer r items) (free : items.length < n) :
    Holds n (Function.update buffer ((r + items.length) % n) a) r (items ++ [a]) := by
  constructor
  · rw [List.length_append]
    exact free
  · intro k inside
    rw [List.length_append, List.length_singleton] at inside
    rcases Nat.lt_succ_iff_lt_or_eq.mp inside with old | rfl
    · have other : (r + k) % n ≠ (r + items.length) % n := slot_ne (by omega) (by omega)
      rw [List.getElem?_append_left old, Function.update_of_ne other]
      exact holds.item k old
    · rw [List.getElem?_concat_length, Function.update_self]

theorem Holds.front (holds : Holds n buffer r (a :: items)) : buffer (r % n) = a := by
  have first := holds.item 0 (Nat.succ_pos _)
  rw [List.getElem?_cons_zero, Nat.add_zero] at first
  exact (Option.some.inj first).symm

theorem Holds.pop (holds : Holds n buffer r (a :: items)) : Holds n buffer (r + 1) items := by
  have room := holds.room
  rw [List.length_cons] at room
  constructor
  · omega
  · intro k inside
    have next := holds.item (k + 1) (Nat.succ_lt_succ inside)
    rwa [List.getElem?_cons_succ, show r + (k + 1) = r + 1 + k by omega] at next

/-- What is taken after one more item is put in. -/
theorem taken_push {m slot : Nat} :
    Taken n r (m + 1) slot ↔ Taken n r m slot ∨ (r + m) % n = slot := by
  constructor
  · rintro ⟨k, inside, same⟩
    rcases Nat.lt_succ_iff_lt_or_eq.mp inside with old | rfl
    · exact .inl ⟨k, old, same⟩
    · exact .inr same
  · rintro (⟨k, inside, same⟩ | same)
    · exact ⟨k, Nat.lt_succ_of_lt inside, same⟩
    · exact ⟨m, Nat.lt_succ_self m, same⟩

/-- What is taken before the first item is taken out. -/
theorem taken_pop {m slot : Nat} :
    Taken n r (m + 1) slot ↔ r % n = slot ∨ Taken n (r + 1) m slot := by
  constructor
  · rintro ⟨k, inside, same⟩
    cases k with
    | zero => exact .inl same
    | succ k => exact .inr ⟨k, Nat.lt_of_succ_lt_succ inside, by rwa [show r + 1 + k = r + (k + 1) by omega]⟩
  · rintro (same | ⟨k, inside, same⟩)
    · exact ⟨0, Nat.succ_pos m, same⟩
    · exact ⟨k + 1, Nat.succ_lt_succ inside, by rwa [show r + (k + 1) = r + 1 + k by omega]⟩

/-- The slot of the first item holds no later one. -/
theorem first_slot {m : Nat} (room : m < n) : ¬Taken n (r + 1) m (r % n) := by
  rintro ⟨k, inside, same⟩
  exact slot_ne (by omega) (by omega) same.symm

end Ring
