import Tina.Disk

/-! The bit maps of `bitmap.c` as sets of numbers. -/
namespace Tina.Files

open ByteBuffer

variable {map : Buffer} {w target : Word} {bound o p : Nat}

/-- Bit `o` of a map. -/
def bit (map : Buffer) (o : Nat) : Bool := (word map (4 * (o / 32))).getLsbD (o % 32)

theorem scan_stops {found : Nat → Bool} (stops : scan bound found < bound) :
    found (scan bound found) = true ∧ ∀ i < scan bound found, found i = false := by
  cases search : (List.range bound).find? found with
  | none =>
    rw [scan, search] at stops
    exact absurd stops (Nat.lt_irrefl bound)
  | some i =>
    obtain ⟨here, _, before⟩ := List.find?_range_eq_some.mp search
    rw [scan, search]
    exact ⟨here, fun j earlier => by simpa using before j earlier⟩

theorem scan_eq {found : Nat → Bool} {i : Nat} (small : i < bound) (here : found i = true)
    (before : ∀ j < i, found j = false) : scan bound found = i := by
  have search : (List.range bound).find? found = some i := by
    apply List.find?_range_eq_some.mpr
    exact ⟨here, List.mem_range.mpr small, fun j earlier => by simp [before j earlier]⟩
  rw [scan, search]
  rfl

/-- The scan finds what is there once. -/
theorem scan_only {found : Nat → Bool} {i : Nat} (small : i < bound) (here : found i = true)
    (only : ∀ j < i, found j = true → j = i) : scan bound found = i := by
  apply scan_eq small here
  intro j earlier
  rw [Bool.eq_false_iff]
  intro there
  exact Nat.ne_of_lt earlier (only j earlier there)

theorem scan_le {found : Nat → Bool} : scan bound found ≤ bound := by
  cases search : (List.range bound).find? found with
  | none => rw [scan, search]; exact Nat.le_refl bound
  | some i =>
    obtain ⟨_, member, _⟩ := List.find?_range_eq_some.mp search
    rw [scan, search]
    exact Nat.le_of_lt (List.mem_range.mp member)

theorem scan_lt {found : Nat → Bool} {i : Nat} (small : i < bound) (here : found i = true) :
    scan bound found < bound := by
  cases search : (List.range bound).find? found with
  | none =>
    have none := List.find?_range_eq_none.mp search i small
    simp [here] at none
  | some j =>
    obtain ⟨_, member, _⟩ := List.find?_range_eq_some.mp search
    rw [scan, search]
    exact List.mem_range.mp member

/-- Scanning further does not change what is found. -/
theorem scan_longer {found : Nat → Bool} {longer : Nat} (stops : scan bound found < bound)
    (more : bound ≤ longer) : scan longer found = scan bound found := by
  obtain ⟨here, before⟩ := scan_stops stops
  exact scan_eq (Nat.lt_of_lt_of_le stops more) here before

/-- An early exit inside one element of the range. -/
theorem findSome?_range {α : Type} {f : Nat → Option α} {n : Nat} :
    (∀ i < n, f i = none) ∧ (List.range n).findSome? f = none ∨
    ∃ i < n, ∃ a, f i = some a ∧ (List.range n).findSome? f = some a ∧
      ∀ j < i, f j = none := by
  induction n with
  | zero =>
    left
    exact ⟨fun i small => absurd small (Nat.not_lt_zero i), rfl⟩
  | succ n ih =>
    rw [List.range_succ, List.findSome?_append]
    rcases ih with ⟨none, search⟩ | ⟨i, small, a, here, search, before⟩
    · cases last : f n with
      | none =>
        left
        refine ⟨fun i small => ?_, by simp [search, last]⟩
        rcases Nat.lt_succ_iff_lt_or_eq.mp small with earlier | rfl
        · exact none i earlier
        · exact last
      | some a =>
        right
        exact ⟨n, Nat.lt_succ_self n, a, last, by simp [search, last], none⟩
    · right
      exact ⟨i, Nat.lt_succ_of_lt small, a, here, by simp [search], before⟩

/-- The test of the inner loop reads one bit. -/
theorem mask_eq (small : o < 32) (binary : target = 0 ∨ target = 1) :
    ((1#32 <<< o) &&& w = target <<< o) ↔ w.getLsbD o = decide (target = 1) := by
  constructor
  · intro same
    have here := congrArg (fun v => v.getLsbD o) same
    rcases binary with rfl | rfl
    · simpa [small] using here
    · simpa [small] using here
  · intro here
    apply BitVec.eq_of_getLsbD_eq
    intro k inside
    rcases binary with rfl | rfl
    · simp only [BitVec.getLsbD_and, BitVec.getLsbD_shiftLeft, BitVec.getLsbD_one]
      by_cases same : k = o
      · subst k
        simp [here]
      · simp
        omega
    · simp only [BitVec.getLsbD_and, BitVec.getLsbD_shiftLeft, BitVec.getLsbD_one]
      by_cases same : k = o
      · subst k
        simp [here]
      · simp
        omega

/-- `flat`: no bit of such a word is the target. -/
def flatWord (target : Word) : Word := if target = 1 then 0 else 0xffffffff

theorem flatWord_bit (binary : target = 0 ∨ target = 1) (small : o < 32) :
    (flatWord target).getLsbD o ≠ decide (target = 1) := by
  rcases binary with rfl | rfl
  · have ones : flatWord 0 = BitVec.allOnes 32 := by decide
    rw [ones, BitVec.getLsbD_allOnes]
    simp [small]
  · have zeros : flatWord 1 = 0#32 := by decide
    rw [zeros, BitVec.getLsbD_zero]
    simp

/-- What the outer loop does with word `i`. -/
def searchWord (map : Buffer) (target : Word) (i : Nat) : Option Int :=
  if word map (4 * i) = flatWord target then none
  else
    ((List.range 32).find? fun j =>
      (1#32 <<< j) &&& word map (4 * i) = target <<< j).map fun j => ((32 * i + j : Nat) : Int)

theorem bitmapSearch_eq (binary : target = 0 ∨ target = 1) :
    bitmapSearch map target bound =
      ((List.range (bound / 32)).findSome? (searchWord map target)).getD (-2) := by
  rw [bitmapSearch, if_neg]
  · rfl
  · rcases binary with rfl | rfl <;> decide

theorem bit_eq {i j : Nat} (small : j < 32) :
    bit map (32 * i + j) = (word map (4 * i)).getLsbD j := by
  rw [bit, show (32 * i + j) / 32 = i by omega, show (32 * i + j) % 32 = j by omega]

theorem searchWord_none (binary : target = 0 ∨ target = 1) {i : Nat}
    (none : searchWord map target i = none) (j : Nat) (small : j < 32) :
    bit map (32 * i + j) ≠ decide (target = 1) := by
  rw [bit_eq small]
  by_cases flat : word map (4 * i) = flatWord target
  · rw [flat]
    exact flatWord_bit binary small
  · rw [searchWord, if_neg flat, Option.map_eq_none_iff, List.find?_range_eq_none] at none
    have differs := none j small
    intro same
    have := (mask_eq small binary).mpr same
    simp [this] at differs

theorem searchWord_some (binary : target = 0 ∨ target = 1) {i : Nat} {r : Int}
    (found : searchWord map target i = some r) :
    ∃ j < 32, r = ((32 * i + j : Nat) : Int) ∧ bit map (32 * i + j) = decide (target = 1) ∧
      ∀ k < j, bit map (32 * i + k) ≠ decide (target = 1) := by
  rw [searchWord] at found
  split at found
  · cases found
  · obtain ⟨j, search, rfl⟩ := Option.map_eq_some_iff.mp found
    obtain ⟨here, member, before⟩ := List.find?_range_eq_some.mp search
    have small : j < 32 := List.mem_range.mp member
    refine ⟨j, small, rfl, ?_, fun k earlier => ?_⟩
    · rw [bit_eq small]
      exact (mask_eq small binary).mp (by simpa using here)
    · rw [bit_eq (by omega)]
      have differs := before k earlier
      intro same
      have := (mask_eq (by omega) binary).mpr same
      simp [this] at differs

/-- The search returns the least number with that bit, or `-2` when there is none. -/
theorem bitmapSearch_spec (binary : target = 0 ∨ target = 1) (whole : bound % 32 = 0) :
    bitmapSearch map target bound = -2 ∧ (∀ o < bound, bit map o ≠ decide (target = 1)) ∨
    ∃ o < bound, bitmapSearch map target bound = o ∧ bit map o = decide (target = 1) ∧
      ∀ p < o, bit map p ≠ decide (target = 1) := by
  have apart : ∀ {n}, (∀ i < n, searchWord map target i = none) →
      ∀ p < 32 * n, bit map p ≠ decide (target = 1) := by
    intro n none p small
    have := searchWord_none binary (none (p / 32) (by omega)) (p % 32) (by omega)
    rwa [show 32 * (p / 32) + p % 32 = p by omega] at this
  rw [bitmapSearch_eq binary]
  rcases findSome?_range (f := searchWord map target) (n := bound / 32) with
    ⟨none, search⟩ | ⟨i, small, r, here, search, before⟩
  · left
    refine ⟨by rw [search]; rfl, fun o inside => ?_⟩
    exact apart none o (by omega)
  · right
    obtain ⟨j, inside, rfl, isBit, first⟩ := searchWord_some binary here
    refine ⟨32 * i + j, by omega, by rw [search]; rfl, isBit, fun p earlier => ?_⟩
    by_cases low : p < 32 * i
    · exact apart before p low
    · have := first (p - 32 * i) (by omega)
      rwa [show 32 * i + (p - 32 * i) = p by omega] at this

/-- An update sets one bit and keeps the others. -/
theorem bit_bitmapModify (binary : target = 0 ∨ target = 1) :
    bit (bitmapModify map target o) p = if p = o then decide (target = 1) else bit map p := by
  have positive : (0 : Int) ≤ o := Int.natCast_nonneg o
  have index : ((o : Int).tdiv 32).toNat = o / 32 := by
    rw [Int.tdiv_eq_ediv_of_nonneg positive]
    omega
  have shift : ((o : Int).tmod 32 % 32).toNat = o % 32 := by
    rw [Int.tmod_eq_emod_of_nonneg positive]
    omega
  have update : bitmapModify map target o = setWord (4 * (o / 32))
      ((word map (4 * (o / 32)) &&& ~~~(1#32 <<< (o % 32))) ||| target <<< (o % 32)) map := by
    rw [bitmapModify, if_neg (by rcases binary with rfl | rfl <;> decide), index, shift]
  rw [bit, update]
  by_cases sameWord : p / 32 = o / 32
  · rw [sameWord, word_setWord]
    simp only [BitVec.getLsbD_or, BitVec.getLsbD_and, BitVec.getLsbD_not,
      BitVec.getLsbD_shiftLeft, BitVec.getLsbD_one]
    by_cases same : p = o
    · subst p
      have inside : o % 32 < 32 := by omega
      rcases binary with rfl | rfl <;> simp [inside]
    · rw [if_neg same, bit, sameWord]
      have inside : p % 32 < 32 := by omega
      have apart : p % 32 < o % 32 ∨ o % 32 < p % 32 := by omega
      rcases apart with low | high
      · rcases binary with rfl | rfl <;> simp [inside, low]
      · have later : p % 32 - o % 32 ≠ 0 := by omega
        rcases binary with rfl | rfl <;> simp [inside, later]
  · have other : p ≠ o := by
      rintro rfl
      exact sameWord rfl
    rw [if_neg other, word_setWord_other (by omega), bit]

end Tina.Files
