import Tina.Buffer
import Tina.Runs

/-! Splitting a string in place: a loop that skips separators and notes where the others start,
and one inside it that overwrites the separator behind each of them with a zero byte. -/
namespace Splitting

open ByteBuffer Runs

/-- The string `text` stands at `i`, with its zero byte. -/
def Reads (buf : Buffer) (i : Nat) : List Byte → Prop
  | [] => buf i = 0
  | c :: text => buf i = c ∧ c ≠ 0 ∧ Reads buf (i + 1) text

def isSep (sep c : Byte) : Bool := c == sep

/-- From inside a run to what follows the separator behind it. The array has `size` bytes;
none for an access outside. -/
def endRun (sep : Byte) (size : Nat) : Nat → Buffer → Nat → Option (Buffer × Nat)
  | 0, _, _ => none
  | fuel + 1, buf, i =>
    if size ≤ i then none
    else if buf i = 0 then some (buf, i)
    else if buf i = sep then some (Function.update buf i 0, i + 1)
    else endRun sep size fuel buf (i + 1)

/-- `args` are the places noted so far, of which there is room for `max`. -/
def splitRuns (sep : Byte) (size max : Nat) : Nat → Buffer → Nat → List Nat →
    Option (Buffer × List Nat)
  | 0, _, _, _ => none
  | fuel + 1, buf, i, args =>
    if size ≤ i then none
    else if buf i = 0 then some (buf, args)
    else if buf i = sep then splitRuns sep size max fuel buf (i + 1) args
    else if max ≤ args.length then none
    else match endRun sep size fuel buf (i + 1) with
      | none => none
      | some (buf, j) => splitRuns sep size max fuel buf j (args ++ [i])

variable {sep c : Byte} {size max fuel i k n : Nat} {buf buf' : Buffer} {args : List Nat}
  {text : List Byte}

theorem Reads.congr (reads : Reads buf i text)
    (same : ∀ k, i ≤ k → k ≤ i + text.length → buf' k = buf k) : Reads buf' i text := by
  induction text generalizing i with
  | nil => exact (same i (by omega) (by simp)).trans reads
  | cons c text ih =>
    obtain ⟨here, other, rest⟩ := reads
    rw [List.length_cons] at same
    exact ⟨(same i (by omega) (by omega)).trans here, other,
      ih rest fun k low high => same k (by omega) (by omega)⟩

theorem reads_of (bytes : ∀ k < text.length, buf (i + k) = text.getD k 0)
    (noNul : ∀ c ∈ text, c ≠ 0) (zero : buf (i + text.length) = 0) : Reads buf i text := by
  induction text generalizing i with
  | nil => exact zero
  | cons c text ih =>
    refine ⟨bytes 0 (Nat.zero_lt_succ _), noNul c List.mem_cons_self, ih (fun k low => ?_)
      (fun d member => noNul d (List.mem_cons_of_mem c member)) ?_⟩
    · rw [Nat.add_assoc, Nat.add_comm 1]
      exact bytes (k + 1) (Nat.succ_lt_succ low)
    · rwa [Nat.add_assoc, Nat.add_comm 1]

theorem strcpy_reads (noNul : ∀ c ∈ text, c ≠ 0) : Reads (strcpy i text buf) i text := by
  induction text generalizing i buf with
  | nil => exact strcpy_end (s := [])
  | cons c text ih =>
    have first : strcpy i (c :: text) buf i = c := strcpy_inside (k := 0) (by simp)
    exact ⟨first, noNul c List.mem_cons_self,
      ih fun d member => noNul d (List.mem_cons_of_mem c member)⟩

theorem Reads.cstring (reads : Reads buf i text) (inside : text.length < n) :
    cstring buf i n = text := by
  induction text generalizing i n with
  | nil =>
    obtain ⟨n, rfl⟩ := Nat.exists_eq_add_of_lt inside
    simp only [Reads] at reads
    simp [ByteBuffer.cstring, reads]
  | cons c text ih =>
    obtain ⟨here, other, rest⟩ := reads
    rw [List.length_cons] at inside
    obtain ⟨n, rfl⟩ := Nat.exists_eq_add_of_lt inside
    rw [show text.length + 1 + n + 1 = (text.length + n + 1) + 1 by omega, ByteBuffer.cstring,
      here, if_neg other, ih rest (by omega)]

/-- The zero byte of a string. -/
theorem Reads.terminated (reads : Reads buf i text) : buf (i + text.length) = 0 := by
  induction text generalizing i with
  | nil => exact reads
  | cons c text ih =>
    have last := ih reads.2.2
    rwa [Nat.add_assoc, Nat.add_comm 1] at last

/-- The inner loop leaves the rest of its run, ended by a zero byte, and stands before what
follows the separator. -/
theorem endRun_returns (reads : Reads buf i text) (inside : i + text.length < size)
    (enough : text.length < fuel) : ∃ buf' j, endRun sep size fuel buf i = some (buf', j) ∧
      (∀ k < i, buf' k = buf k) ∧ Reads buf' i (text.takeWhile fun c => !isSep sep c) ∧
      Reads buf' j (text.dropWhile fun c => !isSep sep c).tail ∧
      i + (text.takeWhile fun c => !isSep sep c).length ≤ j ∧
      j + (text.dropWhile fun c => !isSep sep c).tail.length ≤ i + text.length ∧
      ((text.dropWhile fun c => !isSep sep c) ≠ [] →
        j = i + (text.takeWhile fun c => !isSep sep c).length + 1) := by
  induction text generalizing buf i fuel with
  | nil =>
    obtain ⟨fuel, rfl⟩ := Nat.exists_eq_add_of_lt enough
    have here : buf i = 0 := reads
    have low : ¬size ≤ i := Nat.not_le.mpr inside
    refine ⟨buf, i, ?_, fun _ _ => rfl, here, here, Nat.le_refl i, Nat.le_refl i, fun no => ?_⟩
    · rw [endRun, if_neg low, if_pos here]
    · exact absurd rfl no
  | cons c text ih =>
    obtain ⟨here, other, rest⟩ := reads
    rw [List.length_cons] at inside enough
    obtain ⟨fuel, rfl⟩ := Nat.exists_eq_add_one.mpr (Nat.zero_lt_of_lt enough)
    have low : ¬size ≤ i := by omega
    rw [endRun, if_neg low, here, if_neg other]
    by_cases ends : c = sep
    · rw [if_pos ends]
      have later : Reads (Function.update buf i 0) (i + 1) text :=
        rest.congr fun k low _ => Function.update_of_ne (by omega) ..
      refine ⟨_, _, rfl, fun k low => Function.update_of_ne (by omega) .., ?_, ?_, ?_⟩
      · simp [ends, isSep, Reads]
      · simpa [ends, isSep] using later
      · simp [ends, isSep]
        omega
    · rw [if_neg ends]
      obtain ⟨buf', j, result, frame, front, back, above, below, behind⟩ :=
        ih rest (by omega) (Nat.lt_of_succ_lt_succ enough)
      have apart : isSep sep c = false := by simpa [isSep] using ends
      refine ⟨buf', j, result, fun k low => frame k (by omega), ?_, ?_, ?_⟩
      · simp only [List.takeWhile_cons, apart, Bool.not_false, if_true]
        exact ⟨(frame i (by omega)).trans here, other, front⟩
      · simpa [apart] using back
      · simp only [List.takeWhile_cons, List.dropWhile_cons, apart, Bool.not_false, if_true,
          List.length_cons]
        exact ⟨by omega, by omega, fun some => by have := behind some; omega⟩

/-- What the outer loop does with the rest of the string: it appends the places of the runs,
which the array then holds each as a string, and changes nothing up to where it stands. -/
theorem splitRuns_returns (reads : Reads buf i text) (inside : i + text.length < size)
    (enough : text.length < fuel) (room : args.length + (runs (isSep sep) text).length ≤ max) :
    ∃ buf', splitRuns sep size max fuel buf i args =
        some (buf', args ++ (starts (isSep sep) text).map (· + i)) ∧
      (∀ k ≤ i, buf' k = buf k) ∧
      ∀ a ∈ starts (isSep sep) text, Reads buf' (a + i) (runAt (isSep sep) text a) := by
  induction fuel generalizing buf i args text with
  | zero => omega
  | succ fuel ih =>
    have low : ¬size ≤ i := by omega
    rw [splitRuns, if_neg low]
    cases text with
    | nil =>
      have here : buf i = 0 := reads
      refine ⟨buf, ?_, fun _ _ => rfl, fun a member => by cases member⟩
      rw [if_pos here]
      simp [starts, startsFrom]
    | cons c text =>
      obtain ⟨here, other, rest⟩ := reads
      rw [List.length_cons] at inside enough
      rw [here, if_neg other]
      by_cases ends : c = sep
      · have separates : isSep sep c = true := by simp [ends, isSep]
        have shift := starts_separator (isSep sep) (t := text) separates
        rw [runs_separator (isSep sep) separates] at room
        obtain ⟨buf', result, frame, found⟩ := ih rest (by omega) (by omega) room
        refine ⟨buf', ?_, fun k low => frame k (by omega), ?_⟩
        · rw [if_pos ends, result, shift, List.map_map]
          simp [Function.comp_def, Nat.add_assoc, Nat.add_comm 1]
        · intro a member
          rw [shift] at member
          obtain ⟨e, started, rfl⟩ := List.mem_map.mp member
          rw [runAt_cons, Nat.add_assoc, Nat.add_comm 1]
          exact found e started
      · have apart : isSep sep c = false := by simpa [isSep] using ends
        rw [runs_run (isSep sep) apart, List.length_cons] at room
        obtain ⟨buf₁, j, inner, kept, front, back, above, below, behind⟩ :=
          @endRun_returns sep size fuel (i + 1) buf text rest (by omega)
            (Nat.lt_of_succ_lt_succ enough)
        have more : (args ++ [i]).length +
            (runs (isSep sep) (text.dropWhile fun c => !isSep sep c).tail).length ≤ max := by
          rw [List.length_append, List.length_singleton]
          omega
        obtain ⟨buf', result, frame, found⟩ := ih back (by omega) (by omega) more
        -- behind the last run nothing follows that could start elsewhere
        have place : ∀ a ∈ starts (isSep sep) (text.dropWhile fun c => !isSep sep c).tail,
            j = i + (text.takeWhile fun c => !isSep sep c).length + 2 := by
          intro a member
          have some : (text.dropWhile fun c => !isSep sep c) ≠ [] := by
            intro none
            rw [none] at member
            cases member
          have := behind some
          omega
        have shift := starts_run (isSep sep) (t := text) apart
        refine ⟨buf', ?_, fun k low => ?_, ?_⟩
        · rw [if_neg ends, if_neg (by omega), inner]
          simp only [result, shift, List.map_cons, List.map_map, List.append_assoc,
            List.singleton_append, Nat.zero_add]
          congr 4
          apply List.map_congr_left
          intro a member
          have := place a member
          simp only [Function.comp_apply]
          omega
        · rw [frame k (by omega), kept k (by omega)]
        · intro a member
          rw [shift] at member
          rcases List.mem_cons.mp member with rfl | later
          · rw [runAt_run (isSep sep) apart, Nat.zero_add]
            refine ⟨?_, other, front.congr fun k low high => frame k (by omega)⟩
            rw [frame i (by omega), kept i (by omega), here]
          · obtain ⟨e, started, rfl⟩ := List.mem_map.mp later
            have := place e started
            rw [runAt_behind, show e + ((text.takeWhile fun c => !isSep sep c).length + 2) + i =
              e + j by omega]
            exact found e started

/-- With more runs than there is room for, a place is noted outside. -/
theorem splitRuns_overflow (reads : Reads buf i text) (inside : i + text.length < size)
    (enough : text.length < fuel) (room : args.length ≤ max)
    (many : max < args.length + (runs (isSep sep) text).length) :
    splitRuns sep size max fuel buf i args = none := by
  induction fuel generalizing buf i args text with
  | zero => rfl
  | succ fuel ih =>
    have low : ¬size ≤ i := by omega
    rw [splitRuns, if_neg low]
    cases text with
    | nil =>
      have none : (runs (isSep sep) []).length = 0 := rfl
      omega
    | cons c text =>
      obtain ⟨here, other, rest⟩ := reads
      rw [List.length_cons] at inside enough
      rw [here, if_neg other]
      by_cases ends : c = sep
      · have separates : isSep sep c = true := by simp [ends, isSep]
        rw [runs_separator (isSep sep) separates] at many
        rw [if_pos ends]
        exact ih rest (by omega) (by omega) room many
      · have apart : isSep sep c = false := by simpa [isSep] using ends
        rw [runs_run (isSep sep) apart, List.length_cons] at many
        rw [if_neg ends]
        by_cases full : max ≤ args.length
        · exact if_pos full
        · obtain ⟨buf₁, j, inner, _, _, back, above, below, _⟩ :=
            @endRun_returns sep size fuel (i + 1) buf text rest (by omega)
            (Nat.lt_of_succ_lt_succ enough)
          have length : (args ++ [i]).length = args.length + 1 := by simp
          rw [if_neg full, inner]
          exact ih back (by omega) (by omega) (by omega) (by omega)

theorem endRun_frame {j : Nat} (result : endRun sep size fuel buf i = some (buf', j))
    (behind : size ≤ k) : buf' k = buf k := by
  induction fuel generalizing i with
  | zero => cases result
  | succ fuel ih =>
    rw [endRun] at result
    split at result
    · cases result
    · split at result
      · cases result
        rfl
      · split at result
        · cases result
          exact Function.update_of_ne (by omega) ..
        · exact ih result

theorem splitRuns_frame {args' : List Nat}
    (result : splitRuns sep size max fuel buf i args = some (buf', args')) (behind : size ≤ k) :
    buf' k = buf k := by
  induction fuel generalizing buf i args with
  | zero => cases result
  | succ fuel ih =>
    rw [splitRuns] at result
    split at result
    · cases result
    · split at result
      · cases result
        rfl
      · split at result
        · exact ih result
        · split at result
          · cases result
          · split at result
            next => cases result
            next inner => exact (ih result).trans (endRun_frame inner behind)

section Wider

variable {size' fuel' : Nat} (more : size ≤ size') (enough : fuel ≤ fuel')

include more enough

/-- What ends inside an array ends inside a longer one. -/
theorem endRun_wider {r : Buffer × Nat} (result : endRun sep size fuel buf i = some r) :
    endRun sep size' fuel' buf i = some r := by
  induction fuel generalizing fuel' i with
  | zero => cases result
  | succ fuel ih =>
    obtain ⟨fuel', rfl⟩ := Nat.exists_eq_add_one.mpr (Nat.zero_lt_of_lt enough)
    rw [endRun] at result ⊢
    by_cases outside : size ≤ i
    · rw [if_pos outside] at result
      cases result
    · rw [if_neg outside] at result
      rw [if_neg (by omega)]
      by_cases zero : buf i = 0
      · rwa [if_pos zero] at result ⊢
      · rw [if_neg zero] at result ⊢
        by_cases ends : buf i = sep
        · rwa [if_pos ends] at result ⊢
        · rw [if_neg ends] at result ⊢
          exact ih (Nat.le_of_succ_le_succ enough) result

theorem splitRuns_wider {r : Buffer × List Nat}
    (result : splitRuns sep size max fuel buf i args = some r) :
    splitRuns sep size' max fuel' buf i args = some r := by
  induction fuel generalizing fuel' buf i args with
  | zero => cases result
  | succ fuel ih =>
    obtain ⟨fuel', rfl⟩ := Nat.exists_eq_add_one.mpr (Nat.zero_lt_of_lt enough)
    have enough' := Nat.le_of_succ_le_succ enough
    rw [splitRuns] at result ⊢
    by_cases outside : size ≤ i
    · rw [if_pos outside] at result
      cases result
    · rw [if_neg outside] at result
      rw [if_neg (by omega)]
      by_cases zero : buf i = 0
      · rwa [if_pos zero] at result ⊢
      · rw [if_neg zero] at result ⊢
        by_cases separates : buf i = sep
        · rw [if_pos separates] at result ⊢
          exact ih enough' result
        · rw [if_neg separates] at result ⊢
          by_cases full : max ≤ args.length
          · rw [if_pos full] at result
            cases result
          · rw [if_neg full] at result ⊢
            cases inner : endRun sep size fuel buf (i + 1) with
            | none =>
              rw [inner] at result
              cases result
            | some r =>
              rw [inner] at result
              rw [endRun_wider more enough' inner]
              exact ih enough' result

end Wider

end Splitting
