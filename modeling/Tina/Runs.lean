import Mathlib.Data.List.TakeWhile

/-! The maximal runs of a list without separators: where they start and what they are. -/
namespace Runs

variable {α : Type} (sep : α → Bool) {c : α} {t l : List α} {first : Bool} {a : Nat}

/-- At `a` stands no separator and before it one. `first` says which it is at the start. -/
def isStart (first : Bool) (l : List α) : Nat → Bool
  | 0 => first && l[0]?.any fun c => !sep c
  | a + 1 => l[a]?.any sep && l[a + 1]?.any fun c => !sep c

def startsFrom (first : Bool) (l : List α) : List Nat :=
  (List.range l.length).filter (isStart sep first l)

/-- Where the maximal runs start. -/
def starts (l : List α) : List Nat := startsFrom sep true l

/-- What stands from `a` up to the next separator. -/
def runAt (l : List α) (a : Nat) : List α := (l.drop a).takeWhile fun c => !sep c

/-- The maximal runs in their order. -/
def runs (l : List α) : List (List α) := (starts sep l).map (runAt sep l)

theorem isStart_cons (a : Nat) : isStart sep first (c :: t) (a + 1) = isStart sep (sep c) t a := by
  cases a <;> simp [isStart]

theorem startsFrom_cons : startsFrom sep first (c :: t) =
    if first && !sep c then 0 :: (startsFrom sep (sep c) t).map (· + 1)
    else (startsFrom sep (sep c) t).map (· + 1) := by
  have later : ((List.range t.length).map (· + 1)).filter (isStart sep first (c :: t)) =
      (startsFrom sep (sep c) t).map (· + 1) := by
    rw [List.filter_map, startsFrom]
    exact congrArg _ (List.filter_congr fun a _ => isStart_cons sep a)
  have zero : isStart sep first (c :: t) 0 = (first && !sep c) := by simp [isStart]
  rw [startsFrom, List.length_cons, List.range_succ_eq_map, List.filter_cons, zero]
  exact congrArg₂ _ (congrArg _ later) later

/-- Inside a run nothing starts before its end. -/
theorem startsFrom_inside : startsFrom sep false l =
    (starts sep (l.dropWhile fun c => !sep c).tail).map
      (· + ((l.takeWhile fun c => !sep c).length + 1)) := by
  induction l with
  | nil => rfl
  | cons c t ih =>
    rw [startsFrom_cons]
    cases separates : sep c with
    | true => simp [separates, starts]
    | false =>
      simp only [Bool.false_and, Bool.false_eq_true, if_false, ih, List.map_map]
      simp [separates, Function.comp_def, Nat.add_assoc]

theorem runAt_cons : runAt sep (c :: t) (a + 1) = runAt sep t a := rfl

/-- A run ends where the list ends, at the latest. -/
theorem runAt_fits (inside : a ≤ l.length) : a + (runAt sep l a).length ≤ l.length := by
  have shorter := (List.takeWhile_sublist (l := l.drop a) fun c => !sep c).length_le
  rw [List.length_drop] at shorter
  rw [runAt]
  omega

theorem mem_starts (member : a ∈ starts sep l) : a < l.length :=
  List.mem_range.mp (List.mem_filter.mp member).1

/-- The rest of the list after the run it begins with. -/
theorem drop_run : l.drop (a + ((l.takeWhile fun c => !sep c).length + 1)) =
    (l.dropWhile fun c => !sep c).tail.drop a := by
  have split := List.takeWhile_append_dropWhile (p := fun c => !sep c) (l := l)
  generalize (l.takeWhile fun c => !sep c) = w at split
  generalize (l.dropWhile fun c => !sep c) = rest at split
  subst split
  rw [Nat.add_comm, Nat.add_assoc, ← List.drop_drop, List.drop_left, ← List.drop_drop,
    List.drop_one]

section Separator

variable (separates : sep c = true)

include separates

theorem starts_separator : starts sep (c :: t) = (starts sep t).map (· + 1) := by
  simp [starts, startsFrom_cons, separates]

theorem runs_separator : runs sep (c :: t) = runs sep t := by
  simp only [runs, starts_separator sep separates, List.map_map]
  rfl

end Separator

/-- The runs behind the first one. -/
theorem runAt_behind : runAt sep (c :: t) (a + ((t.takeWhile fun c => !sep c).length + 2)) =
    runAt sep (t.dropWhile fun c => !sep c).tail a := by
  have behind := drop_run sep (l := t) (a := a)
  simp only [runAt, ← behind]
  rfl

section Run

variable (other : sep c = false)

include other

theorem starts_run : starts sep (c :: t) = 0 :: (starts sep (t.dropWhile fun c => !sep c).tail).map
    (· + ((t.takeWhile fun c => !sep c).length + 2)) := by
  simp only [starts, startsFrom_cons, other, Bool.not_false, Bool.and_true, if_true,
    startsFrom_inside, List.map_map]
  rfl

theorem runAt_run : runAt sep (c :: t) 0 = c :: t.takeWhile fun c => !sep c := by
  simp [runAt, other]

theorem runs_run : runs sep (c :: t) =
    (c :: t.takeWhile fun c => !sep c) :: runs sep (t.dropWhile fun c => !sep c).tail := by
  simp only [runs, starts_run sep other, List.map_cons, runAt_run sep other, List.map_map]
  exact congrArg _ (List.map_congr_left fun a _ => runAt_behind sep)

end Run

/-- Separators before the first run only move it. -/
theorem starts_padded (separates : sep c = true) (n : Nat) :
    starts sep (List.replicate n c ++ l) = (starts sep l).map (· + n) := by
  induction n with
  | zero => simp
  | succ n ih =>
    rw [List.replicate_succ, List.cons_append, starts_separator sep separates, ih, List.map_map]
    rfl

/-- A list without separators is one run. -/
theorem starts_whole (some : l ≠ []) (others : ∀ c ∈ l, sep c = false) : starts sep l = [0] := by
  obtain ⟨c, t, rfl⟩ := List.exists_cons_of_ne_nil some
  have rest : (t.dropWhile fun c => !sep c) = [] := by
    rw [List.dropWhile_eq_nil_iff]
    intro d member
    rw [others d (List.mem_cons_of_mem c member)]
    rfl
  rw [starts_run sep (others c List.mem_cons_self), rest]
  rfl

end Runs
