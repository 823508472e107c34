import Tina.Program

/-! Contracts for programs of atomic steps: from every state that satisfies the precondition
the program runs to its end, leaves a state that satisfies the postcondition, and passes
through no state that breaks a condition on the way. -/
namespace Atomic

variable {σ α β : Type}

structure Meets (always pre : σ → Prop) (p : Program σ α) (post : α → σ → Prop) : Prop where
  visited : ∀ {s}, pre s → ∀ t ∈ visits p s, always t
  ends : ∀ {s}, pre s → ∃ a t, run p s = some (a, t) ∧ post a t

variable {always pre : σ → Prop} {p : Program σ α} {post m : α → σ → Prop} {a : α}
  {f : α → Program σ β} {after : β → σ → Prop} {act : σ → σ}

theorem Meets.pure (safe : ∀ s, pre s → always s) (holds : ∀ s, pre s → post a s) :
    Meets always pre (Pure.pure a) post where
  visited {s} ok t visit := by
    obtain rfl : t = s := visit
    exact safe t ok
  ends {s} ok := ⟨a, s, rfl, holds s ok⟩

theorem Meets.read {see : σ → α} (safe : ∀ s, pre s → always s)
    (holds : ∀ s, pre s → post (see s) s) : Meets always pre (Atomic.read see) post where
  visited {s} ok t visit := by
    rw [visits_read] at visit
    obtain rfl : t = s := visit
    exact safe t ok
  ends {s} ok := ⟨see s, s, rfl, holds s ok⟩

theorem Meets.change {post : Unit → σ → Prop} (safe : ∀ s, pre s → always s)
    (new : ∀ s, pre s → always (act s)) (holds : ∀ s, pre s → post () (act s)) :
    Meets always pre (Atomic.change act) post where
  visited {s} ok t visit := by
    rw [visits_change] at visit
    rcases visit with rfl | rfl
    · exact safe t ok
    · exact new s ok
  ends {s} ok := ⟨(), act s, rfl, holds s ok⟩

theorem Meets.bind (first : Meets always pre p m)
    (rest : ∀ a, Meets always (m a) (f a) after) : Meets always pre (p >>= f) after where
  visited {s} ok t visit := by
    rcases visits_bind.mp visit with early | ⟨⟨a, u⟩, result, late⟩
    · exact first.visited ok t early
    · obtain ⟨b, v, result', holds⟩ := first.ends ok
      obtain ⟨rfl, rfl⟩ := Prod.mk.inj (Option.some.inj (result.symm.trans result'))
      exact (rest a).visited holds t late
  ends {s} ok := by
    obtain ⟨a, u, result, holds⟩ := first.ends ok
    obtain ⟨b, t, result', holds'⟩ := (rest a).ends holds
    exact ⟨b, t, (run_then result).trans result', holds'⟩

theorem Meets.weaken {pre' : σ → Prop} {post' : α → σ → Prop} (meets : Meets always pre p post)
    (before : ∀ s, pre' s → pre s) (holds : ∀ a s, post a s → post' a s) :
    Meets always pre' p post' where
  visited ok := meets.visited (before _ ok)
  ends ok := by
    obtain ⟨a, t, result, done⟩ := meets.ends (before _ ok)
    exact ⟨a, t, result, holds a t done⟩

/-- A condition that no state satisfying the precondition decides otherwise. -/
theorem Meets.ite {c : Prop} [Decidable c] {q : Program σ α}
    (yes : c → Meets always pre p post) (no : ¬c → Meets always pre q post) :
    Meets always pre (if c then p else q) post := by
  split
  next holds => exact yes holds
  next fails => exact no fails

/-- A fact about the precondition that does not depend on the state. -/
theorem Meets.given {c : Prop} (known : ∀ s, pre s → c) (meets : c → Meets always pre p post) :
    Meets always pre p post where
  visited ok := (meets (known _ ok)).visited ok
  ends ok := (meets (known _ ok)).ends ok

/-- What a program does not touch stays as it was. -/
theorem Meets.frame {γ : Type} {see : σ → γ} (P : γ → Prop) (leaves : Leaves see p)
    (meets : Meets always pre p post) :
    Meets always (fun s => pre s ∧ P (see s)) p fun a s => post a s ∧ P (see s) where
  visited ok := meets.visited ok.1
  ends ok := by
    obtain ⟨a, t, result, holds⟩ := meets.ends ok.1
    exact ⟨a, t, result, holds, leaves.run result ▸ ok.2⟩

/-- `for (i = first; i < first + n; i++)`. -/
def loop (first : Int) : Nat → (Int → Program σ Unit) → Program σ Unit
  | 0, _ => Pure.pure ()
  | n + 1, body => do
    body first
    loop (first + 1) n body

/-- The invariant of a loop is about the states before each round. -/
theorem Meets.loop {I : Int → σ → Prop} {body : Int → Program σ Unit} {n : Nat}
    {first : Int} (safe : ∀ i s, I i s → always s)
    (round : ∀ i, first ≤ i → i < first + n →
      Meets always (I i) (body i) fun _ => I (i + 1)) :
    Meets always (I first) (Atomic.loop first n body)
      fun _ => I (first + n) := by
  induction n generalizing first with
  | zero =>
    have here : first + (0 : Nat) = first := by omega
    rw [here]
    exact .pure (safe first) fun _ => id
  | succ n ih =>
    have rest : Meets always (I (first + 1)) (Atomic.loop (first + 1) n body)
        fun _ => I (first + 1 + n) := ih fun i low high => round i (by omega) (by omega)
    have last : first + 1 + (n : Int) = first + (n + 1 : Nat) := by omega
    rw [last] at rest
    exact (round first (Int.le_refl _) (by omega)).bind fun _ => rest

theorem Leaves.loop {γ : Type} {see : σ → γ} {body : Int → Program σ Unit} {n : Nat} {first : Int}
    (round : ∀ i, Leaves see (body i)) : Leaves see (Atomic.loop first n body) := by
  induction n generalizing first with
  | zero => exact .pure
  | succ n ih => exact .bind (round first) fun _ => ih

/-- Every step keeps a property of the state. -/
def Keeps (P : σ → Prop) : Program σ α → Prop
  | .done _ => True
  | .undefined => True
  | .step act next => ∀ s, P s → P (act s) ∧ Keeps P (next s)

section Keeps

variable {P : σ → Prop} {s t : σ}

theorem Keeps.pure : Keeps P (Pure.pure a : Program σ α) := trivial

theorem Keeps.change (keeps : ∀ s, P s → P (act s)) : Keeps P (Atomic.change act) :=
  fun s holds => ⟨keeps s holds, trivial⟩

theorem Keeps.read {see : σ → α} : Keeps P (Atomic.read see) := fun _ holds => ⟨holds, trivial⟩

/-- What is read is known from the property. -/
theorem Keeps.readBind {see : σ → α} (rest : ∀ s, P s → Keeps P (f (see s))) :
    Keeps P (Atomic.read see >>= f) := fun s holds => ⟨holds, rest s holds⟩

theorem Keeps.bind (first : Keeps P p) (rest : ∀ a, Keeps P (f a)) : Keeps P (p >>= f) := by
  change Keeps P (p.bind f)
  induction p with
  | done a => exact rest a
  | undefined => exact trivial
  | step act next ih => exact fun s holds => ⟨(first s holds).1, ih s (first s holds).2⟩

theorem Keeps.ite {c : Prop} [Decidable c] {q : Program σ α} (yes : c → Keeps P p)
    (no : ¬c → Keeps P q) : Keeps P (if c then p else q) := by
  split
  next holds => exact yes holds
  next fails => exact no fails

theorem Keeps.loop {body : Int → Program σ Unit} {n : Nat} {first : Int}
    (round : ∀ i, Keeps P (body i)) : Keeps P (Atomic.loop first n body) := by
  induction n generalizing first with
  | zero => exact .pure
  | succ n ih => exact .bind (round first) fun _ => ih

theorem Keeps.run (keeps : Keeps P p) (result : Atomic.run p s = some (a, t)) (holds : P s) :
    P t := by
  induction p generalizing s with
  | done b =>
    cases result
    exact holds
  | undefined => cases result
  | step act next ih => exact ih s (keeps s holds).2 result (keeps s holds).1

end Keeps

end Atomic
