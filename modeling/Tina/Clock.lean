import Tina.Machine

/-! How long `sleep` sleeps. The deadline is a 32-bit number of seconds, and what it is
compared with is the quotient of a counter that starts again every 4294.967296 seconds. -/
namespace Tina

open LinkedQueue

variable {k k' k₁ : Kernel} {p : Slot} {time : Word} {fuel start n elapsed : Nat}
  {ticks : List Word}

/-- One round of the selection loop that has dequeued `p`, up to its second `switch`. -/
def look (p : Slot) (k : Kernel) : Kernel := checkSleeping { k with currentRunning := p }

/-- Time in which `p` stays as it is, whatever else happens: the clock moves by `ticks`. -/
structure Meanwhile (p : Slot) (ticks : List Word) (k k' : Kernel) : Prop where
  status : (k'.pcb p).status = (k.pcb p).status
  sleepEnd : (k'.pcb p).sleepEnd = (k.pcb p).sleepEnd
  time : k'.timeElapsed = k.timeElapsed + ticks.foldr (· + ·) 0

/-- A look of the loop at the sleeper: the increments since its last one and the state it
is dequeued in. -/
structure Visit where
  ticks : List Word
  state : Kernel

/-- The visits `p` gets after `k`, in order. -/
def Visits (p : Slot) : Kernel → List Visit → Prop
  | _, [] => True
  | k, visit :: rest => Meanwhile p visit.ticks k visit.state ∧ Visits p (look p visit.state) rest

/-- The first visit in which `p` is made ready. -/
def wakesAt (p : Slot) (visits : List Visit) : Option Nat :=
  visits.findIdx? fun visit => ((look p visit.state).pcb p).status == .ready

def micros (ticks : List Word) : Nat := (ticks.map BitVec.toNat).sum

/-- The first visit that comes `n` ticks of the second or more after `start`, a time in
microseconds; `elapsed` have passed since. -/
def dueAt (start n : Nat) : Nat → List Visit → Option Nat
  | _, [] => none
  | elapsed, visit :: rest =>
    let elapsed := elapsed + micros visit.ticks
    if n ≤ (start + elapsed) / 1000000 - start / 1000000 then some 0
    else (dueAt start n elapsed rest).map (· + 1)

/-- The counter has not been reset before the first visit that is due, or it stands behind
the deadline again; in the visits before, the deadline has not wrapped, or the counter has
not come to what is left of it. -/
def InTime (start n : Nat) : Nat → List Visit → Prop
  | _, [] => True
  | elapsed, visit :: rest =>
    let elapsed := elapsed + micros visit.ticks
    let deadline := start / 1000000 + n
    if n ≤ (start + elapsed) / 1000000 - start / 1000000 then
      start + elapsed < 2 ^ 32 ∨ deadline % 2 ^ 32 * 1000000 ≤ (start + elapsed) % 2 ^ 32
    else
      (deadline < 2 ^ 32 ∨ (start + elapsed) % 2 ^ 32 < deadline % 2 ^ 32 * 1000000) ∧
        InTime start n elapsed rest

/-! What the loop does with a sleeper. -/

theorem select_look {links : Links Item QueueId}
    (first : queueDequeue .ready k.links = (some (.pcb p), links))
    (asleep : (k.pcb p).status = .sleeping) :
    select (fuel + 1) k =
      if ((look p { k with links := links }).pcb p).status = .ready then
        some (look p { k with links := links })
      else select fuel ((look p { k with links := links }).push .ready (.pcb p)) := by
  have current : ({ k with links := links, currentRunning := p } : Kernel).current = k.pcb p := rfl
  rw [select, first]
  simp only [look, checkSleeping, current, asleep, true_and]
  by_cases due : (k.pcb p).sleepEnd ≤ getTimer k
  · have woken : (k.pcb p).sleepEnd ≤
      getTimer ({ k with links := links, currentRunning := p } : Kernel) := due
    simp [woken, Kernel.current, Kernel.setPcb]
  · have not : ¬(k.pcb p).sleepEnd ≤
      getTimer ({ k with links := links, currentRunning := p } : Kernel) := due
    simp [not, Kernel.current, asleep]

/-- `p` sleeps until `n` seconds after `start`, and `elapsed` microseconds have passed. -/
structure Sleeps (start n elapsed : Nat) (p : Slot) (k : Kernel) : Prop where
  status : (k.pcb p).status = .sleeping
  sleepEnd : (k.pcb p).sleepEnd.toNat = (start / 1000000 + n) % 2 ^ 32
  time : k.timeElapsed.toNat = (start + elapsed) % 2 ^ 32

theorem toNat_sum (ticks : List Word) :
    (ticks.foldr (· + ·) 0).toNat = micros ticks % 2 ^ 32 := by
  induction ticks with
  | nil => rfl
  | cons w ws ih =>
    simp only [List.foldr_cons, BitVec.toNat_add, ih, micros, List.map_cons, List.sum_cons]
    exact Nat.add_mod_mod _ _ _

theorem getTimer_toNat (k : Kernel) : (getTimer k).toNat = k.timeElapsed.toNat / 1000000 :=
  BitVec.toNat_udiv

theorem leave_sleeps (left : leave fuel (.sleeping time) k = some k₁) :
    Sleeps k.timeElapsed.toNat time.toNat 0 k.currentRunning k₁ := by
  obtain rfl : _ = k₁ := Option.some.inj left
  constructor
  · simp [Kernel.push, Kernel.setPcb]
  · simp [Kernel.push, Kernel.setPcb, BitVec.toNat_add, getTimer_toNat]
  · have bound := k.timeElapsed.isLt
    simp only [Kernel.push, Kernel.setPcb]
    omega

theorem Sleeps.later (sleeps : Sleeps start n elapsed p k) (meanwhile : Meanwhile p ticks k k') :
    Sleeps start n (elapsed + micros ticks) p k' where
  status := meanwhile.status.trans sleeps.status
  sleepEnd := (congrArg BitVec.toNat meanwhile.sleepEnd).trans sleeps.sleepEnd
  time := by
    rw [meanwhile.time, BitVec.toNat_add, toNat_sum, sleeps.time]
    omega

theorem Sleeps.look_ready (sleeps : Sleeps start n elapsed p k) :
    ((look p k).pcb p).status = .ready ↔
      (start / 1000000 + n) % 2 ^ 32 * 1000000 ≤ (start + elapsed) % 2 ^ 32 := by
  have reached : (k.pcb p).sleepEnd ≤ getTimer k ↔
      (start / 1000000 + n) % 2 ^ 32 * 1000000 ≤ (start + elapsed) % 2 ^ 32 := by
    rw [BitVec.le_def, getTimer_toNat, sleeps.sleepEnd, sleeps.time]
    exact Nat.le_div_iff_mul_le (by omega)
  rw [← reached]
  have current : ({ k with currentRunning := p } : Kernel).current = k.pcb p := rfl
  by_cases due : (k.pcb p).sleepEnd ≤ getTimer k
  · have due' : (k.pcb p).sleepEnd ≤ getTimer ({ k with currentRunning := p } : Kernel) := due
    simp [look, checkSleeping, current, sleeps.status, due, due', Kernel.setPcb]
  · have due' : ¬(k.pcb p).sleepEnd ≤ getTimer ({ k with currentRunning := p } : Kernel) := due
    simp [look, checkSleeping, current, sleeps.status, due, due']

theorem Sleeps.look_sleeps (sleeps : Sleeps start n elapsed p k)
    (not : ((look p k).pcb p).status ≠ .ready) : Sleeps start n elapsed p (look p k) := by
  have same : look p k = { k with currentRunning := p } := by
    rw [look, checkSleeping, if_neg]
    rintro ⟨asleep, due⟩
    exact not (by simp [look, checkSleeping, asleep, due, Kernel.setPcb])
  rw [same]
  exact ⟨sleeps.status, sleeps.sleepEnd, sleeps.time⟩

theorem wakesAt_cons (visit : Visit) (visits : List Visit) : wakesAt p (visit :: visits) =
    if ((look p visit.state).pcb p).status = .ready then some 0
    else (wakesAt p visits).map (· + 1) := by
  simp [wakesAt, List.findIdx?_cons]

/-- What one visit comes to: the due ones are those that come behind the deadline. -/
theorem due_iff : n ≤ (start + elapsed) / 1000000 - start / 1000000 ↔
    start / 1000000 + n ≤ (start + elapsed) / 1000000 := by
  omega

theorem Sleeps.wakesAt_iff (sleeps : Sleeps start n elapsed p k) {visits : List Visit}
    (follow : Visits p k visits) :
    wakesAt p visits = dueAt start n elapsed visits ↔ InTime start n elapsed visits := by
  induction visits generalizing k elapsed with
  | nil => exact ⟨fun _ => trivial, fun _ => rfl⟩
  | cons visit visits ih =>
    obtain ⟨meanwhile, later⟩ := follow
    have now := sleeps.later meanwhile
    rw [wakesAt_cons, dueAt, InTime]
    by_cases due : n ≤ (start + (elapsed + micros visit.ticks)) / 1000000 - start / 1000000
    · -- due: it has to wake now
      simp only [due, if_true]
      have behind := due_iff.mp due
      by_cases ready : ((look p visit.state).pcb p).status = .ready
      · have reached := now.look_ready.mp ready
        simp only [ready, if_true, true_iff]
        exact Or.inr reached
      · have before := mt now.look_ready.mpr ready
        simp only [ready, if_false]
        constructor
        · intro same
          cases found : wakesAt p visits <;> simp [found] at same
        · intro unwrapped
          exact absurd (by omega) before
    · simp only [due, if_false]
      by_cases ready : ((look p visit.state).pcb p).status = .ready
      · have reached := now.look_ready.mp ready
        simp only [ready, if_true]
        constructor
        · intro same
          cases found : dueAt start n (elapsed + micros visit.ticks) visits <;> simp [found] at same
        · rintro ⟨unwrapped, -⟩
          rw [due_iff] at due
          omega
      · have before := mt now.look_ready.mpr ready
        have first : start / 1000000 + n < 2 ^ 32 ∨
            (start + (elapsed + micros visit.ticks)) % 2 ^ 32 <
              (start / 1000000 + n) % 2 ^ 32 * 1000000 := Or.inr (by omega)
        simp only [ready, if_false, first, true_and]
        rw [← ih (now.look_sleeps ready) later]
        exact (Option.map_injective (Nat.succ_injective)).eq_iff

/-- A deadline that is no 32-bit number of microseconds and has not wrapped is never met. -/
theorem Sleeps.never_wakes (sleeps : Sleeps start n elapsed p k) (late : 4294 < start / 1000000 + n)
    (small : start / 1000000 + n < 2 ^ 32) {visits : List Visit} (follow : Visits p k visits) :
    wakesAt p visits = none := by
  induction visits generalizing k elapsed with
  | nil => rfl
  | cons visit visits ih =>
    obtain ⟨meanwhile, later⟩ := follow
    have now := sleeps.later meanwhile
    have not : ((look p visit.state).pcb p).status ≠ .ready := by
      rw [Ne, now.look_ready]
      omega
    rw [wakesAt_cons, if_neg not, ih (now.look_sleeps not) later, Option.map_none]

/-- The sleeper is made ready in the first visit that is due exactly if the two wraps allow it. -/
theorem sleep_on_time_iff {visits : List Visit} (left : leave fuel (.sleeping time) k = some k₁)
    (follow : Visits k.currentRunning k₁ visits) :
    wakesAt k.currentRunning visits = dueAt k.timeElapsed.toNat time.toNat 0 visits ↔
      InTime k.timeElapsed.toNat time.toNat 0 visits :=
  (leave_sleeps left).wakesAt_iff follow

def bootedAt (now : Word) : Kernel := { initPcb someTask with timeElapsed := now }

def oneSecond (now : Word) : List Visit :=
  match leave 0 (.sleeping 1) (bootedAt now) with
  | some k => [⟨[1000000], setTimer 150000000 k⟩]
  | none => []

theorem oneSecond_visits (now : Word) : ∃ k, leave 0 (.sleeping 1) (bootedAt now) = some k ∧
    Visits (bootedAt now).currentRunning k (oneSecond now) :=
  ⟨_, rfl, ⟨rfl, rfl, rfl⟩, trivial⟩

theorem sleep_on_time_second : wakesAt 0 (oneSecond 0) = dueAt 0 1 0 (oneSecond 0) := by
  obtain ⟨k, left, follow⟩ := oneSecond_visits 0
  exact (sleep_on_time_iff left follow).mpr (Or.inl (by decide))

/-- At 4294 seconds `sleep(1)` waits for a second the counter never shows. -/
theorem sleep_never_ends : ¬∀ (fuel : Nat) (time : Word) (k k₁ : Kernel) (visits : List Visit),
    leave fuel (.sleeping time) k = some k₁ → Visits k.currentRunning k₁ visits →
      wakesAt k.currentRunning visits = dueAt k.timeElapsed.toNat time.toNat 0 visits := by
  intro onTime
  obtain ⟨k, left, follow⟩ := oneSecond_visits 4294000000
  have never := (leave_sleeps left).never_wakes (by decide) (by decide) follow
  rw [onTime 0 1 _ _ _ left follow] at never
  exact absurd never (by decide)

end Tina
