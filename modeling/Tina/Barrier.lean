import Tina.Quiet

/-! Barriers and their generations. Arrivals are numbered by the history; the queue
of a barrier is the unfinished generation. -/
namespace Tina

open LinkedQueue Transition

variable {k k' m : Kernel} {L L' M : Lists} {off : Set Slot} {p i : Slot} {q : QueueId}
  {l : Mutex} {b c n : Nat} {event : Event} {shell : TaskInfo} {fuel : Nat} {clk : Word}

/-- A `do_barrier_wait` that waits for the rest of its generation. -/
structure Joined (b : Nat) (k : Kernel) (L : Lists) (k' : Kernel) (L' : Lists) : Prop where
  queue : L' (.barrier b) = L (.barrier b) ++ [.pcb k.currentRunning]
  others : ∀ q, q ≠ .ready → q ≠ .barrier b → L' q = L q
  lock : k'.lock = k.lock
  barrier : k'.barrier = Function.update k.barrier b
    { k.barrier b with count := int32 ((k.barrier b).count + 1) }
  kont : k'.kont = Function.update k.kont k.currentRunning (.barrier b)
  trace : ∃ ps : List Slot, k'.trace = .dispatch k'.currentRunning :: ps.map .reap ++
    .block (.barrier b) k.currentRunning :: .release k.currentRunning (.barrier b) ::
    .arrive b k.currentRunning :: .acquire k.currentRunning (.barrier b) :: k.trace

/-- One that completes its generation. -/
structure Completed (b : Nat) (k : Kernel) (L : Lists) (k' : Kernel) (L' : Lists) : Prop where
  queue : L' (.barrier b) = []
  others : ∀ q, q ≠ .ready → q ≠ .barrier b → L' q = L q
  lock : k'.lock = k.lock
  barrier : k'.barrier = Function.update k.barrier b { k.barrier b with count := 0 }
  kont : k'.kont = k.kont
  trace : k'.trace = .leave b k.currentRunning :: .release k.currentRunning (.barrier b) ::
    (((slots (L (.barrier b))).map (Act.wake (.barrier b))).reverse ++
    .arrive b k.currentRunning :: .acquire k.currentRunning (.barrier b) :: k.trace)

/-- A woken process that returns from `do_barrier_wait`. -/
structure Left (b : Nat) (k : Kernel) (L : Lists) (k' : Kernel) (L' : Lists) : Prop where
  queues : ∀ q, q ≠ .ready → L' q = L q
  lock : k'.lock = k.lock
  barrier : k'.barrier = k.barrier
  kont : k'.kont = Function.update k.kont k.currentRunning .user
  trace : k'.trace = .leave b k.currentRunning :: .release k.currentRunning (.barrier b) ::
    .acquire k.currentRunning (.barrier b) :: k.trace

theorem arrive_spec (coherent : Coherent k L {k.currentRunning}) (quiet : Quiet k L)
    (resting : Resting k L) (result : doBarrierWait fuel clk b k = some k') : ∃ L',
    Coherent k' L' {k'.currentRunning} ∧
    if int32 ((k.barrier b).count + 1) = (k.barrier b).max then Completed b k L k' L'
      else Joined b k L k' L' := by
  rw [doBarrierWait, doMutexLockAcquire_free quiet.free] at result
  have holding : ∀ p, L (.holding p) = [] := fun p => quiet.holding coherent
  have locked := lockBy_coherent coherent (l := .barrier b) quiet.free
  have queue : holdLists k.currentRunning (.barrier b) L (.barrier b) = L (.barrier b) :=
    holdLists_of_ne (by simp)
  split
  next last =>
    have back : holdLists k.currentRunning (.barrier b) L
        (.holding (lockBy (.barrier b) k).currentRunning) = [] ++ [.lock (.barrier b)] := by
      simp [holdLists, holding, lockBy, Kernel.record, Kernel.push]
    obtain ⟨links, same, coherent'⟩ := barrierArrive_last locked last back result
    have nobody : released (holdLists k.currentRunning (.barrier b) L) (.barrier b)
        (.block (.barrier b)) = [] := by
      rw [released_of_ne (by simp) (by simp), holdLists_of_ne (by simp), quiet.block]
    rw [letGo_unblocked nobody, queue] at same
    refine ⟨letGoLists (.barrier b) k.currentRunning []
      (released (holdLists k.currentRunning (.barrier b) L) (.barrier b)), ?_, ?_⟩
    · have current : k'.currentRunning = k.currentRunning := by
        rw [same]
        simp [unlock, Kernel.record, resetCount, countArrival, lockBy, Kernel.push]
      rw [current]
      exact coherent'
    constructor
    · have own : letGoLists (.barrier b) k.currentRunning []
          (released (holdLists k.currentRunning (.barrier b) L) (.barrier b)) (.barrier b) =
          released (holdLists k.currentRunning (.barrier b) L) (.barrier b) (.barrier b) := by
        simp [letGoLists, released]
      exact own.trans (released_self trivial)
    · intro q notReady other
      refine letGoLists_of_ne notReady (holding _) (quiet.block _) fun notHolding _ => ?_
      rw [released_of_ne notReady other, holdLists_of_ne notHolding]
    · rw [same]
      simp only [relink_lock, Kernel.record, unlock, resetCount, wakeAll_lock]
      exact relock quiet
    · rw [same]
      simp only [relink_barrier, Kernel.record, unlock, resetCount, wakeAll_barrier, countArrival,
        lockBy, Kernel.push, Function.update_self, Function.update_idem]
    · rw [same]
      simp only [relink_kont, Kernel.record, unlock, resetCount, wakeAll_kont]
      rfl
    · rw [same]
      simp only [relink_trace, Kernel.record, unlock, resetCount, wakeAll_trace, wakeAll_current]
      rfl
  next early =>
    have wait : (doMutexLockRelease fuel (.barrier b) (countArrival b (lockBy (.barrier b) k))).bind
        (doBlock fuel clk (.barrier b) (.barrier b)) = some k' :=
      (barrierArrive_early (k := lockBy (.barrier b) k) early).symm.trans result
    obtain ⟨L', coherent', _, stalled⟩ :=
      stall_spec (m := countArrival b (lockBy (.barrier b) k)) (q := .barrier b)
        (countArrival_coherent locked) holding (quiet.block _) resting trivial (by simp) wait
    refine ⟨L', coherent', ?_⟩
    constructor
    · exact stalled.queue
    · exact stalled.others
    · exact stalled.lock.trans (relock quiet)
    · exact stalled.barrier
    · exact stalled.kont
    · exact stalled.trace

theorem leave_spec (coherent : Coherent k L {k.currentRunning}) (quiet : Quiet k L)
    (result : doMutexLockAcquire fuel clk (.barrier b) (.leave b) (returning k) = some k') :
    ∃ L', Coherent k' L' {k'.currentRunning} ∧ Left b k L k' L' := by
  have settled : Quiet (returning k) L := ⟨quiet.lock, quiet.block⟩
  rw [doMutexLockAcquire_free settled.free] at result
  have holding : ∀ p, L (.holding p) = [] := fun p => quiet.holding coherent
  have locked := lockBy_coherent (l := .barrier b) (returning_coherent coherent) settled.free
  have back : holdLists k.currentRunning (.barrier b) L
      (.holding (lockBy (.barrier b) (returning k)).currentRunning) = [] ++ [.lock (.barrier b)] := by
    simp [holdLists, holding, lockBy, Kernel.record, Kernel.push, returning]
  obtain ⟨links, same, coherent'⟩ := barrierLeave_spec locked back result
  have free : letGo (.barrier b) (holdLists (returning k).currentRunning (.barrier b) L)
      (lockBy (.barrier b) (returning k)) = unlock k.currentRunning (.barrier b)
        (lockBy (.barrier b) (returning k)) :=
    letGo_unblocked (by rw [holdLists_of_ne (by simp), quiet.block])
  rw [free] at same
  refine ⟨letGoLists (.barrier b) k.currentRunning []
    (holdLists k.currentRunning (.barrier b) L), ?_, ?_⟩
  · have current : k'.currentRunning = k.currentRunning := by rw [same]; rfl
    rw [current]
    exact coherent'
  constructor
  · intro q notReady
    exact letGoLists_of_ne notReady (holding _) (quiet.block _) fun other _ => holdLists_of_ne other
  · rw [same]
    exact relock settled
  · rw [same]; rfl
  · rw [same]; rfl
  · rw [same]; rfl

/-- The processes that have arrived, first arrival first. -/
def arrivers (b : Nat) : List Act → List Slot
  | [] => []
  | .arrive c p :: trace => if c = b then arrivers b trace ++ [p] else arrivers b trace
  | _ :: trace => arrivers b trace

def arrivals (b : Nat) (trace : List Act) : Nat := (arrivers b trace).length

/-- The number of the last arrival that `i` made. -/
def ticket (b : Nat) : List Act → Slot → Nat
  | [], _ => 0
  | .arrive c p :: trace, i => if c = b ∧ p = i then arrivals b trace + 1 else ticket b trace i
  | _ :: trace, i => ticket b trace i

/-- The number of the last arrival of the generation to which arrival `k` belongs. -/
def full (n k : Nat) : Nat := n * ((k + n - 1) / n)

/-- Whoever left, left after its generation was complete. -/
def Orderly (b n : Nat) : List Act → Prop
  | [] => True
  | .leave c p :: trace => (c = b → full n (ticket b trace p) ≤ arrivals b trace) ∧ Orderly b n trace
  | _ :: trace => Orderly b n trace

/-- An action that is no arrival and no departure. -/
def Act.Silent : Act → Prop
  | .arrive .. | .leave .. => False
  | _ => True

theorem Act.Aside.silent {a : Act} (aside : a.Aside) : a.Silent := by
  cases a <;> first | exact aside.elim | trivial

theorem silent_append (new trace : List Act) (silent : ∀ a ∈ new, a.Silent) :
    arrivers b (new ++ trace) = arrivers b trace ∧
    ticket b (new ++ trace) p = ticket b trace p ∧
    (Orderly b n (new ++ trace) ↔ Orderly b n trace) := by
  induction new with
  | nil => exact ⟨rfl, rfl, Iff.rfl⟩
  | cons a new ih =>
    have here := silent a (by simp)
    have later := ih fun c member => silent c (by simp [member])
    cases a <;> first | exact here.elim | exact later

theorem full_le (positive : 0 < n) {k t : Nat} (whole : k ≤ n * t) : full n k ≤ n * t := by
  unfold full
  have bound : (k + n - 1) / n ≤ t := by
    rw [Nat.div_le_iff_le_mul_add_pred positive]
    omega
  exact Nat.mul_le_mul_left n bound

theorem ticket_le (trace : List Act) : ticket b trace p ≤ arrivals b trace := by
  induction trace with
  | nil => exact Nat.le_refl _
  | cons a trace ih =>
    cases a with
    | arrive c i =>
      simp only [ticket, arrivals, arrivers]
      by_cases same : c = b
      · by_cases own : i = p
        · simp [same, own]
        · simp only [same, own, and_false, if_false, if_true, List.length_append, List.length_singleton]
          exact Nat.le_succ_of_le ih
      · simpa [same, arrivals] using ih
    | _ => exact ih

/-- The state of one barrier in terms of its history. -/
structure Gathered (b n : Nat) (k : Kernel) (L : Lists) : Prop extends Peaceful k L where
  quiet : Quiet k L
  max : (k.barrier b).max = n
  count : (k.barrier b).count = (arrivals b k.trace % n : Nat)
  queue : L (.barrier b) = ((arrivers b k.trace).drop (n * (arrivals b k.trace / n))).map .pcb
  konts : ∀ p, k.kont p = .user ∨ k.kont p = .barrier b
  released : ∀ p, k.kont p = .barrier b → Item.pcb p ∉ L (.barrier b) →
    ticket b k.trace p ≤ n * (arrivals b k.trace / n)
  orderly : Orderly b n k.trace

theorem Gathered.aside (gathered : Gathered b n k L) (peaceful : Peaceful k' L')
    (aside : Aside k L k' L') : Gathered b n k' L' := by
  obtain ⟨new, trace, acts⟩ := aside.trace
  have silent : ∀ a ∈ new, a.Silent := fun a member => (acts a member).silent
  have arrivers : arrivers b k'.trace = arrivers b k.trace :=
    trace ▸ (silent_append (p := 0) (n := n) new _ silent).1
  have ticket : ∀ p, ticket b k'.trace p = ticket b k.trace p := fun p =>
    trace ▸ (silent_append (n := n) new _ silent).2.1
  have arrivals : arrivals b k'.trace = arrivals b k.trace := congrArg List.length arrivers
  have lists : L' (.barrier b) = L (.barrier b) := aside.queues (.barrier b) trivial
  refine { peaceful with
    quiet := ⟨fun l => ?_, fun l => ?_⟩, max := ?_, count := ?_, queue := ?_,
    konts := fun p => ?_, released := fun p inside outside => ?_, orderly := ?_ }
  · rw [aside.lock]; exact gathered.quiet.lock l
  · rw [aside.queues (.block l) trivial]; exact gathered.quiet.block l
  · rw [aside.barrier]; exact gathered.max
  · rw [aside.barrier, arrivals]; exact gathered.count
  · rw [lists, arrivers, arrivals]; exact gathered.queue
  · rcases aside.kont p with kont | ⟨_, kont, _⟩
    · rw [kont]; exact gathered.konts p
    · exact Or.inl kont
  · rw [ticket, arrivals]
    rcases aside.kont p with kont | ⟨_, kont, _⟩
    · exact gathered.released p (kont ▸ inside) (lists ▸ outside)
    · simp [kont] at inside
  · rw [trace, (silent_append (p := 0) new _ silent).2.2]
    exact gathered.orderly

theorem next_within {t : Nat} (within : t % n + 1 < n) :
    (t + 1) % n = t % n + 1 ∧ (t + 1) / n = t / n := by
  have split : t + 1 = n * (t / n) + (t % n + 1) := by
    have := Nat.div_add_mod t n
    omega
  constructor
  · rw [split, Nat.mul_add_mod, Nat.mod_eq_of_lt within]
  · rw [split, Nat.mul_add_div (by omega), Nat.div_eq_of_lt within, Nat.add_zero]

theorem next_full {t : Nat} (last : t % n + 1 = n) : t + 1 = n * (t / n + 1) := by
  have := Nat.div_add_mod t n
  rw [Nat.mul_add]
  omega

/-- The counter of the code, before it is compared. -/
theorem Gathered.counted (gathered : Gathered b n k L) (positive : 0 < n) (int : n < 2147483648) :
    int32 ((k.barrier b).count + 1) = (arrivals b k.trace % n + 1 : Nat) := by
  have less := Nat.mod_lt (arrivals b k.trace) positive
  rw [gathered.count, int32_of_lt (by omega) (by omega)]
  push_cast
  rfl

theorem Joined.gathered (joined : Joined b k L k' L') (gathered : Gathered b n k L)
    (peaceful : Peaceful k' L') (positive : 0 < n) (int : n < 2147483648)
    (early : int32 ((k.barrier b).count + 1) ≠ (k.barrier b).max) : Gathered b n k' L' := by
  have counted := gathered.counted positive int
  have less := Nat.mod_lt (arrivals b k.trace) positive
  rw [counted, gathered.max] at early
  obtain ⟨rest, quotient⟩ := next_within (n := n) (t := arrivals b k.trace) (by omega)
  obtain ⟨ps, trace⟩ := joined.trace
  have split : k'.trace = (.dispatch k'.currentRunning :: ps.map .reap ++
      [.block (.barrier b) k.currentRunning, .release k.currentRunning (.barrier b)]) ++
      .arrive b k.currentRunning :: .acquire k.currentRunning (.barrier b) :: k.trace := by
    rw [trace]
    simp
  have silent : ∀ a ∈ Act.dispatch k'.currentRunning :: ps.map .reap ++
      [.block (.barrier b) k.currentRunning, .release k.currentRunning (.barrier b)], a.Silent := by
    intro a member
    simp only [List.cons_append, List.mem_cons, List.mem_append, List.mem_map, List.not_mem_nil,
      or_false] at member
    rcases member with rfl | ⟨i, _, rfl⟩ | rfl | rfl <;> trivial
  have history := fun p => silent_append (b := b) (p := p) (n := n) _
    (.arrive b k.currentRunning :: .acquire k.currentRunning (.barrier b) :: k.trace) silent
  have list : arrivers b k'.trace = arrivers b k.trace ++ [k.currentRunning] := by
    rw [split, (history 0).1]
    simp [arrivers]
  have number : arrivals b k'.trace = arrivals b k.trace + 1 := by simp [arrivals, list]
  have tickets : ∀ p, p ≠ k.currentRunning → ticket b k'.trace p = ticket b k.trace p := by
    intro p other
    rw [split, (history p).2.1]
    simp [ticket, Ne.symm other]
  have whole : n * (arrivals b k.trace / n) ≤ (arrivers b k.trace).length :=
    Nat.mul_div_le (arrivals b k.trace) n
  refine { peaceful with
    quiet := ⟨fun l => ?_, fun l => ?_⟩, max := ?_, count := ?_, queue := ?_,
    konts := fun p => ?_, released := fun p inside outside => ?_, orderly := ?_ }
  · rw [joined.lock]; exact gathered.quiet.lock l
  · rw [joined.others _ (by simp) (by simp)]; exact gathered.quiet.block l
  · rw [joined.barrier, Function.update_self]; exact gathered.max
  · rw [joined.barrier, Function.update_self, number, rest]
    exact counted
  · rw [joined.queue, gathered.queue, number, quotient, list,
      List.drop_append_of_le_length whole, List.map_append, List.map_singleton]
  · rw [joined.kont]
    by_cases same : p = k.currentRunning
    · subst p; simp
    · simpa [same] using gathered.konts p
  · rw [joined.queue, List.mem_append, not_or] at outside
    have other : p ≠ k.currentRunning := by
      rintro rfl
      exact outside.2 (by simp)
    rw [joined.kont, Function.update_of_ne other] at inside
    rw [tickets p other, number, quotient]
    exact gathered.released p inside outside.1
  · rw [split, (history 0).2.2]
    exact gathered.orderly

theorem Completed.gathered (completed : Completed b k L k' L') (gathered : Gathered b n k L)
    (peaceful : Peaceful k' L') (positive : 0 < n) (int : n < 2147483648)
    (last : int32 ((k.barrier b).count + 1) = (k.barrier b).max) : Gathered b n k' L' := by
  have counted := gathered.counted positive int
  rw [counted, gathered.max] at last
  have next := next_full (n := n) (t := arrivals b k.trace) (by omega)
  have wakes : ∀ a ∈ .release k.currentRunning (.barrier b) ::
      ((slots (L (.barrier b))).map (Act.wake (.barrier b))).reverse, a.Silent := by
    intro a member
    simp only [List.mem_cons, List.mem_reverse, List.mem_map] at member
    rcases member with rfl | ⟨i, _, rfl⟩ <;> trivial
  have history := fun p => silent_append (b := b) (p := p) (n := n) _
    (.arrive b k.currentRunning :: .acquire k.currentRunning (.barrier b) :: k.trace) wakes
  have trace : k'.trace = .leave b k.currentRunning :: ((.release k.currentRunning (.barrier b) ::
      ((slots (L (.barrier b))).map (Act.wake (.barrier b))).reverse) ++
      .arrive b k.currentRunning :: .acquire k.currentRunning (.barrier b) :: k.trace) := by
    rw [completed.trace]
    rfl
  have list : arrivers b k'.trace = arrivers b k.trace ++ [k.currentRunning] := by
    rw [trace]
    refine (history 0).1.trans ?_
    simp [arrivers]
  have number : arrivals b k'.trace = arrivals b k.trace + 1 := by simp [arrivals, list]
  have quotient : n * (arrivals b k'.trace / n) = arrivals b k'.trace := by
    rw [number, next, Nat.mul_div_cancel_left _ positive]
  refine { peaceful with
    quiet := ⟨fun l => ?_, fun l => ?_⟩, max := ?_, count := ?_, queue := ?_,
    konts := fun p => ?_, released := fun p _ _ => ?_, orderly := ?_ }
  · rw [completed.lock]; exact gathered.quiet.lock l
  · rw [completed.others _ (by simp) (by simp)]; exact gathered.quiet.block l
  · rw [completed.barrier, Function.update_self]; exact gathered.max
  · rw [completed.barrier, Function.update_self, number, next, Nat.mul_mod_right]
    rfl
  · rw [completed.queue, quotient]
    simp [arrivals]
  · rw [completed.kont]
    exact gathered.konts p
  · rw [quotient]
    exact ticket_le _
  · have own : arrivals b ((.release k.currentRunning (.barrier b) ::
        ((slots (L (.barrier b))).map (Act.wake (.barrier b))).reverse) ++
        .arrive b k.currentRunning :: .acquire k.currentRunning (.barrier b) :: k.trace) =
        n * (arrivals b k.trace / n + 1) := by
      rw [← next, ← number, trace]
      rfl
    rw [trace]
    refine ⟨fun _ => ?_, (history 0).2.2.mpr gathered.orderly⟩
    have mine := ticket_le (b := b) (p := k.currentRunning)
      ((.release k.currentRunning (.barrier b) ::
        ((slots (L (.barrier b))).map (Act.wake (.barrier b))).reverse) ++
        .arrive b k.currentRunning :: .acquire k.currentRunning (.barrier b) :: k.trace)
    rw [own] at mine ⊢
    exact full_le positive mine

theorem Left.gathered (left : Left b k L k' L') (gathered : Gathered b n k L)
    (peaceful : Peaceful k' L') (positive : 0 < n)
    (inside : k.kont k.currentRunning = .barrier b) : Gathered b n k' L' := by
  have list : arrivers b k'.trace = arrivers b k.trace := by rw [left.trace]; rfl
  have number : arrivals b k'.trace = arrivals b k.trace := congrArg List.length list
  have tickets : ∀ p, ticket b k'.trace p = ticket b k.trace p := fun p => by rw [left.trace]; rfl
  have lists : L' (.barrier b) = L (.barrier b) := left.queues _ (by simp)
  refine { peaceful with
    quiet := ⟨fun l => ?_, fun l => ?_⟩, max := ?_, count := ?_, queue := ?_,
    konts := fun p => ?_, released := fun p waits outside => ?_, orderly := ?_ }
  · rw [left.lock]; exact gathered.quiet.lock l
  · rw [left.queues _ (by simp)]; exact gathered.quiet.block l
  · rw [left.barrier]; exact gathered.max
  · rw [left.barrier, number]; exact gathered.count
  · rw [lists, list, number]; exact gathered.queue
  · rw [left.kont]
    by_cases same : p = k.currentRunning
    · subst p; simp
    · simpa [same] using gathered.konts p
  · rw [left.kont] at waits
    have other : p ≠ k.currentRunning := by
      rintro rfl
      simp at waits
    rw [tickets, number]
    exact gathered.released p (by simpa [other] using waits) (lists ▸ outside)
  · rw [left.trace]
    refine ⟨fun _ => ?_, gathered.orderly⟩
    have absent : Item.pcb k.currentRunning ∉ L (.barrier b) :=
      gathered.coherent.off_nowhere (Set.mem_singleton _)
    have mine := gathered.released _ inside absent
    exact Nat.le_trans (full_le positive mine) (Nat.mul_div_le _ n)

/-- Processes come and go and meet at one barrier. -/
def Event.Meets (b : Nat) : Event → Prop
  | .call (.barrierWait c) => c = b
  | .resume => True
  | event => event.Aside

instance Event.Meets.decidable (b : Nat) (event : Event) : Decidable (event.Meets b) := by
  apply event.decide <;> intros <;> unfold Event.Meets <;> infer_instance

theorem step_gathered (gathered : Gathered b n k L) (positive : 0 < n) (int : n < 2147483648)
    (meets : event.Meets b) (step : Step k event k') : ∃ L', Gathered b n k' L' := by
  by_cases aside : event.Aside
  · obtain ⟨L', peaceful, isAside⟩ := step_aside gathered.toPeaceful aside
      (fun _ => gathered.quiet.holding gathered.coherent) step
    exact ⟨L', gathered.aside peaceful isAside⟩
  · have kind : event = .call (.barrierWait b) ∨ event = .resume := by
      rcases event with call | _ | _
      · cases call <;> first | exact Or.inl (congrArg _ (congrArg _ meets)) | exact absurd meets aside
      · exact absurd trivial aside
      · exact Or.inr rfl
    have plain : event.Spares ∧ Good k event := by
      rcases kind with rfl | rfl <;> exact ⟨trivial, trivial⟩
    obtain ⟨M, peaceful⟩ := step_peaceful gathered.toPeaceful plain.1 plain.2 step
    have resting := gathered.toPeaceful.resting
    obtain ⟨fuel, clk, result⟩ := step
    rcases kind with rfl | rfl
    · simp only [execute] at result
      split at result
      · obtain ⟨L', coherent, outcome⟩ := arrive_spec gathered.coherent gathered.quiet resting result
        have peaceful : Peaceful k' L' := ⟨peaceful.toSound.restate coherent, peaceful.spared⟩
        split at outcome
        next last => exact ⟨L', outcome.gathered gathered peaceful positive int last⟩
        next early => exact ⟨L', outcome.gathered gathered peaceful positive int early⟩
      · contradiction
    · simp only [execute] at result
      rcases gathered.konts k.currentRunning with idle | inside
      · simp [resume, idle] at result
      · simp only [resume, inside] at result
        obtain ⟨L', coherent, left⟩ := leave_spec gathered.coherent gathered.quiet result
        have peaceful : Peaceful k' L' := ⟨peaceful.toSound.restate coherent, peaceful.spared⟩
        exact ⟨L', left.gathered gathered peaceful positive inside⟩

theorem doBarrierInit_peaceful (peaceful : Peaceful k L) (queue : L (.barrier b) = [])
    (block : L (.block (.barrier b)) = []) (free : k.lock (.barrier b) = .unlocked) (goal : Int) :
    Peaceful (doBarrierInit b goal k) L := by
  have first := queueInit_spells (q := .block (.barrier b)) peaceful.coherent.spells block
  have second := queueInit_spells (q := .barrier b) first queue
  have lock : (doBarrierInit b goal k).lock = k.lock := by
    simp only [doBarrierInit, doMutexLockInit]
    rw [← free, Function.update_eq_self]
  have coherent : Coherent (doBarrierInit b goal k) L {k.currentRunning} :=
    (peaceful.coherent.respell second).reframe rfl lock (fun _ => rfl) (fun _ => rfl) (fun _ => rfl)
      (fun _ _ => rfl)
  exact ⟨⟨coherent, peaceful.active, peaceful.fits⟩, peaceful.spared⟩

theorem doBarrierInit_gathered : Gathered b n (doBarrierInit b n (initPcb shell)) fun _ => [] := by
  have peaceful : Peaceful (doBarrierInit b n (initPcb shell)) fun _ => [] :=
    doBarrierInit_peaceful initPcb_peaceful rfl rfl (initPcb_quiet.lock _) n
  have trace : (doBarrierInit b n (initPcb shell)).trace = [.spawn 0] := initPcb_trace
  have idle : ∀ p, (doBarrierInit b n (initPcb shell)).kont p = .user :=
    fun p => @initPcb_idle p shell
  refine { peaceful with
    quiet := ⟨fun l => ?_, fun _ => rfl⟩, max := ?_, count := ?_, queue := ?_,
    konts := fun p => Or.inl (idle p), released := fun p inside _ => ?_, orderly := ?_ }
  · by_cases same : l = .barrier b
    · subst l; simp [doBarrierInit, doMutexLockInit]
    · simpa [doBarrierInit, doMutexLockInit, same] using initPcb_quiet.lock l
  · simp [doBarrierInit, doMutexLockInit]
  · simp [doBarrierInit, doMutexLockInit, arrivals, arrivers, initPcb_trace]
  · simp [trace, arrivals, arrivers]
  · simp [idle p] at inside
  · rw [trace]
    trivial

/-- What can be relied on in every state. -/
structure Generations (b n : Nat) (k : Kernel) (L : Lists) : Prop where
  chain : k.links.Walk (k.links.head (.barrier b)) (L (.barrier b))
  queue : L (.barrier b) = ((arrivers b k.trace).drop (n * (arrivals b k.trace / n))).map .pcb
  count : (k.barrier b).count = (L (.barrier b)).length
  range : 0 ≤ (k.barrier b).count ∧ (k.barrier b).count < n
  unlocked : k.lock (.barrier b) = .unlocked
  returns : ∀ new old p, k.trace = new ++ .leave b p :: old →
    full n (ticket b old p) ≤ arrivals b old

theorem Orderly.returns {trace : List Act} (orderly : Orderly b n trace) (new old : List Act)
    (split : trace = new ++ .leave b p :: old) : full n (ticket b old p) ≤ arrivals b old := by
  subst split
  induction new with
  | nil => exact orderly.1 rfl
  | cons a new ih =>
    cases a <;> first | exact ih orderly | exact ih orderly.2

theorem Gathered.generations (gathered : Gathered b n k L) (positive : 0 < n) :
    Generations b n k L where
  chain := gathered.coherent.spells.walk _
  queue := gathered.queue
  count := by
    have whole := Nat.div_add_mod (arrivals b k.trace) n
    rw [gathered.count, gathered.queue, List.length_map, List.length_drop]
    change _ = ((arrivals b k.trace - _ : Nat) : Int)
    omega
  range := by
    have less := Nat.mod_lt (arrivals b k.trace) positive
    rw [gathered.count]
    omega
  unlocked := gathered.quiet.lock _
  returns new old _ split := gathered.orderly.returns new old split

/-- For every size and every run in which any processes wait at the barrier. -/
theorem reachable_generations (positive : 0 < n) (int : n < 2147483648)
    (reach : Reachable Step (fun _ event => event.Meets b) (doBarrierInit b n (initPcb shell)) k) :
    ∃ L, Generations b n k L := by
  have invariant : ∃ L, Gathered b n k L := by
    refine reach.invariant (fun k => ∃ L, Gathered b n k L) ⟨_, doBarrierInit_gathered⟩ ?_
    rintro k event k' ⟨L, gathered⟩ meets step
    exact step_gathered gathered positive int meets step
  obtain ⟨L, gathered⟩ := invariant
  exact ⟨L, gathered.generations positive⟩

/-- Two processes pass a barrier of two, and one of them arrives again before the
other has left. -/
theorem reachable_generations_reuse : ∃ k : Kernel, (arrivals 0 k.trace = 3 ∧
    .leave 0 0 ∉ k.trace ∧ .leave 0 1 ∈ k.trace) ∧ ∃ L, Generations 0 2 k L := by
  obtain ⟨k, reach, reused⟩ := runAllowed_found (fun _ event => event.Meets 0) 8 300
    [.call (.spawn someTask), .call (.barrierWait 0), .call (.barrierWait 0),
      .call (.barrierWait 0)] (doBarrierInit 0 2 (initPcb someTask))
    (fun k => arrivals 0 k.trace = 3 ∧ .leave 0 0 ∉ k.trace ∧ .leave 0 1 ∈ k.trace) (by decide)
  exact ⟨k, reused, reachable_generations (by decide) (by decide) reach⟩

end Tina
