import Tina.Rotation
import Tina.Victims

/-! How long a process waits for the processor. The ready queue grows at its back only, and
whoever is taken from it stood before all others who can run, so that a process that is
ready is never overtaken. -/
namespace Tina

open LinkedQueue Transition

variable {k k' m : Kernel} {L L' M : Lists} {off : Set Slot} {p i : Slot} {q : QueueId}
  {rest : List Item} {l : Mutex} {s b c n : Nat} {fuel : Nat} {clk : Word} {kont : Kont}
  {id : Int} {event : Event}

/-- Whoever stands on the ready queue stays where and as he is; others line up behind, and
nobody is dispatched. -/
structure Lengthens (k : Kernel) (L : Lists) (m : Kernel) (M : Lists) : Prop where
  ready : L .ready <+: M .ready
  status : ∀ p, Item.pcb p ∈ L .ready → (m.pcb p).status = (k.pcb p).status
  dispatched : dispatches m.trace = dispatches k.trace

theorem Lengthens.refl (k : Kernel) (L : Lists) : Lengthens k L k L :=
  ⟨List.prefix_rfl, fun _ _ => rfl, rfl⟩

theorem Lengthens.trans (first : Lengthens k L m M) (second : Lengthens m M k' L') :
    Lengthens k L k' L' where
  ready := first.ready.trans second.ready
  status p inside := (second.status p (first.ready.subset inside)).trans (first.status p inside)
  dispatched := second.dispatched.trans first.dispatched

theorem Lengthens.relink (lengthens : Lengthens k L m M) (links : Links Item QueueId) :
    Lengthens k L (m.relink links) M :=
  ⟨lengthens.ready, lengthens.status, lengthens.dispatched⟩

/-- An update that neither the process records nor the ready queue notice. -/
theorem Lengthens.data (pcb : m.pcb = k.pcb) (ready : M .ready = L .ready)
    (dispatched : dispatches m.trace = dispatches k.trace) : Lengthens k L m M :=
  ⟨by rw [ready], fun p _ => by rw [pcb], dispatched⟩

theorem Lengthens.record (lengthens : Lengthens k L m M) (a : Act)
    (plain : a.isDispatch = false) : Lengthens k L (m.record a) M :=
  ⟨lengthens.ready, lengthens.status, by
    rw [← lengthens.dispatched]
    simp [Kernel.record, dispatches, plain]⟩

/-! The pieces of a call. -/

theorem dispatches_wakes (ps : List Slot) :
    dispatches (wakeAll q ps k).trace = dispatches k.trace := by
  simp [wakeAll_trace, dispatches, Function.comp_def, Act.isDispatch]

theorem wakeAll_lengthens (spells : k.links.Spells L) (notReady : q ≠ .ready) :
    Lengthens k L (wakeAll q (slots (L q)) k) (released L q) where
  ready := by simp [released]
  status p inside := by
    have apart : Item.pcb p ∉ L q := fun waits => notReady (spells.apart _ _ _ waits inside)
    simp [wakeAll_pcb, apart]
  dispatched := dispatches_wakes _

theorem wakeFirst_lengthens (spells : k.links.Spells L) (procs : Processes (L q))
    (notReady : q ≠ .ready) : Lengthens k L (wakeFirst q L k) (firstLists q L) := by
  unfold wakeFirst firstLists
  cases front : L q with
  | nil => exact Lengthens.refl k L
  | cons x items =>
    obtain ⟨i, rfl⟩ := procs x (by simp [front])
    refine ⟨by simp, fun p inside => ?_, rfl⟩
    have other : p ≠ i := by
      rintro rfl
      exact notReady (spells.apart _ _ _ (by simp [front]) inside)
    simp [wake, Kernel.setPcb, Kernel.record, other]

/-- Nobody is both ready and waiting for the mutex. -/
def Clear (L : Lists) (l : Mutex) : Prop :=
  ∀ x, x ∈ L .ready → x ∉ L (.block l)

theorem clear_spells (spells : k.links.Spells L) : Clear L l := fun x inside waits => by
  cases spells.apart _ _ x inside waits

/-- Not even after others have been woken. -/
theorem clear_woken (spells : k.links.Spells L) (other : QueueId.block l ≠ q)
    (same : M (.block l) = L (.block l)) (ready : ∀ x ∈ M .ready, x ∈ L .ready ++ L q) :
    Clear M l := by
  intro x inside waits
  rw [same] at waits
  rcases List.mem_append.mp (ready x inside) with old | woken
  · exact clear_spells spells x old waits
  · exact other (spells.apart _ _ x waits woken)

theorem mem_firstLists {x : Item} (inside : x ∈ firstLists q L .ready) :
    x ∈ L .ready ++ L q := by
  cases front : L q with
  | nil => simpa [firstLists, front] using inside
  | cons y items =>
    simp only [firstLists, front, Function.update_self, List.mem_append, List.mem_singleton]
      at inside
    rcases inside with old | rfl
    · exact List.mem_append_left _ old
    · simp

theorem letGo_lengthens (clear : Clear L l) :
    Lengthens k L (letGo l L k) (letGoLists l p rest L) where
  ready := by simp [letGoLists, released]
  status i inside := by
    have apart := clear _ inside
    simp [letGo, wakeAll_pcb, apart, unlock, Kernel.record]
  dispatched := dispatches_wakes _

theorem Coherent.processes (c : Coherent k L off) (parking : q.Parking) : Processes (L q) := by
  intro x inside
  cases x with
  | pcb i => exact ⟨i, rfl⟩
  | lock l => exact absurd inside (c.no_lock (.inr parking))

/-- What a step comes to for those who wait: the running process goes on, or it has left the
processor and the selection loop decides. -/
inductive Course (k : Kernel) (L : Lists) (k' : Kernel) : Prop where
  | stays (L' : Lists) (spells : k'.links.Spells L') (lengthens : Lengthens k L k' L')
  | leaves (m : Kernel) (M : Lists) (fuel : Nat) (clk : Word) (coherent : Coherent m M ∅)
      (lengthens : Lengthens k L m M) (switch : switch fuel clk m = some k')

theorem Course.after (course : Course m M k') (first : Lengthens k L m M) : Course k L k' := by
  cases course with
  | stays L' spells lengthens => exact .stays L' spells (first.trans lengthens)
  | leaves n N fuel clk coherent lengthens switch =>
    exact .leaves n N fuel clk coherent (first.trans lengthens) switch

/-- The running process is on no queue, so its record concerns nobody. -/
theorem Lengthens.own (coherent : Coherent k L {k.currentRunning}) (ready : L .ready <+: M .ready)
    (others : ∀ p, p ≠ k.currentRunning → (m.pcb p).status = (k.pcb p).status)
    (dispatched : dispatches m.trace = dispatches k.trace) : Lengthens k L m M where
  ready := ready
  status p inside := by
    refine others p ?_
    rintro rfl
    exact coherent.off_nowhere (Set.mem_singleton _) inside
  dispatched := dispatched

theorem parkOn_lengthens (coherent : Coherent k L {k.currentRunning}) (parking : q.Parking) :
    Lengthens k L (parkOn q k) (parkLists q k.currentRunning L) := by
  refine .own coherent ?_ (fun p other => ?_) rfl
  · rw [parkLists, Function.update_of_ne (Ne.symm (parking_ne_ready parking))]
  · simp [parkOn, Kernel.setPcb, Kernel.push, Kernel.record, other]

theorem yield_lengthens (coherent : Coherent k L {k.currentRunning}) (v : Pcb) :
    Lengthens k L (yield v k) (parkLists .ready k.currentRunning L) := by
  refine .own coherent (by simp [parkLists]) (fun p other => ?_) rfl
  simp [yield, Kernel.setPcb, Kernel.push, other]

theorem exiting_lengthens (coherent : Coherent k L {k.currentRunning}) :
    Lengthens k L (exiting k) L := by
  refine .own coherent List.prefix_rfl (fun p other => ?_) rfl
  simp [exiting, Kernel.setPcb, other]

theorem doBlock_course (coherent : Coherent k L {k.currentRunning}) (parking : q.Parking)
    (attended : ∀ i, q = .waiting i → i ≠ k.currentRunning ∧ (k.pcb i).status ≠ .exited)
    (result : doBlock fuel clk q kont k = some k') : Course k L k' := by
  have stored : Coherent { k with kont := Function.update k.kont k.currentRunning kont } L
      {k.currentRunning} := coherent.data rfl rfl rfl rfl
  have remembered : Lengthens k L
      { k with kont := Function.update k.kont k.currentRunning kont } L := .data rfl rfl rfl
  exact .leaves _ _ fuel clk (blockedOn_coherent coherent parking attended)
    (remembered.trans (parkOn_lengthens stored parking)) result

theorem releaseBlock_course (coherent : Coherent k L {k.currentRunning})
    (back : L (.holding k.currentRunning) = rest ++ [.lock l]) (foreign : q.Foreign)
    (result : (doMutexLockRelease fuel l k).bind (doBlock fuel clk q kont) = some k') :
    Course k L k' := by
  rw [Option.bind_eq_some_iff] at result
  obtain ⟨m, release, block⟩ := result
  obtain ⟨links, rfl, released⟩ := release_last coherent back release
  have current : ((letGo l L k).relink links).currentRunning = k.currentRunning := by
    simp [letGo, unlock, Kernel.record]
  have gone : Lengthens k L (letGo l L k) (letGoLists l k.currentRunning rest L) :=
    letGo_lengthens (clear_spells coherent.spells)
  exact (doBlock_course (by rw [current]; exact released) foreign.parking
    (fun i same => absurd same (foreign.unattended i)) block).after (gone.relink links)

theorem semaphoreUp_course (coherent : Coherent k L {k.currentRunning})
    (back : L (.holding k.currentRunning) = rest ++ [.lock (.sem s)])
    (result : semaphoreUp fuel s k = some k') : Course k L k' := by
  obtain ⟨links, rfl, done⟩ := semaphoreUp_spec coherent back result
  have counted : Lengthens k L (countUp s k) L := .data rfl rfl rfl
  have woken := wakeFirst_lengthens (k := countUp s k) (q := .sem s) coherent.spells
    (coherent.processes trivial) (by simp)
  have clear : Clear (firstLists (.sem s) L) (.sem s) :=
    clear_woken (q := .sem s) coherent.spells (by simp) (firstLists_of_ne (by simp) (by simp))
      fun x inside => mem_firstLists inside
  exact .stays _ done.spells
    ((counted.trans (woken.trans (letGo_lengthens clear))).relink links)

theorem semaphoreDown_course (coherent : Coherent k L {k.currentRunning})
    (back : L (.holding k.currentRunning) = rest ++ [.lock (.sem s)])
    (result : semaphoreDown fuel clk s k = some k') : Course k L k' := by
  by_cases positive : k.count s ≤ 0
  · rw [semaphoreDown_wait positive] at result
    exact releaseBlock_course (q := .sem s) coherent back trivial result
  · obtain ⟨links, rfl, done⟩ := semaphoreDown_take coherent positive back result
    have counted : Lengthens k L (countDown s k) L := .data rfl rfl rfl
    exact .stays _ done.spells
      ((counted.trans (letGo_lengthens (clear_spells coherent.spells))).relink links)

theorem barrierLeave_course (coherent : Coherent k L {k.currentRunning})
    (back : L (.holding k.currentRunning) = rest ++ [.lock (.barrier b)])
    (result : barrierLeave fuel b k = some k') : Course k L k' := by
  obtain ⟨links, rfl, done⟩ := barrierLeave_spec coherent back result
  have gone : Lengthens k L (letGo (.barrier b) L k)
      (letGoLists (.barrier b) k.currentRunning rest L) :=
    letGo_lengthens (clear_spells coherent.spells)
  exact .stays _ done.spells ((gone.record _ rfl).relink links)

theorem barrierArrive_course (coherent : Coherent k L {k.currentRunning})
    (back : L (.holding k.currentRunning) = rest ++ [.lock (.barrier b)])
    (result : barrierArrive fuel clk b k = some k') : Course k L k' := by
  have counted : Lengthens k L (countArrival b k) L := .data rfl rfl rfl
  by_cases last : int32 ((k.barrier b).count + 1) = (k.barrier b).max
  · obtain ⟨links, rfl, done⟩ := barrierArrive_last coherent last back result
    have woken := wakeAll_lengthens (k := countArrival b k) (q := .barrier b) coherent.spells
      (by simp)
    have reset : Lengthens (wakeAll (.barrier b) (slots (L (.barrier b))) (countArrival b k))
        (released L (.barrier b)) (resetCount b (wakeAll (.barrier b) (slots (L (.barrier b)))
          (countArrival b k))) (released L (.barrier b)) := .data rfl rfl rfl
    have clear : Clear (released L (.barrier b)) (.barrier b) :=
      clear_woken (q := .barrier b) coherent.spells (by simp) (released_of_ne (by simp) (by simp))
        fun x inside => by simpa [released] using inside
    have gone := counted.trans (woken.trans (reset.trans
      (@letGo_lengthens _ _ k.currentRunning rest _ clear)))
    exact .stays _ done.spells ((gone.record _ rfl).relink links)
  · rw [barrierArrive_early last] at result
    exact (releaseBlock_course (q := .barrier b) (countArrival_coherent coherent) back trivial
      result).after counted

theorem afterAcquire_course (coherent : Coherent k L {k.currentRunning})
    (back : L (.holding k.currentRunning) = rest ++ [.lock l]) (after : After)
    (fits : after.Fits l) (result : afterAcquire fuel clk after k = some k') : Course k L k' := by
  cases after with
  | user =>
    obtain rfl : k = k' := by simpa [afterAcquire] using result
    exact .stays L coherent.spells (Lengthens.refl k L)
  | condition m c =>
    obtain rfl : k.record (.waited k.currentRunning m c) = k' := by
      simpa [afterAcquire] using result
    exact .stays L coherent.spells (.data rfl rfl rfl)
  | up s => exact semaphoreUp_course coherent (fits ▸ back) result
  | down s => exact semaphoreDown_course coherent (fits ▸ back) result
  | arrive b => exact barrierArrive_course coherent (fits ▸ back) result
  | leave b => exact barrierLeave_course coherent (fits ▸ back) result

theorem doMutexLockAcquire_course (coherent : Coherent k L {k.currentRunning}) (after : After)
    (fits : after.Fits l) (result : doMutexLockAcquire fuel clk l after k = some k') :
    Course k L k' := by
  by_cases taken : k.lock l = .locked
  · rw [doMutexLockAcquire_taken taken] at result
    exact doBlock_course (q := .block l) coherent trivial (by simp) result
  · rw [doMutexLockAcquire_free taken] at result
    have back : holdLists k.currentRunning l L (.holding (lockBy l k).currentRunning) =
        L (.holding k.currentRunning) ++ [.lock l] := by
      simp [holdLists, lockBy, Kernel.record, Kernel.push]
    have held : Lengthens k L (lockBy l k) (holdLists k.currentRunning l L) :=
      .data rfl (by simp [holdLists]) rfl
    exact (afterAcquire_course (lockBy_coherent coherent taken) back after fits result).after held

theorem resume_course (sound : Sound k L) (result : resume fuel clk k = some k') :
    Course k L k' := by
  have fits := sound.fits k.currentRunning
  have back := sound.returning.coherent
  have again : Lengthens k L (returning k) L := .data rfl rfl rfl
  refine Course.after ?_ again
  cases stored : k.kont k.currentRunning with
  | user => simp [resume, stored] at result
  | acquire l after =>
    simp only [resume, stored] at result
    rw [stored] at fits
    exact doMutexLockAcquire_course back after fits result
  | down s =>
    simp only [resume, stored] at result
    exact doMutexLockAcquire_course back (.down s) rfl result
  | barrier b =>
    simp only [resume, stored] at result
    exact doMutexLockAcquire_course back (.leave b) rfl result
  | condition l c =>
    simp only [resume, stored] at result
    exact doMutexLockAcquire_course back (.condition l c) trivial result

/-! The calls. -/

theorem doUnblockOne_course (coherent : Coherent k L {k.currentRunning}) (parking : q.Parking)
    (result : doUnblockOne q k = some k') : Course k L k' := by
  obtain ⟨links, rfl, done⟩ := doUnblockOne_spec coherent parking result
  exact .stays _ done.spells ((wakeFirst_lengthens coherent.spells (coherent.processes parking)
    (parking_ne_ready parking)).relink links)

theorem doUnblockAll_course (coherent : Coherent k L {k.currentRunning}) (parking : q.Parking)
    (result : doUnblockAll fuel q k = some k') : Course k L k' := by
  obtain ⟨links, rfl, done⟩ := doUnblockAll_spec coherent parking result
  exact .stays _ done.spells
    ((wakeAll_lengthens coherent.spells (parking_ne_ready parking)).relink links)

theorem ready_dropLists (ls : List Mutex) : L .ready <+: dropLists p ls L .ready := by
  induction ls generalizing L with
  | nil => exact List.prefix_rfl
  | cons l ls ih =>
    refine List.IsPrefix.trans ?_ ih
    simp [releaseLock, released]

theorem dropAll_dispatches (ls : List Mutex) :
    dispatches (dropAll p ls L k).trace = dispatches k.trace := by
  induction ls generalizing L k with
  | nil => rfl
  | cons l ls ih =>
    rw [dropAll, ih, dispatches_wakes]
    rfl

/-- Whoever waits for the dead or their mutexes lines up too. -/
theorem reaped_lengthens (spells : k.links.Spells L) :
    Lengthens k L (reaped p L k) (reapLists p L) where
  ready := by
    refine List.IsPrefix.trans ?_ (ready_dropLists _)
    simp [released]
  status i inside := by rw [reaped_asleep (ready_not_woken spells inside)]
  dispatched := (dropAll_dispatches _).trans (dispatches_wakes _)

theorem doExit_course (coherent : Coherent k L {k.currentRunning})
    (result : doExit fuel clk k = some k') : Course k L k' := by
  rw [doExit_eq, Option.bind_eq_some_iff] at result
  obtain ⟨m, reap, result⟩ := result
  have c := exiting_coherent coherent
  obtain ⟨links, rfl, done⟩ := reap_spec (p := k.currentRunning) c rfl (Set.mem_singleton _)
    (by simp [exiting, Kernel.setPcb]) reap
  rw [Set.sdiff_self] at done
  exact .leaves _ _ fuel clk done
    (((exiting_lengthens coherent).trans (reaped_lengthens c.spells)).relink links) result

theorem spawn_course (sound : Sound k L) (task : TaskInfo)
    (good : ∀ i, freeSlot k = some i → unreaped k.trace i = false) : Course k L (spawn task k) := by
  unfold spawn
  cases found : freeSlot k with
  | none => exact .stays L sound.coherent.spells (Lengthens.refl k L)
  | some i =>
    have exited := freeSlot_exited found
    have done := good i found
    have coherent := assignt_spec sound.coherent exited done (sound.free_other exited done) task
    refine .stays _ coherent.spells ⟨by simp [parkLists], fun p inside => ?_, rfl⟩
    have other : p ≠ i := by
      rintro rfl
      have place := ((sound.coherent.procs p .ready).mp inside).2
      simp [Kernel.place, exited, done] at place
    simp [assignt, assignTask, Kernel.setPcb, Kernel.record, other]

/-- The event kills the process in slot `p`. -/
def Kills (k : Kernel) (p : Slot) : Event → Prop
  | .call (.kill id) => lookup id k = some p
  | _ => False

instance Kills.decidable (k : Kernel) (p : Slot) (event : Event) : Decidable (Kills k p event) := by
  apply event.decide <;> intros <;> unfold Kills <;> infer_instance

/-- A killed process keeps its place, if it is ready; otherwise it lines up. -/
theorem kill_ready (coherent : Coherent k L off) (found : lookup id k = some i)
    (removable : Removable k i) (idle : ∀ p ∈ off, (k.pcb p).status ≠ .blocked) :
    ∃ L', (kill id k).links.Spells L' ∧ L .ready <+: L' .ready := by
  have live := (lookup_live found).2
  rw [kill_eq found]
  cases chan : (k.pcb i).chan with
  | none => exact ⟨L, coherent.spells, List.prefix_rfl⟩
  | some q =>
    rcases removable with free | ⟨blocked, atEnd⟩
    · simp [chan] at free
    · have outside : i ∉ off := fun inside => idle i inside blocked
      have parking : q.Parking := by
        obtain ⟨r, here, parking⟩ := coherent.parked i blocked
        rw [chan, Option.some.injEq] at here
        exact here ▸ parking
      refine ⟨_, (condemn_blocked coherent blocked outside chan (atEnd q chan)).spells, ?_⟩
      simp [parkLists, Function.update_of_ne (Ne.symm (parking_ne_ready parking))]

/-- Every event but a `kill`. -/
def Event.Mild : Event → Prop
  | .call (.kill _) => False
  | _ => True

theorem call_course (sound : Sound k L) {call : Call} (mild : (Event.call call).Mild)
    (good : Good k (.call call)) (result : systemCall fuel clk call k = some k') :
    Course k L k' := by
  have c := sound.coherent
  cases call with
  | sleep time =>
    exact .leaves _ _ fuel clk (yield_coherent c (Or.inr (Or.inl (by rfl)))) (yield_lengthens c _)
      result
  | spawn task =>
    obtain rfl := Option.some.inj result
    exact spawn_course sound task good
  | kill id => exact mild.elim
  | wait id =>
    rcases wait_spec result with rfl | ⟨i, found, other, block⟩
    · exact .stays L c.spells (Lengthens.refl _ L)
    · refine doBlock_course (q := .waiting i) c trivial (fun j same => ?_) block
      obtain rfl : i = j := by simpa using same
      exact ⟨other, (lookup_live found).2⟩
  | exit => exact doExit_course c result
  | block q =>
    have foreign : q.Foreign := good
    exact doBlock_course c foreign.parking (fun i same => absurd same (foreign.unattended i)) result
  | unblockOne q => exact doUnblockOne_course c (QueueId.Foreign.parking good) result
  | unblockAll q => exact doUnblockAll_course c (QueueId.Foreign.parking good) result
  | acquire l => exact doMutexLockAcquire_course c .user trivial result
  | release l =>
    obtain ⟨links, rfl, done⟩ := doMutexLockRelease_spec c ((c.held _ l).mpr good.1) good.2 result
    have gone : Lengthens k L (letGo l L k) (releaseLock L k.currentRunning l) :=
      letGo_lengthens (clear_spells c.spells)
    exact .stays _ done.spells (gone.relink links)
  | condWait l c =>
    have last : (L (.holding k.currentRunning)).getLast? = some (.lock l) := by
      rw [← sound.coherent.spells.tail]; exact good
    obtain ⟨rest, back⟩ := List.getLast?_eq_some_iff.mp last
    rw [systemCall, doConditionWait_eq] at result
    exact (releaseBlock_course (q := .cond c) (sound.coherent.record (.wait _ l c) trivial) back
      trivial result).after ((Lengthens.refl k L).record _ rfl)
  | signal c => exact doUnblockOne_course (q := .cond c) sound.coherent trivial result
  | broadcast c => exact doUnblockAll_course (q := .cond c) sound.coherent trivial result
  | up s => exact doMutexLockAcquire_course c (.up s) rfl result
  | down s => exact doMutexLockAcquire_course c (.down s) rfl result
  | barrierWait b => exact doMutexLockAcquire_course c (.arrive b) rfl result

theorem step_course (sound : Sound k L) (mild : event.Mild) (good : Good k event)
    (step : Step k event k') : Course k L k' := by
  obtain ⟨fuel, clk, result⟩ := step
  cases event with
  | call c =>
    simp only [execute] at result
    split at result
    · exact call_course sound mild good result
    · contradiction
  | timer =>
    simp only [execute] at result
    split at result
    · exact .leaves _ _ fuel clk (yield_coherent sound.coherent (Or.inr (Or.inr (by rfl))))
        (yield_lengthens sound.coherent _) result
    · contradiction
  | resume => exact resume_course sound result

/-! The place in the queue. -/

/-- The process can run, and at most `n` others stand before it on the ready queue. -/
def Waits (k : Kernel) (p : Slot) (n : Nat) : Prop :=
  ((k.pcb p).status = .embryo ∨ (k.pcb p).status = .ready) ∧ ∃ pre rest,
    k.links.Walk (k.links.head .ready) (pre ++ .pcb p :: rest) ∧ pre.length ≤ n

theorem waits_spells (spells : k.links.Spells L) : Waits k p n ↔
    ((k.pcb p).status = .embryo ∨ (k.pcb p).status = .ready) ∧ ∃ pre rest,
      L .ready = pre ++ .pcb p :: rest ∧ pre.length ≤ n := by
  refine and_congr_right fun _ => exists_congr fun pre => exists_congr fun rest =>
    and_congr_left fun _ => ?_
  exact ⟨fun walk => (spells.walk .ready).unique walk, fun same => same ▸ spells.walk .ready⟩

theorem Waits.member (waits : Waits k p n) (spells : k.links.Spells L) :
    Item.pcb p ∈ L .ready := by
  obtain ⟨-, pre, rest, queue, -⟩ := (waits_spells spells).mp waits
  simp [queue]

theorem Waits.lengthened (waits : Waits k p n) (spells : k.links.Spells L)
    (spells' : m.links.Spells M) (ready : L .ready <+: M .ready)
    (status : (m.pcb p).status = (k.pcb p).status) : Waits m p n := by
  obtain ⟨willing, pre, rest, queue, before⟩ := (waits_spells spells).mp waits
  obtain ⟨more, behind⟩ := ready
  refine (waits_spells spells').mpr ⟨status ▸ willing, pre, rest ++ more, ?_, before⟩
  rw [← behind, queue]
  simp

theorem Lengthens.waits (lengthens : Lengthens k L m M) (waits : Waits k p n)
    (spells : k.links.Spells L) (spells' : m.links.Spells M) : Waits m p n :=
  waits.lengthened spells spells' lengthens.ready (lengthens.status p (waits.member spells))

theorem kill_waits (sound : Sound k L) (good : Good k (.call (.kill id)))
    (spared : ¬Kills k p (.call (.kill id))) (waits : Waits k p n) :
    Waits (kill id k) p n ∧ dispatches (kill id k).trace = dispatches k.trace := by
  cases found : lookup id k with
  | none => simpa [kill, found] using waits
  | some i =>
    have other : p ≠ i := by
      rintro rfl
      exact spared found
    have idle : ∀ p ∈ ({k.currentRunning} : Set Slot), (k.pcb p).status ≠ .blocked := by
      rintro p rfl blocked
      rcases sound.active with status | status | ⟨status, _⟩ <;>
        simp [Kernel.current, blocked] at status
    obtain ⟨L', spells, ready⟩ := kill_ready sound.coherent found (good i found) idle
    obtain ⟨links, same, -⟩ := kill_spec sound.coherent found (good i found) idle
    have status : ((kill id k).pcb p).status = (k.pcb p).status := by
      rw [same, relink_pcb, condemn_status, if_neg other]
    exact ⟨waits.lengthened sound.coherent.spells spells ready status, by rw [same]; rfl⟩

/-- The selection loop takes the process at the latest when it stands in front. -/
theorem select_waits (c : Coherent k L ∅) (waits : Waits k p n)
    (result : select fuel k = some k') : dispatches k'.trace = dispatches k.trace ∧
    (k'.currentRunning = p ∨ k'.currentRunning ≠ p ∧ ∃ before < n, Waits k' p before) := by
  induction fuel generalizing k L n with
  | zero => simp [select] at result
  | succ fuel ih =>
    obtain ⟨willing, pre, rest, queue, before⟩ := (waits_spells c.spells).mp waits
    have selectable : Selectable k p := willing.imp_right Or.inl
    cases pre with
    | nil =>
      rw [select_takes c.spells queue selectable] at result
      obtain rfl := Option.some.inj result
      exact ⟨rfl, Or.inl rfl⟩
    | cons x pre =>
      have front : L .ready = x :: (pre ++ .pcb p :: rest) := queue
      obtain ⟨i, rfl⟩ := c.front_process (.inl rfl) front
      have other : p ≠ i := by
        rintro rfl
        have distinct := c.spells.nodup .ready
        simp [front] at distinct
      have taken₁ := taken_coherent c front
      have shorter : pre.length + 1 ≤ n := before
      -- the place in the queue once the one in front has been dealt with
      have moved : ∀ {m : Kernel} {M : Lists}, m.links.Spells M →
          (pre ++ .pcb p :: rest) <+: M .ready → (m.pcb p).status = (k.pcb p).status →
          Waits m p pre.length := by
        rintro m M spells ⟨more, behind⟩ status
        refine (waits_spells spells).mpr ⟨status ▸ willing, pre, rest ++ more, ?_, le_rfl⟩
        rw [← behind]
        simp
      have later : ∀ {m : Kernel} {M : Lists}, Coherent m M ∅ →
          (pre ++ .pcb p :: rest) <+: M .ready → (m.pcb p).status = (k.pcb p).status →
          dispatches m.trace = dispatches k.trace → select fuel m = some k' →
          dispatches k'.trace = dispatches k.trace ∧
            (k'.currentRunning = p ∨ k'.currentRunning ≠ p ∧ ∃ before < n, Waits k' p before) := by
        intro m M coherent ready status dispatched result
        obtain ⟨same, taken | ⟨not, fewer, less, waits⟩⟩ :=
          ih coherent (moved coherent.spells ready status) result
        · exact ⟨same.trans dispatched, Or.inl taken⟩
        · exact ⟨same.trans dispatched, Or.inr ⟨not, fewer, by omega, waits⟩⟩
      rcases select_cases c front result with ⟨_, rfl⟩ | ⟨asleep, result⟩ |
        ⟨exited, m, reap, result⟩
      · refine ⟨rfl, Or.inr ⟨other.symm, pre.length, shorter, ?_⟩⟩
        refine moved taken₁.spells (by simp) ?_
        simp [Kernel.setPcb, taken, other]
      · exact later (rotate_coherent taken₁ (Or.inr (Or.inl asleep))) (by simp) rfl rfl result
      · obtain ⟨links, rfl, reaped⟩ := reap_spec (p := i) taken₁ rfl (Set.mem_singleton i) exited reap
        rw [Set.sdiff_self] at reaped
        have lined := (reaped_lengthens (p := i) taken₁.spells).relink links
        refine later reaped ?_ (lined.status p ?_) lined.dispatched result
        · have ready := lined.ready
          rwa [Function.update_self] at ready
        · simp

/-- After a switch the process runs, or fewer stand before it. -/
theorem switch_waits (c : Coherent k L ∅) (waits : Waits k p n)
    (result : switch fuel clk k = some k') : dispatches k'.trace = dispatches k.trace + 1 ∧
    (k'.currentRunning = p ∨ ∃ before < n, Waits k' p before) := by
  simp only [switch, Option.bind_eq_bind, Option.bind_eq_some_iff, Option.some.injEq] at result
  obtain ⟨m, select, rfl⟩ := result
  have saved : Waits (saveCursor k) p n := by
    refine waits.lengthened c.spells (M := L) c.spells List.prefix_rfl ?_
    by_cases same : p = k.currentRunning <;>
      simp [saveCursor, Kernel.setPcb, Kernel.current, same]
  obtain ⟨dispatched, outcome⟩ := select_waits (saveCursor_coherent c) saved select
  have entered : dispatches (enter clk m).trace = dispatches m.trace + 1 :=
    List.countP_cons_of_pos rfl
  refine ⟨entered.trans (congrArg (· + 1) dispatched), outcome.imp id ?_⟩
  · rintro ⟨other, before, fewer, waits⟩
    refine ⟨before, fewer, ?_⟩
    obtain ⟨willing, queue⟩ := waits
    refine ⟨?_, queue⟩
    simpa [enter, setTimer, Kernel.record, Kernel.setPcb, Ne.symm other] using willing

theorem step_waits (sound : Sound k L) (good : Good k event) (step : Step k event k')
    (spared : ¬Kills k p event) (waits : Waits k p n) :
    Waits k' p n ∧ dispatches k'.trace = dispatches k.trace ∨
    dispatches k'.trace = dispatches k.trace + 1 ∧
      (k'.currentRunning = p ∨ ∃ before < n, Waits k' p before) := by
  by_cases mild : event.Mild
  · cases step_course sound mild good step with
    | stays L' spells lengthens =>
      exact Or.inl ⟨lengthens.waits waits sound.coherent.spells spells, lengthens.dispatched⟩
    | leaves m M fuel clk coherent lengthens switch =>
      have left := lengthens.waits waits sound.coherent.spells coherent.spells
      rw [← lengthens.dispatched]
      exact Or.inr (switch_waits coherent left switch)
  · obtain ⟨fuel, clk, result⟩ := step
    rcases event with call | _ | _
    · cases call with
      | kill id =>
        simp only [execute] at result
        split at result
        · obtain rfl := Option.some.inj result
          exact Or.inl (kill_waits sound good spared waits)
        · contradiction
      | _ => exact absurd trivial mild
    · exact absurd trivial mild
    · exact absurd trivial mild

/-- Whatever the running process asks for, the loop finds somebody. -/
theorem scheduler_finds {request : Request} (waits : Waits k p n) (sound : Sound k L)
    (suits : Suits k request) (clk : Word) :
    ∃ next, Fuel.Returns (fun fuel => scheduler fuel clk request k) next := by
  have c := sound.coherent
  -- the rest of the call, once the running process has left
  have onward : ∀ {m : Kernel} {M : Lists}, Coherent m M ∅ → Lengthens k L m M →
      Fuel.Returns (fun fuel => leave fuel request k) m →
      ∃ next, Fuel.Returns (fun fuel => scheduler fuel clk request k) next := by
    intro m M coherent lengthens left
    have waits := lengthens.waits waits c.spells coherent.spells
    have selectable : Selectable (saveCursor m) p :=
      saveCursor_selectable.mpr (waits.1.imp_right Or.inl)
    have saved := saveCursor_coherent coherent
    obtain ⟨_, _, _, _, _, _, chosen, _, returns, _⟩ := select_first saved.lined
      ⟨p, waits.member coherent.spells, selectable⟩
    have switched : Fuel.Returns (fun fuel => switch fuel clk m) (enter clk chosen) :=
      returns.bind (Fuel.Returns.now _)
    exact ⟨_, left.bind switched⟩
  cases request with
  | blocked q =>
    exact onward (parkOn_coherent c suits.1 suits.2) (parkOn_lengthens c suits.1)
      (Fuel.Returns.now _)
  | sleeping time =>
    exact onward (yield_coherent c (Or.inr (Or.inl (by rfl)))) (yield_lengthens c _)
      (Fuel.Returns.now _)
  | ready | other =>
    exact onward (yield_coherent c (Or.inr (Or.inr (by rfl)))) (yield_lengthens c _)
      (Fuel.Returns.now _)
  | exited =>
    have dying := exiting_coherent c
    have own : ((exiting k).pcb k.currentRunning).status = .exited := by
      simp [exiting, Kernel.setPcb]
    have reapable : Reapable L k.currentRunning := by
      refine ⟨c.processes trivial, fun x inside => ?_, fun l _ => c.processes trivial⟩
      cases x with
      | pcb i => exact absurd inside c.no_process
      | lock l => exact ⟨l, rfl⟩
    obtain ⟨links, returns, -⟩ := reap_chain (k := exiting k) dying.spells rfl reapable
    obtain ⟨enough, ends⟩ := returns
    obtain ⟨links', same, done⟩ := reap_spec (p := k.currentRunning) dying rfl
      (Set.mem_singleton _) own (ends enough le_rfl)
    rw [Set.sdiff_self] at done
    exact onward done (((exiting_lengthens c).trans (reaped_lengthens dying.spells)).relink links)
      ⟨enough, ends⟩

/-- The steps until the process has the processor, in none of which it is killed. -/
def Patiently (p : Slot) (k : Kernel) (event : Event) : Prop :=
  Good k event ∧ ¬Kills k p event ∧ k.currentRunning ≠ p

instance Patiently.decidable (p : Slot) (k : Kernel) (event : Event) :
    Decidable (Patiently p k event) := inferInstanceAs (Decidable (_ ∧ _))

variable {shell : TaskInfo}

/-- A process that can run is dispatched at the latest by the switch that follows those which
dispatch the processes before it, whatever is called, woken, spawned or killed in between,
and until then the scheduler always finds somebody. -/
theorem turn_comes (reach : Reachable Step Good (initPcb shell) k) (waits : Waits k p n)
    (run : Reachable Step (Patiently p) k k') :
    k'.currentRunning = p ∧ dispatches k'.trace ≤ dispatches k.trace + n + 1 ∨
    (∃ before, Waits k' p before ∧ dispatches k'.trace + before ≤ dispatches k.trace + n) ∧
      ∀ clk request, Suits k' request →
        ∃ next, Fuel.Returns (fun fuel => scheduler fuel clk request k') next := by
  obtain ⟨L, sound⟩ : ∃ L, Sound k L := by
    refine reach.invariant (fun k => ∃ L, Sound k L) ⟨_, initPcb_sound⟩ ?_
    rintro k event k' ⟨L, sound⟩ good step
    exact step_sound sound good step
  have inTurn : (∃ L', Sound k' L') ∧
      (k'.currentRunning = p ∧ dispatches k'.trace ≤ dispatches k.trace + n + 1 ∨
        ∃ before, Waits k' p before ∧
          dispatches k'.trace + before ≤ dispatches k.trace + n) := by
    refine run.invariant (fun m => (∃ M, Sound m M) ∧
      (m.currentRunning = p ∧ dispatches m.trace ≤ dispatches k.trace + n + 1 ∨
        ∃ before, Waits m p before ∧ dispatches m.trace + before ≤ dispatches k.trace + n))
      ⟨⟨L, sound⟩, Or.inr ⟨n, waits, le_rfl⟩⟩ ?_
    rintro m event next ⟨⟨M, sound⟩, turn⟩ ⟨good, spared, other⟩ step
    refine ⟨step_sound sound good step, ?_⟩
    obtain ⟨before, waits, bound⟩ := turn.resolve_left fun taken => other taken.1
    rcases step_waits sound good step spared waits with ⟨still, same⟩ |
      ⟨more, taken | ⟨fewer, less, still⟩⟩
    · exact Or.inr ⟨before, still, by omega⟩
    · exact Or.inl ⟨taken, by omega⟩
    · exact Or.inr ⟨fewer, still, by omega⟩
  obtain ⟨⟨L', sound⟩, taken | ⟨before, waits, bound⟩⟩ := inTurn
  · exact Or.inl taken
  · exact Or.inr ⟨⟨before, waits, bound⟩, fun clk request suits =>
      scheduler_finds waits sound suits clk⟩

/-- Slot 1 stands before slot 2 and is killed there. -/
theorem turn_comes_killed : ∃ k k' : Kernel, k.currentRunning = 0 ∧ k'.currentRunning = 2 ∧
    (k'.currentRunning = 2 ∧ dispatches k'.trace ≤ dispatches k.trace + 1 + 1 ∨
      (∃ before, Waits k' 2 before ∧ dispatches k'.trace + before ≤ dispatches k.trace + 1) ∧
        ∀ clk request, Suits k' request →
          ∃ next, Fuel.Returns (fun fuel => scheduler fuel clk request k') next) := by
  obtain ⟨k, reach, current, walk, embryo, found⟩ := runAllowed_found Good 8 300
    [.call (.spawn someTask), .call (.spawn someTask)] (initPcb someTask)
    (fun k => k.currentRunning = 0 ∧
      k.links.Walk (k.links.head .ready) [.pcb 1, .pcb 2] ∧ (k.pcb 2).status = .embryo ∧
      (runAllowed (Patiently 2) 8 300 [.call (.kill 2), .timer] k).any
        (fun k' => decide (k'.currentRunning = 2)) = true) (by decide)
  obtain ⟨k', run, taken⟩ := runAllowed_found (Patiently 2) 8 300 [.call (.kill 2), .timer] k
    (fun k' => k'.currentRunning = 2) found
  exact ⟨k, k', current, taken,
    turn_comes reach ⟨Or.inl embryo, [.pcb 1], [], walk, le_rfl⟩ run⟩

end Tina
