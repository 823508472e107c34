import Tina.Recycling
import Tina.Removal

/-! Whether `chan` tells where a process waits. It is set when a process blocks and cleared
when it is woken, but neither by `kill` nor when the slot is used again. -/
namespace Tina

open LinkedQueue Transition

variable {k k' m : Kernel} {L M : Lists} {off : Set Slot} {p i : Slot} {q : QueueId}
  {event : Event} {fuel : Nat} {clk : Word} {id : Int} {shell task : TaskInfo}

/-- Only blocked processes have a channel. -/
def Honest (k : Kernel) : Prop := ∀ p, (k.pcb p).chan ≠ none → (k.pcb p).status = .blocked

theorem Waking.honest (waking : Waking m k') (honest : Honest m) : Honest k' := by
  intro p chan
  rcases waking.woken p with ⟨status, same⟩ | ready | running
  · rw [same] at chan
    rw [status]
    exact honest p chan
  · exact waking.clean (fun p _ => honest p) p (by simp [ready]) chan
  · exact waking.clean (fun p _ => honest p) p (by simp [running]) chan

theorem Sound.own_chan (sound : Sound k L) (honest : Honest k) : k.current.chan = none := by
  by_contra chan
  exact sound.blocked_other (honest k.currentRunning chan) rfl

/-- `kill` meets a process that waits nowhere, and `spawn` none that is still to be reaped. -/
def Tells (k : Kernel) : Event → Prop
  | .call (.spawn _) => ∀ i, freeSlot k = some i → unreaped k.trace i = false
  | .call (.kill id) => ∀ i, lookup id k = some i → (k.pcb i).chan = none
  | _ => True

instance Tells.decidable (k : Kernel) (event : Event) : Decidable (Tells k event) := by
  apply event.decide <;> intros <;> unfold Tells <;> infer_instance

theorem Tells.careful (tells : Tells k event) : Careful k event := by
  rcases event with call | _ | _
  · cases call <;> first | exact tells | exact fun i found => Or.inl (tells i found)
  · trivial
  · trivial

/-- The running process leaves; the others are as they were. -/
theorem Honest.left (honest : Honest k)
    (others : ∀ p, p ≠ k.currentRunning → m.pcb p = k.pcb p)
    (running : (m.pcb k.currentRunning).chan ≠ none →
      (m.pcb k.currentRunning).status = .blocked) : Honest m := by
  intro p chan
  by_cases same : p = k.currentRunning
  · subst p
    exact running chan
  · rw [others p same] at chan ⊢
    exact honest p chan

theorem doBlock_honest (sound : Sound k L) (honest : Honest k) (parking : q.Parking)
    (attended : ∀ i, q = .waiting i → i ≠ k.currentRunning ∧ (k.pcb i).status ≠ .exited)
    {kont : Kont} (result : doBlock fuel clk q kont k = some k') : Honest k' := by
  obtain ⟨_, _, _, _, waking, _⟩ := doBlock_spec sound.coherent parking attended result
  refine waking.honest (honest.left (fun p other => ?_) fun _ => ?_)
  · simp [blockedOn, parkOn, Kernel.setPcb, Kernel.push, Kernel.record, other]
  · simp [blockedOn, parkOn, Kernel.setPcb, Kernel.push, Kernel.record]

theorem yield_honest (sound : Sound k L) (honest : Honest k) (v : Pcb) (free : v.chan = none)
    (runnable : Runnable v.status) (result : switch fuel clk (yield v k) = some k') :
    Honest k' := by
  obtain ⟨_, _, _, _, waking, _⟩ := switch_spec (yield_coherent sound.coherent runnable) result
  refine waking.honest (honest.left (fun p other => ?_) fun chan => ?_)
  · simp [yield, Kernel.setPcb, Kernel.push, other]
  · exact absurd free (by simpa [yield, Kernel.setPcb, Kernel.push] using chan)

theorem doExit_honest (sound : Sound k L) (honest : Honest k)
    (result : doExit fuel clk k = some k') : Honest k' := by
  obtain ⟨_, _, _, _, _, _, waking, _⟩ := doExit_spec sound.coherent result
  refine waking.honest (honest.left (fun p other => ?_) fun chan => ?_)
  · simp [exiting, Kernel.setPcb, other]
  · exact absurd (sound.own_chan honest) (by simpa [exiting, Kernel.setPcb] using chan)

theorem wakeAll_honest (honest : Honest k) (ps : List Slot) (links : Links Item QueueId) :
    Honest ((wakeAll q ps k).relink links) := by
  intro p chan
  rw [relink_pcb, wakeAll_pcb] at chan ⊢
  split at chan
  · exact absurd rfl chan
  next asleep =>
    rw [if_neg asleep]
    exact honest p chan

theorem spawn_honest (honest : Honest k) : Honest (spawn task k) := by
  unfold spawn
  cases found : freeSlot k with
  | none => exact honest
  | some i =>
    have unused : (k.pcb i).chan = none := by
      by_contra chan
      have blocked := honest i chan
      rw [freeSlot_exited found] at blocked
      cases blocked
    intro p chan
    by_cases same : p = i
    · subst p
      simp [assignt, assignTask, Kernel.setPcb, Kernel.record, unused] at chan
    · simp only [assignt, assignTask, Kernel.setPcb, Kernel.record,
        Function.update_of_ne same] at chan ⊢
      exact honest p chan

theorem kill_honest (honest : Honest k)
    (tells : ∀ i, lookup id k = some i → (k.pcb i).chan = none) : Honest (kill id k) := by
  cases found : lookup id k with
  | none => simpa [kill, found] using honest
  | some i =>
    have free := tells i found
    rw [kill_eq found, free]
    intro p chan
    rw [condemn_chan] at chan
    rw [condemn_status, if_neg fun same : p = i => chan (same ▸ free)]
    exact honest p chan

theorem step_honest (sound : Sound k L) (recycles : event.Recycles) (tells : Tells k event)
    (honest : Honest k) (step : Step k event k') : Honest k' := by
  have own := sound.own_chan honest
  obtain ⟨fuel, clk, result⟩ := step
  rcases event with call | _ | _
  · simp only [execute] at result
    split at result
    · cases call with
      | spawn task =>
        obtain rfl := Option.some.inj result
        exact spawn_honest honest
      | kill id =>
        obtain rfl := Option.some.inj result
        exact kill_honest honest tells
      | exit => exact doExit_honest sound honest result
      | wait id =>
        rcases wait_spec result with rfl | ⟨i, found, other, block⟩
        · exact honest
        · refine doBlock_honest sound honest (by trivial) ?_ block
          rintro j same
          obtain rfl : i = j := by simpa using same
          exact ⟨other, (lookup_live found).2⟩
      | sleep time =>
        exact yield_honest sound honest _ (by exact own) (Or.inr (Or.inl (by rfl))) result
      | block q =>
        exact doBlock_honest sound honest (QueueId.Foreign.parking recycles)
          (fun i same => absurd same (QueueId.Foreign.unattended recycles i)) result
      | unblockOne q =>
        obtain ⟨links, rfl, _⟩ :=
          doUnblockOne_spec sound.coherent (QueueId.Foreign.parking recycles) result
        rw [wakeFirst]
        split
        · exact honest
        next i _ _ => exact wakeAll_honest honest [i] links
      | unblockAll q =>
        obtain ⟨links, rfl, _⟩ :=
          doUnblockAll_spec sound.coherent (QueueId.Foreign.parking recycles) result
        exact wakeAll_honest honest _ links
      | _ => exact recycles.elim
    · cases result
  · simp only [execute] at result
    split at result
    · exact yield_honest sound honest _ (by exact own) (Or.inr (Or.inr (by rfl))) result
    · cases result
  · exact recycles.elim

theorem initPcb_honest : Honest (initPcb shell) := by
  obtain ⟨_, _, same⟩ := initPcb_eq shell
  intro p chan
  rw [same] at chan
  by_cases zero : p = 0 <;>
    simp [zero, assignt, assignTask, Kernel.setPcb, Kernel.record, boot] at chan

/-- Where a process waits is what its `chan` says, and what a `kill` makes of it. -/
structure Telling (k : Kernel) (L : Lists) : Prop where
  chain : ∀ q, k.links.Represents q (L q)
  truth : ∀ p q, (k.pcb p).chan = some q → Item.pcb p ∈ L q
  spares : ∀ id i, lookup id k = some i → (k.pcb i).chan = none →
    ∀ q, (kill id k).links.Represents q (L q)
  takes : ∀ id i q, lookup id k = some i → (k.pcb i).chan = some q → Item.pcb i ∈ L q ∧
    ((kill id k).links.Spells (parkLists .ready i (Function.update L q ((L q).erase (.pcb i)))) ↔
      Repairs (.pcb 0) (.pcb i) (L q) k.links)
  lies : ∀ id i q, lookup id k = some i → (k.pcb i).chan = some q →
    ((kill id k).pcb i).chan = some q ∧ ∀ M, (kill id k).links.Spells M → Item.pcb i ∉ M q

theorem queuePush_prev {h : Links Item QueueId} {x y : Item} (other : y ≠ x) :
    (queuePush q x h).prev y = h.prev y := by
  by_cases empty : h.head q = none <;> simp [queuePush, empty, other]

theorem queuePush_tail {h : Links Item QueueId} {x : Item} :
    (queuePush q x h).tail q = some x := by
  by_cases empty : h.head q = none <;> simp [queuePush, empty]

section Kill

variable (sound : Sound k L) (honest : Honest k) (found : lookup id k = some i)
  (chan : (k.pcb i).chan = some q)

include sound honest found chan

omit found in
/-- The target of `kill` is on the queue from which it is removed. -/
theorem kill_member : q.Parking ∧ Item.pcb i ∈ L q := by
  have blocked := honest i (by simp [chan])
  obtain ⟨r, same, parking⟩ := sound.coherent.parked i blocked
  obtain rfl : q = r := by simpa [chan] using same
  refine ⟨parking, (sound.coherent.procs i q).mpr ⟨?_, by simp [Kernel.place, blocked, chan]⟩⟩
  simpa using sound.blocked_other blocked

/-- It is moved to the ready queue and nothing else changes, exactly if `queue_remove` repairs
the neighbours. -/
theorem kill_spells_iff :
    (kill id k).links.Spells (parkLists .ready i (Function.update L q ((L q).erase (.pcb i)))) ↔
      Repairs (.pcb 0) (.pcb i) (L q) k.links := by
  obtain ⟨parking, member⟩ := kill_member sound honest chan
  have notReady := parking_ne_ready parking
  have links : (kill id k).links =
      queuePush .ready (.pcb i) (queueRemove (.pcb 0) q (.pcb i) k.links).2 := by
    rw [kill_eq found, chan]
    rfl
  have s := sound.coherent.spells
  rw [links]
  constructor
  · intro kept
    rcases mem_position member with atEnd | ⟨l₁, a, b, l₂, split⟩
    · exact atEnd.imp_right .inl
    · have here := s.represents q
      have after := kept.represents q
      rw [parkLists, Function.update_of_ne notReady, Function.update_self] at after
      rw [split] at here after
      rw [erase_inner here.nodup] at after
      have back := (Links.seg_append.mp after.seg).2.1
      have apart : b ≠ .pcb i := by
        have distinct := here.nodup
        rintro rfl
        simp [List.nodup_append] at distinct
      rw [queuePush_prev apart] at back
      exact .inr (.inr ((queueRemove_inner_prev here).mp (by simpa using back)))
  · intro repairs
    have removed := (queueRemove_spells_iff s member).mpr repairs
    refine queuePush_spells removed fun r inside => ?_
    by_cases here : r = q
    · subst r
      rw [Function.update_self] at inside
      exact (s.nodup q).not_mem_erase inside
    · rw [Function.update_of_ne here] at inside
      exact here (s.apart r q _ inside member)

/-- Its channel still names the queue that it has left. -/
theorem kill_lies : ((kill id k).pcb i).chan = some q ∧
    ∀ M, (kill id k).links.Spells M → Item.pcb i ∉ M q := by
  obtain ⟨parking, -⟩ := kill_member sound honest chan
  rw [kill_eq found, chan]
  refine ⟨?_, fun M spells inside => ?_⟩
  · rw [relink_pcb, condemn_chan, chan]
  · have last := spells.tail .ready
    rw [relink_links, queuePush_tail] at last
    exact parking_ne_ready parking (spells.apart _ _ _ inside (List.mem_of_getLast? last.symm))

end Kill

theorem Sound.telling (sound : Sound k L) (honest : Honest k) : Telling k L where
  chain q := sound.coherent.spells.represents q
  truth p q chan := by
    have blocked := honest p (by simp [chan])
    refine (sound.coherent.procs p q).mpr ⟨?_, by simp [Kernel.place, blocked, chan]⟩
    simpa using sound.blocked_other blocked
  spares id i found free q := by
    rw [kill_eq found, free]
    exact sound.coherent.spells.represents q
  takes id i q found chan := ⟨(kill_member sound honest chan).2,
    kill_spells_iff sound honest found chan⟩
  lies id i q found chan := kill_lies sound honest found chan

/-- In every run that kills nobody who waits and reuses only reaped slots, `chan` is true. -/
theorem reachable_telling (reach : Reachable Step
    (fun k event => event.Recycles ∧ Tells k event) (initPcb shell) k) : ∃ L, Telling k L := by
  have invariant : ∃ L, Sound k L ∧ Honest k := by
    refine reach.invariant (fun k => ∃ L, Sound k L ∧ Honest k)
      ⟨_, initPcb_sound, initPcb_honest⟩ ?_
    rintro k event k' ⟨L, sound, honest⟩ ⟨recycles, tells⟩ step
    obtain ⟨L', sound'⟩ := step_sound sound (recycles.good tells.careful) step
    exact ⟨L', sound', step_honest sound recycles tells honest step⟩
  obtain ⟨L, sound, honest⟩ := invariant
  exact ⟨L, sound.telling honest⟩

/-- The shell waits for a process that waits for another one. -/
theorem reachable_telling_waits : ∃ k, ((k.pcb 0).chan = some (.waiting 1) ∧
    (k.pcb 1).chan = some (.user 7)) ∧ ∃ L, Telling k L := by
  obtain ⟨k, reach, waits⟩ := runAllowed_found (fun k event => event.Recycles ∧ Tells k event)
    8 300 [.call (.spawn someTask), .call (.spawn someTask), .call (.wait 2),
      .call (.block (.user 7))] (initPcb someTask)
    (fun k => (k.pcb 0).chan = some (.waiting 1) ∧ (k.pcb 1).chan = some (.user 7)) (by decide)
  exact ⟨k, waits, reachable_telling reach⟩

/-- A process killed while it waits keeps its `chan`, although it is on the ready queue now;
when the slot is used again and killed again, `queue_remove` works on the wrong queue. -/
theorem chan_lies : ∃ k, Reachable Step (fun _ event => event.Recycles) (initPcb someTask) k ∧
    (k.pcb 1).chan = some (.user 7) ∧ k.links.Walk (k.links.head (.user 7)) [] ∧
    k.links.Walk (k.links.head .ready) [.pcb 1] :=
  runAllowed_found (fun _ event => event.Recycles) 8 300
    [.call (.spawn someTask), .call (.wait 2), .call (.spawn someTask), .call (.block (.user 7)),
      .call (.kill 2)] (initPcb someTask)
    (fun k => (k.pcb 1).chan = some (.user 7) ∧ k.links.Walk (k.links.head (.user 7)) [] ∧
      k.links.Walk (k.links.head .ready) [.pcb 1]) (by decide)

end Tina
