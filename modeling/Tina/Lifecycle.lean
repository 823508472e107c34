import Tina.Critical

/-! Processes coming and going: `spawn`, `kill` and `wait`, and the state `init_pcb`
leaves. A killed process keeps its queues until the scheduler meets it, so what a
slot may be used for depends on history. -/
namespace Tina

open LinkedQueue

variable {k k' : Kernel} {L L' : Lists} {off : Set Slot} {p i : Slot} {q : QueueId}
  {rest : List Item} {l : Mutex} {s b c : Nat} {fuel : Nat} {clk : Word} {kont : Kont} {id : Int}

theorem freeSlot_exited (found : freeSlot k = some i) : (k.pcb i).status = .exited := by
  simpa using List.find?_some found

theorem lookup_live (found : lookup id k = some i) :
    (k.pcb i).pid = id ∧ (k.pcb i).status ≠ .exited := by
  simpa using List.find?_some found

/-- A reused slot: on no queue before, at the end of the ready queue after. -/
theorem assignt_spec (coherent : Coherent k L off) (exited : (k.pcb i).status = .exited)
    (done : unreaped k.trace i = false) (outside : i ∉ off) (task : TaskInfo) :
    Coherent (assignt task i k) (parkLists .ready i L) off := by
  obtain ⟨waiting, holding⟩ := coherent.retired i exited done outside
  have nowhere : k.place i = none := by simp [Kernel.place, exited, done]
  have vacated := coherent.vacate nowhere
  have moved := vacated.enqueue (m := (assignt task i k).relink
      (queuePush .ready (.pcb i) k.links)) (q := .ready) (Set.mem_insert i off) rfl rfl
    (by intro j other; simp [assignt, assignTask, Kernel.setPcb, Kernel.record, other])
    (by intro j other; simp [assignt, assignTask, Kernel.setPcb, Kernel.record, other])
    (fun _ _ => rfl) (fun _ _ => rfl)
    (by simp [Kernel.place, assignt, assignTask, Kernel.setPcb, Kernel.record])
    (by simp [assignt, assignTask, Kernel.setPcb, Kernel.record]) (by simp)
  rw [Set.insert_sdiff_self_of_notMem outside] at moved
  have first := queueInit_spells (q := .holding i) moved.spells (by simp [holding])
  have second := queueInit_spells (q := .waiting i) first (by simp [waiting])
  exact moved.respell second

/-- What `kill` can do without damage: its target is on the ready queue, or is
blocked at one end of its queue. -/
def Removable (k : Kernel) (i : Slot) : Prop :=
  (k.pcb i).chan = none ∨ (k.pcb i).status = .blocked ∧ ∀ q, (k.pcb i).chan = some q →
    k.links.head q = some (.pcb i) ∨ k.links.tail q = some (.pcb i)

instance Removable.decidable (k : Kernel) (i : Slot) : Decidable (Removable k i) :=
  match chan : (k.pcb i).chan with
  | none => isTrue (Or.inl chan)
  | some q => decidable_of_iff ((k.pcb i).status = .blocked ∧
      (k.links.head q = some (.pcb i) ∨ k.links.tail q = some (.pcb i))) (by simp [Removable, chan])

def condemn (i : Slot) (k : Kernel) : Kernel :=
  (k.setPcb i { k.pcb i with status := .exited }).record (.kill i)

@[simp] theorem condemn_current : (condemn i k).currentRunning = k.currentRunning := rfl

theorem unreaped_condemn : unreaped (condemn i k).trace p =
    if i = p then true else unreaped k.trace p := rfl

theorem condemn_status : ((condemn i k).pcb p).status =
    if p = i then .exited else (k.pcb p).status := by
  by_cases same : p = i <;> simp [condemn, Kernel.setPcb, Kernel.record, same]

theorem condemn_chan : ((condemn i k).pcb p).chan = (k.pcb p).chan := by
  by_cases same : p = i <;> simp [condemn, Kernel.setPcb, Kernel.record, same]

theorem kill_eq (found : lookup id k = some i) : kill id k =
    match (k.pcb i).chan with
    | none => condemn i k
    | some chan => (condemn i k).relink
        (queuePush .ready (.pcb i) (queueRemove (.pcb 0) chan (.pcb i) k.links).2) := by
  have chan := condemn_chan (k := k) (i := i) (p := i)
  simp only [kill, found]
  change (match ((condemn i k).pcb i).chan with
    | none => condemn i k
    | some chan => _) = _
  rw [chan]
  rfl

/-- A killed process that is already on the ready queue, or running, stays there. -/
theorem condemn_coherent (coherent : Coherent k L off) (live : (k.pcb i).status ≠ .exited)
    (free : (k.pcb i).chan = none) : Coherent (condemn i k) L off where
  spells := coherent.spells
  procs p q := by
    rw [coherent.procs]
    by_cases same : p = i
    · subst p
      have after : (condemn i k).place i = some .ready := by
        simp [Kernel.place, condemn_status, unreaped_condemn]
      refine and_congr_right fun outside => ?_
      rw [after]
      unfold Kernel.place
      split
      · rfl
      · rfl
      · rfl
      next blocked =>
        obtain ⟨q, chan, _⟩ := coherent.parked i blocked
        simp [chan] at free
      next running => exact absurd (coherent.running i running) outside
      next exited => exact absurd exited live
    · rw [place_congr (by rw [condemn_status, if_neg same]) condemn_chan
        (by rw [unreaped_condemn, if_neg (Ne.symm same)])]
  parked p blocked := by
    rw [condemn_status] at blocked
    rw [condemn_chan]
    split at blocked
    · contradiction
    · exact coherent.parked p blocked
  locks := coherent.locks
  locked := coherent.locked
  held := coherent.held
  running p running := by
    rw [condemn_status] at running
    split at running
    · contradiction
    · exact coherent.running p running
  retired p exited done outside := by
    rw [unreaped_condemn] at done
    rw [condemn_status] at exited
    by_cases same : p = i
    · simp [same] at done
    · exact coherent.retired p (by simpa [same] using exited) (by simpa [Ne.symm same] using done)
        outside

/-- A blocked process at one end of its queue moves from there to the ready queue. -/
theorem condemn_blocked (coherent : Coherent k L off) (blocked : (k.pcb i).status = .blocked)
    (outside : i ∉ off) (chan : (k.pcb i).chan = some q)
    (atEnd : k.links.head q = some (.pcb i) ∨ k.links.tail q = some (.pcb i)) :
    Coherent ((condemn i k).relink
        (queuePush .ready (.pcb i) (queueRemove (.pcb 0) q (.pcb i) k.links).2))
      (parkLists .ready i (Function.update L q ((L q).erase (.pcb i)))) off := by
  have member : Item.pcb i ∈ L q := by
    rw [coherent.procs]
    exact ⟨outside, by simp [Kernel.place, blocked, chan]⟩
  have extracted := coherent.extract member (queueRemove_spells (.pcb 0) coherent.spells atEnd)
  have moved := extracted.enqueue (m := (condemn i k).relink
      (queuePush .ready (.pcb i) (queueRemove (.pcb 0) q (.pcb i) k.links).2)) (q := .ready)
    (Set.mem_insert i off) rfl rfl
    (by intro j other; rw [relink_pcb, condemn_status, if_neg other]; rfl)
    (by intro j other; rw [relink_pcb, condemn_chan]; rfl)
    (by intro j other; rw [relink_trace, unreaped_condemn, if_neg (Ne.symm other)]; rfl)
    (fun _ _ => rfl)
    (by simp [Kernel.place, condemn_status, unreaped_condemn])
    (by simp [condemn_status]) (by simp)
  rwa [Set.insert_sdiff_self_of_notMem outside] at moved

theorem kill_spec (coherent : Coherent k L off) (found : lookup id k = some i)
    (removable : Removable k i) (idle : ∀ p ∈ off, (k.pcb p).status ≠ .blocked) : ∃ links,
    kill id k = (condemn i k).relink links ∧ ∃ L', Coherent (kill id k) L' off := by
  obtain ⟨_, live⟩ := lookup_live found
  rw [kill_eq found]
  cases chan : (k.pcb i).chan with
  | none => exact ⟨k.links, rfl, L, condemn_coherent coherent live chan⟩
  | some q =>
    rcases removable with free | ⟨blocked, atEnd⟩
    · simp [chan] at free
    · have outside : i ∉ off := fun inside => idle i inside blocked
      exact ⟨_, rfl, _, condemn_blocked coherent blocked outside chan (atEnd q chan)⟩

theorem wait_spec (result : wait fuel clk id k = some k') : k' = k ∨
    ∃ i, lookup id k = some i ∧ i ≠ k.currentRunning ∧
      doBlock fuel clk (.waiting i) .user k = some k' := by
  unfold wait at result
  cases found : lookup id k with
  | none => simp [found] at result; exact Or.inl result.symm
  | some i =>
    simp only [found] at result
    by_cases own : k.current.pid = id
    · rw [if_pos own] at result
      exact Or.inl (Option.some.inj result).symm
    · rw [if_neg own] at result
      refine Or.inr ⟨i, rfl, ?_, result⟩
      rintro rfl
      exact own (lookup_live found).1

/-- Before `init_pcb` no queue has a member. -/
theorem boot_spells : boot.links.Spells fun _ => [] where
  head _ := rfl
  tail _ := rfl
  seg _ := trivial
  nodup _ := List.nodup_nil
  apart := by simp

end Tina
