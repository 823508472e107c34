import Tina.Locking

/-! The critical sections of `sem.c`, `barrier.c` and `cond.c`, from the moment the
caller has the mutex. It is the last one the caller took, so releasing it only cuts
the tail of the holding queue. -/
namespace Tina

open LinkedQueue

variable {k k' : Kernel} {L L' : Lists} {off : Set Slot} {p i : Slot} {q : QueueId}
  {rest : List Item} {l : Mutex} {s b c : Nat} {fuel : Nat} {clk : Word} {kont : Kont}

/-- The lists after the caller, holding `rest` besides, has let go of `l`. -/
def letGoLists (l : Mutex) (p : Slot) (rest : List Item) (L : Lists) : Lists :=
  released (Function.update L (.holding p) rest) (.block l)

/-- A state from which `doBlock` has been reached with lists `M` in state `m`. -/
def BlockedFrom (q : QueueId) (kont : Kont) (m : Kernel) (M : Lists) (k' : Kernel) (L' : Lists) :
    Prop :=
  Deserted (blockedOn q kont m) (parkLists q m.currentRunning M) →
    Switched (blockedOn q kont m) (parkLists q m.currentRunning M) k' L'

/-- The count as `do_semaphore_up` leaves it. -/
def countUp (s : Nat) (k : Kernel) : Kernel :=
  { k with count := Function.update k.count s (int32 (k.count s + 1)) }.record (.up s)

/-- The count as a `do_semaphore_down` that takes its unit leaves it. -/
def countDown (s : Nat) (k : Kernel) : Kernel :=
  { k with count := Function.update k.count s (int32 (k.count s - 1)) }.record (.down s)

theorem countUp_coherent (coherent : Coherent k L off) : Coherent (countUp s k) L off :=
  coherent.reframe rfl rfl (fun _ => rfl) (fun _ => rfl) (fun _ => rfl) (fun _ _ => rfl)

theorem countDown_coherent (coherent : Coherent k L off) : Coherent (countDown s k) L off :=
  coherent.reframe rfl rfl (fun _ => rfl) (fun _ => rfl) (fun _ => rfl) (fun _ _ => rfl)

theorem semaphoreUp_spec (coherent : Coherent k L off)
    (back : L (.holding k.currentRunning) = rest ++ [.lock (.sem s)])
    (result : semaphoreUp fuel s k = some k') : ∃ links,
    k' = (letGo (.sem s) (firstLists (.sem s) L) (wakeFirst (.sem s) L (countUp s k))).relink links ∧
    Coherent k' (letGoLists (.sem s) k.currentRunning rest (firstLists (.sem s) L)) off := by
  simp only [semaphoreUp, Option.bind_eq_bind, Option.bind_eq_some_iff] at result
  obtain ⟨woken, wakeUp, result⟩ := result
  obtain ⟨links, rfl, c₁⟩ := doUnblockOne_spec (q := .sem s) (countUp_coherent coherent)
    trivial wakeUp
  have current : ((wakeFirst (.sem s) L (countUp s k)).relink links).currentRunning =
      k.currentRunning := by simp [countUp, Kernel.record]
  have back₁ : firstLists (.sem s) L (.holding k.currentRunning) = rest ++ [.lock (.sem s)] := by
    rw [firstLists_of_ne (by simp) (by simp), back]
  obtain ⟨links', same, c₂⟩ := release_last c₁ (current ▸ back₁) result
  rw [current] at c₂
  exact ⟨links', by rw [same, letGo_relink]; rfl, c₂⟩

theorem semaphoreDown_take (coherent : Coherent k L off) (positive : ¬ k.count s ≤ 0)
    (back : L (.holding k.currentRunning) = rest ++ [.lock (.sem s)])
    (result : semaphoreDown fuel clk s k = some k') : ∃ links,
    k' = (letGo (.sem s) L (countDown s k)).relink links ∧
    Coherent k' (letGoLists (.sem s) k.currentRunning rest L) off := by
  rw [semaphoreDown, if_neg positive] at result
  exact release_last (countDown_coherent coherent) back result

/-- Every call of `do_block` inside `kernel/locking`, on a queue nobody exits from. -/
theorem releaseBlock_spec (coherent : Coherent k L {k.currentRunning})
    (back : L (.holding k.currentRunning) = rest ++ [.lock l]) (parking : q.Parking)
    (attended : ∀ i, q ≠ .waiting i)
    (result : (doMutexLockRelease fuel l k).bind (doBlock fuel clk q kont) = some k') :
    ∃ links L', Coherent ((letGo l L k).relink links) (letGoLists l k.currentRunning rest L)
        {k.currentRunning} ∧
      Coherent k' L' {k'.currentRunning} ∧ (k'.pcb k'.currentRunning).status = .running ∧
      k'.kont = Function.update k.kont k.currentRunning kont ∧
      Waking (blockedOn q kont ((letGo l L k).relink links)) k' ∧
      BlockedFrom q kont ((letGo l L k).relink links) (letGoLists l k.currentRunning rest L)
        k' L' := by
  rw [Option.bind_eq_some_iff] at result
  obtain ⟨m, release, block⟩ := result
  obtain ⟨links, rfl, c₁⟩ := release_last coherent back release
  have current : ((letGo l L k).relink links).currentRunning = k.currentRunning := by
    simp [letGo, unlock, Kernel.record]
  have here : Coherent ((letGo l L k).relink links) (letGoLists l k.currentRunning rest L)
      {((letGo l L k).relink links).currentRunning} := by rw [current]; exact c₁
  obtain ⟨L', c₂, running, stored, waking, switched⟩ := doBlock_spec here parking
    (fun i same => absurd same (attended i)) block
  have same : k'.kont = Function.update k.kont k.currentRunning kont := by
    rw [stored, current]
    simp [letGo, unlock, Kernel.record]
  exact ⟨links, L', c₁, c₂, running, same, waking, switched⟩

def countArrival (b : Nat) (k : Kernel) : Kernel :=
  let count := int32 ((k.barrier b).count + 1)
  { k with barrier := Function.update k.barrier b { k.barrier b with count := count } }.record
    (.arrive b k.currentRunning)

def resetCount (b : Nat) (k : Kernel) : Kernel :=
  { k with barrier := Function.update k.barrier b { k.barrier b with count := 0 } }

theorem countArrival_coherent (coherent : Coherent k L off) :
    Coherent (countArrival b k) L off :=
  coherent.reframe rfl rfl (fun _ => rfl) (fun _ => rfl) (fun _ => rfl) (fun _ _ => rfl)

theorem barrierLeave_spec (coherent : Coherent k L off)
    (back : L (.holding k.currentRunning) = rest ++ [.lock (.barrier b)])
    (result : barrierLeave fuel b k = some k') : ∃ links,
    k' = ((letGo (.barrier b) L k).record (.leave b k.currentRunning)).relink links ∧
    Coherent k' (letGoLists (.barrier b) k.currentRunning rest L) off := by
  simp only [barrierLeave, Option.bind_eq_bind, Option.bind_eq_some_iff, Option.some.injEq] at result
  obtain ⟨m, release, rfl⟩ := result
  obtain ⟨links, rfl, c₁⟩ := release_last coherent back release
  refine ⟨links, ?_, c₁.record _ trivial⟩
  simp [letGo, unlock, Kernel.record, Kernel.relink]

/-- The last arrival of a generation wakes the others and goes on. -/
theorem barrierArrive_last (coherent : Coherent k L off)
    (last : int32 ((k.barrier b).count + 1) = (k.barrier b).max)
    (back : L (.holding k.currentRunning) = rest ++ [.lock (.barrier b)])
    (result : barrierArrive fuel clk b k = some k') : ∃ links,
    k' = ((letGo (.barrier b) (released L (.barrier b)) (resetCount b (wakeAll (.barrier b)
      (slots (L (.barrier b))) (countArrival b k)))).record (.leave b k.currentRunning)).relink links ∧
    Coherent k' (letGoLists (.barrier b) k.currentRunning rest (released L (.barrier b))) off := by
  simp only [barrierArrive, if_pos last, Option.bind_eq_bind, Option.bind_eq_some_iff] at result
  obtain ⟨woken, wakeUp, result⟩ := result
  obtain ⟨links, same, c₁⟩ := doUnblockAll_spec (q := .barrier b)
    (countArrival_coherent (b := b) coherent) trivial wakeUp
  have current : woken.currentRunning = k.currentRunning := by
    rw [same]; simp [countArrival, Kernel.record]
  have c₂ : Coherent (resetCount b woken) (released L (.barrier b)) off :=
    c₁.data rfl rfl rfl rfl
  have back₁ : released L (.barrier b) (.holding (resetCount b woken).currentRunning) =
      rest ++ [.lock (.barrier b)] := by
    rw [released_of_ne (by simp) (by simp)]
    exact current ▸ back
  obtain ⟨links', final, c₃⟩ := barrierLeave_spec c₂ back₁ result
  have current₂ : (resetCount b woken).currentRunning = k.currentRunning := current
  rw [current₂] at final c₃
  refine ⟨links', ?_, c₃⟩
  have reset : resetCount b woken = (resetCount b (wakeAll (.barrier b)
      (slots (L (.barrier b))) (countArrival b k))).relink links := by rw [same]; rfl
  rw [final, reset, letGo_relink]
  rfl

theorem barrierArrive_early (early : int32 ((k.barrier b).count + 1) ≠ (k.barrier b).max) :
    barrierArrive fuel clk b k = (doMutexLockRelease fuel (.barrier b) (countArrival b k)).bind
      (doBlock fuel clk (.barrier b) (.barrier b)) := by
  simp only [barrierArrive, if_neg early]
  rfl

theorem semaphoreDown_wait (empty : k.count s ≤ 0) :
    semaphoreDown fuel clk s k = (doMutexLockRelease fuel (.sem s) k).bind
      (doBlock fuel clk (.sem s) (.down s)) := by
  rw [semaphoreDown, if_pos empty]
  rfl

theorem doConditionWait_eq : doConditionWait fuel clk l c k =
    (doMutexLockRelease fuel l (k.record (.wait k.currentRunning l c))).bind
      (doBlock fuel clk (.cond c) (.condition l c)) := rfl

end Tina
