import Mathlib.Algebra.Order.BigOperators.Group.Finset
import Mathlib.Algebra.Order.Group.Int
import Mathlib.Algebra.Order.Group.Multiset
import Mathlib.Data.List.Perm.Subperm
import Tina.Fifo

/-! Any number of senders and receivers. The semaphores still count the slots, whoever has
claimed them; what can go wrong is the position, which is reduced outside the part with
interrupts disabled. -/
namespace Tina.Mbox

open ByteBuffer Transition

variable {ι : Type} {s t : System ι} {items : List Byte} {A : Finset ι} {p q : ι} {op : Op}
  {own : Process} {m : Mailbox}

/-- Each fetch empties a full slot. -/
def Once : List (Act ι) → Prop
  | [] => True
  | .fetch _ i _ :: h => Full h i ∧ Once h
  | .send _ _ :: h | .store _ _ _ :: h => Once h

/-- The slots that the process has taken out of a semaphore and not passed on. -/
def share (op : Op) (own : Process) : Int := if own.op = op then own.pc.claimed else own.pc.owed

/-- The bytes that a sender still has to store. -/
def unsent (own : Process) : Multiset Byte :=
  match own.op with
  | .send => pending own
  | .recv => 0

/-- What holds of the locals of every process. -/
structure Sane (own : Process) : Prop where
  index : own.pc ≠ .idle → 0 ≤ own.i
  loaded : own.pc = .reduce → 0 ≤ own.loaded
  looping : Looping own

/-- What holds of a mailbox that the processes of `A` use. -/
structure Crowd (A : Finset ι) (s : System ι) (items : List Byte) : Prop where
  idle : ∀ p ∉ A, (s.process p).pc = .idle
  sane : ∀ p, Sane (s.process p)
  contents : Contents s items
  once : Once s.history
  positive : ∀ op, 0 ≤ s.mailbox.sem op
  count : ∀ op, s.mailbox.sem op + ∑ p ∈ A, share op (s.process p) = free op items
  passed : (called s.history : Multiset Byte) =
    stored s.history + ∑ p ∈ A, unsent (s.process p)

theorem share_self : share own.op own = own.pc.claimed := if_pos rfl

theorem share_other : share own.op.other own = own.pc.owed :=
  if_neg fun same => by cases h : own.op <;> rw [h] at same <;> cases same

theorem share_nonneg (op : Op) (own : Process) : 0 ≤ share op own := by
  rw [share]
  cases own.pc <;> split <;> decide

theorem Crowd.available (crowd : Crowd A s items) (member : p ∈ A)
    (transfers : (s.process p).pc = .transfer) : 1 ≤ free (s.process p).op items := by
  have count := crowd.count (s.process p).op
  have positive := crowd.positive (s.process p).op
  have mine : share (s.process p).op (s.process p) = 1 := by
    rw [share_self, transfers]
    rfl
  have part : share (s.process p).op (s.process p) ≤ ∑ q ∈ A, share (s.process p).op (s.process q) :=
    Finset.single_le_sum (fun q _ => share_nonneg _ _) member
  omega

variable [DecidableEq ι]

theorem sum_put {M : Type} [AddCommMonoid M] (g : Process → M) (own : Process) (member : p ∈ A) :
    ∑ q ∈ A, g (Function.update s.process p own q) + g (s.process p) =
      ∑ q ∈ A, g (s.process q) + g own := by
  have others : ∑ q ∈ A.erase p, g (Function.update s.process p own q) =
      ∑ q ∈ A.erase p, g (s.process q) := by
    refine Finset.sum_congr rfl fun q inside => ?_
    rw [Function.update_of_ne (Finset.ne_of_mem_erase inside)]
  have before := Finset.sum_erase_add A (fun q => g (s.process q)) member
  have after := Finset.sum_erase_add A (fun q => g (Function.update s.process p own q)) member
  rw [Function.update_self, others] at after
  rw [← before, ← after, add_right_comm]

structure Calm (s t : System ι) (p : ι) (own : Process) : Prop where
  process : t.process = Function.update s.process p own
  history : t.history = s.history
  buffer : t.mailbox.buffer = s.mailbox.buffer
  position : ∀ op, t.mailbox.position op = s.mailbox.position op ∨
    (s.process p).pc = .reduce ∧ op = (s.process p).op ∧
      t.mailbox.position op = (s.process p).loaded.tmod bufferSize
  sem : ∀ op, t.mailbox.sem op + share op own = s.mailbox.sem op + share op (s.process p)
  positive : ∀ op, 0 ≤ s.mailbox.sem op → 0 ≤ t.mailbox.sem op
  unsent : unsent own = unsent (s.process p)
  sane : Sane own

theorem share_mono {old : Process} (same : own.op = old.op) (claimed : own.pc.claimed = old.pc.claimed)
    (owed : own.pc.owed = old.pc.owed) (op : Op) : share op own = share op old := by
  rw [share, share, same, claimed, owed]

theorem unsent_mono {old : Process} (same : own.op = old.op) (rest : pending own = pending old) :
    unsent own = unsent old := by
  rw [unsent, unsent, same, rest]

/-- A step that uses neither the mailbox nor a semaphore. -/
theorem calm_move (masked : Option ι) (same : own.op = (s.process p).op)
    (claimed : own.pc.claimed = (s.process p).pc.claimed)
    (owed : own.pc.owed = (s.process p).pc.owed) (quiet : Quiet (s.process p) own)
    (index : own.pc ≠ .idle → 0 ≤ own.i) (loaded : own.pc = .reduce → 0 ≤ own.loaded) :
    Calm s { s.put p own with masked := masked } p own where
  process := rfl
  history := rfl
  buffer := rfl
  position _ := .inl rfl
  sem op := congrArg _ (share_mono same claimed owed op)
  positive _ := id
  unsent := unsent_mono same quiet.pending
  sane := ⟨index, loaded, quiet.looping⟩

theorem calm_reduce (pc : (s.process p).pc = .reduce) (same : own.op = (s.process p).op)
    (claimed : own.pc.claimed = (s.process p).pc.claimed)
    (owed : own.pc.owed = (s.process p).pc.owed) (quiet : Quiet (s.process p) own)
    (index : 0 ≤ own.i) (body : own.pc ≠ .reduce) :
    Calm s { s.put p own with
      mailbox := s.mailbox.setPosition (s.process p).op
        ((s.process p).loaded.tmod bufferSize) } p own where
  process := rfl
  history := rfl
  buffer := setPosition_buffer
  position op := by
    by_cases here : op = (s.process p).op
    · rw [here]
      exact .inr ⟨pc, rfl, setPosition_self⟩
    · rw [other_of_ne here]
      exact .inl setPosition_other
  sem op := by
    dsimp only
    rw [setPosition_sem]
    exact congrArg _ (share_mono same claimed owed op)
  positive op old := by
    dsimp only
    rw [setPosition_sem]
    exact old
  unsent := unsent_mono same quiet.pending
  sane := ⟨fun _ => index, fun reduce => absurd reduce body, quiet.looping⟩

/-- A wait or a signal: what the semaphore loses or gains is the share of the process. -/
theorem calm_signal {op' : Op} {v : Int} (same : own.op = (s.process p).op)
    (self : (s.mailbox.setSem op' v).sem own.op + own.pc.claimed =
      s.mailbox.sem own.op + (s.process p).pc.claimed)
    (other : (s.mailbox.setSem op' v).sem own.op.other + own.pc.owed =
      s.mailbox.sem own.op.other + (s.process p).pc.owed)
    (positive : 0 ≤ v) (quiet : Quiet (s.process p) own)
    (index : 0 ≤ own.i) (body : own.pc ≠ .reduce) :
    Calm s { s.put p own with mailbox := s.mailbox.setSem op' v } p own where
  process := rfl
  history := rfl
  buffer := setSem_buffer
  position op := .inl setSem_position
  sem op := by
    by_cases here : op = own.op
    · subst here
      rw [share_self, same, share_self, ← same]
      exact self
    · rw [other_of_ne here, share_other, same, share_other, ← same]
      exact other
  positive op old := by
    by_cases here : op = op'
    · rw [here, setSem_self]
      exact positive
    · rw [other_of_ne here] at old ⊢
      rw [setSem_other]
      exact old
  unsent := unsent_mono same quiet.pending
  sane := ⟨fun _ => index, fun reduce => absurd reduce body, quiet.looping⟩

/-- A step outside the transfer, or one of the two transfers. -/
theorem advance_calm (step : advance p s = some t) (sane : Sane (s.process p))
    (low : 0 ≤ s.mailbox.position (s.process p).op) (positive : ∀ op, 0 ≤ s.mailbox.sem op) :
    (∃ own, Calm s t p own) ∨
    ((s.process p).pc = .transfer ∧ (s.process p).op = .send ∧ t = store p s) ∨
    ((s.process p).pc = .transfer ∧ (s.process p).op = .recv ∧ t = fetch p s) := by
  have moved {own : Process} (started : (s.process p).pc ≠ .idle)
      (other : (s.process p).pc ≠ .transfer)
      (process : t.process = Function.update s.process p own) :
      Quiet (s.process p) own ∧ 0 ≤ (s.process p).i := by
    obtain ⟨own', process', _, quiet⟩ | ⟨pc, _⟩ | ⟨pc, _⟩ :=
      advance_cases step sane.index sane.looping
    · obtain rfl := Function.update_injective s.process p (process'.symm.trans process)
      exact ⟨quiet, sane.index started⟩
    · exact absurd pc other
    · exact absurd pc other
  cases pc : (s.process p).pc with
  | idle =>
    simp only [advance, pc] at step
    cases step
  | test =>
    simp only [advance, pc] at step
    obtain rfl := Option.some.inj step
    obtain ⟨quiet, index⟩ := moved (by rw [pc]; decide) (by rw [pc]; decide) rfl
    refine .inl ⟨_, calm_move s.masked rfl ?_ ?_ quiet (fun _ => index) ?_⟩
    · rw [pc]
      split <;> rfl
    · rw [pc]
      split <;> rfl
    · intro reduce
      dsimp only at reduce
      split at reduce <;> cases reduce
  | load =>
    simp only [advance, pc] at step
    obtain rfl := Option.some.inj step
    obtain ⟨quiet, index⟩ := moved (by rw [pc]; decide) (by rw [pc]; decide) rfl
    exact .inl ⟨_, calm_move _ rfl (by rw [pc]; rfl) (by rw [pc]; rfl) quiet (fun _ => index)
      fun _ => low⟩
  | reduce =>
    simp only [advance, pc] at step
    obtain rfl := Option.some.inj step
    obtain ⟨quiet, index⟩ := moved (by rw [pc]; decide) (by rw [pc]; decide) rfl
    exact .inl ⟨_, calm_reduce pc rfl (by rw [pc]; rfl) (by rw [pc]; rfl) quiet index
      fun reduce => by cases reduce⟩
  | disable | enable =>
    simp only [advance, pc] at step
    obtain rfl := Option.some.inj step
    obtain ⟨quiet, index⟩ := moved (by rw [pc]; decide) (by rw [pc]; decide) rfl
    exact .inl ⟨_, calm_move _ rfl (by rw [pc]; rfl) (by rw [pc]; rfl) quiet (fun _ => index)
      fun reduce => by cases reduce⟩
  | down =>
    simp only [advance, pc] at step
    split at step
    next some =>
      obtain rfl := Option.some.inj step
      obtain ⟨quiet, index⟩ := moved (by rw [pc]; decide) (by rw [pc]; decide) rfl
      refine .inl ⟨_, calm_signal rfl ?_ ?_ (by omega) quiet index fun reduce => by cases reduce⟩
      · rw [setSem_self, pc]
        change s.mailbox.sem (s.process p).op - 1 + 1 = s.mailbox.sem (s.process p).op + 0
        omega
      · rw [setSem_other, pc]
        rfl
    · cases step
  | transfer =>
    simp only [advance, pc] at step
    split at step
    next op => exact .inr (.inl ⟨rfl, op, (Option.some.inj step).symm⟩)
    next op => exact .inr (.inr ⟨rfl, op, (Option.some.inj step).symm⟩)
  | up =>
    simp only [advance, pc] at step
    obtain rfl := Option.some.inj step
    obtain ⟨quiet, index⟩ := moved (by rw [pc]; decide) (by rw [pc]; decide) rfl
    have old := positive (s.process p).op.other
    refine .inl ⟨_, calm_signal rfl ?_ ?_ (by omega) quiet index fun reduce => by cases reduce⟩
    · have same (v : Int) : (s.mailbox.setSem (s.process p).op.other v).sem
          (s.process p).op.other.other = s.mailbox.sem (s.process p).op.other.other := setSem_other
      simp only [other_other] at same
      rw [same, pc]
      rfl
    · rw [setSem_self, pc]
      change s.mailbox.sem (s.process p).op.other + 1 + 0 = s.mailbox.sem (s.process p).op.other + 1
      omega
  | next =>
    simp only [advance, pc] at step
    obtain rfl := Option.some.inj step
    obtain ⟨quiet, index⟩ := moved (by rw [pc]; decide) (by rw [pc]; decide) rfl
    refine .inl ⟨_, calm_move s.masked rfl (by rw [pc]; rfl) (by rw [pc]; rfl) quiet
      (fun _ => ?_) fun reduce => by cases reduce⟩
    dsimp only
    omega

theorem Crowd.count_put (crowd : Crowd A s items) (member : p ∈ A)
    (process : t.process = Function.update s.process p own) (op : Op) :
    ∑ q ∈ A, share op (t.process q) =
      free op items - s.mailbox.sem op - share op (s.process p) + share op own := by
  have sum := sum_put (s := s) (share op) own member
  have count := crowd.count op
  rw [process]
  omega

theorem sane_put (sane : ∀ q, Sane (s.process q)) (new : Sane own)
    (process : t.process = Function.update s.process p own) (q : ι) : Sane (t.process q) := by
  rw [process]
  by_cases here : q = p
  · rw [here, Function.update_self]
    exact new
  · rw [Function.update_of_ne here]
    exact sane q

theorem idle_put (idle : ∀ q ∉ A, (s.process q).pc = .idle) (member : p ∈ A)
    (process : t.process = Function.update s.process p own) :
    ∀ q ∉ A, (t.process q).pc = .idle := by
  intro q outside
  have other : q ≠ p := fun same => outside (same ▸ member)
  rw [process, Function.update_of_ne other]
  exact idle q outside

/-- What a process stores back is still what it loaded, up to the size of the buffer. -/
def Fresh (s : System ι) (p : ι) : Prop :=
  (s.process p).loaded % bufferSize = s.mailbox.position (s.process p).op % bufferSize

theorem Crowd.calm (crowd : Crowd A s items) (member : p ∈ A) (calm : Calm s t p own)
    (fresh : (s.process p).pc = .reduce → Fresh s p) : Crowd A t items where
  idle := idle_put crowd.idle member calm.process
  sane := sane_put crowd.sane calm.sane calm.process
  contents := by
    have old := crowd.contents
    refine ⟨fun op => ?_, ?_, ?_, ?_, ?_, ?_⟩
    · have placed := old.placed op
      rw [calm.history]
      rcases calm.position op with same | ⟨reduce, mine, next⟩
      · exact ⟨same ▸ placed.low, same ▸ placed.high, same ▸ placed.same⟩
      · have fresh := fresh reduce
        have loaded := (crowd.sane p).loaded reduce
        have same := placed.same
        rw [Fresh, ← mine] at fresh
        rw [Int.tmod_eq_emod_of_nonneg loaded] at next
        simp only [bufferSize] at fresh next same
        have bound : bufferSize = 32 := rfl
        exact ⟨by omega, by omega, by rw [bound]; omega⟩
    · rw [calm.buffer, calm.history]
      exact old.ring
    · rw [calm.history]
      exact old.flow
    · rw [calm.history]
      exact old.full
    · rw [calm.history]
      exact old.kept
    · rw [calm.history]
      exact old.inside
  once := calm.history ▸ crowd.once
  positive op := calm.positive op (crowd.positive op)
  count op := by
    have sum := crowd.count_put member calm.process op
    have sem := calm.sem op
    omega
  passed := by
    have sum := sum_put (s := s) unsent own member
    rw [calm.unsent, ← calm.process] at sum
    rw [calm.history, crowd.passed, add_right_cancel sum]

omit [DecidableEq ι] in
theorem Crowd.sane_transfer (crowd : Crowd A s items) (transfers : (s.process p).pc = .transfer)
    (msg : Buffer) : Sane { s.process p with msg := msg, pc := .enable } where
  index _ := (crowd.sane p).index (by rw [transfers]; decide)
  loaded := nofun
  looping _ := (crowd.sane p).looping (by rw [transfers]; trivial)

theorem Crowd.store (crowd : Crowd A s items) (member : p ∈ A)
    (transfers : (s.process p).pc = .transfer) (op : (s.process p).op = .send)
    (low : s.mailbox.wp < bufferSize) : ∃ items, Crowd A (store p s) items := by
  have process : (Mbox.store p s).process =
      Function.update s.process p { s.process p with pc := .enable } := rfl
  have available := crowd.available member transfers
  rw [op] at available
  have room : items.length < 32 := by
    simp only [free, bufferSize] at available
    omega
  have sane := crowd.sane_transfer transfers (s.process p).msg
  have index := (crowd.sane p).index (by rw [transfers]; decide)
  have inside := (crowd.sane p).looping (by rw [transfers]; trivial)
  refine ⟨_, idle_put crowd.idle member process, sane_put crowd.sane sane process,
    crowd.contents.store room low, crowd.once, fun op => ?_, fun op' => ?_, ?_⟩
  · cases op
    · exact crowd.positive .send
    · exact crowd.positive .recv
  · rw [crowd.count_put member process op']
    cases op' with
    | send =>
      simp only [share, op, transfers, free, List.length_append, List.length_singleton]
      change s.mailbox.wsem + (_ - s.mailbox.wsem - 1 + 0) = _
      push_cast
      omega
    | recv =>
      simp only [share, op, transfers, free, List.length_append, List.length_singleton]
      change s.mailbox.rsem + (_ - s.mailbox.rsem - 0 + 1) = _
      push_cast
      omega
  · have sum := sum_put (s := s) unsent { s.process p with pc := .enable } member
    have before : unsent (s.process p) = {(s.process p).msg (s.process p).i.toNat} +
        unsent { s.process p with pc := .enable } := by
      simp only [unsent, op, pending_transfer transfers index inside]
      rw [← Multiset.cons_coe, ← Multiset.singleton_add]
    rw [before, ← add_assoc, add_left_inj] at sum
    rw [Mbox.store, called, stored, crowd.passed, ← sum, ← Multiset.coe_add, add_assoc]
    exact congrArg _ (add_comm _ _)

theorem Crowd.fetch (crowd : Crowd A s items) (member : p ∈ A)
    (transfers : (s.process p).pc = .transfer) (op : (s.process p).op = .recv)
    (low : s.mailbox.rp < bufferSize) : ∃ items, Crowd A (fetch p s) items := by
  let own : Process := { s.process p with
    msg := Function.update (s.process p).msg (s.process p).i.toNat (s.mailbox.buffer s.mailbox.rp)
    pc := .enable }
  have process : (Mbox.fetch p s).process = Function.update s.process p own := rfl
  have mine : own.op = .recv := op
  have now : own.pc = .enable := rfl
  have available := crowd.available member transfers
  rw [op] at available
  cases items with
  | nil => exact absurd available (by decide)
  | cons a items =>
    have full : Full s.history s.mailbox.rp := by
      rw [crowd.contents.rp low, crowd.contents.full _ (Nat.mod_lt _ (by decide))]
      exact ⟨0, by simp, rfl⟩
    have sane := crowd.sane_transfer transfers own.msg
    refine ⟨items, idle_put crowd.idle member process, sane_put crowd.sane sane process,
      crowd.contents.fetch low, ⟨full, crowd.once⟩, fun op => ?_, fun op' => ?_, ?_⟩
    · cases op
      · exact crowd.positive .send
      · exact crowd.positive .recv
    · rw [crowd.count_put member process op']
      cases op' with
      | send =>
        simp only [share, op, transfers, mine, now, free, List.length_cons]
        change s.mailbox.wsem + (_ - s.mailbox.wsem - 0 + 1) = _
        push_cast
        omega
      | recv =>
        simp only [share, op, transfers, mine, now, free, List.length_cons]
        change s.mailbox.rsem + (_ - s.mailbox.rsem - 1 + 0) = _
        push_cast
        omega
    · have sum := sum_put (s := s) unsent own member
      have before : unsent (s.process p) = unsent own := by
        simp only [unsent, op, own]
      rw [before, ← process, add_left_inj] at sum
      rw [sum]
      exact crowd.passed

/-- A process that is in no call may be counted in. -/
theorem Crowd.enroll (crowd : Crowd A s items) (idle : (s.process p).pc = .idle) :
    Crowd (insert p A) s items where
  idle q outside := crowd.idle q fun member => outside (Finset.mem_insert_of_mem member)
  sane := crowd.sane
  contents := crowd.contents
  once := crowd.once
  positive := crowd.positive
  count op := by
    rw [Finset.sum_insert_of_eq_zero_if_notMem]
    · exact crowd.count op
    · intro _
      simp only [share, idle]
      exact ite_self _
  passed := by
    rw [Finset.sum_insert_of_eq_zero_if_notMem]
    · exact crowd.passed
    · intro _
      simp only [unsent, pending, idle]
      split <;> rfl

theorem Crowd.begin (crowd : Crowd A s items) (member : p ∈ A) (idle : (s.process p).pc = .idle)
    (begins : own.pc = .test) (first : own.i = 0) {h : List (Act ι)}
    (recorded : h = s.history ∨ ∃ message, h = .send p message :: s.history)
    (passed : (called h : Multiset Byte) = called s.history + unsent own) :
    Crowd A { s.put p own with history := h } items := by
  have process : (s.put p own).process = Function.update s.process p own := rfl
  have sane : Sane own := by
    refine ⟨fun _ => Int.le_of_eq first.symm, fun reduce => ?_, fun body => ?_⟩
    · rw [begins] at reduce
      cases reduce
    · rw [begins] at body
      exact body.elim
  have old := crowd.contents
  have nothing : unsent (s.process p) = 0 := by
    simp only [unsent, pending, idle]
    split <;> rfl
  have sum := sum_put (s := s) unsent own member
  rw [nothing, add_zero] at sum
  have stored : stored h = stored s.history := by rcases recorded with rfl | ⟨_, rfl⟩ <;> rfl
  refine ⟨idle_put crowd.idle member process, sane_put crowd.sane sane process, ?_, ?_,
    crowd.positive, fun op => ?_, ?_⟩
  · rcases recorded with rfl | ⟨_, rfl⟩
    · exact ⟨old.placed, old.ring, old.flow, old.full, old.kept, old.inside⟩
    · refine ⟨fun op => ?_, old.ring, old.flow, old.full, old.kept, old.inside⟩
      have placed := old.placed op
      cases op <;> exact ⟨placed.low, placed.high, placed.same⟩
  · rcases recorded with rfl | ⟨_, rfl⟩ <;> exact crowd.once
  · have none : ∀ own : Process, own.pc = .idle ∨ own.pc = .test → share op own = 0 := by
      rintro own (pc | pc) <;> simp only [share, pc] <;> exact ite_self _
    have count := crowd.count_put member process op
    have before := none (s.process p) (.inl idle)
    have after := none own (.inr begins)
    change s.mailbox.sem op + ∑ q ∈ A, share op ((s.put p own).process q) = _
    omega
  · change (called h : Multiset Byte) = Mbox.stored h + ∑ q ∈ A, unsent ((s.put p own).process q)
    rw [passed, stored, crowd.passed, process, sum, add_assoc]

/-- No process stores a position that another one has moved since it was loaded, and none
uses the buffer while its position has reached the end and has not been reduced since. -/
def Undisturbed (s : System ι) : Event ι → Prop
  | .step p => ((s.process p).pc = .reduce → Fresh s p) ∧
      ((s.process p).pc = .transfer → s.mailbox.position (s.process p).op ≠ bufferSize)
  | _ => True

theorem Crowd.step {event : Event ι} (crowd : Crowd A s items) (undisturbed : Undisturbed s event)
    (step : Step s event t) : ∃ A items, Crowd A t items := by
  unfold Step execute at step
  split at step
  · cases event with
    | mboxSend p msg msgLength =>
      simp only [] at step
      split at step
      next idle =>
        obtain rfl := Option.some.inj step
        refine ⟨insert p A, items, ?_⟩
        refine (crowd.enroll idle).begin (Finset.mem_insert_self p A) idle rfl ?_ (.inr ⟨_, rfl⟩) ?_
        · rfl
        · exact (Multiset.coe_add _ _).symm
      · cases step
    | mboxRecv p msg msgLength =>
      simp only [] at step
      split at step
      next idle =>
        obtain rfl := Option.some.inj step
        refine ⟨insert p A, items, ?_⟩
        refine (crowd.enroll idle).begin (Finset.mem_insert_self p A) idle rfl ?_ (.inl rfl) ?_
        · rfl
        · exact (add_zero (called s.history : Multiset Byte)).symm
      · cases step
    | step p =>
      obtain ⟨fresh, reduced⟩ := undisturbed
      have placed := crowd.contents.placed (s.process p).op
      have member : p ∈ A := by
        by_contra outside
        simp only [advance, crowd.idle p outside] at step
        cases step
      obtain ⟨own, calm⟩ | ⟨transfers, op, rfl⟩ | ⟨transfers, op, rfl⟩ :=
        advance_calm step (crowd.sane p) placed.low crowd.positive
      · exact ⟨A, items, crowd.calm member calm fresh⟩
      · have low := lt_of_le_of_ne placed.high (reduced transfers)
        rw [op] at low
        exact ⟨A, crowd.store member transfers op low⟩
      · have low := lt_of_le_of_ne placed.high (reduced transfers)
        rw [op] at low
        exact ⟨A, crowd.fetch member transfers op low⟩
  · cases step

/-- What the users of a mailbox may rely on, however many they are. -/
structure Safe (s : System ι) : Prop where
  inside : Inside s.history
  once : Once s.history
  kept : Kept s.history
  received : (fetched s.history).Subperm (called s.history)
  sent : (∀ p, (s.process p).op = .send → (s.process p).pc = .idle) →
    (stored s.history).Perm (called s.history)
  delivered : (called s.history).length ≤ (fetched s.history).length →
    (fetched s.history).Perm (called s.history)

omit [DecidableEq ι] in
theorem Crowd.safe (crowd : Crowd A s items) : Safe s := by
  have received : (fetched s.history).Subperm (called s.history) := by
    rw [← Multiset.coe_le, crowd.passed, crowd.contents.flow, ← Multiset.coe_add, add_assoc]
    exact Multiset.le_add_right _ _
  refine ⟨crowd.contents.inside, crowd.once, crowd.contents.kept, received, fun done => ?_,
    fun all => received.perm_of_length_le all⟩
  have nothing : ∑ p ∈ A, unsent (s.process p) = 0 := by
    refine Finset.sum_eq_zero fun p _ => ?_
    rw [unsent]
    split
    next op => rw [pending, done p op, Multiset.coe_nil]
    · rfl
  rw [← Multiset.coe_eq_coe, crowd.passed, nothing, add_zero]

omit [DecidableEq ι] in
theorem crowd_start {i refCount : Int} {name : List Byte} :
    Crowd ∅ (start i name refCount m : System ι) [] where
  idle _ _ := rfl
  sane _ := ⟨fun active => absurd rfl active, nofun, fun body => body.elim⟩
  contents := contents_start
  once := trivial
  positive := start_positive
  count op := by cases op <;> rfl
  passed := rfl

/-- As long as the positions are left alone in between, any number of processes may use a
mailbox. -/
theorem reachable_safe {i refCount : Int} {name : List Byte}
    (reach : Reachable Step Undisturbed (start i name refCount m) s) : Safe s := by
  have invariant : ∃ A items, Crowd A s items := by
    refine reach.invariant (fun s => ∃ A items, Crowd A s items) ⟨∅, [], crowd_start⟩ ?_
    rintro s event t ⟨A, items, crowd⟩ undisturbed step
    exact crowd.step undisturbed step
  obtain ⟨A, items, crowd⟩ := invariant
  exact crowd.safe

instance Undisturbed.decidable (s : System ι) (event : Event ι) :
    Decidable (Undisturbed s event) := by
  cases event <;> simp only [Undisturbed, Fresh] <;> infer_instance

/-- Two senders take turns, and a receiver gets both bytes. -/
def takeTurns : List (Event (Fin 3)) :=
  [.mboxSend 0 (fun _ => 0x41) 1, .mboxSend 1 (fun _ => 0x42) 1] ++ List.replicate 7 (.step 0) ++
    [.step 1] ++ List.replicate 3 (.step 0) ++ List.replicate 9 (.step 1) ++
    .mboxRecv 2 (fun _ => 0) 2 :: List.replicate 19 (.step 2)

theorem reachable_safe_turns : ∃ s : System (Fin 3),
    Reachable Step Undisturbed (start 0 [0x61] 3 zeros) s ∧ Safe s ∧
      fetched s.history = [0x41, 0x42] := by
  obtain ⟨s, run, both⟩ : ∃ s,
      runChecked execute Undisturbed takeTurns (start 0 [0x61] 3 zeros) = some s ∧
        fetched s.history = [0x41, 0x42] := ⟨_, rfl, rfl⟩
  have reach : Reachable Step Undisturbed (start 0 [0x61] 3 zeros) s :=
    runChecked_reachable takeTurns .start run
  exact ⟨s, reach, reachable_safe reach, both⟩

/-- One sender is stopped before its last byte, with the position reduced; another one fills
the last slot, and takes a byte out to make room. -/
def pastTheEnd : List (Event Bool) :=
  .mboxSend false (fun _ => 0x41) 32 :: List.replicate (31 * 9 + 3) (.step false) ++
    .mboxSend true (fun _ => 0x42) 1 :: List.replicate 10 (.step true) ++
    .mboxRecv true (fun _ => 0) 1 :: List.replicate 10 (.step true) ++
    List.replicate 3 (.step false)

set_option maxRecDepth 4000 in
theorem senders_overrun : ∃ s : System Bool,
    Reachable Step (fun _ _ => True) (start 0 [0x61] 2 zeros) s ∧
    s.history.head? = some (.store false 32 0x41) ∧ ¬Inside s.history := by
  obtain ⟨s, run, newest⟩ : ∃ s, runAll pastTheEnd (start 0 [0x61] 2 zeros) = some s ∧
      s.history.head? = some (.store false 32 0x41) := ⟨_, rfl, rfl⟩
  have reach : Reachable Step (fun _ _ => True) (start 0 [0x61] 2 zeros) s :=
    runAll_reachable pastTheEnd .start (fun _ _ _ => trivial) run
  refine ⟨s, reach, newest, fun inside => ?_⟩
  cases history : s.history with
  | nil =>
    rw [history] at newest
    cases newest
  | cons act h =>
    rw [history] at newest inside
    obtain rfl := Option.some.inj newest
    exact absurd inside.1.2 (by decide)

/-- A position that was loaded before another sender moved it puts that sender's byte at
risk. -/
def stalePosition : List (Event Bool) :=
  [.mboxSend false (fun _ => 0x41) 1, .step false, .step false] ++
    .mboxSend true (fun _ => 0x42) 1 :: List.replicate 10 (.step true) ++
    List.replicate 4 (.step false)

theorem senders_overwrite : ∃ s : System Bool,
    Reachable Step (fun _ _ => True) (start 0 [0x61] 2 zeros) s ∧
    s.history.head? = some (.store false 0 0x41) ∧ ¬Kept s.history := by
  obtain ⟨s, run, newest, lost⟩ : ∃ s, runAll stalePosition (start 0 [0x61] 2 zeros) = some s ∧
      s.history.head? = some (.store false 0 0x41) ∧
      s.history.tail.head? = some (.store true 0 0x42) :=
    ⟨_, rfl, rfl, rfl⟩
  have reach : Reachable Step (fun _ _ => True) (start 0 [0x61] 2 zeros) s :=
    runAll_reachable stalePosition .start (fun _ _ _ => trivial) run
  refine ⟨s, reach, newest, fun kept => ?_⟩
  match history : s.history with
  | [] =>
    rw [history] at newest
    cases newest
  | [act] =>
    rw [history] at lost
    cases lost
  | act :: old :: h =>
    rw [history] at newest lost kept
    obtain rfl := Option.some.inj newest
    obtain rfl := Option.some.inj lost
    exact kept.1 (.inl rfl)

end Tina.Mbox
