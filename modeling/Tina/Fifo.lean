import Tina.Mailbox
import Tina.Ring

/-! One sender and one receiver. The mailbox is a ring whose items lie between what has been
fetched and what has been stored; the semaphores count its free and its full slots, less those
that a process has claimed and not used yet. -/
namespace Tina.Mbox

open ByteBuffer Transition

variable {ι : Type}

/-- The bytes of the messages passed to `mbox_send`, one after the other. -/
def called : List (Act ι) → List Byte
  | [] => []
  | .send _ message :: h => called h ++ message
  | .store _ _ _ :: h | .fetch _ _ _ :: h => called h

/-- The bytes put into the buffer. -/
def stored : List (Act ι) → List Byte
  | [] => []
  | .store _ _ c :: h => stored h ++ [c]
  | .send _ _ :: h | .fetch _ _ _ :: h => stored h

/-- The bytes delivered to the callers of `mbox_recv`. -/
def fetched : List (Act ι) → List Byte
  | [] => []
  | .fetch _ _ c :: h => fetched h ++ [c]
  | .send _ _ :: h | .store _ _ _ :: h => fetched h

def moved (op : Op) (h : List (Act ι)) : List Byte :=
  match op with
  | .send => stored h
  | .recv => fetched h

/-- The slot was stored to and not fetched from since. -/
def Full : List (Act ι) → Int → Prop
  | [], _ => False
  | .store _ i _ :: h, j => i = j ∨ Full h j
  | .fetch _ i _ :: h, j => i ≠ j ∧ Full h j
  | .send _ _ :: h, j => Full h j

/-- No store hits a full slot. -/
def Kept : List (Act ι) → Prop
  | [] => True
  | .store _ i _ :: h => ¬Full h i ∧ Kept h
  | .send _ _ :: h | .fetch _ _ _ :: h => Kept h

/-- The slots that were used exist. -/
def Inside : List (Act ι) → Prop
  | [] => True
  | .store _ i _ :: h | .fetch _ i _ :: h => (0 ≤ i ∧ i < bufferSize) ∧ Inside h
  | .send _ _ :: h => Inside h

/-- A slot is claimed between the wait and the transfer, and owed between the transfer and the
signal. -/
def Pc.claimed : Pc → Int
  | .disable | .transfer => 1
  | _ => 0

def Pc.owed : Pc → Int
  | .enable | .up => 1
  | _ => 0

/-- The position has been reduced and not used yet. -/
def Pc.Low : Pc → Prop
  | .down | .disable | .transfer => True
  | _ => False

/-- The slots that a sender may fill, or those that a receiver may empty. -/
def free (op : Op) (items : List Byte) : Int :=
  match op with
  | .send => bufferSize - items.length
  | .recv => items.length

/-- What a process knows of the mailbox. -/
structure Local (m : Mailbox) (own : Process) : Prop where
  low : own.pc.Low → m.position own.op < bufferSize
  loaded : own.pc = .reduce → own.loaded = m.position own.op
  index : own.pc ≠ .idle → 0 ≤ own.i

/-- A position is a count modulo the size of the buffer. -/
structure Placed (m : Mailbox) (h : List (Act ι)) (op : Op) : Prop where
  low : 0 ≤ m.position op
  high : m.position op ≤ bufferSize
  same : m.position op % bufferSize = (moved op h).length % bufferSize

/-- What holds of a mailbox that `who .send` sends to and `who .recv` receives from. -/
structure Sound (who : Op → ι) (s : System ι) (items : List Byte) : Prop where
  role : ∀ p, (s.process p).pc ≠ .idle → p = who (s.process p).op
  known : ∀ p, Local s.mailbox (s.process p)
  placed : ∀ op, Placed s.mailbox s.history op
  ring : Ring.Holds 32 (fun k => s.mailbox.buffer k) (fetched s.history).length items
  flow : stored s.history = fetched s.history ++ items
  positive : ∀ op, 0 ≤ s.mailbox.sem op
  count : ∀ op, s.mailbox.sem op + (s.process (who op)).pc.claimed +
    (s.process (who op.other)).pc.owed = free op items
  full : ∀ k < 32, Full s.history (k : Nat) ↔
    Ring.Taken 32 (fetched s.history).length items.length k
  kept : Kept s.history
  inside : Inside s.history

variable {who : Op → ι} {s t : System ι} {items : List Byte} {p q : ι} {op : Op} {own : Process}
  {m : Mailbox} {a : Byte}

/-- The part of it that does not depend on who uses the mailbox. -/
structure Contents (s : System ι) (items : List Byte) : Prop where
  placed : ∀ op, Placed s.mailbox s.history op
  ring : Ring.Holds 32 (fun k => s.mailbox.buffer k) (fetched s.history).length items
  flow : stored s.history = fetched s.history ++ items
  full : ∀ k < 32, Full s.history (k : Nat) ↔
    Ring.Taken 32 (fetched s.history).length items.length k
  kept : Kept s.history
  inside : Inside s.history

theorem Sound.contents (sound : Sound who s items) : Contents s items :=
  ⟨sound.placed, sound.ring, sound.flow, sound.full, sound.kept, sound.inside⟩

theorem other_of_ne {op' : Op} (apart : op' ≠ op) : op' = op.other := by
  cases op <;> cases op' <;> first | rfl | exact absurd rfl apart

theorem other_other : op.other.other = op := by cases op <;> rfl

theorem who_other (distinct : who .send ≠ who .recv) : who op.other ≠ who op := by
  cases op
  · exact distinct.symm
  · exact distinct

theorem Pc.owed_nonneg (pc : Pc) : 0 ≤ pc.owed := by cases pc <;> decide

theorem Sound.pc_role (sound : Sound who s items) {pc : Pc} (here : (s.process p).pc = pc)
    (active : pc ≠ .idle) : p = who (s.process p).op :=
  sound.role p fun idle => active (here.symm.trans idle)

/-- Whoever has waited finds a slot. -/
theorem Sound.available (sound : Sound who s items) (mine : p = who op)
    (transfers : (s.process p).pc = .transfer) : 1 ≤ free op items := by
  have count := sound.count op
  have positive := sound.positive op
  have owed := Pc.owed_nonneg (s.process (who op.other)).pc
  have claimed : (s.process (who op)).pc.claimed = 1 := by rw [← mine, transfers]; rfl
  omega

/-- The slot that a position names. -/
theorem Placed.slot (placed : Placed m s.history op) (low : m.position op < bufferSize) :
    m.position op = ((moved op s.history).length % 32 : Nat) := by
  have same := placed.same
  have nonneg := placed.low
  simp only [bufferSize] at *
  omega

/-- After the transfer the position counts one more. -/
theorem Placed.advance {m' : Mailbox} {h : List (Act ι)} (placed : Placed m s.history op)
    (low : m.position op < bufferSize) (next : m'.position op = m.position op + 1)
    (more : (moved op h).length = (moved op s.history).length + 1) : Placed m' h op := by
  have same := placed.same
  have nonneg := placed.low
  simp only [bufferSize] at *
  constructor
  · omega
  · simp only [bufferSize]
    omega
  · simp only [bufferSize]
    omega

theorem Contents.wp (contents : Contents s items) (low : s.mailbox.wp < bufferSize) :
    s.mailbox.wp = (((fetched s.history).length + items.length) % 32 : Nat) := by
  have here := (contents.placed .send).slot low
  rwa [moved, contents.flow, List.length_append] at here

theorem Contents.rp (contents : Contents s items) (low : s.mailbox.rp < bufferSize) :
    s.mailbox.rp = ((fetched s.history).length % 32 : Nat) :=
  (contents.placed .recv).slot low

variable [DecidableEq ι]

theorem put_process : (s.put p own).process q = if q = p then own else s.process q := by
  by_cases same : q = p
  · subst q
    simp [System.put]
  · simp [System.put, same]

theorem Sound.role_put (sound : Sound who s items) (own : Process) (mine : p = who own.op)
    (active : ((s.put p own).process q).pc ≠ .idle) : q = who ((s.put p own).process q).op := by
  rw [put_process] at active ⊢
  split at active
  next same => rw [if_pos same, same, mine]
  next other =>
    rw [if_neg other]
    exact sound.role q active

/-- Another process that is in a call is at the other end. -/
theorem Sound.known_put (sound : Sound who s items) (own : Process) (mine : p = who own.op)
    (others : m.position own.op.other = s.mailbox.position own.op.other) (known : Local m own)
    (q : ι) : Local m ((s.put p own).process q) := by
  rw [put_process]
  split
  · exact known
  next other =>
    by_cases idle : (s.process q).pc = .idle
    · constructor
      · intro low
        rw [idle] at low
        exact low.elim
      · intro reduce
        rw [idle] at reduce
        cases reduce
      · exact fun active => absurd idle active
    · have here := sound.role q idle
      have there : (s.process q).op = own.op.other := by
        apply other_of_ne
        intro same
        exact other (by rw [here, same, mine])
      have old := sound.known q
      constructor
      · rw [there, others, ← there]
        exact old.low
      · rw [there, others, ← there]
        exact old.loaded
      · exact old.index

/-- A step of one process that leaves the buffer and the history alone. -/
theorem Sound.change (distinct : who .send ≠ who .recv) (sound : Sound who s items)
    (own : Process) (mine : p = who own.op) (buffer : m.buffer = s.mailbox.buffer)
    (others : m.position own.op.other = s.mailbox.position own.op.other)
    (placed : Placed m s.history own.op) (known : Local m own)
    (positive : ∀ op, 0 ≤ m.sem op)
    (count : m.sem own.op + own.pc.claimed =
      s.mailbox.sem own.op + (s.process p).pc.claimed)
    (count' : m.sem own.op.other + own.pc.owed =
      s.mailbox.sem own.op.other + (s.process p).pc.owed) (masked : Option ι) :
    Sound who { s.put p own with mailbox := m, masked := masked } items := by
  have apart : who own.op.other ≠ p := mine ▸ who_other distinct
  constructor
  · exact fun q => sound.role_put own mine
  · exact sound.known_put own mine others known
  · intro op
    by_cases same : op = own.op
    · rw [same]
      exact placed
    · have old := sound.placed op
      rw [other_of_ne same] at old ⊢
      exact ⟨others ▸ old.low, others ▸ old.high, others ▸ old.same⟩
  · change Ring.Holds 32 (fun k : Nat => m.buffer k) _ _
    rw [buffer]
    exact sound.ring
  · exact sound.flow
  · exact positive
  · intro op
    change m.sem op + ((s.put p own).process _).pc.claimed +
      ((s.put p own).process _).pc.owed = _
    by_cases same : op = own.op
    · have old := sound.count own.op
      rw [same, put_process, put_process, if_pos mine.symm, if_neg apart]
      rw [← mine] at old
      omega
    · have old := sound.count own.op.other
      rw [other_of_ne same, put_process, put_process, other_other, if_pos mine.symm, if_neg apart]
      rw [other_other, ← mine] at old
      omega
  · exact sound.full
  · exact sound.kept
  · exact sound.inside

/-- A store puts one more item into the ring. -/
theorem Contents.store (contents : Contents s items) (room : items.length < 32)
    (low : s.mailbox.wp < bufferSize) :
    Contents (store p s) (items ++ [(s.process p).msg (s.process p).i.toNat]) := by
  have slot := contents.wp low
  have free : ¬Full s.history s.mailbox.wp := by
    rw [slot, contents.full _ (Nat.mod_lt _ (by decide))]
    exact Ring.free_slot room
  constructor
  · intro op
    cases op with
    | send =>
      refine (contents.placed .send).advance low rfl ?_
      rw [moved, moved, Mbox.store, stored, List.length_append]
      rfl
    | recv =>
      have old := contents.placed .recv
      exact ⟨old.low, old.high, old.same⟩
  · have pushed := contents.ring.push (a := (s.process p).msg (s.process p).i.toNat) room
    have same : (fun k : Nat => (Mbox.store p s).mailbox.buffer k) =
        Function.update (fun k : Nat => s.mailbox.buffer k)
          (((fetched s.history).length + items.length) % 32)
          ((s.process p).msg (s.process p).i.toNat) := by
      funext k
      change Function.update s.mailbox.buffer s.mailbox.wp _ (k : Int) = _
      rw [slot]
      by_cases here : k = ((fetched s.history).length + items.length) % 32
      · rw [here, Function.update_self, Function.update_self]
      · rw [Function.update_of_ne here, Function.update_of_ne (by exact_mod_cast here)]
    rw [same]
    exact pushed
  · rw [Mbox.store, stored, fetched, contents.flow, List.append_assoc]
  · intro k small
    have old := contents.full k small
    rw [Mbox.store, Full, fetched, List.length_append, List.length_singleton, Ring.taken_push, slot,
      old, or_comm]
    exact or_congr Iff.rfl (by norm_cast)
  · exact ⟨free, contents.kept⟩
  · exact ⟨⟨(contents.placed .send).low, low⟩, contents.inside⟩

/-- A fetch takes the first item out. -/
theorem Contents.fetch (contents : Contents s (a :: items)) (low : s.mailbox.rp < bufferSize) :
    Contents (fetch p s) items := by
  have slot := contents.rp low
  have byte : s.mailbox.buffer s.mailbox.rp = a := by
    rw [slot]
    exact contents.ring.front
  have room := contents.ring.room
  rw [List.length_cons] at room
  constructor
  · intro op
    cases op with
    | send =>
      have old := contents.placed .send
      exact ⟨old.low, old.high, old.same⟩
    | recv =>
      refine (contents.placed .recv).advance low rfl ?_
      rw [moved, moved, Mbox.fetch, fetched, List.length_append]
      rfl
  · have popped := contents.ring.pop
    rw [Mbox.fetch, fetched, List.length_append]
    exact popped
  · rw [Mbox.fetch, stored, fetched, contents.flow, byte, List.append_assoc]
    rfl
  · intro k small
    have old := contents.full k small
    have first : ¬Ring.Taken 32 ((fetched s.history).length + 1) items.length
        ((fetched s.history).length % 32) := Ring.first_slot (by omega)
    rw [List.length_cons, Ring.taken_pop] at old
    rw [Mbox.fetch, Full, fetched, List.length_append, List.length_singleton, slot, old]
    constructor
    · rintro ⟨other, same | taken⟩
      · exact absurd (congrArg Nat.cast same) other
      · exact taken
    · intro taken
      refine ⟨fun same => ?_, .inr taken⟩
      rw [Int.natCast_inj.mp same] at first
      exact first taken
  · exact contents.kept
  · exact ⟨⟨(contents.placed .recv).low, low⟩, contents.inside⟩

theorem Sound.store (distinct : who .send ≠ who .recv) (sound : Sound who s items)
    (transfers : (s.process p).pc = .transfer) (op : (s.process p).op = .send) :
    ∃ items, Sound who (store p s) items := by
  have mine : p = who .send := op ▸ sound.pc_role transfers (by decide)
  have apart : who .recv ≠ p := mine ▸ distinct.symm
  have room : items.length < 32 := by
    have available := sound.available mine transfers
    simp only [free, bufferSize] at available
    omega
  have low : s.mailbox.wp < bufferSize := by
    have low := (sound.known p).low (by rw [transfers]; trivial)
    rwa [op] at low
  have after : Contents (Mbox.store p s) _ := sound.contents.store room low
  refine ⟨items ++ [(s.process p).msg (s.process p).i.toNat], ?_, ?_, after.placed, after.ring,
    after.flow, ?_, ?_, after.full, after.kept, after.inside⟩
  · exact fun q => sound.role_put { s.process p with pc := .enable } (by rw [op]; exact mine)
  · have index := (sound.known p).index (by rw [transfers]; decide)
    refine sound.known_put { s.process p with pc := .enable } (by rw [op]; exact mine) ?_
      ⟨fun low => low.elim, nofun, fun _ => index⟩
    rw [op]
    rfl
  · intro op'
    cases op' with
    | send => exact sound.positive .send
    | recv => exact sound.positive .recv
  · intro op'
    have claimed : (s.process (who .send)).pc.claimed = 1 := by rw [← mine, transfers]; rfl
    have owed : (s.process (who .send)).pc.owed = 0 := by rw [← mine, transfers]; rfl
    have sender : (Mbox.store p s).process (who .send) = { s.process p with pc := .enable } := by
      rw [← mine]
      exact put_process.trans (if_pos rfl)
    have receiver : (Mbox.store p s).process (who .recv) = s.process (who .recv) :=
      put_process.trans (if_neg apart)
    cases op' with
    | send =>
      have old := sound.count .send
      simp only [Op.other, Mbox.free, List.length_append, List.length_singleton] at old ⊢
      rw [sender, receiver]
      change s.mailbox.wsem + 0 + _ = _
      change s.mailbox.wsem + _ + _ = _ at old
      push_cast
      omega
    | recv =>
      have old := sound.count .recv
      simp only [Op.other, Mbox.free, List.length_append, List.length_singleton] at old ⊢
      rw [sender, receiver]
      change s.mailbox.rsem + _ + 1 = _
      change s.mailbox.rsem + _ + _ = _ at old
      push_cast
      omega

theorem Sound.fetch (distinct : who .send ≠ who .recv) (sound : Sound who s items)
    (transfers : (s.process p).pc = .transfer) (op : (s.process p).op = .recv) :
    ∃ items, Sound who (fetch p s) items := by
  have mine : p = who .recv := op ▸ sound.pc_role transfers (by decide)
  have apart : who .send ≠ p := mine ▸ distinct
  have available := sound.available mine transfers
  have low : s.mailbox.rp < bufferSize := by
    have low := (sound.known p).low (by rw [transfers]; trivial)
    rwa [op] at low
  cases items with
  | nil => exact absurd available (by decide)
  | cons a items =>
    have after : Contents (Mbox.fetch p s) items := sound.contents.fetch low
    refine ⟨items, ?_, ?_, after.placed, after.ring, after.flow, ?_, ?_, after.full, after.kept,
      after.inside⟩
    · exact fun q => sound.role_put { s.process p with
        msg := Function.update (s.process p).msg (s.process p).i.toNat
          (s.mailbox.buffer s.mailbox.rp)
        pc := .enable } (by rw [op]; exact mine)
    · have index := (sound.known p).index (by rw [transfers]; decide)
      refine sound.known_put { s.process p with
        msg := Function.update (s.process p).msg (s.process p).i.toNat
          (s.mailbox.buffer s.mailbox.rp)
        pc := .enable } (by rw [op]; exact mine) ?_
        ⟨fun low => low.elim, nofun, fun _ => index⟩
      rw [op]
      rfl
    · intro op'
      cases op' with
      | send => exact sound.positive .send
      | recv => exact sound.positive .recv
    · intro op'
      have claimed : (s.process (who .recv)).pc.claimed = 1 := by rw [← mine, transfers]; rfl
      have owed : (s.process (who .recv)).pc.owed = 0 := by rw [← mine, transfers]; rfl
      have receiver : ((Mbox.fetch p s).process (who .recv)).pc = .enable := by
        rw [← mine, Mbox.fetch]
        exact congrArg Process.pc (put_process.trans (if_pos rfl))
      have sender : (Mbox.fetch p s).process (who .send) = s.process (who .send) :=
        put_process.trans (if_neg apart)
      cases op' with
      | send =>
        have old := sound.count .send
        simp only [Op.other, Mbox.free, List.length_cons] at old ⊢
        rw [sender, receiver]
        change s.mailbox.wsem + _ + 1 = _
        change s.mailbox.wsem + _ + _ = _ at old
        push_cast at old
        omega
      | recv =>
        have old := sound.count .recv
        simp only [Op.other, Mbox.free, List.length_cons] at old ⊢
        rw [sender, receiver]
        change s.mailbox.rsem + 0 + _ = _
        change s.mailbox.rsem + _ + _ = _ at old
        push_cast at old
        omega

theorem setPosition_sem {v : Int} {op' : Op} : (m.setPosition op v).sem op' = m.sem op' := by
  cases op <;> cases op' <;> rfl

theorem setPosition_buffer {v : Int} : (m.setPosition op v).buffer = m.buffer := by
  cases op <;> rfl

theorem setPosition_self {v : Int} : (m.setPosition op v).position op = v := by
  cases op <;> rfl

theorem setPosition_other {v : Int} :
    (m.setPosition op v).position op.other = m.position op.other := by
  cases op <;> rfl

theorem setSem_position {v : Int} {op' : Op} : (m.setSem op v).position op' = m.position op' := by
  cases op <;> cases op' <;> rfl

theorem setSem_buffer {v : Int} : (m.setSem op v).buffer = m.buffer := by
  cases op <;> rfl

theorem setSem_self {v : Int} : (m.setSem op v).sem op = v := by
  cases op <;> rfl

theorem setSem_other {v : Int} : (m.setSem op v).sem op.other = m.sem op.other := by
  cases op <;> rfl

/-- Local steps. -/
theorem Sound.move (distinct : who .send ≠ who .recv) (sound : Sound who s items)
    (own : Process) (active : (s.process p).pc ≠ .idle) (same : own.op = (s.process p).op)
    (known : Local s.mailbox own) (claimed : own.pc.claimed = (s.process p).pc.claimed)
    (owed : own.pc.owed = (s.process p).pc.owed) (masked : Option ι) :
    Sound who { s.put p own with masked := masked } items := by
  have mine : p = who own.op := same ▸ sound.role p active
  exact sound.change distinct own mine rfl rfl (sound.placed _) known sound.positive
    (by rw [claimed]) (by rw [owed]) masked

/-- A wait or a signal. -/
theorem Sound.signal (distinct : who .send ≠ who .recv) (sound : Sound who s items)
    (op : Op) (v : Int) (own : Process) (active : (s.process p).pc ≠ .idle) (same : own.op = (s.process p).op)
    (known : Local s.mailbox own) (positive : 0 ≤ v)
    (count : (s.mailbox.setSem op v).sem own.op + own.pc.claimed =
      s.mailbox.sem own.op + (s.process p).pc.claimed)
    (count' : (s.mailbox.setSem op v).sem own.op.other + own.pc.owed =
      s.mailbox.sem own.op.other + (s.process p).pc.owed) :
    Sound who { s.put p own with mailbox := s.mailbox.setSem op v } items := by
  have mine : p = who own.op := same ▸ sound.role p active
  refine sound.change distinct own mine setSem_buffer setSem_position ?_ ?_ ?_ count count' s.masked
  · have old := sound.placed own.op
    exact ⟨by rw [setSem_position]; exact old.low, by rw [setSem_position]; exact old.high,
      by rw [setSem_position]; exact old.same⟩
  · exact ⟨by rw [setSem_position]; exact known.low, by rw [setSem_position]; exact known.loaded,
      known.index⟩
  · intro op'
    by_cases here : op' = op
    · rw [here, setSem_self]
      exact positive
    · rw [other_of_ne here, setSem_other]
      exact sound.positive _

/-- One step of the process in its loop. -/
theorem Sound.advance (distinct : who .send ≠ who .recv) (sound : Sound who s items)
    (step : advance p s = some t) : ∃ items, Sound who t items := by
  have old := sound.known p
  cases pc : (s.process p).pc with
  | idle =>
    simp only [Mbox.advance, pc] at step
    cases step
  | test =>
    simp only [Mbox.advance, pc] at step
    obtain rfl := Option.some.inj step
    have index := old.index (by rw [pc]; decide)
    let own := { s.process p with
      pc := if (s.process p).i < (s.process p).msgLength then Pc.load else .idle }
    have known : Local s.mailbox own := by
      refine ⟨fun low => ?_, fun here => ?_, fun _ => index⟩
      · change (ite _ _ _ : Pc).Low at low
        split at low <;> exact low.elim
      · change (ite _ _ _ : Pc) = .reduce at here
        split at here <;> cases here
    refine ⟨items, sound.move distinct own (by rw [pc]; decide) rfl known ?_ ?_ s.masked⟩
    · change (ite _ _ _ : Pc).claimed = _
      rw [pc]
      split <;> rfl
    · change (ite _ _ _ : Pc).owed = _
      rw [pc]
      split <;> rfl
  | load =>
    simp only [Mbox.advance, pc] at step
    obtain rfl := Option.some.inj step
    have index := old.index (by rw [pc]; decide)
    let own := { s.process p with
      loaded := s.mailbox.position (s.process p).op
      pc := .reduce }
    have known : Local s.mailbox own := ⟨fun low => low.elim, fun _ => rfl, fun _ => index⟩
    exact ⟨items, sound.move distinct own (by rw [pc]; decide) rfl known (by rw [pc]; rfl)
      (by rw [pc]; rfl) s.masked⟩
  | reduce =>
    simp only [Mbox.advance, pc] at step
    obtain rfl := Option.some.inj step
    have index := old.index (by rw [pc]; decide)
    have mine : p = who (s.process p).op := sound.pc_role pc (by decide)
    have place := sound.placed (s.process p).op
    have rest : (s.process p).loaded.tmod bufferSize =
        s.mailbox.position (s.process p).op % bufferSize := by
      rw [old.loaded pc]
      exact Int.tmod_eq_emod_of_nonneg place.low
    have low : s.mailbox.position (s.process p).op % bufferSize < bufferSize :=
      Int.emod_lt_of_pos _ (by decide)
    have nonneg : 0 ≤ s.mailbox.position (s.process p).op % bufferSize :=
      Int.emod_nonneg _ (by decide)
    rw [rest]
    refine ⟨items, sound.change distinct { s.process p with pc := .down } mine setPosition_buffer
      setPosition_other ?_ ?_ ?_ ?_ ?_ s.masked⟩
    · refine ⟨?_, ?_, ?_⟩
      · rw [setPosition_self]
        exact nonneg
      · rw [setPosition_self]
        exact Int.le_of_lt low
      · rw [setPosition_self, Int.emod_emod_of_dvd _ (Int.dvd_refl _)]
        exact place.same
    · refine ⟨fun _ => ?_, nofun, fun _ => index⟩
      rw [setPosition_self]
      exact low
    · intro op'
      rw [setPosition_sem]
      exact sound.positive op'
    · rw [setPosition_sem, pc]
      rfl
    · rw [setPosition_sem, pc]
      rfl
  | down =>
    simp only [Mbox.advance, pc] at step
    split at step
    next waiting =>
      obtain rfl := Option.some.inj step
      have index := old.index (by rw [pc]; decide)
      have low := old.low (by rw [pc]; trivial)
      have known : Local s.mailbox { s.process p with pc := .disable } :=
        ⟨fun _ => low, nofun, fun _ => index⟩
      refine ⟨items, sound.signal distinct (s.process p).op
        (s.mailbox.sem (s.process p).op - 1) { s.process p with pc := .disable } (by rw [pc]; decide)
        rfl known (by omega) ?_ ?_⟩
      · rw [setSem_self, pc]
        simp only [Pc.claimed]
        omega
      · rw [setSem_other, pc]
        rfl
    · cases step
  | disable =>
    simp only [Mbox.advance, pc] at step
    obtain rfl := Option.some.inj step
    have index := old.index (by rw [pc]; decide)
    have low := old.low (by rw [pc]; trivial)
    have known : Local s.mailbox { s.process p with pc := .transfer } :=
      ⟨fun _ => low, nofun, fun _ => index⟩
    exact ⟨items, sound.move distinct { s.process p with pc := .transfer } (by rw [pc]; decide) rfl
      known (by rw [pc]; rfl) (by rw [pc]; rfl) (some p)⟩
  | transfer =>
    simp only [Mbox.advance, pc] at step
    split at step
    next op =>
      obtain rfl := Option.some.inj step
      exact sound.store distinct pc op
    next op =>
      obtain rfl := Option.some.inj step
      exact sound.fetch distinct pc op
  | enable =>
    simp only [Mbox.advance, pc] at step
    obtain rfl := Option.some.inj step
    have index := old.index (by rw [pc]; decide)
    have known : Local s.mailbox { s.process p with pc := .up } :=
      ⟨fun low => low.elim, nofun, fun _ => index⟩
    exact ⟨items, sound.move distinct { s.process p with pc := .up } (by rw [pc]; decide) rfl
      known (by rw [pc]; rfl) (by rw [pc]; rfl) none⟩
  | up =>
    simp only [Mbox.advance, pc] at step
    obtain rfl := Option.some.inj step
    have index := old.index (by rw [pc]; decide)
    have positive := sound.positive (s.process p).op.other
    have known : Local s.mailbox { s.process p with pc := .next } :=
      ⟨fun low => low.elim, nofun, fun _ => index⟩
    refine ⟨items, sound.signal distinct (s.process p).op.other
      (s.mailbox.sem (s.process p).op.other + 1) { s.process p with pc := .next }
      (by rw [pc]; decide) rfl known (by omega) ?_ ?_⟩
    · have self : (s.mailbox.setSem (s.process p).op.other
          (s.mailbox.sem (s.process p).op.other + 1)).sem (s.process p).op =
          s.mailbox.sem (s.process p).op := by
        have other := @setSem_other (s.process p).op.other s.mailbox
          (s.mailbox.sem (s.process p).op.other + 1)
        rwa [other_other] at other
      rw [self, pc]
      rfl
    · rw [setSem_self, pc]
      simp only [Pc.owed]
      omega
  | next =>
    simp only [Mbox.advance, pc] at step
    obtain rfl := Option.some.inj step
    have index := old.index (by rw [pc]; decide)
    let own := { s.process p with
      i := (s.process p).i + 1
      pc := .test }
    have later : 0 ≤ own.i := Int.add_nonneg index (by decide)
    have known : Local s.mailbox own := ⟨fun low => low.elim, nofun, fun _ => later⟩
    exact ⟨items, sound.move distinct own (by rw [pc]; decide) rfl known (by rw [pc]; rfl)
      (by rw [pc]; rfl) s.masked⟩

/-- The bytes of the current message that have not been stored yet. -/
def pending (own : Process) : List Byte :=
  match own.pc with
  | .idle => []
  | .enable | .up | .next => ((List.range own.msgLength.toNat).drop (own.i.toNat + 1)).map own.msg
  | _ => ((List.range own.msgLength.toNat).drop own.i.toNat).map own.msg

/-- Inside the loop there is a byte to transfer. -/
def Pc.Body : Pc → Prop
  | .idle | .test => False
  | _ => True

/-- The test of the loop has held. -/
def Looping (own : Process) : Prop := own.pc.Body → own.i < own.msgLength

/-- What a step does to the process, where it is no transfer. -/
structure Quiet (old own : Process) : Prop where
  pending : pending own = pending old
  looping : Looping own

/-- A step outside the transfer, or one of the two transfers. -/
theorem advance_cases (step : advance p s = some t) (index : (s.process p).pc ≠ .idle →
    0 ≤ (s.process p).i) (looping : Looping (s.process p)) :
    (∃ own, t.process = Function.update s.process p own ∧ t.history = s.history ∧
      Quiet (s.process p) own) ∨
    ((s.process p).pc = .transfer ∧ (s.process p).op = .send ∧ t = store p s) ∨
    ((s.process p).pc = .transfer ∧ (s.process p).op = .recv ∧ t = fetch p s) := by
  have index (active : (s.process p).pc ≠ .idle) := Int.toNat_of_nonneg (index active)
  cases pc : (s.process p).pc with
  | idle =>
    simp only [advance, pc] at step
    cases step
  | test =>
    simp only [advance, pc] at step
    obtain rfl := Option.some.inj step
    refine .inl ⟨_, rfl, rfl, ?_⟩
    by_cases more : (s.process p).i < (s.process p).msgLength
    · rw [if_pos more]
      exact ⟨by simp only [pending, pc], fun _ => more⟩
    · rw [if_neg more]
      have here := index (by rw [pc]; decide)
      have done : (List.range (s.process p).msgLength.toNat).drop (s.process p).i.toNat = [] := by
        apply List.drop_eq_nil_of_le
        rw [List.length_range]
        omega
      exact ⟨by simp only [pending, pc, done, List.map_nil], fun body => body.elim⟩
  | load | reduce | disable | enable =>
    simp only [advance, pc] at step
    obtain rfl := Option.some.inj step
    refine .inl ⟨_, rfl, rfl, by simp only [pending, pc], fun _ => ?_⟩
    exact looping (by rw [pc]; trivial)
  | down =>
    simp only [advance, pc] at step
    split at step
    · obtain rfl := Option.some.inj step
      refine .inl ⟨_, rfl, rfl, by simp only [pending, pc], fun _ => ?_⟩
      exact looping (by rw [pc]; trivial)
    · cases step
  | transfer =>
    simp only [advance, pc] at step
    split at step
    next op => exact .inr (.inl ⟨rfl, op, (Option.some.inj step).symm⟩)
    next op => exact .inr (.inr ⟨rfl, op, (Option.some.inj step).symm⟩)
  | up =>
    simp only [advance, pc] at step
    obtain rfl := Option.some.inj step
    refine .inl ⟨_, rfl, rfl, by simp only [pending, pc], fun _ => ?_⟩
    exact looping (by rw [pc]; trivial)
  | next =>
    simp only [advance, pc] at step
    obtain rfl := Option.some.inj step
    have here := index (by rw [pc]; decide)
    have after : ((s.process p).i + 1).toNat = (s.process p).i.toNat + 1 := by omega
    exact .inl ⟨_, rfl, rfl, by simp only [pending, pc, after], fun body => body.elim⟩

/-- Before the transfer the next byte is the one at `i`. -/
theorem pending_transfer (pc : own.pc = .transfer) (index : 0 ≤ own.i)
    (inside : own.i < own.msgLength) :
    pending own = own.msg own.i.toNat :: pending { own with pc := .enable } := by
  have here : own.i.toNat < (List.range own.msgLength.toNat).length := by
    rw [List.length_range]
    omega
  simp only [pending, pc]
  rw [List.drop_eq_getElem_cons here, List.map_cons, List.getElem_range]

/-- What holds in every state of a run. -/
structure Flowing (who : Op → ι) (s : System ι) : Prop where
  sound : ∃ items, Sound who s items
  looping : ∀ p, Looping (s.process p)
  passed : called s.history = stored s.history ++ pending (s.process (who .send))

theorem looping_put (own : Process) (old : ∀ q, Looping (s.process q)) (new : Looping own)
    (same : t.process = Function.update s.process p own) (q : ι) : Looping (t.process q) := by
  rw [same]
  by_cases here : q = p
  · rw [here, Function.update_self]
    exact new
  · rw [Function.update_of_ne here]
    exact old q

theorem Flowing.advance (distinct : who .send ≠ who .recv) (flowing : Flowing who s)
    (step : advance p s = some t) : Flowing who t := by
  obtain ⟨items, sound⟩ := flowing.sound
  have passed := flowing.passed
  have index := (sound.known p).index
  refine ⟨sound.advance distinct step, ?_, ?_⟩
  · obtain ⟨own, process, _, quiet⟩ | ⟨pc, _, rfl⟩ | ⟨pc, _, rfl⟩ :=
      advance_cases step index (flowing.looping p)
    · exact looping_put own flowing.looping quiet.looping process
    · have inside := flowing.looping p (by rw [pc]; trivial)
      exact looping_put { s.process p with pc := .enable } flowing.looping
        (fun _ => inside) rfl
    · have inside := flowing.looping p (by rw [pc]; trivial)
      refine looping_put _ flowing.looping ?_ (by rw [fetch, System.put])
      exact fun _ => inside
  · obtain ⟨own, process, history, quiet⟩ | ⟨pc, op, rfl⟩ | ⟨pc, op, rfl⟩ :=
      advance_cases step index (flowing.looping p)
    · rw [history, process, passed]
      by_cases here : who .send = p
      · rw [here, Function.update_self, quiet.pending]
      · rw [Function.update_of_ne here]
    · have mine : p = who .send := op ▸ sound.pc_role pc (by decide)
      have inside := flowing.looping p (by rw [pc]; trivial)
      have next := pending_transfer pc (index (by rw [pc]; decide)) inside
      have after : (store p s).process (who .send) = { s.process p with pc := .enable } := by
        rw [← mine]
        exact put_process.trans (if_pos rfl)
      rw [after]
      rw [← mine, next] at passed
      rw [store, called, stored, passed, List.append_assoc]
      rfl
    · have mine : p = who .recv := op ▸ sound.pc_role pc (by decide)
      have apart : who .send ≠ p := mine ▸ distinct
      have after : (fetch p s).process (who .send) = s.process (who .send) :=
        put_process.trans (if_neg apart)
      rw [after]
      exact passed

/-- A call by one of the two processes. -/
theorem Sound.call (distinct : who .send ≠ who .recv) (sound : Sound who s items)
    (own : Process) (mine : p = who own.op) (idle : (s.process p).pc = .idle)
    (begins : own.pc = .test) (first : own.i = 0) : Sound who (s.put p own) items := by
  refine sound.change distinct own mine rfl rfl (sound.placed _) ⟨?_, ?_, ?_⟩ sound.positive
    ?_ ?_ s.masked
  · intro low
    rw [begins] at low
    exact low.elim
  · intro reduce
    rw [begins] at reduce
    cases reduce
  · exact fun _ => Int.le_of_eq first.symm
  · rw [begins, idle]
    rfl
  · rw [begins, idle]
    rfl

omit [DecidableEq ι] in
/-- The record of a call changes nothing but what has been passed. -/
theorem Sound.record (sound : Sound who s items) (message : List Byte) :
    Sound who { s with history := .send p message :: s.history } items where
  role := sound.role
  known := sound.known
  placed op := by
    have old := sound.placed op
    cases op <;> exact ⟨old.low, old.high, old.same⟩
  ring := sound.ring
  flow := sound.flow
  positive := sound.positive
  count := sound.count
  full := sound.full
  kept := sound.kept
  inside := sound.inside

/-- `who .send` sends and `who .recv` receives. -/
def Only (who : Op → ι) (_ : System ι) (event : Event ι) : Prop :=
  match event with
  | .mboxSend p _ _ => p = who .send
  | .mboxRecv p _ _ => p = who .recv
  | .step _ => True

theorem Flowing.step {event : Event ι} (distinct : who .send ≠ who .recv)
    (flowing : Flowing who s) (only : Only who s event) (step : Step s event t) :
    Flowing who t := by
  obtain ⟨items, sound⟩ := flowing.sound
  have passed := flowing.passed
  unfold Step execute at step
  split at step
  · cases event with
    | mboxSend p msg msgLength =>
      replace only : p = who .send := only
      simp only [] at step
      split at step
      next idle =>
        obtain rfl := Option.some.inj step
        have called := sound.call distinct ⟨.send, .test, msg, msgLength, 0, 0⟩ only idle rfl rfl
        refine ⟨⟨items, called.record _⟩, ?_, ?_⟩
        · exact looping_put ⟨.send, .test, msg, msgLength, 0, 0⟩ flowing.looping
            (fun body => body.elim) rfl
        · have after : (s.put p ⟨.send, .test, msg, msgLength, 0, 0⟩).process (who .send) =
              ⟨.send, .test, msg, msgLength, 0, 0⟩ := put_process.trans (if_pos only.symm)
          rw [← only, pending, idle, List.append_nil] at passed
          change Mbox.called s.history ++ bytes msg msgLength = stored s.history ++ _
          rw [after, passed]
          rfl
      · cases step
    | mboxRecv p msg msgLength =>
      replace only : p = who .recv := only
      simp only [] at step
      split at step
      next idle =>
        obtain rfl := Option.some.inj step
        have called := sound.call distinct ⟨.recv, .test, msg, msgLength, 0, 0⟩ only idle rfl rfl
        refine ⟨⟨items, called⟩, ?_, ?_⟩
        · exact looping_put ⟨.recv, .test, msg, msgLength, 0, 0⟩ flowing.looping
            (fun body => body.elim) rfl
        · have apart : who .send ≠ p := only ▸ distinct
          rw [put_process, if_neg apart]
          exact passed
      · cases step
    | step p => exact flowing.advance distinct step
  · cases step

omit [DecidableEq ι] in
theorem contents_start {i refCount : Int} {name : List Byte} :
    Contents (start i name refCount m : System ι) [] where
  placed op := by cases op <;> exact ⟨Int.le_refl 0, (by decide : (0 : Int) ≤ 32), rfl⟩
  ring := Ring.Holds.nothing
  flow := rfl
  full _ _ := ⟨False.elim, fun ⟨_, inside, _⟩ => absurd inside (Nat.not_lt_zero _)⟩
  kept := trivial
  inside := trivial

omit [DecidableEq ι] in
theorem start_positive {i refCount : Int} {name : List Byte} (op : Op) :
    0 ≤ (start i name refCount m : System ι).mailbox.sem op := by
  cases op
  · exact (by decide : (0 : Int) ≤ 32)
  · exact Int.le_refl 0

omit [DecidableEq ι] in
theorem flowing_start {i refCount : Int} {name : List Byte} : Flowing who (start i name refCount m) := by
  have empty : Contents (start i name refCount m : System ι) [] := contents_start
  refine ⟨⟨[], ?_, ?_, empty.placed, empty.ring, empty.flow, start_positive, ?_, empty.full,
    empty.kept, empty.inside⟩, fun _ body => body.elim, rfl⟩
  · exact fun _ active => absurd rfl active
  · exact fun _ => ⟨fun low => low.elim, nofun, fun active => absurd rfl active⟩
  · intro op
    cases op <;> rfl

/-- The mailbox is a queue of at most 32 bytes. -/
structure Fifo (s : System ι) : Prop where
  order : fetched s.history <+: called s.history
  bounded : (stored s.history).length ≤ (fetched s.history).length + 32
  inside : Inside s.history
  kept : Kept s.history

omit [DecidableEq ι] in
theorem Flowing.fifo (flowing : Flowing who s) : Fifo s := by
  obtain ⟨items, sound⟩ := flowing.sound
  constructor
  · rw [flowing.passed, sound.flow, List.append_assoc]
    exact List.prefix_append _ _
  · have room := sound.ring.room
    rw [sound.flow, List.length_append]
    omega
  · exact sound.inside
  · exact sound.kept

/-- With one sender and one receiver every mailbox is a queue, in every interleaving. -/
theorem reachable_fifo {i refCount : Int} {name : List Byte} (distinct : who .send ≠ who .recv)
    (reach : Reachable Step (Only who) (start i name refCount m) s) : Fifo s := by
  refine (reach.invariant (Flowing who) flowing_start ?_).fifo
  intro s event t flowing only step
  exact flowing.step distinct only step

/-- Two messages, each of which is fetched while the sender goes on. The receiver comes first
and waits. -/
def inTurns : List (Event Bool) :=
  .mboxRecv true (fun _ => 0) 2 :: List.replicate 3 (.step true) ++
    .mboxSend false (fun _ => 0x41) 1 :: List.replicate 8 (.step false) ++
    List.replicate 4 (.step true) ++ List.replicate 2 (.step false) ++
    .mboxSend false (fun _ => 0x42) 1 :: List.replicate 3 (.step false) ++
    List.replicate 5 (.step true) ++ List.replicate 7 (.step false) ++
    List.replicate 7 (.step true)

def ends (op : Op) : Bool := op = .recv

/-- The storage before `mbox_init`. -/
def zeros : Mailbox := ⟨0, 0, fun _ => 0, 0, 0, 0, fun _ => 0, 0, 0⟩

theorem reachable_fifo_turns : ∃ s, Reachable Step (Only ends) (start 3 [0x61] 2 zeros) s ∧
    Fifo s ∧ fetched s.history = [0x41, 0x42] := by
  obtain ⟨s, run, both⟩ : ∃ s, runAll inTurns (start 3 [0x61] 2 zeros) = some s ∧
      fetched s.history = [0x41, 0x42] := ⟨_, rfl, rfl⟩
  have reach : Reachable Step (Only ends) (start 3 [0x61] 2 zeros) s :=
    runAll_reachable inTurns .start (by simp [inTurns, Only, ends]) run
  exact ⟨s, reach, reachable_fifo (by decide) reach, both⟩

end Tina.Mbox
