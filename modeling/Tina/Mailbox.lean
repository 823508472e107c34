import Tina.Buffer
import Tina.Transition

/-! `libs/mailbox.c`: a mailbox and the processes that send to it and receive from it, in
single steps. A semaphore is its count, and its two operations are one step each. -/
namespace Tina.Mbox

open ByteBuffer Transition

def bufferSize : Int := 32

structure Mailbox where
  boxid : Int
  refCount : Int
  name : Buffer
  volume : Int
  wp : Int
  rp : Int
  buffer : Int → Byte
  rsem : Int
  wsem : Int

/-- The name `$$$` of a box that nobody uses. -/
def unused : List Byte := [0x24, 0x24, 0x24]

def oneInit (i : Int) (m : Mailbox) : Mailbox where
  boxid := i
  refCount := 0
  name := strcpy 0 unused m.name
  volume := bufferSize
  wp := 0
  rp := 0
  buffer := Function.update m.buffer 0 0xff
  rsem := 0
  wsem := bufferSize

def mboxCreate (i : Int) (name : List Byte) (m : Mailbox) : Mailbox :=
  let m := oneInit i m
  { m with name := strcpy 0 name m.name, refCount := m.refCount + 1 }

/-- `mbox_send` and `mbox_recv` differ in what they use and in which way the byte goes. -/
inductive Op where
  | send
  | recv
  deriving DecidableEq

def Op.other : Op → Op
  | .send => .recv
  | .recv => .send

namespace Mailbox

/-- `wp` or `rp`. -/
def position (op : Op) (m : Mailbox) : Int :=
  match op with
  | .send => m.wp
  | .recv => m.rp

def setPosition (op : Op) (v : Int) (m : Mailbox) : Mailbox :=
  match op with
  | .send => { m with wp := v }
  | .recv => { m with rp := v }

/-- The semaphore that the function waits for. -/
def sem (op : Op) (m : Mailbox) : Int :=
  match op with
  | .send => m.wsem
  | .recv => m.rsem

def setSem (op : Op) (v : Int) (m : Mailbox) : Mailbox :=
  match op with
  | .send => { m with wsem := v }
  | .recv => { m with rsem := v }

end Mailbox

/-- Where a process is in the loop. `position %= BUFFER_SIZE` is a load and a store; what
happens with interrupts disabled is one step. -/
inductive Pc where
  | idle
  | test
  | load
  | reduce
  | down
  | disable
  | transfer
  | enable
  | up
  | next
  deriving DecidableEq

/-- The arguments and the locals of a call. -/
structure Process where
  op : Op
  pc : Pc
  msg : Buffer
  msgLength : Int
  i : Int
  loaded : Int

/-- Observable actions, for stating properties of runs. -/
inductive Act (ι : Type) where
  | send (p : ι) (bytes : List Byte)
  | store (p : ι) (index : Int) (byte : Byte)
  | fetch (p : ι) (index : Int) (byte : Byte)

/-- `masked` is the process that has disabled interrupts. `history` is newest first, and no
step reads it. -/
structure System (ι : Type) where
  mailbox : Mailbox
  process : ι → Process
  masked : Option ι
  history : List (Act ι)

variable {ι : Type} [DecidableEq ι]

def System.put (p : ι) (own : Process) (s : System ι) : System ι :=
  { s with process := Function.update s.process p own }

/-- `mailbox->buffer[mailbox->wp++] = _msg[i]`. -/
def store (p : ι) (s : System ι) : System ι :=
  let own := s.process p
  let m := s.mailbox
  let byte := own.msg own.i.toNat
  { s.put p { own with pc := .enable } with
    mailbox := { m with buffer := Function.update m.buffer m.wp byte, wp := m.wp + 1 }
    history := .store p m.wp byte :: s.history }

/-- `_msg[i] = mailbox->buffer[mailbox->rp++]`. -/
def fetch (p : ι) (s : System ι) : System ι :=
  let own := s.process p
  let m := s.mailbox
  let byte := m.buffer m.rp
  { s.put p { own with msg := Function.update own.msg own.i.toNat byte, pc := .enable } with
    mailbox := { m with rp := m.rp + 1 }
    history := .fetch p m.rp byte :: s.history }

/-- The next step of a process; none while it is idle or waits for a semaphore. -/
def advance (p : ι) (s : System ι) : Option (System ι) :=
  let own := s.process p
  let m := s.mailbox
  match own.pc with
  | .idle => none
  | .test => some (s.put p { own with pc := if own.i < own.msgLength then .load else .idle })
  | .load => some (s.put p { own with loaded := m.position own.op, pc := .reduce })
  | .reduce =>
    some ({ s with mailbox := m.setPosition own.op (own.loaded.tmod bufferSize) }.put p
      { own with pc := .down })
  | .down =>
    if 0 < m.sem own.op then
      some ({ s with mailbox := m.setSem own.op (m.sem own.op - 1) }.put p { own with pc := .disable })
    else none
  | .disable => some ({ s with masked := some p }.put p { own with pc := .transfer })
  | .transfer =>
    match own.op with
    | .send => some (store p s)
    | .recv => some (fetch p s)
  | .enable => some ({ s with masked := none }.put p { own with pc := .up })
  | .up =>
    some ({ s with mailbox := m.setSem own.op.other (m.sem own.op.other + 1) }.put p
      { own with pc := .next })
  | .next => some (s.put p { own with i := own.i + 1, pc := .test })

/-- The bytes of a message. -/
def bytes (msg : Buffer) (msgLength : Int) : List Byte := (List.range msgLength.toNat).map msg

/-- A process calls one of the two functions, or goes on in the one it is in. -/
inductive Event (ι : Type) where
  | mboxSend (p : ι) (msg : Buffer) (msgLength : Int)
  | mboxRecv (p : ι) (msg : Buffer) (msgLength : Int)
  | step (p : ι)

def Event.process : Event ι → ι
  | .mboxSend p _ _ | .mboxRecv p _ _ | .step p => p

/-- While a process has disabled interrupts no other one gets the processor. -/
def execute (event : Event ι) (s : System ι) : Option (System ι) :=
  if s.masked = none ∨ s.masked = some event.process then
    match event with
    | .mboxSend p msg msgLength =>
      if (s.process p).pc = .idle then
        some { s.put p ⟨.send, .test, msg, msgLength, 0, 0⟩ with
          history := .send p (bytes msg msgLength) :: s.history }
      else none
    | .mboxRecv p msg msgLength =>
      if (s.process p).pc = .idle then some (s.put p ⟨.recv, .test, msg, msgLength, 0, 0⟩)
      else none
    | .step p => advance p s
  else none

def Step (s : System ι) (event : Event ι) (t : System ι) : Prop := execute event s = some t

/-- The mailbox has been created and opened any number of times, and nobody is in a call. -/
def start (i : Int) (name : List Byte) (refCount : Int) (m : Mailbox) : System ι where
  mailbox := { mboxCreate i name m with refCount := refCount }
  process := fun _ => ⟨.send, .idle, fun _ => 0, 0, 0, 0⟩
  masked := none
  history := []

/-- A concrete run. -/
def runAll : List (Event ι) → System ι → Option (System ι)
  | [], s => some s
  | event :: events, s => (execute event s).bind (runAll events)

theorem runAll_reachable {allowed : System ι → Event ι → Prop} {first s t : System ι}
    (events : List (Event ι)) (reach : Reachable Step allowed first s)
    (ok : ∀ event ∈ events, ∀ s, allowed s event) (result : runAll events s = some t) :
    Reachable Step allowed first t := by
  induction events generalizing s with
  | nil =>
    obtain rfl := Option.some.inj result
    exact reach
  | cons event events ih =>
    rw [runAll, Option.bind_eq_some_iff] at result
    obtain ⟨next, step, rest⟩ := result
    exact ih (reach.step (ok event (by simp) s) step) (fun e member => ok e (by simp [member])) rest

end Tina.Mbox
