import Tina.Entry

/-! Processes that share one processor through the routines of `entry.S`. User code and kernel
code are anything that leaves the contexts, the kernel stack tops and `current_running` alone;
kernel code takes no exception of its own. Every process then has registers of its own. -/
namespace Tina.Mips

open SaveArea Layout

/-- Where a process is: its slot was never used, it was spawned, it is in `embryo_start`, in user
code, in the kernel, or inside a `*_sched` that it called there. -/
inductive Stage where
  | vacant
  | embryo
  | starting
  | user
  | kernel (entered : Vector)
  | parked (entered : Vector)
  deriving DecidableEq, Repr

/-- `scheduler` may choose it. -/
def Stage.Waits : Stage → Prop
  | .embryo | .parked _ => True
  | _ => False

def Stage.park : Stage → Stage
  | .kernel v => .parked v
  | stage => stage

def Stage.resume : Stage → Stage
  | .embryo => .starting
  | .parked v => .kernel v
  | stage => stage

structure System where
  cpu : Cpu
  stage : Slot → Stage
  current : Slot

/-- Another process has the processor. -/
def Stage.Away : Stage → Prop
  | .vacant | .embryo | .parked _ => True
  | _ => False

/-- What a process does while it has the processor. A file gives the registers after code that may
do anything with them. -/
inductive Act where
  | user (file : Field → Word)
  | kernel (file : Field → Word)
  | trap (v : Vector)
  | epcPlus4
  | returnInt (v : Word)
  | spawn (dest : Slot) (entryPoint : Word)
  | switch (status : Word) (next : Slot)
  | start
  | leave

structure Event where
  actor : Slot
  act : Act

/-- The registers as user code has them, with the place where it is for `EPC`. -/
def view (c : Cpu) (f : Field) : Word := if f = .epc then c.pc else f.read c

def context (g : Symbols) (c : Cpu) (p : Slot) (offset : Nat) (f : Field) : Word :=
  c.mem (area g p offset f)

/-- The words that only the routines of `entry.S`, `assign_task` and `scheduler` write. -/
def Guarded (g : Symbols) (a : Nat) : Prop := ∃ p k, k < userStackTop ∧ a = pcbAddress g p + k

def Untouched (g : Symbols) (c c' : Cpu) : Prop := ∀ a, Guarded g a → c'.mem a = c.mem a

def kstackTop (p : Slot) : Word := kstackBase + BitVec.ofNat 32 p * kstackSize
def ustackTop (p : Slot) : Word := ustackBase + BitVec.ofNat 32 p * ustackSize

/-- The fields that `assign_task` fills in each of the two contexts, in its order. -/
def assigned : List Field := [.reg sp, .reg ra, .epc, .status]

def startKernel (g : Symbols) (dest : Slot) (entryPoint : Word) (f : Field) : Word :=
  if f = .reg sp then kstackTop dest
  else if f = .reg ra then g.embryoStart
  else if f = .epc then entryPoint
  else 0x0

def startUser (dest : Slot) (entryPoint : Word) (f : Field) : Word :=
  if f = .reg sp then ustackTop dest
  else if f = .reg ra then entryPoint
  else if f = .epc then entryPoint
  else 0xff01

/-- The part of `assign_task` that prepares the contexts. -/
def assignContexts (g : Symbols) (dest : Slot) (entryPoint : Word) (c : Cpu) : Cpu :=
  let c := c.store (pcbAddress g dest + kernelStackTop) (kstackTop dest)
  let c := c.store (pcbAddress g dest + userStackTop) (ustackTop dest)
  let mem := spill (area g dest kernel) (startKernel g dest entryPoint) assigned c.mem
  { c with mem := spill (area g dest user) (startUser dest entryPoint) assigned mem }

/-- One step of the process that has the processor. `scheduler` stores the pointer to the next
process between the two halves of `*_sched`. -/
inductive Step (g : Symbols) (s : System) : Event → System → Prop
  | user {c : Cpu} {file : Field → Word} (inUser : s.stage s.current = .user)
    (memory : Untouched g s.cpu c) (pointed : c.mem g.currentRunning = s.cpu.mem g.currentRunning)
    (file_eq : ∀ f ∈ saved, view c f = file f) (level : c.cp0 .status &&& exl = 0) :
    Step g s ⟨s.current, .user file⟩ { s with cpu := c }
  | kernel {c : Cpu} {file : Field → Word} {v : Vector} (inKernel : s.stage s.current = .kernel v)
    (memory : Untouched g s.cpu c) (pointed : c.mem g.currentRunning = s.cpu.mem g.currentRunning)
    (file_eq : ∀ f ∈ saved, f.read c = file f) (status : c.cp0 .status = s.cpu.cp0 .status) :
    Step g s ⟨s.current, .kernel file⟩ { s with cpu := c }
  | trap (v : Vector) (inUser : s.stage s.current = .user) :
    Step g s ⟨s.current, .trap v⟩
      { s with
        cpu := run (v.entry g) (Mips.trap s.cpu)
        stage := Function.update s.stage s.current (.kernel v) }
  | epcPlus4 {v : Vector} (inKernel : s.stage s.current = .kernel v) :
    Step g s ⟨s.current, .epcPlus4⟩ { s with cpu := run (userEpcPlus4 g) s.cpu }
  | returnInt {v : Vector} (w : Word) (inKernel : s.stage s.current = .kernel v) :
    Step g s ⟨s.current, .returnInt w⟩ { s with cpu := run (returnInt32 g) (s.cpu.set a0 w) }
  | spawn {v : Vector} (dest : Slot) (entryPoint : Word) (inKernel : s.stage s.current = .kernel v) :
    Step g s ⟨s.current, .spawn dest entryPoint⟩
      { s with
        cpu := assignContexts g dest entryPoint s.cpu
        stage := if dest = s.current then s.stage else Function.update s.stage dest .embryo }
  | switch {c : Cpu} {v : Vector} (status : Word) (next : Slot)
    (inKernel : s.stage s.current = .kernel v)
    (waits : next = s.current ∨ (s.stage next).Waits)
    (memory : Untouched g (run (schedCall g status) s.cpu) c)
    (pointed : c.mem g.currentRunning = pointer g next) :
    Step g s ⟨s.current, .switch status next⟩
      { cpu := run (schedReturn g) c
        stage :=
          let parked := Function.update s.stage s.current (s.stage s.current).park
          Function.update parked next (parked next).resume
        current := next }
  | start (isStarting : s.stage s.current = .starting) (here : s.cpu.pc = g.embryoStart) :
    Step g s ⟨s.current, .start⟩
      { s with
        cpu := run (embryoStart g) s.cpu
        stage := Function.update s.stage s.current .user }
  | leave {v : Vector} (inKernel : s.stage s.current = .kernel v) :
    Step g s ⟨s.current, .leave⟩
      { s with
        cpu := run (v.exit g) s.cpu
        stage := Function.update s.stage s.current .user }

/-- Runs, with their events in order. -/
inductive Runs (g : Symbols) : List Event → System → System → Prop
  | nil {s : System} : Runs g [] s s
  | cons {e : Event} {es : List Event} {s t u : System} :
    Step g s e t → Runs g es t u → Runs g (e :: es) s u

/-! The registers that each process would have alone. -/

/-- For each process what user code and what kernel code has in the registers. -/
structure Private where
  user : Slot → Field → Word
  kernel : Slot → Field → Word

/-- `CLI` and `STI` work in `t0`: what user code will find, from what its context holds. -/
def returned (m : Field → Word) (f : Field) : Word :=
  if f = .reg t0 then m .status ||| 0x01
  else if f = .status then eretStatus (m .status)
  else m f

def trapped (file : Field → Word) (f : Field) : Word :=
  if f = .reg t0 ∨ f = .status then trapStatus (file .status) else file f

/-- The handler starts on the kernel stack of its own process. -/
def entered (p : Slot) (file : Field → Word) (f : Field) : Word :=
  if f = .reg sp then kstackTop p else trapped file f

def Private.step (g : Symbols) (e : Event) (a : Private) : Private :=
  let p := e.actor
  match e.act with
  | .user file => { a with user := Function.update a.user p file }
  | .kernel file => { a with kernel := Function.update a.kernel p file }
  | .trap _ =>
    { user := Function.update a.user p (returned (trapped (a.user p)))
      kernel := Function.update a.kernel p (entered p (a.user p)) }
  | .epcPlus4 =>
    let file := Function.update (a.user p) .epc (a.user p .epc + 0x4)
    { a with user := Function.update a.user p file }
  | .returnInt v =>
    { user := Function.update a.user p (Function.update (a.user p) (.reg v0) v)
      kernel := Function.update a.kernel p (Function.update (a.kernel p) (.reg a0) v) }
  | .spawn dest entryPoint =>
    { user := Function.update a.user dest (returned fun f =>
        if f ∈ assigned then startUser dest entryPoint f else a.user dest f)
      kernel := if dest = p then a.kernel else Function.update a.kernel dest fun f =>
        if f ∈ assigned then startKernel g dest entryPoint f else a.kernel dest f }
  | .switch .. | .start | .leave => a

def Private.run (g : Symbols) : List Event → Private → Private
  | [], a => a
  | e :: es, a => Private.run g es (a.step g e)

/-! What stays, and what `assign_task` writes. -/

variable {g : Symbols} {c c' : Cpu} {p q dest : Slot} {f : Field} {k : Nat} {entryPoint : Word}

theorem guarded (inside : k < userStackTop) : Guarded g (pcbAddress g p + k) := ⟨p, k, inside, rfl⟩

theorem guarded_area {offset : Nat} (low : offset ≤ user) (member : f ∈ saved) :
    Guarded g (area g p offset f) := by
  have small := offset_le f member
  apply guarded
  simp only [userStackTop, kernelStackTop, user, kernel, offsetSize] at *
  omega

theorem Untouched.context {offset : Nat} (memory : Untouched g c c') (low : offset ≤ user)
    (member : f ∈ saved) : context g c' p offset f = context g c p offset f :=
  memory _ (guarded_area low member)

theorem Untouched.stack (memory : Untouched g c c') :
    c'.mem (pcbAddress g p + kernelStackTop) = c.mem (pcbAddress g p + kernelStackTop) :=
  memory _ (guarded (by decide))

theorem assigned_saved : ∀ f ∈ assigned, f ∈ saved := by decide

/-- The two contexts of a process are apart from its stack tops, from each other, and from what
other processes have. -/
structure Assigns (g : Symbols) (dest : Slot) (entryPoint : Word) (c c' : Cpu) : Prop where
  user : ∀ f ∈ saved, context g c' dest user f =
    if f ∈ assigned then startUser dest entryPoint f else context g c dest Mips.user f
  kernel : ∀ f ∈ saved, context g c' dest kernel f =
    if f ∈ assigned then startKernel g dest entryPoint f else context g c dest Mips.kernel f
  stack : c'.mem (pcbAddress g dest + kernelStackTop) = kstackTop dest
  others : ∀ p ≠ dest, ∀ k < sizeofPcb, c'.mem (pcbAddress g p + k) = c.mem (pcbAddress g p + k)
  pointed : c'.mem g.currentRunning = c.mem g.currentRunning
  read : ∀ f : Field, f.read c' = f.read c

theorem area_lt {offset : Nat} (low : offset ≤ user) (member : f ∈ saved) :
    offset + f.offset < kernelStackTop := by
  have small := offset_le f member
  simp only [kernelStackTop, user, kernel, offsetSize] at *
  omega

/-- Filling one context: its own fields, and nothing else of a PCB. -/
theorem spill_context {offset : Nat} {value : Field → Word} {m : Nat → Word}
    (low : offset = kernel ∨ offset = user) :
    (∀ f ∈ saved, spill (area g dest offset) value assigned m (area g dest offset f) =
      if f ∈ assigned then value f else m (area g dest offset f)) ∧
    ∀ a, (∀ f ∈ saved, area g dest offset f ≠ a) →
      spill (area g dest offset) value assigned m a = m a := by
  have apart : ∀ i ∈ saved, ∀ j ∈ saved, area g dest offset i = area g dest offset j → i = j :=
    fun i first j second same => (area_inj low low first second same).2.2
  constructor
  · intro f member
    split
    · rename_i filled
      apply spill_inside _ filled
      exact fun i first j second => apart i (assigned_saved i first) j (assigned_saved j second)
    · rename_i other
      apply spill_outside
      intro i first same
      exact other (apart i (assigned_saved i first) f member same ▸ first)
  · intro a outside
    exact spill_outside fun i first => outside i (assigned_saved i first)

theorem assignContexts_assigns : Assigns g dest entryPoint c (assignContexts g dest entryPoint c) := by
  obtain ⟨m, isM⟩ : ∃ m, (c.store (pcbAddress g dest + kernelStackTop) (kstackTop dest)).store
      (pcbAddress g dest + userStackTop) (ustackTop dest) = m := ⟨_, rfl⟩
  have tops : ∀ a, a ≠ pcbAddress g dest + kernelStackTop → a ≠ pcbAddress g dest + userStackTop →
      m.mem a = c.mem a := by
    intro a first second
    rw [← isM, Cpu.store_mem, Cpu.store_mem, Function.update_of_ne second,
      Function.update_of_ne first]
  have stack : m.mem (pcbAddress g dest + kernelStackTop) = kstackTop dest := by
    rw [← isM, Cpu.store_mem, Cpu.store_mem, Function.update_of_ne (by simp [userStackTop]),
      Function.update_self]
  have inKernel := @spill_context g dest kernel (startKernel g dest entryPoint) m.mem (.inl rfl)
  obtain ⟨n, isN⟩ : ∃ n, spill (area g dest kernel) (startKernel g dest entryPoint) assigned m.mem =
      n := ⟨_, rfl⟩
  rw [isN] at inKernel
  have inUser := @spill_context g dest user (startUser dest entryPoint) n (.inr rfl)
  have memory : (assignContexts g dest entryPoint c).mem =
      spill (area g dest user) (startUser dest entryPoint) assigned n := by
    rw [assignContexts, ← isN, ← isM]
  have contexts : ∀ f ∈ saved, area g dest kernel f < pcbAddress g dest + kernelStackTop ∧
      area g dest user f < pcbAddress g dest + kernelStackTop := by
    intro f member
    have first := @area_lt _ kernel (by decide) member
    have second := @area_lt _ user (by decide) member
    simp only [area]
    omega
  have beyond : kernelStackTop < userStackTop := by decide
  have different : ∀ f ∈ saved, ∀ e ∈ saved, area g dest user f ≠ area g dest kernel e := by
    intro f first e second same
    exact absurd (area_inj (.inr rfl) (.inl rfl) first second same).2.1 (by decide)
  constructor
  · intro f member
    rw [context, memory, inUser.1 f member, inKernel.2 _ fun e second =>
      (different f member e second).symm, tops, context]
    all_goals have := contexts f member; omega
  · intro f member
    rw [context, memory, inUser.2 _ fun e second => different e second f member,
      inKernel.1 f member, tops, context]
    all_goals have := contexts f member; omega
  · rw [memory, inUser.2, inKernel.2, stack]
    all_goals intro f member; have := contexts f member; omega
  · intro p other k inside
    rw [memory, inUser.2, inKernel.2, tops]
    · exact pcbAddress_apart other inside (by decide)
    · exact pcbAddress_apart other inside (by decide)
    all_goals
      intro f member
      refine pcbAddress_apart (Ne.symm other) ?_ inside
      refine Nat.lt_trans (area_lt (by decide) member) (by decide)
  · rw [memory, inUser.2, inKernel.2, tops]
    · exact pcbAddress_symbol (by decide)
    · exact pcbAddress_symbol (by decide)
    all_goals
      intro f member
      refine (pcbAddress_symbol ?_).symm
      exact Nat.lt_trans (area_lt (by decide) member) (by decide)
  · intro f
    cases f <;> rfl

end Tina.Mips
