import Tina.Handover
import Tina.Moves
import Tina.Quiet
import Tina.Stacks

/-! The kernel on the machine. Whatever the processes call and however the queues look,
`scheduler` chooses among those whose context lies in their PCB, and `entry.S` carries every run
of the kernel out. -/
namespace Tina.Mips

open Layout

variable {g : Symbols} {s t s₀ : System} {a : Private} {v : Vector} {k k' : Kernel} {p i : Slot}
  {task shell : TaskInfo} {event : Tina.Event} {file : Field → Word} {acts : List Tina.Act}

/-- What happens to the contexts in the course of a run: user code is left with a file in the
registers, and is moved behind its `syscall`; `assign_task` and the `*_sched` are called. -/
inductive Move where
  | leaves (p : Slot) (file : Field → Word)
  | skips (p : Slot)
  | spawn (dest : Slot) (entryPoint : Word)
  | switch (status : Word) (next : Slot)

def Event.move (e : Event) : Option Move :=
  match e.act with
  | .user file => some (.leaves e.actor file)
  | .epcPlus4 => some (.skips e.actor)
  | .spawn dest entryPoint => some (.spawn dest entryPoint)
  | .switch status next => some (.switch status next)
  | _ => none

/-- What the user code of each process is to find when it goes on. -/
def Move.registers (users : Slot → Field → Word) : Move → Slot → Field → Word
  | .leaves p file => Function.update users p (returned (trapped file))
  | .skips p => Function.update users p (Function.update (users p) .epc (users p .epc + 0x4))
  | .spawn dest entryPoint => Function.update users dest (returned fun f =>
      if f ∈ assigned then startUser dest entryPoint f else users dest f)
  | .switch .. => users

def registers (moves : List Move) (users : Slot → Field → Word) : Slot → Field → Word :=
  moves.foldl Move.registers users

/-- Which of the `*_sched` gives the processor away: that of `do_scheduler`, `do_sleep`, `do_exit`
or `do_block`. -/
def schedStatus : Tina.Event → Word
  | .timer => 3
  | .call (.sleep _) => 1
  | .call .exit => 5
  | _ => 2

def spawnEntry : Tina.Event → Word
  | .call (.spawn task) => task.entryPoint
  | _ => 0

/-- A process that continues in the kernel comes from no user code. -/
def entering (event : Tina.Event) (p : Slot) (file : Field → Word) : List Move :=
  match event with
  | .call _ => [.leaves p file, .skips p]
  | .timer => [.leaves p file]
  | .resume => []

/-- The move that an action of the kernel stands for. -/
def moveOf (event : Tina.Event) : Tina.Act → Option Move
  | .spawn p => some (.spawn p (spawnEntry event))
  | .dispatch p => some (.switch (schedStatus event) p)
  | _ => none

/-- A run of the kernel, with what user code has in the registers whenever it is left, and the
moves that are made for it in their order. A miss is handled at once, through either vector. -/
inductive Work (start : Kernel) : List Move → Kernel → Prop
  | start : Work start [] start
  | step {moves : List Move} {k k' : Kernel} {event : Tina.Event} {acts : List Tina.Act}
    (file : Field → Word) (work : Work start moves k) (level : file .status &&& exl = 0)
    (step : Tina.Step k event k') (trace : k'.trace = acts ++ k.trace) :
    Work start (moves ++ (entering event k.currentRunning file ++
      acts.reverse.filterMap (moveOf event))) k'
  | miss {moves : List Move} {k : Kernel} (v : Vector) (file : Field → Word)
    (work : Work start moves k) (level : file .status &&& exl = 0)
    (idle : k.kont k.currentRunning = .user) :
    Work start (moves ++ [.leaves k.currentRunning file]) k

/-- Every run of the kernel is one of these, whatever is in the registers. -/
theorem reachable_work {allowed : Kernel → Tina.Event → Prop} (level : file .status &&& exl = 0)
    (reach : Transition.Reachable Tina.Step allowed k k') : ∃ moves, Work k moves k' := by
  induction reach with
  | start => exact ⟨[], .start⟩
  | step _ _ step ih =>
    obtain ⟨moves, work⟩ := ih
    obtain ⟨acts, trace⟩ := step_grows step
    exact ⟨_, .step file work level step trace⟩

/-- A run of the machine that makes these moves, to which the other events add nothing. -/
def Does (g : Symbols) (moves : List Move) (s t : System) : Prop :=
  ∃ es, Runs g es s t ∧ es.filterMap Event.move = moves ∧
    ∀ a : Private, (a.run g es).user = registers moves a.user

theorem Does.nothing (g : Symbols) (s : System) : Does g [] s s := ⟨[], .nil, rfl, fun _ => rfl⟩

theorem Private.run_append {es es' : List Event} : a.run g (es ++ es') = (a.run g es).run g es' := by
  induction es generalizing a with
  | nil => rfl
  | cons e es ih => exact ih

theorem Does.one {moves : List Move} {e : Event} (step : Step g s e t)
    (isMove : [e].filterMap Event.move = moves)
    (same : ∀ a : Private, (a.step g e).user = registers moves a.user) : Does g moves s t :=
  ⟨[e], .cons step .nil, isMove, same⟩

theorem Does.append {moves moves' : List Move} {u : System} (first : Does g moves s t)
    (second : Does g moves' t u) : Does g (moves ++ moves') s u := by
  obtain ⟨es, runs, isMoves, same⟩ := first
  obtain ⟨es', runs', isMoves', same'⟩ := second
  refine ⟨es ++ es', runs.append runs', by rw [List.filterMap_append, isMoves, isMoves'], fun a => ?_⟩
  rw [Private.run_append, same', same, registers, registers, registers, List.foldl_append]

/-- The machine shows registers of these users. -/
def Displays (g : Symbols) (users : Slot → Field → Word) (s : System) : Prop :=
  ∃ a, Shows g s a ∧ a.user = users

theorem Does.displays {moves : List Move} {users : Slot → Field → Word} (does : Does g moves s t)
    (displays : Displays g users s) : Displays g (registers moves users) t := by
  obtain ⟨es, runs, -, same⟩ := does
  obtain ⟨a, shows, rfl⟩ := displays
  exact ⟨_, shows.run runs, same a⟩

/-- The machine has the kernel's processes: whoever the kernel can reach has a context, and who was
never dispatched starts in user code. -/
structure Mirrors (k : Kernel) (s : System) : Prop where
  placed : Placed (fun p => s.stage p ≠ .vacant) k
  current : s.current = k.currentRunning
  embryo : ∀ p, s.stage p = .embryo → k.kont p = .user
  tops : ∀ p, s.stage p ≠ .vacant → (k.pcb p).kernelStackTop = kstackTop p

/-- Between two events the running process is in user code, or in the kernel where it goes on. -/
structure Hosted (k : Kernel) (s : System) : Prop extends Mirrors k s where
  user : k.kont k.currentRunning = .user → s.stage s.current = .user
  kernel : k.kont k.currentRunning ≠ .user → ∃ v, s.stage s.current = .kernel v

@[simp] theorem park_vacant {stage : Stage} : stage.park = .vacant ↔ stage = .vacant := by
  cases stage <;> simp [Stage.park]

@[simp] theorem park_embryo {stage : Stage} : stage.park = .embryo ↔ stage = .embryo := by
  cases stage <;> simp [Stage.park]

@[simp] theorem resume_vacant {stage : Stage} : stage.resume = .vacant ↔ stage = .vacant := by
  cases stage <;> simp [Stage.resume]

@[simp] theorem resume_embryo {stage : Stage} : stage.resume ≠ .embryo := by
  cases stage <;> simp [Stage.resume]

/-- A process goes from one place to another, and has a context all the time. -/
theorem Mirrors.restage (mirrors : Mirrors k s) (current : t.current = s.current)
    (vacant : ∀ p, t.stage p = .vacant ↔ s.stage p = .vacant)
    (embryo : ∀ p, t.stage p = .embryo → s.stage p = .embryo) : Mirrors k t where
  placed := by
    have same : (fun p => t.stage p ≠ .vacant) = fun p => s.stage p ≠ .vacant :=
      funext fun p => propext (not_congr (vacant p))
    rw [same]
    exact mirrors.placed
  current := current.trans mirrors.current
  embryo p stage := mirrors.embryo p (embryo p stage)
  tops p used := mirrors.tops p fun free => used ((vacant p).mpr free)

theorem Mirrors.stays (mirrors : Mirrors k s) (unmoved : Unmoved k k')
    (placed : Placed (fun p => s.stage p ≠ .vacant) k') : Mirrors k' s where
  placed := placed
  current := mirrors.current.trans unmoved.running.symm
  embryo p stage := by rw [unmoved.kont, mirrors.embryo p stage]
  tops p used := by rw [unmoved.tops, mirrors.tops p used]

/-- The running process goes from user code into the kernel or back. -/
theorem Mirrors.goes (mirrors : Mirrors k s) {stage : Stage} (used : stage ≠ .vacant)
    (old : stage ≠ .embryo) (current : t.current = s.current)
    (same : t.stage = Function.update s.stage s.current stage) : Mirrors k t := by
  have present : s.stage s.current ≠ .vacant := by
    rw [mirrors.current]
    exact mirrors.placed.current
  refine mirrors.restage current (fun p => ?_) fun p embryo => ?_
  · by_cases here : p = s.current
    · simp [same, here, used, present]
    · simp [same, here]
  · by_cases here : p = s.current
    · simp [same, here, old] at embryo
    · simpa [same, here] using embryo

/-! From user code into the kernel. -/

/-- A processor that has a file in its registers. -/
def Cpu.having (file : Field → Word) (c : Cpu) : Cpu :=
  { c with
    reg := fun r => file (.reg r)
    hi := file .hi
    lo := file .lo
    cp0 := Function.update c.cp0 .status (file .status)
    pc := file .epc }

theorem view_having {c : Cpu} {f : Field} (member : f ∈ saved) : view (c.having file) f = file f := by
  cases f with
  | reg r =>
    have nonzero : r ≠ 0 := fun zero => (saved_plain _ member).1 (by rw [zero])
    simp [view, Cpu.having, Field.read, Cpu.get, nonzero]
  | status => simp [view, Cpu.having, Field.read]
  | hi | lo | epc => rfl

/-- In user code again. -/
theorem Mirrors.back (mirrors : Mirrors k s) (idle : k.kont k.currentRunning = .user)
    (current : t.current = s.current)
    (stage : t.stage = Function.update s.stage s.current .user) : Hosted k t where
  toMirrors := mirrors.goes (by simp) (by simp) current stage
  user _ := by rw [stage, current, Function.update_self]
  kernel inside := absurd idle inside

theorem leaves_does (v : Vector) (file : Field → Word) (inUser : s.stage s.current = .user)
    (level : file .status &&& exl = 0) :
    ∃ t, Does g [.leaves s.current file] s t ∧ t.current = s.current ∧
      t.stage = Function.update s.stage s.current (.kernel v) := by
  have first : Step g s ⟨s.current, .user file⟩ { s with cpu := s.cpu.having file } :=
    .user inUser (fun _ _ => rfl) rfl (fun _ => view_having) level
  have second := Step.trap (g := g) (s := { s with cpu := s.cpu.having file }) v inUser
  refine ⟨_, ⟨_, .cons first (.cons second .nil), rfl, fun a => ?_⟩, rfl, rfl⟩
  simp [Private.run, Private.step, registers, Move.registers]

/-- For a system call `exception_handler` also moves it behind the `syscall`. -/
theorem enter_does (file : Field → Word) (inUser : s.stage s.current = .user)
    (level : file .status &&& exl = 0) (ordinary : event ≠ .resume) :
    ∃ t, Does g (entering event s.current file) s t ∧ t.current = s.current ∧
      t.stage = Function.update s.stage s.current (.kernel .exception) := by
  obtain ⟨t, does, current, stage⟩ := leaves_does (g := g) .exception file inUser level
  cases event with
  | call c =>
    have inKernel : t.stage t.current = .kernel .exception := by simp [stage, current]
    obtain ⟨u, skips, same, unchanged⟩ : ∃ u, Does g [.skips t.current] t u ∧
        u.current = t.current ∧ u.stage = t.stage :=
      ⟨_, .one (.epcPlus4 inKernel) rfl fun _ => rfl, rfl, rfl⟩
    rw [current] at skips same
    exact ⟨u, does.append skips, same, unchanged.trans stage⟩
  | timer => exact ⟨t, does, current, stage⟩
  | resume => exact absurd rfl ordinary

/-! The kernel itself. -/

theorem plain_moves (plain : ∀ a ∈ acts, a.moves = false) :
    acts.reverse.filterMap (moveOf event) = [] := by
  rw [List.filterMap_eq_nil_iff]
  intro a member
  have unmoved := plain a (List.mem_reverse.mp member)
  cases a <;> simp_all [moveOf, Tina.Act.moves]

/-- Where a process is when the kernel is done with an event. -/
structure Arrived (k : Kernel) (s : System) : Prop extends Mirrors k s where
  inside : s.stage s.current = .starting ∧ k.kont k.currentRunning = .user ∨
    ∃ v, s.stage s.current = .kernel v

/-- The stages after a `*_sched`. -/
def handed (stage : Slot → Stage) (previous next : Slot) : Slot → Stage :=
  let parked := Function.update stage previous (stage previous).park
  Function.update parked next (parked next).resume

theorem handed_vacant {stage : Slot → Stage} {q next : Slot} :
    handed stage q next p = .vacant ↔ stage p = .vacant := by
  have parked : Function.update stage q (stage q).park p = .vacant ↔ stage p = .vacant := by
    by_cases here : p = q <;> simp [here]
  by_cases chosen : p = next
  · subst chosen
    simp [handed, parked]
  · simp [handed, chosen, parked]

theorem handed_embryo {stage : Slot → Stage} {q next : Slot}
    (embryo : handed stage q next p = .embryo) : p ≠ next ∧ stage p = .embryo := by
  by_cases chosen : p = next
  · subst chosen
    simp [handed] at embryo
  · refine ⟨chosen, ?_⟩
    simp only [handed, Function.update_of_ne chosen] at embryo
    by_cases here : p = q
    · subst here
      simpa using embryo
    · simpa [here] using embryo

/-- The one that `scheduler` chooses has a context. -/
theorem Mirrors.switches (shows : Shows g s a) (mirrors : Mirrors k s)
    (inKernel : s.stage s.current = .kernel v) (dispatched : Dispatched k k')
    (placed : Placed (fun p => s.stage p ≠ .vacant) k') (status : Word) :
    ∃ t, Step g s ⟨s.current, .switch status k'.currentRunning⟩ t ∧ Arrived k' t := by
  obtain ⟨next, isNext⟩ : ∃ next, k'.currentRunning = next := ⟨_, rfl⟩
  have used : s.stage next ≠ .vacant := isNext ▸ placed.current
  have waits : next = s.current ∨ (s.stage next).Waits := by
    by_cases same : next = s.current
    · exact .inl same
    · have away := shows.alone next same
      right
      cases stage : s.stage next <;> simp_all [Stage.Away, Stage.Waits]
  have elsewhere : ∀ p, s.stage p = .embryo → k'.kont p = .user := by
    intro p embryo
    rw [dispatched.kont, mirrors.embryo p embryo]
  obtain ⟨cpu, step⟩ : ∃ cpu, Step g s ⟨s.current, .switch status next⟩
      ⟨cpu, handed s.stage s.current next, next⟩ := by
    refine ⟨_, .switch (c := (run (schedCall g status) s.cpu).store g.currentRunning
      (pointer g next)) status next inKernel waits (fun a guarded => ?_) (by simp)⟩
    obtain ⟨p, k, inside, rfl⟩ := guarded
    have other : pcbAddress g p + k ≠ g.currentRunning :=
      (pcbAddress_symbol (Nat.lt_trans inside (by decide))).symm
    simp [other]
  refine isNext ▸ ⟨_, step, ⟨?_, isNext.symm, fun p embryo => ?_, fun p used => ?_⟩, ?_⟩
  · have same : (fun p => handed s.stage s.current next p ≠ .vacant) = fun p => s.stage p ≠ .vacant :=
      funext fun p => propext (not_congr handed_vacant)
    exact same ▸ placed
  · exact elsewhere p (handed_embryo embryo).2
  · rw [dispatched.tops, mirrors.tops p fun free => used (handed_vacant.mpr free)]
  · change handed s.stage s.current next next = .starting ∧ _ ∨
      ∃ v, handed s.stage s.current next next = .kernel v
    rcases waits with same | waits
    · exact .inr ⟨v, by simp [handed, same, inKernel, Stage.park, Stage.resume]⟩
    · have other : next ≠ s.current := by
        rintro rfl
        rw [inKernel] at waits
        exact waits
      cases stage : s.stage next with
      | embryo => exact .inl ⟨by simp [handed, other, stage, Stage.resume], isNext ▸ elsewhere _ stage⟩
      | parked w => exact .inr ⟨w, by simp [handed, other, stage, Stage.resume]⟩
      | vacant | starting | user | kernel =>
        rw [stage] at waits
        exact absurd waits id

/-- Where the running process continues concerns nobody that waits to be started. -/
theorem Mirrors.rekont (mirrors : Mirrors k s) (inKernel : s.stage s.current = .kernel v)
    (kont : Kont) : Mirrors { k with kont := Function.update k.kont k.currentRunning kont } s where
  placed := mirrors.placed.data mirrors.placed.links rfl mirrors.placed.current
  current := mirrors.current
  embryo p embryo := by
    have other : p ≠ k.currentRunning := by
      rintro rfl
      rw [← mirrors.current, inKernel] at embryo
      cases embryo
    simp only [Function.update_of_ne other, mirrors.embryo p embryo]
  tops := mirrors.tops

/-- From the kernel's own step to the place where the process is then. -/
theorem Mirrors.turn {d : Duty} (shows : Shows g s a) (mirrors : Mirrors k s)
    (inKernel : s.stage s.current = .kernel v) (turn : Turn d k k')
    (placed : Placed (fun p => s.stage p ≠ .vacant) k') (trace : k'.trace = acts ++ k.trace) :
    ∃ t, Does g (acts.reverse.filterMap (moveOf event)) s t ∧ Arrived k' t := by
  cases turn with
  | stays enabled unmoved =>
    obtain ⟨plain, grown, unmoving⟩ := unmoved.quiet
    obtain rfl := List.append_cancel_right (trace.symm.trans grown)
    rw [plain_moves unmoving]
    have counted : Mirrors { k with count := d.perform k.count } s :=
      ⟨mirrors.placed.data mirrors.placed.links rfl mirrors.placed.current, mirrors.current,
        mirrors.embryo, mirrors.tops⟩
    exact ⟨s, .nothing g s, counted.stays unmoved placed, .inr ⟨v, inKernel⟩⟩
  | switches kont same dispatched =>
    obtain ⟨plain, grown, unmoving⟩ := dispatched.chosen
    obtain rfl := List.append_cancel_right (trace.symm.trans (grown.trans (List.cons_append ..).symm))
    obtain ⟨t, step, arrived⟩ := (mirrors.rekont inKernel kont).switches shows inKernel dispatched
      placed (schedStatus event)
    rw [List.reverse_cons, List.filterMap_append, plain_moves unmoving]
    exact ⟨t, .one step rfl fun _ => rfl, arrived⟩

theorem assignt_top (p : Slot) : ((assignt task i k).pcb p).kernelStackTop =
    if p = i then kstackTop i else (k.pcb p).kernelStackTop := by
  by_cases here : p = i
  · subst here
    simp [assignt, assignTask, Kernel.setPcb, Kernel.record, kstackTop]
  · simp [assignt, assignTask, Kernel.setPcb, Kernel.record, here]

/-- The stages after `assign_task`. A process that is given its own PCB stays where it is. -/
def assignedStage (stage : Slot → Stage) (current dest : Slot) : Slot → Stage :=
  if dest = current then stage else Function.update stage dest .embryo

theorem assignedStage_vacant {stage : Slot → Stage} {q : Slot} (present : stage q ≠ .vacant) :
    assignedStage stage q i p ≠ .vacant ↔ stage p ≠ .vacant ∨ p = i := by
  rw [assignedStage]
  split
  next same =>
    subst same
    refine ⟨.inl, fun used => used.elim id ?_⟩
    rintro rfl
    exact present
  next other =>
    by_cases here : p = i <;> simp [here]

theorem assignedStage_embryo {stage : Slot → Stage} {q : Slot}
    (embryo : assignedStage stage q i p = .embryo) : p = i ∨ stage p = .embryo := by
  rw [assignedStage] at embryo
  split at embryo
  · exact .inr embryo
  · by_cases here : p = i
    · exact .inl here
    · exact .inr (by simpa [here] using embryo)

/-- A new process, or one that takes the PCB of a dead one, has the contexts of `assign_task`. -/
theorem Mirrors.assigns (mirrors : Mirrors k s) (inKernel : s.stage s.current = .kernel v) :
    ∃ t, Step g s ⟨s.current, .spawn i task.entryPoint⟩ t ∧ Arrived (assignt task i k) t := by
  have present : s.stage s.current ≠ .vacant := by simp [inKernel]
  have kont : (assignt task i k).kont = Function.update k.kont i .user := rfl
  obtain ⟨cpu, step⟩ : ∃ cpu, Step g s ⟨s.current, .spawn i task.entryPoint⟩
      ⟨cpu, assignedStage s.stage s.current i, s.current⟩ :=
    ⟨_, .spawn i task.entryPoint inKernel⟩
  refine ⟨_, step, ⟨?_, mirrors.current, fun p embryo => ?_, fun p used => ?_⟩, .inr ⟨v, ?_⟩⟩
  · have same : (fun p => assignedStage s.stage s.current i p ≠ .vacant) =
        fun p => s.stage p ≠ .vacant ∨ p = i :=
      funext fun p => propext (assignedStage_vacant present)
    exact same ▸ assignt_placed mirrors.placed
  · rw [kont]
    by_cases here : p = i
    · rw [here, Function.update_self]
    · rw [Function.update_of_ne here]
      exact mirrors.embryo p ((assignedStage_embryo embryo).resolve_left here)
  · rw [assignt_top]
    by_cases here : p = i
    · rw [if_pos here, here]
    · rw [if_neg here]
      exact mirrors.tops p (((assignedStage_vacant present).mp used).resolve_right here)
  · simp only [assignedStage]
    split
    · exact inKernel
    next other => rw [Function.update_of_ne (Ne.symm other), inKernel]

/-! Back into user code. -/

theorem Arrived.returns (shows : Shows g s a) (arrived : Arrived k s) :
    ∃ t, Does g [] s t ∧ Hosted k t := by
  by_cases idle : k.kont k.currentRunning = .user
  · obtain ⟨t, does, current, stage⟩ : ∃ t, Does g [] s t ∧ t.current = s.current ∧
        t.stage = Function.update s.stage s.current .user := by
      rcases arrived.inside with ⟨starting, -⟩ | ⟨v, inKernel⟩
      · exact ⟨_, .one (.start starting (shows.starting starting).1) rfl fun _ => rfl, rfl, rfl⟩
      · exact ⟨_, .one (.leave inKernel) rfl fun _ => rfl, rfl, rfl⟩
    exact ⟨t, does, arrived.back idle current stage⟩
  · have inKernel := arrived.inside.resolve_left fun starting => idle starting.2
    exact ⟨s, .nothing g s, arrived.toMirrors, fun user => absurd user idle, fun _ => inKernel⟩

/-! An event, and a run. -/

theorem step_placed {A : Slot → Prop} (placed : Placed A k)
    (other : ∀ task, event ≠ .call (.spawn task)) (step : Tina.Step k event k') : Placed A k' := by
  obtain ⟨fuel, clk, result⟩ := step
  cases event with
  | resume => exact resume_placed placed result
  | call c =>
    simp only [execute, if_pos (execute_idle result (by simp))] at result
    exact systemCall_placed placed (fun task same => other task (by rw [same])) result
  | timer =>
    simp only [execute, if_pos (execute_idle result (by simp))] at result
    exact scheduler_placed placed result

/-- What the kernel does once it has been entered. -/
theorem Mirrors.performs (shows : Shows g s a) (mirrors : Mirrors k s)
    (inKernel : s.stage s.current = .kernel v) (step : Tina.Step k event k')
    (trace : k'.trace = acts ++ k.trace) :
    ∃ t, Does g (acts.reverse.filterMap (moveOf event)) s t ∧ Arrived k' t := by
  by_cases spawning : ∃ task, event = .call (.spawn task)
  · obtain ⟨task, rfl⟩ := spawning
    obtain ⟨-, rfl | ⟨i, rfl⟩⟩ := spawn_step step
    · obtain rfl : acts = [] := List.self_eq_append_left.mp trace
      exact ⟨s, .nothing g s, mirrors, .inr ⟨v, inKernel⟩⟩
    · have grown : [.spawn i] ++ k.trace = acts ++ k.trace := trace
      obtain rfl := List.append_cancel_right grown
      obtain ⟨t, step, arrived⟩ : ∃ t, Step g s ⟨s.current, .spawn i task.entryPoint⟩ t ∧
          Arrived (assignt task i k) t := mirrors.assigns inKernel
      exact ⟨t, .one step rfl fun _ => rfl, arrived⟩
  · have other : ∀ task, event ≠ .call (.spawn task) := fun task same => spawning ⟨task, same⟩
    exact (mirrors.rekont inKernel .user).turn shows inKernel (step_turn other step)
      (step_placed mirrors.placed other step) trace

/-- A step of the kernel is carried out, whatever user code had in the registers. -/
theorem Hosted.step {users : Slot → Field → Word} (displays : Displays g users s)
    (hosted : Hosted k s) (step : Tina.Step k event k') (trace : k'.trace = acts ++ k.trace)
    (level : file .status &&& exl = 0) :
    ∃ t, Does g (entering event k.currentRunning file ++ acts.reverse.filterMap (moveOf event)) s t ∧
      Hosted k' t := by
  obtain ⟨t, entered, v, mirrors, inKernel⟩ : ∃ t, Does g (entering event k.currentRunning file) s t ∧
      ∃ v, Mirrors k t ∧ t.stage t.current = .kernel v := by
    by_cases ordinary : event = .resume
    · subst ordinary
      obtain ⟨fuel, clk, result⟩ := step
      obtain ⟨v, inKernel⟩ := hosted.kernel (resume_turn result).1
      exact ⟨s, .nothing g s, v, hosted.toMirrors, inKernel⟩
    · obtain ⟨fuel, clk, result⟩ := step
      have inUser := hosted.user (execute_idle result ordinary)
      obtain ⟨t, does, current, stage⟩ := enter_does (g := g) file inUser level ordinary
      exact ⟨t, hosted.current ▸ does, .exception, hosted.goes (by simp) (by simp) current stage,
        by simp [stage, current]⟩
  obtain ⟨b, shown, -⟩ := entered.displays displays
  obtain ⟨u, does, arrived⟩ := mirrors.performs shown inKernel step trace
  obtain ⟨c, shown, -⟩ := does.displays ⟨b, shown, rfl⟩
  obtain ⟨w, back, hosted⟩ := arrived.returns shown
  have all := (entered.append does).append back
  rw [List.append_nil] at all
  exact ⟨w, all, hosted⟩

/-- Nothing changes for the kernel. -/
theorem Hosted.misses (hosted : Hosted k s) (v : Vector) (level : file .status &&& exl = 0)
    (idle : k.kont k.currentRunning = .user) :
    ∃ t, Does g [.leaves k.currentRunning file] s t ∧ Hosted k t := by
  obtain ⟨t, entered, current, stage⟩ := leaves_does (g := g) v file (hosted.user idle) level
  have inKernel : t.stage t.current = .kernel v := by simp [stage, current]
  have mirrors : Mirrors k t := hosted.goes (by simp) (by simp) current stage
  obtain ⟨u, back, same, after⟩ : ∃ u, Does g [] t u ∧ u.current = t.current ∧
      u.stage = Function.update t.stage t.current .user :=
    ⟨_, .one (.leave inKernel) rfl fun _ => rfl, rfl, rfl⟩
  exact ⟨u, hosted.current ▸ entered.append back, mirrors.back idle same after⟩

theorem initPcb_top : ((initPcb shell).pcb 0).kernelStackTop = kstackTop 0 := by
  obtain ⟨_, _, same⟩ := initPcb_eq shell
  rw [same]
  change ((assignt shell 0 boot).pcb 0).kernelStackTop = _
  rw [assignt_top, if_pos rfl]

theorem Boot.hosted (boot : Boot g s₀) (first : s₀.current = 0) : Hosted (initPcb shell) s₀ := by
  have used : ∀ p, s₀.stage p ≠ .vacant ↔ p = 0 := by
    intro p
    by_cases zero : p = 0
    · simp [zero, ← first, boot.current]
    · simp [zero, boot.others p (first ▸ zero)]
  have running : (initPcb shell).currentRunning = 0 := initPcb_placed.current
  have same : (fun p => s₀.stage p ≠ .vacant) = (· = 0) := funext fun p => propext (used p)
  refine ⟨⟨same ▸ initPcb_placed, first.trans running.symm, fun _ _ => initPcb_idle, fun p live => ?_⟩,
    fun _ => boot.current, fun inside => absurd initPcb_idle inside⟩
  rw [(used p).mp live, initPcb_top]

/-- Every run of the kernel is one of the machine, which makes the same moves. User code always
goes on with the registers it had, or with those of `assign_task`. -/
theorem work_hosted (boot : Boot g s₀) (first : s₀.current = 0) {moves : List Move}
    (work : Work (initPcb shell) moves k) :
    ∃ es s, Runs g es s₀ s ∧ es.filterMap Event.move = moves ∧ Hosted k s ∧
      (k.kont k.currentRunning = .user → ∀ f ∈ saved,
        view s.cpu f = registers moves (atBoot g s₀).user k.currentRunning f) ∧
      ∀ p, s.stage p ≠ .vacant →
        s.cpu.mem (pcbAddress g p + kernelStackTop) = (k.pcb p).kernelStackTop := by
  obtain ⟨s, does, hosted⟩ : ∃ s, Does g moves s₀ s ∧ Hosted k s := by
    induction work with
    | start => exact ⟨s₀, .nothing g s₀, boot.hosted first⟩
    | step file work level step trace ih =>
      obtain ⟨s, does, hosted⟩ := ih
      obtain ⟨t, more, hosted⟩ :=
        hosted.step (does.displays ⟨_, boot.shows, rfl⟩) step trace level
      exact ⟨t, does.append more, hosted⟩
    | miss v file work level idle ih =>
      obtain ⟨s, does, hosted⟩ := ih
      obtain ⟨t, more, hosted⟩ := hosted.misses v level idle
      exact ⟨t, does.append more, hosted⟩
  obtain ⟨a, shows, isUsers⟩ := does.displays ⟨_, boot.shows, rfl⟩
  obtain ⟨es, runs, isMoves, -⟩ := does
  refine ⟨es, s, runs, isMoves, hosted, fun idle f member => ?_, fun p used => ?_⟩
  · rw [(shows.inUser (hosted.user idle)).1 f member, isUsers, hosted.current]
  · rw [shows.tops p used, hosted.tops p used]

/-- The timer takes the processor from the shell to the task it has spawned, and back. -/
theorem work_hosted_back : ∃ (es : List Event) (s : System), Runs bootSymbols es bootSystem s ∧
    s.current = 0 ∧ s.cpu.get 16 = 0x20 := by
  have run : ((execute 40 300 (.call (.spawn someTask)) (initPcb someTask)).any fun k₁ =>
      decide (k₁.trace = [.spawn 1, .spawn 0] ∧ k₁.currentRunning = 0) &&
        (execute 40 300 .timer k₁).any fun k₂ =>
          decide (k₂.trace = [.dispatch 1, .spawn 1, .spawn 0] ∧ k₂.currentRunning = 1) &&
            (execute 40 300 .timer k₂).any fun k₃ =>
              decide (k₃.trace = [.dispatch 0, .dispatch 1, .spawn 1, .spawn 0] ∧
                k₃.currentRunning = 0 ∧ k₃.kont 0 = .user)) = true := by decide
  simp only [Option.any_eq_true, Bool.and_eq_true, decide_eq_true_eq] at run
  obtain ⟨k₁, step₁, ⟨trace₁, turn₁⟩, k₂, step₂, ⟨trace₂, turn₂⟩, k₃, step₃, trace₃, turn₃, idle⟩ := run
  have start : (initPcb someTask).trace = [.spawn 0] := initPcb_trace
  have work₁ := Work.step (fun _ => 0x10) .start (by decide) ⟨40, 300, step₁⟩
    (show k₁.trace = [.spawn 1] ++ (initPcb someTask).trace by rw [trace₁, start]; rfl)
  have work₂ := Work.step (fun _ => 0x20) work₁ (by decide) ⟨40, 300, step₂⟩
    (show k₂.trace = [.dispatch 1] ++ k₁.trace by rw [trace₂, trace₁]; rfl)
  have work₃ := Work.step (fun _ => 0x40) work₂ (by decide) ⟨40, 300, step₃⟩
    (show k₃.trace = [.dispatch 0] ++ k₂.trace by rw [trace₃, trace₂]; rfl)
  obtain ⟨es, s, runs, -, hosted, found, -⟩ := work_hosted bootSystem_boot rfl work₃
  refine ⟨es, s, runs, hosted.current.trans turn₃, ?_⟩
  have registers := found (turn₃ ▸ idle) (.reg 16) (by decide)
  simpa [view, Field.read, Mips.registers, entering, moveOf, Move.registers, turn₁, turn₂, turn₃,
    returned, trapped, t0] using registers

end Tina.Mips
