import Tina.Switch

/-! What a process finds after a trap, after a `*_sched` of its own and after it was spawned,
whatever the others did with the processor in between. -/
namespace Tina.Mips

open Layout

variable {g : Symbols} {s s₀ t : System} {a : Private} {e : Event} {es es₀ : List Event}
  {p q next dest : Slot} {f : Field} {v : Vector} {file : Field → Word} {w entryPoint status : Word}

/-- `_start` has assigned the first PCB and goes on as the first process; the other PCBs are free. -/
structure Boot (g : Symbols) (s : System) : Prop where
  pointed : s.cpu.mem g.currentRunning = pointer g s.current
  stack : s.cpu.mem (pcbAddress g s.current + kernelStackTop) = kstackTop s.current
  current : s.stage s.current = .user
  others : ∀ p, p ≠ s.current → s.stage p = .vacant
  level : s.cpu.cp0 .status &&& exl = 0

/-- What each process has then. -/
def atBoot (g : Symbols) (s : System) : Private where
  user p := if p = s.current then view s.cpu else returned (context g s.cpu p user)
  kernel p := context g s.cpu p kernel

theorem Boot.shows (boot : Boot g s) : Shows g s (atBoot g s) where
  pointed := boot.pointed
  alone p other := by
    rw [boot.others p other]
    trivial
  present := by simp [boot.current, Stage.Away]
  inUser _ := ⟨fun f _ => by simp [atBoot], boot.level⟩
  outOfUser p outside f _ := by
    have other : p ≠ s.current := fun same => outside (same ▸ boot.current)
    simp [atBoot, other]
  inKernel w stage := by simp [boot.current] at stage
  outOfKernel p _ f _ := rfl
  starting stage := by simp [boot.current] at stage
  born p stage := by
    by_cases same : p = s.current
    · simp [same, boot.current] at stage
    · simp [boot.others p same] at stage
  masked p w stage := by
    by_cases same : p = s.current
    · simp [same, boot.current] at stage
    · simp [boot.others p same] at stage
  tops p used := by
    by_cases same : p = s.current
    · rw [same, boot.stack]
    · exact absurd (boot.others p same) used

/-- Whoever has the processor has its own registers in it, the others have theirs in their
contexts; handlers run with interrupts disabled, and so `embryo_start` is entered. -/
theorem own_registers (boot : Boot g s₀) (runs : Runs g es s₀ s) :
    let a := (atBoot g s₀).run g es
    (s.stage s.current = .user → ∀ f ∈ saved, view s.cpu f = a.user s.current f) ∧
    (∀ v, s.stage s.current = .kernel v →
      (∀ f ∈ saved, f.read s.cpu = a.kernel s.current f) ∧ s.cpu.cp0 .status &&& 0x01 = 0) ∧
    (s.stage s.current = .starting →
      s.cpu.pc = g.embryoStart ∧ s.cpu.cp0 .status &&& 0x01 = 0) ∧
    (∀ p, p ≠ s.current → (s.stage p).Away ∧ ∀ f ∈ saved,
      returned (context g s.cpu p user) f = a.user p f ∧
      context g s.cpu p kernel f = a.kernel p f) := by
  intro a
  have shows : Shows g s a := boot.shows.run runs
  refine ⟨fun stage => (shows.inUser stage).1, fun v stage => ?_, fun stage => ?_,
    fun p other => ?_⟩
  · have registers := shows.inKernel v stage
    refine ⟨registers, ?_⟩
    have status := registers .status (by decide)
    rw [Field.read] at status
    rw [status]
    exact shows.masked s.current v (.inl stage)
  · obtain ⟨pc, status⟩ := shows.starting stage
    rw [status]
    exact ⟨pc, by decide⟩
  · have away := shows.alone p other
    have outside : s.stage p ≠ .user := by
      intro stage
      simp [stage, Stage.Away] at away
    exact ⟨away, fun f member => ⟨shows.outOfUser p outside f member,
      shows.outOfKernel p other f member⟩⟩

theorem Runs.append {es' : List Event} {u : System} (first : Runs g es s t)
    (second : Runs g es' t u) : Runs g (es ++ es') s u := by
  induction first with
  | nil => exact second
  | cons step _ ih => exact .cons step (ih second)

/-- PCBs from `0x1000` on, in a memory that has the same word everywhere else. -/
def bootSymbols : Symbols where
  pcb := 0x1000
  currentRunning := 0
  embryoStart := 0x400
  inside := by decide
  apart := .inl (by decide)

def bootSystem : System where
  cpu := {
    reg := fun r => BitVec.ofNat 32 r
    hi := 0
    lo := 0
    cp0 := fun _ => 0xff01
    pc := 0x800
    mem := fun a => if a = 0 then pointer bootSymbols 0 else kstackTop 0 }
  stage p := if p = 0 then .user else .vacant
  current := 0

theorem bootSystem_boot : Boot bootSymbols bootSystem := by
  refine ⟨rfl, by decide, rfl, fun p other => if_neg other, by decide⟩

/-- A `scheduler` that stores nothing but its choice. -/
def handOver (g : Symbols) (s : System) (next : Slot) : System :=
  { cpu := run (schedReturn g) ((run (schedCall g 3) s.cpu).store g.currentRunning (pointer g next))
    stage :=
      let parked := Function.update s.stage s.current (s.stage s.current).park
      Function.update parked next (parked next).resume
    current := next }

theorem handOver_step (inKernel : s.stage s.current = .kernel v)
    (waits : next = s.current ∨ (s.stage next).Waits) :
    Step g s ⟨s.current, .switch 3 next⟩ (handOver g s next) := by
  refine .switch 3 next inKernel waits (fun a guarded => ?_) ?_
  · obtain ⟨p, k, inside, rfl⟩ := guarded
    have other : pcbAddress g p + k ≠ g.currentRunning :=
      (pcbAddress_symbol (Nat.lt_trans inside (by decide))).symm
    simp [other]
  · simp

/-- The first process spawns a second one. -/
theorem spawning : ∃ s t, Runs bootSymbols [⟨0, .trap .exception⟩] bootSystem s ∧
    Step bootSymbols s ⟨0, .spawn 1 0x900⟩ t ∧ t.current = 0 ∧ t.stage 0 = .kernel .exception ∧
    t.stage 1 = .embryo :=
  ⟨_, _, .cons (.trap .exception rfl) .nil, .spawn 1 0x900 rfl, rfl, rfl, rfl⟩

/-- It is the turn of the second one. -/
theorem visiting (before : Runs bootSymbols es bootSystem s) (here : s.current = 0)
    (inKernel : s.stage 0 = .kernel v) (embryo : s.stage 1 = .embryo) :
    ∃ t, Runs bootSymbols [⟨0, .switch 3 1⟩, ⟨1, .start⟩] s t ∧ t.current = 1 ∧
      t.stage 1 = .user ∧ t.stage 0 = .parked v := by
  have first : Step bootSymbols s ⟨0, .switch 3 1⟩ (handOver bootSymbols s 1) := by
    have step := @handOver_step bootSymbols s 1 v
      (by rw [here, inKernel]) (.inr (by rw [embryo]; trivial))
    rw [here] at step
    exact step
  have starting : (handOver bootSymbols s 1).stage 1 = .starting := by
    simp [handOver, here, embryo, Stage.resume]
  have shown := bootSystem_boot.shows.run (before.append (.cons first .nil))
  have pc := (shown.starting starting).1
  exact ⟨_, .cons first (.cons (.start starting pc) .nil), rfl, by simp [handOver],
    by simp [handOver, here, inKernel, Stage.park]⟩

theorem own_registers_visiting : ∃ s : System, s.current = 1 ∧ view s.cpu .epc = 0x900 ∧
    context bootSymbols s.cpu 0 kernel (.reg sp) = kstackTop 0 := by
  obtain ⟨s, t, before, spawn, here, inKernel, embryo⟩ := spawning
  obtain ⟨u, runs, turn, running, -⟩ :=
    visiting (before.append (.cons spawn .nil)) here inKernel embryo
  have run := (before.append (.cons spawn .nil)).append runs
  obtain ⟨inUser, -, -, others⟩ := own_registers bootSystem_boot run
  refine ⟨u, turn, ?_, ?_⟩
  · exact (inUser (turn ▸ running) .epc (by decide)).trans (by rw [turn]; rfl)
  · exact ((others 0 (by rw [turn]; decide)).2 (.reg sp) (by decide)).2.trans (by rfl)

/-! A trap. -/

/-- No user code of `p`, and nobody new in its PCB. -/
def Event.Within (p : Slot) (e : Event) : Prop :=
  match e.act with
  | .user _ | .trap _ => e.actor ≠ p
  | .spawn dest _ => dest ≠ p
  | _ => True

/-- How often the kernel moves a process past an instruction. -/
def skips (p : Slot) : List Event → Nat
  | [] => 0
  | e :: es =>
    match e.act with
    | .epcPlus4 => skips p es + if e.actor = p then 1 else 0
    | _ => skips p es

/-- The last value that the kernel returns to a process. -/
def answer (p : Slot) : List Event → Word → Word
  | [], w => w
  | e :: es, w =>
    match e.act with
    | .returnInt v => answer p es (if e.actor = p then v else w)
    | _ => answer p es w

/-- What the kernel makes of the registers of a process that is not in user code. -/
def amended (p : Slot) (es : List Event) (file : Field → Word) (f : Field) : Word :=
  if f = .epc then file .epc + BitVec.ofNat 32 (4 * skips p es)
  else if f = .reg v0 then answer p es (file (.reg v0))
  else file f

theorem amended_cons (within : e.Within p) :
    amended p (e :: es) (a.user p) = amended p es ((a.step g e).user p) := by
  obtain ⟨q, act⟩ := e
  funext f
  cases act with
  | epcPlus4 =>
    by_cases same : q = p
    · subst same
      by_cases isEpc : f = .epc
      · have count : (4 : Nat) * (skips q es + 1) = 4 + 4 * skips q es := by omega
        simp [amended, skips, Private.step, isEpc, count, BitVec.ofNat_add, BitVec.add_assoc]
      · simp [amended, answer, Private.step, isEpc]
    · simp [amended, skips, answer, Private.step, same, Ne.symm same]
  | returnInt w =>
    by_cases same : q = p
    · subst same
      simp [amended, skips, answer, Private.step]
      split <;> simp_all
    · simp [amended, skips, answer, Private.step, same, Ne.symm same]
  | user file | trap v =>
    have other : p ≠ q := Ne.symm within
    simp [amended, skips, answer, Private.step, other]
  | spawn dest entryPoint =>
    have other : p ≠ dest := Ne.symm within
    simp [amended, skips, answer, Private.step, other]
  | kernel file | switch status next | start | leave =>
    simp [amended, skips, answer, Private.step]

theorem run_within (within : ∀ e ∈ es, e.Within p) :
    (a.run g es).user p = amended p es (a.user p) := by
  induction es generalizing a with
  | nil =>
    funext f
    simp [Private.run, amended, skips, answer]
    split <;> simp_all
  | cons e es ih =>
    rw [Private.run, ih fun d member => within d (List.mem_cons_of_mem e member),
      amended_cons (within e List.mem_cons_self)]

/-- User code that took a trap goes on, whatever happened in between, with the registers it had;
only what the system call returned, the place, `t0` and the interrupt bits of `STATUS` are
the kernel's. -/
theorem exception_returns (boot : Boot g s₀) (before : Runs g es₀ s₀ s)
    (runs : Runs g (⟨p, .trap v⟩ :: es) s t) (within : ∀ e ∈ es, e.Within p)
    (turn : t.current = p) (again : t.stage p = .user) :
    (∀ f ∈ saved, f ≠ .reg t0 → f ≠ .status → f ≠ .epc → f ≠ .reg v0 → f.read t.cpu = f.read s.cpu) ∧
      t.cpu.pc = s.cpu.pc + BitVec.ofNat 32 (4 * skips p es) ∧
      t.cpu.get v0 = answer p es (s.cpu.get v0) ∧
      t.cpu.get t0 = trapStatus (s.cpu.cp0 .status) ||| 0x01 ∧
      t.cpu.cp0 .status = eretStatus (trapStatus (s.cpu.cp0 .status)) := by
  have shown := boot.shows.run before
  have shownAfter := shown.run runs
  obtain ⟨b, isB⟩ : ∃ b, (atBoot g s₀).run g es₀ = b := ⟨_, rfl⟩
  rw [isB] at shown shownAfter
  obtain ⟨isUser, here⟩ : s.stage s.current = .user ∧ s.current = p := by
    cases runs with
    | cons step _ => cases step with | trap _ inUser => exact ⟨inUser, rfl⟩
  have file : ∀ f ∈ saved, view s.cpu f = b.user p f := here ▸ (shown.inUser isUser).1
  have found : ∀ f ∈ saved, view t.cpu f = amended p es (returned (trapped (view s.cpu))) f := by
    intro f member
    have reached := (shownAfter.inUser (turn ▸ again)).1 f member
    rw [turn, Private.run, run_within within] at reached
    rw [reached]
    have same : ∀ e ∈ saved, returned (trapped (view s.cpu)) e = returned (trapped (b.user p)) e :=
      returned_congr (trapped_congr file)
    simp [amended, Private.step, same f member, same .epc (by decide), same (.reg v0) (by decide)]
  refine ⟨fun f member notT0 notStatus notEpc notV0 => ?_, ?_, ?_, ?_, ?_⟩
  · have reached := found f member
    simpa [view, amended, returned, trapped, notT0, notStatus, notEpc, notV0] using reached
  · simpa [view, amended, returned, trapped] using found .epc (by decide)
  · have notT0 : v0 ≠ t0 := by decide
    simpa [view, amended, returned, trapped, notT0, Field.read] using found (.reg v0) (by decide)
  · have notV0 : t0 ≠ v0 := by decide
    simpa [view, amended, returned, trapped, notV0, Field.read] using found (.reg t0) (by decide)
  · simpa [view, amended, returned, trapped, Field.read] using found .status (by decide)

theorem exception_returns_call : ∃ t : System,
    t.cpu.pc = bootSystem.cpu.pc + 0x4 ∧ t.cpu.get v0 = 0x7 := by
  have run : Runs bootSymbols [⟨0, .trap .exception⟩, ⟨0, .epcPlus4⟩, ⟨0, .returnInt 0x7⟩,
      ⟨0, .leave⟩] bootSystem _ :=
    .cons (.trap .exception rfl) (.cons (.epcPlus4 rfl) (.cons (.returnInt 0x7 rfl)
      (.cons (.leave rfl) .nil)))
  obtain ⟨-, pc, value, -⟩ := exception_returns bootSystem_boot .nil run
    (by simp [Event.Within]) rfl rfl
  exact ⟨_, pc, value⟩

/-! A `*_sched`. -/

theorem Step.actor (step : Step g s e t) : e.actor = s.current := by
  cases step <;> rfl

/-- `p` waits in a `*_sched`, or has just come back from it. -/
structure Back (p : Slot) (v : Vector) (s : System) : Prop where
  here : s.current = p → s.stage p = .kernel v ∧ s.cpu.pc = s.cpu.get ra
  away : s.current ≠ p → s.stage p = .parked v

theorem Back.leaving (step : Step g s ⟨p, .switch status next⟩ t) :
    ∃ v, s.stage p = .kernel v ∧ Back p v t := by
  cases step with
  | @switch c v _ _ inKernel waits memory pointed =>
    obtain ⟨loaded, -, jumped⟩ := run_schedReturn pointed
    refine ⟨v, inKernel, fun turn => ?_, fun other => ?_⟩
    · simp only at turn
      subst turn
      exact ⟨by simp [inKernel, Stage.park, Stage.resume],
        jumped.trans (loaded (.reg ra) (by decide)).symm⟩
    · simp [Ne.symm other, inKernel, Stage.park]

/-- Only `scheduler` gives the processor back, and it comes with the jump at the end. -/
theorem Back.step (back : Back p v s) (step : Step g s e t) (other : e.actor ≠ p)
    (kept : ∀ entryPoint, e.act ≠ .spawn p entryPoint) : Back p v t := by
  have away : s.current ≠ p := step.actor ▸ other
  have parked := back.away away
  cases step with
  | user | kernel | epcPlus4 | returnInt => exact ⟨fun turn => absurd turn away, fun _ => parked⟩
  | trap | start | leave =>
    exact ⟨fun turn => absurd turn away, fun _ => by simp [Ne.symm away, parked]⟩
  | spawn dest entryPoint inKernel =>
    have notMine : p ≠ dest := fun same => kept entryPoint (by rw [same])
    refine ⟨fun turn => absurd turn away, fun _ => ?_⟩
    simp only
    split
    · exact parked
    · simp [notMine, parked]
  | switch status next inKernel waits memory pointed =>
    obtain ⟨loaded, -, jumped⟩ := run_schedReturn pointed
    refine ⟨fun turn => ?_, fun other => ?_⟩
    · simp only at turn
      subst turn
      exact ⟨by simp [Ne.symm away, parked, Stage.resume],
        jumped.trans (loaded (.reg ra) (by decide)).symm⟩
    · simp [Ne.symm other, Ne.symm away, parked]

theorem Back.run (back : Back p v s) (runs : Runs g es s t)
    (others : ∀ e ∈ es, e.actor ≠ p ∧ ∀ entryPoint, e.act ≠ .spawn p entryPoint) :
    Back p v t := by
  induction runs with
  | nil => exact back
  | cons step _ ih =>
    obtain ⟨other, kept⟩ := others _ List.mem_cons_self
    exact ih (back.step step other kept) fun d member => others d (List.mem_cons_of_mem _ member)

theorem kernel_kept (other : e.actor ≠ p) (kept : ∀ entryPoint, e.act ≠ .spawn p entryPoint) :
    (a.step g e).kernel p = a.kernel p := by
  obtain ⟨q, act⟩ := e
  cases act with
  | spawn dest entryPoint =>
    have notMine : p ≠ dest := fun same => kept entryPoint (by rw [same])
    simp only [Private.step]
    split <;> simp [notMine]
  | user | kernel | trap | epcPlus4 | returnInt | switch | start | leave =>
    simp [Private.step, Ne.symm other]

theorem run_kernel_kept
    (others : ∀ e ∈ es, e.actor ≠ p ∧ ∀ entryPoint, e.act ≠ .spawn p entryPoint) :
    (a.run g es).kernel p = a.kernel p := by
  induction es generalizing a with
  | nil => rfl
  | cons e es ih =>
    obtain ⟨other, kept⟩ := others e List.mem_cons_self
    rw [Private.run, ih fun d member => others d (List.mem_cons_of_mem e member),
      kernel_kept other kept]

/-- Kernel code that gave the processor away goes on behind its call with the registers and the
`STATUS` it had, when it is chosen again. -/
theorem switch_returns (boot : Boot g s₀) (before : Runs g es₀ s₀ s)
    (runs : Runs g (⟨p, .switch status next⟩ :: es) s t)
    (others : ∀ e ∈ es, e.actor ≠ p ∧ ∀ entryPoint, e.act ≠ .spawn p entryPoint)
    (turn : t.current = p) :
    (∀ f ∈ saved, f.read t.cpu = f.read s.cpu) ∧ t.cpu.pc = s.cpu.get ra ∧
      t.stage p = s.stage p := by
  have shown := boot.shows.run before
  have shownAfter := shown.run runs
  obtain ⟨b, isB⟩ : ∃ b, (atBoot g s₀).run g es₀ = b := ⟨_, rfl⟩
  rw [isB] at shown shownAfter
  obtain ⟨v, here, isKernel, back⟩ : ∃ v, s.current = p ∧ s.stage p = .kernel v ∧ Back p v t := by
    cases runs with
    | cons step rest =>
      obtain ⟨v, isKernel, back⟩ := Back.leaving step
      exact ⟨v, step.actor.symm, isKernel, back.run rest others⟩
  obtain ⟨again, pc⟩ := back.here turn
  have registers : ∀ f ∈ saved, f.read t.cpu = f.read s.cpu := by
    intro f member
    have mine := shownAfter.inKernel v (turn ▸ again) f member
    rw [turn, Private.run, run_kernel_kept others] at mine
    rw [mine, shown.inKernel v (here ▸ isKernel) f member, here]
    rfl
  exact ⟨registers, pc.trans (registers (.reg ra) (by decide)), again.trans isKernel.symm⟩

theorem switch_returns_visit : ∃ s t : System, s.stage 1 = .embryo ∧
    t.stage 1 = .parked .exception ∧ t.cpu.pc = s.cpu.get ra ∧ t.cpu.get sp = s.cpu.get sp := by
  obtain ⟨_, s, before, spawn, here, inKernel, embryo⟩ := spawning
  obtain ⟨u, runs, turn, running, parked⟩ :=
    visiting (before.append (.cons spawn .nil)) here inKernel embryo
  obtain ⟨w, run, isKernel, waits, now⟩ : ∃ w, Runs bootSymbols [⟨1, .trap .exception⟩] u w ∧
      w.stage 1 = .kernel .exception ∧ w.stage 0 = .parked .exception ∧ w.current = 1 := by
    have step : Step bootSymbols u ⟨u.current, .trap .exception⟩ _ :=
      .trap .exception (by rw [turn, running])
    rw [turn] at step
    exact ⟨_, .cons step .nil, by simp, by simp [parked], rfl⟩
  have last : Step bootSymbols w ⟨1, .switch 3 0⟩ (handOver bootSymbols w 0) := by
    have step := @handOver_step bootSymbols w 0 .exception
      (by rw [now, isKernel]) (.inr (by rw [waits]; trivial))
    rw [now] at step
    exact step
  obtain ⟨registers, pc, -⟩ := switch_returns bootSystem_boot (before.append (.cons spawn .nil))
    (runs.append (run.append (.cons last .nil))) (by simp) rfl
  refine ⟨s, _, embryo, ?_, pc, registers (.reg sp) (by decide)⟩
  simp [handOver, now, isKernel, Stage.park]

/-! A new process. -/

theorem user_kept (own : e.actor = p → e.act = .start)
    (kept : ∀ entryPoint, e.act ≠ .spawn p entryPoint) : (a.step g e).user p = a.user p := by
  obtain ⟨q, act⟩ := e
  cases act with
  | spawn dest entryPoint =>
    have notMine : p ≠ dest := fun same => kept entryPoint (by rw [same])
    simp [Private.step, notMine]
  | user | trap | epcPlus4 | returnInt =>
    have other : p ≠ q := by
      intro same
      cases own same.symm
    simp [Private.step, other]
  | kernel | switch | start | leave => rfl

theorem run_user_kept (kept : ∀ e ∈ es, (e.actor = p → e.act = .start) ∧
    ∀ entryPoint, e.act ≠ .spawn p entryPoint) : (a.run g es).user p = a.user p := by
  induction es generalizing a with
  | nil => rfl
  | cons e es ih =>
    obtain ⟨own, notMine⟩ := kept e List.mem_cons_self
    rw [Private.run, ih fun d member => kept d (List.mem_cons_of_mem e member),
      user_kept own notMine]

/-- The first instruction of a spawned process is at its entry point, on its own stack, with
interrupts enabled; its kernel stack is ready for the first trap. -/
theorem spawn_starts (boot : Boot g s₀) (before : Runs g es₀ s₀ s)
    (runs : Runs g (⟨q, .spawn p entryPoint⟩ :: es) s t)
    (kept : ∀ e ∈ es, (e.actor = p → e.act = .start) ∧ ∀ other, e.act ≠ .spawn p other)
    (turn : t.current = p) (running : t.stage p = .user) :
    t.cpu.pc = entryPoint ∧ t.cpu.get sp = ustackTop p ∧ t.cpu.get ra = entryPoint ∧
      t.cpu.cp0 .status = 0xff01 ∧
      t.cpu.mem (pcbAddress g p + kernelStackTop) = kstackTop p := by
  have shown := (boot.shows.run before).run runs
  have file := (shown.inUser (turn ▸ running)).1
  rw [turn, Private.run, run_user_kept kept] at file
  simp only [Private.step, Function.update_self] at file
  refine ⟨?_, ?_, ?_, ?_, shown.tops p (by simp [running])⟩
  · simpa [view, returned, assigned, startUser] using file .epc (by decide)
  · simpa [view, returned, assigned, startUser, Field.read, sp, t0, ra] using
      file (.reg sp) (by decide)
  · simpa [view, returned, assigned, startUser, Field.read, sp, t0, ra] using
      file (.reg ra) (by decide)
  · have status : t.cpu.cp0 .status = eretStatus 0xff01 := by
      simpa [view, returned, assigned, startUser, Field.read, sp, ra] using file .status (by decide)
    rw [status]
    decide

theorem spawn_starts_second : ∃ t : System, t.cpu.pc = 0x900 ∧ t.cpu.get sp = ustackTop 1 := by
  obtain ⟨s, t, before, spawn, here, inKernel, embryo⟩ := spawning
  obtain ⟨u, runs, turn, running, -⟩ :=
    visiting (before.append (.cons spawn .nil)) here inKernel embryo
  obtain ⟨pc, stack, -⟩ := spawn_starts bootSystem_boot before (.cons spawn runs) (by simp) turn
    running
  exact ⟨u, pc, stack⟩

end Tina.Mips
