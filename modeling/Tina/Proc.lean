import Tina.Sched

/-! `kernel/sched/proc.c` and `init_pcb`. -/
namespace Tina

open LinkedQueue

def kstackBase : Word := 0xa0f00000
def kstackSize : Word := 0x100000
def ustackBase : Word := 0x00400000
def ustackSize : Word := 0x400000

/-- `chan` is the one scheduling field that is not assigned. The saved contexts it
fills make the new process start in user code. -/
def assignTask (dest : Slot) (src : TaskInfo) (kstackTop ustackTop : Word) (k : Kernel) : Kernel :=
  let links := queuePush .ready (.pcb dest) k.links
  let links := queueInit (.waiting dest) (queueInit (.holding dest) links)
  (({ k with
    links := links
    processId := int32 (k.processId + 1)
    kont := Function.update k.kont dest .user }).setPcb dest
    { k.pcb dest with
      name := src.name, kernelStackTop := kstackTop, userStackTop := ustackTop,
      pid := k.processId, type := src.type, status := .embryo }).record (.spawn dest)

def assignt (src : TaskInfo) (i : Slot) (k : Kernel) : Kernel :=
  assignTask i src (kstackBase + BitVec.ofNat 32 i * kstackSize)
    (ustackBase + BitVec.ofNat 32 i * ustackSize) k

/-- The slot `spawn` takes: the first whose status is `TASK_EXITED`. -/
def freeSlot (k : Kernel) : Option Slot :=
  (List.finRange numMaxTask).find? fun i => (k.pcb i).status == .exited

def spawn (task : TaskInfo) (k : Kernel) : Kernel :=
  match freeSlot k with
  | some i => assignt task i k
  | none => k

/-- The process `kill` and `wait` mean by `id`. -/
def lookup (id : Int) (k : Kernel) : Option Slot :=
  (List.finRange numMaxTask).find? fun i =>
    (k.pcb i).pid == id && (k.pcb i).status != .exited

def kill (id : Int) (k : Kernel) : Kernel :=
  match lookup id k with
  | none => k
  | some i =>
    let k := (k.setPcb i { k.pcb i with status := .exited }).record (.kill i)
    match (k.pcb i).chan with
    | none => k
    | some chan =>
      { k with links := queuePush .ready (.pcb i) (queueRemove (.pcb 0) chan (.pcb i) k.links).2 }

def wait (fuel : Nat) (clk : Word) (id : Int) (k : Kernel) : Option Kernel :=
  match lookup id k with
  | none => some k
  | some i =>
    if k.current.pid = id then some k
    else doBlock fuel clk (.waiting i) .user k

/-- The cleared memory the kernel starts in, after `init_variables`. -/
def boot : Kernel where
  links := ⟨fun _ => none, fun _ => none, fun _ => none, fun _ => none⟩
  pcb := fun _ => ⟨0, 0, 0, .kernelProcess, .embryo, 0, 0, 0, none, 0⟩
  lock := fun _ => .unlocked
  count := fun _ => 0
  barrier := fun _ => ⟨0, 0⟩
  currentRunning := 0
  processId := 1
  timeElapsed := 0
  screenCursorX := 0
  screenCursorY := 0
  kont := fun _ => .user
  trace := []

/-- The loop of `init_pcb` and the `assign_task` before it. -/
def fillPcb (shell : TaskInfo) : Kernel :=
  let k := assignt shell 0 { boot with links := queueInit .ready boot.links }
  { k with pcb := fun i => if i = 0 then k.pcb i else { k.pcb i with status := .exited } }

def initPcb (shell : TaskInfo) : Kernel :=
  match queueDequeue .ready (fillPcb shell).links with
  | (some (.pcb p), links) => { fillPcb shell with links := links, currentRunning := p }
  | _ => fillPcb shell

end Tina
