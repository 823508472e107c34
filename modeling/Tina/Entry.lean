import Tina.Layout
import Tina.Mips
import Tina.Proc
import Tina.SaveArea

/-! `regs.h` and the routines of `arch/mips/kernel/entry.S`, and what each of them does to the
processor and to the contexts in the PCBs. -/
namespace Tina.Mips

open SaveArea Layout

/-- What a context holds. -/
inductive Field where
  | reg (r : Reg)
  | status | hi | lo | epc
  deriving DecidableEq, Repr

/-- The offsets of `regs.h`. -/
def Field.offset : Field → Nat
  | .reg r => 4 * r
  | .status => 128
  | .hi => 132
  | .lo => 136
  | .epc => 148

def offsetEntryhi : Nat := 152
def offsetSize : Nat := 156

def kernel : Nat := 0
def user : Nat := kernel + offsetSize
def kernelStackTop : Nat := kernel + 2 * offsetSize
def userStackTop : Nat := kernelStackTop + 4

/-- What the processor has for a field. -/
def Field.read : Field → Cpu → Word
  | .reg r, c => c.get r
  | .status, c => c.cp0 .status
  | .hi, c => c.hi
  | .lo, c => c.lo
  | .epc, c => c.cp0 .epc

/-- All but `k0` and `k1`. -/
def savedRegs : List Reg :=
  [1, 2, 3, 4, 5, 6, 7, 8, 9, 10, 11, 12, 13, 14, 15, 16, 17, 18, 19, 20, 21, 22, 23, 24, 25, 28,
    29, 30, 31]

def saved : List Field := savedRegs.map .reg ++ [.status, .hi, .lo, .epc]

/-- The lines of `SAVE_CONTEXT` for one field. -/
def Field.save (offset : Nat) (f : Field) : List Instr :=
  let store := Instr.sw k1 k0 (offset + f.offset)
  match f with
  | .reg r => [.sw r k0 (offset + f.offset)]
  | .status => [.mfc0 k1 .status, store]
  | .hi => [.mfhi k1, store]
  | .lo => [.mflo k1, store]
  | .epc => [.mfc0 k1 .epc, store]

/-- The lines of `RESTORE_CONTEXT` for one field. -/
def Field.restore (offset : Nat) (f : Field) : List Instr :=
  let load := Instr.lw k1 k0 (offset + f.offset)
  match f with
  | .reg r => [.lw r k0 (offset + f.offset)]
  | .status => [load, .mtc0 k1 .status]
  | .hi => [load, .mthi k1]
  | .lo => [load, .mtlo k1]
  | .epc => [load, .mtc0 k1 .epc]

/-- Where the linker puts the variables that `entry.S` names, and `embryo_start`. The PCBs do not
reach beyond the address space, and `current_running` is not among them. -/
structure Symbols where
  pcb : Nat
  currentRunning : Nat
  embryoStart : Word
  inside : pcb + numMaxTask * sizeofPcb ≤ 2 ^ 32
  apart : currentRunning < pcb ∨ pcb + numMaxTask * sizeofPcb ≤ currentRunning

variable (g : Symbols)

def sti : List Instr := [.mfc0 t0 .status, .ori t0 t0 0x01, .mtc0 t0 .status]

def cli : List Instr := [.mfc0 t0 .status, .andi t0 t0 0xfffe, .mtc0 t0 .status]

def saveContext (offset : Nat) : List Instr :=
  .lwSym k0 g.currentRunning :: saved.flatMap (Field.save offset)

def restoreContext (offset : Nat) : List Instr :=
  .lwSym k0 g.currentRunning :: saved.flatMap (Field.restore offset)

def swtchToK : List Instr := [.lwSym k0 g.currentRunning, .lw sp k0 kernelStackTop]

/-- `run_sched`, `block_sched`, `sleep_sched` and `exit_sched` up to their call of `scheduler`;
they differ in the status they pass. -/
def schedCall (status : Word) : List Instr := saveContext g kernel ++ [.li a1 status]

/-- Their rest. -/
def schedReturn : List Instr := restoreContext g kernel ++ [.jr ra]

def runSched : List Instr := schedCall g 3
def blockSched : List Instr := schedCall g 2
def sleepSched : List Instr := schedCall g 1
def exitSched : List Instr := schedCall g 5

/-- `exception_handler_entry` and `TLBexception_handler_entry`. -/
inductive Vector where
  | exception | tlb
  deriving DecidableEq, Repr

/-- Up to the call of the handler. -/
def Vector.entry : Vector → List Instr
  | .exception => cli ++ saveContext g user ++
      [.mfc0 k1 .entryhi, .sw k1 k0 (user + offsetEntryhi)] ++ swtchToK g
  | .tlb => cli ++ saveContext g user ++ swtchToK g

/-- From the return of the handler. -/
def Vector.exit : Vector → List Instr
  | .exception => restoreContext g user ++
      [.lw k1 k0 (user + offsetEntryhi), .mtc0 k1 .entryhi] ++ sti ++ [.eret]
  | .tlb => restoreContext g user ++ sti ++ [.eret]

def embryoStart : List Instr := restoreContext g user ++ sti ++ [.eret]

def userEpcPlus4 : List Instr :=
  [.lwSym k0 g.currentRunning, .lw k1 k0 (user + Field.epc.offset), .addi k1 k1 0x4,
    .sw k1 k0 (user + Field.epc.offset)]

def returnInt32 : List Instr :=
  [.lwSym k0 g.currentRunning, .sw a0 k0 (user + (Field.reg v0).offset)]

variable {g : Symbols} {c : Cpu} {f : Field} {fs : List Field} {offset : Nat} {v : Word}

/-- Where a field of the context at `offset` in the PCB at `base` lies. -/
def place (base : Word) (offset : Nat) (f : Field) : Nat :=
  (base + BitVec.ofNat 32 (offset + f.offset)).toNat

/-- A field that a context switch may go through: not the two registers it works with. -/
def Field.Plain (f : Field) : Prop := f ≠ .reg 0 ∧ f ≠ .reg k0 ∧ f ≠ .reg k1

theorem saved_plain : ∀ f ∈ saved, f.Plain := by
  unfold Field.Plain
  decide

theorem Field.read_set {r : Reg} (other : f ≠ .reg r) : f.read (c.set r v) = f.read c := by
  cases f with
  | reg q => exact Cpu.get_set_other fun same => other (by rw [same])
  | status | hi | lo | epc => simp [Field.read]

theorem Field.read_store {address : Nat} : f.read (c.store address v) = f.read c := by
  cases f <;> rfl

/-- One field goes to its place; otherwise only `k1` is used. -/
theorem Field.run_save (plain : f.Plain) : ∃ w, run (f.save offset) c =
    (c.set k1 w).store (place (c.get k0) offset f) (f.read c) := by
  have nonzero : k1 ≠ 0 := by decide
  have base : ∀ w, (c.set k1 w).get k0 = c.get k0 := fun w => Cpu.get_set_other (by decide)
  cases f with
  | reg r =>
    refine ⟨c.get k1, ?_⟩
    have same : c.set k1 (c.get k1) = c := by
      rw [Cpu.set, Cpu.get, if_neg nonzero, if_neg nonzero, Function.update_eq_self]
    rw [same]
    rfl
  | status => exact ⟨_, by simp only [Field.save, run_cons, run_nil, Instr.step, base,
      Cpu.get_set_self nonzero]; rfl⟩
  | hi => exact ⟨_, by simp only [Field.save, run_cons, run_nil, Instr.step, base,
      Cpu.get_set_self nonzero]; rfl⟩
  | lo => exact ⟨_, by simp only [Field.save, run_cons, run_nil, Instr.step, base,
      Cpu.get_set_self nonzero]; rfl⟩
  | epc => exact ⟨_, by simp only [Field.save, run_cons, run_nil, Instr.step, base,
      Cpu.get_set_self nonzero]; rfl⟩

/-- What saving a list of fields leaves: `k1` may have changed, and the memory at their places. -/
structure Spilled (offset : Nat) (fs : List Field) (c c' : Cpu) : Prop where
  mem : c'.mem = spill (place (c.get k0) offset) (fun f => f.read c) fs c.mem
  read : ∀ f : Field, f ≠ .reg k1 → f.read c' = f.read c
  cp0 : c'.cp0 = c.cp0
  pc : c'.pc = c.pc

theorem run_saves (plain : ∀ f ∈ fs, f.Plain) :
    Spilled offset fs c (run (fs.flatMap (Field.save offset)) c) := by
  induction fs generalizing c with
  | nil => exact ⟨rfl, fun _ _ => rfl, rfl, rfl⟩
  | cons f fs ih =>
    obtain ⟨w, first⟩ := @Field.run_save c f offset (plain f List.mem_cons_self)
    have kept : ∀ e : Field, e ≠ .reg k1 → e.read
        ((c.set k1 w).store (place (c.get k0) offset f) (f.read c)) = e.read c := by
      intro e other
      rw [Field.read_store, Field.read_set other]
    have base : ((c.set k1 w).store (place (c.get k0) offset f) (f.read c)).get k0 = c.get k0 := by
      rw [Cpu.store_get, Cpu.get_set_other (by decide)]
    have rest := ih (c := (c.set k1 w).store (place (c.get k0) offset f) (f.read c))
      fun e member => plain e (List.mem_cons_of_mem f member)
    rw [List.flatMap_cons, run_append, first]
    constructor
    · have values : ∀ e ∈ fs, e.read ((c.set k1 w).store (place (c.get k0) offset f) (f.read c)) =
          e.read c := fun e member => kept e (plain e (List.mem_cons_of_mem f member)).2.2
      rw [rest.mem, spill_cons, spill_congr values]
      rw [base, Cpu.store_mem, Cpu.set_mem]
    · intro e other
      rw [rest.read e other, kept e other]
    · rw [rest.cp0, Cpu.store_cp0, Cpu.set_cp0]
    · rw [rest.pc, Cpu.store_pc, Cpu.set_pc]

/-- What loading a list of fields leaves: they have the values of the memory, the others and the
memory are as before. -/
structure Loaded (base : Word) (offset : Nat) (fs : List Field) (c c' : Cpu) : Prop where
  loaded : ∀ f ∈ fs, f.read c' = c.mem (place base offset f)
  read : ∀ f : Field, f ∉ fs → f ≠ .reg k1 → f.read c' = f.read c
  entryhi : c'.cp0 .entryhi = c.cp0 .entryhi
  mem : c'.mem = c.mem
  pc : c'.pc = c.pc

theorem Field.run_restore (plain : f.Plain) :
    Loaded (c.get k0) offset [f] c (run (f.restore offset) c) := by
  have nonzero : k1 ≠ 0 := by decide
  cases f with
  | reg r =>
    have regNonzero : r ≠ 0 := fun same => plain.1 (by rw [same])
    constructor
    · rintro _ (_ | ⟨_, ⟨⟩⟩)
      exact Cpu.get_set_self regNonzero
    · intro e other _
      exact Field.read_set fun same => other (by simp [same])
    all_goals simp [Field.restore, Instr.step]
  | status | hi | lo | epc =>
    constructor
    · rintro _ (_ | ⟨_, ⟨⟩⟩)
      simp [Field.restore, Instr.step, Field.read, Cpu.get_set_self nonzero, place]
    · intro e other notK1
      cases e with
      | reg q =>
        have apart : q ≠ k1 := fun same => notK1 (by rw [same])
        simpa [Field.restore, Instr.step, Field.read] using Cpu.get_set_other apart
      | status | hi | lo | epc =>
        simp_all [Field.restore, Instr.step, Field.read]
    all_goals simp [Field.restore, Instr.step]

/-- No field is loaded over the register that the places are counted from. -/
theorem run_restores (plain : ∀ f ∈ fs, f.Plain) :
    Loaded (c.get k0) offset fs c (run (fs.flatMap (Field.restore offset)) c) := by
  induction fs generalizing c with
  | nil => exact ⟨nofun, fun _ _ _ => rfl, rfl, rfl, rfl⟩
  | cons f fs ih =>
    have first := @Field.run_restore c f offset (plain f List.mem_cons_self)
    have rest := ih (c := run (f.restore offset) c)
      fun e member => plain e (List.mem_cons_of_mem f member)
    have base : (run (f.restore offset) c).get k0 = c.get k0 := by
      refine first.read (.reg k0) ?_ (by decide)
      intro member
      exact (plain f List.mem_cons_self).2.1 (List.mem_singleton.mp member).symm
    rw [base] at rest
    rw [List.flatMap_cons, run_append]
    constructor
    · intro e member
      by_cases later : e ∈ fs
      · rw [rest.loaded e later, first.mem]
      · obtain rfl : e = f := (List.mem_cons.mp member).resolve_right later
        rw [rest.read e later (plain e member).2.2, first.loaded e List.mem_cons_self]
    · intro e outside notK1
      rw [List.mem_cons, not_or] at outside
      have other : e ∉ [f] := fun member => outside.1 (List.mem_singleton.mp member)
      rw [rest.read e outside.2 notK1, first.read e other notK1]
    · rw [rest.entryhi, first.entryhi]
    · rw [rest.mem, first.mem]
    · rw [rest.pc, first.pc]

/-! The PCBs. -/

def pcbAddress (g : Symbols) (p : Slot) : Nat := g.pcb + p * sizeofPcb

/-- What `current_running` holds while a process has the processor. -/
def pointer (g : Symbols) (p : Slot) : Word := BitVec.ofNat 32 (pcbAddress g p)

/-- Where a field of one of the two contexts of a process lies. -/
def area (g : Symbols) (p : Slot) (offset : Nat) (f : Field) : Nat :=
  pcbAddress g p + (offset + f.offset)

variable {p q : Slot} {k : Nat} {e : Field} {offset' : Nat}

theorem offset_le : ∀ f ∈ saved, f.offset ≤ 148 := by decide

theorem offset_inj : ∀ f ∈ saved, ∀ e ∈ saved, f.offset = e.offset → f = e := by decide

theorem pcbAddress_bounds (inside : k < sizeofPcb) :
    g.pcb ≤ pcbAddress g p + k ∧ pcbAddress g p + k < g.pcb + numMaxTask * sizeofPcb := by
  have := p.isLt
  simp only [pcbAddress, sizeofPcb_eq, numMaxTask] at *
  omega

theorem pointer_address (inside : k < sizeofPcb) :
    (pointer g p + BitVec.ofNat 32 k).toNat = pcbAddress g p + k := by
  have fits := g.inside
  have bounds := @pcbAddress_bounds g p k inside
  simp only [pointer, BitVec.toNat_add, BitVec.toNat_ofNat]
  omega

theorem pcbAddress_apart (other : p ≠ q) (inside : k < sizeofPcb) {l : Nat}
    (inside' : l < sizeofPcb) : pcbAddress g p + k ≠ pcbAddress g q + l := by
  have differ : p.val ≠ q.val := fun same => other (Fin.ext same)
  simp only [pcbAddress, sizeofPcb_eq] at *
  omega

theorem pcbAddress_symbol (inside : k < sizeofPcb) : g.currentRunning ≠ pcbAddress g p + k := by
  have bounds := @pcbAddress_bounds g p k inside
  have apart := g.apart
  omega

theorem pointer_inj (same : pointer g p = pointer g q) : p = q := by
  by_contra other
  have address := congrArg (fun w => (w + BitVec.ofNat 32 0).toNat) same
  simp only [@pointer_address g _ 0 (by decide)] at address
  exact pcbAddress_apart (g := g) other (by decide) (by decide) address

theorem place_pointer (low : offset ≤ user) (member : f ∈ saved) :
    place (pointer g p) offset f = area g p offset f := by
  have small := offset_le f member
  rw [place, pointer_address, area]
  simp only [user, kernel, offsetSize, sizeofPcb_eq] at *
  omega

/-- Different fields, contexts or processes have different words. -/
theorem area_inj (low : offset = kernel ∨ offset = user) (low' : offset' = kernel ∨ offset' = user)
    (member : f ∈ saved) (member' : e ∈ saved) (same : area g p offset f = area g q offset' e) :
    p = q ∧ offset = offset' ∧ f = e := by
  have small := offset_le f member
  have small' := offset_le e member'
  have samePcb : p = q := by
    by_contra other
    refine pcbAddress_apart (g := g) other ?_ ?_ same
    all_goals simp only [user, kernel, offsetSize, sizeofPcb_eq] at *; omega
  subst samePcb
  simp only [area, user, kernel, offsetSize] at low low' same
  have both : offset = offset' ∧ f.offset = e.offset := by omega
  exact ⟨rfl, both.1, offset_inj f member e member' both.2⟩

/-! What the routines do, when `p` has the processor. -/

/-- The fields are in the context at `offset`; the rest of the memory and of the processor is as
before, but for `k0` and `k1`. -/
structure Saves (g : Symbols) (p : Slot) (offset : Nat) (c c' : Cpu) : Prop where
  saved : ∀ f ∈ saved, c'.mem (area g p offset f) = f.read c
  outside : ∀ a, (∀ f ∈ Mips.saved, area g p offset f ≠ a) → c'.mem a = c.mem a
  read : ∀ f : Field, f.Plain → f.read c' = f.read c
  base : c'.get k0 = pointer g p
  cp0 : c'.cp0 = c.cp0
  pc : c'.pc = c.pc

theorem run_saveContext (low : offset = kernel ∨ offset = user)
    (here : c.mem g.currentRunning = pointer g p) :
    Saves g p offset c (run (saveContext g offset) c) := by
  have base : (c.set k0 (pointer g p)).get k0 = pointer g p := Cpu.get_set_self (by decide)
  have spilled := @run_saves (c.set k0 (pointer g p)) saved offset saved_plain
  have kept : ∀ f : Field, f.Plain → f.read (c.set k0 (pointer g p)) = f.read c :=
    fun f plain => Field.read_set plain.2.1
  have low' : offset ≤ user := by
    rcases low with rfl | rfl <;> decide
  have first : run (saveContext g offset) c =
      run (saved.flatMap (Field.save offset)) (c.set k0 (pointer g p)) := by
    rw [saveContext, run_cons, Instr.step, here]
  rw [first]
  constructor
  · intro f member
    rw [spilled.mem, base, ← place_pointer low' member, spill_inside _ member,
      kept f (saved_plain f member)]
    intro i first j second same
    rw [place_pointer low' first, place_pointer low' second] at same
    exact (area_inj low low first second same).2.2
  · intro a other
    rw [spilled.mem, base, spill_outside, Cpu.set_mem]
    intro f member
    rw [place_pointer low' member]
    exact other f member
  · intro f plain
    rw [spilled.read f plain.2.2, kept f plain]
  · exact (spilled.read (.reg k0) (by decide)).trans base
  · rw [spilled.cp0, Cpu.set_cp0]
  · rw [spilled.pc, Cpu.set_pc]

/-- The processor has the fields of the context at `offset`. -/
structure Restores (g : Symbols) (p : Slot) (offset : Nat) (c c' : Cpu) : Prop where
  loaded : ∀ f ∈ saved, f.read c' = c.mem (area g p offset f)
  base : c'.get k0 = pointer g p
  entryhi : c'.cp0 .entryhi = c.cp0 .entryhi
  mem : c'.mem = c.mem
  pc : c'.pc = c.pc

theorem run_restoreContext (low : offset ≤ user) (here : c.mem g.currentRunning = pointer g p) :
    Restores g p offset c (run (restoreContext g offset) c) := by
  have base : (c.set k0 (pointer g p)).get k0 = pointer g p := Cpu.get_set_self (by decide)
  have loaded := @run_restores (c.set k0 (pointer g p)) saved offset saved_plain
  have first : run (restoreContext g offset) c =
      run (saved.flatMap (Field.restore offset)) (c.set k0 (pointer g p)) := by
    rw [restoreContext, run_cons, Instr.step, here]
  rw [first]
  rw [base] at loaded
  constructor
  · intro f member
    rw [loaded.loaded f member, place_pointer low member, Cpu.set_mem]
  · exact (loaded.read (.reg k0) (by decide) (by decide)).trans base
  · rw [loaded.entryhi, Cpu.set_cp0]
  · rw [loaded.mem, Cpu.set_mem]
  · rw [loaded.pc, Cpu.set_pc]

/-- `STATUS` after a trap and `CLI`. -/
def trapStatus (status : Word) : Word := (status ||| exl) &&& 0xfffe

/-- `STATUS` after `STI` and `eret`. -/
def eretStatus (status : Word) : Word := (status ||| 0x01) &&& ~~~exl

/-- What `cli` leaves of the processor. -/
def masked (c : Cpu) : Cpu :=
  (c.set t0 (c.cp0 .status &&& 0xfffe)).setCp0 .status (c.cp0 .status &&& 0xfffe)

theorem run_cli : run cli c = masked c := by
  have nonzero : t0 ≠ 0 := by decide
  simp only [cli, run_cons, run_nil, Instr.step, Cpu.get_set_self nonzero, Cpu.set_set]
  rfl

theorem masked_mem : (masked c).mem = c.mem := Cpu.set_mem

theorem run_sti : run sti c =
    (c.set t0 (c.cp0 .status ||| 0x01)).setCp0 .status (c.cp0 .status ||| 0x01) := by
  have nonzero : t0 ≠ 0 := by decide
  simp only [sti, run_cons, run_nil, Instr.step, Cpu.get_set_self nonzero, Cpu.set_set]

/-- The user context of `p` holds the processor as `CLI` left it, and the handler starts on top of
the kernel stack of `p`. -/
structure Enters (g : Symbols) (p : Slot) (c c' : Cpu) : Prop where
  saved : ∀ f ∈ saved, c'.mem (area g p user f) = f.read (masked c)
  outside : ∀ a, (∀ f ∈ Mips.saved, area g p user f ≠ a) →
    a ≠ pcbAddress g p + (user + offsetEntryhi) → c'.mem a = c.mem a
  read : ∀ f : Field, f.Plain → f ≠ .reg sp → f.read c' = f.read (masked c)
  stack : c'.get sp = c.mem (pcbAddress g p + kernelStackTop)

theorem run_swtchToK (here : c.mem g.currentRunning = pointer g p) :
    run (swtchToK g) c =
      (c.set k0 (pointer g p)).set sp (c.mem (pcbAddress g p + kernelStackTop)) := by
  have address := @pointer_address g p kernelStackTop (by decide)
  simp only [swtchToK, run_cons, run_nil, Instr.step, here, Cpu.get_set_self (by decide : k0 ≠ 0),
    Cpu.set_mem, address]

theorem area_user_lt : ∀ f ∈ saved, area g p user f < pcbAddress g p + (user + offsetEntryhi) := by
  intro f member
  have small := offset_le f member
  simp only [area, user, kernel, offsetSize, offsetEntryhi] at *
  omega

theorem run_entry (v : Vector) (here : c.mem g.currentRunning = pointer g p) :
    Enters g p c (run (v.entry g) c) := by
  have saves := @run_saveContext g (masked c) user p (.inr rfl)
    (by rw [masked_mem]; exact here)
  have low := @area_user_lt g p
  have spot : user + offsetEntryhi < sizeofPcb ∧ user + offsetEntryhi < kernelStackTop ∧
      kernelStackTop < sizeofPcb := by decide
  have symbol : ∀ f ∈ saved, area g p user f ≠ g.currentRunning := by
    intro f member same
    have small := offset_le f member
    refine @pcbAddress_symbol g p (user + f.offset) ?_ same.symm
    simp only [user, kernel, offsetSize, sizeofPcb_eq] at *
    omega
  have slots : ∀ f ∈ saved, area g p user f ≠ pcbAddress g p + kernelStackTop := by
    intro f member
    have := low f member
    omega
  obtain ⟨c₁, isC₁⟩ : ∃ c₁, run (saveContext g user) (masked c) = c₁ := ⟨_, rfl⟩
  rw [isC₁] at saves
  -- Between the two macros only `EntryHi` may be saved.
  have finish : ∀ c₂ : Cpu, (∀ a, a ≠ pcbAddress g p + (user + offsetEntryhi) →
      c₂.mem a = c₁.mem a) → (∀ f : Field, f.Plain → f.read c₂ = f.read c₁) →
      Enters g p c (run (swtchToK g) c₂) := by
    intro c₂ memory same
    have pointed : c₂.mem g.currentRunning = pointer g p := by
      rw [memory _ (pcbAddress_symbol spot.1), saves.outside _ symbol, masked_mem, here]
    rw [run_swtchToK pointed]
    constructor
    · intro f member
      rw [Cpu.set_mem, Cpu.set_mem, memory _ (Nat.ne_of_lt (low f member)), saves.saved f member]
    · intro a other notHi
      rw [Cpu.set_mem, Cpu.set_mem, memory a notHi, saves.outside a other, masked_mem]
    · intro f plain notSp
      rw [Field.read_set notSp, Field.read_set plain.2.1, same f plain, saves.read f plain]
    · rw [Cpu.get_set_self (by decide), memory _ (by omega), saves.outside _ slots, masked_mem]
  cases v with
  | exception =>
    have nonzero : k1 ≠ 0 := by decide
    have base : (c₁.set k1 (c₁.cp0 .entryhi)).get k0 = pointer g p := by
      rw [Cpu.get_set_other (by decide), saves.base]
    have between : run [.mfc0 k1 .entryhi, .sw k1 k0 (user + offsetEntryhi)] c₁ =
        (c₁.set k1 (c₁.cp0 .entryhi)).store (pcbAddress g p + (user + offsetEntryhi))
          (c₁.cp0 .entryhi) := by
      simp only [run_cons, run_nil, Instr.step, base, pointer_address spot.1,
        Cpu.get_set_self nonzero]
    rw [Vector.entry, run_append, run_append, run_append, run_cli, isC₁, between]
    apply finish
    · intro a notHi
      rw [Cpu.store_mem, Function.update_of_ne notHi, Cpu.set_mem]
    · intro f plain
      rw [Field.read_store, Field.read_set plain.2.2]
  | tlb =>
    rw [Vector.entry, run_append, run_append, run_cli, isC₁]
    exact finish c₁ (fun _ _ => rfl) fun _ _ => rfl

/-- The processor has the user context of `p` again, but for `t0` and the bits of `STATUS`. -/
structure Leaves (g : Symbols) (p : Slot) (c c' : Cpu) : Prop where
  read : ∀ f ∈ saved, f ≠ .reg t0 → f ≠ .status → f.read c' = c.mem (area g p user f)
  t0 : c'.get t0 = c.mem (area g p user .status) ||| 0x01
  status : c'.cp0 .status = eretStatus (c.mem (area g p user .status))
  pc : c'.pc = c.mem (area g p user .epc)
  mem : c'.mem = c.mem

/-- All three ways back to user code end with `STI` and `eret`. -/
theorem run_back {c₁ : Cpu} (loaded : ∀ f ∈ saved, f.read c₁ = c.mem (area g p user f))
    (mem : c₁.mem = c.mem) : Leaves g p c (run (sti ++ [.eret]) c₁) := by
  have status := loaded .status (by decide)
  have epc := loaded .epc (by decide)
  simp only [Field.read] at status epc
  rw [run_append, run_sti]
  constructor
  · intro f member notT0 notStatus
    rw [← loaded f member]
    cases f with
    | reg r =>
      have other : r ≠ Mips.t0 := fun same => notT0 (by rw [same])
      exact Cpu.get_set_other other
    | status => exact absurd rfl notStatus
    | hi | lo | epc => simp [Field.read, Instr.step]
  · rw [run_cons, run_nil, Instr.step, Cpu.jump_get, Cpu.setCp0_get, Cpu.setCp0_get,
      Cpu.get_set_self (by decide), status]
  · simp [Instr.step, status, eretStatus]
  · simp [Instr.step, epc]
  · simp [Instr.step, mem]

theorem run_exit (v : Vector) (here : c.mem g.currentRunning = pointer g p) :
    Leaves g p c (run (v.exit g) c) := by
  have restores := @run_restoreContext _ _ user _ (Nat.le_refl _) here
  cases v with
  | exception =>
    rw [Vector.exit, List.append_assoc, run_append,
      @run_append _ (restoreContext g user)]
    obtain ⟨c₁, isC₁⟩ : ∃ c₁, run (restoreContext g user) c = c₁ := ⟨_, rfl⟩
    rw [isC₁] at restores ⊢
    apply run_back
    · intro f member
      have plain := saved_plain f member
      rw [← restores.loaded f member]
      cases f with
      | reg r =>
        have other : r ≠ k1 := fun same => plain.2.2 (by rw [same])
        exact Cpu.get_set_other other
      | status | hi | lo | epc => simp [Field.read, Instr.step]
    · simp only [run_cons, run_nil, Instr.step, Cpu.setCp0_mem, Cpu.set_mem]
      exact restores.mem
  | tlb =>
    rw [Vector.exit, List.append_assoc, run_append]
    exact run_back restores.loaded restores.mem

theorem run_embryoStart (here : c.mem g.currentRunning = pointer g p) :
    Leaves g p c (run (embryoStart g) c) := by
  have restores := @run_restoreContext _ _ user _ (Nat.le_refl _) here
  rw [embryoStart, List.append_assoc, run_append]
  exact run_back restores.loaded restores.mem

/-- One word of the user context changes. -/
structure Edits (g : Symbols) (p : Slot) (f : Field) (v : Word) (c c' : Cpu) : Prop where
  mem : c'.mem = Function.update c.mem (area g p user f) v
  read : ∀ e : Field, e.Plain → e.read c' = e.read c
  pc : c'.pc = c.pc

theorem run_userEpcPlus4 (here : c.mem g.currentRunning = pointer g p) :
    Edits g p .epc (c.mem (area g p user .epc) + 0x4) c (run (userEpcPlus4 g) c) := by
  have nonzero : k1 ≠ 0 := by decide
  have address := @pointer_address g p (user + Field.epc.offset) (by decide)
  have base : ∀ w, ((c.set k0 (pointer g p)).set k1 w).get k0 = pointer g p := fun w => by
    rw [Cpu.get_set_other (by decide), Cpu.get_set_self (by decide)]
  have result : run (userEpcPlus4 g) c = ((c.set k0 (pointer g p)).set k1
      (c.mem (area g p user .epc) + 0x4)).store (area g p user .epc)
        (c.mem (area g p user .epc) + 0x4) := by
    simp only [userEpcPlus4, run_cons, run_nil, Instr.step, here, base, Cpu.set_mem,
      Cpu.get_set_self (by decide : k0 ≠ 0), Cpu.get_set_self nonzero, Cpu.set_set, address]
    rfl
  rw [result]
  constructor
  · rw [Cpu.store_mem, Cpu.set_mem, Cpu.set_mem]
  · intro e plain
    rw [Field.read_store, Field.read_set plain.2.2, Field.read_set plain.2.1]
  · rw [Cpu.store_pc, Cpu.set_pc, Cpu.set_pc]

theorem run_returnInt32 (here : c.mem g.currentRunning = pointer g p) :
    Edits g p (.reg v0) (c.get a0) c (run (returnInt32 g) c) := by
  have address := @pointer_address g p (user + (Field.reg v0).offset) (by decide)
  have result : run (returnInt32 g) c =
      (c.set k0 (pointer g p)).store (area g p user (.reg v0)) (c.get a0) := by
    simp only [returnInt32, run_cons, run_nil, Instr.step, here,
      Cpu.get_set_self (by decide : k0 ≠ 0), address,
      Cpu.get_set_other (by decide : a0 ≠ k0)]
    rfl
  rw [result]
  constructor
  · rw [Cpu.store_mem, Cpu.set_mem]
  · intro e plain
    rw [Field.read_store, Field.read_set plain.2.1]
  · rw [Cpu.store_pc, Cpu.set_pc]

/-- What the caller of a `*_sched` has is in its kernel context when `scheduler` is called. -/
theorem run_schedCall (status : Word) (here : c.mem g.currentRunning = pointer g p) :
    (∀ f ∈ saved, (run (schedCall g status) c).mem (area g p kernel f) = f.read c) ∧
      ∀ a, (∀ f ∈ saved, area g p kernel f ≠ a) → (run (schedCall g status) c).mem a = c.mem a := by
  have saves := @run_saveContext _ _ kernel _ (.inl rfl) here
  have memory : (run (schedCall g status) c).mem = (run (saveContext g kernel) c).mem := by
    rw [schedCall, run_append, run_cons, run_nil, Instr.step, Cpu.set_mem]
  rw [memory]
  exact ⟨saves.saved, saves.outside⟩

/-- The process that `scheduler` has chosen goes on with its own kernel context, where it called. -/
theorem run_schedReturn (here : c.mem g.currentRunning = pointer g p) :
    (∀ f ∈ saved, f.read (run (schedReturn g) c) = c.mem (area g p kernel f)) ∧
      (run (schedReturn g) c).mem = c.mem ∧
      (run (schedReturn g) c).pc = c.mem (area g p kernel (.reg ra)) := by
  have restores := @run_restoreContext _ _ kernel _ (by decide) here
  have jumped : run (schedReturn g) c =
      (run (restoreContext g kernel) c).jump ((run (restoreContext g kernel) c).get ra) := by
    rw [schedReturn, run_append]
    rfl
  rw [jumped]
  refine ⟨fun f member => ?_, restores.mem, restores.loaded (.reg ra) (by decide)⟩
  rw [← restores.loaded f member]
  cases f <;> rfl

end Tina.Mips
