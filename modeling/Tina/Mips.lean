import Tina.Kernel

/-! The part of the processor that `arch/mips/kernel/entry.S` works on. Code is straight: between
two calls only a jump at the end is seen in `pc`. A word of memory is named by its address. -/
namespace Tina.Mips

abbrev Reg := Fin 32

def v0 : Reg := 2
def a0 : Reg := 4
def a1 : Reg := 5
def t0 : Reg := 8
def k0 : Reg := 26
def k1 : Reg := 27
def sp : Reg := 29
def ra : Reg := 31

/-- The registers of coprocessor 0 that the context switch deals with. -/
inductive Cp0 where
  | entryhi | status | epc
  deriving DecidableEq, Repr

structure Cpu where
  reg : Reg → Word
  hi : Word
  lo : Word
  cp0 : Cp0 → Word
  pc : Word
  mem : Nat → Word

namespace Cpu

/-- Register 0 is always 0. -/
def get (r : Reg) (c : Cpu) : Word := if r = 0 then 0 else c.reg r

def set (r : Reg) (v : Word) (c : Cpu) : Cpu :=
  if r = 0 then c else { c with reg := Function.update c.reg r v }

def setHi (v : Word) (c : Cpu) : Cpu := { c with hi := v }

def setLo (v : Word) (c : Cpu) : Cpu := { c with lo := v }

def jump (v : Word) (c : Cpu) : Cpu := { c with pc := v }

def setCp0 (rd : Cp0) (v : Word) (c : Cpu) : Cpu := { c with cp0 := Function.update c.cp0 rd v }

def store (address : Nat) (v : Word) (c : Cpu) : Cpu :=
  { c with mem := Function.update c.mem address v }

end Cpu

/-- `lwSym` is a load from the address of a symbol. -/
inductive Instr where
  | lw (rt base : Reg) (offset : Nat)
  | lwSym (rt : Reg) (address : Nat)
  | sw (rt base : Reg) (offset : Nat)
  | mfc0 (rt : Reg) (rd : Cp0)
  | mtc0 (rt : Reg) (rd : Cp0)
  | mfhi (rt : Reg)
  | mflo (rt : Reg)
  | mthi (rt : Reg)
  | mtlo (rt : Reg)
  | andi (rt rs : Reg) (imm : Word)
  | ori (rt rs : Reg) (imm : Word)
  | addi (rt rs : Reg) (imm : Word)
  | li (rt : Reg) (imm : Word)
  | jr (rs : Reg)
  | eret
  deriving DecidableEq, Repr

/-- The bit of `STATUS` that is set while an exception is handled. -/
def exl : Word := 2

/-- The error level is never entered, so `eret` goes back to `EPC`. -/
def Instr.step : Instr → Cpu → Cpu
  | .lw rt base offset, c => c.set rt (c.mem (c.get base + BitVec.ofNat 32 offset).toNat)
  | .lwSym rt address, c => c.set rt (c.mem address)
  | .sw rt base offset, c => c.store (c.get base + BitVec.ofNat 32 offset).toNat (c.get rt)
  | .mfc0 rt rd, c => c.set rt (c.cp0 rd)
  | .mtc0 rt rd, c => c.setCp0 rd (c.get rt)
  | .mfhi rt, c => c.set rt c.hi
  | .mflo rt, c => c.set rt c.lo
  | .mthi rt, c => c.setHi (c.get rt)
  | .mtlo rt, c => c.setLo (c.get rt)
  | .andi rt rs imm, c => c.set rt (c.get rs &&& imm)
  | .ori rt rs imm, c => c.set rt (c.get rs ||| imm)
  | .addi rt rs imm, c => c.set rt (c.get rs + imm)
  | .li rt imm, c => c.set rt imm
  | .jr rs, c => c.jump (c.get rs)
  | .eret, c => (c.setCp0 .status (c.cp0 .status &&& ~~~exl)).jump (c.cp0 .epc)

def run : List Instr → Cpu → Cpu
  | [], c => c
  | i :: is, c => run is (i.step c)

/-- What the processor does when it takes an exception; the handler is entered at a fixed
address. Within an exception `EPC` is kept. -/
def trap (c : Cpu) : Cpu :=
  let c := if c.cp0 .status &&& exl = 0 then c.setCp0 .epc c.pc else c
  c.setCp0 .status (c.cp0 .status ||| exl)

section

variable {c : Cpu} {r q : Reg} {v : Word} {is js : List Instr}

@[simp] theorem run_nil : run [] c = c := rfl
@[simp] theorem run_cons {i : Instr} : run (i :: is) c = run is (i.step c) := rfl

theorem run_append : run (is ++ js) c = run js (run is c) := by
  induction is generalizing c with
  | nil => rfl
  | cons i is ih => exact ih

namespace Cpu

@[simp] theorem get_zero : c.get 0 = 0 := rfl

theorem get_set_self (nonzero : r ≠ 0) : (c.set r v).get r = v := by
  simp [get, set, nonzero]

theorem get_set_other (other : q ≠ r) : (c.set r v).get q = c.get q := by
  rw [get, get, set]
  split
  · rfl
  · split
    · rfl
    · exact Function.update_of_ne other ..

theorem set_set {w : Word} : (c.set r v).set r w = c.set r w := by
  rw [set, set, set]
  split
  · rfl
  · rw [Function.update_idem]

@[simp] theorem set_hi : (c.set r v).hi = c.hi := by rw [set]; split <;> rfl
@[simp] theorem set_lo : (c.set r v).lo = c.lo := by rw [set]; split <;> rfl
@[simp] theorem set_cp0 : (c.set r v).cp0 = c.cp0 := by rw [set]; split <;> rfl
@[simp] theorem set_pc : (c.set r v).pc = c.pc := by rw [set]; split <;> rfl
@[simp] theorem set_mem : (c.set r v).mem = c.mem := by rw [set]; split <;> rfl

@[simp] theorem setHi_get : (c.setHi v).get r = c.get r := rfl
@[simp] theorem setHi_hi : (c.setHi v).hi = v := rfl
@[simp] theorem setHi_lo : (c.setHi v).lo = c.lo := rfl
@[simp] theorem setHi_cp0 : (c.setHi v).cp0 = c.cp0 := rfl
@[simp] theorem setHi_pc : (c.setHi v).pc = c.pc := rfl
@[simp] theorem setHi_mem : (c.setHi v).mem = c.mem := rfl

@[simp] theorem setLo_get : (c.setLo v).get r = c.get r := rfl
@[simp] theorem setLo_hi : (c.setLo v).hi = c.hi := rfl
@[simp] theorem setLo_lo : (c.setLo v).lo = v := rfl
@[simp] theorem setLo_cp0 : (c.setLo v).cp0 = c.cp0 := rfl
@[simp] theorem setLo_pc : (c.setLo v).pc = c.pc := rfl
@[simp] theorem setLo_mem : (c.setLo v).mem = c.mem := rfl

@[simp] theorem jump_get : (c.jump v).get r = c.get r := rfl
@[simp] theorem jump_hi : (c.jump v).hi = c.hi := rfl
@[simp] theorem jump_lo : (c.jump v).lo = c.lo := rfl
@[simp] theorem jump_cp0 : (c.jump v).cp0 = c.cp0 := rfl
@[simp] theorem jump_pc : (c.jump v).pc = v := rfl
@[simp] theorem jump_mem : (c.jump v).mem = c.mem := rfl

@[simp] theorem setCp0_get {rd : Cp0} : (c.setCp0 rd v).get r = c.get r := rfl
@[simp] theorem setCp0_hi {rd : Cp0} : (c.setCp0 rd v).hi = c.hi := rfl
@[simp] theorem setCp0_lo {rd : Cp0} : (c.setCp0 rd v).lo = c.lo := rfl
@[simp] theorem setCp0_pc {rd : Cp0} : (c.setCp0 rd v).pc = c.pc := rfl
@[simp] theorem setCp0_mem {rd : Cp0} : (c.setCp0 rd v).mem = c.mem := rfl
@[simp] theorem setCp0_cp0 {rd : Cp0} : (c.setCp0 rd v).cp0 = Function.update c.cp0 rd v := rfl

@[simp] theorem store_get {address : Nat} : (c.store address v).get r = c.get r := rfl
@[simp] theorem store_hi {address : Nat} : (c.store address v).hi = c.hi := rfl
@[simp] theorem store_lo {address : Nat} : (c.store address v).lo = c.lo := rfl
@[simp] theorem store_pc {address : Nat} : (c.store address v).pc = c.pc := rfl
@[simp] theorem store_cp0 {address : Nat} : (c.store address v).cp0 = c.cp0 := rfl
@[simp] theorem store_mem {address : Nat} :
    (c.store address v).mem = Function.update c.mem address v := rfl

end Cpu

end

end Tina.Mips
