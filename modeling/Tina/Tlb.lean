import Tina.Memory
import Tina.Placement

/-! The machine under user code: accesses go through the translation buffer, and a miss is handled
by `TLB_handler`, which writes an entry somewhere in the buffer. All processes share one page
table. -/
namespace Tina.Paging

open Transition Numbering

abbrev Byte := BitVec 8

def tlbEntryNumber : Nat := 32

def tlbl : Word := 2
def tlbs : Word := 3

/-- The cause of an exception. -/
def exccode (cause : Word) : Word := (cause &&& 0x7c) >>> 2

def otherTLBHandler (cause : Word) (m : Memory) : Memory :=
  let code := String.ofList (Nat.toDigits 16 (exccode cause).toNat)
  { m with printed := ("other TLB exceptions, exception code is: " ++ code ++ "\n") :: m.printed }

def tlbHandler (cause badvaddr pid : Word) (m : Memory) : Option Memory :=
  if exccode cause = tlbl ∨ exccode cause = tlbs then doTLBRefill badvaddr pid m
  else some (otherTLBHandler cause m)

structure Machine where
  memory : Memory
  tlb : Fin tlbEntryNumber → Option TlbEntry
  phys : Nat → Byte

/-- The page table is cleared, and no entry of the buffer is for an address of it. -/
def started (phys : Nat → Byte) : Machine := ⟨cleared, fun _ => none, phys⟩

/-- An access to an address comes out at a physical one. -/
def Hit (s : Machine) (asid va : Word) (pa : Nat) : Prop :=
  ∃ i e, s.tlb i = some e ∧ translate e asid va = some pa

/-- An access by the process with that `pid`, a miss that it takes, or a store of the kernel past
the buffer. -/
inductive Use where
  | miss (pid cause va : Word) (slot : Fin tlbEntryNumber)
  | load (pid va : Word) (b : Byte)
  | store (pid va : Word) (b : Byte)
  | kernel (pa : Nat) (b : Byte)

/-- The frame belongs to a page. -/
def Used (m : Memory) (frame : Nat) : Prop := ∃ v, pageFrame m v = some frame

/-- `tlbwr` may choose any slot. The kernel keeps away from frames in use. -/
inductive Happens (s : Machine) : Use → Machine → Prop
  | miss {m : Memory} {e : TlbEntry} {pid cause va : Word} (slot : Fin tlbEntryNumber)
    (absent : ∀ i e, s.tlb i = some e → e.entryhi >>> 13 ≠ va >>> 13)
    (mapped : va.toNat < pageEntryNumber * 0x1000)
    (code : exccode cause = tlbl ∨ exccode cause = tlbs)
    (handled : tlbHandler cause va pid s.memory = some m) (written : m.installed.head? = some e) :
    Happens s (.miss pid cause va slot)
      { s with memory := m, tlb := Function.update s.tlb slot (some e) }
  | load {pid va : Word} {pa : Nat} (hit : Hit s (pid &&& 0xff) va pa) :
    Happens s (.load pid va (s.phys pa)) s
  | store {pid va : Word} {pa : Nat} {b : Byte} (hit : Hit s (pid &&& 0xff) va pa) :
    Happens s (.store pid va b) { s with phys := Function.update s.phys pa b }
  | kernel {pa : Nat} {b : Byte} (unused : ¬Used s.memory (pa / 0x1000)) :
    Happens s (.kernel pa b) { s with phys := Function.update s.phys pa b }

inductive History : List Use → Machine → Machine → Prop
  | nil {s : Machine} : History [] s s
  | cons {u : Use} {us : List Use} {s t r : Machine} :
    Happens s u t → History us t r → History (u :: us) s r

/-- What a use is for someone who sees virtual addresses only. -/
def Use.access : Use → Placement.Access Word Nat Byte
  | .miss .. => .grow
  | .load _ va b => .load va b
  | .store _ va b => .store va b
  | .kernel pa b => .outside pa b

/-- Where the page table puts an address. -/
def lookUp (m : Memory) (va : Word) : Option Nat :=
  (pageFrame m (va >>> 12).toNat).map fun f => 0x1000 * f + va.toNat % 0x1000

/-- The buffer holds entries that were installed, at most one for a pair of pages. -/
structure Cached (s : Machine) : Prop where
  paged : ∃ next number, Paged s.memory next number
  installed : ∀ i e, s.tlb i = some e → e ∈ s.memory.installed
  single : ∀ i j e e', s.tlb i = some e → s.tlb j = some e' → e.entryhi >>> 13 = e'.entryhi >>> 13 →
    i = j

variable {s t : Machine} {u : Use} {us : List Use} {m m' : Memory} {asid va : Word} {pa : Nat}
  {phys : Nat → Byte}

/-- An entry that translates an address is for its pair. -/
theorem translate_pair {e : TlbEntry} (some : translate e asid va = some pa) :
    va >>> 13 = e.entryhi >>> 13 := by
  by_contra other
  simp [translate, other] at some

/-- Whoever hits gets what the page table says. -/
theorem Cached.hit (cached : Cached s) (hit : Hit s asid va pa) : lookUp s.memory va = some pa := by
  obtain ⟨i, e, here, translated⟩ := hit
  obtain ⟨_, _, paged⟩ := cached.paged
  obtain ⟨f, frame, address⟩ :=
    paged.installed e (cached.installed i e here) asid va (translate_pair translated)
  rw [translated] at address
  rw [lookUp, frame, Option.map_some, ← address]

theorem lookUp_apart (paged : ∃ next number, Paged m next number) :
    Placement.Apart (lookUp m) := by
  obtain ⟨_, _, paged⟩ := paged
  intro v w p first second
  obtain ⟨f, frame, rfl⟩ := Option.map_eq_some_iff.mp first
  obtain ⟨f', frame', same⟩ := Option.map_eq_some_iff.mp second
  have equal : f' = f ∧ w.toNat % 0x1000 = v.toNat % 0x1000 := by omega
  have page := paged.isolated.injective _ _ f frame (equal.1 ▸ frame')
  simp only [BitVec.toNat_ushiftRight, Nat.shiftRight_eq_div_pow] at page
  apply BitVec.eq_of_toNat_eq
  omega

theorem lookUp_grows (keeps : Keeps m m') : Placement.Grows (lookUp m) (lookUp m') := by
  intro va pa here
  obtain ⟨f, frame, rfl⟩ := Option.map_eq_some_iff.mp here
  rw [lookUp, keeps.frame frame, Option.map_some]

theorem tlbHandler_refill {cause pid : Word} (code : exccode cause = tlbl ∨ exccode cause = tlbs) :
    tlbHandler cause va pid m = doTLBRefill va pid m := if_pos code

/-- One step on the machine is one on the memory that the page table places. -/
theorem Cached.step (cached : Cached s) (step : Happens s u t) :
    Cached t ∧ Placement.Step ⟨lookUp s.memory, s.phys⟩ u.access ⟨lookUp t.memory, t.phys⟩ := by
  cases step with
  | @miss m e pid cause va slot absent mapped code handled written =>
    obtain ⟨next, number, paged⟩ := cached.paged
    obtain ⟨m₁, next', number', e₁, result, paged', keeps, installed, pair⟩ := paged.refill pid mapped
    rw [tlbHandler_refill code, result] at handled
    cases handled
    obtain rfl : e₁ = e := by simpa [installed] using written
    refine ⟨⟨⟨next', number', paged'⟩, ?_, ?_⟩, .grow (lookUp_grows keeps) ?_⟩
    · intro i d here
      rw [installed]
      by_cases new : i = slot
      · subst new
        obtain rfl : e₁ = d := by simpa using here
        exact List.mem_cons_self
      · exact List.mem_cons_of_mem _ (cached.installed i d (by simpa [new] using here))
    · intro i j d d' first second same
      by_cases new : i = slot
      · by_cases new' : j = slot
        · rw [new, new']
        · subst new
          obtain rfl : e₁ = d := by simpa using first
          have old : s.tlb j = some d' := by simpa [new'] using second
          exact absurd (same.symm.trans pair) (absent j d' old)
      · have old : s.tlb i = some d := by simpa [new] using first
        by_cases new' : j = slot
        · subst new'
          obtain rfl : e₁ = d' := by simpa using second
          exact absurd (same.trans pair) (absent i d old)
        · exact cached.single i j d d' old (by simpa [new'] using second) same
    · exact lookUp_apart ⟨next', number', paged'⟩
  | load hit => exact ⟨cached, .load (cached.hit hit)⟩
  | store hit =>
    exact ⟨⟨cached.paged, cached.installed, cached.single⟩, .store (cached.hit hit)⟩
  | kernel unused =>
    refine ⟨⟨cached.paged, cached.installed, cached.single⟩, .outside ?_⟩
    intro va here
    obtain ⟨f, frame, rfl⟩ := Option.map_eq_some_iff.mp here
    have number : (0x1000 * f + va.toNat % 0x1000) / 0x1000 = f := by omega
    exact unused ⟨_, by rw [number]; exact frame⟩

theorem Cached.run (cached : Cached s) (history : History us s t) :
    Cached t ∧ Placement.Runs (us.map Use.access) ⟨lookUp s.memory, s.phys⟩
      ⟨lookUp t.memory, t.phys⟩ := by
  induction history with
  | nil => exact ⟨cached, .nil⟩
  | cons step _ ih =>
    obtain ⟨cached', first⟩ := cached.step step
    obtain ⟨final, rest⟩ := ih cached'
    exact ⟨final, .cons first rest⟩

/-- A miss is answered, and the access that is tried again hits. -/
theorem Cached.miss (cached : Cached s) (pid cause : Word) (slot : Fin tlbEntryNumber)
    (mapped : va.toNat < pageEntryNumber * 0x1000) (absent : ∀ asid pa, ¬Hit s asid va pa)
    (code : exccode cause = tlbl ∨ exccode cause = tlbs) :
    ∃ t, Happens s (.miss pid cause va slot) t ∧ ∀ asid, ∃ pa, Hit t asid va pa := by
  obtain ⟨next, number, paged⟩ := cached.paged
  have none : ∀ i e, s.tlb i = some e → e.entryhi >>> 13 ≠ va >>> 13 := by
    intro i e here same
    obtain ⟨f, -, address⟩ := paged.installed e (cached.installed i e here) 0 va same.symm
    exact absent _ _ ⟨i, e, here, address⟩
  obtain ⟨m, _, _, e, result, paged', -, installed, pair⟩ := paged.refill pid mapped
  have handled : tlbHandler cause va pid s.memory = some m := (tlbHandler_refill code).trans result
  refine ⟨_, .miss slot none mapped code handled (by rw [installed]; rfl), fun asid => ?_⟩
  obtain ⟨f, -, address⟩ :=
    paged'.installed e (by rw [installed]; exact List.mem_cons_self) asid va pair.symm
  exact ⟨_, slot, e, by simp, address⟩

end Tina.Paging
