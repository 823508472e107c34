import Tina.Memory
import Tina.Proc

/-! Where user pages, the kernel and its stacks lie in physical memory. The frames from
`0x1000` on, which the counter hands out first, hold kernel stacks. -/
namespace Tina.Paging

open Transition Numbering

variable {m m' : Memory} {v f p k : Nat} {faults : List (Word × Word)}

/-- The kernel runs in the two windows on physical memory. -/
def physical (address : Word) : Nat := (address &&& 0x1fffffff).toNat

/-- The two handlers that `init_exception_handler` copies, by their length in the build. -/
def InVectors (p : Nat) : Prop := p < 0x17c ∨ 0x180 ≤ p ∧ p < 0x180 + 0x190

/-- From `_ftext` to `_end` of the build. -/
def InImage (p : Nat) : Prop := physical 0xa0800000 ≤ p ∧ p < physical 0xa081a4d0

/-- The kernel stack of a slot grows down from its top. -/
def InKstack (i : Slot) (p : Nat) : Prop :=
  physical (kstackBase + (BitVec.ofNat 32 i - 1) * kstackSize) ≤ p ∧
    p < physical (kstackBase + BitVec.ofNat 32 i * kstackSize)

def InFrame (f p : Nat) : Prop := 0x1000 * f ≤ p ∧ p < 0x1000 * (f + 1)

/-- No user page lies in memory that the kernel uses. -/
def Apart (m : Memory) : Prop := ∀ v f, pageFrame m v = some f →
  (0x1000 ≤ f ∧ f ≤ 0x1fff) ∧
    ∀ p, InFrame f p → ¬InVectors p ∧ ¬InImage p ∧ ∀ i, ¬InKstack i p

def refillAll : List (Word × Word) → Memory → Option Memory
  | [], m => some m
  | fault :: faults, m => (doTLBRefill fault.1 fault.2 m).bind (refillAll faults)

theorem kstack_region (i : Slot) : InKstack i p ↔
    0xe00000 + 0x100000 * i.val ≤ p ∧ p < 0xf00000 + 0x100000 * i.val := by
  have place : ∀ i : Slot,
      physical (kstackBase + (BitVec.ofNat 32 i - 1) * kstackSize) = 0xe00000 + 0x100000 * i.val ∧
      physical (kstackBase + BitVec.ofNat 32 i * kstackSize) = 0xf00000 + 0x100000 * i.val := by
    decide
  rw [InKstack, (place i).1, (place i).2]

/-- Each of the frames from `0x1000` to `0x1fff` belongs to the stack of one of the slots 2
to 17. -/
theorem frame_kstack (low : 0x1000 ≤ f) (high : f ≤ 0x1fff) : ∃ i, InKstack i (0x1000 * f) := by
  refine ⟨⟨(f - 0xe00) / 0x100, ?_⟩, ?_⟩
  · simp only [numMaxTask]
    omega
  · rw [kstack_region]
    simp only []
    omega

theorem frame_not_apart (frame : pageFrame m v = some f) : ¬Apart m := by
  intro apart
  obtain ⟨⟨low, high⟩, outside⟩ := apart v f frame
  obtain ⟨i, overlap⟩ := frame_kstack low high
  have first : InFrame f (0x1000 * f) := ⟨Nat.le_refl _, by omega⟩
  exact (outside _ first).2.2 i overlap

theorem cleared_apart : Apart cleared := by
  intro v f frame
  have nothing : pageFrame cleared v = none := if_neg fun here => zero_invalid here.2
  rw [nothing] at frame
  cases frame

theorem refill_frame {fault : Word × Word} (reach : Reachable Refill Mapped cleared m)
    (mapped : Mapped m fault) : ∃ m' f, doTLBRefill fault.1 fault.2 m = some m' ∧
      Reachable Refill Mapped cleared m' ∧ pageFrame m' (fault.1 >>> 12).toNat = some f := by
  obtain ⟨m', e, result, installed, pair⟩ := (reachable_isolated reach).refill _ fault.2 mapped
  have reach' : Reachable Refill Mapped cleared m' := .step reach mapped result
  have newest : e ∈ m'.installed := by simp [installed]
  obtain ⟨f, frame, _⟩ := (reachable_isolated reach').installed e newest 0 fault.1 pair.symm
  exact ⟨m', f, result, reach', frame⟩

theorem refillAll_frame (reach : Reachable Refill Mapped cleared m)
    (mapped : ∀ fault ∈ faults, Mapped m fault) : ∃ m', refillAll faults m = some m' ∧
      Keeps m m' ∧ (faults ≠ [] → ∃ v f, pageFrame m' v = some f) := by
  induction faults generalizing m with
  | nil => exact ⟨m, rfl, Keeps.refl, fun nothing => absurd rfl nothing⟩
  | cons fault faults ih =>
    have first : Mapped m fault := mapped fault (by simp)
    obtain ⟨m₁, f, result, reach₁, frame⟩ := refill_frame reach first
    have keeps := (reachable_isolated reach).stable m₁ (.step .start first result)
    obtain ⟨m', results, keeps', _⟩ := ih reach₁ fun later member => mapped later (by simp [member])
    refine ⟨m', ?_, keeps.trans keeps', fun _ => ⟨_, f, keeps'.frame frame⟩⟩
    rw [refillAll, result, Option.bind_some, results]

/-- User pages keep away from the kernel until the first fault, and no longer. -/
theorem refillAll_apart (mapped : ∀ fault ∈ faults, Mapped cleared fault) :
    ∃ m, refillAll faults cleared = some m ∧ (Apart m ↔ faults = []) := by
  obtain ⟨m, results, _, frames⟩ := refillAll_frame .start mapped
  refine ⟨m, results, fun apart => ?_, fun nothing => ?_⟩
  · by_contra some
    obtain ⟨v, f, frame⟩ := frames some
    exact frame_not_apart frame apart
  · subst nothing
    cases results
    exact cleared_apart

def shellFault : Word × Word := (0x003ffffc, 1)

theorem refillAll_apart_shell : ∃ m, refillAll [shellFault] cleared = some m ∧
    (Apart m ↔ [shellFault] = []) := by
  apply refillAll_apart
  intro fault member
  rw [List.mem_singleton.mp member, Mapped]
  decide

/-- The first page that a process touches lies in the kernel stack of slot 2. -/
theorem first_frame_overlaps : ∃ m, doTLBRefill shellFault.1 shellFault.2 cleared = some m ∧
    pageFrame m 0x3fe = some 0x1000 ∧ InKstack 2 (0x1000 * 0x1000) ∧ ¬Apart m := by
  refine ⟨_, rfl, rfl, ?_, ?_⟩
  · rw [kstack_region]
    decide
  · exact frame_not_apart (v := 0x3fe) (f := 0x1000) rfl

end Tina.Paging
