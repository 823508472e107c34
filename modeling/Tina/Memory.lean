import Tina.Kernel
import Tina.Numbering
import Tina.Transition

/-! `kernel/mm/memory.c`: the page table, and the refill of the translation buffer from it.
Frames are handed out by a counter that is never reset. -/
namespace Tina.Paging

open Transition Numbering

def pageEntryNumber : Nat := 0x2000
def pteValid : Word := 0xb
def globalAsid : Word := 1

/-- What `tlbwr` writes. -/
structure TlbEntry where
  entryhi : Word
  entrylo0 : Word
  entrylo1 : Word
  pagemask : Word

/-- The table, the `count` of `do_page_fault` and what it prints. `installed` is history,
newest first. -/
structure Memory where
  pageEntrys : Nat → Word
  count : Int
  printed : List String
  installed : List TlbEntry

/-- After `init_page_table`. -/
def cleared : Memory := ⟨fun _ => 0, 0, [], []⟩

/-- Nothing lies in the table from `PAGE_ENTRY_NUMBER` on. -/
def pageEntry (i : Nat) (m : Memory) : Option Word :=
  if i < pageEntryNumber then some (m.pageEntrys i) else none

/-- The warning is all that a full memory changes. -/
def doPageFault (vpn : Nat) (m : Memory) : Option Memory :=
  if vpn < pageEntryNumber then
    some { m with
      pageEntrys := Function.update m.pageEntrys vpn (0xb0001000 + BitVec.ofInt 32 m.count)
      count := int32 (m.count + 1)
      printed := if 0xfff < m.count then "physical memory is full!!!\n" :: m.printed else m.printed }
  else none

/-- The body of one of the two `if` statements of `do_TLB_Refill`. -/
def fill (vpn : Nat) (m : Memory) : Option Memory := do
  let entry ← pageEntry vpn m
  if entry >>> 28 ≠ pteValid then doPageFault vpn m else some m

/-- The page is cacheable, dirty, valid and global. -/
def entrylo (pfn : Word) : Word := pfn <<< 6 ||| 2 <<< 3 ||| 1 <<< 2 ||| 1 <<< 1 ||| globalAsid

def doTLBRefill (badvaddr pid : Word) (m : Memory) : Option Memory := do
  let vpn := badvaddr >>> 12
  let vpn2 := vpn >>> 1
  let m ← fill (vpn2 * 2).toNat m
  let m ← fill (vpn2 * 2 + 1).toNat m
  let pfn0 ← pageEntry (vpn2 * 2).toNat m
  let pfn1 ← pageEntry (vpn2 * 2 + 1).toNat m
  some { m with installed :=
    ⟨vpn2 <<< 13 ||| pid &&& 0xff, entrylo (pfn0 &&& 0x1fff), entrylo (pfn1 &&& 0x1fff), 0⟩ ::
      m.installed }

/-- The frame of a virtual page that has one. -/
def pageFrame (m : Memory) (vpn : Nat) : Option Nat :=
  if vpn < pageEntryNumber ∧ m.pageEntrys vpn >>> 28 = pteValid then
    some (m.pageEntrys vpn &&& 0x1fff).toNat
  else none

/-- How the processor uses an entry with page mask 0: the upper 19 bits of the address select
it, the next one selects the page of the pair. -/
def translate (e : TlbEntry) (asid va : Word) : Option Nat :=
  let lo := if va.getLsbD 12 then e.entrylo1 else e.entrylo0
  if va >>> 13 = e.entryhi >>> 13 ∧ e.pagemask = 0 ∧
      (e.entrylo0.getLsbD 0 ∧ e.entrylo1.getLsbD 0 ∨ e.entryhi &&& 0xff = asid) ∧ lo.getLsbD 1 then
    some (0x1000 * (lo >>> 6 &&& 0xfffff).toNat + va.toNat % 0x1000)
  else none

variable {m m' : Memory} {v w f next k : Nat} {number : Nat → Option Nat} {pfn va badvaddr pid : Word}
  {e : TlbEntry}

/-- What `do_page_fault` writes the `k`-th time. -/
def pfnOf (k : Nat) : Word := 0xb0001000 + BitVec.ofNat 32 k

theorem pfnOf_toNat (small : k < pageEntryNumber) : (pfnOf k).toNat = 0xb0001000 + k := by
  have base : (0xb0001000 : Word).toNat = 0xb0001000 := by decide
  simp only [pageEntryNumber] at small
  rw [pfnOf, BitVec.toNat_add, BitVec.toNat_ofNat, base]
  omega

theorem pfnOf_valid (small : k < pageEntryNumber) : pfnOf k >>> 28 = pteValid := by
  apply BitVec.eq_of_toNat_eq
  have tag : pteValid.toNat = 0xb := by decide
  simp only [pageEntryNumber] at small
  rw [BitVec.toNat_ushiftRight, pfnOf_toNat small, tag, Nat.shiftRight_eq_div_pow]
  omega

/-- The mask lets 13 bits through, and the counter starts at `0x1000`. -/
theorem pfnOf_frame (small : k < pageEntryNumber) :
    (pfnOf k &&& 0x1fff).toNat = (0x1000 + k) % 0x2000 := by
  have mask : (0x1fff : Word).toNat = 2 ^ 13 - 1 := by decide
  rw [BitVec.toNat_and, pfnOf_toNat small, mask, Nat.and_two_pow_sub_one_eq_mod]
  omega

theorem zero_invalid : (0 : Word) >>> 28 ≠ pteValid := by decide

/-- A valid entry stays as it is. -/
def Keeps (m m' : Memory) : Prop :=
  ∀ v, m.pageEntrys v >>> 28 = pteValid → m'.pageEntrys v = m.pageEntrys v

theorem Keeps.refl : Keeps m m := fun _ _ => rfl

theorem Keeps.trans {m₁ m₂ m₃ : Memory} (first : Keeps m₁ m₂) (second : Keeps m₂ m₃) :
    Keeps m₁ m₃ := by
  intro v valid
  have same := first v valid
  rw [second v (same ▸ valid), same]

theorem Keeps.frame (keeps : Keeps m m') (frame : pageFrame m v = some f) :
    pageFrame m' v = some f := by
  rw [pageFrame] at frame ⊢
  split at frame
  next here => rwa [keeps v here.2, if_pos here]
  · cases frame

/-- Every address of the pair leads to the frame that the table has for its page. -/
def Translates (m : Memory) (e : TlbEntry) : Prop :=
  ∀ asid va : Word, va >>> 13 = e.entryhi >>> 13 → ∃ f, pageFrame m (va >>> 12).toNat = some f ∧
    translate e asid va = some (0x1000 * f + va.toNat % 0x1000)

theorem Translates.keeps (translates : Translates m e) (keeps : Keeps m m') :
    Translates m' e := by
  intro asid va same
  obtain ⟨f, frame, address⟩ := translates asid va same
  exact ⟨f, keeps.frame frame, address⟩

/-- The valid entries are numbered in the order of their faults. -/
structure Paged (m : Memory) (next : Nat) (number : Nat → Option Nat) : Prop where
  numbered : Numbered pageEntryNumber next number
  entries : ∀ v < pageEntryNumber, m.pageEntrys v = (number v).elim 0 pfnOf
  count : m.count = next
  installed : ∀ e ∈ m.installed, Translates m e

theorem Paged.valid (paged : Paged m next number) (inside : v < pageEntryNumber) :
    m.pageEntrys v >>> 28 = pteValid ↔ ∃ k, number v = some k := by
  rw [paged.entries v inside]
  cases here : number v with
  | none => simpa using zero_invalid
  | some k =>
    have small := (paged.numbered.place here).2
    have bound := paged.numbered.bound
    simpa using pfnOf_valid (by omega)

theorem Paged.frame (paged : Paged m next number) (frame : pageFrame m v = some f) :
    ∃ k, number v = some k ∧ k < pageEntryNumber ∧ f = (0x1000 + k) % 0x2000 := by
  rw [pageFrame] at frame
  split at frame
  next here =>
    obtain ⟨k, numbered⟩ := (paged.valid here.1).mp here.2
    have small := (paged.numbered.place numbered).2
    have bound := paged.numbered.bound
    have low : k < pageEntryNumber := by omega
    refine ⟨k, numbered, low, ?_⟩
    rw [paged.entries v here.1, numbered] at frame
    exact (Option.some.inj frame).symm.trans (pfnOf_frame low)
  · cases frame

/-- A page that has no frame gets the next one. -/
theorem Paged.fault (paged : Paged m next number) (inside : v < pageEntryNumber)
    (free : number v = none) : ∃ m', doPageFault v m = some m' ∧
      Paged m' (next + 1) (Function.update number v (some next)) ∧ Keeps m m' ∧
      m'.installed = m.installed := by
  have room := paged.numbered.room inside free
  have keeps : ∀ w, m.pageEntrys w >>> 28 = pteValid → w ≠ v := by
    rintro w valid rfl
    obtain ⟨k, here⟩ := (paged.valid inside).mp valid
    simp [free] at here
  let m' : Memory := { m with
    pageEntrys := Function.update m.pageEntrys v (0xb0001000 + BitVec.ofInt 32 m.count)
    count := int32 (m.count + 1)
    printed := if 0xfff < m.count then "physical memory is full!!!\n" :: m.printed else m.printed }
  have kept : Keeps m m' := fun w valid => Function.update_of_ne (keeps w valid) ..
  refine ⟨m', by rw [doPageFault, if_pos inside], ?_, kept, rfl⟩
  constructor
  · exact paged.numbered.assign inside free
  · intro w low
    change Function.update m.pageEntrys v (0xb0001000 + BitVec.ofInt 32 m.count) w = _
    by_cases here : w = v
    · subst here
      rw [Function.update_self, Function.update_self, paged.count, BitVec.ofInt_natCast]
      rfl
    · rw [Function.update_of_ne here, Function.update_of_ne here]
      exact paged.entries w low
  · simp only [pageEntryNumber] at room
    change int32 (m.count + 1) = _
    rw [paged.count, int32_of_lt (by omega) (by omega)]
    rfl
  · exact fun e member => (paged.installed e member).keeps kept

theorem Paged.fill (paged : Paged m next number) (inside : v < pageEntryNumber) :
    ∃ m' next' number', fill v m = some m' ∧ Paged m' next' number' ∧ Keeps m m' ∧
      m'.installed = m.installed ∧ m'.pageEntrys v >>> 28 = pteValid := by
  have read : pageEntry v m = some (m.pageEntrys v) := if_pos inside
  by_cases valid : m.pageEntrys v >>> 28 = pteValid
  · exact ⟨m, next, number, by simp [Paging.fill, read, valid], paged, Keeps.refl, rfl, valid⟩
  · have free : number v = none := by
      by_contra some
      exact valid ((paged.valid inside).mpr (Option.ne_none_iff_exists'.mp some))
    obtain ⟨m', fault, paged', keeps, same⟩ := paged.fault inside free
    refine ⟨m', _, _, by simp [Paging.fill, read, valid, fault], paged', keeps, same, ?_⟩
    exact (paged'.valid inside).mpr ⟨next, Function.update_self ..⟩

theorem entrylo_toNat (small : pfn.toNat < 0x2000) :
    (entrylo pfn).toNat = 0x40 * pfn.toNat + 0x17 := by
  have flags : (2 <<< 3 ||| (1 <<< 2 ||| (1 <<< 1 ||| globalAsid)) : Word) = 0x17 := by decide
  have joined : pfn.toNat <<< 6 ||| 0x17 = pfn.toNat <<< 6 + 0x17 :=
    (Nat.shiftLeft_add_eq_or_of_lt (by decide) _).symm
  have number : (0x17 : Word).toNat = 0x17 := by decide
  simp only [entrylo, BitVec.or_assoc, flags]
  rw [BitVec.toNat_or, BitVec.toNat_shiftLeft, number, Nat.mod_eq_of_lt, joined,
    Nat.shiftLeft_eq]
  · omega
  · rw [Nat.shiftLeft_eq]
    omega

/-- The frame and the flags come out of `entrylo` as they went in. -/
theorem entrylo_fields (small : pfn.toNat < 0x2000) :
    (entrylo pfn >>> 6 &&& 0xfffff).toNat = pfn.toNat ∧ (entrylo pfn).getLsbD 0 = true ∧
      (entrylo pfn).getLsbD 1 = true := by
  have mask : (0xfffff : Word).toNat = 2 ^ 20 - 1 := by decide
  have value := entrylo_toNat small
  refine ⟨?_, ?_, ?_⟩
  · rw [BitVec.toNat_and, BitVec.toNat_ushiftRight, value, mask, Nat.and_two_pow_sub_one_eq_mod,
      Nat.shiftRight_eq_div_pow]
    omega
  · simp only [BitVec.getLsbD, value, Nat.testBit_eq_decide_div_mod_eq, decide_eq_true_eq]
    omega
  · simp only [BitVec.getLsbD, value, Nat.testBit_eq_decide_div_mod_eq, decide_eq_true_eq]
    omega

theorem entryhi_pair (badvaddr pid : Word) :
    (badvaddr >>> 12 >>> 1 <<< 13 ||| pid &&& 0xff) >>> 13 = badvaddr >>> 13 := by
  apply BitVec.eq_of_toNat_eq
  have low : (pid &&& 0xff).toNat < 2 ^ 13 := by
    have mask : (0xff : Word).toNat = 2 ^ 8 - 1 := by decide
    rw [BitVec.toNat_and, mask, Nat.and_two_pow_sub_one_eq_mod]
    omega
  have bound := badvaddr.isLt
  rw [BitVec.toNat_ushiftRight, BitVec.toNat_or, Nat.shiftRight_or_distrib]
  simp only [BitVec.toNat_ushiftRight, BitVec.toNat_shiftLeft, Nat.shiftRight_eq_div_pow,
    Nat.shiftLeft_eq]
  rw [Nat.div_eq_of_lt low, Nat.or_zero]
  omega

/-- The pair that a refill looks up. -/
theorem refill_index (badvaddr : Word) :
    (badvaddr >>> 12 >>> 1 * 2).toNat = 2 * (badvaddr.toNat / 0x2000) ∧
      (badvaddr >>> 12 >>> 1 * 2 + 1).toNat = 2 * (badvaddr.toNat / 0x2000) + 1 := by
  have two : (2 : Word).toNat = 2 := by decide
  have one : (1 : Word).toNat = 1 := by decide
  have bound := badvaddr.isLt
  have even : (badvaddr >>> 12 >>> 1 * 2).toNat = 2 * (badvaddr.toNat / 0x2000) := by
    simp only [BitVec.toNat_mul, BitVec.toNat_ushiftRight, Nat.shiftRight_eq_div_pow, two]
    omega
  refine ⟨even, ?_⟩
  rw [BitVec.toNat_add, even, one]
  omega

/-- The entry made of the two table entries of a pair. -/
theorem translates_pair {pfn0 pfn1 : Word} {n : Nat}
    (hi : (e.entryhi >>> 13).toNat = n) (lo0 : e.entrylo0 = entrylo (pfn0 &&& 0x1fff))
    (lo1 : e.entrylo1 = entrylo (pfn1 &&& 0x1fff)) (whole : e.pagemask = 0)
    (frame0 : pageFrame m (2 * n) = some (pfn0 &&& 0x1fff).toNat)
    (frame1 : pageFrame m (2 * n + 1) = some (pfn1 &&& 0x1fff).toNat) : Translates m e := by
  have low : ∀ pfn : Word, (pfn &&& 0x1fff).toNat < 0x2000 := by
    intro pfn
    have mask : (0x1fff : Word).toNat = 2 ^ 13 - 1 := by decide
    rw [BitVec.toNat_and, mask, Nat.and_two_pow_sub_one_eq_mod]
    omega
  intro asid va same
  have upper := congrArg BitVec.toNat same
  simp only [BitVec.toNat_ushiftRight, Nat.shiftRight_eq_div_pow] at upper hi
  have select : va.getLsbD 12 = decide (va.toNat / 0x1000 % 2 = 1) := by
    simp only [BitVec.getLsbD, Nat.testBit_eq_decide_div_mod_eq]
  obtain ⟨number0, global0, valid0⟩ := entrylo_fields (low pfn0)
  obtain ⟨number1, global1, valid1⟩ := entrylo_fields (low pfn1)
  have page : (va >>> 12).toNat = va.toNat / 0x1000 := by
    rw [BitVec.toNat_ushiftRight, Nat.shiftRight_eq_div_pow]
  by_cases odd : va.toNat / 0x1000 % 2 = 1
  · have here : (va >>> 12).toNat = 2 * n + 1 := by omega
    refine ⟨(pfn1 &&& 0x1fff).toNat, here ▸ frame1, ?_⟩
    simp only [translate, select, odd, decide_true, if_true, lo0, lo1]
    rw [if_pos ⟨same, whole, .inl ⟨global0, global1⟩, valid1⟩, number1]
  · have here : (va >>> 12).toNat = 2 * n := by omega
    refine ⟨(pfn0 &&& 0x1fff).toNat, here ▸ frame0, ?_⟩
    simp only [translate, select, odd, decide_false, Bool.false_eq_true, if_false, lo0, lo1]
    rw [if_pos ⟨same, whole, .inl ⟨global0, global1⟩, valid0⟩, number0]

/-- A refill gives frames to the two pages of the pair and installs them. -/
theorem Paged.refill (pid : Word) (paged : Paged m next number)
    (mapped : badvaddr.toNat < pageEntryNumber * 0x1000) :
    ∃ m' next' number' e, doTLBRefill badvaddr pid m = some m' ∧ Paged m' next' number' ∧
      Keeps m m' ∧ m'.installed = e :: m.installed ∧ e.entryhi >>> 13 = badvaddr >>> 13 := by
  obtain ⟨even, odd⟩ := refill_index badvaddr
  simp only [pageEntryNumber] at mapped
  have inside0 : 2 * (badvaddr.toNat / 0x2000) < pageEntryNumber := by
    simp only [pageEntryNumber]
    omega
  have inside1 : 2 * (badvaddr.toNat / 0x2000) + 1 < pageEntryNumber := by
    simp only [pageEntryNumber]
    omega
  obtain ⟨m₁, _, _, fill0, paged₁, keeps₁, same₁, valid0⟩ := paged.fill inside0
  obtain ⟨m₂, next', number', fill1, paged₂, keeps₂, same₂, valid1⟩ := paged₁.fill inside1
  have valid0 : m₂.pageEntrys (2 * (badvaddr.toNat / 0x2000)) >>> 28 = pteValid := by
    rw [keeps₂ _ valid0, valid0]
  have read0 : pageEntry (2 * (badvaddr.toNat / 0x2000)) m₂ = some _ := if_pos inside0
  have read1 : pageEntry (2 * (badvaddr.toNat / 0x2000) + 1) m₂ = some _ := if_pos inside1
  let e : TlbEntry := ⟨badvaddr >>> 12 >>> 1 <<< 13 ||| pid &&& 0xff,
    entrylo (m₂.pageEntrys (2 * (badvaddr.toNat / 0x2000)) &&& 0x1fff),
    entrylo (m₂.pageEntrys (2 * (badvaddr.toNat / 0x2000) + 1) &&& 0x1fff), 0⟩
  have pair : e.entryhi >>> 13 = badvaddr >>> 13 := entryhi_pair badvaddr pid
  refine ⟨{ m₂ with installed := e :: m₂.installed }, next', number', e, ?_, ?_,
    keeps₁.trans keeps₂, by rw [same₂, same₁], pair⟩
  · simp only [doTLBRefill, even, odd, fill0, fill1, read0, read1, Option.bind_eq_bind,
      Option.bind_some]
    rfl
  · refine ⟨paged₂.numbered, paged₂.entries, paged₂.count, ?_⟩
    intro e' member
    rcases List.mem_cons.mp member with rfl | old
    · refine translates_pair (n := badvaddr.toNat / 0x2000) ?_ rfl rfl rfl
        (if_pos ⟨inside0, valid0⟩) (if_pos ⟨inside1, valid1⟩)
      rw [pair, BitVec.toNat_ushiftRight, Nat.shiftRight_eq_div_pow]
    · exact paged₂.installed e' old

theorem cleared_paged : Paged cleared 0 fun _ => none where
  numbered := .nothing
  entries _ _ := rfl
  count := rfl
  installed := nofun

/-- A refill for a faulting address, by a process with that `pid`. -/
def Refill (m : Memory) (fault : Word × Word) (m' : Memory) : Prop :=
  doTLBRefill fault.1 fault.2 m = some m'

/-- The address belongs to one of the pages of the table. -/
def Mapped (_ : Memory) (fault : Word × Word) : Prop :=
  fault.1.toNat < pageEntryNumber * 0x1000

theorem refill_step {fault : Word × Word} (paged : Paged m next number) (mapped : Mapped m fault)
    (step : Refill m fault m') : (∃ next number, Paged m' next number) ∧ Keeps m m' := by
  obtain ⟨m₁, next', number', e, result, paged', keeps, _⟩ := paged.refill fault.2 mapped
  rw [Refill, result] at step
  cases step
  exact ⟨⟨next', number', paged'⟩, keeps⟩

theorem reachable_paged (reach : Reachable Refill Mapped cleared m) :
    ∃ next number, Paged m next number := by
  refine reach.invariant (fun m => ∃ next number, Paged m next number) ⟨_, _, cleared_paged⟩ ?_
  rintro m fault m' ⟨next, number, paged⟩ mapped step
  exact (refill_step paged mapped step).1

/-- What holds of the table and of every entry that was ever installed. -/
structure Isolated (m : Memory) : Prop where
  injective : ∀ v w f, pageFrame m v = some f → pageFrame m w = some f → v = w
  tagged : ∀ v < pageEntryNumber, m.pageEntrys v = 0 ∨ m.pageEntrys v >>> 28 = pteValid
  installed : ∀ e ∈ m.installed, Translates m e
  stable : ∀ m', Reachable Refill Mapped m m' → Keeps m m'
  refill : ∀ badvaddr pid, Mapped m (badvaddr, pid) → ∃ m' e,
    doTLBRefill badvaddr pid m = some m' ∧ m'.installed = e :: m.installed ∧
      e.entryhi >>> 13 = badvaddr >>> 13

theorem Paged.isolated (paged : Paged m next number) : Isolated m where
  injective v w f here there := by
    obtain ⟨k, first, low, rfl⟩ := paged.frame here
    obtain ⟨l, second, low', same⟩ := paged.frame there
    simp only [pageEntryNumber] at low low'
    have equal : k = l := by omega
    exact paged.numbered.single first (equal ▸ second)
  tagged v inside := by
    rw [paged.valid inside, paged.entries v inside]
    cases number v with
    | none => exact .inl rfl
    | some k => exact .inr ⟨k, rfl⟩
  installed := paged.installed
  stable m' reach := by
    have both : (∃ next number, Paged m' next number) ∧ Keeps m m' := by
      refine reach.invariant (fun m' => (∃ next number, Paged m' next number) ∧ Keeps m m')
        ⟨⟨next, number, paged⟩, Keeps.refl⟩ ?_
      rintro m₁ fault m₂ ⟨⟨next, number, paged⟩, keeps⟩ mapped step
      obtain ⟨paged', keeps'⟩ := refill_step paged mapped step
      exact ⟨paged', keeps.trans keeps'⟩
    exact both.2
  refill badvaddr pid mapped := by
    obtain ⟨m', _, _, e, result, _, _, installed, pair⟩ := paged.refill pid mapped
    exact ⟨m', e, result, installed, pair⟩

/-- Whatever pages are touched in whatever order, no two of them share a frame. -/
theorem reachable_isolated (reach : Reachable Refill Mapped cleared m) : Isolated m := by
  obtain ⟨next, number, paged⟩ := reachable_paged reach
  exact paged.isolated

/-- The first fault of the shell, at the top of its stack. -/
theorem reachable_isolated_shell : ∃ m, Reachable Refill Mapped cleared m ∧ Isolated m ∧
    m.installed ≠ [] := by
  have mapped : Mapped cleared (0x003ffffc, 1) := by
    change (0x003ffffc : Word).toNat < pageEntryNumber * 0x1000
    decide
  obtain ⟨m, _, _, e, result, _, _, installed, _⟩ := cleared_paged.refill 1 mapped
  have reach : Reachable Refill Mapped cleared m := .step .start mapped result
  exact ⟨m, reach, reachable_isolated reach, by simp [installed]⟩

end Tina.Paging
