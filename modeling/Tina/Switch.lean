import Tina.Contexts

/-! Over whole runs, the routines of `entry.S` give every process registers of its own. -/
namespace Tina.Mips

open SaveArea Layout

variable {g : Symbols} {s t : System} {a : Private} {e : Event} {p q : Slot} {f : Field}
  {v : Vector} {m m' : Field → Word}

/-- The processor and the contexts hold what each process would have alone. -/
structure Shows (g : Symbols) (s : System) (a : Private) : Prop where
  pointed : s.cpu.mem g.currentRunning = pointer g s.current
  alone : ∀ p, p ≠ s.current → (s.stage p).Away
  present : ¬(s.stage s.current).Away
  inUser : s.stage s.current = .user →
    (∀ f ∈ saved, view s.cpu f = a.user s.current f) ∧ s.cpu.cp0 .status &&& exl = 0
  outOfUser : ∀ p, s.stage p ≠ .user →
    ∀ f ∈ saved, returned (context g s.cpu p user) f = a.user p f
  inKernel : ∀ v, s.stage s.current = .kernel v →
    ∀ f ∈ saved, f.read s.cpu = a.kernel s.current f
  outOfKernel : ∀ p, p ≠ s.current → ∀ f ∈ saved, context g s.cpu p kernel f = a.kernel p f
  starting : s.stage s.current = .starting →
    s.cpu.pc = g.embryoStart ∧ s.cpu.cp0 .status = 0
  born : ∀ p, s.stage p = .embryo → a.kernel p (.reg ra) = g.embryoStart ∧ a.kernel p .status = 0
  masked : ∀ p v, s.stage p = .kernel v ∨ s.stage p = .parked v → a.kernel p .status &&& 0x01 = 0
  tops : ∀ p, s.stage p ≠ .vacant →
    s.cpu.mem (pcbAddress g p + kernelStackTop) = kstackTop p

theorem returned_congr (same : ∀ f ∈ saved, m f = m' f) :
    ∀ f ∈ saved, returned m f = returned m' f := by
  intro f member
  have status := same .status (by decide)
  simp only [returned, status, same f member]

theorem returned_update {w : Word} {e : Field} (notT0 : e ≠ .reg t0) (notStatus : e ≠ .status) :
    returned (Function.update m e w) = Function.update (returned m) e w := by
  funext f
  by_cases same : f = e
  · subst same
    simp [returned, notT0, notStatus]
  · simp [returned, same, notStatus.symm]

theorem trapped_congr (same : ∀ f ∈ saved, m f = m' f) :
    ∀ f ∈ saved, trapped m f = trapped m' f := by
  intro f member
  have status := same .status (by decide)
  simp only [trapped, status, same f member]

theorem eretStatus_exl (status : Word) : eretStatus status &&& exl = 0 := by
  have bits : ~~~exl &&& exl = 0 := by decide
  rw [eretStatus, BitVec.and_assoc, bits]
  exact BitVec.and_zero

theorem trapStatus_enabled (status : Word) : trapStatus status &&& 0x01 = 0 := by
  have bits : (0xfffe : Word) &&& 0x01 = 0 := by decide
  rw [trapStatus, BitVec.and_assoc, bits]
  exact BitVec.and_zero

/-- What `CLI` leaves, in terms of what user code had. -/
theorem masked_trap {c : Cpu} (level : c.cp0 .status &&& exl = 0) (member : f ∈ saved) :
    f.read (masked (trap c)) = trapped (view c) f := by
  have epc : (trap c).cp0 .epc = c.pc := by simp [trap, level]
  have status : (trap c).cp0 .status = c.cp0 .status ||| exl := by simp [trap, level]
  cases f with
  | reg r =>
    by_cases isT0 : r = t0
    · subst isT0
      simp [Field.read, Mips.masked, trapped, trapStatus, view, status,
        Cpu.get_set_self (by decide : t0 ≠ 0)]
    · simp [Field.read, Mips.masked, trapped, view, isT0, Cpu.get_set_other isT0, trap, level]
  | status => simp [Field.read, Mips.masked, trapped, trapStatus, view, status]
  | hi | lo => simp [Field.read, Mips.masked, trapped, view, trap, level]
  | epc => simp [Field.read, Mips.masked, trapped, view, epc]

theorem Leaves.view {c c' : Cpu} (leaves : Leaves g p c c') (member : f ∈ saved) :
    view c' f = returned (context g c p user) f := by
  by_cases isEpc : f = .epc
  · subst isEpc
    exact leaves.pc
  rw [Mips.view, if_neg isEpc, returned]
  split
  · rename_i isT0
    subst isT0
    exact leaves.t0
  · rename_i notT0
    split
    · rename_i isStatus
      subst isStatus
      exact leaves.status
    · rename_i notStatus
      exact leaves.read f member notT0 notStatus

/-! One lemma for each event. -/

theorem Shows.userStep {c : Cpu} {file : Field → Word} (shows : Shows g s a)
    (isUser : s.stage s.current = .user) (memory : Untouched g s.cpu c)
    (pointed : c.mem g.currentRunning = s.cpu.mem g.currentRunning)
    (file_eq : ∀ f ∈ saved, view c f = file f) (level : c.cp0 .status &&& exl = 0) :
    Shows g { s with cpu := c } (a.step g ⟨s.current, .user file⟩) where
  pointed := pointed.trans shows.pointed
  alone := shows.alone
  present := shows.present
  inUser _ := by
    refine ⟨fun f member => ?_, level⟩
    rw [file_eq f member]
    simp [Private.step]
  outOfUser p outside f member := by
    have other : p ≠ s.current := fun same => outside (same ▸ isUser)
    have before := shows.outOfUser p outside
    rw [returned_congr (fun e first => memory.context (Nat.le_refl _) first) f member,
      before f member]
    simp [Private.step, other]
  inKernel v stage := by
    rw [isUser] at stage
    cases stage
  outOfKernel p other f member := by
    rw [memory.context (by decide) member]
    exact shows.outOfKernel p other f member
  starting stage := by
    rw [isUser] at stage
    cases stage
  born := shows.born
  masked := shows.masked
  tops p used := by rw [memory.stack, shows.tops p used]

/-- The kernel cannot be made to take an interrupt either: it does not change `STATUS`. -/
theorem Shows.kernelStep {c : Cpu} {file : Field → Word} (shows : Shows g s a)
    (isKernel : s.stage s.current = .kernel v) (memory : Untouched g s.cpu c)
    (pointed : c.mem g.currentRunning = s.cpu.mem g.currentRunning)
    (file_eq : ∀ f ∈ saved, f.read c = file f) (status : c.cp0 .status = s.cpu.cp0 .status) :
    Shows g { s with cpu := c } (a.step g ⟨s.current, .kernel file⟩) where
  pointed := pointed.trans shows.pointed
  alone := shows.alone
  present := shows.present
  inUser stage := by
    rw [isKernel] at stage
    cases stage
  outOfUser p outside f member := by
    rw [returned_congr (fun e first => memory.context (Nat.le_refl _) first) f member]
    exact shows.outOfUser p outside f member
  inKernel _ _ f member := by
    rw [file_eq f member]
    simp [Private.step]
  outOfKernel p other f member := by
    rw [memory.context (by decide) member]
    simpa [Private.step, other] using shows.outOfKernel p other f member
  starting stage := by
    rw [isKernel] at stage
    cases stage
  born p stage := by
    have other : p ≠ s.current := by
      rintro rfl
      rw [isKernel] at stage
      cases stage
    simpa [Private.step, other] using shows.born p stage
  masked p w stage := by
    by_cases same : p = s.current
    · subst same
      have kept : file .status = a.kernel s.current .status := by
        rw [← file_eq .status (by decide), ← shows.inKernel v isKernel .status (by decide)]
        exact status
      simpa [Private.step, kept] using shows.masked s.current v (.inl isKernel)
    · simpa [Private.step, same] using shows.masked p w stage
  tops p used := by rw [memory.stack, shows.tops p used]

/-- A trap puts what user code had into its context; the handler starts on the kernel stack. -/
theorem Shows.trapStep (shows : Shows g s a) (v : Vector) (isUser : s.stage s.current = .user) :
    Shows g { s with
      cpu := run (v.entry g) (Mips.trap s.cpu)
      stage := Function.update s.stage s.current (.kernel v) }
      (a.step g ⟨s.current, .trap v⟩) := by
  obtain ⟨file, level⟩ := shows.inUser isUser
  have kept : (Mips.trap s.cpu).mem = s.cpu.mem := by simp [Mips.trap, level]
  have enters := run_entry (c := Mips.trap s.cpu) v (by rw [kept]; exact shows.pointed)
  obtain ⟨c, isC⟩ : ∃ c, run (v.entry g) (Mips.trap s.cpu) = c := ⟨_, rfl⟩
  rw [isC] at enters ⊢
  -- Only the user context of this process and its word for `EntryHi` are written.
  have memory : ∀ p, ∀ k < sizeofPcb, (p = s.current → k < user ∨ k = kernelStackTop) →
      c.mem (pcbAddress g p + k) = s.cpu.mem (pcbAddress g p + k) := by
    intro p k inside own
    rw [enters.outside, kept]
    · intro f member
      have small := @area_lt _ user (Nat.le_refl _) member
      by_cases same : p = s.current
      · have place := own same
        subst same
        simp only [area]
        omega
      · exact pcbAddress_apart (Ne.symm same) (Nat.lt_trans small (by decide)) inside
    · by_cases same : p = s.current
      · have place := own same
        subst same
        have first : user < user + offsetEntryhi := by decide
        have second : kernelStackTop ≠ user + offsetEntryhi := by decide
        omega
      · exact pcbAddress_apart same inside (by decide)
  have symbol : c.mem g.currentRunning = s.cpu.mem g.currentRunning := by
    rw [enters.outside, kept]
    · intro f member
      have small := @area_lt _ user (Nat.le_refl _) member
      exact (pcbAddress_symbol (Nat.lt_trans small (by decide))).symm
    · exact pcbAddress_symbol (by decide)
  have own : ∀ f ∈ saved, context g c s.current user f = trapped (a.user s.current) f := by
    intro f member
    rw [context, enters.saved f member, masked_trap level member]
    exact trapped_congr file f member
  constructor
  · exact symbol.trans shows.pointed
  · intro p other
    simpa [other] using shows.alone p other
  · simp [Stage.Away]
  · simp
  · intro p outside f member
    by_cases same : p = s.current
    · subst same
      rw [returned_congr own f member]
      simp [Private.step]
    · have before : s.stage p ≠ .user := by simpa [same] using outside
      have others : ∀ e ∈ saved, context g c p user e = context g s.cpu p user e := by
        intro e first
        have small := @area_lt _ user (Nat.le_refl _) first
        exact memory p _ (Nat.lt_trans small (by decide)) fun here => absurd here same
      rw [returned_congr others f member, shows.outOfUser p before f member]
      simp [Private.step, same]
  · intro w _ f member
    have plain := saved_plain f member
    by_cases isSp : f = .reg sp
    · subst isSp
      have top : c.get sp = kstackTop s.current := by
        rw [enters.stack, kept, shows.tops s.current (by simp [isUser])]
      simpa [Private.step, entered, Field.read] using top
    · rw [enters.read f plain isSp, masked_trap level member]
      simpa [Private.step, entered, isSp] using trapped_congr file f member
  · intro p other f member
    have small := @area_lt _ kernel (by decide) member
    have before := shows.outOfKernel p other f member
    rw [context, area] at before ⊢
    rw [memory p _ (Nat.lt_trans small (by decide)) fun here => absurd here other]
    simpa [Private.step, other] using before
  · simp
  · intro p stage
    have other : p ≠ s.current := by
      rintro rfl
      simp at stage
    simpa [Private.step, other] using shows.born p (by simpa [other] using stage)
  · intro p w stage
    by_cases same : p = s.current
    · subst same
      have status : entered s.current (a.user s.current) .status =
          trapStatus (a.user s.current .status) := by simp [entered, trapped]
      simpa [Private.step, status] using trapStatus_enabled (a.user s.current .status)
    · simpa [Private.step, same] using shows.masked p w (by simpa [same] using stage)
  · intro p used
    rw [memory p kernelStackTop (by decide) fun _ => .inr rfl]
    apply shows.tops p
    by_cases same : p = s.current
    · simp [same, isUser]
    · simpa [same] using used

theorem Shows.edit {c : Cpu} {e : Field} {w : Word} {b : Private} (shows : Shows g s a)
    (isKernel : s.stage s.current = .kernel v) (saved_e : e ∈ saved)
    (plain : e ≠ .reg t0 ∧ e ≠ .status)
    (memory : c.mem = Function.update s.cpu.mem (area g s.current user e) w)
    (user_eq : b.user = Function.update a.user s.current (Function.update (a.user s.current) e w))
    (file : ∀ f ∈ saved, f.read c = b.kernel s.current f)
    (status : b.kernel s.current .status = a.kernel s.current .status)
    (others : ∀ p, p ≠ s.current → b.kernel p = a.kernel p) :
    Shows g { s with cpu := c } b := by
  have low := @area_lt _ user (Nat.le_refl _) saved_e
  have pcbs : ∀ p k, k < sizeofPcb → (p = s.current → k ≠ user + e.offset) →
      c.mem (pcbAddress g p + k) = s.cpu.mem (pcbAddress g p + k) := by
    intro p k inside own
    rw [memory, Function.update_of_ne]
    by_cases same : p = s.current
    · have place := own same
      subst same
      simp only [area]
      omega
    · exact pcbAddress_apart same inside (Nat.lt_trans low (by decide))
  have edited : ∀ f ∈ saved, context g c s.current user f =
      Function.update (context g s.cpu s.current user) e w f := by
    intro f member
    rw [context, memory]
    by_cases same : f = e
    · subst same
      rw [Function.update_self, Function.update_self]
    · rw [Function.update_of_ne same, Function.update_of_ne, context]
      intro address
      exact same (area_inj (.inr rfl) (.inr rfl) member saved_e address).2.2
  constructor
  · rw [memory, Function.update_of_ne]
    · exact shows.pointed
    · exact pcbAddress_symbol (Nat.lt_trans low (by decide))
  · exact shows.alone
  · exact shows.present
  · intro stage
    rw [isKernel] at stage
    cases stage
  · intro p outside f member
    have before := shows.outOfUser p outside
    rw [user_eq]
    by_cases same : p = s.current
    · subst same
      rw [returned_congr edited f member, returned_update plain.1 plain.2, Function.update_self]
      by_cases isE : f = e
      · rw [isE, Function.update_self, Function.update_self]
      · rw [Function.update_of_ne isE, Function.update_of_ne isE, before f member]
    · have others : ∀ i ∈ saved, context g c p user i = context g s.cpu p user i := by
        intro i first
        have small := @area_lt _ user (Nat.le_refl _) first
        exact pcbs p _ (Nat.lt_trans small (by decide)) fun here => absurd here same
      rw [returned_congr others f member, before f member, Function.update_of_ne same]
  · intro w _ f member
    exact file f member
  · intro p other f member
    have small := @area_lt _ kernel (by decide) member
    have before := shows.outOfKernel p other f member
    rw [context, area] at before ⊢
    rw [pcbs p _ (Nat.lt_trans small (by decide)) fun here => absurd here other, before,
      others p other]
  · intro stage
    rw [isKernel] at stage
    cases stage
  · intro p stage
    have other : p ≠ s.current := by
      rintro rfl
      rw [isKernel] at stage
      cases stage
    rw [others p other]
    exact shows.born p stage
  · intro p u stage
    by_cases same : p = s.current
    · subst same
      rw [status]
      exact shows.masked s.current u stage
    · rw [others p same]
      exact shows.masked p u stage
  · intro p used
    rw [pcbs p kernelStackTop (by decide) fun _ => (Nat.ne_of_lt low).symm]
    exact shows.tops p used

theorem Shows.epcPlus4Step (shows : Shows g s a) (isKernel : s.stage s.current = .kernel v) :
    Shows g { s with cpu := run (userEpcPlus4 g) s.cpu } (a.step g ⟨s.current, .epcPlus4⟩) := by
  have edits := run_userEpcPlus4 shows.pointed
  have epc := shows.outOfUser s.current (by simp [isKernel]) .epc (by decide)
  have same : s.cpu.mem (area g s.current user .epc) = a.user s.current .epc := epc
  rw [same] at edits
  refine shows.edit isKernel (by decide) (by decide) edits.mem rfl ?_ rfl fun _ _ => rfl
  intro f member
  rw [edits.read f (saved_plain f member)]
  exact shows.inKernel v isKernel f member

theorem Shows.returnIntStep (shows : Shows g s a) (w : Word)
    (isKernel : s.stage s.current = .kernel v) :
    Shows g { s with cpu := run (returnInt32 g) (s.cpu.set a0 w) }
      (a.step g ⟨s.current, .returnInt w⟩) := by
  have here : (s.cpu.set a0 w).mem g.currentRunning = pointer g s.current := by
    rw [Cpu.set_mem, shows.pointed]
  have edits := run_returnInt32 here
  rw [Cpu.get_set_self (by decide : a0 ≠ 0)] at edits
  refine shows.edit isKernel (e := .reg v0) (w := w) (by decide) (by decide) ?_ rfl ?_ ?_ ?_
  · rw [edits.mem, Cpu.set_mem]
  · intro f member
    rw [edits.read f (saved_plain f member)]
    by_cases isA0 : f = .reg a0
    · subst isA0
      have value : (s.cpu.set a0 w).get a0 = w := Cpu.get_set_self (by decide)
      simpa [Private.step, Field.read] using value
    · rw [Field.read_set isA0]
      simpa [Private.step, isA0] using shows.inKernel v isKernel f member
  · simp [Private.step]
  · intro p other
    simp [Private.step, other]

/-- The contexts of another process are filled in; the caller may only lose those in memory, which
it does not use until it has been away. -/
theorem Shows.spawnStep (shows : Shows g s a) (dest : Slot) (entryPoint : Word)
    (isKernel : s.stage s.current = .kernel v) :
    Shows g { s with
      cpu := assignContexts g dest entryPoint s.cpu
      stage := if dest = s.current then s.stage else Function.update s.stage dest .embryo }
      (a.step g ⟨s.current, .spawn dest entryPoint⟩) := by
  have assigns := @assignContexts_assigns g s.cpu dest entryPoint
  obtain ⟨c, isC⟩ : ∃ c, assignContexts g dest entryPoint s.cpu = c := ⟨_, rfl⟩
  obtain ⟨stage', isStage⟩ : ∃ stage', (if dest = s.current then s.stage
      else Function.update s.stage dest .embryo) = stage' := ⟨_, rfl⟩
  rw [isC] at assigns ⊢
  rw [isStage]
  have elsewhere : ∀ p, p ≠ dest → stage' p = s.stage p := by
    intro p other
    rw [← isStage]
    split
    · rfl
    · exact Function.update_of_ne other ..
  have here : stage' s.current = .kernel v := by
    rw [← isStage, ← isKernel]
    split
    · rfl
    · rename_i other
      exact Function.update_of_ne (Ne.symm other) ..
  have there : dest ≠ s.current → stage' dest = .embryo := by
    intro other
    rw [← isStage, if_neg other, Function.update_self]
  have userElse : ∀ p, p ≠ dest → ∀ f ∈ saved, context g c p user f = context g s.cpu p user f := by
    intro p other f member
    exact assigns.others p other _ (Nat.lt_trans (area_lt (Nat.le_refl _) member) (by decide))
  constructor
  · exact assigns.pointed.trans shows.pointed
  · intro p other
    by_cases same : p = dest
    · subst same
      simp [there other, Stage.Away]
    · simpa [elsewhere p same] using shows.alone p other
  · simp [here, Stage.Away]
  · intro stage
    cases here.symm.trans stage
  · intro p outside f member
    by_cases same : p = dest
    · subst same
      have mine : ∀ e ∈ saved, context g c p user e =
          if e ∈ assigned then startUser p entryPoint e else context g s.cpu p user e :=
        assigns.user
      rw [returned_congr mine f member]
      have before : s.stage p ≠ .user := by
        by_cases current : p = s.current
        · simp [current, isKernel]
        · have away := shows.alone p current
          intro stage
          simp [stage, Stage.Away] at away
      have old := shows.outOfUser p before f member
      have status : Field.status ∈ assigned := by decide
      by_cases filled : f ∈ assigned
      · simp [Private.step, returned, status, filled]
      · have isOld : f ≠ .status := fun equal => filled (equal ▸ status)
        by_cases isT0 : f = .reg t0
        · simp [Private.step, returned, status, isT0]
        · simp only [returned, if_neg isT0, if_neg isOld] at old
          simp [Private.step, returned, filled, isOld, isT0, old]
    · rw [returned_congr (userElse p same) f member]
      have before := shows.outOfUser p (by rw [← elsewhere p same]; exact outside) f member
      simpa [Private.step, same] using before
  · intro w _ f member
    have before := shows.inKernel v isKernel f member
    rw [assigns.read]
    by_cases same : dest = s.current
    · simpa [Private.step, same] using before
    · simpa [Private.step, same, Ne.symm same] using before
  · intro p other f member
    have before := shows.outOfKernel p other f member
    by_cases same : p = dest
    · subst same
      rw [assigns.kernel f member, before]
      simp [Private.step, other]
    · rw [context, area] at before ⊢
      rw [assigns.others p same _ (Nat.lt_trans (area_lt (by decide) member) (by decide))]
      by_cases own : dest = s.current
      · simpa [Private.step, own] using before
      · simpa [Private.step, own, same] using before
  · intro stage
    cases here.symm.trans stage
  · intro p stage
    have other : p ≠ s.current := by
      rintro rfl
      cases here.symm.trans stage
    by_cases same : p = dest
    · subst same
      simp [Private.step, other, assigned, startKernel, sp, ra]
    · have before := shows.born p (by rw [← elsewhere p same]; exact stage)
      by_cases own : dest = s.current
      · simpa [Private.step, own] using before
      · simpa [Private.step, own, same] using before
  · intro p w stage
    by_cases own : dest = s.current
    · have unchanged : stage' = s.stage := by rw [← isStage, if_pos own]
      simp only at stage
      rw [unchanged] at stage
      simpa [Private.step, own] using shows.masked p w stage
    · have same : p ≠ dest := by
        rintro rfl
        simp [there own] at stage
      simp only [elsewhere p same] at stage
      simpa [Private.step, own, same] using shows.masked p w stage
  · intro p used
    by_cases same : p = dest
    · subst same
      exact assigns.stack
    · rw [assigns.others p same _ (by decide)]
      exact shows.tops p (by simpa [elsewhere p same] using used)

/-- Whoever is chosen has its own registers, and goes on where it called or in `embryo_start`. -/
theorem Shows.switchStep {c : Cpu} (shows : Shows g s a) (status : Word) (next : Slot)
    (isKernel : s.stage s.current = .kernel v)
    (waits : next = s.current ∨ (s.stage next).Waits)
    (memory : Untouched g (run (schedCall g status) s.cpu) c)
    (pointed : c.mem g.currentRunning = pointer g next) :
    Shows g
      { cpu := run (schedReturn g) c
        stage :=
          let parked := Function.update s.stage s.current (s.stage s.current).park
          Function.update parked next (parked next).resume
        current := next }
      (a.step g ⟨s.current, .switch status next⟩) := by
  obtain ⟨stored, kept⟩ := run_schedCall status shows.pointed
  obtain ⟨loaded, after, back⟩ := run_schedReturn pointed
  obtain ⟨c', isC'⟩ : ∃ c', run (schedReturn g) c = c' := ⟨_, rfl⟩
  rw [isC'] at loaded after back ⊢
  have a_same : a.step g ⟨s.current, .switch status next⟩ = a := rfl
  rw [a_same]
  have park : (s.stage s.current).park = .parked v := by rw [isKernel]; rfl
  obtain ⟨parked, isParked⟩ : ∃ parked,
      Function.update s.stage s.current (s.stage s.current).park = parked := ⟨_, rfl⟩
  simp only [isParked]
  have own : parked s.current = .parked v := by rw [← isParked, Function.update_self, park]
  have others : ∀ p, p ≠ s.current → parked p = s.stage p := by
    intro p other
    rw [← isParked, Function.update_of_ne other]
  have chosen : (parked next).Waits := by
    by_cases same : next = s.current
    · rw [same, own]
      trivial
    · rw [others next same]
      exact waits.resolve_left same
  -- Every kernel context in memory is now the one of its process.
  have contexts : ∀ p, ∀ f ∈ saved, c.mem (area g p kernel f) = a.kernel p f := by
    intro p f member
    have untouched := memory _ (@guarded_area _ p _ kernel (by decide) member)
    rw [untouched]
    by_cases same : p = s.current
    · rw [same, stored f member]
      exact shows.inKernel v isKernel f member
    · rw [kept]
      · exact shows.outOfKernel p same f member
      · intro e first address
        exact same (area_inj (.inl rfl) (.inl rfl) first member address).1.symm
  have userContexts : ∀ p, ∀ f ∈ saved, context g c' p user f = context g s.cpu p user f := by
    intro p f member
    have untouched := memory _ (@guarded_area _ p _ user (Nat.le_refl _) member)
    rw [context, after, untouched, kept]
    · rfl
    · intro e first address
      exact absurd (area_inj (.inl rfl) (.inr rfl) first member address).2.1 (by decide)
  have inside : ∀ p, s.stage p ≠ .user := by
    intro p stage
    by_cases same : p = s.current
    · rw [same, isKernel] at stage
      cases stage
    · have away := shows.alone p same
      simp [stage, Stage.Away] at away
  constructor
  · exact (congrFun after _).trans pointed
  · intro p other
    simp only [Function.update_of_ne other]
    by_cases same : p = s.current
    · rw [same, own]
      trivial
    · rw [others p same]
      exact shows.alone p same
  · simp only [Function.update_self]
    cases stage : parked next <;> simp_all [Stage.Waits, Stage.resume, Stage.Away]
  · intro stage
    simp only [Function.update_self] at stage
    cases waiting : parked next <;> simp_all [Stage.Waits, Stage.resume]
  · intro p _ f member
    rw [returned_congr (userContexts p) f member]
    exact shows.outOfUser p (inside p) f member
  · intro w _ f member
    rw [loaded f member, contexts next f member]
  · intro p _ f member
    rw [context, after, contexts p f member]
  · intro stage
    simp only [Function.update_self] at stage
    have isEmbryo : s.stage next = .embryo := by
      have other : next ≠ s.current := by
        rintro rfl
        simp [own, Stage.resume] at stage
      rw [← others next other]
      cases waiting : parked next <;> simp_all [Stage.Waits, Stage.resume]
    obtain ⟨first, second⟩ := shows.born next isEmbryo
    refine ⟨?_, ?_⟩
    · rw [back, contexts next (.reg ra) (by decide), first]
    · exact (loaded .status (by decide)).trans ((contexts next .status (by decide)).trans second)
  · intro p stage
    by_cases same : p = next
    · subst same
      simp only [Function.update_self] at stage
      cases waiting : parked p <;> simp_all [Stage.Waits, Stage.resume]
    · simp only [Function.update_of_ne same] at stage
      have other : p ≠ s.current := by
        rintro rfl
        simp [own] at stage
      exact shows.born p (by rw [← others p other]; exact stage)
  · intro p w stage
    by_cases isCurrent : p = s.current
    · subst isCurrent
      exact shows.masked s.current v (.inl isKernel)
    · apply shows.masked p w
      rw [← others p isCurrent]
      by_cases same : p = next
      · subst same
        simp only [Function.update_self] at stage
        cases waiting : parked p <;> simp_all [Stage.Waits, Stage.resume]
      · simpa [same] using stage
  · intro p used
    have beyond : kernelStackTop < userStackTop := by decide
    rw [after, memory _ (guarded beyond), kept]
    · apply shows.tops p
      intro stage
      have isCurrent : p ≠ s.current := by
        rintro rfl
        simp [isKernel] at stage
      by_cases same : p = next
      · subst same
        rw [others p isCurrent, stage] at chosen
        exact chosen
      · simp [same, others p isCurrent, stage] at used
    · intro e first address
      by_cases same : p = s.current
      · subst same
        have low := @area_lt _ kernel (by decide) first
        simp only [area] at address
        omega
      · refine pcbAddress_apart (Ne.symm same) ?_ (by decide) address
        exact Nat.lt_trans (area_lt (by decide) first) (by decide)

theorem Shows.back {c : Cpu} (shows : Shows g s a) (isInside : s.stage s.current ≠ .user)
    (leaves : Leaves g s.current s.cpu c) :
    Shows g { s with cpu := c, stage := Function.update s.stage s.current .user } a where
  pointed := (congrFun leaves.mem _).trans shows.pointed
  alone p other := by simpa [other] using shows.alone p other
  present := by simp [Stage.Away]
  inUser _ := by
    refine ⟨fun f member => ?_, ?_⟩
    · rw [leaves.view member]
      exact shows.outOfUser s.current isInside f member
    · rw [leaves.status]
      exact eretStatus_exl _
  outOfUser p outside f member := by
    have other : p ≠ s.current := by
      rintro rfl
      simp at outside
    have kept : context g c p user = context g s.cpu p user := by
      funext e
      exact congrFun leaves.mem _
    rw [kept]
    exact shows.outOfUser p (by simpa [other] using outside) f member
  inKernel w stage := by simp at stage
  outOfKernel p other f member := by
    rw [context, leaves.mem]
    exact shows.outOfKernel p other f member
  starting stage := by simp at stage
  born p stage := by
    have other : p ≠ s.current := by
      rintro rfl
      simp at stage
    exact shows.born p (by simpa [other] using stage)
  masked p w stage := by
    have other : p ≠ s.current := by
      rintro rfl
      simp at stage
    exact shows.masked p w (by simpa [other] using stage)
  tops p used := by
    rw [leaves.mem]
    apply shows.tops p
    by_cases same : p = s.current
    · subst same
      intro stage
      have present := shows.present
      simp [stage, Stage.Away] at present
    · simpa [same] using used

/-- Every event is one of a process that has its registers for itself. -/
theorem Shows.step (shows : Shows g s a) (step : Step g s e t) : Shows g t (a.step g e) := by
  cases step with
  | user inUser memory pointed file_eq level =>
    exact shows.userStep inUser memory pointed file_eq level
  | kernel inKernel memory pointed file_eq status =>
    exact shows.kernelStep inKernel memory pointed file_eq status
  | trap v inUser => exact shows.trapStep v inUser
  | epcPlus4 inKernel => exact shows.epcPlus4Step inKernel
  | returnInt w inKernel => exact shows.returnIntStep w inKernel
  | spawn dest entryPoint inKernel => exact shows.spawnStep dest entryPoint inKernel
  | switch status next inKernel waits memory pointed =>
    exact shows.switchStep status next inKernel waits memory pointed
  | start isStarting here =>
    exact shows.back (by simp [isStarting]) (run_embryoStart shows.pointed)
  | leave inKernel => exact shows.back (by simp [inKernel]) (run_exit _ shows.pointed)

theorem Shows.run {es : List Event} (shows : Shows g s a) (runs : Runs g es s t) :
    Shows g t (a.run g es) := by
  induction runs generalizing a with
  | nil => exact shows
  | cons step _ ih => exact ih (shows.step step)

end Tina.Mips
