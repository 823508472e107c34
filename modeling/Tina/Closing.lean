import Tina.Stream

/-! Files that are only read. `sys_fclose` writes a zero byte where the reader stopped. -/
namespace Tina.Files

open ByteBuffer Atomic

variable {s t : FileSystem} {name : CString} {ino p : Word} {r i : Nat} {n : Node}
  {stack : Buffer} {locals : Locals}

/-- What a reader calls between `sys_fopen` and `sys_fclose`. -/
inductive Browse where
  | fseek (pos : Word)
  | fread (size : Nat) (stack : Buffer)

def Browse.perform (r : Nat) : Browse → Routine Unit
  | .fseek pos => sysFseek r pos
  | .fread size stack => do
    let _ ← sysFread r size stack
    return ()

def browse (r : Nat) : List Browse → Routine Unit
  | [] => pure ()
  | c :: calls => do
    c.perform r
    browse r calls

/-- `locals` and the two stacks are those of `sys_fopen` and of `sys_fclose`. -/
def readSession (name : CString) (calls : List Browse) (locals : Locals)
    (stack stack' : Buffer) : Routine Unit := do
  let r ← sysFopen name stack locals
  browse r.toNat calls
  sysFclose r.toNat stack'

def Browse.next (p : Nat) : Browse → Nat
  | .fseek pos => pos.toNat
  | .fread size _ => p + size

def stop (calls : List Browse) : Nat := calls.foldl Browse.next 0

/-- Every call stays within the block. -/
def WithinBlock : Nat → List Browse → Prop
  | _, [] => True
  | p, c :: calls => c.next p ≤ blockSize ∧ WithinBlock (c.next p) calls

/-- Whatever lies on the stack, the name is that of the file `ino`. -/
def Existing (s : FileSystem) (name : CString) (ino : Word) : Prop :=
  ∀ stack, opens s name stack ∧ foundIno s name stack = ino

/-- The card and what `cat` and the next reader see of the file are as before. -/
structure Unmodified (s : FileSystem) (name : CString) (ino : Word) (t : FileSystem) : Prop where
  disk : t.disk = s.disk
  cat : ∀ stack, (run (catFile (some name) stack) t).map Prod.fst =
    (run (catFile (some name) stack) s).map Prod.fst
  fopen : t.fdIndex < fdNum → ∀ stack locals, ∃ u,
    run (sysFopen name stack locals) t = some ((t.fdIndex : Int), u) ∧
      u.fd t.fdIndex = ⟨ino, 0⟩ ∧ u.disk = s.disk

theorem Target.existing (target : Target s file name i n) (intact : Intact s) :
    Existing s name n.ino := target.opens intact

@[simp] theorem repositioned_self : (repositioned r p s).fd r = ⟨(s.fd r).ino, p⟩ :=
  Function.update_self ..

theorem repositioned_repositioned {q : Word} :
    repositioned r q (repositioned r p s) = repositioned r q s := by
  simp only [repositioned, Function.update_self, Function.update_idem]

theorem Browse.run_perform (c : Browse) (valid : r < fdNum)
    (inside : c.next (s.fd r).pos.toNat ≤ blockSize) :
    ∃ p, p.toNat = c.next (s.fd r).pos.toNat ∧
      run (c.perform r) s = some ((), repositioned r p s) := by
  cases c with
  | fseek pos =>
    refine ⟨pos, rfl, ?_⟩
    rw [perform, sysFseek, if_neg (Nat.not_le.mpr valid)]
    rfl
  | fread size stack =>
    refine ⟨_, advance_toNat inside, ?_⟩
    rw [perform, run_then (run_sysFread stack valid inside)]
    rfl

theorem run_browse {calls : List Browse} (valid : r < fdNum)
    (inside : WithinBlock (s.fd r).pos.toNat calls) :
    ∃ p, p.toNat = calls.foldl Browse.next (s.fd r).pos.toNat ∧
      run (browse r calls) s = some ((), repositioned r p s) := by
  induction calls generalizing s with
  | nil =>
    refine ⟨(s.fd r).pos, rfl, ?_⟩
    rw [repositioned, Function.update_eq_self]
    rfl
  | cons c calls ih =>
    obtain ⟨p, position, called⟩ := c.run_perform valid inside.1
    have moved : ((repositioned r p s).fd r).pos = p := by rw [repositioned_self]
    obtain ⟨q, position', rest⟩ := @ih (repositioned r p s) (by
      rw [moved, position]
      exact inside.2)
    rw [moved, position] at position'
    refine ⟨q, position', ?_⟩
    rw [browse, run_then called, rest, repositioned_repositioned]

theorem stop_inside {calls : List Browse} {p : Nat} (low : p ≤ blockSize)
    (inside : WithinBlock p calls) : calls.foldl Browse.next p ≤ blockSize := by
  induction calls generalizing p with
  | nil => exact low
  | cons c calls ih => exact ih inside.1 inside.2

/-- `sys_fclose` behind the end of the block. -/
theorem run_sysFclose_end (stack : Buffer) (beyond : blockSize ≤ (s.fd r).pos.toNat) :
    run (sysFclose r stack) s = none := by
  have ino : run (descIno r) s = some ((s.fd r).ino, s) := rfl
  have pos : run (descPos r) s = some ((s.fd r).pos.toNat, s) := rfl
  have none : run (sysFwrite r [0] stack) s = none := by
    rw [sysFwrite]
    split
    next => rfl
    next =>
      rw [run_then ino, run_then run_fileBlockRead, run_then pos, if_pos (by simp; omega)]
      rfl
  rw [sysFclose, run_bind, none]
  rfl

theorem run_sysFclose (stack : Buffer) (valid : r < fdNum)
    (inside : (s.fd r).pos.toNat < blockSize) :
    ∃ t, run (sysFclose r stack) s = some ((), t) ∧
      t.shellPathInode = s.shellPathInode ∧ t.fdIndex = s.fdIndex ∧
      t.disk = Function.update s.disk (blockAddress (s.fd r).ino + (s.fd r).pos.toNat) 0 := by
  obtain ⟨t, result, -, -, shell, disk, moved, index⟩ :=
    @run_sysFwrite s r [0] stack valid inside
  have reset : run (setPos r fun _ => 0) t = some ((), repositioned r 0 t) := rfl
  refine ⟨repositioned r 0 t, by rw [sysFclose, run_then result, reset], shell, index, ?_⟩
  change t.disk = _
  rw [disk]
  funext k
  by_cases here : k = blockAddress (s.fd r).ino + (s.fd r).pos.toNat
  · rw [here, Function.update_self, copy, if_pos (by simp), Nat.sub_self]
    rfl
  · rw [Function.update_of_ne here, copy_outside (by simp only [List.length_singleton]; omega)]

theorem run_readSession {calls : List Browse} (locals : Locals) (stack stack' : Buffer)
    (existing : Existing s name ino) (room : s.fdIndex < fdNum) (inside : WithinBlock 0 calls) :
    stop calls < blockSize ∧ (∃ t, run (readSession name calls locals stack stack') s =
        some ((), t) ∧ t.shellPathInode = s.shellPathInode ∧
      t.disk = Function.update s.disk (blockAddress ino + stop calls) 0) ∨
    stop calls = blockSize ∧ run (readSession name calls locals stack stack') s = none := by
  obtain ⟨found, number⟩ := existing stack
  have opened := run_sysFopen_found locals found room
  rw [number] at opened
  have start : (pushed ino s).fd s.fdIndex = ⟨ino, 0⟩ := pushed_self
  obtain ⟨p, position, browsed⟩ := @run_browse (pushed ino s) s.fdIndex calls room (by
    rw [start]
    exact inside)
  rw [start] at position
  change p.toNat = stop calls at position
  have there : (repositioned s.fdIndex p (pushed ino s)).fd s.fdIndex = ⟨ino, p⟩ := by
    rw [repositioned_self, start]
  have closing : run (readSession name calls locals stack stack') s =
      run (sysFclose s.fdIndex stack') (repositioned s.fdIndex p (pushed ino s)) := by
    rw [readSession, run_then opened, Int.toNat_natCast, run_then browsed]
  rw [closing]
  rcases Nat.lt_or_eq_of_le (stop_inside (Nat.zero_le _) inside) with early | last
  · obtain ⟨t, closed, shell, -, disk⟩ := run_sysFclose stack' room (by
      rw [there, position]
      exact early)
    rw [there, position] at disk
    exact .inl ⟨early, t, closed, shell, disk⟩
  · refine .inr ⟨last, run_sysFclose_end stack' ?_⟩
    rw [there, position]
    exact last.ge

/-- `cat` depends on the card and on the directory of the shell. -/
theorem catFile_congr (disk : t.disk = s.disk) (shell : t.shellPathInode = s.shellPathInode) :
    (run (catFile (some name) stack) t).map Prod.fst =
      (run (catFile (some name) stack) s).map Prod.fst := by
  rw [catFile, run_then run_shellPathIno, run_then run_dirBlockRead, run_then run_shellPathIno,
    run_then run_dirBlockRead, disk, shell]
  dsimp only
  split
  · rfl
  · rw [run_then run_fileBlockRead, run_then run_fileBlockRead, disk]
    rfl

theorem unmodified (existing : Existing s name ino) (disk : t.disk = s.disk)
    (shell : t.shellPathInode = s.shellPathInode) : Unmodified s name ino t where
  disk := disk
  cat _ := catFile_congr disk shell
  fopen room stack locals := by
    have block : cwdBlock t stack = cwdBlock s stack := by rw [cwdBlock, cwdBlock, disk, shell]
    obtain ⟨found, number⟩ := existing stack
    have found' : opens t name stack := by rwa [opens, block]
    have number' : foundIno t name stack = ino := by rwa [foundIno, block]
    refine ⟨_, run_sysFopen_found locals found' room, ?_, disk⟩
    rw [number', pushed_self]

/-- What is only read stays as it is exactly if the reader stops at a zero byte in the block. -/
theorem reading_unmodified_iff (calls : List Browse) (locals : Locals) (stack stack' : Buffer)
    (existing : Existing s name ino) (room : s.fdIndex < fdNum) (inside : WithinBlock 0 calls) :
    (∃ t, run (readSession name calls locals stack stack') s = some ((), t) ∧
      Unmodified s name ino t) ↔
    stop calls < blockSize ∧ s.disk (blockAddress ino + stop calls) = 0 := by
  rcases run_readSession locals stack stack' existing room inside with
    ⟨early, t, result, shell, disk⟩ | ⟨last, none⟩
  · constructor
    · rintro ⟨u, result', same⟩
      cases result.symm.trans result'
      refine ⟨early, ?_⟩
      rw [← same.disk, disk]
      exact Function.update_self ..
    · rintro ⟨-, zero⟩
      refine ⟨t, result, unmodified existing ?_ shell⟩
      rw [disk, ← zero, Function.update_eq_self]
  · constructor
    · rintro ⟨u, result, -⟩
      rw [none] at result
      cases result
    · rintro ⟨early, -⟩
      exact absurd last (Nat.ne_of_lt early)

theorem Target.written {q : List Nat} (target : Target s file name i n) (intact : Intact s)
    (located : locate s.disk q = some n) (change : Written s.disk t.disk n.ino)
    (shell : t.shellPathInode = s.shellPathInode) : Target t file name i n := by
  obtain ⟨cwd, f, there, isDir, number⟩ := intact.cwd
  have free := intact.sound.noDirectory located target.kind
  have same : ∀ j < dentrysPerBlock,
      dirEntry t.disk (cwdIno t) j = dirEntry s.disk (cwdIno s) j := by
    intro j inside
    rw [cwdIno, shell, cwdIno, number]
    exact (change.entries intact.sound free there isDir inside).dirEntry
  refine ⟨target.inside, ?_, target.kind, target.same, fun j earlier m live => ?_⟩
  · rw [same i target.inside]
    exact target.here
  · rw [same j (Nat.lt_trans earlier target.inside)] at live
    exact target.first j earlier m live

/-- A file of which the first byte is read, and closed where it ends. -/
theorem reading_unmodified_touch : ∃ s t, Session Sane s ∧
    run (readSession nameA [.fread 1 blankLocals.db, .fseek 0] blankLocals blankLocals.db
      blankLocals.db) s = some ((), t) ∧ t.disk = s.disk := by
  obtain ⟨s, i, n, session, intact, target, index, _, _, zero, _⟩ := session_touch
  have room : s.fdIndex < fdNum := by
    rw [index]
    decide
  have start : stop [.fread 1 blankLocals.db, .fseek 0] = 0 := rfl
  obtain ⟨t, result, same⟩ := (reading_unmodified_iff [.fread 1 blankLocals.db, .fseek 0]
    blankLocals blankLocals.db blankLocals.db (target.existing intact) room
    ⟨by decide, by decide, trivial⟩).mpr (by
      rw [start, Nat.add_zero]
      exact ⟨by decide, zero⟩)
  exact ⟨s, t, session, result, same.disk⟩

/-- A reader stops in front of a byte that was written before, and loses it. -/
theorem reading_modifies : ¬∀ s name ino calls, Session Sane s → Existing s name ino →
    s.fdIndex < fdNum → WithinBlock 0 calls →
    ∃ t, run (readSession name calls blankLocals blankLocals.db blankLocals.db) s =
      some ((), t) ∧ Unmodified s name ino t := by
  intro keeps
  obtain ⟨s, i, n, session, intact, target, index, fd, _, ⟨q, located⟩, _⟩ := session_fopen
  have desc : (s.fd 0).ino = n.ino := congrArg FileDesc.ino fd
  have pos : (s.fd 0).pos.toNat = 1 := congrArg (fun d => d.pos.toNat) fd
  obtain ⟨boot, locals, begun, blank, formed, reach⟩ := session
  -- The byte at the position 1 is no longer zero.
  obtain ⟨t, wrote, sane, bytes⟩ := perform_fwrite blankLocals.db q located target.kind desc
    (by rw [pos]; decide)
  obtain ⟨u, result, _, _, shell, disk, _, next⟩ :=
    @run_sysFwrite s 0 [1] blankLocals.db (by decide) (by rw [pos]; decide)
  cases wrote.symm.trans (perform_of (run_then result))
  have change : Written s.disk t.disk n.ino := by
    rw [disk, desc]
    exact written_of s n.ino (by rw [pos]; decide)
  have target' := target.written intact located change shell
  have session' : Session Sane t :=
    ⟨boot, locals, begun, blank, formed, .step reach sane wrote⟩
  have room : t.fdIndex < fdNum := by
    rw [next, index]
    decide
  have existing := target'.existing session'.intact
  have inside : WithinBlock 0 [.fread 1 blankLocals.db] := ⟨by decide, trivial⟩
  have kept := keeps t nameA n.ino _ session' existing room inside
  rw [reading_unmodified_iff _ _ _ _ existing room inside] at kept
  have zero : t.disk (blockAddress n.ino + 1) = 0 := kept.2
  rw [bytes, if_pos (by rw [pos])] at zero
  exact absurd zero (by decide)

end Tina.Files
