import Tina.Crash

/-! A card over its lifetime: commands, and power failures in the middle of commands, each followed
by `do_makefs` in a memory that holds anything. -/
namespace Tina.Files

open ByteBuffer Atomic SlotTree Transition

variable {s s' t u : FileSystem} {k : Nat} {name : CString} {path : Option CString}
  {locals : Locals} {c : Command} {stack : Buffer} {index : Nat} {pos ino : Word}

/-! Most commands do not write to the card. -/

theorem inodeRead_leaves {dest : (Buffer → Buffer) → FileSystem → FileSystem}
    (same : ∀ f s, (dest f s).disk = s.disk) : Leaves FileSystem.disk (inodeRead dest ino) :=
  .ite .pure <| .change fun s => same _ s

theorem walkPath_leaves {parts : List (List Byte)} :
    Leaves FileSystem.disk (walkPath stack parts) := by
  induction parts with
  | nil => exact .pure
  | cons part parts ih =>
    refine .bind .read fun _ => .bind .read fun _ => .ite .pure ?_
    exact .bind (inodeRead_leaves fun _ _ => rfl) fun _ => ih

theorem decodePath_leaves : Leaves FileSystem.disk (decodePath name stack) :=
  .ite .undefined <| .bind
    (.ite (.bind .read fun _ => inodeRead_leaves fun _ _ => rfl)
      (.bind .read fun _ => inodeRead_leaves fun _ _ => rfl))
    fun _ => walkPath_leaves

theorem changeDirectory_leaves : Leaves FileSystem.disk (changeDirectory path stack) := by
  cases path with
  | none => exact .undefined
  | some name =>
    refine .bind decodePath_leaves fun _ => .ite .pure (.bind .read fun _ => ?_)
    exact .bind (inodeRead_leaves fun _ _ => rfl) fun _ => .change fun _ => rfl

theorem listDirectory_leaves : Leaves FileSystem.disk (listDirectory path stack) := by
  cases path with
  | none => exact .undefined
  | some name =>
    refine .bind decodePath_leaves fun _ => .ite .pure (.bind .read fun _ => ?_)
    exact .bind .read fun _ => .pure

theorem catFile_leaves : Leaves FileSystem.disk (catFile path stack) := by
  cases path with
  | none => exact .pure
  | some name =>
    rw [catFile]
    refine .bind .read fun _ => .bind .read fun db => ?_
    dsimp only
    generalize scan 0x200 (matchesEntry db file name) = i
    split
    · exact .pure
    · exact .bind .read fun _ => .pure

theorem pushDescriptor_leaves : Leaves FileSystem.disk (pushDescriptor ino) :=
  .bind .read fun _ => .ite (.bind (.change fun _ => rfl) fun _ => .pure) .undefined

/-- The commands that leave the card alone. -/
theorem silent_leaves (silent : ¬ChangesDirectory c) (noOpen : ∀ n st l, c ≠ .fopen n st l)
    (noWrite : ∀ i b st, c ≠ .fwrite i b st) : Leaves FileSystem.disk c.routine := by
  cases c with
  | mkdir | touch | rm | rmdir => exact absurd trivial silent
  | cd => exact changeDirectory_leaves
  | ls => exact .bind listDirectory_leaves fun _ => .pure
  | cat => exact .bind catFile_leaves fun _ => .pure
  | fopen n st l => exact absurd rfl (noOpen n st l)
  | fwrite i b st => exact absurd rfl (noWrite i b st)
  | fseek => exact .ite .undefined (.change fun _ => rfl)

/-- A write to a file is one write to the card. -/
theorem fwrite_cut {old : FileSystem → Prop} {buf : List Byte} (start : old s) :
    Cut old FileSystem.disk (sysFwrite index buf stack) s := by
  rw [sysFwrite]
  split
  · exact Leaves.cut .undefined
  refine .read start (.read start (.read start ?_))
  split
  · exact Leaves.cut .undefined
  · refine .read start (.bind (.change start) fun _ => ?_)
    exact .bind (.change fun _ => rfl) fun _ => .pure

theorem Intact.touch_cut (locals : Locals) (intact : Intact s) (fits : CreationFits s name) :
    Cut (fun t => Kept s.disk t.disk) FileSystem.disk (Files.touchFile (some name) locals) s := by
  intro t here a u result
  obtain ⟨cwd, f, i, o, place⟩ := intact.place locals.db fits (by decide : dentrysPerBlock ≤ 0x200)
  rcases place.cut intact fits.short (.inl rfl) here with kept | ⟨s', made, same⟩
  · exact .inl kept
  · rw [Files.touchFile, made] at result
    cases result
    exact .inr same

/-- A file that has to be made is made by `touch_file`. -/
theorem Intact.fopen_cut (stack : Buffer) (locals : Locals) (intact : Intact s)
    (fits : ¬opens s name stack → CreationFits s name) :
    Cut (fun t => Kept s.disk t.disk) FileSystem.disk (Files.sysFopen name stack locals) s := by
  have start : Kept s.disk s.disk := .refl intact.sound
  have block : ∀ ino, dirBlockRead stack ino =
      Atomic.read fun s => copy stack 0 s.disk (blockAddress ino) blockSize := fun _ => rfl
  rw [Files.sysFopen]
  refine .read start ?_
  rw [block]
  refine .read start ?_
  dsimp only
  by_cases found : opens s name stack
  · have stops := found
    rw [opens, cwdBlock] at stops
    rw [if_pos stops]
    exact pushDescriptor_leaves.cut
  · have missed := found
    rw [opens, cwdBlock] at missed
    rw [if_neg missed]
    refine .bind (intact.touch_cut locals (fits found)) fun _ => ?_
    refine .bind .read fun _ => .bind .read fun db => ?_
    generalize scan 0x200 (matchesEntry db file name) = i
    split
    · exact pushDescriptor_leaves
    · exact .pure

/-- Every command that is cut, but for a removal between its two writes, leaves the tree there was
or the one it makes. -/
theorem Intact.cut_any (intact : Intact s) (sane : Sane s c) (result : perform c s = some s')
    (safe : ¬Exposed s c k) :
    Kept s.disk (after k c.routine s).disk ∨ (after k c.routine s).disk = s'.disk := by
  have start : Kept s.disk s.disk := .refl intact.sound
  have made : run c.routine s = some ((), s') := perform_run result
  have ends : Cut (fun t => Kept s.disk t.disk) FileSystem.disk c.routine s →
      Kept s.disk (after k c.routine s).disk ∨ (after k c.routine s).disk = s'.disk :=
    fun cut => cut _ after_visits () s' made
  cases c with
  | mkdir | touch | rm | rmdir => exact intact.cut sane.1 trivial result safe
  | fopen name stack locals =>
    exact ends (.bind (intact.fopen_cut stack locals sane.1) fun _ => .pure)
  | fwrite index buf stack => exact ends (.bind (fwrite_cut start) fun _ => .pure)
  | cd | ls | cat | fseek => exact ends (Leaves.cut (silent_leaves id (by simp) (by simp)))

/-- A command that ends, or one after `k` steps of which the power fails. -/
inductive Incident where
  | done (c : Command)
  | cut (c : Command) (k : Nat) (locals : Locals)

/-- After a failure only the card is as it was. The failures that `Exposed` describes are left
out. -/
inductive Suffers (s : FileSystem) : Incident → FileSystem → Prop
  | done {c : Command} {s' : FileSystem} (sane : Sane s c) (result : perform c s = some s') :
    Suffers s (.done c) s'
  | cut {c : Command} {k : Nat} {locals : Locals} {u s' : FileSystem} (sane : Sane s c)
    (safe : ¬Exposed s c k) (lost : u.disk = (after k c.routine s).disk)
    (mounted : run (doMakefs locals) u = some ((), s')) : Suffers s (.cut c k locals) s'

inductive Lifetime : List Incident → FileSystem → FileSystem → Prop
  | nil {s : FileSystem} : Lifetime [] s s
  | cons {e : Incident} {es : List Incident} {s t u : FileSystem} :
    Suffers s e t → Lifetime es t u → Lifetime (e :: es) s u

/-- What it means for the tree: a command that is cut has been done or has not, and the shell is
back at the root. -/
def Volume.Survives (s : FileSystem) (v w : Volume) : Incident → Prop
  | .done c => ∃ a, Means s c a ∧ v.Step w a
  | .cut c _ _ => w.cwd = [] ∧ (w.tree = v.tree ∨ ∃ x a, Means s c a ∧ v.Step x a ∧ w.tree = x.tree)

/-- The trees that the states of a life stand for. -/
inductive Tracks : List Incident → FileSystem → Volume → FileSystem → Volume → Prop
  | nil {s : FileSystem} {v : Volume} (represents : Represents s v) : Tracks [] s v s v
  | cons {e : Incident} {es : List Incident} {s t u : FileSystem} {v w x : Volume}
    (represents : Represents s v) (suffers : Suffers s e t) (survives : v.Survives s w e)
    (rest : Tracks es t w u x) : Tracks (e :: es) s v u x

/-- Mounting puts the shell at the root. -/
theorem Mounted.represents (mounted : Mounted s) (onCard : OnCard s.disk) :
    ∃ v, Represents s v ∧ v.cwd = [] := by
  have intact := mounted.intact onCard
  obtain ⟨v, represents⟩ := intact.volume
  obtain ⟨g, there, -, number⟩ := mounted.holds.ino onCard.sound
  exact ⟨v, represents, represents.stand intact there number⟩

theorem Intact.suffers {e : Incident} {v : Volume} (intact : Intact s) (before : Represents s v)
    (suffers : Suffers s e t) : Intact t ∧ ∃ w, Represents t w ∧ v.Survives s w e := by
  cases suffers with
  | done sane result =>
    obtain ⟨effect, intact'⟩ := step_effect intact sane result
    obtain ⟨w, after⟩ := intact'.volume
    exact ⟨intact', w, after, effect.simulates sane.1 intact before after⟩
  | @cut c k locals u _ sane safe lost mounts =>
    obtain ⟨s', v', a, result, intact', after, means, step⟩ := intact.simulates before sane
    have onCard : OnCard u.disk ∧ (image (item u.disk) (locate u.disk) = v.tree ∨
        image (item u.disk) (locate u.disk) = v'.tree) := by
      rw [lost]
      rcases intact.cut_any sane result safe with kept | same
      · exact ⟨kept.onCard intact.onCard, .inl (kept.tree.trans before.tree.symm)⟩
      · rw [same]
        exact ⟨intact'.onCard, .inr after.tree.symm⟩
    obtain ⟨u', made, _, mounted, disk, _⟩ := onCard.1.mount locals
    rw [mounts] at made
    cases made
    obtain ⟨w, represents, root⟩ := mounted.represents (disk ▸ onCard.1)
    refine ⟨mounted.intact (disk ▸ onCard.1), w, represents, root, ?_⟩
    rw [represents.tree, disk]
    rcases onCard.2 with old | new
    · exact .inl old
    · exact .inr ⟨v', a, means, step, new⟩

theorem Intact.life {es : List Incident} {v : Volume} (intact : Intact s) (before : Represents s v)
    (life : Lifetime es s t) : Intact t ∧ ∃ w, Tracks es s v t w := by
  induction life generalizing v with
  | nil => exact ⟨intact, v, .nil before⟩
  | cons suffers _ ih =>
    obtain ⟨intact', w, after, survives⟩ := intact.suffers before suffers
    obtain ⟨final, x, rest⟩ := ih intact' after
    exact ⟨final, x, .cons before suffers survives rest⟩

/-- From the day a card is formatted, through any number of commands and of power failures, it holds
a tree: each command does to it what it means, each one that is cut does so or does nothing. -/
theorem life_refines {boot : FileSystem} {es : List Incident}
    (blank : word boot.disk superblockAddress ≠ fsMagic)
    (made : run (doMakefs locals) boot = some ((), s)) (life : Lifetime es s t) :
    Intact t ∧ ∃ v w, v.cwd = [] ∧ (∀ p, v.tree p ≠ none → p = []) ∧ Tracks es s v t w := by
  obtain ⟨s', made', formatted, _⟩ := run_doMakefs_format locals blank
  rw [made'] at made
  cases made
  obtain ⟨v, before⟩ := formatted.intact.volume
  obtain ⟨intact, w, tracks⟩ := formatted.intact.life before life
  have only : ∀ p, v.tree p ≠ none → p = [] := by
    intro p there
    rw [before.tree] at there
    cases located : locate s.disk p with
    | none => simp [image, located] at there
    | some n => exact (formatted.locate located).1
  obtain ⟨name, stands⟩ := v.stands
  exact ⟨intact, v, w, only v.cwd (by simp [stands]), only, tracks⟩

/-- The power fails while the first directory is made; then the root is listed. -/
theorem life_refines_mkdir : ∃ s t v w, Tracks [.cut (.mkdir (some nameA) blankLocals) 5 blankLocals,
    .done (.ls (some dot) blankLocals.db)] s v t w ∧ Intact t := by
  obtain ⟨start, made, formatted, _⟩ := run_doMakefs_format blankLocals blankSystem_blank
  obtain ⟨v, before⟩ := formatted.intact.volume
  have sane : Sane start (.mkdir (some nameA) blankLocals) := ⟨formatted.fits (by decide), trivial⟩
  obtain ⟨s', result, _⟩ := formatted.intact.step sane.1 sane.2
  obtain ⟨t, mounts, _⟩ := formatted.intact.survives sane trivial result rfl id blankLocals
  have cut : Suffers start (.cut (.mkdir (some nameA) blankLocals) 5 blankLocals) t :=
    .cut sane id rfl mounts
  have sane' : Sane t (.ls (some dot) blankLocals.db) := ⟨trivial, dot, rfl, by decide⟩
  obtain ⟨t', result', _⟩ := (formatted.intact.suffers before cut).1.step sane'.1 sane'.2
  obtain ⟨intact, v, w, -, -, tracks⟩ := life_refines blankSystem_blank made
    (.cons cut (.cons (.done sane' result') .nil))
  exact ⟨start, t', v, w, tracks, intact⟩

end Tina.Files
