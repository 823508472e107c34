import Tina.Descriptors

/-! Descriptors and the files they were opened on. A descriptor keeps a bare inode number. When
its file is removed the number is free, and the next new file or directory may get it. -/
namespace Tina.Files

open ByteBuffer Atomic Transition SlotTree

variable {s t u : FileSystem} {b stack : Buffer} {i k r index size : Nat} {name : CString}
  {locals : Locals} {ino : Word} {n m f : Node} {p q cwd : List Nat} {handed written : Option Word}
  {buf : List Byte}

/-- The commands of the shell, and the calls it has no command for. -/
inductive Access where
  | shell (c : Command)
  | fread (index size : Nat) (stack : Buffer)
  | fclose (index : Nat) (stack : Buffer)

def Access.execute : Access → FileSystem → Option FileSystem
  | .shell c, s => perform c s
  | .fread index size stack, s => (run (sysFread index size stack) s).map Prod.snd
  | .fclose index stack, s => (run (sysFclose index stack) s).map Prod.snd

/-- The descriptor whose block is read or written. -/
def Access.through : Access → Option Nat
  | .shell (.fwrite index _ _) => some index
  | .fread index _ _ => some index
  | .fclose index _ => some index
  | _ => none

/-- The number that a new file or directory gets. -/
def nextNumber (s : FileSystem) : Word := BitVec.ofInt 32 (bitmapSearch s.inodeMap 0 inodeBound)

/-- The number that an access hands out. -/
def Access.handsOut (s : FileSystem) : Access → Option Word
  | .shell (.mkdir (some _) _) => some (nextNumber s)
  | .shell (.touch (some _) _) => some (nextNumber s)
  | .shell (.fopen name stack _) =>
    if scan 0x200 (matchesEntry (cwdBlock s stack) file name) < 0x200 then none
    else some (nextNumber s)
  | _ => none

/-- What has become of the file that a descriptor was opened on: it is still where it was, or it
is gone, or it is gone and its number was handed out again. -/
inductive Life where
  | held (p : List Nat)
  | gone
  | reused

/-- After an access that hands out `number` and leaves `t`. -/
def Life.next (number : Option Word) (ino : Word) (t : FileSystem) : Life → Life
  | .held p => if (locate t.disk p).isSome then .held p else .gone
  | .gone => if number = some ino then .reused else .gone
  | .reused => .reused

/-- `life r` is that of the file of the descriptor `r`; none as long as `sys_fopen` has not
returned `r`. -/
structure Watched where
  system : FileSystem
  life : Nat → Option Life

/-- The descriptor `r` has the number of the file at `p`. -/
def OpenAt (s : FileSystem) (r : Nat) (p : List Nat) : Prop :=
  ∃ n, locate s.disk p = some n ∧ n.mode = file ∧ (s.fd r).ino = n.ino

/-- The descriptor that a call of `sys_fopen` sets. -/
def Access.sets (s : FileSystem) : Access → Option Nat
  | .shell (.fopen _ _ _) => some s.fdIndex
  | _ => none

/-- One access. The life of a new descriptor begins where its file lies. -/
def Watches (w : Watched) (a : Access) (w' : Watched) : Prop :=
  a.execute w.system = some w'.system ∧
    (∀ r, a.sets w.system = some r →
      (∃ p, OpenAt w'.system r p ∧ w'.life r = some (.held p)) ∨
        (∀ p, ¬OpenAt w'.system r p) ∧ w'.life r = none) ∧
    ∀ r, a.sets w.system ≠ some r → w'.life r =
      (w.life r).map (Life.next (a.handsOut w.system) (w.system.fd r).ino w'.system)

/-- Creations find room, paths fit the buffer of `decode_path`, a first scan that stops does so at
a file, and only descriptors that were obtained are used, inside the block. -/
def Permitted (w : Watched) : Access → Prop
  | .shell (.mkdir (some name) _) => CreationFits w.system name
  | .shell (.touch (some name) _) => CreationFits w.system name
  | .shell (.cd path _) => ∃ name, path = some name ∧ name.val.length < 32
  | .shell (.ls path _) => ∃ name, path = some name ∧ name.val.length < 32
  | .shell (.fopen name stack _) => w.system.fdIndex < fdNum ∧
    (opens w.system name stack → ∃ i n, Target w.system file name i n) ∧
    (¬opens w.system name stack → CreationFits w.system name)
  | .shell (.fwrite index buf _) => Inside index buf.length
  | .shell (.fseek index _) => w.life index ≠ none
  | .fread index size _ => Inside index size
  | .fclose index _ => Inside index 1
  | _ => True
where
  Inside (index size : Nat) : Prop :=
    w.life index ≠ none ∧ (w.system.fd index).pos.toNat + size ≤ blockSize

/-- A descriptor is used as long as the number of its file was not handed out again. -/
def Careful (w : Watched) (a : Access) : Prop :=
  Permitted w a ∧ ∀ r, a.through = some r → w.life r ≠ some .reused

/-- What an access does to the files behind the descriptors. The number `number` is handed out,
and only the block `written` may get other bytes among those that are no directory's. -/
structure Evolves (s t : FileSystem) (number written : Option Word) : Prop where
  intact : Intact t
  nodes : ∀ {q m}, locate t.disk q = some m →
    locate s.disk q = some m ∨ locate s.disk q = none ∧ number = some m.ino
  fresh : ∀ {q m}, locate s.disk q = some m → number ≠ some m.ino
  inos : ∀ r < s.fdIndex, (t.fd r).ino = (s.fd r).ino
  index : s.fdIndex ≤ t.fdIndex
  spares : ∀ {ino}, NoDirectory s.disk ino → number ≠ some ino → written ≠ some ino →
    Same s.disk t.disk (blockAddress ino) blockSize

/-- The card stays as it is. -/
theorem Evolves.still (intact : Intact t) (disk : t.disk = s.disk)
    (inos : ∀ r < s.fdIndex, (t.fd r).ino = (s.fd r).ino) (index : s.fdIndex ≤ t.fdIndex) :
    Evolves s t none written where
  intact := intact
  nodes here := .inl (disk ▸ here)
  fresh _ := nofun
  inos := inos
  index := index
  spares _ _ _ _ _ := congrFun disk _

theorem Evolves.then_still (first : Evolves s u handed written)
    (intact : Intact t) (disk : t.disk = u.disk)
    (inos : ∀ r < u.fdIndex, (t.fd r).ino = (u.fd r).ino) (index : u.fdIndex ≤ t.fdIndex) :
    Evolves s t handed written where
  intact := intact
  nodes here := first.nodes (disk ▸ here)
  fresh := first.fresh
  inos r low := (inos r (Nat.lt_of_lt_of_le low first.index)).trans (first.inos r low)
  index := Nat.le_trans first.index index
  spares free other other' := by
    rw [disk]
    exact first.spares free other other'

theorem blocks_apart {ino' : Word} (small : ino.toNat < inodeBound)
    (small' : ino'.toNat < inodeBound) (other : ino ≠ ino') (inside : k < blockSize) :
    Beyond (blockAddress ino') blockSize (blockAddress ino + k) := by
  have apart := toNat_ne other
  rw [Beyond, blockAddress_eq small, blockAddress_eq small']
  simp only [blockSize] at *
  omega

theorem block_low (small : ino.toNat < inodeBound) (inside : k < blockSize) :
    blockAddress ino + k < mapAddress := by
  rw [blockAddress_eq small]
  simp only [blockSize, inodeBound, mapAddress] at *
  omega

theorem slot_apart (small : ino.toNat < inodeBound) (smallF : f.ino.toNat < inodeBound)
    (other : ino ≠ f.ino) (inside : k < blockSize) (slot : i < dentrysPerBlock) {width : Nat}
    (narrow : width ≤ dentrySize) :
    Beyond (blockAddress f.ino + dentrySize * i) width (blockAddress ino + k) := by
  have apart := blocks_apart small smallF other inside
  simp only [Beyond, blockSize, dentrySize, dentrysPerBlock] at *
  omega

theorem Created.evolves (created : Created s cwd f i n t) (intact : Intact s) :
    Evolves s t (some n.ino) none where
  intact := created.intact intact
  nodes here := by
    rcases created.grafted.located intact.sound created.room here with ⟨rfl, rfl⟩ | ⟨_, old⟩
    · exact .inr ⟨created.room.absent, rfl⟩
    · exact .inl old
  fresh located same := created.room.other intact.sound located (Option.some.inj same).symm
  inos r _ := by rw [created.rest]
  index := by rw [created.rest]
  spares {ino} free other _ k inside := by
    have room := created.room
    have low := block_low free.small inside
    have apart : ino ≠ f.ino := fun same => free.apart room.cwd room.isDir same.symm
    apply created.grafted.outside
    · exact .inl low
    · exact blocks_apart free.small room.small (fun same => other (congrArg some same.symm)) inside
    · simp only [Beyond, tableAddress, mapAddress] at *
      omega
    · exact slot_apart free.small (intact.sound.small room.cwd) apart inside room.inside
        (Nat.le_refl _)

theorem Removed.evolves (removed : Removed s cwd f i n t) (intact : Intact s) :
    Evolves s t none none where
  intact := removed.intact intact
  nodes here := .inl (removed.pruned.located intact.sound removed.held here).2
  fresh _ := nofun
  inos r _ := by rw [removed.rest]
  index := by rw [removed.rest]
  spares {ino} free _ _ k inside := by
    have held := removed.held
    have apart : ino ≠ f.ino := fun same => free.apart held.cwd held.isDir same.symm
    apply removed.pruned.outside
    · exact .inl (block_low free.small inside)
    · exact slot_apart free.small (intact.sound.small held.cwd) apart inside held.inside
        (by decide)

theorem evolves_write (intact : Intact s) (free : NoDirectory s.disk ino)
    (change : Written s.disk t.disk ino) (map : t.inodeMap = s.inodeMap)
    (superblock : t.superblock = s.superblock) (shell : t.shellPathInode = s.shellPathInode)
    (inos : ∀ r < s.fdIndex, (t.fd r).ino = (s.fd r).ino) (index : s.fdIndex ≤ t.fdIndex) :
    Evolves s t none (some ino) where
  intact := intact.written change free map superblock shell
  nodes here := by
    rw [change.locate intact.sound free] at here
    exact .inl here
  fresh _ := nofun
  inos := inos
  index := index
  spares free' _ other k inside := by
    apply change
    exact blocks_apart free'.small free.small (fun same => other (congrArg some same.symm)) inside

/-- The number that a creation takes is the first free one. -/
theorem Created.takes (created : Created s cwd f i n t) (intact : Intact s) :
    nextNumber s = n.ino := by
  have room := created.room
  have clear : bit s.inodeMap n.ino.toNat = false := by
    rw [← intact.bits room.small]
    exact room.unmarked
  rcases @bitmapSearch_spec s.inodeMap 0 inodeBound (.inl rfl) (by decide) with
    ⟨_, none⟩ | ⟨o, small, search, free, least⟩
  · exact absurd clear (none _ room.small)
  · have same : o = n.ino.toNat := by
      rcases Nat.lt_trichotomy o n.ino.toNat with earlier | same | later
      · have marked := created.least o earlier
        rw [free] at marked
        cases marked
      · exact same
      · exact absurd clear (least _ later)
    rw [nextNumber, search, same, BitVec.ofInt_natCast, BitVec.ofNat_toNat, BitVec.setWidth_eq]

/-- What holds between the accesses: the number of a descriptor is that of its file, as long as
the file is there, and nobody's until it is handed out again. -/
structure Inv (w : Watched) : Prop where
  intact : Intact w.system
  below : ∀ r, w.life r ≠ none → r < w.system.fdIndex ∧ r < fdNum
  held : ∀ r p, w.life r = some (.held p) → OpenAt w.system r p
  gone : ∀ r, w.life r = some .gone → (w.system.fd r).ino.toNat < inodeBound ∧
    ∀ {q m}, locate w.system.disk q = some m → m.ino ≠ (w.system.fd r).ino

/-- A descriptor that can be used belongs to the table, and its number to no directory. -/
theorem Inv.usable {w : Watched} (inv : Inv w) (here : w.life r ≠ none)
    (current : w.life r ≠ some .reused) :
    r < fdNum ∧ NoDirectory w.system.disk (w.system.fd r).ino := by
  refine ⟨(inv.below r here).2, ?_⟩
  cases life : w.life r with
  | none => exact absurd life here
  | some l =>
    cases l with
    | held p =>
      obtain ⟨n, located, isFile, number⟩ := inv.held r p life
      exact number ▸ inv.intact.sound.noDirectory located isFile
    | gone =>
      obtain ⟨small, nobody⟩ := inv.gone r life
      exact ⟨small, fun located _ => nobody located⟩
    | reused => exact absurd life current

/-- The number of the block that is read or written. -/
def Access.number (s : FileSystem) (a : Access) : Option Word :=
  a.through.map fun r => (s.fd r).ino

theorem handsOut_found (found : opens s name stack) :
    Access.handsOut s (.shell (.fopen name stack locals)) = none := by
  rw [opens] at found
  simp only [Access.handsOut, if_pos found]

theorem handsOut_missed (missed : ¬opens s name stack) :
    Access.handsOut s (.shell (.fopen name stack locals)) = some (nextNumber s) := by
  rw [opens] at missed
  simp only [Access.handsOut, if_neg missed]

theorem sysFopen_next {x : Int} (result : run (sysFopen name stack locals) s = some (x, t)) :
    t.fdIndex = s.fdIndex + 1 := by
  obtain ⟨_, _, u, _, origin, rfl⟩ := sysFopen_result result
  rcases origin with rfl | ⟨_, _, touched⟩
  · rfl
  · exact congrArg (· + 1) touched.index

theorem pushed_self : (pushed ino s).fd s.fdIndex = ⟨ino, 0⟩ := Function.update_self ..

theorem Evolves.pushed (first : Evolves s u handed none) :
    Evolves s (pushed ino u) handed none := by
  refine first.then_still (Quiet.intact (s := u) ⟨rfl, rfl, rfl, rfl⟩ first.intact) rfl
    (fun r low => ?_) (Nat.le_succ _)
  exact congrArg FileDesc.ino (Function.update_of_ne (Nat.ne_of_lt low) _ _)

theorem Evolves.refl (intact : Intact s) : Evolves s s none written :=
  .still intact rfl (fun _ _ => rfl) (Nat.le_refl _)

/-- `sys_fopen` finds the file, or makes it and finds it then. -/
theorem Intact.opened {x : Int} (intact : Intact s) (room : s.fdIndex < fdNum)
    (fits : ¬opens s name stack → CreationFits s name)
    (result : run (Files.sysFopen name stack locals) s = some (x, t)) :
    opens s name stack ∧ t = pushed (foundIno s name stack) s ∨
      ¬opens s name stack ∧ ∃ u cwd f i n, Created s cwd f i n u ∧ n.mode = file ∧
        n.name = name.val ∧ t = pushed (foundIno u name stack) u := by
  rcases run_sysFopen room result with found | ⟨missed, v, touched, rest⟩
  · exact .inl found
  · obtain ⟨u, made, cwd, f, i, n, created, isFile, same⟩ := intact.touchFile locals (fits missed)
    cases touched.symm.trans made
    have index : v.fdIndex = s.fdIndex := by rw [created.rest]
    rcases rest (index ▸ room) with ⟨_, pushes⟩ | ⟨_, stays⟩
    · exact .inr ⟨missed, v, cwd, f, i, n, created, isFile, same, pushes⟩
    · have next := sysFopen_next result
      rw [stays] at next
      omega

theorem fopen_evolves {x : Int} (intact : Intact s) (room : s.fdIndex < fdNum)
    (fits : ¬opens s name stack → CreationFits s name)
    (result : run (sysFopen name stack locals) s = some (x, t)) :
    Evolves s t (Access.handsOut s (.shell (.fopen name stack locals))) none := by
  rcases intact.opened room fits result with
    ⟨found, rfl⟩ | ⟨missed, u, cwd, f, i, n, created, _, _, rfl⟩
  · rw [handsOut_found found]
    exact (Evolves.refl intact).pushed
  · rw [handsOut_missed missed, created.takes intact]
    exact (created.evolves intact).pushed

/-- The first scan finds the file, or the second one the file that was made. -/
theorem fopen_opens {x : Int} (intact : Intact s) (room : s.fdIndex < fdNum)
    (target : opens s name stack → ∃ i n, Target s file name i n)
    (fits : ¬opens s name stack → CreationFits s name)
    (result : run (sysFopen name stack locals) s = some (x, t)) : ∃ p, OpenAt t s.fdIndex p := by
  have here : ∀ {u : FileSystem} {i : Nat} {n : Node}, Intact u → Target u file name i n →
      u.fdIndex = s.fdIndex → ∃ p, OpenAt (Files.pushed (foundIno u name stack) u) s.fdIndex p := by
    intro u i n intact target index
    obtain ⟨cwd, f, _, held⟩ := target.held intact (.inl rfl)
    refine ⟨_, n, held.located, target.kind, ?_⟩
    rw [(target.opens intact stack).2, ← index, pushed_self]
  rcases intact.opened room fits result with
    ⟨found, rfl⟩ | ⟨_, u, cwd, f, i, n, created, isFile, same, rfl⟩
  · obtain ⟨i, n, target⟩ := target found
    exact here intact target rfl
  · have index : u.fdIndex = s.fdIndex := by rw [created.rest]
    obtain ⟨j, m, target⟩ := Target.of_entry created.room.inside created.listed isFile same
    exact here (created.intact intact) target index

theorem setPos_ino {j : Nat} {g : Word → Word} : (Function.update s.fd r
    ⟨(s.fd r).ino, g (s.fd r).pos⟩ j).ino = (s.fd j).ino := by
  by_cases same : j = r
  · subst same
    rw [Function.update_self]
  · rw [Function.update_of_ne same]

/-- What an access through a descriptor leaves: other bytes in its block, another position. -/
structure Used (s : FileSystem) (r : Nat) (t : FileSystem) : Prop where
  disk : Written s.disk t.disk (s.fd r).ino
  map : t.inodeMap = s.inodeMap
  superblock : t.superblock = s.superblock
  shell : t.shellPathInode = s.shellPathInode
  moved : ∃ pos, t.fd = Function.update s.fd r ⟨(s.fd r).ino, pos⟩
  index : t.fdIndex = s.fdIndex

theorem Used.number {j : Nat} (used : Used s r t) : (t.fd j).ino = (s.fd j).ino := by
  obtain ⟨pos, moved⟩ := used.moved
  rw [moved]
  exact setPos_ino (g := fun _ => pos)

theorem Used.evolves (used : Used s r t) (intact : Intact s)
    (free : NoDirectory s.disk (s.fd r).ino) : Evolves s t none (some (s.fd r).ino) :=
  evolves_write intact free used.disk used.map used.superblock used.shell (fun _ _ => used.number)
    (Nat.le_of_eq used.index.symm)

theorem fread_used {bytes : List Byte} (valid : r < fdNum)
    (inside : (s.fd r).pos.toNat + size ≤ blockSize)
    (result : run (sysFread r size stack) s = some (bytes, t)) : Used s r t ∧
      bytes = (List.range size).map fun k =>
        s.disk (blockAddress (s.fd r).ino + ((s.fd r).pos.toNat + k)) := by
  cases result.symm.trans (run_sysFread stack valid inside)
  exact ⟨⟨fun _ _ => rfl, rfl, rfl, rfl, ⟨_, rfl⟩, rfl⟩, rfl⟩

theorem fwrite_used {x : Nat} (valid : r < fdNum)
    (inside : (s.fd r).pos.toNat + buf.length ≤ blockSize)
    (result : run (sysFwrite r buf stack) s = some (x, t)) : Used s r t := by
  obtain ⟨_, wrote, map, superblock, shell, disk, fd, index⟩ := run_sysFwrite stack valid inside
  cases result.symm.trans wrote
  refine ⟨?_, map, superblock, shell, ⟨_, fd⟩, index⟩
  rw [disk]
  exact written_of s _ inside

/-- `sys_fclose` writes a zero and rewinds. -/
theorem fclose_used (valid : r < fdNum) (inside : (s.fd r).pos.toNat + 1 ≤ blockSize)
    (result : run (sysFclose r stack) s = some ((), t)) : Used s r t := by
  obtain ⟨u, wrote, _⟩ := @run_sysFwrite s r [0] stack valid inside
  have used := fwrite_used valid inside wrote
  rw [sysFclose, run_then wrote] at result
  cases result
  obtain ⟨pos, moved⟩ := used.moved
  refine ⟨used.disk, used.map, used.superblock, used.shell, ⟨0, ?_⟩, used.index⟩
  dsimp only
  rw [moved, Function.update_self, Function.update_idem]

theorem Created.number (created : Created s cwd f i n t) (intact : Intact s) :
    Evolves s t (some (nextNumber s)) none := by
  rw [created.takes intact]
  exact created.evolves intact

theorem Effect.takes_evolves {mode : Word} (takes : Effect.Takes s mode name t)
    (intact : Intact s) : Evolves s t none none := by
  rcases takes with ⟨cwd, f, i, n, removed, _⟩ | ⟨rfl, _⟩
  · exact removed.evolves intact
  · exact .refl intact

theorem changeDirectory_evolves (intact : Intact s) (short : name.val.length < 32)
    (result : run (changeDirectory (some name) stack) s = some ((), t)) :
    Evolves s t none none := by
  obtain ⟨u, ran, effect⟩ := intact.changeDirectory stack short
  cases result.symm.trans ran
  obtain ⟨cwd, f, located, isDir, shell⟩ := intact.cwd
  have after := effect.intact (c := .cd (some name) stack) trivial intact
  rcases run_changeDirectory stack intact.sound intact.rootIno located isDir shell short with
    ⟨_, b, ends⟩ | ⟨q, b, head, inode, _, ends, _⟩
  all_goals
    cases result.symm.trans ends
    exact .still after rfl (fun _ _ => rfl) (Nat.le_refl _)

section Watched

variable {w w' : Watched} {a : Access}

theorem Inv.through_used (inv : Inv w) (careful : Careful w a) (through : a.through = some r)
    (result : a.execute w.system = some t) : Used w.system r t := by
  obtain ⟨permitted, current⟩ := careful
  cases a with
  | shell c =>
    cases c with
    | fwrite index buf stack =>
      cases through
      obtain ⟨_, wrote⟩ := perform_result rfl result
      exact fwrite_used (inv.below _ permitted.1).2 permitted.2 wrote
    | _ => cases through
  | fread index size stack =>
    cases through
    obtain ⟨⟨_, u⟩, ran, rfl⟩ := Option.map_eq_some_iff.mp result
    exact (fread_used (inv.below _ permitted.1).2 permitted.2 ran).1
  | fclose index stack =>
    cases through
    obtain ⟨⟨_, u⟩, ran, rfl⟩ := Option.map_eq_some_iff.mp result
    exact fclose_used (inv.below _ permitted.1).2 permitted.2 ran

theorem Permitted.through (permitted : Permitted w a) (through : a.through = some r) :
    w.life r ≠ none := by
  cases a with
  | shell c =>
    cases c with
    | fwrite index buf stack =>
      cases through
      exact permitted.1
    | _ => cases through
  | _ =>
    cases through
    exact permitted.1

theorem Inv.through_evolves (inv : Inv w) (careful : Careful w a) (through : a.through = some r)
    (result : a.execute w.system = some t) :
    Evolves w.system t none (some (w.system.fd r).ino) := by
  obtain ⟨_, free⟩ := inv.usable (careful.1.through through) (careful.2 r through)
  exact (inv.through_used careful through result).evolves inv.intact free

/-- Every access, with the number it hands out and the block it goes to. -/
theorem execute_evolves (inv : Inv w) (careful : Careful w a)
    (result : a.execute w.system = some t) :
    Evolves w.system t (a.handsOut w.system) (a.number w.system) := by
  have intact := inv.intact
  have permitted := careful.1
  cases a with
  | shell c =>
    have ran := perform_run result
    cases c with
    | mkdir name locals =>
      cases name with
      | none =>
        cases ran
        exact .refl intact
      | some name =>
        obtain ⟨u, made, cwd, f, i, n, created, _⟩ := intact.makeDirectory locals permitted
        cases ran.symm.trans made
        exact created.number intact
    | touch name locals =>
      cases name with
      | none =>
        cases ran
        exact .refl intact
      | some name =>
        obtain ⟨u, made, cwd, f, i, n, created, _⟩ := intact.touchFile locals permitted
        cases ran.symm.trans made
        exact created.number intact
    | rm name locals =>
      cases name with
      | none =>
        cases ran
        exact .refl intact
      | some name =>
        obtain ⟨u, removed, takes⟩ := intact.removeFile name locals
        cases ran.symm.trans removed
        exact Effect.takes_evolves takes intact
    | rmdir name locals =>
      cases name with
      | none =>
        cases ran
        exact .refl intact
      | some name =>
        obtain ⟨u, removed, effect⟩ := intact.removeDirectory name locals
        cases ran.symm.trans removed
        rw [Effect] at effect
        split at effect
        · cases effect
          exact .refl intact
        · exact Effect.takes_evolves effect intact
    | cd path stack =>
      obtain ⟨name, rfl, short⟩ := permitted
      exact changeDirectory_evolves intact short ran
    | ls path stack =>
      obtain ⟨name, rfl, short⟩ := permitted
      obtain ⟨_, listed⟩ := perform_result rfl result
      obtain ⟨b, rfl⟩ := intact.listed short listed
      have quiet : Quiet w.system { w.system with curDir := b } := ⟨rfl, rfl, rfl, rfl⟩
      exact .still (quiet.intact intact) rfl (fun _ _ => rfl) (Nat.le_refl _)
    | cat name stack =>
      obtain ⟨_, printed⟩ := perform_result rfl result
      obtain ⟨_, same⟩ := @run_catFile w.system stack name
      cases printed.symm.trans same
      exact .refl intact
    | fopen name stack locals =>
      obtain ⟨room, _, fits⟩ := permitted
      obtain ⟨_, opened⟩ := perform_result rfl result
      exact fopen_evolves intact room fits opened
    | fwrite index buf stack => exact inv.through_evolves careful rfl result
    | fseek index pos =>
      have valid := (inv.below index permitted).2
      rw [Command.routine, sysFseek, if_neg (Nat.not_le.mpr valid)] at ran
      cases ran
      have quiet : Quiet w.system { w.system with
        fd := Function.update w.system.fd index ⟨(w.system.fd index).ino, pos⟩ } :=
        ⟨rfl, rfl, rfl, rfl⟩
      exact .still (quiet.intact intact) rfl (fun _ _ => setPos_ino (g := fun _ => pos))
        (Nat.le_refl _)
  | fread index size stack => exact inv.through_evolves careful rfl result
  | fclose index stack => exact inv.through_evolves careful rfl result

theorem sets_fopen (sets : a.sets s = some r) :
    ∃ name stack locals, a = .shell (.fopen name stack locals) ∧ r = s.fdIndex := by
  cases a with
  | shell c =>
    cases c with
    | fopen name stack locals => exact ⟨name, stack, locals, rfl, (Option.some.inj sets).symm⟩
    | _ => cases sets
  | _ => cases sets

/-- The life of an old descriptor goes on. -/
theorem Inv.old (inv : Inv w) (next : Watches w a w') (here : w.life r ≠ none) : w'.life r =
    (w.life r).map (Life.next (a.handsOut w.system) (w.system.fd r).ino w'.system) := by
  apply next.2.2
  intro sets
  obtain ⟨_, _, _, _, new⟩ := sets_fopen sets
  have below := (inv.below r here).1
  omega

theorem Inv.step_below (inv : Inv w) (careful : Careful w a) (next : Watches w a w')
    (here : w'.life r ≠ none) : r < w'.system.fdIndex ∧ r < fdNum := by
  have evolves := execute_evolves inv careful next.1
  by_cases sets : a.sets w.system = some r
  · obtain ⟨name, stack, locals, rfl, rfl⟩ := sets_fopen sets
    obtain ⟨_, opened⟩ := perform_result rfl next.1
    rw [sysFopen_next opened]
    exact ⟨Nat.lt_succ_self _, careful.1.1⟩
  · have old : w.life r ≠ none := by
      intro none
      rw [next.2.2 r sets, none] at here
      exact here rfl
    obtain ⟨low, valid⟩ := inv.below r old
    exact ⟨Nat.lt_of_lt_of_le low evolves.index, valid⟩

/-- A file that is still there is the one that was there before. -/
theorem Inv.step_held (inv : Inv w) (careful : Careful w a) (next : Watches w a w')
    (here : w'.life r = some (.held p)) : OpenAt w'.system r p := by
  have evolves := execute_evolves inv careful next.1
  by_cases sets : a.sets w.system = some r
  · rcases next.2.1 r sets with ⟨q, opened, there⟩ | ⟨_, none⟩
    · cases here.symm.trans there
      exact opened
    · cases here.symm.trans none
  · rw [next.2.2 r sets] at here
    obtain ⟨l, before, after⟩ := Option.map_eq_some_iff.mp here
    cases l with
    | held q =>
      rw [Life.next] at after
      split at after
      case isTrue some =>
        cases after
        obtain ⟨m, there⟩ := Option.isSome_iff_exists.mp some
        obtain ⟨n, located, isFile, number⟩ := inv.held r p before
        have below := (inv.below r (by rw [before]; exact nofun)).1
        rcases evolves.nodes there with same | ⟨none, _⟩
        · cases same.symm.trans located
          exact ⟨m, there, isFile, (evolves.inos r below).trans number⟩
        · cases none.symm.trans located
      case isFalse => cases after
    | gone =>
      rw [Life.next] at after
      split at after <;> cases after
    | reused => cases after

/-- The number of a file that is gone is nobody's until it is handed out. -/
theorem Inv.step_gone (inv : Inv w) (careful : Careful w a) (next : Watches w a w')
    (here : w'.life r = some .gone) : (w'.system.fd r).ino.toNat < inodeBound ∧
      ∀ {q m}, locate w'.system.disk q = some m → m.ino ≠ (w'.system.fd r).ino := by
  have evolves := execute_evolves inv careful next.1
  by_cases sets : a.sets w.system = some r
  · rcases next.2.1 r sets with ⟨q, opened, there⟩ | ⟨_, none⟩
    · cases here.symm.trans there
    · cases here.symm.trans none
  · rw [next.2.2 r sets] at here
    obtain ⟨l, before, after⟩ := Option.map_eq_some_iff.mp here
    rw [evolves.inos r (inv.below r (by rw [before]; exact nofun)).1]
    cases l with
    | held p =>
      rw [Life.next] at after
      split at after
      case isTrue => cases after
      case isFalse none =>
        obtain ⟨n, located, _, number⟩ := inv.held r p before
        rw [number]
        refine ⟨inv.intact.sound.small located, fun {q m} there same => ?_⟩
        rcases evolves.nodes there with old | ⟨_, handed⟩
        · cases inv.intact.sound.apart old located same
          exact none (Option.isSome_iff_exists.mpr ⟨m, there⟩)
        · exact evolves.fresh located (same ▸ handed)
    | gone =>
      rw [Life.next] at after
      split at after
      case isTrue => cases after
      case isFalse kept =>
        obtain ⟨small, nobody⟩ := inv.gone r before
        refine ⟨small, fun {q m} there same => ?_⟩
        rcases evolves.nodes there with old | ⟨_, handed⟩
        · exact nobody old same
        · exact kept (same ▸ handed)
    | reused => cases after

theorem Inv.step (inv : Inv w) (careful : Careful w a) (next : Watches w a w') : Inv w' where
  intact := (execute_evolves inv careful next.1).intact
  below _ here := inv.step_below careful next here
  held _ _ here := inv.step_held careful next here
  gone _ here := inv.step_gone careful next here

theorem reachable_inv {fs : FileSystem} (intact : Intact fs)
    (reach : Reachable Watches Careful ⟨fs, fun _ => none⟩ w) : Inv w := by
  apply reach.invariant
  · exact ⟨intact, fun _ here => absurd rfl here, nofun, nofun⟩
  · intro _ _ _ inv careful next
    exact inv.step careful next

/-- An access through `r` that leaves `t` stays in the file that `r` was opened on. -/
structure Owns (w : Watched) (r : Nat) (t : FileSystem) : Prop where
  opened : ∀ p, w.life r = some (.held p) → OpenAt w.system r p
  inside : Written w.system.disk t.disk (w.system.fd r).ino
  others : ∀ {q m}, locate w.system.disk q = some m → w.life r ≠ some (.held q) →
    m.ino ≠ (w.system.fd r).ino ∧ Same w.system.disk t.disk (blockAddress m.ino) blockSize
  tree : locate t.disk = locate w.system.disk
  rest : ∀ j ≠ r, t.fd j = w.system.fd j

theorem Inv.apart (inv : Inv w) (here : w.life r ≠ none) (current : w.life r ≠ some .reused)
    (located : locate w.system.disk q = some m) (other : w.life r ≠ some (.held q)) :
    m.ino ≠ (w.system.fd r).ino := by
  intro same
  cases life : w.life r with
  | none => exact here life
  | some l =>
    cases l with
    | held p =>
      obtain ⟨n, there, _, number⟩ := inv.held r p life
      cases inv.intact.sound.apart located there (same.trans number)
      exact other life
    | gone => exact (inv.gone r life).2 located same
    | reused => exact current life

theorem Used.owns (used : Used w.system r t) (inv : Inv w) (here : w.life r ≠ none)
    (current : w.life r ≠ some .reused) : Owns w r t where
  opened := inv.held r
  inside := used.disk
  others {q m} located other := by
    have apart := inv.apart here current located other
    obtain ⟨_, free⟩ := inv.usable here current
    refine ⟨apart, fun k inside => ?_⟩
    exact used.disk _ (blocks_apart (inv.intact.sound.small located) free.small apart inside)
  tree := used.disk.locate inv.intact.sound (inv.usable here current).2
  rest j other := by
    obtain ⟨pos, moved⟩ := used.moved
    rw [moved, Function.update_of_ne other]

/-- The block of a descriptor's file, as long as its number is not handed out again, gets other
bytes only through descriptors with that number. -/
theorem Inv.undisturbed (inv : Inv w) (careful : Careful w a) (next : Watches w a w')
    (here : w.life r ≠ none) (current : w'.life r ≠ some .reused)
    (other : a.number w.system ≠ some (w.system.fd r).ino) :
    Same w.system.disk w'.system.disk (blockAddress (w.system.fd r).ino) blockSize := by
  have evolves := execute_evolves inv careful next.1
  rw [inv.old next here] at current
  have before : w.life r ≠ some .reused := by
    intro reused
    rw [reused] at current
    exact current rfl
  apply evolves.spares (inv.usable here before).2 _ other
  intro handed
  cases life : w.life r with
  | none => exact here life
  | some l =>
    cases l with
    | held p =>
      obtain ⟨n, located, _, number⟩ := inv.held r p life
      exact evolves.fresh located (number ▸ handed)
    | gone =>
      rw [life, Option.map_some, Life.next, if_pos handed] at current
      exact current rfl
    | reused => exact before life

/-- In every run in which no descriptor is used after the number of its file was handed out
again: what `sys_fopen` returns is a descriptor of a file, every access through a descriptor
stays in its file, reads return what is there, and nothing else changes what is there. -/
theorem descriptors_own {fs : FileSystem} (intact : Intact fs)
    (reach : Reachable Watches Careful ⟨fs, fun _ => none⟩ w) (careful : Careful w a)
    (next : Watches w a w') :
    (∀ r, a.sets w.system = some r →
      ∃ p, OpenAt w'.system r p ∧ w'.life r = some (.held p)) ∧
    (∀ r, a.through = some r → Owns w r w'.system) ∧
    (∀ r size stack bytes, a = .fread r size stack →
      run (sysFread r size stack) w.system = some (bytes, w'.system) →
      bytes = (List.range size).map fun k => w.system.disk
        (blockAddress (w.system.fd r).ino + ((w.system.fd r).pos.toNat + k))) ∧
    ∀ r, w.life r ≠ none → w'.life r ≠ some .reused →
      a.number w.system ≠ some (w.system.fd r).ino →
      Same w.system.disk w'.system.disk (blockAddress (w.system.fd r).ino) blockSize := by
  have inv := reachable_inv intact reach
  refine ⟨fun r sets => ?_, fun r through => ?_, fun r size stack bytes isRead ran => ?_,
    fun r here current other => inv.undisturbed careful next here current other⟩
  · rcases next.2.1 r sets with here | ⟨none, _⟩
    · exact here
    · obtain ⟨name, stack, locals, rfl, rfl⟩ := sets_fopen sets
      obtain ⟨room, target, fits⟩ := careful.1
      obtain ⟨_, opened⟩ := perform_result rfl next.1
      obtain ⟨p, here⟩ := fopen_opens inv.intact room target fits opened
      exact absurd here (none p)
  · exact (inv.through_used careful through next.1).owns inv (careful.1.through through)
      (careful.2 r through)
  · subst isRead
    obtain ⟨here, inside⟩ := careful.1
    exact (fread_used (inv.below r here).2 inside ran).2

/-- The lives after an access that sets no descriptor. -/
def Watched.after (w : Watched) (a : Access) (t : FileSystem) : Watched :=
  ⟨t, fun r => (w.life r).map (Life.next (a.handsOut w.system) (w.system.fd r).ino t)⟩

theorem watches_after (result : a.execute w.system = some t) (quiet : a.sets w.system = none) :
    Watches w a (w.after a t) := by
  refine ⟨result, fun r sets => ?_, fun _ _ => rfl⟩
  cases quiet.symm.trans sets

/-- A file is opened for the first time. -/
theorem Target.watched (target : Target s file name i n) (intact : Intact s)
    (index : s.fdIndex = 0) : ∃ w p, Reachable Watches Careful ⟨s, fun _ => none⟩ w ∧
      w.system = pushed n.ino s ∧ w.life 0 = some (.held p) ∧ locate s.disk p = some n := by
  have room : s.fdIndex < fdNum := by
    rw [index]
    decide
  obtain ⟨found, number⟩ := target.opens intact blankLocals.db
  have opened := perform_fopen blankLocals found room
  rw [number] at opened
  obtain ⟨cwd, f, _, held⟩ := target.held intact (.inl rfl)
  have careful : Careful ⟨s, fun _ => none⟩ (.shell (.fopen name blankLocals.db blankLocals)) :=
    ⟨⟨room, fun _ => ⟨i, n, target⟩, fun missed => absurd found missed⟩, nofun⟩
  refine ⟨⟨pushed n.ino s, fun r => if r = 0 then some (.held (i :: cwd)) else none⟩, i :: cwd,
    .step .start careful ⟨opened, fun r sets => ?_, fun r sets => ?_⟩, rfl, rfl, held.located⟩
  · cases sets
    refine .inl ⟨i :: cwd, ⟨n, held.located, target.kind, ?_⟩, if_pos index⟩
    exact congrArg FileDesc.ino pushed_self
  · have other : r ≠ 0 := by
      rintro rfl
      exact sets (congrArg some index)
    exact if_neg other

def sevens : Access := .shell (.fwrite 0 (List.replicate 8 7) blankLocals.db)

/-- The first use of the first descriptor. -/
theorem descriptors_own_open : ∃ fs w w', Intact fs ∧
    Reachable Watches Careful ⟨fs, fun _ => none⟩ w ∧ Watches w sevens w' ∧
    Owns w 0 w'.system := by
  obtain ⟨s, i, n, _, intact, target, index, _⟩ := session_touch
  obtain ⟨w, p, reach, system, life, _⟩ := target.watched intact index
  have valid : 0 < fdNum := by decide
  have start : (w.system.fd 0).pos = 0 := by
    rw [system, ← index, pushed_self]
  have inside : (w.system.fd 0).pos.toNat + (List.replicate 8 (7 : Byte)).length ≤ blockSize := by
    rw [start]
    decide
  obtain ⟨t, wrote, _⟩ := run_sysFwrite blankLocals.db valid inside
  have next : Watches w sevens (w.after sevens t) :=
    watches_after (perform_of (run_then wrote)) rfl
  have careful : Careful w sevens := by
    refine ⟨⟨?_, inside⟩, fun r through => ?_⟩
    · rw [life]
      exact nofun
    · cases through
      rw [life]
      exact nofun
  exact ⟨s, w, _, intact, reach, next, (descriptors_own intact reach careful next).2.1 0 rfl⟩

/-- `rm` takes the first file of that name. -/
theorem removeFile_target (target : Target s file name i n) (intact : Intact s) (locals : Locals) :
    ∃ cwd t, run (removeFile (some name) locals) s = some ((), t) ∧
      ∃ f, Removed s cwd f i n t := by
  obtain ⟨t, result, takes⟩ := intact.removeFile name locals
  rcases takes with ⟨cwd, f, j, m, removed, isFile, same⟩ | ⟨_, none⟩
  · have here : dirEntry s.disk (cwdIno s) j = some m := by
      rw [removed.shell]
      exact removed.held.here
    have first : Target s file name j m := by
      refine ⟨removed.held.inside, here, isFile, same, fun k earlier e there kind => ?_⟩
      rw [removed.shell] at there
      rw [← same]
      exact removed.first k earlier e there (kind.trans isFile.symm)
    obtain ⟨rfl, rfl⟩ := target.unique first
    exact ⟨cwd, t, result, f, removed⟩
  · exact absurd target.same (none i target.inside n target.here target.kind)

/-- The first free number is free again after the removal, and the next creation gets it. -/
theorem Removed.nextNumber (removed : Removed s cwd f i n t) (intact : Intact s)
    (least : ∀ o < n.ino.toNat, bit (diskMap s.disk) o = true) {cwd' : List Nat} {f' : Node}
    {j : Nat} (created : Created t cwd' f' j m u) : m.ino = n.ino := by
  have small := intact.sound.small removed.held.located
  have marks := removed.pruned.marks
  rcases Nat.lt_trichotomy m.ino.toNat n.ino.toNat with earlier | same | later
  · have unmarked := created.room.unmarked
    rw [marks _ created.room.small, if_neg (Nat.ne_of_lt earlier), least _ earlier] at unmarked
    cases unmarked
  · exact BitVec.eq_of_toNat_eq same
  · have marked := created.least _ later
    rw [← (removed.intact intact).bits small, marks _ small, if_pos rfl] at marked
    cases marked

theorem Removed.fits (removed : Removed s cwd f i n t) (intact : Intact s)
    (short : name.val.length ≤ 23) : CreationFits t name := by
  have small := intact.sound.small removed.held.located
  refine ⟨short, ⟨i, removed.held.inside, ?_⟩, ⟨n.ino.toNat, small, ?_⟩⟩
  · rw [removed.stays]
    exact removed.pruned.here
  · rw [← (removed.intact intact).bits small, removed.pruned.marks _ small, if_pos rfl]

/-- A new directory, and the mode that its first dentry has. -/
theorem Created.dot (created : Created s cwd f i n t) (intact : Intact s) (isDir : n.mode = dir) :
    locate t.disk (i :: cwd) = some n ∧ word t.disk (blockAddress n.ino + offDentryMode) = dir := by
  have tree := created.grafted.locate intact.sound created.room
  have here : locate t.disk (i :: cwd) = some n := by
    rw [tree, graft_self]
  have above : locate t.disk (i :: cwd).tail = some f := by
    rw [List.tail_cons, tree, graft_other (List.cons_ne_self _ _).symm, created.room.cwd]
  have self := ((created.intact intact).sound.dots here isDir above).self
  rw [dirEntry, Files.entry, Nat.mul_zero, Nat.add_zero] at self
  split at self
  · cases self
  · exact ⟨here, congrArg Node.mode (Option.some.inj self)⟩

theorem after_gone (life : w.life r = some (.held p)) (lost : locate t.disk p = none) :
    (w.after a t).life r = some .gone := by
  simp only [Watched.after, life, Option.map_some, Life.next, lost, Option.isSome_none,
    Bool.false_eq_true, if_false]

theorem after_reused (life : w.life r = some .gone)
    (handed : a.handsOut w.system = some (w.system.fd r).ino) :
    (w.after a t).life r = some .reused := by
  simp only [Watched.after, life, Option.map_some, Life.next, handed, if_true]

/-- A file is opened and removed. Its number is the next one again. -/
theorem session_removed : ∃ fs w n, Session Sane fs ∧ Intact fs ∧
    Reachable Watches Permitted ⟨fs, fun _ => none⟩ w ∧ Intact w.system ∧
    w.life 0 = some .gone ∧ w.system.fd 0 = ⟨n, 0⟩ ∧ CreationFits w.system nameA ∧
    ∀ {cwd f j m u}, Created w.system cwd f j m u → m.ino = n := by
  obtain ⟨s, i, n, session, intact, target, index, _, _, _, least⟩ := session_touch
  obtain ⟨w, p, reach, system, life, located⟩ := target.watched intact index
  have intact' : Intact w.system := by
    rw [system]
    exact Quiet.intact (s := s) ⟨rfl, rfl, rfl, rfl⟩ intact
  have target' : Target w.system file nameA i n := by
    rw [system]
    exact ⟨target.inside, target.here, target.kind, target.same, target.first⟩
  have disk : w.system.disk = s.disk := by
    rw [system, pushed]
  obtain ⟨cwd, t, gone, f, removed⟩ := removeFile_target target' intact' blankLocals
  have permitted : Permitted w (.shell (.rm (some nameA) blankLocals)) := trivial
  refine ⟨s, w.after (.shell (.rm (some nameA) blankLocals)) t, n.ino, session, intact,
    .step (reach.mono fun _ _ careful => careful.1) permitted (watches_after (perform_of gone) rfl),
    removed.intact intact', after_gone life ?_, ?_, removed.fits intact' (by decide),
    fun created => removed.nextNumber intact' (disk ▸ least) created⟩
  · have path : p = i :: cwd := intact.sound.apart located (disk ▸ removed.held.located) rfl
    rw [path, removed.pruned.locate intact'.sound removed.held, prune_below List.suffix_rfl]
  · rw [Watched.after, removed.rest]
    dsimp only
    rw [system, ← index, pushed_self]

/-- A directory gets the number. -/
theorem session_reused : ∃ fs w q n, Session Sane fs ∧ Intact fs ∧
    Reachable Watches Permitted ⟨fs, fun _ => none⟩ w ∧ w.life 0 = some .reused ∧
    w.system.fd 0 = ⟨n.ino, 0⟩ ∧ locate w.system.disk q = some n ∧ n.mode = dir ∧
    word w.system.disk (blockAddress n.ino + offDentryMode) = dir := by
  obtain ⟨fs, w, ino, session, intact, reach, intact', life, desc, fits, number⟩ :=
    session_removed
  obtain ⟨t, made, cwd, f, i, n, created, isDir, _⟩ := intact'.makeDirectory blankLocals fits
  obtain ⟨there, mode⟩ := created.dot intact' isDir
  have same := number created
  have permitted : Permitted w (.shell (.mkdir (some nameA) blankLocals)) := fits
  refine ⟨fs, w.after (.shell (.mkdir (some nameA) blankLocals)) t, i :: cwd, n, session, intact,
    .step reach permitted (watches_after (perform_of made) rfl), after_reused life ?_, ?_, there,
    isDir, mode⟩
  · rw [Access.handsOut, created.takes intact', same, desc]
  · rw [Watched.after, created.rest, same]
    exact desc

/-- A file is opened and removed, and a directory gets its number. A write through the descriptor
then goes over the dentry `.` of that directory. -/
theorem directory_overwritten : ∃ fs w w' q n, Session Sane fs ∧ Intact fs ∧
    Reachable Watches Permitted ⟨fs, fun _ => none⟩ w ∧ Permitted w sevens ∧
    Watches w sevens w' ∧ w.life 0 = some .reused ∧
    locate w.system.disk q = some n ∧ n.mode = dir ∧
    word w.system.disk (blockAddress n.ino + offDentryMode) = dir ∧
    word w'.system.disk (blockAddress n.ino + offDentryMode) = 0x07070707 ∧
    ¬Owns w 0 w'.system := by
  obtain ⟨fs, w, q, n, session, intact, reach, life, desc, located, isDir, before⟩ :=
    session_reused
  have start : (w.system.fd 0).pos.toNat = 0 := by
    rw [desc]
    rfl
  have inside : (w.system.fd 0).pos.toNat + (List.replicate 8 (7 : Byte)).length ≤ blockSize := by
    rw [start]
    decide
  obtain ⟨t, wrote, _, _, _, bytes, _⟩ :=
    run_sysFwrite blankLocals.db (by decide : 0 < fdNum) inside
  have used : w.life 0 ≠ none := by
    rw [life]
    exact nofun
  have number : (w.system.fd 0).ino = n.ino := congrArg FileDesc.ino desc
  refine ⟨fs, w, w.after sevens t, q, n, session, intact, reach, ⟨used, inside⟩,
    watches_after (perform_of (run_then wrote)) rfl, life, located, isDir, before, ?_,
    fun owns => ?_⟩
  · rw [Watched.after]
    dsimp only
    rw [bytes, number, start, Nat.add_zero]
    exact word_copy_inside (by decide)
  · have other : w.life 0 ≠ some (.held q) := by
      rw [life]
      exact nofun
    exact (owns.others located other).1 number.symm

end Watched

end Tina.Files
