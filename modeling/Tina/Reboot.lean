import Tina.Crash

/-! A file system that is mounted again after a reboot, beside the one that was not
rebooted. Only timestamps and the numbers of descriptors tell them apart. -/
namespace Tina.Files

open ByteBuffer Atomic SlotTree Transition

variable {s s' t t' u : FileSystem} {d d' stack : Buffer} {a i j k o base index : Nat}
  {p q cwd : List Nat} {n m f g : Node} {ino mode father : Word} {name : CString}
  {locals locals' : Locals} {c c' : Command} {buf : List Byte}

/-- The bytes of the timestamps in the inode table. -/
def IsStamp (k : Nat) : Prop :=
  0x3fc00000 ≤ k ∧ k < 0x3fe00000 ∧ offTimestamp ≤ k % inodeSize ∧ k % inodeSize < offTimestamp + 4

/-- Two cards with the same bytes, timestamps aside. -/
def SameBut (d d' : Buffer) : Prop := ∀ k, ¬IsStamp k → d k = d' k

theorem not_stamp_low (low : k < 0x3fc00000) : ¬IsStamp k := fun stamp => by
  have := stamp.1
  omega

/-- A transfer from memory that is the same where no timestamp goes. -/
theorem SameBut.copy {src src' : Buffer} (same : SameBut d d')
    (bytes : ∀ l < k, ¬IsStamp (a + l) → src (i + l) = src' (i + l)) :
    SameBut (copy d a src i k) (copy d' a src' i k) := by
  intro l notStamp
  by_cases inside : a ≤ l ∧ l < a + k
  · obtain ⟨e, rfl⟩ := Nat.exists_eq_add_of_le inside.1
    rw [copy_inside (by omega), copy_inside (by omega)]
    exact bytes e (by omega) notStamp
  · rw [copy_outside (by omega), copy_outside (by omega)]
    exact same l notStamp

section SameBut

variable (same : SameBut d d')

include same

theorem SameBut.block (small : ino.toNat < inodeBound) (low : k < blockSize) :
    d (blockAddress ino + k) = d' (blockAddress ino + k) := by
  apply same
  apply not_stamp_low
  rw [blockAddress_eq small]
  simp only [blockSize, inodeBound] at *
  omega

theorem SameBut.map (low : k < mapSize) : d (mapAddress + k) = d' (mapAddress + k) := by
  apply same
  apply not_stamp_low
  simp only [mapAddress, mapSize] at *
  omega

theorem SameBut.dirEntry (small : ino.toNat < inodeBound) (inside : i < dentrysPerBlock) :
    Files.dirEntry d' ino i = Files.dirEntry d ino i := by
  apply Same.dirEntry
  intro k low
  rw [Nat.add_assoc]
  apply Eq.symm
  apply same.block small
  simp only [dentrySize, blockSize, dentrysPerBlock] at *
  omega

theorem SameBut.locate (sound : Sound d) : Files.locate d' = Files.locate d := by
  funext p
  induction p with
  | nil => rfl
  | cons i p ih =>
    rw [Files.locate, ih, Files.locate]
    cases located : Files.locate d p with
    | none => rfl
    | some m =>
      rw [Option.bind_some, Option.bind_some]
      split
      next inside => exact same.dirEntry (sound.small located) inside.2.2
      · rfl

theorem SameBut.tree (sound : Sound d) :
    image (item d') (Files.locate d') = image (item d) (Files.locate d) := by
  rw [same.locate sound]
  funext p
  cases located : Files.locate d p with
  | none => rw [image, image, located, Option.map_none, Option.map_none]
  | some m =>
    rw [image, image, located, Option.map_some, Option.map_some, item_same]
    intro _ k low
    exact (same.block (sound.small located) low).symm

end SameBut

theorem SameBut.refl : SameBut d d := fun _ _ => rfl

/-- The state of a run after a reboot beside that of a run without one. The descriptors set
before the reboot are missing. -/
structure Twin (base : Nat) (s t : FileSystem) : Prop where
  left : Intact s
  right : Intact t
  disk : SameBut s.disk t.disk
  shell : cwdIno s = cwdIno t
  index : t.fdIndex = base + s.fdIndex
  fd : ∀ i < s.fdIndex, t.fd (base + i) = s.fd i

section Twin

variable (twin : Twin base s t)

include twin

theorem Twin.small : (cwdIno s).toNat < inodeBound := by
  obtain ⟨cwd, f, located, _, shell⟩ := twin.left.cwd
  rw [cwdIno, shell]
  exact twin.left.sound.small located

/-- Both read the same directory. -/
theorem Twin.block (stack : Buffer) : cwdBlock t stack = cwdBlock s stack := by
  have small := twin.small
  funext k
  rw [cwdBlock, cwdBlock, ← cwdIno, ← cwdIno, ← twin.shell]
  by_cases inside : k < blockSize
  · rw [copy_start inside, copy_start inside]
    exact (twin.disk.block small inside).symm
  · rw [copy_outside (by omega), copy_outside (by omega)]

theorem Twin.map (low : k < mapSize) : t.inodeMap k = s.inodeMap k := by
  rw [← twin.left.map k low, ← twin.right.map k low]
  exact (twin.disk.map low).symm

theorem Twin.bit (low : o < inodeBound) : bit t.inodeMap o = bit s.inodeMap o :=
  bit_congr (fun _ inside => twin.map inside) low

theorem Twin.entry (inside : i < dentrysPerBlock) :
    dirEntry t.disk (cwdIno t) i = dirEntry s.disk (cwdIno s) i := by
  rw [← twin.shell]
  exact twin.disk.dirEntry twin.small inside

/-- Both allocate the same number and take the same slot. -/
theorem Twin.place {bound : Nat} {cwd cwd' : List Nat} {i' o' : Nat} {f' : Node}
    (place : Place s stack bound cwd f i o) (place' : Place t stack bound cwd' f' i' o') :
    i' = i ∧ o' = o := by
  constructor
  · rw [← place.slot, ← place'.slot, twin.block]
  · rcases Nat.lt_trichotomy o o' with earlier | same | later
    · have marked := place'.least o earlier
      rw [twin.bit place.small, place.clear] at marked
      cases marked
    · exact same.symm
    · have marked := place.least o' later
      rw [← twin.bit place'.small, place'.clear] at marked
      cases marked

/-- What changes neither the descriptors nor the directory of the shell keeps the states twins. -/
theorem Twin.next (left : Intact s') (right : Intact t') (disk : SameBut s'.disk t'.disk)
    (shell : cwdIno s' = cwdIno t') (same : s'.fd = s.fd ∧ s'.fdIndex = s.fdIndex)
    (same' : t'.fd = t.fd ∧ t'.fdIndex = t.fdIndex) : Twin base s' t' := by
  refine ⟨left, right, disk, shell, ?_, ?_⟩
  · rw [same.2, same'.2]
    exact twin.index
  · rw [same.1, same.2, same'.1]
    exact twin.fd

/-- The inode maps stay the same when one bit is changed in both. -/
theorem Twin.modify (low : o < inodeBound) (inside : k < mapSize) :
    bitmapModify s.inodeMap mode o k = bitmapModify t.inodeMap mode o k := by
  have positive : (0 : Int) ≤ o := Int.natCast_nonneg o
  have index : ((o : Int).tdiv 32).toNat = o / 32 := by
    rw [Int.tdiv_eq_ediv_of_nonneg positive]
    omega
  have words : word s.inodeMap (4 * (o / 32)) = word t.inodeMap (4 * (o / 32)) := by
    apply word_congr
    intro l first last
    rw [show l - 4 * (o / 32) + 4 * (o / 32) = l by omega]
    apply Eq.symm
    apply twin.map
    simp only [mapSize, inodeBound] at *
    omega
  rw [bitmapModify, bitmapModify, index]
  split
  · exact (twin.map inside).symm
  · dsimp only
    rw [words, setWord, setWord]
    split
    · rfl
    · exact (twin.map inside).symm

end Twin

/-- What two calls have in common when only the clock differs. -/
structure SameLocals (locals locals' : Locals) : Prop where
  db : locals.db = locals'.db
  inode : locals.inode = locals'.inode
  block : locals.block = locals'.block

theorem inodeInit_stamp {timer timer' : Word} {inode : Buffer} (small : ino.toNat < inodeBound)
    (inside : k < inodeSize)
    (notStamp : ¬IsStamp (tableAddress ino + k)) :
    inodeInit ino mode name father timer inode k = inodeInit ino mode name father timer' inode k := by
  have outside : k < offTimestamp ∨ offTimestamp + 4 ≤ k := by
    by_contra within
    apply notStamp
    simp only [IsStamp, tableAddress, inodeSize, offTimestamp, inodeBound] at *
    omega
  simp only [inodeInit]
  rw [setWord_outside outside, setWord_outside outside]

/-- The same creation on both cards. -/
theorem SameBut.created {map map' db : Buffer} {block : Buffer} {timer timer' : Word}
    {inode : Buffer} (same : SameBut d d') (small : ino.toNat < inodeBound)
    (maps : ∀ k < mapSize, map k = map' k) :
    SameBut (createdDisk d map block (inodeInit ino mode name father timer inode) db ino father)
      (createdDisk d' map' block (inodeInit ino mode name father timer' inode) db ino father) := by
  rw [createdDisk, createdDisk]
  apply SameBut.copy _ fun _ _ _ => rfl
  apply SameBut.copy
  · apply SameBut.copy _ fun _ _ _ => rfl
    apply same.copy
    intro k low _
    rw [Nat.zero_add]
    exact maps k low
  · intro k low notStamp
    rw [Nat.zero_add]
    exact inodeInit_stamp small low notStamp

theorem Twin.create {bound : Nat} (twin : Twin base s t) (fits : CreationFits s name)
    (fits' : CreationFits t name) (wide : dentrysPerBlock ≤ bound) (kind : mode = file ∨ mode = dir)
    (locals_same : SameLocals locals locals')
    (result : run (createEntry bound mode name locals) s = some ((), s'))
    (result' : run (createEntry bound mode name locals') t = some ((), t')) : Twin base s' t' := by
  obtain ⟨cwd, f, i, o, place⟩ := twin.left.place locals.db fits wide
  obtain ⟨cwd', f', i', o', place'⟩ := twin.right.place locals'.db fits' wide
  have places := twin.place place (locals_same.db ▸ place')
  obtain ⟨rfl, rfl⟩ := places
  obtain ⟨u, made, created, disk⟩ := place.create twin.left fits.short kind
  obtain ⟨u', made', created', disk'⟩ := place'.create twin.right fits.short kind
  have ends : s' = u := congrArg Prod.snd (Option.some.inj (result.symm.trans made))
  have ends' : t' = u' := congrArg Prod.snd (Option.some.inj (result'.symm.trans made'))
  subst ends ends'
  have father : f'.ino = f.ino := place'.shell.symm.trans (twin.shell.symm.trans place.shell)
  apply twin.next (created.intact twin.left) (created'.intact twin.right)
  · rw [disk, disk', father, ← locals_same.db, ← locals_same.inode, ← locals_same.block,
      twin.block]
    apply twin.disk.created created.room.small
    intro k low
    exact twin.modify place.small low
  · rw [cwdIno, cwdIno, created.rest, created'.rest]
    exact twin.shell
  · rw [created.rest]
    exact ⟨rfl, rfl⟩
  · rw [created'.rest]
    exact ⟨rfl, rfl⟩

theorem Twin.target (twin : Twin base s t) (target : Target s mode name i n) :
    Target t mode name i n := by
  refine ⟨target.inside, ?_, target.kind, target.same, fun j earlier m live => ?_⟩
  · rw [twin.entry target.inside]
    exact target.here
  · rw [twin.entry (Nat.lt_trans earlier target.inside)] at live
    exact target.first j earlier m live

theorem Twin.symm_entry (twin : Twin base s t) (target : Target t mode name i n) :
    Target s mode name i n := by
  refine ⟨target.inside, ?_, target.kind, target.same, fun j earlier m live => ?_⟩
  · rw [← twin.entry target.inside]
    exact target.here
  · rw [← twin.entry (Nat.lt_trans earlier target.inside)] at live
    exact target.first j earlier m live

/-- What a removal leaves on the card, in memory and elsewhere. -/
theorem Target.run (target : Target s mode name i n) (intact : Intact s)
    (removable : Removable mode name) (stack : Buffer)
    (result : Atomic.run (removeEntry mode name (cwdBlock s stack)) s = some ((), s')) :
    s'.disk = copy (copy s.disk mapAddress (bitmapModify s.inodeMap 0 n.ino.toNat) 0 mapSize)
        (blockAddress (cwdIno s)) (setWord (dentrySize * i) noIno (cwdBlock s stack)) 0 blockSize ∧
      cwdIno s' = cwdIno s ∧ s'.fd = s.fd ∧ s'.fdIndex = s.fdIndex := by
  obtain ⟨u, result', _, disk, rest⟩ := @run_removeEntry s _ n.ino mode name i
    (target.small intact removable) (target.slot intact stack) target.inside (target.number stack)
  have same : s' = u := congrArg Prod.snd (Option.some.inj (result.symm.trans result'))
  subst same
  refine ⟨disk, ?_, ?_, ?_⟩
  · rw [cwdIno, cwdIno, rest]
  · rw [rest]
  · rw [rest]

theorem Twin.remove {stack' : Buffer} (twin : Twin base s t) (removable : Removable mode name)
    (left : Intact s') (right : Intact t')
    (result : run (removeEntry mode name (cwdBlock s stack)) s = some ((), s'))
    (result' : run (removeEntry mode name (cwdBlock t stack')) t = some ((), t')) :
    Twin base s' t' := by
  rcases twin.left.standing.target stack mode name with ⟨i, n, target, _⟩ | ⟨slot, none⟩
  · obtain ⟨disk, shell, fd⟩ := target.run twin.left removable stack result
    obtain ⟨disk', shell', fd'⟩ := (twin.target target).run twin.right removable stack' result'
    apply twin.next left right _ (by rw [shell, shell', twin.shell]) fd fd'
    have small := target.small twin.left removable
    rw [disk, disk', ← twin.shell]
    apply SameBut.copy
    · apply twin.disk.copy
      intro k low _
      rw [Nat.zero_add]
      exact twin.modify small low
    · intro k low _
      have bytes : cwdBlock s stack (0 + k) = cwdBlock t stack' (0 + k) := by
        rw [Nat.zero_add, cwdBlock, cwdBlock, copy_start low, copy_start low, ← cwdIno, ← cwdIno,
          ← twin.shell]
        exact twin.disk.block twin.small low
      rw [setWord, setWord, bytes]
  · have slot' : scan dentrysPerBlock (matchesEntry (cwdBlock t stack') mode name) =
        dentrysPerBlock := by
      rcases twin.right.standing.target stack' mode name with ⟨i, n, target, _⟩ | ⟨slot', _⟩
      · exact absurd (twin.symm_entry target) (none i n)
      · exact slot'
    rw [run_removeEntry_none slot rfl] at result
    rw [run_removeEntry_none slot' rfl] at result'
    cases result
    cases result'
    exact twin

theorem Twin.resolve {parts : List (List Byte)} (twin : Twin base s t) :
    resolve t.disk p parts = resolve s.disk p parts := by
  have step : followNode t.disk = followNode s.disk := by
    funext p component
    rw [followNode, followNode, twin.disk.locate twin.left.sound]
  rw [Files.resolve, Files.resolve, step]

/-- Both shells stand in the same directory. -/
theorem Twin.stands (twin : Twin base s t) : ∃ cwd f, locate s.disk cwd = some f ∧
    locate t.disk cwd = some f ∧ f.mode = dir ∧ cwdIno s = f.ino ∧ cwdIno t = f.ino := by
  obtain ⟨cwd, f, located, isDir, shell⟩ := twin.left.cwd
  have there := located
  rw [← twin.disk.locate twin.left.sound] at there
  exact ⟨cwd, f, located, there, isDir, shell, twin.shell.symm.trans shell⟩

/-- Both shells move along the same path. -/
theorem Twin.changeDirectory {stack' : Buffer} (twin : Twin base s t) (short : name.val.length < 32)
    (left : Intact s') (right : Intact t')
    (result : run (changeDirectory (some name) stack) s = some ((), s'))
    (result' : run (changeDirectory (some name) stack') t = some ((), t')) : Twin base s' t' := by
  obtain ⟨cwd, f, located, located', isDir, shell, shell'⟩ := twin.stands
  have run_left := run_changeDirectory stack twin.left.sound twin.left.rootIno located isDir shell short
  have run_right := run_changeDirectory stack' twin.right.sound twin.right.rootIno located' isDir shell' short
  rw [twin.resolve] at run_right
  rcases run_left with ⟨lost, b, moved⟩ | ⟨q, b, head, inode, found, moved, holds⟩
  · rcases run_right with ⟨_, b', moved'⟩ | ⟨q', b', head', inode', found', _⟩
    · rw [result] at moved
      rw [result'] at moved'
      cases moved
      cases moved'
      exact twin.next left right twin.disk twin.shell ⟨rfl, rfl⟩ ⟨rfl, rfl⟩
    · rw [lost] at found'
      cases found'
  · rcases run_right with ⟨lost', _⟩ | ⟨q', b', head', inode', found', moved', holds'⟩
    · rw [found] at lost'
      cases lost'
    · rw [result] at moved
      rw [result'] at moved'
      cases moved
      cases moved'
      rw [found] at found'
      cases found'
      obtain ⟨g, there, _, number⟩ := holds.ino twin.left.sound
      obtain ⟨g', there', _, number'⟩ := holds'.ino twin.right.sound
      rw [twin.disk.locate twin.left.sound, there] at there'
      cases there'
      apply twin.next left right twin.disk _ ⟨rfl, rfl⟩ ⟨rfl, rfl⟩
      rw [cwdIno, cwdIno, number, number']

/-- The state with one more descriptor. -/
def pushed (ino : Word) (s : FileSystem) : FileSystem :=
  { s with fd := Function.update s.fd s.fdIndex ⟨ino, 0⟩, fdIndex := s.fdIndex + 1 }

theorem run_push (room : s.fdIndex < fdNum) :
    run (pushDescriptor ino) s = some ((s.fdIndex : Int), pushed ino s) := by
  rw [pushDescriptor, run_then run_read, if_pos room]
  rfl

theorem Twin.pushed (twin : Twin base s t) : Twin base (pushed ino s) (pushed ino t) := by
  have left : Intact (Files.pushed ino s) :=
    Quiet.intact (s := s) ⟨rfl, rfl, rfl, rfl⟩ twin.left
  have right : Intact (Files.pushed ino t) :=
    Quiet.intact (s := t) ⟨rfl, rfl, rfl, rfl⟩ twin.right
  refine ⟨left, right, twin.disk, twin.shell, ?_, fun i low => ?_⟩
  · simp only [Files.pushed]
    rw [twin.index, Nat.add_assoc]
  · simp only [Files.pushed] at low ⊢
    rw [twin.index]
    by_cases last : i = s.fdIndex
    · rw [last, Function.update_self, Function.update_self]
    · rw [Function.update_of_ne (by omega), Function.update_of_ne last]
      exact twin.fd i (by omega)

/-- The number that `sys_fopen` takes for that of the file. -/
def foundIno (s : FileSystem) (name : CString) (stack : Buffer) : Word :=
  dentryIno (cwdBlock s stack) (scan 0x200 (matchesEntry (cwdBlock s stack) file name))

/-- `sys_fopen` finds the file, or makes it and looks again. -/
theorem run_sysFopen {r : Int} (room : s.fdIndex < fdNum)
    (result : run (sysFopen name stack locals) s = some (r, s')) :
    opens s name stack ∧ s' = pushed (foundIno s name stack) s ∨
    ¬opens s name stack ∧ ∃ u, run (touchFile (some name) locals) s = some ((), u) ∧
      (u.fdIndex < fdNum → opens u name stack ∧ s' = pushed (foundIno u name stack) u ∨
        ¬opens u name stack ∧ s' = u) := by
  rw [sysFopen, run_then run_shellPathIno, run_then run_dirBlockRead] at result
  dsimp only at result
  rw [← cwdBlock] at result
  by_cases found : opens s name stack
  · have stops := found
    rw [opens] at stops
    rw [if_pos stops, run_push room] at result
    cases result
    exact .inl ⟨found, rfl⟩
  · right
    have missed := found
    rw [opens] at missed
    rw [if_neg missed, run_bind] at result
    obtain ⟨⟨_, u⟩, touched, rest⟩ := Option.bind_eq_some_iff.mp result
    refine ⟨found, u, touched, fun room' => ?_⟩
    dsimp only at rest
    rw [run_then run_shellPathIno, run_then run_dirBlockRead] at rest
    rw [← cwdBlock] at rest
    by_cases again : opens u name stack
    · have stops := again
      rw [opens] at stops
      rw [if_pos stops, run_push room'] at rest
      cases rest
      exact .inl ⟨again, rfl⟩
    · have missed := again
      rw [opens] at missed
      rw [if_neg missed, run_pure] at rest
      cases rest
      exact .inr ⟨again, rfl⟩

theorem Twin.opens (twin : Twin base s t) : opens t name stack ↔ opens s name stack := by
  rw [Files.opens, Files.opens, twin.block]

theorem Twin.foundIno (twin : Twin base s t) : foundIno t name stack = foundIno s name stack := by
  rw [Files.foundIno, Files.foundIno, twin.block]

/-- Making a file sets no descriptor. -/
theorem Intact.created_index (intact : Intact s) (fits : CreationFits s name)
    (result : run (Files.touchFile (some name) locals) s = some ((), s')) : s'.fdIndex = s.fdIndex := by
  obtain ⟨u, made, cwd, f, i, n, created, _⟩ := intact.touchFile locals fits
  rw [result] at made
  cases made
  rw [created.rest]

theorem Twin.sysFopen {r r' : Int} (twin : Twin base s t)
    (fits : ¬Files.opens s name stack → CreationFits s name)
    (fits' : ¬Files.opens t name stack → CreationFits t name)
    (room : s.fdIndex < fdNum) (room' : t.fdIndex < fdNum) (same : SameLocals locals locals')
    (result : run (sysFopen name stack locals) s = some (r, s'))
    (result' : run (sysFopen name stack locals') t = some (r', t')) : Twin base s' t' := by
  rcases run_sysFopen room result with ⟨found, rfl⟩ | ⟨missed, u, touched, rest⟩
  · rcases run_sysFopen room' result' with ⟨_, rfl⟩ | ⟨missed, _⟩
    · rw [twin.foundIno]
      exact twin.pushed
    · exact absurd (twin.opens.mpr found) missed
  · rcases run_sysFopen room' result' with ⟨found, _⟩ | ⟨missed', u', touched', rest'⟩
    · exact absurd (twin.opens.mp found) missed
    · have entry : run (createEntry 0x200 file name locals) s = some ((), u) := touched
      have entry' : run (createEntry 0x200 file name locals') t = some ((), u') := touched'
      have wide : dentrysPerBlock ≤ 0x200 := by decide
      have made := twin.create (fits missed) (fits' missed') wide (.inl rfl) same entry entry'
      have index := twin.left.created_index (fits missed) touched
      have index' := twin.right.created_index (fits' missed') touched'
      rcases rest (index ▸ room) with ⟨found, rfl⟩ | ⟨lost, rfl⟩
      · rcases rest' (index' ▸ room') with ⟨_, rfl⟩ | ⟨lost, _⟩
        · rw [made.foundIno]
          exact made.pushed
        · exact absurd (made.opens.mpr found) lost
      · rcases rest' (index' ▸ room') with ⟨found, _⟩ | ⟨_, rfl⟩
        · exact absurd (made.opens.mp found) lost
        · exact made

/-- A descriptor that both have is changed in the same way. -/
theorem Twin.update (twin : Twin base s t) (left : Intact s') (right : Intact t')
    (disk : SameBut s'.disk t'.disk) (shell : cwdIno s' = cwdIno t') (desc : FileDesc)
    (fd : s'.fd = Function.update s.fd index desc)
    (fd' : t'.fd = Function.update t.fd (base + index) desc)
    (same : s'.fdIndex = s.fdIndex) (same' : t'.fdIndex = t.fdIndex) : Twin base s' t' := by
  refine ⟨left, right, disk, shell, ?_, fun i low => ?_⟩
  · rw [same, same', twin.index]
  · rw [fd, fd']
    by_cases here : i = index
    · rw [here, Function.update_self, Function.update_self]
    · rw [Function.update_of_ne (by omega), Function.update_of_ne here]
      exact twin.fd i (same ▸ low)

theorem Twin.sysFwrite {stack' : Buffer} {r r' : Nat} (twin : Twin base s t)
    (opened : index < s.fdIndex) (valid : index < fdNum) (valid' : base + index < fdNum)
    (inside : (s.fd index).pos.toNat + buf.length ≤ blockSize) (left : Intact s') (right : Intact t')
    (result : run (sysFwrite index buf stack) s = some (r, s'))
    (result' : run (sysFwrite (base + index) buf stack') t = some (r', t')) : Twin base s' t' := by
  have desc := twin.fd index opened
  obtain ⟨u, made, _, _, shell, disk, fd, same⟩ := run_sysFwrite stack valid inside
  obtain ⟨u', made', _, _, shell', disk', fd', same'⟩ :=
    run_sysFwrite (s := t) stack' valid' (desc ▸ inside)
  have ends : s' = u := congrArg Prod.snd (Option.some.inj (result.symm.trans made))
  have ends' : t' = u' := congrArg Prod.snd (Option.some.inj (result'.symm.trans made'))
  subst ends ends'
  rw [desc] at disk' fd'
  apply twin.update left right _ _ _ fd fd' same same'
  · rw [disk, disk']
    exact twin.disk.copy fun _ _ _ => rfl
  · rw [cwdIno, cwdIno, shell, shell']
    exact twin.shell

/-- The same command in the run without a reboot: the descriptors before it count, and the
clock may differ. -/
def Counterpart (base : Nat) : Command → Command → Prop
  | .mkdir name locals, .mkdir name' locals' => name = name' ∧ SameLocals locals locals'
  | .touch name locals, .touch name' locals' => name = name' ∧ SameLocals locals locals'
  | .rm name _, .rm name' _ => name = name'
  | .rmdir name _, .rmdir name' _ => name = name'
  | .cd path _, .cd path' _ => path = path'
  | .ls path _, .ls path' _ => path = path'
  | .cat name _, .cat name' _ => name = name'
  | .fopen name stack locals, .fopen name' stack' locals' =>
    name = name' ∧ stack = stack' ∧ SameLocals locals locals'
  | .fwrite index buf _, .fwrite index' buf' _ => index' = base + index ∧ buf = buf'
  | .fseek index pos, .fseek index' pos' => index' = base + index ∧ pos = pos'
  | _, _ => False

/-- Descriptors are used that were set after the reboot. -/
def UsesOwn (s : FileSystem) : Command → Prop
  | .fwrite index _ _ => index < s.fdIndex
  | .fseek index _ => index < s.fdIndex
  | _ => True

theorem Twin.seek {pos : Word} (twin : Twin base s t)
    (valid : index < fdNum) (valid' : base + index < fdNum) (opened : index < s.fdIndex)
    (result : run (sysFseek index pos) s = some ((), s'))
    (result' : run (sysFseek (base + index) pos) t = some ((), t')) : Twin base s' t' := by
  have desc := twin.fd index opened
  rw [sysFseek, if_neg (Nat.not_le.mpr valid), setPos, run_change] at result
  rw [sysFseek, if_neg (Nat.not_le.mpr valid'), setPos, run_change, desc] at result'
  cases result
  cases result'
  refine twin.update ?_ ?_ ?_ ?_ ⟨(s.fd index).ino, pos⟩ rfl rfl rfl rfl
  · exact Quiet.intact (s := s) ⟨rfl, rfl, rfl, rfl⟩ twin.left
  · exact Quiet.intact (s := t) ⟨rfl, rfl, rfl, rfl⟩ twin.right
  · exact twin.disk
  · exact twin.shell

theorem perform_result {α : Type} {p : Routine α} (routine : c.routine = (do let _ ← p))
    (result : perform c s = some s') : ∃ r, run p s = some (r, s') := by
  have ran := perform_run result
  rw [routine, run_bind] at ran
  obtain ⟨⟨r, u⟩, first, rest⟩ := Option.bind_eq_some_iff.mp ran
  cases rest
  exact ⟨r, first⟩

theorem Intact.listed {r : Option (List (List Byte))} (intact : Intact s)
    (short : name.val.length < 32)
    (result : run (Files.listDirectory (some name) stack) s = some (r, s')) :
    ∃ b, s' = { s with curDir := b } := by
  obtain ⟨cwd, f, located, isDir, shell⟩ := intact.cwd
  rcases run_listDirectory stack intact.sound intact.rootIno located isDir shell short with
    ⟨_, b, ran⟩ | ⟨q, g, b, _, _, _, ran⟩
  all_goals
    cases result.symm.trans ran
    exact ⟨b, rfl⟩

/-- One command on both sides. -/
theorem Twin.step (twin : Twin base s t) (counterpart : Counterpart base c c') (sane : Sane s c)
    (sane' : Sane t c') (own : UsesOwn s c) (result : perform c s = some s')
    (result' : perform c' t = some t') : Twin base s' t' := by
  have left := (step_effect twin.left sane result).2
  have right := (step_effect twin.right sane' result').2
  have ran := perform_run result
  have ran' := perform_run result'
  cases c <;> cases c' <;> try exact counterpart.elim
  case mkdir.mkdir name locals name' locals' =>
    obtain ⟨rfl, same⟩ := counterpart
    cases name with
    | none =>
      cases ran
      cases ran'
      exact twin
    | some name => exact twin.create sane.1 sane'.1 (Nat.le_refl _) (.inr rfl) same ran ran'
  case touch.touch name locals name' locals' =>
    obtain ⟨rfl, same⟩ := counterpart
    cases name with
    | none =>
      cases ran
      cases ran'
      exact twin
    | some name =>
      have wide : dentrysPerBlock ≤ 0x200 := by decide
      exact twin.create sane.1 sane'.1 wide (.inl rfl) same ran ran'
  case rm.rm name locals name' locals' =>
    cases counterpart
    cases name with
    | none =>
      cases ran
      cases ran'
      exact twin
    | some name =>
      rw [Command.routine, removeFile, run_then run_shellPathIno, run_then run_dirBlockRead] at ran
      rw [Command.routine, removeFile, run_then run_shellPathIno, run_then run_dirBlockRead] at ran'
      exact twin.remove (.inl rfl) left right ran ran'
  case rmdir.rmdir name locals name' locals' =>
    cases counterpart
    cases name with
    | none =>
      cases ran
      cases ran'
      exact twin
    | some name =>
      rw [Command.routine, removeDirectory, run_then run_shellPathIno,
        run_then run_dirBlockRead] at ran
      rw [Command.routine, removeDirectory, run_then run_shellPathIno,
        run_then run_dirBlockRead] at ran'
      by_cases dots : name = dot ∨ name = dotDot
      · rw [if_pos dots] at ran ran'
        cases ran
        cases ran'
        exact twin
      · rw [if_neg dots] at ran ran'
        have removable : Removable dir name :=
          .inr ⟨rfl, fun same => dots (.inl same), fun same => dots (.inr same)⟩
        exact twin.remove removable left right ran ran'
  case cd.cd path stack path' stack' =>
    cases counterpart
    obtain ⟨name, rfl, short⟩ := sane.2
    exact twin.changeDirectory short left right ran ran'
  case ls.ls path stack path' stack' =>
    obtain ⟨r, listed⟩ := perform_result rfl result
    obtain ⟨r', listed'⟩ := perform_result rfl result'
    obtain ⟨name, rfl, short⟩ := sane.2
    obtain ⟨name', rfl, short'⟩ := sane'.2
    obtain ⟨b, rfl⟩ := twin.left.listed short listed
    obtain ⟨b', rfl⟩ := twin.right.listed short' listed'
    exact twin.next left right twin.disk twin.shell ⟨rfl, rfl⟩ ⟨rfl, rfl⟩
  case cat.cat name stack name' stack' =>
    obtain ⟨r, printed⟩ := perform_result rfl result
    obtain ⟨r', printed'⟩ := perform_result rfl result'
    obtain ⟨e, same⟩ := @run_catFile s stack name
    obtain ⟨e', same'⟩ := @run_catFile t stack' name'
    cases printed.symm.trans same
    cases printed'.symm.trans same'
    exact twin
  case fopen.fopen name stack locals name' stack' locals' =>
    obtain ⟨rfl, rfl, same⟩ := counterpart
    obtain ⟨r, opened⟩ := perform_result rfl result
    obtain ⟨r', opened'⟩ := perform_result rfl result'
    exact twin.sysFopen sane.1 sane'.1 sane.2 sane'.2 same opened opened'
  case fwrite.fwrite index buf stack index' buf' stack' =>
    obtain ⟨rfl, rfl⟩ := counterpart
    obtain ⟨r, wrote⟩ := perform_result rfl result
    obtain ⟨r', wrote'⟩ := perform_result rfl result'
    exact twin.sysFwrite own sane.1.1.1 sane'.1.1.1 sane.1.2 left right wrote wrote'
  case fseek.fseek index pos index' pos' =>
    obtain ⟨rfl, rfl⟩ := counterpart
    exact twin.seek sane.1 sane'.1 own ran ran'

def rootPath : CString := ⟨[slash], by decide⟩

/-- Mounted after a reboot, beside `cd /`. -/
theorem Intact.twin (intact : Intact s) (disk : u.disk = s.disk) (fresh : u.fdIndex = 0)
    (made : run (doMakefs locals) u = some ((), s'))
    (moved : perform (.cd (some rootPath) stack) s = some t) : Twin s.fdIndex s' t := by
  have onCard : OnCard u.disk := disk ▸ intact.onCard
  obtain ⟨v, made', left, mounted, disk', _, index, _⟩ := onCard.mount locals
  cases made.symm.trans made'
  have short : rootPath.val.length < 32 := by decide
  have sane : Sane s (.cd (some rootPath) stack) := ⟨trivial, rootPath, rfl, short⟩
  have right := (step_effect intact sane moved).2
  obtain ⟨cwd, f, located, isDir, shell⟩ := intact.cwd
  have path : resolve s.disk (startOf cwd rootPath.val) (components rootPath.val) = some [] := rfl
  have ran := perform_run moved
  rcases run_changeDirectory stack intact.sound intact.rootIno located isDir shell short with
    ⟨lost, _⟩ | ⟨q, b, head, inode, found, result, holds⟩
  · rw [path] at lost
    cases lost
  · rw [path] at found
    cases found
    cases ran.symm.trans result
    obtain ⟨g, there, _, number⟩ := holds.ino intact.sound
    obtain ⟨g', there', _, number'⟩ := mounted.holds.ino left.sound
    have same : s'.disk = s.disk := disk'.trans disk
    refine ⟨left, right, ?_, ?_, ?_, ?_⟩
    · rw [same]
      exact SameBut.refl
    · cases there
      cases there'
      rw [cwdIno, cwdIno, number, number']
    · rw [index, fresh]
      rfl
    · intro i low
      rw [index, fresh] at low
      exact absurd low (Nat.not_lt_zero i)

/-- What the two runs agree on, timestamps aside. -/
structure Alike (s t : FileSystem) : Prop where
  disk : SameBut s.disk t.disk
  map : ∀ k < mapSize, s.inodeMap k = s.disk (mapAddress + k) ∧ t.inodeMap k = s.inodeMap k
  next : bitmapSearch t.inodeMap 0 inodeBound = bitmapSearch s.inodeMap 0 inodeBound
  tree : image (item t.disk) (locate t.disk) = image (item s.disk) (locate s.disk)
  shell : cwdIno s = cwdIno t
  listings : ∀ path stack stack', path.val.length < 32 →
    (run (listDirectory (some path) stack) s).map Prod.fst =
      (run (listDirectory (some path) stack') t).map Prod.fst
  defined : ∀ c, Sane s c → ∃ s', perform c s = some s'
  defined' : ∀ c, Sane t c → ∃ t', perform c t = some t'

theorem Twin.search (twin : Twin base s t) :
    bitmapSearch t.inodeMap 0 inodeBound = bitmapSearch s.inodeMap 0 inodeBound := by
  rcases @bitmapSearch_spec s.inodeMap 0 inodeBound (.inl rfl) (by decide) with
    ⟨found, none⟩ | ⟨o, low, found, clear, least⟩
  · rcases @bitmapSearch_spec t.inodeMap 0 inodeBound (.inl rfl) (by decide) with
      ⟨found', _⟩ | ⟨o', low', _, clear', _⟩
    · rw [found, found']
    · rw [twin.bit low'] at clear'
      exact absurd clear' (none o' low')
  · rcases @bitmapSearch_spec t.inodeMap 0 inodeBound (.inl rfl) (by decide) with
      ⟨_, none'⟩ | ⟨o', low', found', clear', least'⟩
    · rw [← twin.bit low] at clear
      exact absurd clear (none' o low)
    · have same : o' = o := by
        rcases Nat.lt_trichotomy o o' with earlier | same | later
        · rw [← twin.bit low] at clear
          exact absurd clear (least' o earlier)
        · exact same.symm
        · rw [twin.bit low'] at clear'
          exact absurd clear' (least o' later)
      rw [found, found', same]

theorem Twin.alike (twin : Twin base s t) : Alike s t := by
  obtain ⟨cwd, f, located, located', isDir, shell, shell'⟩ := twin.stands
  constructor
  · exact twin.disk
  · exact fun k low => ⟨(twin.left.map k low).symm, twin.map low⟩
  · exact twin.search
  · exact twin.disk.tree twin.left.sound
  · exact twin.shell
  · intro path stack stack' short
    have run_right := run_listDirectory stack' twin.right.sound twin.right.rootIno located' isDir shell' short
    rw [twin.resolve] at run_right
    rcases run_listDirectory stack twin.left.sound twin.left.rootIno located isDir shell short with
      ⟨lost, b, ran⟩ | ⟨q, g, b, found, there, _, ran⟩
    · rcases run_right with ⟨_, b', ran'⟩ | ⟨q', _, _, found', _⟩
      · rw [ran, ran']
        rfl
      · rw [lost] at found'
        cases found'
    · rcases run_right with ⟨lost', _⟩ | ⟨q', g', b', found', there', _, ran'⟩
      · rw [found] at lost'
        cases lost'
      · rw [found] at found'
        cases found'
        rw [twin.disk.locate twin.left.sound, there] at there'
        cases there'
        have names : listing t.disk g.ino = listing s.disk g.ino := by
          apply List.filterMap_congr
          intro i member
          rw [twin.disk.dirEntry (twin.left.sound.small there) (List.mem_range.mp member)]
        rw [ran, ran', names]
        rfl
  · exact fun c sane => (twin.left.step sane.1 sane.2).imp fun _ result => result.1
  · exact fun c sane => (twin.right.step sane.1 sane.2).imp fun _ result => result.1

/-- Both runs take one step. -/
def BothPerform (x : FileSystem × FileSystem) (c : Command × Command) (y : FileSystem × FileSystem) :
    Prop :=
  perform c.1 x.1 = some y.1 ∧ perform c.2 x.2 = some y.2

/-- Counterparts that fit where they are issued. -/
def BothSane (base : Nat) (x : FileSystem × FileSystem) (c : Command × Command) : Prop :=
  Counterpart base c.1 c.2 ∧ Sane x.1 c.1 ∧ Sane x.2 c.2 ∧ UsesOwn x.1 c.1

/-- In every session the inode map in memory is that on the card, and after a reboot every
sequence of commands does what it does without one after `cd /`. -/
theorem reboot_alike (session : Session Sane s) :
    (∀ k < mapSize, s.inodeMap k = s.disk (mapAddress + k)) ∧
    ∀ u locals stack, u.disk = s.disk → u.fdIndex = 0 →
      ∃ s₀ t₀, run (doMakefs locals) u = some ((), s₀) ∧
        perform (.cd (some rootPath) stack) s = some t₀ ∧
        ∀ x, Reachable BothPerform (BothSane s.fdIndex) (s₀, t₀) x → Alike x.1 x.2 := by
  have intact := session.intact
  refine ⟨fun k low => (intact.map k low).symm, fun u locals stack disk fresh => ?_⟩
  have onCard : OnCard u.disk := disk ▸ intact.onCard
  obtain ⟨s₀, made, _⟩ := onCard.mount locals
  have sane : Sane s (.cd (some rootPath) stack) := ⟨trivial, rootPath, rfl, by decide⟩
  obtain ⟨t₀, moved, _⟩ := intact.step sane.1 sane.2
  refine ⟨s₀, t₀, made, moved, fun x reach => ?_⟩
  have twin : Twin s.fdIndex x.1 x.2 := by
    apply reach.invariant (fun x => Twin s.fdIndex x.1 x.2) (intact.twin disk fresh made moved)
    rintro x c y twin ⟨counterpart, sane, sane', own⟩ ⟨result, result'⟩
    exact twin.step counterpart sane sane' own result result'
  exact twin.alike

/-- After a session that makes one directory. -/
theorem reboot_alike_mkdir : ∃ s s₀ t₀, perform (.cd (some rootPath) blankLocals.db) s = some t₀ ∧
    run (doMakefs blankLocals) { blankSystem with disk := s.disk } = some ((), s₀) ∧
    Alike s₀ t₀ := by
  obtain ⟨start, s, cwd, f, i, n, formatted, _, _, _, session⟩ := session_mkdir
  have sane : Sane start (.mkdir (some nameA) blankLocals) :=
    ⟨formatted.fits (by decide), trivial⟩
  obtain ⟨s₀, t₀, made, moved, alike⟩ := (reboot_alike (session Sane sane)).2
    { blankSystem with disk := s.disk } blankLocals blankLocals.db rfl rfl
  exact ⟨s, s₀, t₀, moved, made, alike (s₀, t₀) .start⟩

/-- `sys_fopen` finds the first file of that name. -/
theorem Target.opens (target : Target s file name i n) (intact : Intact s) (stack : Buffer) :
    opens s name stack ∧ foundIno s name stack = n.ino := by
  have slot := target.slot intact stack
  have stops : scan dentrysPerBlock (matchesEntry (cwdBlock s stack) file name) <
      dentrysPerBlock := by
    rw [slot]
    exact target.inside
  have wide : scan 0x200 (matchesEntry (cwdBlock s stack) file name) =
      scan dentrysPerBlock (matchesEntry (cwdBlock s stack) file name) :=
    scan_longer stops (by decide)
  constructor
  · rw [Files.opens, wide]
    exact Nat.lt_trans stops (by decide)
  · rw [foundIno, wide, slot]
    exact target.number stack

theorem run_sysFopen_found (locals : Locals) (found : opens s name stack)
    (room : s.fdIndex < fdNum) : run (sysFopen name stack locals) s =
      some ((s.fdIndex : Int), pushed (foundIno s name stack) s) := by
  rw [opens, cwdBlock] at found
  rw [sysFopen, run_then run_shellPathIno, run_then run_dirBlockRead]
  dsimp only
  rw [if_pos found, run_push room]
  rfl

/-- A file of one name is opened. -/
theorem perform_fopen (locals : Locals) (found : opens s name stack) (room : s.fdIndex < fdNum) :
    perform (.fopen name stack locals) s = some (pushed (foundIno s name stack) s) :=
  perform_of (run_then (run_sysFopen_found locals found room))

/-- A session that makes a file. -/
theorem session_touch : ∃ s i n, Session Sane s ∧ Intact s ∧ Target s file nameA i n ∧
    s.fdIndex = 0 ∧ cwdIno s = rootDirIno ∧ (∃ p, locate s.disk p = some n) ∧
    s.disk (blockAddress n.ino) = 0 ∧ ∀ o < n.ino.toNat, bit (diskMap s.disk) o = true := by
  obtain ⟨start, made, formatted, index⟩ := run_doMakefs_format blankLocals blankSystem_blank
  have sane : Sane start (.touch (some nameA) blankLocals) :=
    ⟨formatted.fits (by decide), trivial⟩
  obtain ⟨s, result, cwd, f, i, n, created, isFile, same⟩ := formatted.intact.step sane.1 sane.2
  have intact := created.intact formatted.intact
  have root : f = rootNode := (formatted.locate created.room.cwd).2
  obtain ⟨j, m, target⟩ := Target.of_entry created.room.inside created.listed isFile same
  -- It is the file that was made.
  obtain ⟨cwd', f', _, held⟩ := target.held intact (.inl rfl)
  have new : m = n := by
    rcases created.grafted.located formatted.intact.sound created.room held.located with
      new | old
    · exact new.2
    · cases (formatted.locate old.2).1
  subst new
  refine ⟨s, j, m, ⟨blankSystem, blankLocals, start, blankSystem_blank, made, .step .start sane
    result⟩, intact, target, ?_, created.stays.trans (congrArg Node.ino root), ⟨_, held.located⟩, ?_, ?_⟩
  · rw [created.rest]
    exact index
  · rw [← Nat.add_zero (blockAddress m.ino)]
    exact created.empty isFile 0 (Nat.zero_lt_succ 3)
  · intro o below
    have small := Nat.lt_trans below created.room.small
    rw [created.grafted.marks o small, if_neg (Nat.ne_of_lt below), formatted.intact.bits small]
    exact created.least o below

/-- A session that makes a file, opens it and moves its position. -/
theorem session_fopen : ∃ s i n, Session Sane s ∧ Intact s ∧ Target s file nameA i n ∧
    s.fdIndex = 1 ∧ s.fd 0 = ⟨n.ino, 1⟩ ∧ cwdIno s = rootDirIno ∧
    (∃ p, locate s.disk p = some n) ∧ s.disk (blockAddress n.ino) = 0 := by
  obtain ⟨s, i, n, session, intact, target, index, shell, located, zero, _⟩ := session_touch
  have room : s.fdIndex < fdNum := by
    rw [index]
    decide
  obtain ⟨found, number⟩ := target.opens intact blankLocals.db
  have opened := perform_fopen blankLocals found room
  rw [number] at opened
  have sane : Sane s (.fopen nameA blankLocals.db blankLocals) :=
    ⟨fun missed => absurd found missed, room⟩
  obtain ⟨boot, locals, begun, blank, formed, reach⟩ := session
  have opening := Reachable.step reach sane opened
  have seek : perform (.fseek 0 1) (pushed n.ino s) = some { pushed n.ino s with
      fd := Function.update (pushed n.ino s).fd 0 ⟨((pushed n.ino s).fd 0).ino, 1⟩ } := rfl
  have valid : 0 < fdNum := by decide
  have sane' : Sane (pushed n.ino s) (.fseek 0 1) := ⟨valid, trivial⟩
  refine ⟨_, i, n, ⟨boot, locals, begun, blank, formed, .step opening sane' seek⟩, ?_, ?_, ?_, ?_,
    shell, located, zero⟩
  · exact Quiet.intact (s := s) ⟨rfl, rfl, rfl, rfl⟩ intact
  · exact ⟨target.inside, target.here, target.kind, target.same, target.first⟩
  · simp only [pushed]
    rw [index]
  · simp only [pushed]
    rw [index, Function.update_self, Function.update_self]

theorem Intact.cd_descriptors (intact : Intact s) (short : name.val.length < 32)
    (moved : perform (.cd (some name) stack) s = some t) :
    t.fd = s.fd ∧ t.fdIndex = s.fdIndex ∧ t.disk = s.disk := by
  obtain ⟨cwd, f, located, isDir, shell⟩ := intact.cwd
  have ran := perform_run moved
  rcases run_changeDirectory stack intact.sound intact.rootIno located isDir shell short with
    ⟨_, b, result⟩ | ⟨q, b, head, inode, _, result, _⟩
  all_goals
    cases ran.symm.trans result
    exact ⟨rfl, rfl, rfl⟩

/-- One byte is written through the first descriptor. -/
theorem perform_fwrite (stack : Buffer) (p : List Nat) (located : locate s.disk p = some n) (isFile : n.mode = file)
    (desc : (s.fd 0).ino = n.ino) (inside : (s.fd 0).pos.toNat + 1 ≤ blockSize) :
    ∃ s', perform (.fwrite 0 [1] stack) s = some s' ∧ Sane s (.fwrite 0 [1] stack) ∧
      ∀ k, s'.disk k = if k = blockAddress n.ino + (s.fd 0).pos.toNat then 1 else s.disk k := by
  have valid : 0 < fdNum := by decide
  obtain ⟨s', result, _, _, _, disk, _⟩ := @run_sysFwrite s 0 [1] stack valid inside
  refine ⟨s', perform_of (run_then result), ⟨⟨⟨valid, p, n, located, isFile, desc⟩, inside⟩, trivial⟩,
    fun k => ?_⟩
  rw [disk, desc]
  split
  next here =>
    rw [here, copy, if_pos (by simp), Nat.sub_self]
    rfl
  next other =>
    apply copy_outside
    simp only [List.length_cons, List.length_nil]
    omega

/-- With the same numbers for their descriptors the runs write to different places. -/
theorem descriptors_differ : ¬∀ s, Session Sane s → ∀ locals stack s₀ t₀,
    run (doMakefs locals) { blankSystem with disk := s.disk } = some ((), s₀) →
    perform (.cd (some rootPath) stack) s = some t₀ →
    ∀ x, Reachable BothPerform (fun x c => c.1 = c.2 ∧ Sane x.1 c.1 ∧ Sane x.2 c.2) (s₀, t₀) x →
      SameBut x.1.disk x.2.disk := by
  intro same
  obtain ⟨s, i, n, session, intact, target, index, fd, shell, ⟨p, located⟩, zero⟩ := session_fopen
  have onCard : OnCard { blankSystem with disk := s.disk }.disk := intact.onCard
  obtain ⟨s₀, made, _, mounted, disk, _⟩ := onCard.mount blankLocals
  have sane : Sane s (.cd (some rootPath) blankLocals.db) := ⟨trivial, rootPath, rfl, by decide⟩
  obtain ⟨t₀, moved, _⟩ := intact.step sane.1 sane.2
  have twin := intact.twin (u := { blankSystem with disk := s.disk }) rfl rfl made moved
  obtain ⟨fd', index', disk'⟩ := intact.cd_descriptors (by decide) moved
  obtain ⟨g, root, _, number⟩ := mounted.holds.ino twin.left.sound
  cases root
  have target' : Target s₀ file nameA i n := by
    have here : cwdIno s₀ = cwdIno s := number.trans shell.symm
    refine ⟨target.inside, ?_, target.kind, target.same, ?_⟩
    · rw [disk, here]
      exact target.here
    · rw [disk, here]
      exact target.first
  obtain ⟨found, ino⟩ := target'.opens twin.left blankLocals.db
  obtain ⟨found', ino'⟩ := (twin.target target').opens twin.right blankLocals.db
  -- Both runs open the file again, and the other one has it open already.
  have first : s₀.fdIndex = 0 := by
    have sum := twin.index
    omega
  have room : s₀.fdIndex < fdNum := by
    rw [first]
    decide
  have room' : t₀.fdIndex < fdNum := by
    rw [index', index]
    decide
  have opened := perform_fopen blankLocals found room
  have opened' := perform_fopen blankLocals found' room'
  rw [ino] at opened
  rw [ino'] at opened'
  have fits : Sane s₀ (.fopen nameA blankLocals.db blankLocals) :=
    ⟨fun missed => absurd found missed, room⟩
  have fits' : Sane t₀ (.fopen nameA blankLocals.db blankLocals) :=
    ⟨fun missed => absurd found' missed, room'⟩
  have desc : (pushed n.ino s₀).fd 0 = ⟨n.ino, 0⟩ := by
    simp only [pushed]
    rw [first, Function.update_self]
  have desc' : (pushed n.ino t₀).fd 0 = ⟨n.ino, 1⟩ := by
    simp only [pushed]
    rw [index', index, Function.update_of_ne (by decide), fd', fd]
  have here : locate (pushed n.ino s₀).disk p = some n := by
    rw [← located]
    exact congrArg (fun d => locate d p) disk
  have here' : locate (pushed n.ino t₀).disk p = some n := by
    rw [← located]
    exact congrArg (fun d => locate d p) disk'
  have start : (0 : Word).toNat + 1 ≤ blockSize := by decide
  have second : (1 : Word).toNat + 1 ≤ blockSize := by decide
  obtain ⟨x, wrote, sane₁, bytes⟩ := perform_fwrite blankLocals.db p here target.kind
    (congrArg FileDesc.ino desc) (by rw [desc]; exact start)
  obtain ⟨y, wrote', sane₂, bytes'⟩ := perform_fwrite blankLocals.db p here' target.kind
    (congrArg FileDesc.ino desc') (by rw [desc']; exact second)
  have reach : Reachable BothPerform (fun x c => c.1 = c.2 ∧ Sane x.1 c.1 ∧ Sane x.2 c.2) (s₀, t₀)
      (x, y) := by
    apply Reachable.step (a := (.fwrite 0 [1] blankLocals.db, .fwrite 0 [1] blankLocals.db))
      (s := (pushed n.ino s₀, pushed n.ino t₀)) _ ⟨rfl, sane₁, sane₂⟩ ⟨wrote, wrote'⟩
    exact .step (a := (.fopen nameA blankLocals.db blankLocals, .fopen nameA blankLocals.db blankLocals))
      .start ⟨rfl, fits, fits'⟩ ⟨opened, opened'⟩
  have equal := same s session blankLocals blankLocals.db s₀ t₀ made moved (x, y) reach
  have byte := equal (blockAddress n.ino) (by
    apply not_stamp_low
    rw [blockAddress_eq (intact.sound.small located)]
    have small := intact.sound.small located
    simp only [blockSize, inodeBound] at *
    omega)
  have apart : blockAddress n.ino ≠ blockAddress n.ino + (1 : Word).toNat := by
    have one : (1 : Word).toNat = 1 := by decide
    omega
  have empty : (pushed n.ino t₀).disk (blockAddress n.ino) = 0 := by
    rw [← zero]
    exact congrArg (fun d => d (blockAddress n.ino)) disk'
  have here₀ : blockAddress n.ino = blockAddress n.ino + (0 : Word).toNat := by
    have none : (0 : Word).toNat = 0 := by decide
    omega
  rw [bytes, bytes', desc, desc', if_pos here₀, if_neg apart, empty] at byte
  exact absurd byte (by decide)

end Tina.Files
