import Tina.Directory

/-! A sound card stays sound when a dentry is added or removed, or a file is written, and
the nodes reached from the root change as a tree does. -/
namespace Tina.Files

open ByteBuffer SlotTree

variable {d d' : Buffer} {i j k : Nat} {p q cwd : List Nat} {n m f : Node} {ino father gone : Word}

theorem toNat_ne {v w : Word} (other : v ≠ w) : v.toNat ≠ w.toNat := by
  intro same
  exact other (BitVec.eq_of_toNat_eq same)

/-- Entries of other slots and blocks are the same after a node is added. -/
theorem Grafted.entries (grafted : Grafted d d' father i n) (smallN : n.ino.toNat < inodeBound)
    (smallF : father.toNat < inodeBound) (slot : i < dentrysPerBlock)
    (small : ino.toNat < inodeBound) (inside : j < dentrysPerBlock) (other : ino ≠ n.ino)
    (apart : ino = father → j ≠ i) :
    Same d d' (blockAddress ino + dentrySize * j) dentrySize := by
  have otherBlock := toNat_ne other
  have otherSlot : ino.toNat = father.toNat → j ≠ i := fun same =>
    apart (BitVec.eq_of_toNat_eq same)
  intro k low
  rw [blockAddress_eq small] at *
  apply grafted.outside
  · simp only [Beyond, mapAddress, mapSize, blockSize, dentrySize, inodeBound,
      dentrysPerBlock] at *
    omega
  · rw [blockAddress_eq smallN]
    simp only [Beyond, blockSize, dentrySize, dentrysPerBlock] at *
    omega
  · simp only [Beyond, tableAddress, inodeSize, blockSize, dentrySize, inodeBound,
      dentrysPerBlock] at *
    omega
  · rw [blockAddress_eq smallF]
    simp only [Beyond, blockSize, dentrySize, dentrysPerBlock] at *
    omega

theorem Grafted.tables (grafted : Grafted d d' father i n) (smallN : n.ino.toNat < inodeBound)
    (smallF : father.toNat < inodeBound) (slot : i < dentrysPerBlock)
    (small : ino.toNat < inodeBound) (other : ino ≠ n.ino) :
    Same d d' (tableAddress ino) inodeSize := by
  have otherEntry := toNat_ne other
  intro k low
  apply grafted.outside
  · simp only [Beyond, tableAddress, mapAddress, mapSize, inodeSize] at *
    omega
  · rw [blockAddress_eq smallN]
    simp only [Beyond, tableAddress, blockSize, inodeSize, inodeBound] at *
    omega
  · simp only [Beyond, tableAddress, inodeSize] at *
    omega
  · rw [blockAddress_eq smallF]
    simp only [Beyond, tableAddress, blockSize, dentrySize, inodeSize, inodeBound,
      dentrysPerBlock] at *
    omega

theorem Pruned.entries (pruned : Pruned d d' father i gone) (smallF : father.toNat < inodeBound)
    (slot : i < dentrysPerBlock) (small : ino.toNat < inodeBound) (inside : j < dentrysPerBlock)
    (apart : ino = father → j ≠ i) :
    Same d d' (blockAddress ino + dentrySize * j) dentrySize := by
  have otherSlot : ino.toNat = father.toNat → j ≠ i := fun same =>
    apart (BitVec.eq_of_toNat_eq same)
  intro k low
  rw [blockAddress_eq small] at *
  apply pruned.outside
  · simp only [Beyond, mapAddress, mapSize, blockSize, dentrySize, inodeBound,
      dentrysPerBlock] at *
    omega
  · rw [blockAddress_eq smallF]
    simp only [Beyond, blockSize, dentrySize, dentrysPerBlock] at *
    omega

theorem Pruned.tables (pruned : Pruned d d' father i gone) (smallF : father.toNat < inodeBound)
    (slot : i < dentrysPerBlock) (small : ino.toNat < inodeBound) :
    Same d d' (tableAddress ino) inodeSize := by
  intro k low
  apply pruned.outside
  · simp only [Beyond, tableAddress, mapAddress, mapSize, inodeSize] at *
    omega
  · rw [blockAddress_eq smallF]
    simp only [Beyond, tableAddress, blockSize, dentrySize, inodeSize, inodeBound,
      dentrysPerBlock] at *
    omega

/-- A slot that can take a new node: free, in a directory reached from the root. -/
structure Room (d : Buffer) (cwd : List Nat) (f : Node) (i : Nat) (n : Node) : Prop where
  cwd : locate d cwd = some f
  isDir : f.mode = dir
  slot : 2 ≤ i
  inside : i < dentrysPerBlock
  free : dirEntry d f.ino i = none
  small : n.ino.toNat < inodeBound
  unmarked : bit (diskMap d) n.ino.toNat = false
  kind : n.mode = file ∨ n.mode = dir

/-- The new number belongs to no node yet. -/
theorem Room.other (room : Room d cwd f i n) (sound : Sound d) (located : locate d p = some m) :
    m.ino ≠ n.ino := by
  intro same
  have marked := sound.marked located
  rw [same, room.unmarked] at marked
  cases marked

theorem Room.absent (room : Room d cwd f i n) : locate d (i :: cwd) = none := by
  rw [locate_cons room.cwd room.isDir room.slot room.inside, room.free]

theorem Grafted.locate (grafted : Grafted d d' f.ino i n) (sound : Sound d)
    (room : Room d cwd f i n) : locate d' = graft (locate d) (i :: cwd) n := by
  have smallF := sound.small room.cwd
  funext q
  induction q with
  | nil => rfl
  | cons j q ih =>
    rw [Files.locate, ih]
    by_cases here : q = i :: cwd
    · subst q
      -- Nothing lies below the new node yet.
      have longer : j :: i :: cwd ≠ i :: cwd := fun same => by simpa using congrArg List.length same
      rw [graft_self, graft_other longer, locate_closed j _ room.absent, Option.bind_some]
      split
      next inside => exact (grafted.inside inside.1).free j inside.2.1 inside.2.2
      · rfl
    · rw [graft_other here]
      cases located : Files.locate d q with
      | none =>
        have other : j :: q ≠ i :: cwd := by
          intro same
          cases same
          rw [room.cwd] at located
          cases located
        rw [graft_other other, locate_closed j q located, Option.bind_none]
      | some m =>
        rw [Option.bind_some]
        by_cases same : j :: q = i :: cwd
        · cases same
          rw [room.cwd] at located
          cases located
          rw [if_pos ⟨room.isDir, room.slot, room.inside⟩, graft_self, grafted.here]
        · rw [graft_other same, Files.locate, located, Option.bind_some]
          split
          next inside =>
            apply Same.dirEntry
            apply grafted.entries room.small smallF room.inside (sound.small located) inside.2.2
              (room.other sound located)
            rintro sameIno rfl
            have samePath := sound.apart located room.cwd sameIno
            subst samePath
            exact same rfl
          · rfl

/-- The directory that holds a node; the root holds itself. -/
theorem locate_tail (located : locate d p = some n) :
    ∃ f, locate d p.tail = some f ∧ f.mode = dir := by
  cases p with
  | nil => exact ⟨rootNode, rfl, rfl⟩
  | cons i p =>
    obtain ⟨f, above, isDir, _⟩ := locate_parent located
    exact ⟨f, above, isDir⟩

section Graft

variable (grafted : Grafted d d' f.ino i n) (sound : Sound d) (room : Room d cwd f i n)

include grafted sound room

/-- Every node reached now is the new one, or was reached before. -/
theorem Grafted.located (here : Files.locate d' q = some m) :
    q = i :: cwd ∧ m = n ∨ q ≠ i :: cwd ∧ Files.locate d q = some m := by
  rw [grafted.locate sound room] at here
  by_cases new : q = i :: cwd
  · subst q
    rw [graft_self] at here
    cases here
    exact .inl ⟨rfl, rfl⟩
  · rw [graft_other new] at here
    exact .inr ⟨new, here⟩

theorem Grafted.tail (here : Files.locate d q = some m) {g : Node}
    (above : Files.locate d' q.tail = some g) : Files.locate d q.tail = some g := by
  obtain ⟨e, tail, _⟩ := locate_tail here
  cases grafted.located sound room above with
  | inl new =>
    rw [new.1, room.absent] at tail
    cases tail
  | inr old => exact old.2

theorem Grafted.old_entry (here : Files.locate d q = some m) (inside : j < dentrysPerBlock)
    (apart : q = cwd → j ≠ i) : Same d d' (blockAddress m.ino + dentrySize * j) dentrySize := by
  apply grafted.entries room.small (sound.small room.cwd) room.inside (sound.small here) inside
    (room.other sound here)
  intro same
  exact apart (sound.apart here room.cwd same)

/-- The directory of the new node stays where it was. -/
theorem Grafted.above : Files.locate d' cwd = some f := by
  rw [grafted.locate sound room, graft_other (by simp), room.cwd]

theorem Grafted.dots (here : Files.locate d' q = some m) (isDir : m.mode = dir) {g : Node}
    (above : Files.locate d' q.tail = some g) : Dots d' m.ino g.ino := by
  cases grafted.located sound room here with
  | inl new =>
    obtain ⟨rfl, rfl⟩ := new
    rw [List.tail_cons, grafted.above sound room] at above
    cases above
    exact (grafted.inside isDir).dots
  | inr old =>
    have dots := sound.dots old.2 isDir (grafted.tail sound room old.2 above)
    have slot := room.slot
    have first := (grafted.old_entry sound room old.2 (by decide) (j := 0) fun _ => by omega).dirEntry
    have second := (grafted.old_entry sound room old.2 (by decide) (j := 1) fun _ => by omega).dirEntry
    exact ⟨first.trans dots.self, second.trans dots.parent⟩

theorem Grafted.names (here : Files.locate d' q = some m) (isDir : m.mode = dir)
    (inside : j < dentrysPerBlock) {e : Node} (live : dirEntry d' m.ino j = some e) :
    Named d' m.ino j := by
  cases grafted.located sound room here with
  | inl new =>
    obtain ⟨rfl, rfl⟩ := new
    have fresh := grafted.inside isDir
    by_cases first : j < 2
    · exact fresh.named j first
    · rw [fresh.free j (by omega) inside] at live
      cases live
  | inr old =>
    by_cases slot : q = cwd ∧ j = i
    · obtain ⟨rfl, rfl⟩ := slot
      have same := old.2
      rw [room.cwd] at same
      cases same
      exact grafted.named
    · have same := grafted.old_entry sound room old.2 inside fun here there => slot ⟨here, there⟩
      rw [same.dirEntry] at live
      exact same.named (sound.named old.2 isDir inside live)

/-- Adding a node keeps a card sound. -/
theorem Sound.graft : Sound d' where
  small here := by
    cases grafted.located sound room here with
    | inl new => exact new.2 ▸ room.small
    | inr old => exact sound.small old.2
  kind here := by
    cases grafted.located sound room here with
    | inl new => exact new.2 ▸ room.kind
    | inr old => exact sound.kind old.2
  apart here there same := by
    cases grafted.located sound room here with
    | inl new =>
      cases grafted.located sound room there with
      | inl new' => exact new.1.trans new'.1.symm
      | inr old' => exact absurd (new.2 ▸ same).symm (room.other sound old'.2)
    | inr old =>
      cases grafted.located sound room there with
      | inl new' => exact absurd (new'.2 ▸ same) (room.other sound old.2)
      | inr old' => exact sound.apart old.2 old'.2 same
  marked here := by
    cases grafted.located sound room here with
    | inl new => rw [new.2, grafted.marks _ room.small, if_pos rfl]
    | inr old =>
      rw [grafted.marks _ (sound.small old.2), sound.marked old.2]
      simp
  table here above := by
    cases grafted.located sound room here with
    | inl new =>
      obtain ⟨rfl, rfl⟩ := new
      rw [List.tail_cons, grafted.above sound room] at above
      cases above
      exact grafted.table
    | inr old =>
      have described := sound.table old.2 (grafted.tail sound room old.2 above)
      apply Same.described _ described
      exact grafted.tables room.small (sound.small room.cwd) room.inside (sound.small old.2)
        (room.other sound old.2)
  dots here isDir above := grafted.dots sound room here isDir above
  named here isDir inside live := grafted.names sound room here isDir inside live

end Graft

/-- A slot that holds a node, in a directory reached from the root. -/
structure Held (d : Buffer) (cwd : List Nat) (f : Node) (i : Nat) (n : Node) : Prop where
  cwd : locate d cwd = some f
  isDir : f.mode = dir
  slot : 2 ≤ i
  inside : i < dentrysPerBlock
  here : dirEntry d f.ino i = some n

theorem Held.located (held : Held d cwd f i n) : locate d (i :: cwd) = some n := by
  rw [locate_cons held.cwd held.isDir held.slot held.inside, held.here]

theorem Pruned.locate (pruned : Pruned d d' f.ino i n.ino) (sound : Sound d)
    (held : Held d cwd f i n) : locate d' = prune (locate d) (i :: cwd) := by
  have smallF := sound.small held.cwd
  funext q
  induction q with
  | nil =>
    rw [prune_other]
    · rfl
    · intro suffix
      cases List.suffix_nil.mp suffix
  | cons j q ih =>
    rw [Files.locate, ih]
    by_cases below : i :: cwd <:+ q
    · have deeper : i :: cwd <:+ j :: q := below.trans (List.suffix_cons j q)
      rw [prune_below below, prune_below deeper, Option.bind_none]
    · rw [prune_other below]
      by_cases same : j :: q = i :: cwd
      · cases same
        rw [prune_below List.suffix_rfl, held.cwd, Option.bind_some,
          if_pos ⟨held.isDir, held.slot, held.inside⟩, pruned.here]
      · have other : ¬i :: cwd <:+ j :: q := by
          intro suffix
          cases List.suffix_cons_iff.mp suffix with
          | inl equal => exact same equal.symm
          | inr deeper => exact below deeper
        rw [prune_other other, Files.locate]
        cases located : Files.locate d q with
        | none => rfl
        | some m =>
          rw [Option.bind_some, Option.bind_some]
          split
          next inside =>
            apply Same.dirEntry
            apply pruned.entries smallF held.inside (sound.small located) inside.2.2
            rintro sameIno rfl
            have samePath := sound.apart located held.cwd sameIno
            subst samePath
            exact same rfl
          · rfl

section Prune

variable (pruned : Pruned d d' f.ino i n.ino) (sound : Sound d) (held : Held d cwd f i n)

include pruned sound held

/-- Every node reached now was reached before, and is not below the entry taken away. -/
theorem Pruned.located (here : Files.locate d' q = some m) :
    ¬i :: cwd <:+ q ∧ Files.locate d q = some m := by
  rw [pruned.locate sound held] at here
  by_cases below : i :: cwd <:+ q
  · rw [prune_below below] at here
    cases here
  · rw [prune_other below] at here
    exact ⟨below, here⟩

theorem Pruned.old_entry (here : Files.locate d q = some m) (inside : j < dentrysPerBlock)
    (apart : q = cwd → j ≠ i) : Same d d' (blockAddress m.ino + dentrySize * j) dentrySize := by
  apply pruned.entries (sound.small held.cwd) held.inside (sound.small here) inside
  intro same
  exact apart (sound.apart here held.cwd same)

/-- Taking a node away keeps a card sound. -/
theorem Sound.prune : Sound d' where
  small here := sound.small (pruned.located sound held here).2
  kind here := sound.kind (pruned.located sound held here).2
  apart here there same :=
    sound.apart (pruned.located sound held here).2 (pruned.located sound held there).2 same
  marked here := by
    obtain ⟨other, old⟩ := pruned.located sound held here
    rw [pruned.marks _ (sound.small old), sound.marked old, if_neg]
    intro same
    have samePath := sound.apart old held.located (BitVec.eq_of_toNat_eq same)
    subst samePath
    exact other List.suffix_rfl
  table here above := by
    have described := sound.table (pruned.located sound held here).2
      (pruned.located sound held above).2
    apply Same.described _ described
    exact pruned.tables (sound.small held.cwd) held.inside
      (sound.small (pruned.located sound held here).2)
  dots here isDir above := by
    have old := (pruned.located sound held here).2
    have dots := sound.dots old isDir (pruned.located sound held above).2
    have slot := held.slot
    have first := pruned.old_entry sound held old (j := 0) (by decide) fun _ => by omega
    have second := pruned.old_entry sound held old (j := 1) (by decide) fun _ => by omega
    exact ⟨first.dirEntry.trans dots.self, second.dirEntry.trans dots.parent⟩
  named {q m j e} here isDir inside live := by
    have old := (pruned.located sound held here).2
    by_cases slot : q = cwd ∧ j = i
    · obtain ⟨rfl, rfl⟩ := slot
      have same := old
      rw [held.cwd] at same
      cases same
      rw [pruned.here] at live
      cases live
    · have same := pruned.old_entry sound held old inside fun here there => slot ⟨here, there⟩
      rw [same.dirEntry] at live
      exact same.named (sound.named old isDir inside live)

end Prune

/-- `d'` is `d` with bytes of the block `ino` changed. -/
def Written (d d' : Buffer) (ino : Word) : Prop :=
  ∀ k, Beyond (blockAddress ino) blockSize k → d' k = d k

/-- The bits of a map depend on its bytes only. -/
theorem bit_congr {b b' : Buffer} (same : ∀ k < mapSize, b' k = b k) {o : Nat}
    (small : o < inodeBound) : bit b' o = bit b o := by
  have equal : word b' (4 * (o / 32)) = word b (4 * (o / 32)) := by
    apply word_congr
    intro k low high
    rw [same k (by simp only [mapSize, inodeBound] at *; omega)]
    congr 1
    omega
  rw [bit, bit, equal]

theorem Written.above (written : Written d d' ino) (small : ino.toNat < inodeBound) (k : Nat)
    (high : mapAddress ≤ k) : d' k = d k := by
  apply written
  rw [blockAddress_eq small]
  simp only [Beyond, mapAddress, blockSize, inodeBound] at *
  omega

/-- No directory reached from the root lies in the block of that number. -/
structure NoDirectory (d : Buffer) (ino : Word) : Prop where
  small : ino.toNat < inodeBound
  apart : ∀ {q m}, locate d q = some m → m.mode = dir → m.ino ≠ ino

theorem Sound.noDirectory (sound : Sound d) (file : Files.locate d p = some n)
    (isFile : n.mode = Files.file) : NoDirectory d n.ino where
  small := sound.small file
  apart := by
    intro q m located isDir same
    have samePath := sound.apart located file same
    subst samePath
    rw [located] at file
    cases file
    rw [isDir] at isFile
    exact absurd isFile (by decide)

section Write

variable (written : Written d d' ino) (sound : Sound d) (free : NoDirectory d ino)

include written sound free

theorem Written.entries (located : Files.locate d q = some m) (isDir : m.mode = dir)
    (inside : j < dentrysPerBlock) :
    Same d d' (blockAddress m.ino + dentrySize * j) dentrySize := by
  have other := toNat_ne (free.apart located isDir)
  have small := free.small
  have smallM := sound.small located
  intro k low
  apply written
  rw [blockAddress_eq small, blockAddress_eq smallM]
  simp only [Beyond, blockSize, dentrySize, dentrysPerBlock] at *
  omega

theorem Written.locate : Files.locate d' = Files.locate d := by
  funext q
  induction q with
  | nil => rfl
  | cons j q ih =>
    rw [Files.locate, ih, Files.locate]
    cases located : Files.locate d q with
    | none => rfl
    | some m =>
      rw [Option.bind_some, Option.bind_some]
      split
      next inside =>
        exact (written.entries sound free located inside.1 inside.2.2).dirEntry
      · rfl

/-- Writing a file keeps a card sound. -/
theorem Sound.write : Sound d' := by
  have nodes := written.locate sound free
  have above := written.above free.small
  constructor
  · intro q m here
    exact sound.small (nodes ▸ here)
  · intro q m here
    exact sound.kind (nodes ▸ here)
  · intro q r m e here there
    exact sound.apart (nodes ▸ here) (nodes ▸ there)
  · intro q m here
    rw [nodes] at here
    rw [bit_congr _ (sound.small here), sound.marked here]
    intro k _
    exact above _ (Nat.le_add_right _ _)
  · intro q m f here there
    rw [nodes] at here there
    apply Same.described _ (sound.table here there)
    intro k _
    apply above
    simp only [tableAddress, mapAddress]
    omega
  · intro q m f here isDir there
    rw [nodes] at here there
    have dots := sound.dots here isDir there
    have first := written.entries sound free here isDir (j := 0) (by decide)
    have second := written.entries sound free here isDir (j := 1) (by decide)
    exact ⟨first.dirEntry.trans dots.self, second.dirEntry.trans dots.parent⟩
  · intro q m j e here isDir inside live
    rw [nodes] at here
    have same := written.entries sound free here isDir inside
    rw [same.dirEntry] at live
    exact same.named (sound.named here isDir inside live)

end Write

end Tina.Files
