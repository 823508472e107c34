import Tina.Transfers
import Tina.Tree

/-! Directories as they lie on the card: what a dentry says, which nodes are reached from
the root through dentries, and what adding or removing one dentry does to them. -/
namespace Tina.Files

open ByteBuffer SlotTree

/-- What a live dentry says. -/
structure Node where
  ino : Word
  mode : Word
  name : List Byte

/-- The dentry `i` of the block at `a`, when it is live. -/
def entry (b : Buffer) (a i : Nat) : Option Node :=
  if word b (a + dentrySize * i) = noIno then none
  else some
    ⟨word b (a + dentrySize * i), word b (a + dentrySize * i + offDentryMode),
      cstring b (a + dentrySize * i + offDentryName) 24⟩

def dirEntry (d : Buffer) (ino : Word) (i : Nat) : Option Node := entry d (blockAddress ino) i

/-- The name of an entry ends inside its field. -/
def Named (d : Buffer) (ino : Word) (i : Nat) : Prop :=
  Terminated d (blockAddress ino + dentrySize * i + offDentryName) 24

def rootNode : Node := ⟨rootDirIno, dir, tilde.val⟩

/-- The node at a path of slots, the last one first. The slots of `.` and `..` lead nowhere. -/
def locate (d : Buffer) : Tree Nat Node
  | [] => some rootNode
  | i :: p => (locate d p).bind fun n =>
    if n.mode = dir ∧ 2 ≤ i ∧ i < dentrysPerBlock then dirEntry d n.ino i else none

variable {d d' b b' : Buffer} {a a' i j k : Nat} {p q cwd : List Nat} {n m f : Node} {ino : Word}

theorem entry_congr (same : ∀ k < dentrySize, b (a + dentrySize * i + k) =
    b' (a' + dentrySize * j + k)) : entry b a i = entry b' a' j := by
  simp only [dentrySize] at same
  have words : ∀ k, k + 4 ≤ 32 → word b (a + 32 * i + k) = word b' (a' + 32 * j + k) := by
    intro k small
    apply word_congr
    intro l low high
    obtain ⟨e, rfl⟩ := Nat.exists_eq_add_of_le low
    have byte := same (k + e) (by omega)
    rw [show a + 32 * i + k + e = a + 32 * i + (k + e) by omega, byte]
    congr 1
    omega
  have first : word b (a + dentrySize * i) = word b' (a' + dentrySize * j) :=
    words 0 (by omega)
  have mode : word b (a + dentrySize * i + offDentryMode) =
      word b' (a' + dentrySize * j + offDentryMode) := words 4 (by omega)
  have name : cstring b (a + dentrySize * i + offDentryName) 24 =
      cstring b' (a' + dentrySize * j + offDentryName) 24 := by
    apply cstring_congr
    intro k small
    simp only [dentrySize, offDentryName]
    rw [Nat.add_assoc, Nat.add_assoc, ← Nat.add_assoc, same (8 + k) (by omega)]
    congr 1
    omega
  rw [entry, entry, first, mode, name]

theorem locate_cons (located : locate d p = some n) (isDir : n.mode = dir) (slot : 2 ≤ i)
    (small : i < dentrysPerBlock) : locate d (i :: p) = dirEntry d n.ino i := by
  rw [locate, located, Option.bind_some, if_pos ⟨isDir, slot, small⟩]

/-- What lies above a node. -/
theorem locate_parent (located : locate d (i :: p) = some n) :
    ∃ f, locate d p = some f ∧ f.mode = dir ∧ 2 ≤ i ∧ i < dentrysPerBlock ∧
      dirEntry d f.ino i = some n := by
  rw [locate] at located
  obtain ⟨f, above, here⟩ := Option.bind_eq_some_iff.mp located
  split at here
  next inside => exact ⟨f, above, inside.1, inside.2.1, inside.2.2, here⟩
  · cases here

theorem locate_closed : Closed (locate d) := by
  intro i p absent
  rw [locate, absent, Option.bind_none]

theorem dirEntry_live (live : dirEntry d ino i = some n) : n.ino ≠ noIno := by
  rw [dirEntry, entry] at live
  split at live
  · cases live
  next other =>
    cases live
    exact other

/-- The `n` bytes at `a` are the same on two cards. -/
def Same (d d' : Buffer) (a n : Nat) : Prop := ∀ k < n, d' (a + k) = d (a + k)

/-- `k` is none of the `n` bytes at `a`. -/
def Beyond (a n k : Nat) : Prop := k < a ∨ a + n ≤ k

theorem Same.dirEntry (same : Same d d' (blockAddress ino + dentrySize * i) dentrySize) :
    dirEntry d' ino i = dirEntry d ino i :=
  entry_congr same

theorem Same.named (same : Same d d' (blockAddress ino + dentrySize * i) dentrySize)
    (named : Named d ino i) : Named d' ino i := by
  apply Terminated.congr named
  intro k small
  have byte := same (offDentryName + k) (by simp only [offDentryName, dentrySize]; omega)
  rw [← Nat.add_assoc] at byte
  exact byte.symm

theorem Same.word {n : Nat} (same : Same d d' a n) (small : k + 4 ≤ n) :
    word d' (a + k) = word d (a + k) := by
  apply word_congr
  intro l low high
  obtain ⟨e, rfl⟩ := Nat.exists_eq_add_of_le low
  have byte := same (k + e) (by omega)
  rw [← Nat.add_assoc] at byte
  rw [byte]
  congr 1
  omega

/-- The inode map on the card. -/
def diskMap (d : Buffer) : Buffer := fun k => d (mapAddress + k)

/-- The inode table describes a node and the directory it was created in. -/
structure Described (d : Buffer) (n : Node) (father : Word) : Prop where
  ino : word d (tableAddress n.ino + offIno) = n.ino
  mode : word d (tableAddress n.ino + offMode) = n.mode
  father : word d (tableAddress n.ino + offFatherIno) = father

/-- The first two entries of a directory. -/
structure Dots (d : Buffer) (ino father : Word) : Prop where
  self : dirEntry d ino 0 = some ⟨ino, dir, dot.val⟩
  parent : dirEntry d ino 1 = some ⟨father, dir, dotDot.val⟩

theorem Same.described {n : Node} {father : Word}
    (same : Same d d' (tableAddress n.ino) inodeSize) (described : Described d n father) :
    Described d' n father := by
  constructor
  · rw [same.word (by decide), described.ino]
  · rw [same.word (by decide), described.mode]
  · rw [same.word (by decide), described.father]

/-- What holds of the card between commands, for every node reached from the root. The
tail of a path leads to the directory that holds the node; the root holds itself. -/
structure Sound (d : Buffer) : Prop where
  small : ∀ {p n}, locate d p = some n → n.ino.toNat < inodeBound
  kind : ∀ {p n}, locate d p = some n → n.mode = file ∨ n.mode = dir
  apart : ∀ {p q n m}, locate d p = some n → locate d q = some m → n.ino = m.ino → p = q
  marked : ∀ {p n}, locate d p = some n → bit (diskMap d) n.ino.toNat = true
  table : ∀ {p n f}, locate d p = some n → locate d p.tail = some f → Described d n f.ino
  dots : ∀ {p n f}, locate d p = some n → n.mode = dir → locate d p.tail = some f →
    Dots d n.ino f.ino
  named : ∀ {p n i m}, locate d p = some n → n.mode = dir → i < dentrysPerBlock →
    dirEntry d n.ino i = some m → Named d n.ino i

/-- A directory without entries of its own. -/
structure Fresh (d : Buffer) (ino father : Word) : Prop where
  dots : Dots d ino father
  named : ∀ i < 2, Named d ino i
  free : ∀ i, 2 ≤ i → i < dentrysPerBlock → dirEntry d ino i = none

/-- `d'` is `d` with the node `n` put into the slot `i` of the directory `father`. -/
structure Grafted (d d' : Buffer) (father : Word) (i : Nat) (n : Node) : Prop where
  outside : ∀ k, Beyond mapAddress mapSize k → Beyond (blockAddress n.ino) blockSize k →
    Beyond (tableAddress n.ino) inodeSize k →
    Beyond (blockAddress father + dentrySize * i) dentrySize k → d' k = d k
  here : dirEntry d' father i = some n
  named : Named d' father i
  marks : ∀ o < inodeBound, bit (diskMap d') o = if o = n.ino.toNat then true else bit (diskMap d) o
  table : Described d' n father
  inside : n.mode = dir → Fresh d' n.ino father

/-- `d'` is `d` with the slot `i` of the directory `father` emptied, which held `ino`. -/
structure Pruned (d d' : Buffer) (father : Word) (i : Nat) (ino : Word) : Prop where
  outside : ∀ k, Beyond mapAddress mapSize k →
    Beyond (blockAddress father + dentrySize * i) 4 k → d' k = d k
  here : dirEntry d' father i = none
  marks : ∀ o < inodeBound, bit (diskMap d') o = if o = ino.toNat then false else bit (diskMap d) o

end Tina.Files
