import Tina.Interleaving
import Tina.Refinement

/-! Processes that work on files of their own at the same time. The functions of `text.c` run in the
processes, without a lock, and may be interrupted between any two accesses to the card or to the
descriptors. -/
namespace Tina.Files

open ByteBuffer Atomic

variable {α ι : Type} {s s' t : FileSystem} {stack : Buffer} {buf : List Byte} {size : Nat}
  {p q ino : Word} {c d : Content} {a : α}

/-- A process that calls the functions on one descriptor. What it does next depends on what it has
read. -/
inductive Client (α : Type) where
  | ret (a : α)
  | fread (size : Nat) (stack : Buffer) (next : List Byte → Client α)
  | fwrite (buf : List Byte) (stack : Buffer) (next : Nat → Client α)
  | fseek (pos : Word) (next : Client α)

def Client.program (index : Nat) : Client α → Routine α
  | .ret a => pure a
  | .fread size stack next => do
    let bytes ← sysFread index size stack
    (next bytes).program index
  | .fwrite buf stack next => do
    let n ← sysFwrite index buf stack
    (next n).program index
  | .fseek pos next => do
    sysFseek index pos
    next.program index

def Content.bytes (pos size : Nat) (c : Content) : List Byte :=
  (List.range size).map fun k => if inside : pos + k < blockSize then c ⟨pos + k, inside⟩ else 0

/-- The same process with the file and its position for itself. Beyond the block nothing is
defined. -/
def Client.alone : Client α → Word → Content → Option (α × Word × Content)
  | .ret a, p, c => some (a, p, c)
  | .fread size _ next, p, c =>
    if blockSize < p.toNat + size then none
    else (next (c.bytes p.toNat size)).alone (p + BitVec.ofNat 32 size) c
  | .fwrite buf _ next, p, c =>
    if blockSize < p.toNat + buf.length then none
    else (next buf.length).alone (p + BitVec.ofNat 32 buf.length) (overwrite p.toNat buf c)
  | .fseek pos next, _, c => next.alone pos c

/-- Who uses which descriptor for which file: no two the same. -/
structure Users (ι : Type) where
  index : ι → Nat
  ino : ι → Word
  valid : ∀ i, index i < fdNum
  small : ∀ i, (ino i).toNat < inodeBound
  indexApart : Function.Injective index
  inoApart : Function.Injective ino

/-- What a user sees: its descriptor and the block of its file. -/
def Users.see (u : Users ι) (i : ι) (s : FileSystem) : FileDesc × Content :=
  (s.fd (u.index i), content s.disk (u.ino i))

open Classical in
/-- What belongs to no user. -/
noncomputable def Users.elsewhere (u : Users ι) (s : FileSystem) : FileSystem :=
  { s with
    fd := fun j => if ∃ i, u.index i = j then ⟨0, 0⟩ else s.fd j
    disk := fun k =>
      if ∃ i, blockAddress (u.ino i) ≤ k ∧ k < blockAddress (u.ino i) + blockSize then 0
      else s.disk k }

variable {u : Users ι} {i j : ι}

/-- Blocks of different users have no byte in common. -/
theorem Users.beyond (other : j ≠ i) {k : Nat} (low : k < blockSize) :
    Beyond (blockAddress (u.ino i)) blockSize (blockAddress (u.ino j) + k) := by
  have apart : (u.ino j).toNat ≠ (u.ino i).toNat := by
    intro same
    exact other (u.inoApart (BitVec.eq_of_toNat_eq same))
  rw [blockAddress_eq (u.small i), blockAddress_eq (u.small j)]
  simp only [Beyond, blockSize] at *
  omega

theorem Users.view (here : u.see i s = (⟨u.ino i, p⟩, c)) :
    (s.fd (u.index i)).ino = u.ino i ∧ (s.fd (u.index i)).pos = p ∧
      ∀ k (inside : k < blockSize), s.disk (blockAddress (u.ino i) + k) = c ⟨k, inside⟩ := by
  obtain ⟨first, second⟩ := Prod.mk.inj here
  exact ⟨by rw [first], by rw [first], fun k inside => congrFun second ⟨k, inside⟩⟩

theorem Users.setPos (g : Word → Word) : Confined u.see u.elsewhere i (⟨u.ino i, p⟩, c)
    (Files.setPos (u.index i) g) () (⟨u.ino i, g p⟩, c) := by
  refine .change (fun s here => ?_) fun s here => ⟨fun j other => ?_, ?_⟩
  · obtain ⟨ino, pos, -⟩ := Users.view here
    have bytes := (Prod.mk.inj here).2
    simp only [Users.see, Function.update_self, ino, pos, bytes]
  · have apart : u.index j ≠ u.index i := fun same => other (u.indexApart same)
    simp only [Users.see, Function.update_of_ne apart]
  · have same : ∀ k, (∃ i, u.index i = k) ∨ Function.update s.fd (u.index i)
        ⟨(s.fd (u.index i)).ino, g (s.fd (u.index i)).pos⟩ k = s.fd k := by
      intro k
      by_cases own : k = u.index i
      · exact .inl ⟨i, own.symm⟩
      · exact .inr (Function.update_of_ne own ..)
    rw [Users.elsewhere, Users.elsewhere]
    congr 1
    funext k
    rcases same k with used | kept
    · rw [if_pos used, if_pos used]
    · simp only [kept]

def loaded (stack : Buffer) (c : Content) : Buffer := fun k =>
  if inside : k < blockSize then c ⟨k, inside⟩ else stack k

theorem Users.descIno : Confined u.see u.elsewhere i (⟨u.ino i, p⟩, c)
    (Files.descIno (u.index i)) (u.ino i) (⟨u.ino i, p⟩, c) :=
  .read fun _ here => (Users.view here).1

theorem Users.descPos : Confined u.see u.elsewhere i (⟨u.ino i, p⟩, c)
    (Files.descPos (u.index i)) p.toNat (⟨u.ino i, p⟩, c) :=
  .read fun _ here => congrArg BitVec.toNat (Users.view here).2.1

theorem Users.blockRead : Confined u.see u.elsewhere i (⟨u.ino i, p⟩, c)
    (fileBlockRead stack (u.ino i)) (loaded stack c) (⟨u.ino i, p⟩, c) := by
  refine .read fun s here => ?_
  funext k
  rw [loaded]
  split
  · rename_i inside
    rw [copy_start inside]
    exact (Users.view here).2.2 k inside
  · exact copy_outside (by omega)

theorem Users.blockWrite {b : Buffer} (bytes : ∀ k (inside : k < blockSize), b k = d ⟨k, inside⟩) :
    Confined u.see u.elsewhere i (⟨u.ino i, p⟩, c) (fileBlockWrite b (u.ino i)) ()
      (⟨u.ino i, p⟩, d) := by
  have written : fileBlockWrite b (u.ino i) = Atomic.change fun s => { s with
      disk := copy s.disk (blockAddress (u.ino i)) b 0 blockSize } := rfl
  rw [written]
  refine .change (fun s here => ?_) fun s _ => ⟨fun j other => ?_, ?_⟩
  · obtain ⟨desc, -⟩ := Prod.mk.inj here
    refine Prod.ext desc ?_
    funext k
    simp only [Users.see, content]
    rw [copy_inside k.isLt, Nat.zero_add, bytes]
  · have kept : content (copy s.disk (blockAddress (u.ino i)) b 0 blockSize) (u.ino j) =
        content s.disk (u.ino j) := by
      funext k
      exact copy_outside (Users.beyond other k.isLt)
    simp only [Users.see, kept]
  · have kept : ∀ k, (¬∃ i, blockAddress (u.ino i) ≤ k ∧ k < blockAddress (u.ino i) + blockSize) →
        copy s.disk (blockAddress (u.ino i)) b 0 blockSize k = s.disk k := by
      intro k none
      apply copy_outside
      by_contra inside
      exact none ⟨i, by omega⟩
    classical
    have disk : (fun k => if ∃ i, blockAddress (u.ino i) ≤ k ∧ k < blockAddress (u.ino i) + blockSize
        then 0 else copy s.disk (blockAddress (u.ino i)) b 0 blockSize k) = fun k =>
        if ∃ i, blockAddress (u.ino i) ≤ k ∧ k < blockAddress (u.ino i) + blockSize then 0
        else s.disk k := by
      funext k
      split
      · rfl
      · exact kept k ‹_›
    simp only [Users.elsewhere, disk]

theorem Users.fread (fits : p.toNat + size ≤ blockSize) :
    Confined u.see u.elsewhere i (⟨u.ino i, p⟩, c) (sysFread (u.index i) size stack)
      (c.bytes p.toNat size) (⟨u.ino i, p + BitVec.ofNat 32 size⟩, c) := by
  rw [sysFread, if_neg (Nat.not_le.mpr (u.valid i))]
  refine Users.descIno.bind (Users.blockRead.bind (Users.descPos.bind ?_))
  rw [if_neg (Nat.not_lt.mpr fits)]
  refine (Users.setPos fun x => x + BitVec.ofNat 32 size).bind ?_
  have bytes : ((List.range size).map fun k => loaded stack c (p.toNat + k)) =
      c.bytes p.toNat size := by
    refine List.map_congr_left fun k member => ?_
    have low := List.mem_range.mp member
    have inside : p.toNat + k < blockSize := by omega
    rw [loaded, dif_pos inside, dif_pos inside]
  rw [bytes]
  exact .pure

theorem Users.fwrite (fits : p.toNat + buf.length ≤ blockSize) :
    Confined u.see u.elsewhere i (⟨u.ino i, p⟩, c) (sysFwrite (u.index i) buf stack) buf.length
      (⟨u.ino i, p + BitVec.ofNat 32 buf.length⟩, overwrite p.toNat buf c) := by
  rw [sysFwrite, if_neg (Nat.not_le.mpr (u.valid i))]
  refine Users.descIno.bind (Users.blockRead.bind (Users.descPos.bind ?_))
  rw [if_neg (Nat.not_lt.mpr fits)]
  refine Users.descIno.bind ((Users.blockWrite fun k inside => ?_).bind
    ((Users.setPos fun x => x + BitVec.ofNat 32 buf.length).bind .pure))
  simp only [overwrite]
  split
  · rename_i part
    obtain ⟨e, rfl⟩ := Nat.exists_eq_add_of_le part.1
    rw [copy_inside (by omega), Nat.zero_add, Nat.add_sub_cancel_left]
  · rw [copy_outside (by omega), loaded, dif_pos inside]

theorem Users.fseek : Confined u.see u.elsewhere i (⟨u.ino i, p⟩, c) (sysFseek (u.index i) q) ()
    (⟨u.ino i, q⟩, c) := by
  rw [sysFseek, if_neg (Nat.not_le.mpr (u.valid i))]
  exact Users.setPos fun _ => q

/-- A process that keeps to its file sees and changes nothing else. -/
theorem Client.confined (client : Client α) (result : client.alone p c = some (a, q, d)) :
    Confined u.see u.elsewhere i (⟨u.ino i, p⟩, c) (client.program (u.index i)) a
      (⟨u.ino i, q⟩, d) := by
  induction client generalizing p c with
  | ret b =>
    cases result
    exact .pure
  | fread size stack next ih =>
    rw [alone] at result
    split at result
    · cases result
    · rename_i fits
      exact (Users.fread (Nat.not_lt.mp fits)).bind (ih _ result)
  | fwrite buf stack next ih =>
    rw [alone] at result
    split at result
    · cases result
    · rename_i fits
      exact (Users.fwrite (Nat.not_lt.mp fits)).bind (ih _ result)
  | fseek pos next ih => exact Users.fseek.bind (ih result)

/-- The descriptors stand on the files of their users. -/
def Users.Open (u : Users ι) (s : FileSystem) : Prop := ∀ i, (s.fd (u.index i)).ino = u.ino i

variable [DecidableEq ι] {clients : ι → Client α} {pool : ι → Routine α}

/-- However the processes are interrupted, each that ends has what it would have with its file for
itself, the file holds what it would hold then, and nothing else has changed. -/
theorem sharing_alone (open' : u.Open s) {results : ι → α × Word × Content}
    (defined : ∀ i, (clients i).alone (s.fd (u.index i)).pos (content s.disk (u.ino i)) =
      some (results i))
    (run : Interleaved (fun i => (clients i).program (u.index i)) s pool t) :
    (∀ i, pool i ≠ .undefined) ∧
    (∀ i b, pool i = .done b → b = (results i).1 ∧ (t.fd (u.index i)).pos = (results i).2.1 ∧
      content t.disk (u.ino i) = (results i).2.2) ∧
    u.elsewhere t = u.elsewhere s := by
  have alone : ∀ i, Confined u.see u.elsewhere i (u.see i s) ((clients i).program (u.index i))
      (results i).1 (⟨u.ino i, (results i).2.1⟩, (results i).2.2) := by
    intro i
    have here : u.see i s = (⟨u.ino i, (s.fd (u.index i)).pos⟩, content s.disk (u.ino i)) := by
      rw [Users.see, ← open' i]
    rw [here]
    exact (clients i).confined (defined i)
  obtain ⟨confined, apart⟩ := run.confined alone
  refine ⟨fun i => (run.alone alone (b := (results i).1)).1, fun i b ended => ?_, apart⟩
  have final := confined i
  rw [ended] at final
  generalize view : u.see i t = v at final
  cases final
  exact ⟨rfl, congrArg (fun v => v.1.pos) view, congrArg Prod.snd view⟩

def pair : Users Bool where
  index b := if b then 1 else 0
  ino b := if b then 6 else 5
  valid b := by cases b <;> decide
  small b := by cases b <;> decide
  indexApart b c same := by cases b <;> cases c <;> simp_all
  inoApart b c same := by cases b <;> cases c <;> simp_all

/-- Both read their blocks before either writes. -/
theorem sharing_alone_pair : ∃ (t : FileSystem) (pool : Bool → Routine Nat),
    pool false = .done 1 ∧ pool true = .done 2 ∧ (t.fd 0).pos = 1 ∧ (t.fd 1).pos = 2 ∧
      content t.disk 5 = overwrite 0 [7] (fun _ => 0) ∧
      content t.disk 6 = overwrite 0 [1, 2] (fun _ => 0) := by
  let s : FileSystem := { blankSystem with fd := fun i => ⟨if i = 1 then 6 else 5, 0⟩ }
  let clients : Bool → Client Nat := fun b =>
    .fwrite (if b then [1, 2] else [7]) (fun _ => 0) .ret
  have run : ∃ pool t, Interleaved (fun b => (clients b).program (pair.index b)) s pool t ∧
      pool false = .done 1 ∧ pool true = .done 2 := by
    refine ⟨_, _, .step false rfl (.step true rfl (.step false rfl (.step true rfl
      (.step false rfl (.step true rfl (.step false rfl (.step true rfl (.step false rfl
      (.step true rfl (.step false rfl (.step true rfl .none))))))))))), rfl, rfl⟩
  obtain ⟨pool, t, run, first, second⟩ := run
  have defined : ∀ b, (clients b).alone (s.fd (pair.index b)).pos (content s.disk (pair.ino b)) =
      some (if b then 2 else 1, if b then 2 else 1,
        overwrite 0 (if b then [1, 2] else [7]) (content s.disk (pair.ino b))) := by
    intro b
    cases b <;> rfl
  obtain ⟨-, ends, -⟩ := sharing_alone (u := pair) (fun b => by cases b <;> rfl) defined run
  obtain ⟨-, pos, bytes⟩ := ends false 1 first
  obtain ⟨-, pos', bytes'⟩ := ends true 2 second
  exact ⟨t, pool, first, second, pos, pos', bytes, bytes'⟩

end Tina.Files
