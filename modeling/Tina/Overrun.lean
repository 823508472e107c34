import Tina.Stream

/-! Where `sys_fread` and `sys_fwrite` touch their local block. Positions are unsigned and
sizes signed, and `memcpy` takes its length as it comes. -/
namespace Tina.Files

open ByteBuffer Atomic

variable {s t : FileSystem} {fb buf pos size dest src a : Word} {len index : Nat}
  {stack : Buffer}

/-- The loop of `memcpy`: the addresses it stores to and loads from. -/
def memcpyAccesses : Nat → Word → Word → List (Word × Word)
  | 0, _, _ => []
  | len + 1, dest, src => (dest, src) :: memcpyAccesses len (dest + 1) (src + 1)

/-- What a call does, at a position, with its local block at `fb`: the addresses at which
its `memcpy` uses that block, what it returns, and the position it leaves. -/
structure Transfer where
  block : List Word
  returned : Word
  pos : Word

def freadTransfer (fb buf pos size : Word) : Transfer where
  block := (memcpyAccesses size.toNat buf (fb + pos)).map Prod.snd
  returned := size
  pos := pos + size

def fwriteTransfer (fb buf pos size : Word) : Transfer where
  block := (memcpyAccesses size.toNat (fb + pos) buf).map Prod.fst
  returned := size
  pos := pos + size

def due (pos size : Word) : Nat :=
  if size.toInt < 0 ∨ blockSize ≤ pos.toNat then 0 else min size.toNat (blockSize - pos.toNat)

/-- The call stays inside its block. -/
structure Confined (fb pos size : Word) (transfer : Transfer) : Prop where
  inside : ∀ a ∈ transfer.block, (a - fb).toNat < blockSize
  transferred : transfer.block.length = due pos size
  returned : transfer.returned.toInt = due pos size
  position : transfer.pos.toNat ≤ blockSize

def Within (pos size : Word) : Prop := 0 ≤ size.toInt ∧ pos.toNat + size.toNat ≤ blockSize

theorem memcpyAccesses_sources : (memcpyAccesses len dest src).map Prod.snd =
    (List.range len).map fun k => src + BitVec.ofNat 32 k := by
  induction len generalizing dest src with
  | zero => rfl
  | succ len ih =>
    rw [memcpyAccesses, List.map_cons, ih, List.range_succ_eq_map, List.map_cons, List.map_map]
    refine congrArg₂ List.cons (by simp) (List.map_congr_left fun k _ => ?_)
    simp only [Function.comp_apply]
    rw [BitVec.add_assoc, Nat.succ_eq_one_add, BitVec.ofNat_add]
    rfl

theorem memcpyAccesses_swap : (memcpyAccesses len dest src).map Prod.fst =
    (memcpyAccesses len src dest).map Prod.snd := by
  induction len generalizing dest src with
  | zero => rfl
  | succ len ih => rw [memcpyAccesses, memcpyAccesses, List.map_cons, List.map_cons, ih]

/-- The two calls use their block in the same way. -/
theorem fwriteTransfer_eq : fwriteTransfer fb buf pos size = freadTransfer fb buf pos size := by
  rw [fwriteTransfer, freadTransfer, memcpyAccesses_swap]

theorem freadTransfer_block : (freadTransfer fb buf pos size).block =
    (List.range size.toNat).map fun k => fb + pos + BitVec.ofNat 32 k :=
  memcpyAccesses_sources

theorem toInt_nonneg (positive : 0 ≤ size.toInt) : size.toInt = size.toNat := by
  have bound := size.isLt
  rw [BitVec.toInt_eq_toNat_cond] at positive ⊢
  split
  next => rfl
  next large =>
    rw [if_neg large] at positive
    omega

theorem confined_iff : Confined fb pos size (freadTransfer fb buf pos size) ↔ Within pos size := by
  have bound := pos.isLt
  have length : (freadTransfer fb buf pos size).block.length = size.toNat := by
    rw [freadTransfer_block, List.length_map, List.length_range]
  constructor
  · rintro ⟨-, transferred, returned, position⟩
    rw [length] at transferred
    have positive : 0 ≤ size.toInt := by
      change size.toInt = _ at returned
      omega
    refine ⟨positive, ?_⟩
    change (pos + size).toNat ≤ blockSize at position
    by_cases none : size.toInt < 0 ∨ blockSize ≤ pos.toNat
    · rw [due, if_pos none] at transferred
      have zero : size = 0 := BitVec.eq_of_toNat_eq transferred
      have same : pos + size = pos := by rw [zero]; exact BitVec.add_zero pos
      rw [same] at position
      omega
    · rw [due, if_neg none] at transferred
      omega
  · rintro ⟨positive, fits⟩
    have number := toInt_nonneg positive
    have whole : due pos size = size.toNat := by
      simp only [due]
      split <;> omega
    refine ⟨?_, length.trans whole.symm, number.trans (by rw [whole]), ?_⟩
    · intro a member
      rw [freadTransfer_block] at member
      obtain ⟨k, small, rfl⟩ := List.mem_map.mp member
      have low := List.mem_range.mp small
      simp only [blockSize] at fits ⊢
      have offset : fb + pos + BitVec.ofNat 32 k - fb = pos + BitVec.ofNat 32 k := by
        rw [BitVec.add_assoc, BitVec.add_comm, BitVec.add_sub_cancel]
      rw [offset, BitVec.toNat_add, BitVec.toNat_ofNat]
      omega
    · simp only [blockSize] at fits ⊢
      change (pos + size).toNat ≤ 0x200
      rw [BitVec.toNat_add]
      omega

/-! Sequences of calls. -/

/-- A call, where its local block and its buffers are, and what they hold. -/
inductive IoCall where
  | fopen (name : CString) (stack : Buffer) (locals : Locals)
  | fseek (index : Nat) (pos : Word)
  | fread (index : Nat) (buf size fb : Word) (stack : Buffer)
  | fwrite (index : Nat) (buf size : Word) (bytes : Nat → Byte) (fb : Word) (stack : Buffer)
  | fclose (index : Nat) (text fb : Word) (stack : Buffer)

def IoCall.execute : IoCall → FileSystem → Option FileSystem
  | .fopen name stack locals, s => (run (sysFopen name stack locals) s).map Prod.snd
  | .fseek index pos, s => (run (sysFseek index pos) s).map Prod.snd
  | .fread index _ size _ stack, s =>
    if size.toInt < 0 then none else (run (sysFread index size.toNat stack) s).map Prod.snd
  | .fwrite index _ size bytes _ stack, s =>
    if size.toInt < 0 then none
    else (run (sysFwrite index ((List.range size.toNat).map bytes) stack) s).map Prod.snd
  | .fclose index _ _ stack, s => (run (sysFclose index stack) s).map Prod.snd

/-- `sys_fclose` is a `sys_fwrite` of one byte first. -/
def IoCall.Stays (s : FileSystem) : IoCall → Prop
  | .fread index buf size fb _ => let pos := (s.fd index).pos
    Confined fb pos size (freadTransfer fb buf pos size)
  | .fwrite index buf size _ fb _ => let pos := (s.fd index).pos
    Confined fb pos size (fwriteTransfer fb buf pos size)
  | .fclose index text fb _ => let pos := (s.fd index).pos
    Confined fb pos 1 (fwriteTransfer fb text pos 1)
  | _ => True

def IoCall.Modest (s : FileSystem) : IoCall → Prop
  | .fread index _ size _ _ | .fwrite index _ size _ _ _ => Within (s.fd index).pos size
  | .fclose index _ _ _ => (s.fd index).pos.toNat < blockSize
  | _ => True

/-- Every call of the sequence, in the state it is made in. -/
def Throughout (property : FileSystem → IoCall → Prop) : List IoCall → FileSystem → Prop
  | [], _ => True
  | c :: calls, s =>
    property s c ∧ ∀ t, c.execute s = some t → Throughout property calls t

theorem within_advance (within : Within pos size) :
    (pos + size).toNat = pos.toNat + size.toNat := by
  have moved := advance_toNat within.2
  rwa [BitVec.ofNat_toNat, BitVec.setWidth_eq] at moved

/-- A call that stays in its block moves as many bytes as it is to, and its descriptor. -/
theorem within_transfers (stack : Buffer) (bytes : Nat → Byte) (valid : index < fdNum)
    (within : Within (s.fd index).pos size) :
    (∃ read t, run (sysFread index size.toNat stack) s = some (read, t) ∧
      read.length = size.toNat ∧
      (t.fd index).pos = (freadTransfer fb buf (s.fd index).pos size).pos) ∧
    ∃ t, run (sysFwrite index ((List.range size.toNat).map bytes) stack) s =
        some (size.toNat, t) ∧
      (t.fd index).pos = (fwriteTransfer fb buf (s.fd index).pos size).pos := by
  have advance := within_advance within
  have shows := @shown_shows s (s.fd index).ino
  constructor
  · obtain ⟨t, result, shows', elsewhere⟩ := fread_shows stack valid rfl shows within.2
    refine ⟨_, t, result, Cursor.slice_length, BitVec.eq_of_toNat_eq ?_⟩
    exact (shows'.cursor index (elsewhere.ino index)).trans
      ((Function.update_self ..).trans advance.symm)
  · have length : ((List.range size.toNat).map bytes).length = size.toNat := by
      rw [List.length_map, List.length_range]
    have fits : (shown s (s.fd index).ino).cursor index +
        ((List.range size.toNat).map bytes).length ≤ blockSize := by
      rw [length]
      exact within.2
    obtain ⟨t, result, shows', elsewhere⟩ := fwrite_shows stack valid rfl shows fits
    rw [length] at result
    refine ⟨t, result, BitVec.eq_of_toNat_eq ?_⟩
    refine (shows'.cursor index (elsewhere.ino index)).trans ((Function.update_self ..).trans ?_)
    rw [length]
    exact advance.symm

theorem stays_iff (c : IoCall) : c.Stays s ↔ c.Modest s := by
  cases c with
  | fopen name stack locals => exact Iff.rfl
  | fseek index pos => exact Iff.rfl
  | fread index buf size fb stack => exact confined_iff
  | fwrite index buf size bytes fb stack =>
    simp only [IoCall.Stays, fwriteTransfer_eq]
    exact confined_iff
  | fclose index text fb stack =>
    simp only [IoCall.Stays, fwriteTransfer_eq]
    rw [confined_iff]
    have one : (1 : Word).toInt = 1 ∧ (1 : Word).toNat = 1 := by decide
    simp only [Within, IoCall.Modest, one]
    omega

/-- All calls stay inside their blocks exactly if none asks for more. -/
theorem io_confined_iff (calls : List IoCall) (s : FileSystem) :
    Throughout (fun s c => c.Stays s) calls s ↔ Throughout (fun s c => c.Modest s) calls s := by
  induction calls generalizing s with
  | nil => exact Iff.rfl
  | cons c calls ih =>
    exact and_congr (stays_iff c) (forall_congr' fun t => imp_congr_right fun _ => ih t)

/-- A file that is open at position 1, and a write of 512 bytes. -/
theorem io_overruns : ¬∀ s, Session Sane s → ∀ calls,
    Throughout (fun s c => c.Stays s) calls s := by
  intro stays
  obtain ⟨s, _, n, session, _, _, _, fd, _⟩ := session_fopen
  have first := stays s session
    [.fwrite 0 0x1000 512 (fun _ => 0x61) 0x2000 blankLocals.db]
  rw [io_confined_iff] at first
  obtain ⟨⟨_, fits⟩, _⟩ := first
  rw [fd] at fits
  exact absurd fits (by change ¬((1 : Word).toNat + 512 ≤ blockSize); decide)

end Tina.Files
