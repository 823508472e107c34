import Tina.Cursor
import Tina.Stale

/-! Files read and written through descriptors: each is a cursor on the one block of its
file. -/
namespace Tina.Files

open ByteBuffer Atomic Cursor

variable {s t : FileSystem} {f : File Byte Nat} {ino : Word} {r index size : Nat} {stack : Buffer}
  {buf : List Byte}

/-- Successive calls of `sys_fwrite`, each with what lies on its stack. -/
def writeAll (r : Nat) : List (List Byte × Buffer) → Routine (List Nat)
  | [] => pure []
  | (buf, stack) :: rest => do
    let n ← sysFwrite r buf stack
    let ns ← writeAll r rest
    return n :: ns

def readAll (r : Nat) : List (Nat × Buffer) → Routine (List (List Byte))
  | [] => pure []
  | (size, stack) :: rest => do
    let bytes ← sysFread r size stack
    let more ← readAll r rest
    return bytes :: more

/-- The block of `ino` and the positions of its descriptors, as a file with cursors. -/
structure Shows (s : FileSystem) (ino : Word) (f : File Byte Nat) : Prop where
  content : ∀ k < blockSize, s.disk (blockAddress ino + k) = f.content k
  cursor : ∀ r, (s.fd r).ino = ino → (s.fd r).pos.toNat = f.cursor r

/-- No descriptor is moved to another file, and outside the `n` bytes at `a` the card is as
it was. -/
structure Elsewhere (s t : FileSystem) (a n : Nat) : Prop where
  ino : ∀ r, (t.fd r).ino = (s.fd r).ino
  disk : ∀ k, k < a ∨ a + n ≤ k → t.disk k = s.disk k

/-- What the block of `ino` and its descriptors show. -/
def shown (s : FileSystem) (ino : Word) : File Byte Nat where
  content k := s.disk (blockAddress ino + k)
  cursor r := (s.fd r).pos.toNat

theorem shown_shows : Shows s ino (shown s ino) := ⟨fun _ _ => rfl, fun _ _ => rfl⟩

theorem moved_shows {p : Word} {c : Nat → Byte} (shows : Shows s ino f)
    (moved : t.fd = Function.update s.fd r ⟨(s.fd r).ino, p⟩)
    (content : ∀ k < blockSize, t.disk (blockAddress ino + k) = c k) :
    Shows t ino ⟨c, Function.update f.cursor r p.toNat⟩ where
  content := content
  cursor j own := by
    by_cases here : j = r
    · subst j
      simp [moved]
    · rw [moved, Function.update_of_ne here] at own ⊢
      simp only [Function.update_of_ne here]
      exact shows.cursor j own

def repositioned (r : Nat) (p : Word) (s : FileSystem) : FileSystem :=
  { s with fd := Function.update s.fd r ⟨(s.fd r).ino, p⟩ }

theorem advance_toNat {p : Word} {n : Nat} (inside : p.toNat + n ≤ blockSize) :
    (p + BitVec.ofNat 32 n).toNat = p.toNat + n := by
  simp only [blockSize] at inside
  rw [BitVec.toNat_add, BitVec.toNat_ofNat]
  omega

/-- `sys_fwrite` writes at the cursor. -/
theorem fwrite_shows (stack : Buffer) (valid : r < fdNum) (same : (s.fd r).ino = ino)
    (shows : Shows s ino f) (inside : f.cursor r + buf.length ≤ blockSize) :
    ∃ t, run (sysFwrite r buf stack) s = some (buf.length, t) ∧ Shows t ino (f.write r buf) ∧
      Elsewhere s t (blockAddress ino + f.cursor r) buf.length := by
  have place := shows.cursor r same
  have fits : (s.fd r).pos.toNat + buf.length ≤ blockSize := by rw [place]; exact inside
  obtain ⟨t, result, -, -, -, disk, moved, -⟩ := run_sysFwrite stack valid fits
  rw [same, place] at disk
  have position := advance_toNat fits
  rw [place] at position
  refine ⟨t, result, ?_, fun j => ?_, fun k outside => ?_⟩
  · have shows' := moved_shows (c := splice (f.cursor r) buf f.content) shows moved
      fun k low => ?_
    · rwa [position] at shows'
    · rw [disk]
      by_cases early : k < f.cursor r
      · rw [copy_outside (by omega), splice_before early, shows.content k low]
      · obtain ⟨j, rfl⟩ := Nat.exists_eq_add_of_le (Nat.le_of_not_lt early)
        by_cases written : j < buf.length
        · rw [← Nat.add_assoc, copy_inside written, Nat.zero_add, splice_inside written]
          simp [written]
        · rw [copy_outside (by omega), splice_behind (by omega), shows.content _ low]
  · rw [moved]
    exact setPos_ino (g := fun _ => _)
  · rw [disk, copy_outside outside]

/-- `sys_fread` reads at the cursor. -/
theorem fread_shows (stack : Buffer) (valid : r < fdNum) (same : (s.fd r).ino = ino)
    (shows : Shows s ino f) (inside : f.cursor r + size ≤ blockSize) :
    ∃ t, run (sysFread r size stack) s = some (f.read r size, t) ∧ Shows t ino (f.skip r size) ∧
      Elsewhere s t 0 0 := by
  have place := shows.cursor r same
  have fits : (s.fd r).pos.toNat + size ≤ blockSize := by rw [place]; exact inside
  have position := advance_toNat fits
  rw [place] at position
  have bytes : ((List.range size).map fun k =>
      s.disk (blockAddress (s.fd r).ino + ((s.fd r).pos.toNat + k))) = f.read r size := by
    refine List.map_congr_left fun k member => ?_
    have low := List.mem_range.mp member
    rw [same, place]
    exact shows.content _ (by omega)
  refine ⟨repositioned r ((s.fd r).pos + BitVec.ofNat 32 size) s, ?_, ?_, fun j => ?_,
    fun _ _ => rfl⟩
  · rw [run_sysFread stack valid fits, bytes]
    rfl
  · have shows' := @moved_shows s (repositioned r ((s.fd r).pos + BitVec.ofNat 32 size) s) f ino r
      _ _ shows rfl shows.content
    rwa [position] at shows'
  · exact setPos_ino (g := fun _ => (s.fd r).pos + BitVec.ofNat 32 size)

theorem fseek_shows (valid : r < fdNum) (shows : Shows s ino f) (p : Word) :
    ∃ t, run (sysFseek r p) s = some ((), t) ∧ Shows t ino (f.seek r p.toNat) ∧
      Elsewhere s t 0 0 := by
  refine ⟨repositioned r p s, ?_, ?_, fun j => ?_, fun _ _ => rfl⟩
  · rw [sysFseek, if_neg (Nat.not_le.mpr valid)]
    rfl
  · exact moved_shows shows rfl shows.content
  · exact setPos_ino (g := fun _ => p)

/-! Sequences of calls. -/

variable {u : FileSystem} {a n m : Nat} {writes : List (List Byte × Buffer)}
  {reads : List (Nat × Buffer)}

theorem Elsewhere.refl : Elsewhere s s a n := ⟨fun _ => rfl, fun _ _ => rfl⟩

theorem Elsewhere.append (first : Elsewhere s t a n) (second : Elsewhere t u (a + n) m) :
    Elsewhere s u a (n + m) where
  ino r := (second.ino r).trans (first.ino r)
  disk k outside := (second.disk k (by omega)).trans (first.disk k (by omega))

theorem Elsewhere.everywhere (same : Elsewhere s t 0 0) : t.disk = s.disk :=
  funext fun k => same.disk k (Or.inr (Nat.zero_le k))

def data (writes : List (List Byte × Buffer)) : List Byte := (writes.map Prod.fst).flatten

theorem writeAll_shows (valid : r < fdNum) (same : (s.fd r).ino = ino) (shows : Shows s ino f)
    (inside : f.cursor r + (data writes).length ≤ blockSize) :
    ∃ t, run (writeAll r writes) s = some (writes.map fun w => w.1.length, t) ∧
      Shows t ino (f.writeAll r (writes.map Prod.fst)) ∧
      Elsewhere s t (blockAddress ino + f.cursor r) (data writes).length := by
  induction writes generalizing s f with
  | nil => exact ⟨s, rfl, shows, Elsewhere.refl⟩
  | cons w writes ih =>
    obtain ⟨buf, stack⟩ := w
    have split : (data ((buf, stack) :: writes)).length = buf.length + (data writes).length := by
      simp [data]
    rw [split] at inside ⊢
    have fits : f.cursor r + buf.length ≤ blockSize := by omega
    obtain ⟨t, first, shows', elsewhere⟩ := fwrite_shows stack valid same shows fits
    have cursor : (f.write r buf).cursor r = f.cursor r + buf.length := by simp [File.write]
    obtain ⟨u, rest, shows'', elsewhere'⟩ := ih ((elsewhere.ino r).trans same) shows'
      (by rw [cursor]; omega)
    rw [cursor, ← Nat.add_assoc] at elsewhere'
    refine ⟨u, ?_, shows'', elsewhere.append elsewhere'⟩
    rw [writeAll, run_then first, run_then rest]
    rfl

theorem readAll_shows (valid : r < fdNum) (same : (s.fd r).ino = ino) (shows : Shows s ino f)
    (inside : f.cursor r + (reads.map Prod.fst).sum ≤ blockSize) :
    ∃ t, run (readAll r reads) s = some (f.readAll r (reads.map Prod.fst), t) ∧
      Shows t ino (f.skip r (reads.map Prod.fst).sum) ∧ Elsewhere s t 0 0 := by
  induction reads generalizing s f with
  | nil =>
    refine ⟨s, rfl, ?_, Elsewhere.refl⟩
    simpa [File.skip, File.seek] using shows
  | cons read reads ih =>
    obtain ⟨size, stack⟩ := read
    rw [List.map_cons, List.sum_cons] at inside ⊢
    have fits : f.cursor r + size ≤ blockSize := by simp only at inside; omega
    obtain ⟨t, first, shows', elsewhere⟩ := fread_shows stack valid same shows fits
    have cursor : (f.skip r size).cursor r = f.cursor r + size := by simp [File.skip, File.seek]
    obtain ⟨u, rest, shows'', elsewhere'⟩ := ih ((elsewhere.ino r).trans same) shows'
      (by rw [cursor]; simp only at inside; omega)
    refine ⟨u, ?_, ?_, elsewhere.append elsewhere'⟩
    · rw [readAll, run_then first, run_then rest]
      rfl
    · simpa [File.skip, File.seek, Nat.add_assoc] using shows''

/-- What has become of the state `s` when `bytes` were written through `r`: they stand in the
file from the old position on, for every descriptor of that file. -/
structure Appended (s : FileSystem) (r : Nat) (bytes : List Byte) (t : FileSystem) : Prop where
  position : (t.fd r).pos.toNat = (s.fd r).pos.toNat + bytes.length
  outside : ∀ k, k < blockAddress (s.fd r).ino + (s.fd r).pos.toNat ∨
    blockAddress (s.fd r).ino + (s.fd r).pos.toNat + bytes.length ≤ k → t.disk k = s.disk k
  shared : ∀ j < fdNum, (s.fd j).ino = (s.fd r).ino → ∀ (q : Word) (n : Nat) (stack : Buffer),
    q.toNat + n ≤ blockSize → ∃ u, run (do sysFseek j q; sysFread j n stack) t =
      some (slice q.toNat n (splice (s.fd r).pos.toNat bytes fun k =>
        s.disk (blockAddress (s.fd r).ino + k)), u)

theorem writeAll_appended (valid : r < fdNum)
    (room : (s.fd r).pos.toNat + (data writes).length ≤ blockSize) :
    ∃ t, run (writeAll r writes) s = some (writes.map fun w => w.1.length, t) ∧
      Appended s r (data writes) t := by
  obtain ⟨t, ends, shows, elsewhere⟩ := writeAll_shows valid rfl
    (@shown_shows s (s.fd r).ino) room
  rw [writeAll_eq] at shows
  refine ⟨t, ends, ?_, elsewhere.disk, fun j low own q n stack inside => ?_⟩
  · rw [shows.cursor r (elsewhere.ino r)]
    exact Function.update_self ..
  · obtain ⟨u, moved, shows', elsewhere'⟩ := fseek_shows low shows q
    have same := (elsewhere'.ino j).trans ((elsewhere.ino j).trans own)
    have fits : ((((shown s (s.fd r).ino).write r (data writes)).seek j q.toNat).cursor j) + n ≤
        blockSize := by simpa [File.seek] using inside
    obtain ⟨v, read, -, -⟩ := fread_shows stack low same shows' fits
    refine ⟨v, ?_⟩
    rw [run_then moved, read]
    simp [File.read, File.seek, File.write, shown, data]

/-- What successive reads from the state `u` give, of which `bytes` stand at the cursor. -/
structure Consumed (u : FileSystem) (r : Nat) (bytes : List Byte) (sizes : List Nat)
    (chunks : List (List Byte)) (v : FileSystem) : Prop where
  lengths : chunks.map List.length = sizes
  bytes : chunks.flatten = bytes.take sizes.sum
  position : (v.fd r).pos.toNat = (u.fd r).pos.toNat + sizes.sum
  disk : v.disk = u.disk

theorem readAll_lengths (f : File Byte Nat) (r : Nat) (sizes : List Nat) :
    (f.readAll r sizes).map List.length = sizes := by
  induction sizes generalizing f with
  | nil => rfl
  | cons n sizes ih => rw [File.readAll, List.map_cons, ih, File.read, slice_length]

/-- Writes from the position of a descriptor on, a seek back, and reads: after each call. -/
theorem sequential_io (valid : r < fdNum)
    (room : (s.fd r).pos.toNat + (data writes).length ≤ blockSize)
    (enough : (reads.map Prod.fst).sum ≤ (data writes).length) :
    (∀ first rest, writes = first ++ rest →
      ∃ t, run (writeAll r first) s = some (first.map fun w => w.1.length, t) ∧
        Appended s r (data first) t) ∧
    ∃ t u, run (writeAll r writes) s = some (writes.map fun w => w.1.length, t) ∧
      run (sysFseek r (s.fd r).pos) t = some ((), u) ∧ u.disk = t.disk ∧
      (u.fd r).pos = (s.fd r).pos ∧
      ∀ first rest, reads = first ++ rest → ∃ chunks v, run (readAll r first) u = some (chunks, v) ∧
        Consumed u r (data writes) (first.map Prod.fst) chunks v := by
  constructor
  · rintro first rest rfl
    have part : (data (first ++ rest)).length = (data first).length + (data rest).length := by
      simp [data]
    exact writeAll_appended valid (by omega)
  · obtain ⟨t, ends, shows, elsewhere⟩ := writeAll_shows valid rfl
      (@shown_shows s (s.fd r).ino) room
    obtain ⟨u, moved, shows', elsewhere'⟩ := fseek_shows valid shows (s.fd r).pos
    have same := (elsewhere'.ino r).trans (elsewhere.ino r)
    have back : (u.fd r).pos.toNat = (s.fd r).pos.toNat := by
      rw [shows'.cursor r same]
      exact Function.update_self ..
    refine ⟨t, u, ends, moved, elsewhere'.everywhere, BitVec.eq_of_toNat_eq back, ?_⟩
    rintro first rest rfl
    rw [List.map_append, List.sum_append] at enough
    have cursor : ((((shown s (s.fd r).ino).writeAll r (writes.map Prod.fst)).seek r
        (s.fd r).pos.toNat).cursor r) = (s.fd r).pos.toNat := Function.update_self ..
    have few : (first.map Prod.fst).sum ≤ (writes.map Prod.fst).flatten.length := by
      simp only [data] at enough
      omega
    obtain ⟨v, read, shows'', elsewhere''⟩ := @readAll_shows u _ _ r first valid same shows'
      (by rw [cursor]; omega)
    refine ⟨_, v, read, readAll_lengths .., readAll_writeAll few, ?_, elsewhere''.everywhere⟩
    rw [shows''.cursor r ((elsewhere''.ino r).trans same), back]
    simp [File.skip, File.seek]

/-- The descriptor of a file, two writes from its position on, and two other reads. -/
theorem sequential_io_open : ∃ s t u v, Session Sane s ∧ Attached s 0 ∧
    run (writeAll 0 [([0x68, 0x69], blankLocals.db), ([0x21], blankLocals.db)]) s =
      some ([2, 1], t) ∧
    run (sysFseek 0 (s.fd 0).pos) t = some ((), u) ∧
    ∃ chunks, run (readAll 0 [(1, blankLocals.db), (2, blankLocals.db)]) u = some (chunks, v) ∧
      chunks.flatten = [0x68, 0x69, 0x21] := by
  obtain ⟨s, i, n, session, intact, target, _, fd, _, ⟨p, located⟩, _⟩ := session_fopen
  have room : (s.fd 0).pos.toNat + (data [([0x68, 0x69], blankLocals.db),
      ([0x21], blankLocals.db)]).length ≤ blockSize := by
    rw [fd]
    change (1 : Word).toNat + 3 ≤ blockSize
    decide
  obtain ⟨-, t, u, wrote, moved, -, -, parts⟩ := @sequential_io s 0 _
    [(1, blankLocals.db), (2, blankLocals.db)] (by decide) room (by decide)
  obtain ⟨chunks, v, read, consumed⟩ := parts _ [] (List.append_nil _).symm
  exact ⟨s, t, u, v, session, ⟨by decide, p, n, located, target.kind, by rw [fd]⟩, wrote, moved,
    chunks, read, consumed.bytes⟩

end Tina.Files
