import Tina.Buffer
import Tina.Output

/-! `createimage`, which puts the boot block and the kernel on the card, and how much of it the
boot block loads. -/
namespace Tina.CreateImage

open ByteBuffer Cursor Output

abbrev Word := BitVec 32

abbrev Image := Output.File Byte

def sectorSize : Word := 512

/-- `SECTOR_SIZE` where no word is near. -/
def sector : Nat := 512

def bootloaderSigOffset : Nat := 0x1fe

def kernelSectorOffset : Nat := 0x1e0

/-- Why the program stops before it is done: an `assert` fails, or it reads an entry that the
table does not have. -/
inductive Stop where
  | assertion
  | outOfBounds
  deriving DecidableEq

/-- The fields of `Elf32_Ehdr` that are used. -/
structure Ehdr where
  ePhoff : Word
  ePhentsize : BitVec 16
  ePhnum : BitVec 16
  deriving DecidableEq

/-- The fields of `Elf32_Phdr` that are used. -/
structure Phdr where
  pOffset : Word
  pFilesz : Word
  pMemsz : Word
  deriving DecidableEq

/-- The bytes that `fread` gets, as many as there are. A position is a `long` of 64 bits. -/
def fread (readfile : List Byte) (position n : Nat) : List Byte :=
  (readfile.drop position).take n

def bytes (s : List Byte) : Buffer := fun k => s.getD k 0

/-- A word as it stands in a file, little end first. -/
def wordBytes (w : Word) : List Byte := (List.range 4).map (byteOf w)

def half (s : List Byte) (a : Nat) : BitVec 16 :=
  BitVec.ofNat 16 ((bytes s a).toNat + 256 * (bytes s (a + 1)).toNat)

def ehdr (header : List Byte) : Ehdr where
  ePhoff := word (bytes header) 28
  ePhentsize := half header 42
  ePhnum := half header 44

def phdr (entry : List Byte) : Phdr where
  pOffset := word (bytes entry) 4
  pFilesz := word (bytes entry) 16
  pMemsz := word (bytes entry) 20

/-- `num_phdr` has eight bits. -/
def readExecFile (execfile : List Byte) : Except Stop (Ehdr × List Phdr) :=
  let header := fread execfile 0 52
  let numPhdr := ((ehdr header).ePhnum.setWidth 8).toNat
  let table := fread execfile (ehdr header).ePhoff.toNat (32 * numPhdr)
  if header.length ≠ 52 then .error .assertion
  else if (ehdr header).ePhentsize ≠ 32 then .error .assertion
  else if table.length / 32 ≠ numPhdr then .error .assertion
  else .ok (ehdr header, (List.range numPhdr).map fun i => phdr (table.drop (32 * i)))

def entry (progHdr : List Phdr) (pidx : Nat) : Except Stop Phdr :=
  match progHdr[pidx]? with
  | some ph => .ok ph
  | none => .error .outOfBounds

def num2read (numremaining : Word) : Word :=
  if numremaining < sectorSize then numremaining else sectorSize

theorem num2read_bounds {numremaining : Word} (more : 0 < numremaining) :
    0 < (num2read numremaining).toNat ∧ (num2read numremaining).toNat ≤ numremaining.toNat := by
  rw [num2read, sectorSize]
  split
  · bv_omega
  · bv_omega

/-- The loop that copies a segment through `buffer`. -/
def copyFile (readfile : List Byte) (position : Nat) (numremaining : Word)
    (imagefile : Image) (totalread : Word) : Except Stop (Image × Word) :=
  if 0 < numremaining then
    let numread := num2read numremaining
    let buffer := fread readfile position numread.toNat
    if buffer.length = numread.toNat then
      copyFile readfile (position + numread.toNat) (numremaining - numread)
        (imagefile.write buffer) (totalread + numread)
    else .error .assertion
  else .ok (imagefile, totalread)
termination_by numremaining.toNat
decreasing_by
  have bounds := num2read_bounds (by assumption)
  bv_omega

/-- The loops that fill up. -/
def fill (requiredPadding : Word) (imagefile : Image) (totalread : Word) : Image × Word :=
  if 0 < requiredPadding then
    fill (requiredPadding - 1) (imagefile.put 0) (totalread + 1)
  else (imagefile, totalread)
termination_by requiredPadding.toNat
decreasing_by bv_omega

/-- What is done for an entry of the table. -/
def writeSegment (readfile : List Byte) (state : Image × Word) (ph : Phdr) :
    Except Stop (Image × Word) := do
  let (imagefile, totalread) ← copyFile readfile ph.pOffset.toNat ph.pFilesz state.1 state.2
  return fill (ph.pMemsz - ph.pFilesz) imagefile totalread

def writeToImage (imagefile : Image) (readfile : List Byte) (elfHdr : Ehdr)
    (progHdr : List Phdr) : Except Stop Image := do
  let (imagefile, totalread) ← (List.range elfHdr.ePhnum.toNat).foldlM (fun state pidx => do
    let ph ← entry progHdr pidx
    writeSegment readfile state ph) (imagefile, 0)
  return (fill ((sectorSize - totalread) % sectorSize) imagefile totalread).1

def writeBootblock (imagefile : Image) (bootfile : List Byte) (bootHeader : Ehdr)
    (bootPhdr : List Phdr) : Except Stop Image := do
  let imagefile ← writeToImage (imagefile.seek 0) bootfile bootHeader bootPhdr
  return ((imagefile.seek bootloaderSigOffset).put 0x55).put 0xaa

def writeKernel (imagefile : Image) (kernelfile : List Byte) (kernelHeader : Ehdr)
    (kernelPhdr : List Phdr) : Except Stop Image :=
  writeToImage (imagefile.seek sector) kernelfile kernelHeader kernelPhdr

/-- The division is one of signed numbers, the remainder one of unsigned numbers. -/
def countKernelSectors (kernelHeader : Ehdr) (kernelPhdr : List Phdr) : Except Stop Word := do
  let kernelSize ← (List.range kernelHeader.ePhnum.toNat).foldlM (fun kernelSize pidx => do
    let ph ← entry kernelPhdr pidx
    return kernelSize + ph.pMemsz) (0 : Word)
  return kernelSize.sdiv sectorSize + if kernelSize % sectorSize = 0 then 0 else 1

def recordKernelSectors (imagefile : Image) (numSec : Word) : Image :=
  (imagefile.seek kernelSectorOffset).write (wordBytes numSec)

/-- `main`, given what the two files hold. The first entry of the kernel's table is printed. -/
def createimage (bootfile kernelfile : List Byte) : Except Stop Image := do
  let imagefile : Image := ⟨fun _ => 0, 0, 0⟩
  let (bootHeader, bootPhdr) ← readExecFile bootfile
  let imagefile ← writeBootblock imagefile bootfile bootHeader bootPhdr
  let (kernelHeader, kernelPhdr) ← readExecFile kernelfile
  let imagefile ← writeKernel imagefile kernelfile kernelHeader kernelPhdr
  let numSectors ← countKernelSectors kernelHeader kernelPhdr
  let _ ← entry kernelPhdr 0
  return recordKernelSectors imagefile numSectors

/-- What the boot block asks for: from where on the card, and how many bytes. -/
def bootLoad (imagefile : Image) : Nat × Word :=
  (0x200, word imagefile.content kernelSectorOffset * 0x200)

/-! What the program writes. -/

variable {readfile : List Byte} {position n m : Nat} {numremaining totalread : Word}
  {imagefile : Image} {table : List Phdr} {ph : Phdr} {header : Ehdr}

theorem fread_length : (fread readfile position n).length = min n (readfile.length - position) := by
  rw [fread, List.length_take, List.length_drop]

theorem fread_add : fread readfile position (n + m) =
    fread readfile position n ++ fread readfile (position + n) m := by
  rw [fread, fread, fread, List.take_add, List.drop_drop]

/-- A segment that its file holds is copied, and no other. -/
theorem copyFile_eq : copyFile readfile position numremaining imagefile totalread =
    if (fread readfile position numremaining.toNat).length = numremaining.toNat then
      .ok (imagefile.write (fread readfile position numremaining.toNat), totalread + numremaining)
    else .error .assertion := by
  fun_induction copyFile readfile position numremaining imagefile totalread with
  | case1 position numremaining imagefile totalread more numread buffer full ih =>
    have bounds : 0 < numread.toNat ∧ numread.toNat ≤ numremaining.toNat := num2read_bounds more
    have rest : (numremaining - numread).toNat = numremaining.toNat - numread.toNat := by
      bv_omega
    have parts : numremaining.toNat = numread.toNat + (numremaining - numread).toNat := by
      omega
    have all : fread readfile position numremaining.toNat =
        buffer ++ fread readfile (position + numread.toNat) (numremaining - numread).toNat := by
      rw [parts, fread_add]
    have total : totalread + numread + (numremaining - numread) = totalread + numremaining := by
      bv_omega
    have whole : (buffer ++ fread readfile (position + numread.toNat)
          (numremaining - numread).toNat).length = numremaining.toNat ↔
        (fread readfile (position + numread.toNat) (numremaining - numread).toNat).length =
          (numremaining - numread).toNat := by
      rw [List.length_append, full]
      omega
    rw [ih, all, File.write_append, total]
    simp only [whole]
  | case2 position numremaining imagefile totalread more numread buffer short =>
    have bounds : 0 < numread.toNat ∧ numread.toNat ≤ numremaining.toNat := num2read_bounds more
    rw [if_neg]
    intro full
    have got : buffer.length = min numread.toNat (readfile.length - position) := fread_length
    rw [fread_length] at full
    omega
  | case3 position numremaining imagefile totalread done =>
    have nothing : numremaining = 0 := by bv_omega
    subst nothing
    simp [fread]

theorem fill_eq : fill numremaining imagefile totalread =
    (imagefile.write (List.replicate numremaining.toNat 0), totalread + numremaining) := by
  fun_induction fill numremaining imagefile totalread with
  | case1 requiredPadding imagefile totalread more ih =>
    have rest : requiredPadding.toNat = 1 + (requiredPadding - 1).toNat := by bv_omega
    have total : totalread + 1 + (requiredPadding - 1) = totalread + requiredPadding := by
      bv_omega
    rw [ih, File.put, File.write_append, total, rest, List.replicate_add]
    rfl
  | case2 requiredPadding imagefile totalread done =>
    have nothing : requiredPadding = 0 := by bv_omega
    subst nothing
    simp

/-! What an entry of the table stands for. -/

/-- The bytes of a segment in memory. -/
def segment (readfile : List Byte) (ph : Phdr) : List Byte :=
  fread readfile ph.pOffset.toNat ph.pFilesz.toNat ++
    List.replicate (ph.pMemsz.toNat - ph.pFilesz.toNat) 0

def laid (readfile : List Byte) (table : List Phdr) : List Byte :=
  table.flatMap (segment readfile)

/-- The file holds what the entry says it does. -/
def Holds (readfile : List Byte) (ph : Phdr) : Prop :=
  (fread readfile ph.pOffset.toNat ph.pFilesz.toNat).length = ph.pFilesz.toNat

instance Holds.decidable : Decidable (Holds readfile ph) :=
  inferInstanceAs (Decidable (_ = _))

def memsz (table : List Phdr) : Nat := (table.map fun ph => ph.pMemsz.toNat).sum

theorem memsz_cons : memsz (ph :: table) = ph.pMemsz.toNat + memsz table := by
  rw [memsz, List.map_cons, List.sum_cons, memsz]

theorem segment_length (holds : Holds readfile ph) (fits : ph.pFilesz ≤ ph.pMemsz) :
    (segment readfile ph).length = ph.pMemsz.toNat := by
  rw [segment, List.length_append, holds, List.length_replicate]
  bv_omega

theorem laid_length (holds : ∀ ph ∈ table, Holds readfile ph)
    (fits : ∀ ph ∈ table, ph.pFilesz ≤ ph.pMemsz) : (laid readfile table).length = memsz table := by
  rw [laid, memsz, List.length_flatMap]
  congr 1
  exact List.map_congr_left fun ph member => segment_length (holds ph member) (fits ph member)

theorem writeSegment_eq (fits : ph.pFilesz ≤ ph.pMemsz) :
    writeSegment readfile (imagefile, totalread) ph =
      if Holds readfile ph then
        .ok (imagefile.write (segment readfile ph), totalread + ph.pMemsz)
      else .error .assertion := by
  have rest : (ph.pMemsz - ph.pFilesz).toNat = ph.pMemsz.toNat - ph.pFilesz.toNat := by bv_omega
  have total : totalread + ph.pFilesz + (ph.pMemsz - ph.pFilesz) = totalread + ph.pMemsz := by
    bv_omega
  have copied : copyFile readfile ph.pOffset.toNat ph.pFilesz imagefile totalread =
      if Holds readfile ph then .ok (imagefile.write (fread readfile ph.pOffset.toNat
        ph.pFilesz.toNat), totalread + ph.pFilesz) else .error .assertion := copyFile_eq
  rw [writeSegment, copied]
  by_cases holds : Holds readfile ph
  · rw [if_pos holds, if_pos holds]
    simp only [bind, Except.bind, pure, Except.pure, fill_eq, File.write_append, rest, total]
    rfl
  · rw [if_neg holds, if_neg holds]
    rfl

/-- The table has as many entries as the header says, so no entry is read behind it. -/
theorem foldlM_entries {σ : Type} (f : σ → Phdr → Except Stop σ) (state : σ) :
    (List.range table.length).foldlM (fun state pidx => do
      let ph ← entry table pidx
      f state ph) state = table.foldlM f state := by
  induction table generalizing state with
  | nil => rfl
  | cons ph table ih =>
    rw [List.length_cons, List.range_succ_eq_map, List.foldlM_cons, List.foldlM_cons]
    simp only [List.foldlM_map]
    refine congrArg (fun next => f state ph >>= next) (funext fun state => ?_)
    exact ih state

theorem writeSegments_eq (fits : ∀ ph ∈ table, ph.pFilesz ≤ ph.pMemsz) (imagefile : Image)
    (totalread : Word) : table.foldlM (writeSegment readfile) (imagefile, totalread) =
      if ∀ ph ∈ table, Holds readfile ph then
        .ok (imagefile.write (laid readfile table), totalread + BitVec.ofNat 32 (memsz table))
      else .error .assertion := by
  induction table generalizing imagefile totalread with
  | nil => simp [laid, memsz, pure, Except.pure]
  | cons ph table ih =>
    obtain ⟨first, others⟩ := List.forall_mem_cons.mp fits
    rw [List.foldlM_cons, writeSegment_eq first]
    simp only [List.forall_mem_cons]
    by_cases holds : Holds readfile ph
    · rw [if_pos holds]
      refine (ih others _ _).trans ?_
      simp only [holds, true_and, File.write_append, laid, List.flatMap_cons]
      rw [memsz_cons, BitVec.add_assoc, BitVec.ofNat_add, BitVec.ofNat_toNat, BitVec.setWidth_eq]
    · rw [if_neg holds, if_neg fun both => holds both.1]
      rfl

/-- A header and its table, of at most 255 entries, and the segments are no longer in the file
than in memory. -/
structure Executable where
  file : List Byte
  header : Ehdr
  table : List Phdr
  read : readExecFile file = .ok (header, table)
  few : header.ePhnum.toNat < 256
  fits : ∀ ph ∈ table, ph.pFilesz ≤ ph.pMemsz

variable {e : Executable}

/-- The file holds all its segments. -/
def Executable.Whole (e : Executable) : Prop := ∀ ph ∈ e.table, Holds e.file ph

instance Executable.Whole.decidable : Decidable e.Whole :=
  inferInstanceAs (Decidable (∀ ph ∈ e.table, Holds e.file ph))

def Executable.bytes (e : Executable) : List Byte := laid e.file e.table

def Executable.size (e : Executable) : Nat := memsz e.table

theorem readExecFile_length (read : readExecFile readfile = .ok (header, table)) :
    table.length = header.ePhnum.toNat % 256 := by
  simp only [readExecFile] at read
  split at read
  · cases read
  · split at read
    · cases read
    · split at read
      · cases read
      · simp only [Except.ok.injEq, Prod.mk.injEq] at read
        obtain ⟨rfl, rfl⟩ := read
        rw [List.length_map, List.length_range, BitVec.toNat_setWidth]

theorem Executable.count (e : Executable) : e.header.ePhnum.toNat = e.table.length := by
  have length := readExecFile_length e.read
  have few := e.few
  omega

/-- What is missing of the last sector, in words and in numbers. -/
theorem padding_eq (size : Nat) :
    ((sectorSize - (0 + BitVec.ofNat 32 size)) % sectorSize).toNat =
      (sector - size % sector) % sector := by
  simp only [sectorSize, sector, BitVec.toNat_umod, BitVec.toNat_sub, BitVec.toNat_add,
    BitVec.ofNat_eq_ofNat, BitVec.toNat_ofNat, Nat.reducePow, Nat.reduceMod]
  omega

theorem Executable.writeToImage_eq (e : Executable) (imagefile : Image) :
    writeToImage imagefile e.file e.header e.table =
      if e.Whole then .ok (imagefile.write (filled 0 sector e.bytes)) else .error .assertion := by
  have segments : e.table.foldlM (writeSegment e.file) (imagefile, 0) =
      if e.Whole then .ok (imagefile.write (laid e.file e.table),
        0 + BitVec.ofNat 32 (memsz e.table)) else .error .assertion :=
    writeSegments_eq e.fits imagefile 0
  rw [writeToImage, e.count, foldlM_entries, segments]
  by_cases whole : e.Whole
  · have length : (laid e.file e.table).length = memsz e.table := laid_length whole e.fits
    have padding := padding_eq (memsz e.table)
    rw [if_pos whole, if_pos whole]
    simp only [bind, Except.bind, pure, Except.pure, fill_eq, File.write_append, padding]
    rw [filled, Executable.bytes, length]
  · rw [if_neg whole, if_neg whole]
    rfl

theorem Executable.filled_size (whole : e.Whole) :
    (filled 0 sector e.bytes).length = sector * blocks sector e.size := by
  have length : e.bytes.length = e.size := laid_length whole e.fits
  rw [filled_length (by decide), length]

/-- A signed division and an unsigned remainder of a size below half the range. -/
theorem rounded_up {size : Nat} (bound : size < 2 ^ 31) :
    (BitVec.ofNat 32 size).sdiv sectorSize +
        (if BitVec.ofNat 32 size % sectorSize = 0 then 0 else 1) =
      BitVec.ofNat 32 (blocks sector size) := by
  have value : (BitVec.ofNat 32 size).toNat = size := by
    rw [BitVec.toNat_ofNat]
    omega
  have positive : (BitVec.ofNat 32 size).msb = false := by
    rw [BitVec.msb_eq_false_iff_two_mul_lt, value]
    omega
  have divided : (BitVec.ofNat 32 size).sdiv sectorSize = BitVec.ofNat 32 size / sectorSize := by
    rw [BitVec.sdiv_eq, positive]
    rfl
  have remainder : BitVec.ofNat 32 size % sectorSize = 0 ↔ size % 512 = 0 := by
    rw [← BitVec.toNat_inj, BitVec.toNat_umod, value]
    rfl
  have sectors : (sectorSize : Word).toNat = 512 := rfl
  have nothing : (0 : Word).toNat = 0 := rfl
  have one : (1 : Word).toNat = 1 := rfl
  apply BitVec.eq_of_toNat_eq
  rw [divided, BitVec.toNat_add, BitVec.toNat_udiv, value, sectors, BitVec.toNat_ofNat, blocks,
    sector]
  by_cases exact : size % 512 = 0
  · rw [if_pos (remainder.mpr exact), nothing]
    omega
  · rw [if_neg fun none => exact (remainder.mp none), one]
    omega

theorem sizes_eq (kernelSize : Word) :
    table.foldlM (fun kernelSize ph => (pure (kernelSize + ph.pMemsz) : Except Stop Word))
      kernelSize = .ok (kernelSize + BitVec.ofNat 32 (memsz table)) := by
  induction table generalizing kernelSize with
  | nil => simp [memsz, pure, Except.pure]
  | cons ph table ih =>
    rw [List.foldlM_cons, memsz_cons, BitVec.ofNat_add, BitVec.ofNat_toNat, BitVec.setWidth_eq,
      ← BitVec.add_assoc]
    exact ih (kernelSize + ph.pMemsz)

/-- The sum of the sizes in the headers gives the number of sectors that were written. -/
theorem Executable.countKernelSectors_eq (e : Executable) (bound : e.size < 2 ^ 31) :
    countKernelSectors e.header e.table = .ok (BitVec.ofNat 32 (blocks sector e.size)) := by
  have zero : (0 : Word) + BitVec.ofNat 32 (memsz e.table) = BitVec.ofNat 32 e.size :=
    BitVec.zero_add _
  rw [countKernelSectors, e.count, foldlM_entries, sizes_eq, zero]
  exact congrArg Except.ok (rounded_up bound)

variable {boot kernel : Executable} {k : Nat}

/-- The file that is left when nothing fails. -/
def written (boot kernel : Executable) : Image :=
  let imagefile : Image := ⟨fun _ => 0, 0, 0⟩
  let imagefile := (imagefile.seek 0).write (filled 0 sector boot.bytes)
  let imagefile := (imagefile.seek bootloaderSigOffset).write [0x55, 0xaa]
  let imagefile := (imagefile.seek sector).write (filled 0 sector kernel.bytes)
  recordKernelSectors imagefile (BitVec.ofNat 32 (blocks sector kernel.size))

theorem createimage_eq (bound : kernel.size < 2 ^ 31) :
    createimage boot.file kernel.file =
      if boot.Whole ∧ kernel.Whole then
        if kernel.table = [] then .error .outOfBounds else .ok (written boot kernel)
      else .error .assertion := by
  have counted := kernel.countKernelSectors_eq bound
  simp only [createimage, writeBootblock, writeKernel, boot.read, kernel.read,
    Executable.writeToImage_eq, counted, bind, Except.bind, pure, Except.pure]
  by_cases bootWhole : boot.Whole
  · by_cases kernelWhole : kernel.Whole
    · simp only [bootWhole, kernelWhole, and_self, if_true]
      cases first : kernel.table with
      | nil => rfl
      | cons ph table =>
        have signed : ∀ imagefile : Image, (imagefile.put 0x55).put 0xaa =
            imagefile.write [0x55, 0xaa] := fun imagefile => File.write_append
        rw [if_neg (List.cons_ne_nil ph table), written, signed]
        rfl
    · simp only [bootWhole, kernelWhole, and_false, if_true, if_false]
  · simp only [bootWhole, false_and, if_false]

theorem wordBytes_length (w : Word) : (wordBytes w).length = 4 := by
  rw [wordBytes, List.length_map, List.length_range]

theorem splice_wordBytes (a : Nat) (w : Word) (content : Buffer) :
    splice a (wordBytes w) content = setWord a w content := by
  have length := wordBytes_length w
  funext k
  by_cases inside : a ≤ k ∧ k < a + 4
  · obtain ⟨j, rfl⟩ := Nat.exists_eq_add_of_le inside.1
    have low : j < (wordBytes w).length := by omega
    rw [splice_inside low, setWord_inside (by omega)]
    simp only [wordBytes, List.getElem_map, List.getElem_range]
  · rw [setWord_outside (by omega)]
    by_cases before : k < a
    · exact splice_before before
    · exact splice_behind (by omega)

theorem slice_congr {c d : Nat → Byte} (same : ∀ k, position ≤ k → k < position + n → c k = d k) :
    slice position n c = slice position n d :=
  List.map_congr_left fun _ member =>
    same _ (Nat.le_add_right ..) (Nat.add_lt_add_left (List.mem_range.mp member) position)

/-- What `createimage` leaves, and what the boot block makes of it. The kernel has `n`
sectors. -/
structure Loads (boot kernel : Executable) (n : Nat) (imagefile : Image) : Prop where
  produced : ∀ start, ∃ after,
    writeToImage start kernel.file kernel.header kernel.table = .ok after ∧
      after.position = start.position + 512 * n
  recorded : (word imagefile.content kernelSectorOffset).toNat = n
  size : imagefile.size = 512 * (1 + n)
  kernelBytes : slice 512 (512 * n) imagefile.content = filled 0 512 kernel.bytes
  bootBytes : ∀ k < 512, ¬(kernelSectorOffset ≤ k ∧ k < kernelSectorOffset + 4) →
    ¬(bootloaderSigOffset ≤ k ∧ k < bootloaderSigOffset + 2) →
      (filled 0 512 boot.bytes)[k]? = some (imagefile.content k)
  signature : slice bootloaderSigOffset 2 imagefile.content = [0x55, 0xaa]
  loaded : slice (bootLoad imagefile).1 (bootLoad imagefile).2.toNat imagefile.content =
    filled 0 512 kernel.bytes

/-- The first sector, before the kernel is counted. -/
def bootContent (boot : Executable) : Buffer :=
  splice bootloaderSigOffset [0x55, 0xaa] (splice 0 (filled 0 sector boot.bytes) fun _ => 0)

theorem written_content : (written boot kernel).content =
    setWord kernelSectorOffset (BitVec.ofNat 32 (blocks sector kernel.size))
      (splice sector (filled 0 sector kernel.bytes) (bootContent boot)) :=
  splice_wordBytes _ _ _

/-- The recorded number stands in the first sector. -/
theorem written_behind (behind : sector ≤ k) : (written boot kernel).content k =
    splice sector (filled 0 sector kernel.bytes) (bootContent boot) k := by
  rw [sector] at behind
  rw [written_content, setWord_outside (Or.inr (by rw [kernelSectorOffset]; omega))]

theorem written_first (inside : k < sector)
    (number : ¬(kernelSectorOffset ≤ k ∧ k < kernelSectorOffset + 4)) :
    (written boot kernel).content k = bootContent boot k := by
  rw [written_content, setWord_outside (by omega), splice_before inside]

theorem written_size (bootLength : (filled 0 sector boot.bytes).length = sector)
    (kernelLength : (filled 0 sector kernel.bytes).length = sector * n) :
    (written boot kernel).size = 512 * (1 + n) := by
  let start : Image := ⟨fun _ => 0, 0, 0⟩
  let bootSector : Image := (start.seek 0).write (filled 0 sector boot.bytes)
  let signed : Image := (bootSector.seek bootloaderSigOffset).write [0x55, 0xaa]
  let full : Image := (signed.seek sector).write (filled 0 sector kernel.bytes)
  have bootSize : bootSector.size = 512 := by
    have behind := File.write_size (f := start.seek 0) (a := filled 0 sector boot.bytes) rfl
    rw [bootLength] at behind
    exact behind
  have signedSize : signed.size = 512 := by
    refine Eq.trans (File.write_size_inside ?_) bootSize
    change bootloaderSigOffset + 2 ≤ bootSector.size
    rw [bootSize]
    decide
  have fullSize : full.size = 512 + 512 * n := by
    have behind := File.write_size (f := signed.seek sector) (a := filled 0 sector kernel.bytes)
      signedSize
    rw [kernelLength] at behind
    exact behind
  have recorded : (written boot kernel).size = full.size := by
    refine File.write_size_inside (f := full.seek kernelSectorOffset) ?_
    change kernelSectorOffset + _ ≤ full.size
    rw [fullSize, kernelSectorOffset, wordBytes_length]
    omega
  rw [recorded, fullSize]
  omega

theorem written_loads (bootSize : 1 ≤ boot.size ∧ boot.size ≤ 512)
    (kernelSize : kernel.size < 2 ^ 31) (bootWhole : boot.Whole) (kernelWhole : kernel.Whole) :
    Loads boot kernel (blocks sector kernel.size) (written boot kernel) := by
  have bootLength : (filled 0 sector boot.bytes).length = 512 := by
    rw [boot.filled_size bootWhole, blocks, sector]
    omega
  have kernelLength := kernel.filled_size kernelWhole
  have few : blocks sector kernel.size < 2 ^ 23 := by
    rw [blocks, sector]
    omega
  have recorded : word (written boot kernel).content kernelSectorOffset =
      BitVec.ofNat 32 (blocks sector kernel.size) := by
    rw [written_content, word_setWord]
  have kernelBytes : slice 512 (512 * blocks sector kernel.size) (written boot kernel).content =
      filled 0 512 kernel.bytes := by
    have reads : slice sector (sector * blocks sector kernel.size)
        (splice sector (filled 0 sector kernel.bytes) (bootContent boot)) =
        filled 0 sector kernel.bytes := by
      rw [slice_splice (Nat.le_of_eq kernelLength.symm),
        List.take_of_length_le (Nat.le_of_eq kernelLength)]
    exact (slice_congr fun k behind _ => written_behind behind).trans reads
  refine ⟨?_, ?_, ?_, kernelBytes, ?_, ?_, ?_⟩
  · intro start
    rw [kernel.writeToImage_eq, if_pos kernelWhole]
    exact ⟨_, rfl, by rw [File.write_position, kernelLength]; rfl⟩
  · rw [recorded, BitVec.toNat_ofNat]
    omega
  · exact written_size bootLength kernelLength
  · intro k inside number signature
    rw [written_first inside number]
    have outside : bootContent boot k = splice 0 (filled 0 sector boot.bytes) (fun _ => 0) k := by
      by_cases before : k < bootloaderSigOffset
      · exact splice_before before
      · exact splice_behind (by simp only [List.length_cons, List.length_nil]; omega)
    have byte := splice_inside (p := 0) (c := fun _ => (0 : Byte)) (bootLength.symm ▸ inside)
    rw [Nat.zero_add] at byte
    rw [outside, byte]
    exact List.getElem?_eq_getElem _
  · have reads : slice bootloaderSigOffset 2 (bootContent boot) = [0x55, 0xaa] :=
      slice_splice (le_refl 2)
    refine (slice_congr fun k first last => written_first ?_ ?_).trans reads
    · exact last
    · rw [bootloaderSigOffset] at first
      rw [kernelSectorOffset]
      omega
  · have exact : blocks sector kernel.size % 2 ^ 32 = blocks sector kernel.size := by omega
    have size : (bootLoad (written boot kernel)).2.toNat = 512 * blocks sector kernel.size := by
      have factor : (0x200 : Word).toNat = 512 := rfl
      rw [bootLoad, recorded, BitVec.toNat_mul, BitVec.toNat_ofNat, factor, exact]
      omega
    rw [size]
    exact kernelBytes

theorem image_loads (bootSize : 1 ≤ boot.size ∧ boot.size ≤ 512)
    (kernelSize : kernel.size < 2 ^ 31) (bootWhole : boot.Whole) (kernelWhole : kernel.Whole)
    (some : kernel.table ≠ []) : ∃ n imagefile,
      createimage boot.file kernel.file = .ok imagefile ∧ Loads boot kernel n imagefile := by
  have result : createimage boot.file kernel.file = .ok (written boot kernel) := by
    rw [createimage_eq kernelSize, if_pos ⟨bootWhole, kernelWhole⟩, if_neg some]
  exact ⟨_, _, result, written_loads bootSize kernelSize bootWhole kernelWhole⟩

/-! Files that have a table, for every table. -/

def headerBytes (entries : Nat) : List Byte :=
  List.replicate 28 0 ++ wordBytes 52 ++ List.replicate 10 0 ++ [32, 0] ++
    [BitVec.ofNat 8 entries, 0] ++ List.replicate 6 0

def entryBytes (ph : Phdr) : List Byte :=
  List.replicate 4 0 ++ wordBytes ph.pOffset ++ List.replicate 8 0 ++ wordBytes ph.pFilesz ++
    wordBytes ph.pMemsz ++ List.replicate 8 0

/-- The table follows the header. -/
def elfFile (table : List Phdr) (data : List Byte) : List Byte :=
  headerBytes table.length ++ (table.flatMap entryBytes ++ data)

theorem word_bytes {s : List Byte} {a : Nat} {w : Word} (first : bytes s a = byteOf w 0)
    (second : bytes s (a + 1) = byteOf w 1) (third : bytes s (a + 2) = byteOf w 2)
    (fourth : bytes s (a + 3) = byteOf w 3) : word (bytes s) a = w := by
  apply BitVec.eq_of_toNat_eq
  have bound := w.isLt
  simp only [word, first, second, third, fourth, byteOf, BitVec.toNat_ofNat]
  omega

theorem phdr_entryBytes (ph : Phdr) (rest : List Byte) : phdr (entryBytes ph ++ rest) = ph := by
  have offset : word (bytes (entryBytes ph ++ rest)) 4 = ph.pOffset := word_bytes rfl rfl rfl rfl
  have filesz : word (bytes (entryBytes ph ++ rest)) 16 = ph.pFilesz := word_bytes rfl rfl rfl rfl
  have memsz : word (bytes (entryBytes ph ++ rest)) 20 = ph.pMemsz := word_bytes rfl rfl rfl rfl
  rw [phdr, offset, filesz, memsz]

theorem ehdr_headerBytes {entries : Nat} (few : entries < 256) :
    ehdr (headerBytes entries) = ⟨52, 32, BitVec.ofNat 16 entries⟩ := by
  have phoff : word (bytes (headerBytes entries)) 28 = 52 := word_bytes rfl rfl rfl rfl
  have phentsize : half (headerBytes entries) 42 = 32 := rfl
  have phnum : half (headerBytes entries) 44 = BitVec.ofNat 16 entries := by
    have value : half (headerBytes entries) 44 =
        BitVec.ofNat 16 ((BitVec.ofNat 8 entries).toNat + 256 * 0) := rfl
    rw [value, BitVec.toNat_ofNat, Nat.mod_eq_of_lt few]
    rfl
  rw [ehdr, phoff, phentsize, phnum]

theorem entries_read (table : List Phdr) :
    (List.range table.length).map (fun i => phdr ((table.flatMap entryBytes).drop (32 * i))) =
      table := by
  induction table with
  | nil => rfl
  | cons ph table ih =>
    rw [List.length_cons, List.range_succ_eq_map, List.map_cons, List.map_map,
      List.flatMap_cons]
    have first : phdr ((entryBytes ph ++ table.flatMap entryBytes).drop (32 * 0)) = ph :=
      phdr_entryBytes ph _
    rw [first]
    refine congrArg (ph :: ·) (Eq.trans (List.map_congr_left fun i _ => ?_) ih)
    have behind : 32 * i.succ = (entryBytes ph).length + 32 * i := by
      change 32 * (i + 1) = 32 + 32 * i
      omega
    rw [Function.comp_apply, behind, List.drop_length_add_append]

theorem table_length (table : List Phdr) :
    (table.flatMap entryBytes).length = 32 * table.length := by
  induction table with
  | nil => rfl
  | cons ph table ih =>
    have entry : (entryBytes ph).length = 32 := rfl
    rw [List.flatMap_cons, List.length_append, entry, ih, List.length_cons]
    omega

theorem readExecFile_elfFile {table : List Phdr} (few : table.length < 256) (data : List Byte) :
    readExecFile (elfFile table data) =
      .ok (⟨52, 32, BitVec.ofNat 16 table.length⟩, table) := by
  have header : fread (elfFile table data) 0 52 = headerBytes table.length := List.take_left' rfl
  have count : ((BitVec.ofNat 16 table.length).setWidth 8).toNat = table.length := by
    rw [BitVec.toNat_setWidth, BitVec.toNat_ofNat]
    omega
  have entries : fread (elfFile table data) 52 (32 * table.length) = table.flatMap entryBytes := by
    have behind : (elfFile table data).drop 52 = table.flatMap entryBytes ++ data :=
      List.drop_left' rfl
    rw [fread, behind, List.take_left' (table_length table)]
  have offset : (52 : Word).toNat = 52 := rfl
  have full : (headerBytes table.length).length = 52 := rfl
  simp only [readExecFile, header, ehdr_headerBytes few, count, offset, entries, entries_read,
    table_length, full, ne_eq, not_true_eq_false, if_false]
  rw [if_neg (by omega)]

/-- Every table is one of some file. -/
def executable (table : List Phdr) (data : List Byte) (few : table.length < 256)
    (fits : ∀ ph ∈ table, ph.pFilesz ≤ ph.pMemsz) : Executable where
  file := elfFile table data
  header := ⟨52, 32, BitVec.ofNat 16 table.length⟩
  table := table
  read := readExecFile_elfFile few data
  few := by
    rw [BitVec.toNat_ofNat]
    omega
  fits := fits

/-- One byte in the file, and three in memory. -/
def oneSegment (data : List Byte) : Executable :=
  executable [⟨84, 1, 3⟩] data (by decide) (by decide)

def noSegment : Executable := executable [] [] (by decide) (by decide)

theorem image_loads_one : ∃ n imagefile,
    createimage (oneSegment [7]).file (oneSegment [9]).file = .ok imagefile ∧
      Loads (oneSegment [7]) (oneSegment [9]) n imagefile :=
  image_loads (by decide) (by decide) (by decide) (by decide) (by decide)

/-- A segment that its file does not hold, and a table without entries. -/
theorem image_missing :
    (∃ boot kernel : Executable, (1 ≤ boot.size ∧ boot.size ≤ 512) ∧ kernel.size < 2 ^ 31 ∧
      ¬∃ n imagefile, createimage boot.file kernel.file = .ok imagefile ∧
        Loads boot kernel n imagefile) ∧
    ∃ boot kernel : Executable, (1 ≤ boot.size ∧ boot.size ≤ 512) ∧ kernel.size < 2 ^ 31 ∧
      boot.Whole ∧ kernel.Whole ∧
      ¬∃ n imagefile, createimage boot.file kernel.file = .ok imagefile ∧
        Loads boot kernel n imagefile := by
  constructor
  · refine ⟨oneSegment [7], oneSegment [], by decide, by decide, ?_⟩
    rintro ⟨n, imagefile, result, _⟩
    rw [createimage_eq (by decide), if_neg (by decide)] at result
    cases result
  · refine ⟨oneSegment [7], noSegment, by decide, by decide, by decide, by decide, ?_⟩
    rintro ⟨n, imagefile, result, _⟩
    rw [createimage_eq (by decide), if_pos (by decide), if_pos (by rfl)] at result
    cases result

end Tina.CreateImage
