import Tina.Resolution

/-! A path that is too long for the `buf` of `decode_path`: in the build `db` lies right behind
`buf`, so the path runs on into `db`, and reading a directory replaces what lies there. -/
namespace Tina.Files

open ByteBuffer Atomic Runs SlotTree Splitting

variable {s : FileSystem} {buf stack frame : Buffer} {name : CString} {c : Command}
  {k : Nat} {p : List Nat}

/-- In the frame of `decode_path` `buf` is at 92 and `db` at 124. -/
def dbAt : Nat := 32

def frameSize : Nat := dbAt + blockSize

def frameOf (buf stack : Buffer) : Buffer := fun k => if k < dbAt then buf k else stack (k - dbAt)

def frameDb (frame : Buffer) : Buffer := fun k => frame (dbAt + k)

/-- The loop over `dir_args`, whose elements point into the frame. None is followed to where a
string would end behind the frame. -/
def walkFrame : Buffer → List Nat → Routine Int
  | _, [] => pure 1
  | frame, a :: rest => do
    let db ← dirBlockRead (frameDb frame) (← curDirIno)
    let frame := copy frame dbAt db 0 blockSize
    let component := cstring frame a (frameSize - a)
    if frameSize - a ≤ component.length then .undefined
    else
      let j := scan dentrysPerBlock (leadsTo db component)
      if j = dentrysPerBlock then pure (-1)
      else do
        inodeRead onCurDir (dentryIno db j)
        walkFrame frame rest

/-- `decode_path` with the two arrays as they lie. -/
def decodePathFrame (dirName : CString) (stack buf : Buffer) : Routine Int :=
  if frameSize ≤ dirName.val.length then .undefined
  else
    match splitRuns slash frameSize maxArgs frameSize
        (strcpy 0 dirName.val (frameOf buf stack)) 0 [] with
    | none => .undefined
    | some (frame, dirArgs) => do
      initCurDir (some (frame 0))
      if dirArgs.length = 0 then pure 1
      else if dirName.val.length = 0 then pure 1
      else walkFrame frame dirArgs

def changeDirectoryFrame (name : Option CString) (stack buf : Buffer) : Routine Unit :=
  match name with
  | none => .undefined
  | some dirName => do
    let found ← decodePathFrame dirName stack buf
    if found < 0 then pure ()
    else
      inodeRead onShellPathInode (← curDirIno)
      copyHead

def listDirectoryFrame (name : Option CString) (stack buf : Buffer) :
    Routine (Option (List (List Byte))) :=
  match name with
  | none => .undefined
  | some dirName => do
    let found ← decodePathFrame dirName stack buf
    if found < 0 then pure none
    else
      let db ← dirBlockRead stack (← curDirIno)
      return some (((List.range dentrysPerBlock).filter fun i => dentryIno db i ≠ noIno).map
        fun i => cstring db (dentryName i) (blockSize - dentryName i))

/-- The commands with paths of any length; `buf` is what `buf` holds before. -/
def Command.routineFrame (buf : Buffer) : Command → Routine Unit
  | .cd path stack => changeDirectoryFrame path stack buf
  | .ls path stack => do let _ ← listDirectoryFrame path stack buf
  | c => c.routine

def performFrame (buf : Buffer) (c : Command) (s : FileSystem) : Option FileSystem :=
  (run (c.routineFrame buf) s).map Prod.snd

section Agreement

variable {src : Buffer} {a : Nat} {args : List Nat}

theorem frame_buf (low : k < bufSize) : copy frame dbAt src 0 blockSize k = frame k :=
  copy_outside (.inl low)

theorem terminated_frame (inside : Terminated frame a (bufSize - a)) :
    Terminated (copy frame dbAt src 0 blockSize) a (bufSize - a) :=
  inside.congr fun _ low => (frame_buf (by omega)).symm

theorem bufString_frame : bufString (copy frame dbAt src 0 blockSize) a = bufString frame a :=
  cstring_congr fun _ low => frame_buf (by omega)

theorem dirBlockRead_congr {ino : Word} (same : ∀ k, blockSize ≤ k → frame k = stack k) :
    dirBlockRead frame ino = dirBlockRead stack ino := by
  have equal : ∀ s : FileSystem, copy frame 0 s.disk (sdAddress ((ino + fsDataBase) * sectorSize))
      blockSize = copy stack 0 s.disk (sdAddress ((ino + fsDataBase) * sectorSize)) blockSize := by
    intro s
    funext k
    by_cases low : k < blockSize
    · rw [copy_start low, copy_start low]
    · rw [copy_outside (by omega), copy_outside (by omega), same k (by omega)]
  rw [dirBlockRead, dirBlockRead, sectorRead, sectorRead, doSdread, doSdread]
  exact congrArg read (funext equal)

theorem walkFrame_eq (inside : ∀ a ∈ args, Terminated frame a (bufSize - a))
    (same : ∀ k, blockSize ≤ k → frameDb frame k = stack k) :
    walkFrame frame args = walkPath stack (args.map (bufString frame)) := by
  induction args generalizing frame with
  | nil => rfl
  | cons a args ih =>
    rw [walkFrame, List.map_cons, walkPath]
    refine congrArg (curDirIno >>= ·) (funext fun ino => ?_)
    rw [dirBlockRead_congr same]
    refine congrArg (dirBlockRead stack ino >>= ·) (funext fun db => ?_)
    have here := inside a List.mem_cons_self
    have longer : bufSize - a ≤ frameSize - a := Nat.sub_le_sub_right (by decide) a
    have ends := @terminated_frame frame db a here
    have component : cstring (copy frame dbAt db 0 blockSize) a (frameSize - a) =
        bufString frame a := (cstring_longer ends longer).trans bufString_frame
    have short : (bufString frame a).length < bufSize - a := cstring_length.mpr here
    have inside' : ∀ e ∈ args, Terminated (copy frame dbAt db 0 blockSize) e (bufSize - e) :=
      fun e member => terminated_frame (inside e (List.mem_cons_of_mem a member))
    have same' : ∀ k, blockSize ≤ k → frameDb (copy frame dbAt db 0 blockSize) k = stack k := by
      intro k high
      rw [frameDb, copy_outside (by omega)]
      exact same k high
    have later := ih inside' same'
    have strings : args.map (bufString (copy frame dbAt db 0 blockSize)) =
        args.map (bufString frame) := List.map_congr_left fun _ _ => bufString_frame
    rw [strings] at later
    simp only [component, if_neg (Nat.not_le.mpr (Nat.lt_of_lt_of_le short longer)), later]

/-- Splitting a path that fits into `buf` does not touch `db`. -/
theorem decodePathFrame_eq (short : name.val.length < bufSize) :
    decodePathFrame name stack buf = decodePath name stack := by
  obtain ⟨_, frame, split, -, strings⟩ := splitPath_returns (frameOf buf stack) short
  have size : ¬frameSize ≤ name.val.length := by
    have : bufSize ≤ frameSize := by decide
    omega
  have result : splitRuns slash bufSize maxArgs bufSize
      (strcpy 0 name.val (frameOf buf stack)) 0 [] = some (frame, starts isSlash name.val) := by
    rwa [splitPath, if_neg (Nat.not_le.mpr short), splitOuter_eq] at split
  have whole := @splitRuns_wider slash bufSize maxArgs bufSize 0 _ [] frameSize frameSize
    (by decide) (by decide) _ result
  have inside : ∀ a ∈ starts isSlash name.val, Terminated frame a (bufSize - a) := by
    intro a member
    have fits := runAt_fits isSlash (Nat.le_of_lt (mem_starts isSlash member))
    have string := strings a member
    rw [bufString] at string
    rw [← cstring_length, string]
    omega
  have same : ∀ k, blockSize ≤ k → frameDb frame k = stack k := by
    intro k _
    have behind : bufSize ≤ dbAt + k := Nat.le_add_right bufSize k
    rw [frameDb, splitRuns_frame result behind, strcpy_outside (.inr (by omega)), frameOf,
      if_neg (by omega), Nat.add_sub_cancel_left]
  rw [← decodePathBuf_eq stack (frameOf buf stack) short, decodePathBuf, split, decodePathFrame,
    if_neg size, whole]
  simp only [walkFrame_eq inside same]

end Agreement

theorem performFrame_eq (bounds : InBounds s c) : performFrame buf c s = perform c s := by
  rw [performFrame, perform]
  cases c with
  | cd path stack =>
    obtain ⟨name, rfl, short⟩ := bounds
    have decoded := @decodePathFrame_eq buf stack name short
    rw [Command.routineFrame, Command.routine, changeDirectoryFrame, decoded, changeDirectory]
  | ls path stack =>
    obtain ⟨name, rfl, short⟩ := bounds
    have decoded := @decodePathFrame_eq buf stack name short
    rw [Command.routineFrame, Command.routine, listDirectoryFrame, decoded, listDirectory]
  | _ => rfl

section Padded

variable {w : List Byte} {n : Nat}

/-- Slashes as far as the name of the first entry in `db`, and a name. -/
def padded (w : List Byte) : List Byte := List.replicate (dbAt + dentryName 0) slash ++ w

theorem starts_slashes (filled : w ≠ []) (others : ∀ c ∈ w, c ≠ slash) :
    starts isSlash (padded w) = [dbAt + dentryName 0] := by
  have separates : isSlash slash = true := by decide
  rw [padded, starts_padded isSlash separates, starts_whole isSlash filled]
  · rfl
  · intro c member
    simpa [isSlash] using others c member

/-- What has been read replaces what lies in `db`. -/
theorem cstring_db {db : Buffer} (named : Terminated db n 24)
    (room : n + 24 ≤ blockSize) :
    cstring (copy frame dbAt db 0 blockSize) (dbAt + n) (frameSize - (dbAt + n)) =
      cstring db n 24 := by
  have same : cstring (copy frame dbAt db 0 blockSize) (dbAt + n) (frameSize - (dbAt + n)) =
      cstring db n (blockSize - n) := by
    rw [frameSize, Nat.add_sub_add_left]
    apply cstring_congr
    intro k low
    rw [Nat.add_assoc, copy_inside (by omega), Nat.zero_add]
  rw [same, cstring_longer named (by omega)]

/-- A component that lies over the name of the first entry in `db` is read as `.`. -/
theorem run_walkFrame_db (sound : Sound s.disk) (here : Holds s.disk s.curDir p) :
    ∃ b, run (walkFrame frame [dbAt + dentryName 0]) s = some (1, { s with curDir := b }) ∧
      Holds s.disk b p := by
  obtain ⟨f, located, isDir, cur⟩ := here.ino sound
  obtain ⟨g, above, _⟩ := locate_tail located
  have self := (sound.dots located isDir above).self
  have named : Terminated (copy (frameDb frame) 0 s.disk (blockAddress f.ino) blockSize)
      (dentryName 0) 24 := named_read (sound.named located isDir (by decide) self) (by decide)
  rw [← entry_read (frameDb frame) (by decide)] at self
  have component := @cstring_db frame _ _ named (by decide)
  rw [(entry_some self).2.2] at component
  have round := scan_follow (frameDb frame) sound located isDir dot.property rfl
  have follows : followNode s.disk p dot.val = some p := by rw [followNode, follow, if_pos rfl]
  rcases round with ⟨lost, -⟩ | ⟨q, e, next, there, -, found, ino⟩
  · cases lost.symm.trans follows
  · cases next.symm.trans follows
    cases there.symm.trans located
    rw [walkFrame, run_then run_curDirIno, cur, run_then run_dirBlockRead]
    simp only [component]
    rw [if_neg (by decide), if_neg (Nat.ne_of_lt found), ino,
      run_then (run_inodeRead (sound.small located))]
    exact ⟨_, rfl, holds_read located isDir⟩

variable (intact : Intact s) (path : name.val = padded w) (filled : w ≠ [])
  (others : ∀ c ∈ w, c ≠ slash) (fits : name.val.length < frameSize)

include intact path filled others fits

/-- Such a path leads to the root, whatever it names. -/
theorem run_decodePathFrame_padded :
    ∃ b, run (decodePathFrame name stack buf) s = some (1, { s with curDir := b }) ∧
      Holds s.disk b [] := by
  obtain ⟨cwd, f, located, isDir, shell⟩ := intact.cwd
  have places : starts (isSep slash) name.val = [dbAt + dentryName 0] := by
    rw [path]
    exact starts_slashes filled others
  have few : ([] : List Nat).length + (runs (isSep slash) name.val).length ≤ maxArgs := by
    rw [runs, List.length_map, places]
    decide
  have copied : Reads (strcpy 0 name.val (frameOf buf stack)) 0 name.val :=
    strcpy_reads name.property
  have inside : 0 + name.val.length < frameSize := by rwa [Nat.zero_add]
  obtain ⟨frame, result, first, -⟩ := @splitRuns_returns slash frameSize maxArgs frameSize 0 _ []
    name.val copied inside fits few
  rw [places] at result
  have root : name.val.head? = some slash := by rw [path]; rfl
  have start := initCurDir_first name.val (frameOf buf stack)
  rw [← first 0 (Nat.le_refl 0)] at start
  obtain ⟨b, init, holds⟩ :=
    run_initCurDir name.val intact.sound intact.rootIno located isDir shell
  rw [startOf, if_pos root] at holds
  have long : ¬name.val.length = 0 := by
    intro empty
    rw [List.eq_nil_of_length_eq_zero empty] at root
    cases root
  obtain ⟨e, walked, ends⟩ :=
    @run_walkFrame_db { s with curDir := b } frame [] intact.sound holds
  refine ⟨e, ?_, ends⟩
  rw [decodePathFrame, if_neg (Nat.not_le.mpr fits), result]
  simp only [start]
  rw [run_then init, if_neg (by decide), if_neg long]
  exact walked

theorem performFrame_padded :
    ∃ s', performFrame buf (.cd (some name) stack) s = some s' ∧ Moved s [] s' := by
  obtain ⟨b, decoded, holds⟩ :=
    @run_decodePathFrame_padded s buf stack name w intact path filled others fits
  obtain ⟨g, top, isDir, number⟩ := holds.ino intact.sound
  have read : Holds s.disk (copy s.shellPathInode 0 s.disk (tableAddress g.ino) inodeSize) [] :=
    holds_read top isDir
  refine ⟨{ s with
    curDir := b
    shellPathInode := copy s.shellPathInode 0 s.disk (tableAddress g.ino) inodeSize
    shellPathHead := strcpy 0 (cstring (copy s.shellPathInode 0 s.disk (tableAddress g.ino)
      inodeSize) 0 inodeSize) s.shellPathHead }, ?_, rfl, rfl, rfl, read⟩
  rw [performFrame, Command.routineFrame, changeDirectoryFrame, run_then decoded,
    if_neg (by decide), run_then run_curDirIno, number,
    run_then (run_inodeRead (intact.sound.small top))]
  rfl

end Padded

end Tina.Files
