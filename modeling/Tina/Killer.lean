import Tina.Decode
import Tina.Victims
import Mathlib.Algebra.Ring.Int.Defs
import Mathlib.Tactic.Ring

/-! The `kill` command of the shell: which processes its arguments reach. Characters are signed,
and `atoi` takes every character for a digit. -/
namespace Tina.Console

open ByteBuffer Transition

def plus : Byte := 0x2b
def minus : Byte := 0x2d

/-- The sign, and what follows it. -/
def signed : List Byte → Int × List Byte
  | [] => (1, [])
  | c :: text =>
    if c = minus then (-1, text) else if c = plus then (1, text) else (1, c :: text)

def digitOf (c : Byte) : Int := c.toInt - 0x30

def atoi (s : List Byte) : Int :=
  let (sign, text) := signed s
  int32 (sign * text.foldl (fun n c => int32 (10 * n + digitOf c)) 0)

/-- The loop of `mini_itoa`, from the last digit to the first. No `int` has more than ten. -/
def itoaLoop : Nat → Nat → List Byte
  | 0, _ => []
  | rounds + 1, value => BitVec.ofNat 8 (0x30 + value % 10) ::
    if 0 < value / 10 then itoaLoop rounds (value / 10) else []

/-- What `%d` prints. -/
def miniItoa (value : Int) : List Byte :=
  (itoaLoop 10 value.natAbs ++ if value < 0 then [minus] else []).reverse

def killer (argv : List (List Byte)) (k : Kernel) : Kernel :=
  match request argv with
  | .usage => k
  | .all => (List.finRange numMaxTask).tail.foldl (fun k i => kill (k.pcb i).pid k) k
  | .each arguments => arguments.foldl (fun k argument =>
      let i := atoi argument
      if i < 16 ∧ 0 ≤ i then kill i k else k) k

/-! Numerals. -/

/-- The digits in base ten, whatever characters they are. -/
def numeral : List Byte → Int
  | [] => 0
  | c :: text => digitOf c * 10 ^ text.length + numeral text

/-- The number that a text makes in base ten. -/
def number (text : List Byte) : Int := (signed text).1 * numeral (signed text).2

variable {c : Byte} {text : List Byte} {n rounds : Nat} {x y value : Int}

theorem int32_mul : int32 (x * int32 y) = int32 (x * y) := Int.mul_bmod_bmod ..

theorem horner (x : Int) (text : List Byte) :
    text.foldl (fun n c => int32 (10 * n + digitOf c)) (int32 x) =
      int32 (x * 10 ^ text.length + numeral text) := by
  induction text generalizing x with
  | nil => rw [numeral, List.length_nil, Int.pow_zero, Int.mul_one, Int.add_zero]; rfl
  | cons c text ih =>
    have step : int32 (10 * int32 x + digitOf c) = int32 (10 * x + digitOf c) := by
      rw [← int32_add, int32_mul, int32_add]
    rw [List.foldl_cons, step, ih, numeral, List.length_cons]
    congr 1
    ring

/-- The accumulator is not checked, so the number is reduced to 32 bits. -/
theorem atoi_eq (text : List Byte) : atoi text = int32 (number text) := by
  have zero : (0 : Int) = int32 0 := by decide
  have value := horner 0 (signed text).2
  rw [← zero, Int.zero_mul, Int.zero_add] at value
  rw [atoi, number, ← int32_mul, ← value]

theorem numeral_append (text : List Byte) (c : Byte) :
    numeral (text ++ [c]) = 10 * numeral text + digitOf c := by
  induction text with
  | nil => simp [numeral]
  | cons d text ih =>
    rw [List.cons_append, numeral, ih, numeral, List.length_append, List.length_singleton]
    ring

theorem digitOf_digit (small : n < 10) : digitOf (BitVec.ofNat 8 (0x30 + n)) = n := by
  rw [digitOf, BitVec.toInt_eq_toNat_of_lt]
  · rw [BitVec.toNat_ofNat]
    omega
  · rw [BitVec.toNat_ofNat]
    omega

theorem numeral_itoaLoop (rounds n : Nat) (enough : n < 10 ^ rounds) :
    numeral (itoaLoop rounds n).reverse = if rounds = 0 then 0 else (n : Int) := by
  induction rounds generalizing n with
  | zero => rfl
  | succ rounds ih =>
    rw [itoaLoop, List.reverse_cons, numeral_append, digitOf_digit (Nat.mod_lt _ (by decide)),
      if_neg (Nat.succ_ne_zero rounds)]
    by_cases more : 0 < n / 10
    · have some : rounds ≠ 0 := by
        rintro rfl
        omega
      rw [if_pos more, ih _ (by rw [Nat.pow_succ] at enough; omega), if_neg some]
      omega
    · rw [if_neg more]
      simp only [List.reverse_nil, numeral]
      omega

/-! What a text means that `mini_itoa` wrote. -/

def Numeral (text : List Byte) : Prop := ∀ c ∈ text, ∃ n < 10, c = BitVec.ofNat 8 (0x30 + n)

theorem itoaLoop_digits (rounds n : Nat) : Numeral (itoaLoop rounds n) := by
  induction rounds generalizing n with
  | zero => exact fun c member => absurd member List.not_mem_nil
  | succ rounds ih =>
    intro c member
    rw [itoaLoop, List.mem_cons] at member
    rcases member with rfl | rest
    · exact ⟨n % 10, Nat.mod_lt n (by decide), rfl⟩
    · split at rest
      · exact ih (n / 10) c rest
      · exact absurd rest List.not_mem_nil

theorem signed_digits (digits : Numeral text) : signed text = (1, text) := by
  cases text with
  | nil => rfl
  | cons c text =>
    obtain ⟨n, small, rfl⟩ := digits c List.mem_cons_self
    have value : (BitVec.ofNat 8 (0x30 + n)).toNat = 0x30 + n := by
      rw [BitVec.toNat_ofNat]
      omega
    have notMinus : BitVec.ofNat 8 (0x30 + n) ≠ minus := by
      intro same
      rw [same] at value
      simp [minus] at value
      omega
    have notPlus : BitVec.ofNat 8 (0x30 + n) ≠ plus := by
      intro same
      rw [same] at value
      simp [plus] at value
      omega
    rw [signed, if_neg notMinus, if_neg notPlus]

theorem number_miniItoa (small : value.natAbs < 10 ^ 10) : number (miniItoa value) = value := by
  have digits : Numeral (itoaLoop 10 value.natAbs).reverse :=
    fun c member => itoaLoop_digits 10 value.natAbs c (List.mem_reverse.mp member)
  have magnitude := numeral_itoaLoop 10 value.natAbs small
  rw [if_neg (by decide)] at magnitude
  rw [miniItoa, List.reverse_append, number]
  by_cases negative : value < 0
  · rw [if_pos negative, List.reverse_singleton, List.singleton_append, signed, if_pos rfl,
      magnitude]
    omega
  · rw [if_neg negative, List.reverse_nil, List.nil_append, signed_digits digits, magnitude]
    omega

/-! Killing several processes, one after the other. -/

def killEach (ids : List Int) (k : Kernel) : Kernel := ids.foldl (fun k id => kill id k) k

/-- The live processes with a number. -/
def alive (id : Int) (k : Kernel) : List Slot :=
  (List.finRange numMaxTask).filter fun i => (k.pcb i).pid == id && (k.pcb i).status != .exited

variable {k : Kernel} {p i : Slot} {id a : Int} {ids : List Int}

theorem mem_alive : p ∈ alive id k ↔ (k.pcb p).pid = id ∧ (k.pcb p).status ≠ .exited := by
  simp [alive]

theorem alive_nodup : (alive id k).Nodup := (List.nodup_finRange numMaxTask).filter _

theorem lookup_alive : lookup id k = (alive id k).head? := List.head?_filter.symm

theorem kill_pcb : ((kill id k).pcb p).pid = (k.pcb p).pid ∧
    (((kill id k).pcb p).status = .exited ↔
      (k.pcb p).status = .exited ∨ lookup id k = some p) := by
  cases found : lookup id k with
  | none => simp [kill, found]
  | some i =>
    have condemned : (kill id k).pcb = (condemn i k).pcb := by
      rw [kill_eq found]
      split
      · rfl
      · rfl
    rw [condemned, condemn_status]
    refine ⟨?_, ?_⟩
    · by_cases same : p = i <;> simp [condemn, Kernel.setPcb, Kernel.record, same]
    · by_cases same : p = i
      · simp [same]
      · simp [same, Ne.symm same]

/-- The first process with the number dies. -/
theorem alive_kill : alive id (kill a k) =
    if a = id then (alive id k).tail else alive id k := by
  have left : alive id (kill a k) = (alive id k).filter fun i => decide (lookup a k ≠ some i) := by
    rw [alive, alive, List.filter_filter]
    refine List.filter_congr fun i _ => ?_
    rw [kill_pcb.1, Bool.eq_iff_iff]
    simp [kill_pcb.2]
    tauto
  rw [left]
  split
  next same =>
    subst same
    have nodup : (alive a k).Nodup := alive_nodup
    rw [lookup_alive]
    cases first : alive a k with
    | nil => rfl
    | cons i rest =>
      rw [first, List.nodup_cons] at nodup
      rw [List.filter_cons_of_neg (by simp), List.tail_cons, List.filter_eq_self]
      rintro j member
      have other : i ≠ j := by
        rintro rfl
        exact nodup.1 member
      simpa using other
  next other =>
    rw [List.filter_eq_self]
    intro i member
    have pid := (mem_alive.mp member).1
    rw [decide_eq_true_iff]
    intro found
    exact other ((lookup_live found).1.symm.trans pid)

theorem alive_killEach (ids : List Int) (k : Kernel) :
    alive id (killEach ids k) = (alive id k).drop (ids.count id) := by
  induction ids generalizing k with
  | nil => rfl
  | cons a ids ih =>
    have next := ih (kill a k)
    rw [alive_kill] at next
    change alive id (killEach ids (kill a k)) = _
    rw [next, List.count_cons]
    by_cases same : a = id
    · simp [same]
    · simp [same]

theorem killEach_pid (ids : List Int) (k : Kernel) :
    ((killEach ids k).pcb p).pid = (k.pcb p).pid := by
  induction ids generalizing k with
  | nil => rfl
  | cons a ids ih => exact (ih (kill a k)).trans kill_pcb.1

/-- Of the live processes with a number, as many die as there are calls with it. -/
theorem killEach_exited (live : (k.pcb p).status ≠ .exited) :
    ((killEach ids k).pcb p).status = .exited ↔
      p ∈ (alive (k.pcb p).pid k).take (ids.count (k.pcb p).pid) := by
  have before : p ∈ alive (k.pcb p).pid k := mem_alive.mpr ⟨rfl, live⟩
  have after : p ∈ alive (k.pcb p).pid (killEach ids k) ↔
      ((killEach ids k).pcb p).status ≠ .exited := by
    rw [mem_alive, killEach_pid]
    exact and_iff_right rfl
  have nodup : (alive (k.pcb p).pid k).Nodup := alive_nodup
  rw [alive_killEach] at after
  rw [← List.take_append_drop (ids.count (k.pcb p).pid) (alive (k.pcb p).pid k)] at before nodup
  have apart := List.disjoint_of_nodup_append nodup
  rw [List.mem_append] at before
  constructor
  · intro exited
    exact before.resolve_right fun rest => after.mp rest exited
  · intro first
    by_contra survives
    exact apart first (after.mpr survives)

/-- The first process with the number of a live one is the first to die. -/
theorem first_alive {n : Nat} (live : (k.pcb p).status ≠ .exited) (some : 0 < n) :
    ∃ i ∈ (alive (k.pcb p).pid k).take n,
      (k.pcb i).pid = (k.pcb p).pid ∧ (k.pcb i).status ≠ .exited := by
  have member : p ∈ alive (k.pcb p).pid k := mem_alive.mpr ⟨rfl, live⟩
  obtain ⟨i, rest, found⟩ := List.exists_cons_of_ne_nil (List.ne_nil_of_mem member)
  have first : i ∈ alive (k.pcb p).pid k := found ▸ List.mem_cons_self
  obtain ⟨n, rfl⟩ := Nat.exists_eq_succ_of_ne_zero some.ne'
  rw [found, List.take_succ_cons]
  exact ⟨i, List.mem_cons_self, mem_alive.mp first⟩

/-! The command. -/

def all : List Byte := ascii ['a', 'l', 'l']

/-- The numbers that `kill all` kills by. -/
def everyone (k : Kernel) : List Int := (List.finRange numMaxTask).tail.map fun i => (k.pcb i).pid

variable {args : List (List Byte)}

/-- `kill all` looks the numbers up while it kills, but they stay. -/
theorem killEach_slots (slots : List Slot) (k : Kernel) :
    slots.foldl (fun k i => kill (k.pcb i).pid k) k =
      killEach (slots.map fun i => (k.pcb i).pid) k := by
  induction slots generalizing k with
  | nil => rfl
  | cons i slots ih =>
    have same : (slots.map fun j => ((kill (k.pcb i).pid k).pcb j).pid) =
        slots.map fun j => (k.pcb j).pid := List.map_congr_left fun _ _ => kill_pcb.1
    rw [List.foldl_cons, ih, same]
    rfl

theorem killEach_arguments (args : List (List Byte)) (k : Kernel) :
    args.foldl (fun k argument =>
      let i := atoi argument
      if i < 16 ∧ 0 ≤ i then kill i k else k) k =
      killEach ((args.map atoi).filter fun i => i < 16 ∧ 0 ≤ i) k := by
  induction args generalizing k with
  | nil => rfl
  | cons argument args ih =>
    rw [List.foldl_cons, ih, List.map_cons]
    by_cases passes : atoi argument < 16 ∧ 0 ≤ atoi argument
    · rw [List.filter_cons_of_pos (by simpa using passes)]
      simp only [if_pos passes]
      rfl
    · rw [List.filter_cons_of_neg (by simpa using passes)]
      simp only [if_neg passes]

theorem count_passing (args : List (List Byte)) (id : Int) :
    ((args.map atoi).filter fun i => i < 16 ∧ 0 ≤ i).count id =
      if id < 16 ∧ 0 ≤ id then args.countP fun text => int32 (number text) = id else 0 := by
  rw [List.count, List.countP_filter, List.countP_map]
  split
  next passes =>
    refine List.countP_congr fun text _ => ?_
    simp only [Function.comp_apply, atoi_eq, Bool.and_eq_true, beq_iff_eq, decide_eq_true_eq]
    constructor
    · exact And.left
    · rintro rfl
      exact ⟨rfl, passes⟩
  next fails =>
    rw [List.countP_eq_zero]
    intro text _ counted
    simp only [Function.comp_apply, Bool.and_eq_true, beq_iff_eq, decide_eq_true_eq] at counted
    rw [counted.1] at counted
    exact fails counted.2

theorem killer_all (all : args.head? = some all) :
    killer (Command.kill.name :: args) k = killEach (everyone k) k := by
  obtain ⟨args, rfl⟩ := List.head?_eq_some_iff.mp all
  exact killEach_slots (List.finRange numMaxTask).tail k

theorem killer_each (plain : args.head? ≠ some all) : killer (Command.kill.name :: args) k =
    killEach ((args.map atoi).filter fun i => i < 16 ∧ 0 ≤ i) k := by
  cases args with
  | nil => rfl
  | cons first args =>
    have other : first ≠ all := by simpa using plain
    have requested : request (Command.kill.name :: first :: args) = .each (first :: args) :=
      if_neg other
    rw [killer, requested]
    exact killEach_arguments (first :: args) k

/-- The processes that the arguments list are killed, and no others. -/
def KillsListed (k : Kernel) (args : List (List Byte)) : Prop :=
  ∀ p, (k.pcb p).status ≠ .exited →
    (((killer (Command.kill.name :: args) k).pcb p).status = .exited ↔
      miniItoa (k.pcb p).pid ∈ args)

/-- Every live process with a listed number has one below 16, and comes early enough among those
with its number. An argument that stands for the number of a live process is how `ps` prints
it. -/
structure Listing (k : Kernel) (args : List (List Byte)) : Prop where
  small : ∀ p, (k.pcb p).status ≠ .exited → miniItoa (k.pcb p).pid ∈ args →
    0 ≤ (k.pcb p).pid ∧ (k.pcb p).pid < 16
  early : ∀ p, (k.pcb p).status ≠ .exited → miniItoa (k.pcb p).pid ∈ args →
    p ∈ (alive (k.pcb p).pid k).take
      (args.countP fun text => int32 (number text) = (k.pcb p).pid)
  printed : ∀ p, (k.pcb p).status ≠ .exited → 0 ≤ (k.pcb p).pid → (k.pcb p).pid < 16 →
    ∀ text ∈ args, int32 (number text) = (k.pcb p).pid → miniItoa (k.pcb p).pid ∈ args

theorem kill_command_iff (k : Kernel) (args : List (List Byte)) : KillsListed k args ↔
    if args.head? = some all then ∀ p, (k.pcb p).status ≠ .exited →
      (p ∈ (alive (k.pcb p).pid k).take ((everyone k).count (k.pcb p).pid) ↔
        miniItoa (k.pcb p).pid ∈ args)
    else Listing k args := by
  split
  next all =>
    refine forall_congr' fun p => forall_congr' fun live => ?_
    rw [killer_all all, killEach_exited live]
  next plain =>
    have dies : ∀ p, (k.pcb p).status ≠ .exited →
        (((killer (Command.kill.name :: args) k).pcb p).status = .exited ↔
          p ∈ (alive (k.pcb p).pid k).take (if (k.pcb p).pid < 16 ∧ 0 ≤ (k.pcb p).pid then
            args.countP fun text => int32 (number text) = (k.pcb p).pid else 0)) := by
      intro p live
      rw [killer_each plain, killEach_exited live, count_passing]
    constructor
    · intro kills
      have killed : ∀ p, (k.pcb p).status ≠ .exited → miniItoa (k.pcb p).pid ∈ args →
          ((k.pcb p).pid < 16 ∧ 0 ≤ (k.pcb p).pid) ∧ p ∈ (alive (k.pcb p).pid k).take
            (args.countP fun text => int32 (number text) = (k.pcb p).pid) := by
        intro p live listed
        have early := (dies p live).mp ((kills p live).mpr listed)
        split at early
        next small => exact ⟨small, early⟩
        next => exact absurd early List.not_mem_nil
      refine ⟨?_, ?_, ?_⟩
      · intro p live listed
        exact (killed p live listed).1.symm
      · intro p live listed
        exact (killed p live listed).2
      · intro p live positive small text member reads
        have counted : 0 < args.countP fun text => int32 (number text) = (k.pcb p).pid :=
          List.countP_pos_iff.mpr ⟨text, member, by simpa using reads⟩
        obtain ⟨i, first, pid, alive⟩ := first_alive live counted
        rw [← pid]
        refine (kills i alive).mp ((dies i alive).mpr ?_)
        rw [pid, if_pos ⟨small, positive⟩]
        exact first
    · intro listing p live
      rw [dies p live]
      constructor
      · intro early
        split at early
        next small =>
          have counted : 0 < args.countP fun text => int32 (number text) = (k.pcb p).pid := by
            by_contra none
            rw [Nat.eq_zero_of_not_pos none] at early
            exact absurd early List.not_mem_nil
          obtain ⟨text, member, reads⟩ := List.countP_pos_iff.mp counted
          exact listing.printed p live small.2 small.1 text member (by simpa using reads)
        next => exact absurd early List.not_mem_nil
      · intro listed
        obtain ⟨positive, small⟩ := listing.small p live listed
        rw [if_pos ⟨small, positive⟩]
        exact listing.early p live listed

/-- Where no two live processes share a number, a number below 16 is killed when it is listed. -/
theorem Listing.of_distinct (distinct : Distinct k) : Listing k args ↔
    (∀ p, (k.pcb p).status ≠ .exited → miniItoa (k.pcb p).pid ∈ args →
      0 ≤ (k.pcb p).pid ∧ (k.pcb p).pid < 16) ∧
    ∀ p, (k.pcb p).status ≠ .exited → 0 ≤ (k.pcb p).pid → (k.pcb p).pid < 16 →
      ∀ text ∈ args, int32 (number text) = (k.pcb p).pid → miniItoa (k.pcb p).pid ∈ args := by
  constructor
  · intro listing
    exact ⟨listing.small, listing.printed⟩
  · rintro ⟨small, printed⟩
    refine ⟨small, ?_, printed⟩
    intro p live listed
    obtain ⟨positive, bound⟩ := small p live listed
    have reads : int32 (number (miniItoa (k.pcb p).pid)) = (k.pcb p).pid := by
      rw [number_miniItoa (by omega)]
      exact int32_of_lt (by omega) (by omega)
    have counted : 0 < args.countP fun text => int32 (number text) = (k.pcb p).pid :=
      List.countP_pos_iff.mpr ⟨_, listed, by simpa using reads⟩
    obtain ⟨i, first, pid, alive⟩ := first_alive live counted
    obtain rfl := distinct i p alive live pid
    exact first

theorem kill_reachable {shell : TaskInfo} (reach : Reachable Step Mortal (initPcb shell) k)
    (plain : args.head? ≠ some all) : KillsListed k args ↔
    (∀ p, (k.pcb p).status ≠ .exited → miniItoa (k.pcb p).pid ∈ args →
      0 ≤ (k.pcb p).pid ∧ (k.pcb p).pid < 16) ∧
    ∀ p, (k.pcb p).status ≠ .exited → 0 ≤ (k.pcb p).pid → (k.pcb p).pid < 16 →
      ∀ text ∈ args, int32 (number text) = (k.pcb p).pid → miniItoa (k.pcb p).pid ∈ args := by
  obtain ⟨_, _, distinct⟩ := reachable_distinct reach
  rw [kill_command_iff, if_neg plain, Listing.of_distinct distinct]

/-- The last of fifteen processes has number 16. -/
theorem kill_misses : ∃ k, Reachable Step Mortal (initPcb someTask) k ∧
    (k.pcb 15).pid = 16 ∧ (k.pcb 15).status ≠ .exited ∧ ¬KillsListed k [ascii ['1', '6']] := by
  obtain ⟨k, reach, pid, live, survives⟩ := runAllowed_found Mortal 8 300
    (List.replicate 15 (.call (.spawn someTask))) (initPcb someTask)
    (fun k => (k.pcb 15).pid = 16 ∧ (k.pcb 15).status ≠ .exited ∧
      ((killer [Command.kill.name, ascii ['1', '6']] k).pcb 15).status ≠ .exited) (by decide)
  refine ⟨k, reach, pid, live, fun kills => survives ((kills 15 live).mpr ?_)⟩
  rw [pid]
  decide

end Tina.Console
