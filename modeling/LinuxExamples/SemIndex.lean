import LinuxExamples.Bytes
import LinuxExamples.Ctype
import LinuxExamples.SysvSemaphore

namespace LinuxExamples.SemIndex

open Bytes Ctype SysvSemaphore

/-- The value of a string of digits. -/
def decimal (s : List UInt8) : Nat := s.foldl (fun n c => 10 * n + (c.toNat - 48)) 0

def PLUS : UInt8 := 43

def MINUS : UInt8 := 45

/-- The value of the leading decimal number behind white space, and 0 when there is none. -/
def atoi (s : List UInt8) : Int :=
  match s.dropWhile isspace with
  | [] => 0
  | c :: s =>
    if c = MINUS then -decimal (s.takeWhile isdigit)
    else if c = PLUS then decimal (s.takeWhile isdigit)
    else decimal ((c :: s).takeWhile isdigit)

example : atoi (ascii [' ', '-', '1', '2', 'x']) = -12 := by decide

/-- The commands that take a `SEM_IDX`. -/
inductive Op where
  | get | release | wait0
  deriving DecidableEq

def Op.name : Op → List UInt8
  | .get => ascii ['g', 'e', 't']
  | .release => ascii ['r', 'e', 'l', 'e', 'a', 's', 'e']
  | .wait0 => ascii ['w', 'a', 'i', 't', '0']

def Op.command : Op → Int → Command
  | .get => .get
  | .release => .release
  | .wait0 => .wait0

/-- What `sysv_main` makes of its arguments behind `sysv`; without a command it prints the help. -/
def command : List (List UInt8) → Option Command
  | [] => none
  | name :: args =>
    if name = ascii ['i', 'n', 'i', 't'] then some .init
    else if name = ascii ['s', 'h', 'o', 'w'] then some .showAll
    else if name = Op.name .get then args.head?.map fun s => .get (atoi s)
    else if name = Op.name .release then args.head?.map fun s => .release (atoi s)
    else if name = Op.name .wait0 then args.head?.map fun s => .wait0 (atoi s)
    else none

theorem command_op (op : Op) (s : List UInt8) (args : List (List UInt8)) :
    command (op.name :: s :: args) = some (op.command (atoi s)) := by
  cases op <;> rfl

/-- A call that blocks or fails has no effect. -/
def effect (val : Values) (c : Call) : Values :=
  match kernel val c with
  | .granted val' => val'
  | .blocks | .fails => val

/-- The values after a command line. -/
def execute (val : Values) (args : List (List UInt8)) : Values :=
  match command args with
  | some c => (sysvMain c).foldl effect val
  | none => val

/-- The string as a whole is a decimal number, with a sign or without. -/
inductive Denotes : List UInt8 → Int → Prop
  | unsigned {ds} : ds ≠ [] → (∀ c ∈ ds, isdigit c) → Denotes ds (decimal ds)
  | plus {ds} : ds ≠ [] → (∀ c ∈ ds, isdigit c) → Denotes (PLUS :: ds) (decimal ds)
  | minus {ds} : ds ≠ [] → (∀ c ∈ ds, isdigit c) → Denotes (MINUS :: ds) (-decimal ds)

/-- An argument whose leading number is an `int`. -/
structure SemIdx where
  bytes : List UInt8
  inRange : -2 ^ 31 ≤ atoi bytes ∧ atoi bytes < 2 ^ 31

/-- The string names one of the semaphores. -/
def Names (s : List UInt8) (n : Nat) : Prop := n < SEM_NUM ∧ Denotes s n

/-- Only the semaphore that the string names may have changed, and none if it names none. -/
structure Framed (s : List UInt8) (val val' : Values) : Prop where
  named : ∀ n, Names s n → ∀ k < SEM_NUM, k ≠ n → val' k = val k
  unnamed : (∀ n, ¬ Names s n) → ∀ k < SEM_NUM, val' k = val k

theorem takeWhile_digits {ds : List UInt8} (h : ∀ c ∈ ds, isdigit c) : ds.takeWhile isdigit = ds :=
  List.takeWhile_eq_self_iff.mpr h

theorem isdigit_cases {c : UInt8} (h : isdigit c) :
    isspace c = false ∧ c ≠ MINUS ∧ c ≠ PLUS := by
  refine ⟨isspace_of_isdigit h, ?_, ?_⟩ <;> rintro rfl <;> exact absurd h (by decide)

theorem atoi_denotes {s : List UInt8} {i : Int} (h : Denotes s i) : atoi s = i := by
  cases h with
  | @unsigned ds hne hall =>
    obtain ⟨c, ds, rfl⟩ := List.exists_cons_of_ne_nil hne
    obtain ⟨hsp, hm, hp⟩ := isdigit_cases (hall c List.mem_cons_self)
    simp only [atoi, List.dropWhile_cons, hsp, hm, hp, takeWhile_digits hall, ↓reduceIte,
      Bool.false_eq_true]
  | @plus ds hne hall =>
    have hsp : isspace PLUS = false := by decide
    have hm : PLUS ≠ MINUS := by decide
    simp only [atoi, List.dropWhile_cons, hsp, hm, takeWhile_digits hall, ↓reduceIte,
      Bool.false_eq_true]
  | @minus ds hne hall =>
    have hsp : isspace MINUS = false := by decide
    simp only [atoi, List.dropWhile_cons, hsp, takeWhile_digits hall, ↓reduceIte,
      Bool.false_eq_true]

theorem semNum_names {s : List UInt8} {n : Nat} (h : Names s n) : semNum (atoi s) = n := by
  have hlt := h.1
  rw [atoi_denotes h.2, semNum]
  simp only [SEM_NUM] at hlt
  omega

/-- The command changes nothing whatever its string is: it waits for 0, its index is
outside of the set, or the semaphore has no permit left to get or no room for one more. -/
def Quiet (val : Values) (op : Op) (n : Nat) : Prop :=
  op = .wait0 ∨ SEM_NUM ≤ n ∨ op = .get ∧ val n = 0 ∨ op = .release ∧ val n = SEMVMX

section Execute

variable {val : Values} {op : Op} {s : List UInt8}

theorem effect_outside {n : Nat} {semOp : Int} (h : SEM_NUM ≤ n) :
    effect val (.semop n semOp) = val := by
  rw [effect, kernel, if_neg (Nat.not_lt.mpr h)]

/-- A command makes one operation on the converted index. -/
theorem execute_op : execute val [op.name, s] = effect val (.semop (semNum (atoi s)) (match op with
    | .get => SEM_SYSV_GET
    | .release => SEM_SYSV_RELEASE
    | .wait0 => SEM_SYSV_WAIT)) := by
  rw [execute, command_op]
  cases op <;> rfl

theorem execute_quiet (h : Quiet val op (semNum (atoi s))) : execute val [op.name, s] = val := by
  obtain hout | hin := le_or_gt SEM_NUM (semNum (atoi s))
  · rw [execute_op, effect_outside hout]
  · rw [execute_op, effect]
    cases op with
    | get =>
      have hz : ¬ 0 < val (semNum (atoi s)) := by
        simpa [Quiet, Nat.not_le.mpr hin] using h
      rw [kernel_get hin, if_neg hz]
    | release =>
      have hfull : ¬ val (semNum (atoi s)) < SEMVMX := by
        have hval : val (semNum (atoi s)) = SEMVMX := by simpa [Quiet, Nat.not_le.mpr hin] using h
        exact hval.not_lt
      rw [kernel_release hin, dif_neg hfull]
    | wait0 =>
      rw [kernel_wait hin]
      split
      · rename_i heq
        split at heq
        · exact (Outcome.granted.inj heq).symm
        · cases heq
      · rfl
      · rfl

theorem execute_moves (h : ¬ Quiet val op (semNum (atoi s))) :
    ∃ v hv, v ≠ val (semNum (atoi s)) ∧
      execute val [op.name, s] = val.set (semNum (atoi s)) v hv := by
  simp only [Quiet, not_or, not_and, Nat.not_le] at h
  obtain ⟨hop, hin, hzero, hfull⟩ := h
  rw [execute_op, effect]
  cases op with
  | get =>
    have hfree := Nat.pos_of_ne_zero (hzero rfl)
    rw [kernel_get hin, if_pos hfree]
    exact ⟨_, _, (Nat.sub_lt hfree Nat.one_pos).ne, rfl⟩
  | release =>
    have hroom := lt_of_le_of_ne (val.le _) (hfull rfl)
    rw [kernel_release hin, dif_pos hroom]
    exact ⟨_, _, Nat.succ_ne_self _, rfl⟩
  | wait0 => exact absurd rfl hop

end Execute

/-- A command touches only what was named when its string names a semaphore, or when it
changes nothing at all. -/
theorem framed_iff (val : Values) (op : Op) (s : SemIdx) :
    Framed s.bytes val (execute val [op.name, s.bytes]) ↔
      (∃ n, Names s.bytes n) ∨ op = .wait0 ∨ SEM_NUM ≤ semNum (atoi s.bytes) ∨
        op = .get ∧ val (semNum (atoi s.bytes)) = 0 ∨
        op = .release ∧ val (semNum (atoi s.bytes)) = SEMVMX := by
  change _ ↔ _ ∨ Quiet val op (semNum (atoi s.bytes))
  by_cases hq : Quiet val op (semNum (atoi s.bytes))
  · rw [execute_quiet hq]
    exact iff_of_true ⟨fun _ _ _ _ _ => rfl, fun _ _ _ => rfl⟩ (.inr hq)
  · rw [or_iff_left hq]
    obtain ⟨v, hle, hv, hmove⟩ := execute_moves hq
    have hin : semNum (atoi s.bytes) < SEM_NUM := by
      simp only [Quiet, not_or, Nat.not_le] at hq
      exact hq.2.1
    rw [hmove]
    constructor
    · intro h
      by_contra hn
      push Not at hn
      have hsame := h.unnamed hn _ hin
      rw [Values.set_self] at hsame
      exact hv hsame
    · rintro ⟨n, hn⟩
      have hval := semNum_names hn
      rw [hval]
      constructor
      · intro k hk j _ hj
        have hkn : k = n := (semNum_names hk).symm.trans hval
        exact Values.set_of_ne (hkn ▸ hj) _ _ _
      · intro hnone
        exact absurd hn (hnone n)

theorem Denotes.digit {s : List UInt8} {i : Int} (h : Denotes s i) : ∃ c ∈ s, isdigit c := by
  cases h with
  | unsigned hne hall =>
    obtain ⟨c, hc⟩ := List.exists_mem_of_ne_nil _ hne
    exact ⟨c, hc, hall c hc⟩
  | plus hne hall | minus hne hall =>
    obtain ⟨c, hc⟩ := List.exists_mem_of_ne_nil _ hne
    exact ⟨c, List.mem_cons_of_mem _ hc, hall c hc⟩

/-- A word in place of an index stands for semaphore 0. -/
theorem release_abc : ¬ ∀ (val : Values) (op : Op) (s : SemIdx),
    Framed s.bytes val (execute val [op.name, s.bytes]) := by
  intro h
  have hf := h .zero .release ⟨ascii ['a', 'b', 'c'], by decide⟩
  have hnone : ∀ n, ¬ Names (ascii ['a', 'b', 'c']) n := by
    rintro n ⟨_, hd⟩
    exact absurd hd.digit (by decide)
  have hsame := hf.unnamed hnone 0 (by decide)
  revert hsame
  decide

end LinuxExamples.SemIndex
