import LinuxExamples.Records
import LinuxExamples.Runs

namespace LinuxExamples.AnonMmap

open Bytes Runs

def MAX_BUF_LEN : Nat := 4096

def FORK_NUM : Nat := 5

structure AnonInfo where
  pid : Int
  message : Mem

def AnonInfo.record (info : AnonInfo) : Records.Record := (info.pid, info.message)

def AnonInfo.ofRecord (r : Records.Record) : AnonInfo := ⟨r.1, r.2⟩

theorem AnonInfo.record_ofRecord (r : Records.Record) : (AnonInfo.ofRecord r).record = r := rfl

def cleared (info : AnonInfo) : AnonInfo := .ofRecord (Records.cleared MAX_BUF_LEN info.record)

def differs (a b : AnonInfo) : Bool := Records.memcmp MAX_BUF_LEN a.record b.record

def copyInfo (dst src : AnonInfo) : AnonInfo :=
  .ofRecord (Records.memcpy MAX_BUF_LEN dst.record src.record)

/-- What `snprintf` stores for the text `s`. -/
def snprintf (m : Mem) (size : Nat) (s : List UInt8) : Mem := strcpy m (s.take (size - 1))

def anonymousTest : List Char :=
  ['a', 'n', 'o', 'n', 'y', 'm', 'o', 'u', 's', ' ', 't', 'e', 's', 't', ' ']

/-- The expansion of the format `anonymous test %d`. -/
def text (index : Nat) : List UInt8 := ascii (anonymousTest ++ Nat.toDigits 10 index)

/-- The next store of a child. -/
inductive Point where
  | pid | message | done
  deriving DecidableEq

def anonSendData (index : Nat) (getpid : Int) (info : AnonInfo) : Point → Option (Point × AnonInfo)
  | .pid => some (.message, { info with pid := getpid })
  | .message =>
    some (.done, { info with message := snprintf info.message MAX_BUF_LEN (text index) })
  | .done => none

structure Line where
  pid : Int
  message : List UInt8
  deriving DecidableEq

/-- `do_anon` with `N` children. The flag `left` is set when the monitor has left its loop. -/
structure State (N : Nat) where
  info : AnonInfo
  children : Fin N → Point
  loc : AnonInfo
  n : Nat
  out : List Line
  left : Bool

variable {N : Nat}

def line (info : AnonInfo) : Line := ⟨info.pid, str info.message 0 MAX_BUF_LEN⟩

/-- An iteration of the monitor's loop. -/
def anonMonitor (s : State N) : State N :=
  if differs s.loc s.info then
    { s with
      out := line s.info :: s.out
      loc := copyInfo s.loc s.info
      n := s.n + 1
      left := s.n + 1 == N }
  else s

inductive Act (N : Nat) where
  | poll | store (i : Fin N)

/-- The process identifiers of the children. -/
structure Pids (N : Nat) where
  getpid : Fin N → Int
  injective : Function.Injective getpid
  ne_zero : ∀ i, getpid i ≠ 0

def step (ps : Pids N) (s : State N) : Act N → Option (State N)
  | .poll => if s.left then none else some (anonMonitor s)
  | .store i =>
    (anonSendData i (ps.getpid i) s.info (s.children i)).map fun x =>
      { s with info := x.2, children := Function.update s.children i x.1 }

/-- All children are forked and both records are cleared. -/
def start (N : Nat) (info junk : AnonInfo) : State N :=
  ⟨cleared info, fun _ => .pid, cleared junk, 0, [], false⟩

/-- The line that reports child `i`. -/
def pair (ps : Pids N) (i : Fin N) : Line := ⟨ps.getpid i, (text i).take (MAX_BUF_LEN - 1)⟩

/-- Every child is reported once, and nothing else. -/
structure Contract (ps : Pids N) (s : State N) : Prop where
  written : ∀ l ∈ s.out, ∃ i, s.children i = .done ∧ l = pair ps i
  once : s.left = true → ∀ i, s.out.count (pair ps i) = 1
  live : ¬ ((∀ i, s.children i = .done) ∧ differs s.loc s.info = false ∧ s.n < N)

/-- Nobody is between the two stores of an update when the monitor polls or another
child begins its own, and the latest update is reported before the next one begins. -/
def Spaced (s : State N) : Act N → Prop
  | .poll => ∀ i, s.children i ≠ .message
  | .store i => s.children i = .pid →
      (∀ j, s.children j ≠ .message) ∧ differs s.loc s.info = false

theorem text_noNul (i n : Nat) : 0 ∉ (text i).take n := by
  intro h
  refine ascii_noNul (fun c hc => ?_) (List.mem_of_mem_take h)
  obtain hc | hc := List.mem_append.mp hc
  · have hall : ∀ c ∈ anonymousTest, 0 < c.toNat ∧ c.toNat < 256 := by
      simp [anonymousTest]
    exact hall c hc
  · have hd := Char.isDigit_iff_toNat.mp (Nat.isDigit_of_mem_toDigits (by decide) (by decide) hc)
    have h0 : '0'.toNat = 48 := rfl
    have h9 : '9'.toNat = 57 := rfl
    omega

theorem differs_eq_false_iff (a b : AnonInfo) : differs a b = false ↔
    Records.fields MAX_BUF_LEN a.record = Records.fields MAX_BUF_LEN b.record :=
  Records.memcmp_eq_false_iff MAX_BUF_LEN _ _

theorem differs_of_pid {a b : AnonInfo} (h : a.pid ≠ b.pid) : differs a b = true := by
  apply (Records.memcmp_iff MAX_BUF_LEN _ _).mpr
  intro he
  exact h (congrArg Prod.fst he)

theorem differs_copyInfo (dst src : AnonInfo) : differs (copyInfo dst src) src = false := by
  rw [differs_eq_false_iff, copyInfo, AnonInfo.record_ofRecord, Records.fields_memcpy]

theorem line_pair {ps : Pids N} {info : AnonInfo} {k : Fin N} (hp : info.pid = ps.getpid k)
    (hm : Holds info.message ((text k).take (MAX_BUF_LEN - 1))) : line info = pair ps k := by
  have hl : ((text k).take (MAX_BUF_LEN - 1)).length ≤ MAX_BUF_LEN :=
    (List.length_take_le _ _).trans (Nat.sub_le _ _)
  rw [line, pair, hp, hm.str_eq hl]

theorem pair_injective (ps : Pids N) : Function.Injective (pair ps) := fun _ _ h =>
  ps.injective (congrArg Line.pid h)

theorem anonMonitor_cases (s : State N) : (differs s.loc s.info = false ∧ anonMonitor s = s) ∨
    (differs s.loc s.info = true ∧ anonMonitor s = ⟨s.info, s.children, copyInfo s.loc s.info,
      s.n + 1, line s.info :: s.out, s.n + 1 == N⟩) := by
  cases hd : differs s.loc s.info with
  | false => exact .inl ⟨rfl, by simp [anonMonitor, hd]⟩
  | true => exact .inr ⟨rfl, by simp [anonMonitor, hd]⟩

theorem store_cases {ps : Pids N} {s t : State N} {i : Fin N}
    (ht : step ps s (.store i) = some t) :
    (s.children i = .pid ∧ t = { s with
        info := { s.info with pid := ps.getpid i }
        children := Function.update s.children i .message }) ∨
      (s.children i = .message ∧ t = { s with
        info := { s.info with message := snprintf s.info.message MAX_BUF_LEN (text i) }
        children := Function.update s.children i .done }) := by
  simp only [step] at ht
  cases hp : s.children i with
  | pid =>
    rw [hp] at ht
    cases ht
    exact .inl ⟨rfl, rfl⟩
  | message =>
    rw [hp] at ht
    cases ht
    exact .inr ⟨rfl, rfl⟩
  | done =>
    rw [hp] at ht
    cases ht

theorem poll_cases {ps : Pids N} {s t : State N} (ht : step ps s .poll = some t) :
    s.left = false ∧ t = anonMonitor s := by
  simp only [step] at ht
  split at ht
  · cases ht
  · rename_i hleft
    cases ht
    exact ⟨Bool.not_eq_true _ ▸ hleft, rfl⟩

end LinuxExamples.AnonMmap
