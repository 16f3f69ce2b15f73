import LinuxExamples.Access
import LinuxExamples.Bytes
import LinuxExamples.Demand
import LinuxExamples.Limits
import LinuxExamples.Mailbox

namespace LinuxExamples.NamedSemaphore

open Access Bytes Limits Mailbox Runs
open Demand (Tally)

def SEM_NUM : Nat := 5

/-- The semaphore behind the name. -/
structure Sem where
  node : Inode
  value : Nat
  value_le : value ≤ SEM_VALUE_MAX

def Sem.down (q : Sem) : Sem :=
  { q with value := q.value - 1, value_le := (Nat.sub_le _ _).trans q.value_le }

/-- What a call on the semaphore comes to. -/
inductive Outcome where
  | blocks | fails | done (q : Sem)

def semWait (q : Sem) : Outcome := if 0 < q.value then .done q.down else .blocks

def semTrywait (q : Sem) : Outcome := if 0 < q.value then .done q.down else .fails

def semPost (q : Sem) : Outcome :=
  if h : q.value < SEM_VALUE_MAX then .done { q with value := q.value + 1, value_le := h }
  else .fails

inductive Command where
  | showValue | wait | trywait | timewait | release | help
  deriving DecidableEq

/-- The branch that `posix_named_main` takes once `posix_named_init` has returned. -/
def posixNamedMain (arg : List UInt8) : Command :=
  if arg = ascii ['s', 'h', 'o', 'w'] then .showValue
  else if arg = ascii ['w', 'a', 'i', 't'] then .wait
  else if arg = ascii ['t', 'r', 'y', 'w', 'a', 'i', 't'] then .trywait
  else if arg = ascii ['t', 'i', 'm', 'e', 'w', 'a', 'i', 't'] then .timewait
  else if arg = ascii ['r', 'e', 'l', 'e', 'a', 's', 'e'] then .release
  else .help

/-- The call of a command on the semaphore. A `sem_timedwait` blocks until its time is over. -/
def Command.call (q : Sem) : Command → Outcome
  | .showValue | .help => .done q
  | .wait | .timewait => semWait q
  | .trywait => semTrywait q
  | .release => semPost q

/-- Where a process is: in one of the other modes, before `sem_open`, in the call of its
command, killed, or at its end with what `main` returned and the value that it printed. -/
inductive Point where
  | elsewhere | opening (c : Command) | calling (c : Command) | killed
  | exited (ret : Int) (shown : Option Nat)
  deriving DecidableEq

/-- How `main` begins with its arguments. -/
def main : List (List UInt8) → Point
  | _ :: mode :: arg :: _ =>
    if mode = ascii ['s', 'y', 's', 'v'] then .elsewhere
    else if mode = ascii ['u', 'n', 'n', 'a', 'm', 'e', 'd', '_', 'p', 'o', 's', 'i', 'x'] then
      .elsewhere
    else if mode = ascii ['n', 'a', 'm', 'e', 'd', '_', 'p', 'o', 's', 'i', 'x'] then
      .opening (posixNamedMain arg)
    else .exited (-1) none
  | _ => .exited (-1) none

/-- Who runs a process, and its group and `umask`. -/
structure Machine (ι : Type) where
  caller : ι → Caller
  group : ι → Nat
  umask : ι → Nat

/-- The semaphore, once it exists, the processes, and those that took a permit or gave one. -/
structure State (ι : Type) where
  sem : Option Sem
  procs : ι → Option Point
  taken : List ι
  posted : List ι

def start (ι : Type) (sem : Option Sem) : State ι := ⟨sem, fun _ => none, [], []⟩

variable {ι : Type} [DecidableEq ι]

def created (m : Machine ι) (p : ι) : Sem :=
  ⟨⟨(m.caller p).uid, m.group p, masked 0o644 (m.umask p)⟩, SEM_NUM, by decide⟩

/-- `sem_open` with `O_CREAT`, which leaves the value of an existing semaphore alone. -/
def posixNamedInit (m : Machine ι) (p : ι) : Option Sem → Option Sem
  | some q => if q.node.grants (m.caller p) [.read, .write] then some q else none
  | none => some (created m p)

def State.goto (s : State ι) (p : ι) (x : Point) : State ι :=
  { s with procs := Function.update s.procs p (some x) }

/-- What a command that has succeeded leaves behind. -/
def State.finish (s : State ι) (p : ι) (q : Sem) : Command → State ι
  | .showValue => s.goto p (.exited 0 (some q.value))
  | .wait | .trywait | .timewait =>
    { s.goto p (.exited 0 none) with sem := some q, taken := s.taken ++ [p] }
  | .release => { s.goto p (.exited 0 none) with sem := some q, posted := s.posted ++ [p] }
  | .help => s.goto p (.exited 0 none)

/-- A process starts with its arguments, opens the semaphore or fails, makes its call, has
waited for as long as it wants to, or is killed. -/
inductive Act (ι : Type) where
  | start (p : ι) (args : List (List UInt8)) | opens (p : ι) (ok : Bool) | call (p : ι)
  | timeout (p : ι) | kill (p : ι)

def step (m : Machine ι) (s : State ι) : Act ι → Option (State ι)
  | .start p args => if s.procs p = none then some (s.goto p (main args)) else none
  | .opens p ok =>
    match s.procs p with
    | some (.opening c) =>
      match posixNamedInit m p s.sem, ok with
      | some q, true => some { s.goto p (.calling c) with sem := some q }
      | _, _ => some (s.goto p (.exited 0 none))
    | _ => none
  | .call p =>
    match s.procs p, s.sem with
    | some (.calling c), some q =>
      match c.call q with
      | .blocks => none
      | .fails => some (s.goto p (.exited 0 none))
      | .done q' => some (s.finish p q' c)
    | _, _ => none
  | .timeout p =>
    match s.procs p, s.sem with
    | some (.calling .timewait), some q =>
      if q.value = 0 then some (s.goto p (.exited 0 none)) else none
    | _, _ => none
  | .kill p =>
    match s.procs p with
    | none | some .killed | some (.exited _ _) => none
    | some _ => some (s.goto p .killed)

/-- A step of a process that is in a call. -/
def Act.Of (p : ι) (a : Act ι) : Prop := a = .call p ∨ a = .timeout p

def Serving (_ : State ι) (a : Act ι) : Prop := ∃ p, a.Of p

/-- A command that leaves the semaphore as it is and prints nothing of it. -/
def Idle (q : Sem) (c : Command) : Prop :=
  c = .help ∨ (c = .trywait ∨ c = .timewait) ∧ q.value = 0 ∨ c = .release ∧ SEM_VALUE_MAX ≤ q.value

/-- What a step does: nothing to the semaphore, a `sem_open`, or what a command asks for. -/
inductive Effect (m : Machine ι) (s t : State ι) : Act ι → Prop where
  | quiet {a} (p : ι) (x : Point) (act : ¬ Serving s a)
      (begun : ∀ ret d, s.procs p ≠ some (.exited ret d))
      (silent : (∀ ret v, x ≠ .exited ret (some v)) ∧ ∀ c, x ≠ .calling c)
      (t_eq : t = s.goto p x) : Effect m s t a
  | opens (p : ι) (c : Command) (q : Sem) (opening : s.procs p = some (.opening c))
      (opened : posixNamedInit m p s.sem = some q)
      (t_eq : t = { s.goto p (.calling c) with sem := some q }) : Effect m s t (.opens p true)
  | leaves {a} (p : ι) (c : Command) (q : Sem) (act : Act.Of p a)
      (calling : s.procs p = some (.calling c)) (sem_eq : s.sem = some q) (idle : Idle q c)
      (t_eq : t = s.goto p (.exited 0 none)) : Effect m s t a
  | shows (p : ι) (q : Sem) (calling : s.procs p = some (.calling .showValue))
      (sem_eq : s.sem = some q) (t_eq : t = s.goto p (.exited 0 (some q.value))) :
      Effect m s t (.call p)
  | takes (p : ι) (c : Command) (q : Sem) (calling : s.procs p = some (.calling c))
      (kind : c = .wait ∨ c = .trywait ∨ c = .timewait) (sem_eq : s.sem = some q)
      (free : 0 < q.value)
      (t_eq : t = { s.goto p (.exited 0 none) with
        sem := some q.down
        taken := s.taken ++ [p] }) : Effect m s t (.call p)
  | posts (p : ι) (q : Sem) (calling : s.procs p = some (.calling .release))
      (sem_eq : s.sem = some q) (room : q.value < SEM_VALUE_MAX)
      (t_eq : t = { s.goto p (.exited 0 none) with
        sem := some { q with value := q.value + 1, value_le := room }
        posted := s.posted ++ [p] }) : Effect m s t (.call p)

theorem main_silent (args : List (List UInt8)) :
    (∀ ret v, main args ≠ .exited ret (some v)) ∧ ∀ c, main args ≠ .calling c := by
  unfold main
  split
  · split
    · simp
    · split
      · simp
      · split <;> simp
  · simp

theorem call_effect {m : Machine ι} {s t : State ι} {q : Sem} {p : ι} {c : Command}
    (hp : s.procs p = some (.calling c)) (hq : s.sem = some q) (h : step m s (.call p) = some t) :
    Effect m s t (.call p) := by
  simp only [step, hp, hq] at h
  cases c with
  | showValue => exact .shows p q hp hq (Option.some.inj h).symm
  | help => exact .leaves p _ q (.inl rfl) hp hq (.inl rfl) (Option.some.inj h).symm
  | wait | timewait =>
    simp only [Command.call, semWait] at h
    by_cases hfree : 0 < q.value
    · rw [if_pos hfree] at h
      exact .takes p _ q hp (by simp) hq hfree (Option.some.inj h).symm
    · rw [if_neg hfree] at h
      cases h
  | trywait =>
    simp only [Command.call, semTrywait] at h
    by_cases hfree : 0 < q.value
    · rw [if_pos hfree] at h
      exact .takes p _ q hp (by simp) hq hfree (Option.some.inj h).symm
    · rw [if_neg hfree] at h
      have hzero : q.value = 0 := Nat.eq_zero_of_not_pos hfree
      exact .leaves p _ q (.inl rfl) hp hq (.inr (.inl ⟨.inl rfl, hzero⟩)) (Option.some.inj h).symm
  | release =>
    simp only [Command.call, semPost] at h
    by_cases hroom : q.value < SEM_VALUE_MAX
    · rw [dif_pos hroom] at h
      exact .posts p q hp hq hroom (Option.some.inj h).symm
    · rw [dif_neg hroom] at h
      have hfull : SEM_VALUE_MAX ≤ q.value := Nat.le_of_not_lt hroom
      exact .leaves p _ q (.inl rfl) hp hq (.inr (.inr ⟨rfl, hfull⟩)) (Option.some.inj h).symm

theorem step_effect {m : Machine ι} {s t : State ι} {a : Act ι} (h : step m s a = some t) :
    Effect m s t a := by
  cases a with
  | start p args =>
    obtain ⟨hp, ht⟩ := Option.ite_none_right_eq_some.mp h
    exact .quiet p _ (by simp [Serving, Act.Of]) (by simp [hp]) (main_silent args)
      (Option.some.inj ht).symm
  | opens p ok =>
    simp only [step] at h
    split at h
    · rename_i c hp
      split at h
      · rename_i q ho
        exact .opens p c q hp ho (Option.some.inj h).symm
      · exact .quiet p _ (by simp [Serving, Act.Of]) (by simp [hp]) (by simp)
          (Option.some.inj h).symm
    · cases h
  | call p =>
    have hcall := h
    simp only [step] at h
    split at h
    · rename_i c q hp hq
      exact call_effect hp hq hcall
    · cases h
  | timeout p =>
    simp only [step] at h
    split at h
    · rename_i q hp hq
      obtain ⟨hzero, ht⟩ := Option.ite_none_right_eq_some.mp h
      exact .leaves p _ q (.inr rfl) hp hq (.inr (.inl ⟨.inr rfl, hzero⟩)) (Option.some.inj ht).symm
    · cases h
  | kill p =>
    simp only [step] at h
    split at h
    · cases h
    · cases h
    · cases h
    · rename_i x hx hne hp
      refine .quiet p _ (by simp [Serving, Act.Of]) (fun ret d hd => ?_) (by simp)
          (Option.some.inj h).symm
      rw [hp] at hd
      cases hd
      exact hne ret d rfl

/-- A process at its end. It stays there. -/
def Ended (s : State ι) (p : ι) : Prop := ∃ ret d, s.procs p = some (.exited ret d)

theorem goto_ended {s : State ι} {p : ι} (hp : ∀ ret d, s.procs p ≠ some (.exited ret d))
    (x : Point) (q : ι) (hq : Ended s q) : Ended (s.goto p x) q := by
  obtain ⟨ret, d, hd⟩ := hq
  have hne : q ≠ p := by
    rintro rfl
    exact hp ret d hd
  exact ⟨ret, d, by simp [State.goto, hne, hd]⟩

/-- No permit is lost or made up: with the value `v₀` to begin with, the value is what the
posts and the granted waits leave of it, no process is in two of them, and a value that was
shown is one that the semaphore had meanwhile. -/
structure Ledger (v₀ : Nat) (s : State ι) : Prop where
  unused : s.sem = none →
    v₀ = SEM_NUM ∧ s.taken = [] ∧ s.posted = [] ∧ ∀ p c, s.procs p ≠ some (.calling c)
  balance : ∀ q, s.sem = some q → q.value + s.taken.length = v₀ + s.posted.length
  signed : Signed (Ended s) (s.taken ++ s.posted)
  shown : ∀ p ret v, s.procs p = some (.exited ret (some v)) →
    v₀ ≤ v + s.taken.length ∧ v ≤ v₀ + s.posted.length

section Ledger

variable {m : Machine ι} {v₀ : Nat} {s t : State ι} {a : Act ι}

theorem Ledger.goto (hs : Ledger v₀ s) {p : ι} {x : Point}
    (begun : ∀ ret d, s.procs p ≠ some (.exited ret d))
    (silent : (∀ ret v, x ≠ .exited ret (some v)) ∧ ∀ c, x ≠ .calling c) :
    Ledger v₀ (s.goto p x) := by
  refine ⟨fun hnone => ?_, hs.balance, hs.signed.mono (goto_ended begun x), fun r ret v hr => ?_⟩
  · obtain ⟨hv, htaken, hposted, hcalling⟩ := hs.unused hnone
    refine ⟨hv, htaken, hposted, fun r c hr => ?_⟩
    obtain ⟨_, hx⟩ | ⟨_, hr⟩ := update_eq_some hr
    · exact silent.2 c hx.symm
    · exact hcalling r c hr
  · obtain ⟨_, hx⟩ | ⟨_, hr⟩ := update_eq_some hr
    · exact absurd hx.symm (silent.1 ret v)
    · exact hs.shown r ret v hr

omit [DecidableEq ι] in
/-- Opening changes no value. -/
theorem opened_value (hs : Ledger v₀ s) {p : ι} {q : Sem} (h : posixNamedInit m p s.sem = some q) :
    q.value + s.taken.length = v₀ + s.posted.length := by
  cases hsem : s.sem with
  | none =>
    obtain ⟨hv, htaken, hposted, _⟩ := hs.unused hsem
    rw [hsem] at h
    cases h
    rw [htaken, hposted, hv]
    rfl
  | some q' =>
    rw [hsem] at h
    obtain rfl := Option.some.inj (Option.ite_none_right_eq_some.mp h).2
    exact hs.balance q' hsem

theorem step_ledger (hs : Ledger v₀ s) (h : step m s a = some t) : Ledger v₀ t := by
  cases step_effect h with
  | quiet p x act begun silent t_eq =>
    subst t_eq
    exact hs.goto begun silent
  | leaves p c q act calling sem_eq idle t_eq =>
    subst t_eq
    exact hs.goto (by simp [calling]) (by simp)
  | opens p c q opening opened t_eq =>
    subst t_eq
    refine ⟨fun hnone => ?_, fun q' hq' => ?_, ?_, fun r ret v hr => ?_⟩
    · cases hnone
    · cases hq'
      exact opened_value hs opened
    · exact hs.signed.mono (goto_ended (by simp [opening]) _)
    · obtain ⟨_, hx⟩ | ⟨_, hr⟩ := update_eq_some hr
      · cases hx
      · exact hs.shown r ret v hr
  | shows p q calling sem_eq t_eq =>
    have hvalue := hs.balance q sem_eq
    subst t_eq
    refine ⟨fun hnone => ?_, hs.balance, ?_, fun r ret v hr => ?_⟩
    · cases sem_eq.symm.trans hnone
    · exact hs.signed.mono (goto_ended (by simp [calling]) _)
    · obtain ⟨_, hx⟩ | ⟨_, hr⟩ := update_eq_some hr
      · cases hx
        dsimp only [State.goto]
        omega
      · exact hs.shown r ret v hr
  | takes p c q calling kind sem_eq free t_eq =>
    have hvalue := hs.balance q sem_eq
    have hbegun : ∀ ret d, s.procs p ≠ some (.exited ret d) := by simp [calling]
    subst t_eq
    refine ⟨fun hnone => ?_, fun q' hq' => ?_, ?_, fun r ret v hr => ?_⟩
    · cases hnone
    · cases hq'
      simp only [State.goto, Sem.down, List.length_append, List.length_singleton]
      omega
    · have hperm : (s.taken ++ s.posted ++ [p]).Perm (s.taken ++ [p] ++ s.posted) := by
        rw [List.append_assoc, List.append_assoc]
        exact List.perm_append_comm.append_left s.taken
      refine (hs.signed.push (goto_ended hbegun _) ?_ ?_).perm hperm
      · rintro ⟨ret, d, hd⟩
        exact hbegun ret d hd
      · exact ⟨0, none, Function.update_self _ _ _⟩
    · obtain ⟨_, hx⟩ | ⟨_, hr⟩ := update_eq_some hr
      · cases hx
      · have hold := hs.shown r ret v hr
        simp only [State.goto, List.length_append, List.length_singleton]
        omega
  | posts p q calling sem_eq room t_eq =>
    have hvalue := hs.balance q sem_eq
    have hbegun : ∀ ret d, s.procs p ≠ some (.exited ret d) := by simp [calling]
    subst t_eq
    refine ⟨fun hnone => ?_, fun q' hq' => ?_, ?_, fun r ret v hr => ?_⟩
    · cases hnone
    · cases hq'
      simp only [State.goto, List.length_append, List.length_singleton]
      omega
    · rw [← List.append_assoc]
      refine hs.signed.push (goto_ended hbegun _) ?_ ?_
      · rintro ⟨ret, d, hd⟩
        exact hbegun ret d hd
      · exact ⟨0, none, Function.update_self _ _ _⟩
    · obtain ⟨_, hx⟩ | ⟨_, hr⟩ := update_eq_some hr
      · cases hx
      · have hold := hs.shown r ret v hr
        simp only [State.goto, List.length_append, List.length_singleton]
        omega

theorem permits_kept (m : Machine ι) (sem : Option Sem) :
    Always (step m) (Ledger (sem.elim SEM_NUM Sem.value)) (start ι sem) := by
  refine .of_invariant (Ledger _) ⟨fun hnone => ?_, fun q hq => ?_, ?_, fun p ret v hp => ?_⟩
    (fun _ _ _ hs h => step_ledger hs h) fun _ hs => hs
  · obtain rfl : sem = none := hnone
    exact ⟨rfl, rfl, rfl, fun p c hp => by cases hp⟩
  · obtain rfl : sem = some q := hq
    rfl
  · exact ⟨by simp [start], by simp [start]⟩
  · cases hp

end Ledger

section Callers

variable [Fintype ι]

/-- How many processes are in the call of a command. -/
def pending (s : State ι) (c : Command) : Nat :=
  (Finset.univ.filter fun p => s.procs p = some (.calling c)).card

/-- The value of the semaphore once it exists. -/
def value (s : State ι) : Nat := s.sem.elim 0 Sem.value

/-- The semaphore and those who are in a call on it. -/
def tally (s : State ι) : Tally where
  value := value s
  waits := pending s .wait
  tries := pending s .trywait + pending s .timewait
  posts := pending s .release

/-- Nobody is in a call any more. -/
def AllLeft (s : State ι) : Prop := ∀ p c, s.procs p ≠ some (.calling c)

/-- How a command counts among the callers. -/
def Command.demand : Command → Option Demand.Act
  | .wait => some .take
  | .trywait | .timewait => some .attempt
  | .release => some .post
  | .showValue | .help => none

/-- A process has left its call. -/
structure Leaves (s t : State ι) (p : ι) (c : Command) : Prop where
  calling : s.procs p = some (.calling c)
  left : ∃ d, t.procs = Function.update s.procs p (some (.exited 0 d))

variable {m : Machine ι} {s t : State ι} {a : Act ι} {p : ι} {c : Command}

theorem Leaves.pending_eq (h : Leaves s t p c) : pending s c = pending t c + 1 := by
  obtain ⟨d, hd⟩ := h.left
  have hmem : p ∈ Finset.univ.filter fun p => s.procs p = some (.calling c) := by
    simp [h.calling]
  have herase : (Finset.univ.filter fun q => t.procs q = some (.calling c)) =
      (Finset.univ.filter fun q => s.procs q = some (.calling c)).erase p := by
    ext q
    by_cases hq : q = p <;> simp [hd, hq]
  rw [pending, pending, herase, Finset.card_erase_add_one hmem]

theorem Leaves.pending_ne (h : Leaves s t p c) (c' : Command) (hc : c' ≠ c) :
    pending t c' = pending s c' := by
  obtain ⟨d, hd⟩ := h.left
  rw [pending, pending]
  congr 1
  ext q
  by_cases hq : q = p
  · subst hq
    simp [hd, h.calling, Ne.symm hc]
  · simp [hd, hq]

omit [DecidableEq ι] in
theorem exists_pending (h : 0 < pending s c) : ∃ p, s.procs p = some (.calling c) := by
  obtain ⟨p, hp⟩ := Finset.card_pos.mp h
  exact ⟨p, (Finset.mem_filter.mp hp).2⟩

/-- What a served process does to the tally. -/
def Counts (s t : State ι) (c : Command) : Prop :=
  match c.demand with
  | some b => Demand.Move SEM_VALUE_MAX (tally s) (tally t) b
  | none => tally t = tally s

theorem Leaves.counts (h : Leaves s t p c) {q q' : Sem} (hs : s.sem = some q) (ht : t.sem = some q')
    (hv : match c with
      | .showValue | .help => q'.value = q.value
      | .wait => 0 < q.value ∧ q'.value = q.value - 1
      | .trywait | .timewait => q'.value = q.value - 1
      | .release => q.value < SEM_VALUE_MAX ∧ q'.value = q.value + 1 ∨
          SEM_VALUE_MAX ≤ q.value ∧ q'.value = q.value) : Counts s t c := by
  have hself := h.pending_eq
  have hother (c' : Command) (hc : c' ≠ c) : pending t c' = pending s c' := h.pending_ne c' hc
  have hvs : (tally s).value = q.value := by simp [tally, value, hs]
  have hvt : (tally t).value = q'.value := by simp [tally, value, ht]
  cases c with
  | showValue | help =>
    simp only [Counts, Command.demand, tally, value, hs, ht, Option.elim_some, hv, hother, ne_eq,
      reduceCtorEq, not_false_eq_true]
  | wait =>
    refine .take hself ?_ ?_ (hother .release (by simp))
    · omega
    · simp [tally, hother]
  | trywait | timewait =>
    refine .attempt ?_ ?_ (hother .wait (by simp)) (hother .release (by simp))
    · simp only [tally, hself, hother, ne_eq, reduceCtorEq, not_false_eq_true]
      omega
    · omega
  | release =>
    refine .post hself (hother .wait (by simp)) ?_ ?_
    · simp [tally, hother]
    · rw [hvs, hvt]
      exact hv

theorem step_counts (hp : s.procs p = some (.calling c)) (ha : a.Of p) (h : step m s a = some t) :
    Leaves s t p c ∧ Counts s t c := by
  cases step_effect h with
  | quiet r x act begun silent t_eq => exact absurd ⟨p, ha⟩ act
  | opens r d q opening opened t_eq => simp [Act.Of] at ha
  | leaves r d q act calling sem_eq idle t_eq =>
    obtain rfl : r = p := by
      obtain ha | ha := ha <;> simpa [Act.Of, ha, eq_comm] using act
    cases hp.symm.trans calling
    subst t_eq
    have hl : Leaves s (s.goto r (.exited 0 none)) r c := ⟨hp, _, rfl⟩
    refine ⟨hl, hl.counts sem_eq sem_eq ?_⟩
    obtain rfl | ⟨rfl | rfl, hzero⟩ | ⟨rfl, hfull⟩ := idle
    · rfl
    · simp [hzero]
    · simp [hzero]
    · exact .inr ⟨hfull, rfl⟩
  | shows r q calling sem_eq t_eq =>
    obtain rfl : r = p := by simpa [Act.Of] using ha
    cases hp.symm.trans calling
    subst t_eq
    have hl : Leaves s (s.goto r (.exited 0 (some q.value))) r .showValue := ⟨hp, _, rfl⟩
    exact ⟨hl, hl.counts sem_eq sem_eq rfl⟩
  | takes r d q calling kind sem_eq free t_eq =>
    obtain rfl : r = p := by simpa [Act.Of] using ha
    cases hp.symm.trans calling
    subst t_eq
    have hl : Leaves s { s.goto r (.exited 0 none) with
        sem := some q.down
        taken := s.taken ++ [r] } r c := ⟨hp, _, rfl⟩
    refine ⟨hl, hl.counts sem_eq rfl ?_⟩
    obtain rfl | rfl | rfl := kind
    · exact ⟨free, rfl⟩
    · rfl
    · rfl
  | posts r q calling sem_eq room t_eq =>
    obtain rfl : r = p := by simpa [Act.Of] using ha
    cases hp.symm.trans calling
    subst t_eq
    have hl : Leaves s { s.goto r (.exited 0 none) with
        sem := some { q with value := q.value + 1, value_le := room }
        posted := s.posted ++ [r] } r .release := ⟨hp, _, rfl⟩
    exact ⟨hl, hl.counts sem_eq rfl (.inl ⟨room, rfl⟩)⟩

omit [DecidableEq ι] [Fintype ι] in
theorem call_blocks {q : Sem} (h : c.call q = .blocks) :
    (c = .wait ∨ c = .timewait) ∧ q.value = 0 := by
  have hwait (hq : semWait q = .blocks) : q.value = 0 := by
    by_contra hne
    rw [semWait, if_pos (Nat.pos_of_ne_zero hne)] at hq
    cases hq
  cases c with
  | showValue | help => cases h
  | wait => exact ⟨.inl rfl, hwait h⟩
  | timewait => exact ⟨.inr rfl, hwait h⟩
  | trywait =>
    simp only [Command.call, semTrywait] at h
    split at h <;> cases h
  | release =>
    simp only [Command.call, semPost] at h
    split at h <;> cases h

/-- A caller can leave, unless it waits for a permit that is not there. -/
theorem exists_served {q : Sem} (hp : s.procs p = some (.calling c)) (hq : s.sem = some q)
    (hc : c = .wait → 0 < q.value) :
    ∃ a t, Serving s a ∧ step m s a = some t ∧ Leaves s t p c ∧ Counts s t c := by
  obtain ⟨a, t, ha, ht⟩ : ∃ a t, a.Of p ∧ step m s a = some t := by
    cases hout : c.call q with
    | blocks =>
      obtain ⟨rfl | rfl, hzero⟩ := call_blocks hout
      · exact absurd hzero (hc rfl).ne'
      · exact ⟨.timeout p, s.goto p (.exited 0 none), .inr rfl,
          by simp only [step, hp, hq, if_pos hzero]⟩
    | fails =>
      exact ⟨.call p, s.goto p (.exited 0 none), .inl rfl, by simp only [step, hp, hq, hout]⟩
    | done q' => exact ⟨.call p, s.finish p q' c, .inl rfl, by simp only [step, hp, hq, hout]⟩
  exact ⟨a, t, ⟨p, ha⟩, ht, step_counts hp ha ht⟩

/-- Who is in a call has the semaphore open. -/
def Opened (s : State ι) : Prop := ∀ p c, s.procs p = some (.calling c) → ∃ q, s.sem = some q

omit [Fintype ι] in
theorem step_opened (hs : Opened s) (h : step m s a = some t) : Opened t := by
  have hgoto {p : ι} {x : Point} {sem : Option Sem} (hsem : s.sem = sem ∨ ∃ q, sem = some q)
      (hx : ∀ c, x ≠ .calling c) (r : ι) (c : Command)
      (hr : (s.goto p x).procs r = some (.calling c)) : ∃ q, sem = some q := by
    obtain rfl | hq := hsem
    · obtain ⟨_, he⟩ | ⟨_, hr⟩ := update_eq_some hr
      · exact absurd he.symm (hx c)
      · exact hs r c hr
    · exact hq
  cases step_effect h with
  | quiet p x act begun silent t_eq =>
    subst t_eq
    exact hgoto (.inl rfl) silent.2
  | opens p c q opening opened t_eq =>
    subst t_eq
    exact fun _ _ _ => ⟨q, rfl⟩
  | leaves p c q act calling sem_eq idle t_eq | shows p q calling sem_eq t_eq =>
    subst t_eq
    exact hgoto (.inl rfl) (by simp)
  | takes p c q calling kind sem_eq free t_eq | posts p q calling sem_eq room t_eq =>
    subst t_eq
    exact hgoto (.inr ⟨_, rfl⟩) (by simp)

/-- Each step of a process in a call is one of the tally, or none. -/
theorem step_tally (ha : Serving s a) (h : step m s a = some t) :
    Reaches (Demand.step SEM_VALUE_MAX) free (tally s) (tally t) := by
  obtain ⟨p, ha⟩ := ha
  obtain ⟨c, hc⟩ : ∃ c, s.procs p = some (.calling c) := by
    obtain rfl | rfl := ha
    · simp only [step] at h
      split at h
      · exact ⟨_, ‹_›⟩
      · cases h
    · simp only [step] at h
      split at h
      · exact ⟨_, ‹_›⟩
      · cases h
  obtain ⟨_, hcounts⟩ := step_counts hc ha h
  unfold Counts at hcounts
  cases hd : c.demand with
  | none =>
    rw [hd] at hcounts
    rw [hcounts]
    exact .refl _
  | some b =>
    rw [hd] at hcounts
    exact .single trivial hcounts.step

/-- Each step of the tally is one of a process in a call. -/
theorem tally_step (hs : Opened s) {x : Tally} {b : Demand.Act}
    (h : Demand.step SEM_VALUE_MAX (tally s) b = some x) :
    ∃ a t, Serving s a ∧ step m s a = some t ∧ tally t = x := by
  obtain ⟨p, c, hp, hb, hc⟩ : ∃ p c, s.procs p = some (.calling c) ∧ c.demand = some b ∧
      (c = .wait → 0 < (tally s).value) := by
    cases Demand.step_move h with
    | take waits value tries posts =>
      obtain ⟨p, hp⟩ := exists_pending (s := s) (c := .wait) (Nat.lt_of_sub_eq_succ waits)
      exact ⟨p, _, hp, rfl, fun _ => value ▸ Nat.succ_pos _⟩
    | attempt tries value waits posts =>
      have hpos : 0 < pending s .trywait + pending s .timewait := Nat.lt_of_sub_eq_succ tries
      obtain hpos | hpos := Nat.add_pos_iff_pos_or_pos.mp hpos
      · obtain ⟨p, hp⟩ := exists_pending hpos
        exact ⟨p, _, hp, rfl, by simp⟩
      · obtain ⟨p, hp⟩ := exists_pending hpos
        exact ⟨p, _, hp, rfl, by simp⟩
    | post posts waits tries value =>
      obtain ⟨p, hp⟩ := exists_pending (s := s) (c := .release) (Nat.lt_of_sub_eq_succ posts)
      exact ⟨p, _, hp, rfl, by simp⟩
  obtain ⟨q, hq⟩ := hs p c hp
  have hvalue : (tally s).value = q.value := by simp [tally, value, hq]
  obtain ⟨a, t, ha, ht, _, hcounts⟩ := exists_served (m := m) hp hq (hvalue ▸ hc)
  refine ⟨a, t, ha, ht, ?_⟩
  simp only [Counts, hb] at hcounts
  exact Option.some.inj (hcounts.step.symm.trans h)

/-- Nobody is left who asks for a permit or gives one. -/
def Looking (s : State ι) : Prop := Opened s ∧ Demand.Served (tally s)

theorem Looking.leave (hs : Looking s) : ∃ u, Reaches (step m) Serving s u ∧ AllLeft u := by
  refine reaches_ok_of_measure (fun u => pending u .showValue + pending u .help)
    (fun u hu hg => ?_) s hs
  obtain ⟨hopen, hwaits, htries, hposts⟩ := hu
  unfold AllLeft at hg
  push Not at hg
  obtain ⟨p, c, hp⟩ := hg
  have hpos : 0 < pending u c := Finset.card_pos.mpr ⟨p, by simp [hp]⟩
  have hlook : c = .showValue ∨ c = .help := by
    simp only [tally, Nat.add_eq_zero_iff] at hwaits htries hposts
    cases c <;> simp_all
  obtain ⟨q, hq⟩ := hopen p c hp
  obtain ⟨a, t, ha, ht, hleaves, hcounts⟩ :=
    exists_served (m := m) hp hq (by obtain rfl | rfl := hlook <;> simp)
  have hself := hleaves.pending_eq
  refine ⟨a, t, ha, ht, ⟨step_opened hopen ht, ?_⟩, ?_⟩
  · have htally : tally t = tally u := by obtain rfl | rfl := hlook <;> exact hcounts
    rw [htally]
    exact ⟨hwaits, htries, hposts⟩
  · obtain rfl | rfl := hlook
    · have hhelp := hleaves.pending_ne .help (by simp)
      omega
    · have hshow := hleaves.pending_ne .showValue (by simp)
      omega

theorem reaches_tally (h : Reaches (step m) Serving s t) :
    Reaches (Demand.step SEM_VALUE_MAX) free (tally s) (tally t) := by
  obtain ⟨x, hx, rfl⟩ := h.simulates (fun s x => x = tally s) rfl fun s a t x hx ha ht =>
    ⟨tally t, hx ▸ step_tally ha ht, rfl⟩
  exact hx

theorem tally_reaches (hs : Opened s) {x : Tally}
    (h : Reaches (Demand.step SEM_VALUE_MAX) free (tally s) x) :
    ∃ t, Reaches (step m) Serving s t ∧ Opened t ∧ tally t = x := by
  refine h.simulates (fun x t => Opened t ∧ tally t = x) ⟨hs, rfl⟩ fun x b y t ht _ hy => ?_
  obtain ⟨hopen, rfl⟩ := ht
  obtain ⟨a, u, ha, hu, rfl⟩ := tally_step hopen hy
  exact ⟨u, .single ha hu, step_opened hopen hu, rfl⟩

omit [DecidableEq ι] in
theorem AllLeft.served (h : AllLeft s) : Demand.Served (tally s) := by
  have hzero (c : Command) : pending s c = 0 := by
    simp only [pending, Finset.card_eq_zero, Finset.filter_eq_empty_iff]
    exact fun p _ => h p c
  simp [Demand.Served, tally, hzero]

/-- All callers can leave as they are exactly when the tally can. -/
theorem leave_iff (hs : Opened s) :
    (∃ t, Reaches (step m) Serving s t ∧ AllLeft t) ↔ Demand.Covered (tally s) := by
  rw [← Demand.serves_iff (show 0 < SEM_VALUE_MAX by decide)]
  constructor
  · rintro ⟨t, h, ht⟩
    exact ⟨tally t, reaches_tally h, ht.served⟩
  · rintro ⟨x, h, hx⟩
    obtain ⟨t, ht, hopen, rfl⟩ := tally_reaches (m := m) hs h
    obtain ⟨u, hu, hleft⟩ := Looking.leave (m := m) ⟨hopen, hx⟩
    exact ⟨u, ht.trans hu, hleft⟩

/-- All callers leave in the end, in whatever order they are served, exactly when the tally
stays covered. -/
theorem always_leave_iff (hs : Opened s) (hvalue : (tally s).value ≤ SEM_VALUE_MAX) :
    (∀ t, Reaches (step m) Serving s t → ∃ u, Reaches (step m) Serving t u ∧ AllLeft u) ↔
      Demand.Secure SEM_VALUE_MAX (tally s) := by
  rw [← Demand.stays_covered_iff hvalue]
  constructor
  · intro h x hx
    obtain ⟨t, ht, hopen, rfl⟩ := tally_reaches (m := m) hs hx
    exact (leave_iff hopen).mp (h t ht)
  · intro h t ht
    have hopen : Opened t := ht.invariant hs fun _ _ _ hi _ hn => step_opened hi hn
    exact (leave_iff hopen).mpr (h (tally t) (reaches_tally ht))

omit [Fintype ι] in
theorem always_opened (m : Machine ι) (sem : Option Sem) :
    Always (step m) Opened (start ι sem) := by
  refine .of_invariant Opened (fun p c hp => ?_) (fun _ _ _ hs h => step_opened hs h) fun _ hs => hs
  cases hp

theorem callers_can_leave (m : Machine ι) (sem : Option Sem) :
    Always (step m) (fun s => (∃ t, Reaches (step m) Serving s t ∧ AllLeft t) ↔
      pending s .wait ≤ value s + pending s .release) (start ι sem) :=
  fun s h => leave_iff (always_opened m sem s h)

theorem callers_always_leave (m : Machine ι) (sem : Option Sem) :
    Always (step m) (fun s =>
      (∀ t, Reaches (step m) Serving s t → ∃ u, Reaches (step m) Serving t u ∧ AllLeft u) ↔
        pending s .wait = 0 ∨ pending s .wait + (pending s .trywait + pending s .timewait) ≤
          min SEM_VALUE_MAX (value s + pending s .release)) (start ι sem) := by
  intro s h
  refine always_leave_iff (always_opened m sem s h) ?_
  cases hq : s.sem with
  | none => simp [tally, value, hq]
  | some q => simpa [tally, value, hq] using q.value_le

end Callers

end LinuxExamples.NamedSemaphore
