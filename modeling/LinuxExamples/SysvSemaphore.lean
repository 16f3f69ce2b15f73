import LinuxExamples.Permits
import LinuxExamples.Runs

namespace LinuxExamples.SysvSemaphore

open Runs Permits

def SEM_NUM : Nat := 5

def SEM_COUNT : Nat := 5

def SEM_BINARY : Nat := 1

def SEM_SYSV_RELEASE : Int := 1

def SEM_SYSV_WAIT : Int := 0

def SEM_SYSV_GET : Int := -1

/-- The greatest value of a semaphore. -/
def SEMVMX : Nat := 32767

structure Values where
  val : Nat → Nat
  le : ∀ n, val n ≤ SEMVMX

instance : CoeFun Values fun _ => Nat → Nat := ⟨Values.val⟩

@[ext]
theorem Values.ext {v w : Values} (h : ∀ n, v n = w n) : v = w := by
  obtain ⟨v, _⟩ := v
  obtain ⟨w, _⟩ := w
  obtain rfl : v = w := funext h
  rfl

def Values.zero : Values := ⟨fun _ => 0, fun _ => Nat.zero_le _⟩

def Values.set (v : Values) (n x : Nat) (h : x ≤ SEMVMX) : Values where
  val := Function.update v n x
  le := (Function.forall_update_iff v.val fun _ y => y ≤ SEMVMX).mpr ⟨h, fun m _ => v.le m⟩

@[simp] theorem Values.set_self (v : Values) (n x : Nat) (h : x ≤ SEMVMX) : v.set n x h n = x :=
  Function.update_self _ _ _

@[simp] theorem Values.set_of_ne {n m : Nat} (hm : m ≠ n) (v : Values) (x : Nat)
    (h : x ≤ SEMVMX) : v.set n x h m = v m :=
  Function.update_of_ne hm _ _

/-- The system calls on the set: `semctl` with `SETVAL` or `GETVAL`, and `semop` with one
operation and no flags. -/
inductive Call where
  | setval (semNum val : Nat)
  | getval (semNum : Nat)
  | semop (semNum : Nat) (semOp : Int)

def sysvSemInit : List Call :=
  (List.range' 1 SEM_NUM).map fun i =>
    if i % 2 = 0 then .setval (i - 1) SEM_COUNT else .setval (i - 1) SEM_BINARY

def sysvSemShow : List Call := (List.range SEM_NUM).map fun i => .getval i

/-- The conversion of an index to the `unsigned short` field `sem_num`. -/
def semNum (semIndex : Int) : Nat := (semIndex % 65536).toNat

def sysvSemGet (semIndex : Int) : List Call := [.semop (semNum semIndex) SEM_SYSV_GET]

def sysvSemRelease (semIndex : Int) : List Call := [.semop (semNum semIndex) SEM_SYSV_RELEASE]

def sysvSemWait (semIndex : Int) : List Call := [.semop (semNum semIndex) SEM_SYSV_WAIT]

inductive Command where
  | init | showAll | get (semIndex : Int) | release (semIndex : Int) | wait0 (semIndex : Int)

def sysvMain : Command → List Call
  | .init => sysvSemInit
  | .showAll => sysvSemShow
  | .get i => sysvSemGet i
  | .release i => sysvSemRelease i
  | .wait0 i => sysvSemWait i

inductive Outcome where
  | blocks | fails | granted (val : Values)

/-- A call fails on a semaphore that is not there, and where its value would be too great. -/
def kernel (val : Values) : Call → Outcome
  | .setval n v =>
    if n < SEM_NUM then if h : v ≤ SEMVMX then .granted (val.set n v h) else .fails else .fails
  | .getval n => if n < SEM_NUM then .granted val else .fails
  | .semop n op =>
    if n < SEM_NUM then
      if op = 0 then if val n = 0 then .granted val else .blocks
      else if val n + op < 0 then .blocks
      else if h : (val n + op).toNat ≤ SEMVMX then .granted (val.set n (val n + op).toNat h)
      else .fails
    else .fails

/-- The value that `init` gives a semaphore. -/
def capacity (n : Nat) : Nat := if (n + 1) % 2 = 0 then SEM_COUNT else SEM_BINARY

example : (List.range SEM_NUM).map capacity = [1, 5, 1, 5, 1] := rfl

theorem capacity_le (n : Nat) : capacity n ≤ SEMVMX := by
  unfold capacity
  split <;> decide

/-- The values of the semaphores and the calls that each process has still to make in its
command. For each semaphore `held` lists the processes between a granted get and their
release, once for each get, and `atInit` is its length when the value was last set. -/
structure State (ι : Type) where
  val : Values
  todo : ι → List Call
  held : Nat → List ι
  atInit : Nat → Nat

variable {ι : Type} [DecidableEq ι]

def State.record (s : State ι) (p : ι) : Call → State ι
  | .setval n _ => { s with atInit := Function.update s.atInit n (s.held n).length }
  | .getval _ => s
  | .semop n op =>
    if op < 0 then { s with held := Function.update s.held n (p :: s.held n) }
    else if 0 < op then { s with held := Function.update s.held n ((s.held n).erase p) }
    else s

inductive Act (ι : Type) where
  | issue (p : ι) (c : Command) | call (p : ι)

/-- A process starts a command or makes its next call. A call that fails ends the command. -/
def step (s : State ι) : Act ι → Option (State ι)
  | .issue p c =>
    if s.todo p = [] then some { s with todo := Function.update s.todo p (sysvMain c) } else none
  | .call p =>
    match s.todo p with
    | [] => none
    | c :: rest =>
      match kernel s.val c with
      | .blocks => none
      | .fails => some { s with todo := Function.update s.todo p [] }
      | .granted val =>
        some { s.record p c with val := val, todo := Function.update s.todo p rest }

def initialised (val : Values) : Values :=
  sysvSemInit.foldl (fun val c =>
    match kernel val c with
    | .granted val => val
    | _ => val) val

def start (ι : Type) (val : Values) : State ι :=
  ⟨initialised val, fun _ => [], fun _ => [], fun _ => 0⟩

def pool (s : State ι) (n : Nat) : Pool ι := ⟨s.val n, s.held n⟩

/-- A process releases only what it has got. -/
def Paired (s : State ι) : Act ι → Prop
  | .issue p (.release i) => semNum i < SEM_NUM → p ∈ s.held (semNum i)
  | _ => True

theorem initialised_eq (val : Values) {n : Nat} (hn : n < SEM_NUM) :
    initialised val n = capacity n := by
  simp only [SEM_NUM] at hn
  interval_cases n <;> rfl

theorem setval_capacity {c : Command} {n v : Nat} (h : .setval n v ∈ sysvMain c) :
    v = capacity n := by
  cases c with
  | init =>
    obtain ⟨i, hi, he⟩ := List.mem_map.mp h
    have hpos : i - 1 + 1 = i := Nat.sub_add_cancel (List.mem_range'_1.mp hi).1
    split at he
    · rename_i heven
      cases he
      rw [capacity, hpos, if_pos heven]
    · rename_i hodd
      cases he
      rw [capacity, hpos, if_neg hodd]
  | showAll =>
    obtain ⟨i, _, he⟩ := List.mem_map.mp h
    cases he
  | get i | release i | wait0 i =>
    have he := List.mem_singleton.mp h
    cases he

/-- The commands that make an operation, with the index they were given. -/
theorem semop_command {c : Command} {n : Nat} {op : Int} (h : .semop n op ∈ sysvMain c) :
    ∃ i, semNum i = n ∧ (c = .get i ∧ op = SEM_SYSV_GET ∨
      c = .release i ∧ op = SEM_SYSV_RELEASE ∨ c = .wait0 i ∧ op = SEM_SYSV_WAIT) := by
  cases c with
  | init =>
    obtain ⟨i, _, he⟩ := List.mem_map.mp h
    split at he <;> cases he
  | showAll =>
    obtain ⟨i, _, he⟩ := List.mem_map.mp h
    cases he
  | get i | release i | wait0 i =>
    have he := List.mem_singleton.mp h
    cases he
    exact ⟨i, rfl, by simp⟩

theorem semop_cases {c : Command} {n : Nat} {op : Int} (h : .semop n op ∈ sysvMain c) :
    op = SEM_SYSV_GET ∨ op = SEM_SYSV_RELEASE ∨ op = SEM_SYSV_WAIT := by
  obtain ⟨i, _, hc⟩ := semop_command h
  exact hc.imp (·.2) (.imp (·.2) (·.2))

/-- An operation is the only call of its command. -/
theorem semop_first {c : Command} {x : Call} {rest : List Call} (h : x :: rest <:+ sysvMain c)
    (n : Nat) (op : Int) : .semop n op ∉ rest := by
  intro hmem
  have hone : (sysvMain c).length = 1 := by
    obtain ⟨i, _, ⟨rfl, _⟩ | ⟨rfl, _⟩ | ⟨rfl, _⟩⟩ :=
      semop_command (h.subset (List.mem_cons_of_mem x hmem)) <;> rfl
  have hlen := h.length_le
  rw [hone, List.length_cons] at hlen
  have hpos := List.length_pos_of_mem hmem
  omega

/-- The process `p` holds what the calls `cs` release. -/
def Owns (held : Nat → List ι) (p : ι) (cs : List Call) : Prop :=
  ∀ n < SEM_NUM, .semop n SEM_SYSV_RELEASE ∈ cs → p ∈ held n

structure Inv (s : State ι) : Prop where
  todo : ∀ p, ∃ c, s.todo p <:+ sysvMain c
  owns : ∀ p, Owns s.held p (s.todo p)
  permits : ∀ n < SEM_NUM, (pool s n).permits = capacity n + s.atInit n

/-- What the call `x` of `p` does, with `rest` behind it in the command. -/
inductive Effect (s t : State ι) (p : ι) (x : Call) (rest : List Call) : Prop where
  | quiet (left : List Call) (suffix : left <:+ rest)
      (state : t = { s with todo := Function.update s.todo p left })
  | set (n : Nat) (call : x = .setval n (capacity n))
      (state : t = { s with
        val := s.val.set n (capacity n) (capacity_le n)
        todo := Function.update s.todo p rest
        atInit := Function.update s.atInit n (s.held n).length })
  | get (n : Nat) (free : 0 < s.val n)
      (state : t = { s with
        val := s.val.set n (s.val n - 1) ((Nat.sub_le _ _).trans (s.val.le n))
        todo := Function.update s.todo p rest
        held := Function.update s.held n (p :: s.held n) })
  | release (n : Nat) (own : p ∈ s.held n) (room : s.val n < SEMVMX)
      (state : t = { s with
        val := s.val.set n (s.val n + 1) room
        todo := Function.update s.todo p rest
        held := Function.update s.held n ((s.held n).erase p) })

theorem kernel_get {val : Values} {n : Nat} (hn : n < SEM_NUM) :
    kernel val (.semop n SEM_SYSV_GET) =
      if 0 < val n then .granted (val.set n (val n - 1) ((Nat.sub_le _ _).trans (val.le n)))
      else .blocks := by
  have hval : ((val n : Int) + -1).toNat = val n - 1 := by omega
  have hlt : (val n : Int) + -1 < 0 ↔ ¬ 0 < val n := by omega
  have hle : val n - 1 ≤ SEMVMX := (Nat.sub_le _ _).trans (val.le n)
  by_cases hfree : 0 < val n
  · simp [kernel, SEM_SYSV_GET, hn, hval, hlt, hle, hfree]
  · simp [kernel, SEM_SYSV_GET, hn, hlt, hfree]

theorem kernel_release {val : Values} {n : Nat} (hn : n < SEM_NUM) :
    kernel val (.semop n SEM_SYSV_RELEASE) =
      if h : val n < SEMVMX then .granted (val.set n (val n + 1) h) else .fails := by
  have hval : ((val n : Int) + 1).toNat = val n + 1 := by omega
  have hlt : ¬ (val n : Int) + 1 < 0 := by omega
  simp [kernel, SEM_SYSV_RELEASE, hn, hval, hlt]

theorem kernel_wait {val : Values} {n : Nat} (hn : n < SEM_NUM) :
    kernel val (.semop n SEM_SYSV_WAIT) = if val n = 0 then .granted val else .blocks := by
  simp [kernel, SEM_SYSV_WAIT, hn]

theorem semop_effect {s t : State ι} {p : ι} {n : Nat} {op : Int} {rest : List Call} (h : Inv s)
    (hp : s.todo p = .semop n op :: rest)
    (hop : op = SEM_SYSV_GET ∨ op = SEM_SYSV_RELEASE ∨ op = SEM_SYSV_WAIT)
    (ht : step s (.call p) = some t) : Effect s t p (.semop n op) rest := by
  by_cases hn : n < SEM_NUM
  · obtain rfl | rfl | rfl := hop
    · by_cases hfree : 0 < s.val n
      · simp only [step, hp, kernel_get hn, hfree, ↓reduceIte] at ht
        cases ht
        exact .get n hfree rfl
      · simp only [step, hp, kernel_get hn, hfree, ↓reduceIte] at ht
        cases ht
    · by_cases hroom : s.val n < SEMVMX
      · simp only [step, hp, kernel_release hn, hroom, ↓reduceDIte] at ht
        cases ht
        exact .release n (h.owns p n hn (by simp [hp])) hroom rfl
      · simp only [step, hp, kernel_release hn, hroom, ↓reduceDIte] at ht
        cases ht
        exact .quiet [] List.nil_suffix rfl
    · by_cases hzero : s.val n = 0
      · simp only [step, hp, kernel_wait hn, hzero, ↓reduceIte] at ht
        cases ht
        exact .quiet rest (List.suffix_refl rest) rfl
      · simp only [step, hp, kernel_wait hn, hzero, ↓reduceIte] at ht
        cases ht
  · simp only [step, hp, kernel, hn, ↓reduceIte] at ht
    cases ht
    exact .quiet [] (List.nil_suffix) rfl

theorem call_effect {s t : State ι} {p : ι} (h : Inv s) (ht : step s (.call p) = some t) :
    ∃ x rest, s.todo p = x :: rest ∧ Effect s t p x rest := by
  obtain ⟨c, hc⟩ := h.todo p
  cases hp : s.todo p with
  | nil =>
    simp only [step, hp] at ht
    cases ht
  | cons x rest =>
    refine ⟨x, rest, rfl, ?_⟩
    rw [hp] at hc
    have hx : x ∈ sysvMain c := hc.subset List.mem_cons_self
    cases x with
    | setval n v =>
      obtain rfl := setval_capacity hx
      by_cases hn : n < SEM_NUM
      · simp only [step, hp, kernel, hn, capacity_le, ↓reduceIte, ↓reduceDIte] at ht
        cases ht
        exact .set n rfl rfl
      · simp only [step, hp, kernel, hn, ↓reduceIte] at ht
        cases ht
        exact .quiet [] List.nil_suffix rfl
    | getval n =>
      by_cases hn : n < SEM_NUM
      · simp only [step, hp, kernel, hn, ↓reduceIte] at ht
        cases ht
        exact .quiet rest (List.suffix_refl rest) rfl
      · simp only [step, hp, kernel, hn, ↓reduceIte] at ht
        cases ht
        exact .quiet [] List.nil_suffix rfl
    | semop n op => exact semop_effect h hp (semop_cases hx) ht

/-- What `p` has left of its command after a call starts no operation. -/
theorem Effect.left {s t : State ι} {p : ι} {x : Call} {rest : List Call}
    (h : Effect s t p x rest) :
    ∃ left, left <:+ rest ∧ t.todo = Function.update s.todo p left := by
  cases h with
  | quiet left hl ht => exact ⟨left, hl, ht ▸ rfl⟩
  | set n _ ht | get n _ ht | release n _ _ ht => exact ⟨rest, List.suffix_refl rest, ht ▸ rfl⟩

theorem Effect.held {s t : State ι} {p q : ι} {x : Call} {rest : List Call}
    (h : Effect s t p x rest) (hq : q ≠ p) {n : Nat} (hn : q ∈ s.held n) : q ∈ t.held n := by
  cases h with
  | quiet _ _ ht | set _ _ ht => rwa [ht]
  | get m _ ht =>
    rw [ht]
    by_cases hm : n = m
    · subst hm
      simp [hn]
    · simpa [hm] using hn
  | release m _ _ ht =>
    rw [ht]
    by_cases hm : n = m
    · subst hm
      simpa [List.mem_erase_of_ne hq] using hn
    · simpa [hm] using hn

theorem Effect.pool {s t : State ι} {p : ι} {x : Call} {rest : List Call}
    (h : Effect s t p x rest) (n : Nat) :
    (pool t n = pool s n ∧ t.atInit n = s.atInit n) ∨
      (Permits.step (pool s n) (.take p) = some (pool t n) ∧ t.atInit n = s.atInit n) ∨
      (Permits.step (pool s n) (.give p) = some (pool t n) ∧ t.atInit n = s.atInit n) ∨
      (Permits.step (pool s n) (.set (capacity n)) = some (pool t n) ∧
        t.atInit n = (s.held n).length ∧ x = .setval n (capacity n)) := by
  cases h with
  | quiet left _ ht =>
    subst ht
    exact .inl ⟨rfl, rfl⟩
  | set m hx ht =>
    subst ht
    by_cases hm : n = m
    · subst hm
      exact .inr (.inr (.inr ⟨by simp [SysvSemaphore.pool, Permits.step], by simp, hx⟩))
    · exact .inl ⟨by simp [SysvSemaphore.pool, hm], by simp [hm]⟩
  | get m hfree ht =>
    subst ht
    by_cases hm : n = m
    · subst hm
      exact .inr (.inl ⟨by simp [SysvSemaphore.pool, Permits.step, hfree], rfl⟩)
    · exact .inl ⟨by simp [SysvSemaphore.pool, hm], rfl⟩
  | release m hown _ ht =>
    subst ht
    by_cases hm : n = m
    · subst hm
      exact .inr (.inr (.inl ⟨by simp [SysvSemaphore.pool, Permits.step, hown], rfl⟩))
    · exact .inl ⟨by simp [SysvSemaphore.pool, hm], rfl⟩

theorem Effect.permits {s t : State ι} {p : ι} {x : Call} {rest : List Call}
    (h : Effect s t p x rest) {n : Nat}
    (hs : (SysvSemaphore.pool s n).permits = capacity n + s.atInit n) :
    (SysvSemaphore.pool t n).permits = capacity n + t.atInit n := by
  obtain ⟨hp, ha⟩ | ⟨hp, ha⟩ | ⟨hp, ha⟩ | ⟨hp, ha, _⟩ := h.pool n
  · rw [hp, ha, hs]
  · rw [take_permits hp, ha, hs]
  · rw [give_permits hp, ha, hs]
  · rw [set_permits hp, ha, SysvSemaphore.pool]

omit [DecidableEq ι] in
theorem start_inv (val : Values) : Inv (start ι val) := by
  refine ⟨fun p => ⟨.init, List.nil_suffix⟩, fun p n _ hp => ?_, fun n hn => ?_⟩
  · cases hp
  · exact congrArg (· + 0) (initialised_eq val hn)

theorem call_keeps {s t : State ι} {p : ι} (h : Inv s) (ht : step s (.call p) = some t) :
    Inv t := by
  obtain ⟨x, rest, hp, he⟩ := call_effect h ht
  obtain ⟨c, hc⟩ := h.todo p
  rw [hp] at hc
  obtain ⟨left, hl, htodo⟩ := he.left
  have hleft : left <:+ sysvMain c := hl.trans ((List.suffix_cons x rest).trans hc)
  have hno : Owns t.held p left := fun n _ hn => absurd (hl.subset hn) (semop_first hc n _)
  refine ⟨?_, ?_, fun n hn => he.permits (h.permits n hn)⟩ <;> rw [htodo]
  · apply (Function.forall_update_iff _ fun _ cs => ∃ c, cs <:+ sysvMain c).mpr
    exact ⟨⟨c, hleft⟩, fun q _ => h.todo q⟩
  · apply (Function.forall_update_iff _ (Owns t.held)).mpr
    exact ⟨hno, fun q hq n hn hmem => he.held hq (h.owns q n hn hmem)⟩

omit [DecidableEq ι] in
/-- A command that is going to release a semaphore was started by one of its holders. -/
theorem Paired.owns {s : State ι} {p : ι} {c : Command} (h : Paired s (.issue p c)) :
    Owns s.held p (sysvMain c) := by
  intro n hn hc
  obtain ⟨i, rfl, ⟨_, hop⟩ | ⟨rfl, _⟩ | ⟨_, hop⟩⟩ := semop_command hc
  · exact absurd hop (by decide)
  · exact h hn
  · exact absurd hop (by decide)

theorem issue_keeps {s t : State ι} {p : ι} {c : Command} (h : Inv s)
    (hok : Paired s (.issue p c)) (ht : step s (.issue p c) = some t) : Inv t := by
  simp only [step] at ht
  split at ht
  · cases ht
    refine ⟨?_, ?_, h.permits⟩
    · apply (Function.forall_update_iff _ fun _ cs => ∃ c, cs <:+ sysvMain c).mpr
      exact ⟨⟨c, List.suffix_refl _⟩, fun q _ => h.todo q⟩
    · apply (Function.forall_update_iff _ (Owns s.held)).mpr
      exact ⟨hok.owns, fun q _ => h.owns q⟩
  · cases ht

theorem step_keeps (s : State ι) (a : Act ι) (t : State ι) (h : Inv s) (hok : Paired s a)
    (ht : step s a = some t) : Inv t := by
  cases a with
  | issue p c => exact issue_keeps h hok ht
  | call p => exact call_keeps h ht

end LinuxExamples.SysvSemaphore
