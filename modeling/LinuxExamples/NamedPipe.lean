import LinuxExamples.AnonMmap
import LinuxExamples.Runs
import LinuxExamples.SenderBounds

namespace LinuxExamples.NamedPipe

open Bytes Runs
open AnonMmap (snprintf)
open SenderBounds (padded)

def MAX_BUF_LEN : Nat := 1024

/-- What the kernel keeps in a FIFO at most. -/
def capacity : Nat := 65536

/-- The text that `send_data` formats. -/
def text : List UInt8 :=
  ascii ['f', 'i', 'f', 'o', ' ', 'T', 'E', 'S', 'T', ' ', 'h', 'e', 'l', 'l', 'o', ' ', 'w', 'o',
    'r', 'l', 'd']

inductive Kind where
  | fifo | regular
  deriving DecidableEq

/-- A file, linked under a name or not. A FIFO has its readers and its writers, also those
still waiting in their `open`, and counts how often it was opened for each. The last three
fields count the messages that were put into a FIFO, taken from it, and thrown away with it. -/
structure Node (ι : Type) where
  kind : Kind
  bytes : List UInt8
  readers : List ι
  writers : List ι
  rOpens : Nat
  wOpens : Nat
  sent : Nat
  received : Nat
  discarded : Nat

def fresh (ι : Type) (kind : Kind) : Node ι := ⟨kind, [], [], [], 0, 0, 0, 0, 0⟩

/-- Where a process is. While it waits in `open` it knows the count of the other side. -/
inductive Point where
  | unlink | mkfifo | openW | waitW (i seen : Nat) | write (i : Nat) | closeW (i : Nat)
  | openR | waitR (i seen : Nat) | read (fd : Option Nat) | closeR (i : Nat) (data : List UInt8)
  | exited (ret : Int) (data : Option (List UInt8))
  deriving DecidableEq

/-- How `main` begins with its arguments. -/
def main : List (List UInt8) → Point
  | _ :: mode :: _ =>
    if mode = ascii ['r'] then .openR
    else if mode = ascii ['s'] then .unlink
    else .exited 0 none
  | _ => .exited (-1) none

/-- The file that `PATH_NAME` is linked to, and all files so far. -/
structure State (ι : Type) where
  path : Option Nat
  nodes : Nat → Node ι
  next : Nat
  procs : ι → Option Point

def start (ι : Type) : State ι := ⟨none, fun _ => fresh ι .fifo, 0, fun _ => none⟩

variable {ι : Type} [DecidableEq ι]

/-- What `send_data` writes: its whole buffer, which is on the stack. -/
def sendData (stack : Mem) : List UInt8 :=
  Bytes.read (snprintf (memset stack MAX_BUF_LEN) MAX_BUF_LEN text) 0 MAX_BUF_LEN

/-- What `recv_data` prints when `read` has returned `bs`. -/
def recvData (stack : Mem) (bs : List UInt8) : List UInt8 :=
  str (Bytes.write (memset stack MAX_BUF_LEN) 0 bs) 0 MAX_BUF_LEN

/-- A FIFO that nobody has open any more loses what is in it. -/
def Node.settle (n : Node ι) : Node ι :=
  if n.kind = .fifo ∧ n.readers = [] ∧ n.writers = [] then
    { n with bytes := [], discarded := n.discarded + n.bytes.length / MAX_BUF_LEN }
  else n

def Node.leave (n : Node ι) (p : ι) : Node ι :=
  { n with readers := n.readers.erase p, writers := n.writers.erase p }.settle

def State.goto (s : State ι) (p : ι) (x : Point) : State ι :=
  { s with procs := Function.update s.procs p (some x) }

def State.set (s : State ι) (i : Nat) (n : Node ι) : State ι :=
  { s with nodes := Function.update s.nodes i n }

/-- Create a file and link the name to it. -/
def State.create (s : State ι) (kind : Kind) : State ι :=
  { s.set s.next (fresh ι kind) with path := some s.next, next := s.next + 1 }

/-- `write` of a whole message, at the end of a FIFO or over the begin of a file. -/
def put (n : Node ι) (msg : List UInt8) : Node ι :=
  match n.kind with
  | .fifo => { n with bytes := n.bytes ++ msg, sent := n.sent + 1 }
  | .regular => { n with bytes := msg ++ n.bytes.drop msg.length }

/-- The file that a process has open or waits for. -/
def Point.file : Point → Option Nat
  | .waitW i _ | .write i | .closeW i | .waitR i _ | .closeR i _ => some i
  | .read fd => fd
  | _ => none

/-- A process is killed, which closes its file. -/
def die (s : State ι) (p : ι) (x : Point) : State ι :=
  match x.file with
  | none => s.goto p (.exited (-1) none)
  | some i => (s.set i ((s.nodes i).leave p)).goto p (.exited (-1) none)

/-- The next step of a process at a point. -/
def run (stack : ι → Mem) (s : State ι) (p : ι) : Point → Option (State ι)
  | .unlink => some { s.goto p .mkfifo with path := none }
  | .mkfifo =>
    match s.path with
    | some _ => some (s.goto p (.exited 0 none))
    | none => some ((s.create .fifo).goto p .openW)
  | .openW =>
    match s.path with
    | none => some ((s.create .regular).goto p (.write s.next))
    | some i =>
      let n := s.nodes i
      match n.kind with
      | .regular => some (s.goto p (.write i))
      | .fifo =>
        some ((s.set i { n with writers := p :: n.writers, wOpens := n.wOpens + 1 }).goto p
          (if n.readers = [] then .waitW i n.rOpens else .write i))
  | .waitW i seen => if (s.nodes i).rOpens = seen then none else some (s.goto p (.write i))
  | .write i =>
    let n := s.nodes i
    if n.kind = .fifo ∧ n.readers = [] then some (die s p (.write i))
    else if n.kind = .fifo ∧ capacity < n.bytes.length + MAX_BUF_LEN then none
    else some ((s.set i (put n (sendData (stack p)))).goto p (.closeW i))
  | .closeW i => some ((s.set i ((s.nodes i).leave p)).goto p (.exited 0 none))
  | .openR =>
    match s.path with
    | none => some (s.goto p (.read none))
    | some i =>
      let n := s.nodes i
      match n.kind with
      | .regular => some (s.goto p (.read (some i)))
      | .fifo =>
        some ((s.set i { n with readers := p :: n.readers, rOpens := n.rOpens + 1 }).goto p
          (if n.writers = [] then .waitR i n.wOpens else .read (some i)))
  | .waitR i seen => if (s.nodes i).wOpens = seen then none else some (s.goto p (.read (some i)))
  | .read none => some (s.goto p (.exited 0 none))
  | .read (some i) =>
    let n := s.nodes i
    let data := recvData (stack p) (n.bytes.take MAX_BUF_LEN)
    match n.kind with
    | .regular => some (s.goto p (.closeR i data))
    | .fifo =>
      if n.bytes = [] then if n.writers = [] then some (s.goto p (.closeR i data)) else none
      else
        some ((s.set i { n with
          bytes := n.bytes.drop MAX_BUF_LEN
          received := n.received + 1 }).goto p (.closeR i data))
  | .closeR i data => some ((s.set i ((s.nodes i).leave p)).goto p (.exited 0 (some data)))
  | .exited _ _ => none

inductive Act (ι : Type) where
  | start (p : ι) (args : List (List UInt8)) | run (p : ι) | kill (p : ι)

def step (stack : ι → Mem) (s : State ι) : Act ι → Option (State ι)
  | .start p args => if s.procs p = none then some (s.goto p (main args)) else none
  | .run p => (s.procs p).bind (run stack s p)
  | .kill p =>
    match s.procs p with
    | none | some (.exited _ _) => none
    | some x => some (die s p x)

/-- The message as it is written. -/
def record : List UInt8 := padded text MAX_BUF_LEN

theorem sendData_eq (stack : Mem) : sendData stack = record :=
  SenderBounds.read_strcpy_memset _ _ _

theorem record_length : record.length = MAX_BUF_LEN := SenderBounds.padded_length _ _

/-- A FIFO holds whole messages, each of them accounted for, and a file at most one. -/
structure Clean (n : Node ι) : Prop where
  fifo : n.kind = .fifo → ∃ k, n.bytes = (List.replicate k record).flatten ∧
    n.sent = n.received + n.discarded + k
  regular : n.kind = .regular → n.bytes = [] ∨ n.bytes = record

section Clean

variable {n : Node ι}

omit [DecidableEq ι]

theorem fresh_clean (kind : Kind) : Clean (fresh ι kind) :=
  ⟨fun _ => ⟨0, rfl, rfl⟩, fun _ => .inl rfl⟩

theorem flatten_length (k : Nat) : (List.replicate k record).flatten.length = k * MAX_BUF_LEN := by
  rw [List.length_flatten, List.map_replicate, List.sum_replicate, record_length, smul_eq_mul]

theorem Clean.settle (h : Clean n) : Clean n.settle := by
  rw [Node.settle]
  split
  · rename_i hn
    obtain ⟨k, hk, hcount⟩ := h.fifo hn.1
    have hdiv : n.bytes.length / MAX_BUF_LEN = k := by
      rw [hk, flatten_length, Nat.mul_div_cancel _ (by decide)]
    refine ⟨fun _ => ⟨0, rfl, ?_⟩, fun hr => ?_⟩
    · simp only [hdiv]
      omega
    · rw [hn.1] at hr
      cases hr
  · exact h

theorem Clean.put (h : Clean n) : Clean (put n record) := by
  obtain ⟨kind, bytes, readers, writers, rOpens, wOpens, sent, received, discarded⟩ := n
  cases kind with
  | fifo =>
    obtain ⟨k, hk, hcount⟩ := h.fifo rfl
    refine ⟨fun _ => ⟨k + 1, ?_, ?_⟩, fun hr => ?_⟩
    · simp only [NamedPipe.put] at hk ⊢
      rw [hk, List.replicate_succ', List.flatten_append, List.flatten_singleton]
    · simp only [NamedPipe.put] at hcount ⊢
      omega
    · cases hr
  | regular =>
    refine ⟨fun hr => ?_, fun _ => .inr ?_⟩
    · cases hr
    · have hlen : bytes.length ≤ record.length := by
        obtain hb | hb := h.regular rfl
        · rw [show bytes = [] from hb]
          exact Nat.zero_le _
        · exact (congrArg List.length hb).le
      simp only [NamedPipe.put, List.drop_eq_nil_of_le hlen, List.append_nil]

theorem Clean.taken (h : Clean n) (hfifo : n.kind = .fifo) (hne : n.bytes ≠ []) :
    n.bytes.take MAX_BUF_LEN = record ∧
      Clean { n with bytes := n.bytes.drop MAX_BUF_LEN, received := n.received + 1 } := by
  obtain ⟨k, hk, hcount⟩ := h.fifo hfifo
  cases k with
  | zero => exact absurd hk hne
  | succ k =>
    rw [List.replicate_succ, List.flatten_cons] at hk
    have hlen : MAX_BUF_LEN = record.length := record_length.symm
    refine ⟨by rw [hk, hlen, List.take_left], fun _ => ⟨k, ?_, ?_⟩, fun hr => ?_⟩
    · simp only [hk, hlen, List.drop_left]
    · simp only
      omega
    · rw [hfifo] at hr
      cases hr

end Clean

/-- The text, or nothing. -/
def Printed (data : List UInt8) : Prop := data = [] ∨ data = text

theorem recvData_nil (stack : Mem) : recvData stack [] = [] :=
  (str_memset_write stack (Nat.zero_le _)).trans rfl

theorem recvData_record (stack : Mem) : recvData stack record = text := by
  obtain ⟨zs, hz⟩ := SenderBounds.padded_short (show text.length < MAX_BUF_LEN by decide)
  rw [recvData, record, hz]
  exact (holds_write _ (by decide) zs).str_eq (by decide)

def Point.Good : Point → Prop
  | .closeR _ data | .exited _ (some data) => Printed data
  | _ => True

/-- All files are clean, and whoever has received has the text or nothing. -/
structure Inv (s : State ι) : Prop where
  nodes : ∀ i, Clean (s.nodes i)
  procs : ∀ p x, s.procs p = some x → x.Good

section Inv

variable {stack : ι → Mem} {s t : State ι} {p : ι} {x : Point} {a : Act ι}

theorem Inv.goto (h : Inv s) (hx : x.Good) : Inv (s.goto p x) := by
  refine ⟨h.nodes, fun q y hy => ?_⟩
  obtain ⟨_, rfl⟩ | ⟨_, hy⟩ := update_eq_some hy
  · exact hx
  · exact h.procs q y hy

omit [DecidableEq ι] in
theorem Inv.set (h : Inv s) {i : Nat} {n : Node ι} (hn : Clean n) : Inv (s.set i n) := by
  refine ⟨fun j => ?_, h.procs⟩
  by_cases hj : j = i
  · subst hj
    simpa [State.set] using hn
  · simpa [State.set, hj] using h.nodes j

omit [DecidableEq ι] in
theorem Inv.create (h : Inv s) (kind : Kind) : Inv (s.create kind) := by
  have hset : Inv (s.set s.next (fresh ι kind)) := h.set (fresh_clean kind)
  exact ⟨hset.nodes, hset.procs⟩

theorem Clean.leave {n : Node ι} (h : Clean n) (p : ι) : Clean (n.leave p) := by
  have hn : Clean { n with readers := n.readers.erase p, writers := n.writers.erase p } :=
    ⟨h.fifo, h.regular⟩
  exact hn.settle

theorem Inv.die (h : Inv s) (p : ι) (x : Point) : Inv (die s p x) := by
  rw [NamedPipe.die]
  split
  · exact h.goto trivial
  · exact (h.set ((h.nodes _).leave p)).goto trivial

theorem main_good (args : List (List UInt8)) : (main args).Good := by
  unfold main
  split
  · split
    · trivial
    · split <;> trivial
  · trivial

theorem run_inv (h : Inv s) (hx : s.procs p = some x) (ht : run stack s p x = some t) : Inv t := by
  cases x with
  | unlink =>
    cases ht
    have hg : Inv (s.goto p .mkfifo) := h.goto trivial
    exact ⟨hg.nodes, hg.procs⟩
  | mkfifo =>
    simp only [run] at ht
    split at ht
    · cases ht
      exact h.goto trivial
    · cases ht
      exact (h.create .fifo).goto trivial
  | openW =>
    simp only [run] at ht
    split at ht
    · cases ht
      exact (h.create .regular).goto trivial
    · rename_i i _
      have hn := h.nodes i
      split at ht
      · cases ht
        exact h.goto trivial
      · cases ht
        refine (h.set ?_).goto ?_
        · exact ⟨hn.fifo, hn.regular⟩
        · split <;> trivial
  | waitW i seen =>
    obtain ⟨_, ht⟩ := Option.ite_none_left_eq_some.mp ht
    cases ht
    exact h.goto trivial
  | write i =>
    simp only [run] at ht
    split at ht
    · cases ht
      exact h.die p _
    · split at ht
      · cases ht
      · cases ht
        rw [sendData_eq]
        exact (h.set (h.nodes i).put).goto trivial
  | closeW i =>
    cases ht
    exact (h.set ((h.nodes i).leave p)).goto trivial
  | openR =>
    simp only [run] at ht
    split at ht
    · cases ht
      exact h.goto trivial
    · rename_i i _
      have hn := h.nodes i
      split at ht
      · cases ht
        exact h.goto trivial
      · cases ht
        refine (h.set ?_).goto ?_
        · exact ⟨hn.fifo, hn.regular⟩
        · split <;> trivial
  | waitR i seen =>
    obtain ⟨_, ht⟩ := Option.ite_none_left_eq_some.mp ht
    cases ht
    exact h.goto trivial
  | read fd =>
    cases fd with
    | none =>
      cases ht
      exact h.goto trivial
    | some i =>
      have hn := h.nodes i
      simp only [run] at ht
      split at ht
      · rename_i hregular
        cases ht
        refine h.goto ?_
        obtain hb | hb := hn.regular hregular
        · rw [hb]
          exact .inl (recvData_nil _)
        · rw [hb, List.take_of_length_le record_length.le]
          exact .inr (recvData_record _)
      · rename_i hfifo
        split at ht
        · rename_i hb
          split at ht
          · cases ht
            refine h.goto (.inl ?_)
            rw [hb]
            exact recvData_nil _
          · cases ht
        · rename_i hb
          obtain ⟨htake, hclean⟩ := hn.taken hfifo hb
          cases ht
          refine (h.set hclean).goto (.inr ?_)
          rw [htake]
          exact recvData_record _
  | closeR i data =>
    cases ht
    have hdata : Printed data := h.procs p (.closeR i data) hx
    exact (h.set ((h.nodes i).leave p)).goto hdata
  | exited ret data => cases ht

theorem step_inv (h : Inv s) (ht : step stack s a = some t) : Inv t := by
  cases a with
  | start p args =>
    obtain ⟨_, ht⟩ := Option.ite_none_right_eq_some.mp ht
    cases ht
    exact h.goto (main_good args)
  | run p =>
    obtain ⟨x, hx, ht⟩ := Option.bind_eq_some_iff.mp ht
    exact run_inv h hx ht
  | kill p =>
    simp only [step] at ht
    split at ht
    · cases ht
    · cases ht
    · cases ht
      exact h.die p _

end Inv

/-- What a process has printed is the whole text or nothing, and a message that was put into
a FIFO is still there, was received once, or was thrown away with the FIFO. -/
structure Sound (s : State ι) : Prop where
  printed : ∀ p ret data, s.procs p = some (.exited ret (some data)) → data = [] ∨ data = text
  accounted : ∀ i, (s.nodes i).kind = .fifo →
    ∃ k, (s.nodes i).bytes = (List.replicate k record).flatten ∧
      (s.nodes i).sent = (s.nodes i).received + (s.nodes i).discarded + k

theorem pipe_sound (stack : ι → Mem) : Always (step stack) Sound (start ι) := by
  refine .of_invariant Inv ⟨fun _ => fresh_clean _, fun p x hx => ?_⟩
    (fun _ _ _ hs h => step_inv hs h) fun s hs =>
      ⟨fun p ret data hp => ?_, fun i => (hs.nodes i).fifo⟩
  · cases hx
  · exact hs.procs p _ hp

/-- What no step changes: the kind of a file, and the count of the readers of one that the
name is not linked to, as it never is again. -/
structure Frame (s t : State ι) : Prop where
  next : s.next ≤ t.next
  path : (∀ i, s.path = some i → i < s.next) → ∀ i, t.path = some i → i < t.next
  kind : ∀ i < s.next, (t.nodes i).kind = (s.nodes i).kind
  unlinked : ∀ i < s.next, s.path ≠ some i →
    t.path ≠ some i ∧ (t.nodes i).rOpens = (s.nodes i).rOpens

section Frame

variable {stack : ι → Mem} {s t : State ι} {p q : ι} {x : Point} {a : Act ι} {i seen : Nat}

/-- A step moves one process, and to its wait for a reader only at the FIFO of the name. -/
structure Moves (s t : State ι) (p : ι) : Prop where
  frame : Frame s t
  point : ∃ y, t.procs = Function.update s.procs p (some y) ∧
    ∀ i seen, y = .waitW i seen → s.path = some i ∧ (s.nodes i).kind = .fifo

theorem Frame.moves (h : Frame s t) (ht : t.procs = s.procs) (p : ι)
    (hx : ∀ i seen, x = .waitW i seen → s.path = some i ∧ (s.nodes i).kind = .fifo) :
    Moves s (t.goto p x) p :=
  ⟨⟨h.next, h.path, h.kind, h.unlinked⟩, x, by rw [State.goto, ht], hx⟩

omit [DecidableEq ι] in
theorem Frame.refl (s : State ι) : Frame s s :=
  ⟨le_rfl, fun h => h, fun _ _ => rfl, fun _ _ h => ⟨h, rfl⟩⟩

omit [DecidableEq ι] in
theorem Frame.set {n : Node ι} (hk : n.kind = (s.nodes i).kind)
    (hr : s.path ≠ some i → n.rOpens = (s.nodes i).rOpens) : Frame s (s.set i n) := by
  refine ⟨le_rfl, fun h => h, fun j _ => ?_, fun j _ hj => ⟨hj, ?_⟩⟩
  · by_cases hji : j = i
    · subst hji
      simpa [State.set] using hk
    · simp [State.set, hji]
  · by_cases hji : j = i
    · subst hji
      simpa [State.set] using hr hj
    · simp [State.set, hji]

omit [DecidableEq ι] in
theorem Frame.create (s : State ι) (kind : Kind) : Frame s (s.create kind) := by
  have hnodes {j : Nat} (hj : j < s.next) : (s.create kind).nodes j = s.nodes j :=
    Function.update_of_ne hj.ne _ _
  refine ⟨Nat.le_succ _, fun _ i hi => ?_, fun j hj => ?_, fun j hj _ => ⟨?_, ?_⟩⟩
  · cases hi
    exact Nat.lt_succ_self _
  · rw [hnodes hj]
  · intro h
    exact absurd (Option.some.inj h) hj.ne'
  · rw [hnodes hj]

theorem leave_kind (n : Node ι) (p : ι) : (n.leave p).kind = n.kind := by
  rw [Node.leave, Node.settle]
  split <;> rfl

theorem leave_rOpens (n : Node ι) (p : ι) : (n.leave p).rOpens = n.rOpens := by
  rw [Node.leave, Node.settle]
  split <;> rfl

theorem Frame.leave (s : State ι) (i : Nat) (p : ι) : Frame s (s.set i ((s.nodes i).leave p)) :=
  .set (leave_kind _ p) fun _ => leave_rOpens _ p

theorem die_moves (s : State ι) (p : ι) (x : Point) : Moves s (die s p x) p := by
  rw [die]
  split
  · exact (Frame.refl s).moves rfl p (by simp)
  · exact (Frame.leave s _ p).moves rfl p (by simp)

omit [DecidableEq ι] in
theorem put_frame (n : Node ι) (msg : List UInt8) :
    (put n msg).kind = n.kind ∧ (put n msg).rOpens = n.rOpens := by
  rw [put]
  split
  · exact ⟨rfl, rfl⟩
  · exact ⟨rfl, rfl⟩

theorem run_moves (ht : run stack s p x = some t) : Moves s t p := by
  cases x with
  | unlink =>
    cases ht
    refine ⟨⟨le_rfl, fun _ i hi => ?_, fun _ _ => rfl, fun i _ _ => ⟨?_, rfl⟩⟩, _, rfl, by simp⟩
    · cases hi
    · simp
  | mkfifo =>
    simp only [run] at ht
    split at ht
    · cases ht
      exact (Frame.refl s).moves rfl p (by simp)
    · cases ht
      exact (Frame.create s .fifo).moves rfl p (by simp)
  | openW =>
    simp only [run] at ht
    split at ht
    · cases ht
      exact (Frame.create s .regular).moves rfl p (by simp)
    · rename_i i hi
      split at ht
      · cases ht
        exact (Frame.refl s).moves rfl p (by simp)
      · rename_i hfifo
        cases ht
        refine Frame.moves (Frame.set ?_ fun _ => ?_) rfl p fun j seen hj => ?_
        · rfl
        · rfl
        · split at hj
          · cases hj
            exact ⟨hi, hfifo⟩
          · cases hj
  | waitW i seen | waitR i seen =>
    obtain ⟨_, ht⟩ := Option.ite_none_left_eq_some.mp ht
    cases ht
    exact (Frame.refl s).moves rfl p (by simp)
  | write i =>
    simp only [run] at ht
    split at ht
    · cases ht
      exact die_moves s p _
    · split at ht
      · cases ht
      · cases ht
        obtain ⟨hk, hr⟩ := put_frame (s.nodes i) (sendData (stack p))
        exact (Frame.set hk fun _ => hr).moves rfl p (by simp)
  | closeW i | closeR i data =>
    cases ht
    exact (Frame.leave s i p).moves rfl p (by simp)
  | openR =>
    simp only [run] at ht
    split at ht
    · cases ht
      exact (Frame.refl s).moves rfl p (by simp)
    · rename_i i hi
      split at ht
      · cases ht
        exact (Frame.refl s).moves rfl p (by simp)
      · cases ht
        refine Frame.moves (Frame.set ?_ fun hne => absurd hi hne) rfl p fun j seen hj => ?_
        · rfl
        · split at hj
          · cases hj
          · cases hj
  | read fd =>
    cases fd with
    | none =>
      cases ht
      exact (Frame.refl s).moves rfl p (by simp)
    | some i =>
      simp only [run] at ht
      split at ht
      · cases ht
        exact (Frame.refl s).moves rfl p (by simp)
      · split at ht
        · split at ht
          · cases ht
            exact (Frame.refl s).moves rfl p (by simp)
          · cases ht
        · cases ht
          refine Frame.moves (Frame.set ?_ fun _ => ?_) rfl p (by simp)
          · rfl
          · rfl
  | exited ret data => cases ht

def Act.actor : Act ι → ι
  | .start p _ | .run p | .kill p => p

theorem main_not_waits (args : List (List UInt8)) : main args ≠ .waitW i seen := by
  unfold main
  split
  · split
    · simp
    · split <;> simp
  · simp

theorem step_moves (ht : step stack s a = some t) : Moves s t a.actor := by
  cases a with
  | start p args =>
    obtain ⟨_, ht⟩ := Option.ite_none_right_eq_some.mp ht
    cases ht
    exact (Frame.refl s).moves rfl p fun _ _ h => absurd h (main_not_waits args)
  | run p =>
    obtain ⟨x, _, ht⟩ := Option.bind_eq_some_iff.mp ht
    exact run_moves ht
  | kill p =>
    simp only [step] at ht
    split at ht
    · cases ht
    · cases ht
    · cases ht
      exact die_moves s p _

/-- The name and the waiting senders stand for files that exist. -/
structure Linked (s : State ι) : Prop where
  path : ∀ i, s.path = some i → i < s.next
  waits : ∀ p i seen, s.procs p = some (.waitW i seen) → i < s.next ∧ (s.nodes i).kind = .fifo

theorem step_linked (h : Linked s) (ht : step stack s a = some t) : Linked t := by
  obtain ⟨hframe, y, hprocs, hy⟩ := step_moves ht
  refine ⟨hframe.path h.path, fun q i seen hq => ?_⟩
  have hold : i < s.next ∧ (s.nodes i).kind = .fifo := by
    rw [hprocs] at hq
    obtain ⟨_, hq⟩ | ⟨_, hq⟩ := update_eq_some hq
    · obtain ⟨hpath, hkind⟩ := hy i seen hq.symm
      exact ⟨h.path i hpath, hkind⟩
    · exact h.waits q i seen hq
  exact ⟨hold.1.trans_le hframe.next, (hframe.kind i hold.1).trans hold.2⟩

/-- The process itself is not killed. -/
def Spares (p : ι) (_ : State ι) (a : Act ι) : Prop := a ≠ .kill p

/-- A sender waits for a reader of a file that has lost the name. -/
structure Orphaned (s : State ι) (p : ι) (i seen : Nat) : Prop where
  waits : s.procs p = some (.waitW i seen)
  unread : (s.nodes i).rOpens = seen
  unlinked : s.path ≠ some i
  old : i < s.next

theorem Orphaned.step (h : Orphaned s p i seen) (ha : a ≠ .kill p)
    (ht : NamedPipe.step stack s a = some t) : Orphaned t p i seen := by
  have hne : p ≠ a.actor := by
    cases a with
    | start q args =>
      rintro (rfl : p = q)
      simp [NamedPipe.step, h.waits] at ht
    | run q =>
      rintro (rfl : p = q)
      simp [NamedPipe.step, h.waits, run, h.unread] at ht
    | kill q =>
      rintro (rfl : p = q)
      exact ha rfl
  obtain ⟨hframe, y, hprocs, _⟩ := step_moves ht
  obtain ⟨hpath, hopens⟩ := hframe.unlinked i h.old h.unlinked
  refine ⟨?_, hopens.trans h.unread, hpath, h.old.trans_le hframe.next⟩
  rw [hprocs, Function.update_of_ne hne, h.waits]

theorem Orphaned.forever (h : Orphaned s p i seen)
    (ht : Reaches (NamedPipe.step stack) (Spares p) s t) : Orphaned t p i seen := by
  induction ht with
  | refl => exact h
  | tail _ hn ih =>
    obtain ⟨a, ha, hstep⟩ := hn
    exact ih.step ha hstep

/-- Once a receiver opens the FIFO of the name, a sender that waits there goes on. -/
theorem receiver_frees {r : ι} (hw : s.procs p = some (.waitW i seen))
    (hopens : (s.nodes i).rOpens = seen) (hr : s.procs r = none) (hpath : s.path = some i)
    (hkind : (s.nodes i).kind = .fifo) :
    ∃ t, Reaches (step stack) (Spares p) s t ∧ t.procs p = some (.write i) := by
  have hne : p ≠ r := by
    rintro rfl
    rw [hr] at hw
    cases hw
  let n := s.nodes i
  let started := s.goto r .openR
  let opened := (started.set i { n with readers := r :: n.readers, rOpens := n.rOpens + 1 }).goto r
    (if n.writers = [] then .waitR i n.wOpens else .read (some i))
  have hmain : main [[], ascii ['r']] = .openR := rfl
  have hstart : step stack s (.start r [[], ascii ['r']]) = some started := by
    simp [step, hr, hmain, started]
  have hopen : step stack started (.run r) = some opened := by
    simp [step, started, State.goto, run, hpath, hkind, opened, n]
  have hwait : opened.procs p = some (.waitW i seen) := by
    simp [opened, started, State.goto, State.set, hne, hw]
  have hmore : (opened.nodes i).rOpens ≠ seen := by
    simp [opened, State.goto, State.set, n, hopens]
  have hwrite : step stack opened (.run p) = some (opened.goto p (.write i)) := by
    simp [step, hwait, run, hmore]
  refine ⟨opened.goto p (.write i), ?_, Function.update_self _ _ _⟩
  have h₁ : Reaches (step stack) (Spares p) s started := .single (by simp [Spares]) hstart
  have h₂ : Reaches (step stack) (Spares p) started opened := .single (by simp [Spares]) hopen
  have h₃ : Reaches (step stack) (Spares p) opened (opened.goto p (.write i)) :=
    .single (by simp [Spares]) hwrite
  exact h₁.trans (h₂.trans h₃)

end Frame

/-- A sender that waits for the first reader of its FIFO can still come to its write exactly
when the name is still linked to that FIFO. -/
def SendsOnlyLinked (stack : ι → Mem) (s : State ι) : Prop :=
  ∀ p r i, s.procs p = some (.waitW i (s.nodes i).rOpens) → s.procs r = none →
    ((∃ t, Reaches (step stack) (Spares p) s t ∧ t.procs p = some (.write i)) ↔ s.path = some i)

/-- Since every sender begins with an `unlink`, it takes the name from one that waits. -/
theorem senders_strand (stack : ι → Mem) :
    Always (step stack) (SendsOnlyLinked stack) (start ι) := by
  intro s h p r i hw hr
  have hlinked : Linked s := by
    refine h.invariant ⟨fun i hi => ?_, fun p i seen hp => ?_⟩ fun _ _ _ hs _ ht =>
      step_linked hs ht
    · cases hi
    · cases hp
  obtain ⟨hold, hkind⟩ := hlinked.waits p i _ hw
  refine ⟨fun ⟨t, ht, hp⟩ => ?_, fun hpath => receiver_frees hw rfl hr hpath hkind⟩
  by_contra hpath
  have horphan : Orphaned s p i (s.nodes i).rOpens := ⟨hw, rfl, hpath, hold⟩
  rw [(horphan.forever ht).waits] at hp
  cases hp

end LinuxExamples.NamedPipe
