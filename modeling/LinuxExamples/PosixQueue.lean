import LinuxExamples.Access
import LinuxExamples.AnonMmap
import LinuxExamples.Mailbox
import LinuxExamples.SenderBounds

namespace LinuxExamples.PosixQueue

open Access Bytes Mailbox Runs
open AnonMmap (snprintf)
open FileMonitor (Store)
open SenderBounds (padded)

/-- The text that `send_data` formats. -/
def hello : List UInt8 := ascii ['h', 'e', 'l', 'l', 'o', ' ', 'w', 'o', 'r', 'l', 'd']

/-- A queue as the kernel has it, with its `mq_maxmsg` and `mq_msgsize`. -/
structure Mq where
  node : Inode
  maxmsg : Nat
  msgsize : Nat
  maxmsg_pos : 0 < maxmsg
  msgsize_pos : 0 < msgsize

/-- A message with the process that sent it. -/
structure Letter (ι : Type) where
  sender : ι
  prio : Nat
  text : List UInt8
  deriving DecidableEq

inductive Call where
  | mqSend | mqReceive
  deriving DecidableEq

/-- Where a process is: before `mq_open`, in its call on the queue with the `max_len` of
its buffer, or at its end with what it returned and the text behind `[RECV] data`. -/
inductive Point where
  | opening (c : Call) | calling (c : Call) (maxLen : Nat)
  | exited (ret : Int) (data : Option (List UInt8))
  deriving DecidableEq

/-- How `main` begins with its arguments. -/
def main : List (List UInt8) → Point
  | _ :: mode :: _ =>
    if mode = ascii ['s'] then .opening .mqSend
    else if mode = ascii ['r'] then .opening .mqReceive
    else .exited (-1) none
  | _ => .exited (-1) none

/-- The buffer of `send_data`. -/
def sendData (heap : Mem) (maxLen : Nat) : Mem := snprintf (memset heap maxLen) maxLen hello

/-- What `recv_data` prints. Its `memset` has the size of the pointer, not of the buffer. -/
def recvData (heap : Mem) (maxLen : Nat) (text : List UInt8) : List UInt8 :=
  str (write (memset heap sizeofPointer) 0 text) 0 maxLen

/-- The stores to the buffer before the call on the queue. -/
def stores : Call → Nat → List Store
  | .mqSend, maxLen => [(0, List.replicate maxLen 0), (0, hello.take (maxLen - 1) ++ [0])]
  | .mqReceive, _ => [(0, List.replicate sizeofPointer 0)]

/-- The attributes of a queue that is created without any, and, for each process, who runs
it, its group and `umask`, and what its heap holds. -/
structure Machine (ι : Type) where
  maxmsg : Nat
  msgsize : Nat
  maxmsg_pos : 0 < maxmsg
  msgsize_pos : 0 < msgsize
  caller : ι → Caller
  group : ι → Nat
  umask : ι → Nat
  heap : ι → Mem

/-- The queue, once it exists, with its messages, the processes, all messages ever sent
and received, and all stores to the buffers, each with the size of its buffer. -/
structure State (ι : Type) where
  queue : Option Mq
  letters : List (Letter ι)
  procs : ι → Option Point
  sent : List (Letter ι)
  received : List (Letter ι)
  stored : List (Nat × Store)

def start (ι : Type) (queue : Option Mq) : State ι := ⟨queue, [], fun _ => none, [], [], []⟩

variable {ι : Type} [DecidableEq ι]

/-- The oldest message of the highest priority. -/
def request : Request (Letter ι) Int where
  accepts _ := true
  rank l := -l.prio

def created (m : Machine ι) (p : ι) : Mq :=
  ⟨⟨(m.caller p).uid, m.group p, masked 0o644 (m.umask p)⟩, m.maxmsg, m.msgsize, m.maxmsg_pos,
    m.msgsize_pos⟩

/-- `mq_open` with `O_RDWR`, for the receiver also with `O_CREAT`. -/
def mqOpen (m : Machine ι) (p : ι) (queue : Option Mq) (c : Call) : Option Mq :=
  match queue, c with
  | some q, _ => if q.node.grants (m.caller p) [.read, .write] then some q else none
  | none, .mqSend => none
  | none, .mqReceive => some (created m p)

def letter (m : Machine ι) (p : ι) (maxLen : Nat) : Letter ι :=
  ⟨p, 1, read (sendData (m.heap p) maxLen) 0 maxLen⟩

/-- A process starts with its arguments, opens the queue and fills its buffer or fails,
makes its call on the queue, or is interrupted in it. -/
inductive Act (ι : Type) where
  | start (p : ι) (args : List (List UInt8)) | opens (p : ι) (ok : Bool) | call (p : ι)
  | interrupt (p : ι)

def State.goto (s : State ι) (p : ι) (x : Point) : State ι :=
  { s with procs := Function.update s.procs p (some x) }

def call (m : Machine ι) (s : State ι) (q : Mq) (p : ι) (maxLen : Nat) : Call → Option (State ι)
  | .mqSend =>
    if s.letters.length < q.maxmsg then
      some { s.goto p (.exited 0 none) with
        letters := s.letters ++ [letter m p maxLen]
        sent := s.sent ++ [letter m p maxLen] }
    else none
  | .mqReceive =>
    match take request s.letters with
    | none => none
    | some (l, rest) =>
      some { s.goto p (.exited 0 (some (recvData (m.heap p) maxLen l.text))) with
        letters := rest
        received := s.received ++ [l]
        stored := s.stored ++ [(maxLen, (0, l.text))] }

def step (m : Machine ι) (s : State ι) : Act ι → Option (State ι)
  | .start p args => if s.procs p = none then some (s.goto p (main args)) else none
  | .opens p ok =>
    match s.procs p with
    | some (.opening c) =>
      match mqOpen m p s.queue c, ok with
      | some q, true =>
        some { s.goto p (.calling c q.msgsize) with
          queue := some q
          stored := s.stored ++ (stores c q.msgsize).map fun x => (q.msgsize, x) }
      | _, _ => some (s.goto p (.exited 0 none))
    | _ => none
  | .call p =>
    match s.procs p, s.queue with
    | some (.calling c maxLen), some q => call m s q p maxLen c
    | _, _ => none
  | .interrupt p =>
    match s.procs p with
    | some (.calling _ _) => some (s.goto p (.exited 0 none))
    | _ => none

/-- What a step does: nothing to the queue, an `mq_open`, a send, or a receive. -/
inductive Effect (m : Machine ι) (s t : State ι) : Act ι → Prop where
  | quiet {a} (p : ι) (x : Point)
      (begun : s.procs p = none ∨ ∃ y, s.procs p = some y ∧ ∀ ret d, y ≠ .exited ret d)
      (silent : (∀ ret d, x ≠ .exited ret (some d)) ∧ ∀ c n, x ≠ .calling c n)
      (t_eq : t = s.goto p x) : Effect m s t a
  | opens (p : ι) (c : Call) (q : Mq) (opening : s.procs p = some (.opening c))
      (opened : mqOpen m p s.queue c = some q)
      (t_eq : t = { s.goto p (.calling c q.msgsize) with
        queue := some q
        stored := s.stored ++ (stores c q.msgsize).map fun x => (q.msgsize, x) }) :
      Effect m s t (.opens p true)
  | send (p : ι) (maxLen : Nat) (q : Mq) (calling : s.procs p = some (.calling .mqSend maxLen))
      (queue_eq : s.queue = some q) (room : s.letters.length < q.maxmsg)
      (t_eq : t = { s.goto p (.exited 0 none) with
        letters := s.letters ++ [letter m p maxLen]
        sent := s.sent ++ [letter m p maxLen] }) : Effect m s t (.call p)
  | recv (p : ι) (maxLen : Nat) (q : Mq) (l : Letter ι) (rest : List (Letter ι))
      (calling : s.procs p = some (.calling .mqReceive maxLen)) (queue_eq : s.queue = some q)
      (taken : take request s.letters = some (l, rest))
      (t_eq : t = { s.goto p (.exited 0 (some (recvData (m.heap p) maxLen l.text))) with
        letters := rest
        received := s.received ++ [l]
        stored := s.stored ++ [(maxLen, (0, l.text))] }) : Effect m s t (.call p)

theorem main_silent (args : List (List UInt8)) :
    (∀ ret d, main args ≠ .exited ret (some d)) ∧ ∀ c n, main args ≠ .calling c n := by
  unfold main
  split
  · split
    · simp
    · split <;> simp
  · simp

theorem call_effect {m : Machine ι} {s t : State ι} {q : Mq} {p : ι} {c : Call} {maxLen : Nat}
    (hp : s.procs p = some (.calling c maxLen)) (hq : s.queue = some q)
    (h : call m s q p maxLen c = some t) : Effect m s t (.call p) := by
  cases c with
  | mqSend =>
    obtain ⟨hroom, ht⟩ := Option.ite_none_right_eq_some.mp h
    exact .send p maxLen q hp hq hroom (Option.some.inj ht).symm
  | mqReceive =>
    simp only [call] at h
    split at h
    · cases h
    · rename_i l rest ht
      exact .recv p maxLen q l rest hp hq ht (Option.some.inj h).symm

theorem step_effect {m : Machine ι} {s t : State ι} {a : Act ι} (h : step m s a = some t) :
    Effect m s t a := by
  cases a with
  | start p args =>
    obtain ⟨hp, ht⟩ := Option.ite_none_right_eq_some.mp h
    exact .quiet p _ (.inl hp) (main_silent args) (Option.some.inj ht).symm
  | opens p ok =>
    simp only [step] at h
    split at h
    · rename_i c hp
      split at h
      · rename_i q ho
        exact .opens p c q hp ho (Option.some.inj h).symm
      · exact .quiet p _ (.inr ⟨_, hp, by simp⟩) (by simp) (Option.some.inj h).symm
    · cases h
  | call p =>
    simp only [step] at h
    split at h
    · rename_i c maxLen q hp hq
      exact call_effect hp hq h
    · cases h
  | interrupt p =>
    simp only [step] at h
    split at h
    · rename_i c maxLen hp
      exact .quiet p _ (.inr ⟨_, hp, by simp⟩) (by simp) (Option.some.inj h).symm
    · cases h

omit [DecidableEq ι] in
theorem request_respects : Respects Letter.prio (request : Request (Letter ι) Int) := by
  intro x y hxy ha
  refine ⟨ha, ?_⟩
  simp only [request, hxy]

def office (s : State ι) : Lanes (Letter ι) Nat := lanes Letter.prio s.sent s.letters s.received

/-- A step sends, receives, or is not one of the abstract queues. -/
theorem step_office {m : Machine ι} {s t : State ι} {a : Act ι} (h : step m s a = some t) :
    Reaches (Mailbox.step Letter.prio) free (office s) (office t) := by
  cases step_effect h with
  | quiet p x begun silent t_eq | opens p c q opening opened t_eq =>
    subst t_eq
    exact .refl _
  | send p maxLen q calling queue_eq room t_eq =>
    subst t_eq
    exact .single trivial (lanes_push Letter.prio s.sent s.letters s.received _)
  | recv p maxLen q l rest calling queue_eq taken t_eq =>
    subst t_eq
    exact .single trivial (lanes_take Letter.prio request_respects taken s.sent s.received)

/-- A process that has sent a message has ended. -/
def Ended (s : State ι) (p : ι) : Prop := ∃ ret d, s.procs p = some (.exited ret d)

theorem goto_ended {s : State ι} {p q : ι} (hp : ¬ Ended s p) (x : Point) (hq : Ended s q) :
    Ended (s.goto p x) q := by
  have hne : q ≠ p := fun he => hp (he ▸ hq)
  obtain ⟨ret, d, hd⟩ := hq
  exact ⟨ret, d, by simp [State.goto, hne, hd]⟩

omit [DecidableEq ι] in
theorem not_ended {s : State ι} {p : ι}
    (h : s.procs p = none ∨ ∃ y, s.procs p = some y ∧ ∀ ret d, y ≠ .exited ret d) :
    ¬ Ended s p := by
  rintro ⟨ret, d, hd⟩
  obtain hnone | ⟨y, hy, hrun⟩ := h
  · rw [hnone] at hd
    cases hd
  · rw [hy] at hd
    exact hrun ret d (Option.some.inj hd)

theorem step_ended {m : Machine ι} {s t : State ι} {a : Act ι} (h : step m s a = some t) {q : ι}
    (hq : Ended s q) : Ended t q := by
  cases step_effect h with
  | quiet p x begun silent t_eq =>
    subst t_eq
    exact goto_ended (not_ended begun) x hq
  | opens p c q opening opened t_eq =>
    subst t_eq
    exact goto_ended (not_ended (.inr ⟨_, opening, by simp⟩)) _ hq
  | send p maxLen q calling queue_eq room t_eq =>
    subst t_eq
    exact goto_ended (not_ended (.inr ⟨_, calling, by simp⟩)) _ hq
  | recv p maxLen q l rest calling queue_eq taken t_eq =>
    subst t_eq
    exact goto_ended (not_ended (.inr ⟨_, calling, by simp⟩)) _ hq

theorem step_signed {m : Machine ι} {s t : State ι} {a : Act ι}
    (hs : Signed (Ended s) (s.sent.map Letter.sender)) (h : step m s a = some t) :
    Signed (Ended t) (t.sent.map Letter.sender) := by
  have hkeep (q : ι) (hq : Ended s q) : Ended t q := step_ended h hq
  cases step_effect h with
  | quiet p x begun silent t_eq =>
    subst t_eq
    exact hs.mono hkeep
  | opens p c q opening opened t_eq =>
    subst t_eq
    exact hs.mono hkeep
  | send p maxLen q calling queue_eq room t_eq =>
    have hrun : ¬ Ended s p := not_ended (.inr ⟨_, calling, by simp⟩)
    subst t_eq
    rw [List.map_append]
    exact hs.push hkeep hrun ⟨0, none, Function.update_self _ _ _⟩
  | recv p maxLen q l rest calling queue_eq taken t_eq =>
    subst t_eq
    exact hs.mono hkeep

/-- What of the text fits into a message of the queue. -/
def fitting (q : Mq) : List UInt8 := hello.take (q.msgsize - 1)

theorem fitting_noNul (q : Mq) : 0 ∉ fitting q :=
  fun h => absurd (List.mem_of_mem_take h) (by decide)

theorem fitting_length (q : Mq) : (fitting q).length < q.msgsize := by
  have hle : (fitting q).length ≤ q.msgsize - 1 := List.length_take_le _ _
  have hpos := q.msgsize_pos
  omega

omit [DecidableEq ι] in
theorem letter_text (m : Machine ι) (p : ι) (q : Mq) :
    (letter m p q.msgsize).text = padded (fitting q) q.msgsize :=
  SenderBounds.read_strcpy_memset _ _ _

theorem recvData_padded (heap : Mem) (q : Mq) :
    recvData heap q.msgsize (padded (fitting q) q.msgsize) = fitting q := by
  obtain ⟨zs, hz⟩ := SenderBounds.padded_short (fitting_length q)
  rw [recvData, hz]
  exact (holds_write _ (fitting_noNul q) zs).str_eq (fitting_length q).le

omit [DecidableEq ι] in
theorem opened_eq {m : Machine ι} {p : ι} {c : Call} {q q' : Mq}
    (h : mqOpen m p (some q) c = some q') : q' = q :=
  (Option.some.inj (Option.ite_none_right_eq_some.mp h).2).symm

/-- The queue never holds more than it may, nor anything but the text, cut to the size of its
messages; and this is all that is ever printed. -/
structure Served (s : State ι) : Prop where
  calling : ∀ p c n, s.procs p = some (.calling c n) → ∃ q, s.queue = some q ∧ n = q.msgsize
  letters : ∀ l ∈ s.letters, l.prio = 1 ∧
    ∃ q, s.queue = some q ∧ l.text = padded (fitting q) q.msgsize
  printed : ∀ p ret d, s.procs p = some (.exited ret (some d)) →
    ∃ q, s.queue = some q ∧ d = fitting q
  bounded : ∀ q, s.queue = some q → s.letters.length ≤ q.maxmsg

theorem step_served {m : Machine ι} {s t : State ι} {a : Act ι} (hs : Served s)
    (h : step m s a = some t) : Served t := by
  cases step_effect h with
  | quiet p x begun silent t_eq =>
    subst t_eq
    refine ⟨fun r c n hr => ?_, hs.letters, fun r ret d hr => ?_, hs.bounded⟩
    · obtain ⟨_, hx⟩ | ⟨_, hr⟩ := update_eq_some hr
      · exact absurd hx.symm (silent.2 c n)
      · exact hs.calling r c n hr
    · obtain ⟨_, hx⟩ | ⟨_, hr⟩ := update_eq_some hr
      · exact absurd hx.symm (silent.1 ret d)
      · exact hs.printed r ret d hr
  | opens p c q opening opened t_eq =>
    -- an existing queue stays the same, and a new one is empty
    have hsame (q' : Mq) (hq' : s.queue = some q') : q = q' := by
      rw [hq'] at opened
      exact opened_eq opened
    have hkeep {P : Mq → Prop} (hP : ∃ q', s.queue = some q' ∧ P q') :
        ∃ q', some q = some q' ∧ P q' := by
      obtain ⟨q', hq', hP⟩ := hP
      exact ⟨q, rfl, hsame q' hq' ▸ hP⟩
    subst t_eq
    refine ⟨fun r d n hr => ?_, fun l hl => ?_, fun r ret d hr => ?_, fun q' hq' => ?_⟩
    · obtain ⟨_, hx⟩ | ⟨_, hr⟩ := update_eq_some hr
      · cases hx
        exact ⟨q, rfl, rfl⟩
      · exact hkeep (hs.calling r d n hr)
    · exact ⟨(hs.letters l hl).1, hkeep (hs.letters l hl).2⟩
    · obtain ⟨_, hx⟩ | ⟨_, hr⟩ := update_eq_some hr
      · cases hx
      · exact hkeep (hs.printed r ret d hr)
    · cases hq'
      cases hqueue : s.queue with
      | none =>
        have hnil : s.letters = [] := by
          refine List.eq_nil_iff_forall_not_mem.mpr fun l hl => ?_
          obtain ⟨_, q', hq', _⟩ := hs.letters l hl
          rw [hqueue] at hq'
          cases hq'
        simp [State.goto, hnil]
      | some q' => exact hsame q' hqueue ▸ hs.bounded q' hqueue
  | send p maxLen q calling queue_eq room t_eq =>
    have hlen : maxLen = q.msgsize := by
      obtain ⟨q', hq', hn⟩ := hs.calling p _ _ calling
      rw [queue_eq] at hq'
      cases hq'
      exact hn
    subst t_eq hlen
    refine ⟨fun r c n hr => ?_, fun l hl => ?_, fun r ret d hr => ?_, fun q' hq' => ?_⟩
    · obtain ⟨_, hx⟩ | ⟨_, hr⟩ := update_eq_some hr
      · cases hx
      · exact hs.calling r c n hr
    · obtain hl | hl := List.mem_append.mp hl
      · exact hs.letters l hl
      · obtain rfl := List.mem_singleton.mp hl
        exact ⟨rfl, q, queue_eq, letter_text m p q⟩
    · obtain ⟨_, hx⟩ | ⟨_, hr⟩ := update_eq_some hr
      · cases hx
      · exact hs.printed r ret d hr
    · obtain rfl : q = q' := Option.some.inj (queue_eq.symm.trans hq')
      simpa using room
  | recv p maxLen q l rest calling queue_eq taken t_eq =>
    have hperm := take_perm taken
    have hlen : maxLen = q.msgsize := by
      obtain ⟨q', hq', hn⟩ := hs.calling p _ _ calling
      rw [queue_eq] at hq'
      cases hq'
      exact hn
    subst t_eq hlen
    refine ⟨fun r c n hr => ?_, fun l' hl => ?_, fun r ret d hr => ?_, fun q' hq' => ?_⟩
    · obtain ⟨_, hx⟩ | ⟨_, hr⟩ := update_eq_some hr
      · cases hx
      · exact hs.calling r c n hr
    · exact hs.letters l' (hperm.mem_iff.mpr (List.mem_cons_of_mem l hl))
    · obtain ⟨_, hx⟩ | ⟨_, hr⟩ := update_eq_some hr
      · cases hx
        obtain ⟨_, q', hq', hl⟩ := hs.letters l (hperm.mem_iff.mpr List.mem_cons_self)
        obtain rfl : q = q' := Option.some.inj (queue_eq.symm.trans hq')
        exact ⟨q, queue_eq, by rw [hl, recvData_padded]⟩
      · exact hs.printed r ret d hr
    · have hcount : s.letters.length = rest.length + 1 := hperm.length_eq
      have hbound := hs.bounded q' hq'
      dsimp only
      omega

omit [DecidableEq ι] in
theorem start_served (queue : Option Mq) : Served (start ι queue) := by
  refine ⟨fun p c n hp => ?_, fun l hl => ?_, fun p ret d hp => ?_, fun q _ => Nat.zero_le _⟩
  · cases hp
  · cases hl
  · cases hp

theorem texts_served (m : Machine ι) (queue : Option Mq) :
    Always (step m) Served (start ι queue) :=
  .of_invariant Served (start_served queue) (fun _ _ _ hs h => step_served hs h) fun _ hs => hs

/-- The messages are received in the order in which they were sent, each once, and each
comes from another process. -/
structure Delivered (s : State ι) : Prop where
  refines : Reaches (Mailbox.step Letter.prio) free (lanes Letter.prio [] [] []) (office s)
  inOrder : s.sent = s.received ++ s.letters
  once : (s.sent.map Letter.sender).Nodup

theorem step_prio {m : Machine ι} {s t : State ι} {a : Act ι} (hs : ∀ l ∈ s.sent, l.prio = 1)
    (h : step m s a = some t) : ∀ l ∈ t.sent, l.prio = 1 := by
  cases step_effect h with
  | quiet p x begun silent t_eq | opens p c q opening opened t_eq
  | recv p maxLen q l rest calling queue_eq taken t_eq =>
    subst t_eq
    exact hs
  | send p maxLen q calling queue_eq room t_eq =>
    subst t_eq
    intro l hl
    obtain hl | hl := List.mem_append.mp hl
    · exact hs l hl
    · obtain rfl := List.mem_singleton.mp hl
      rfl

theorem messages_in_order (m : Machine ι) (queue : Option Mq) :
    Always (step m) Delivered (start ι queue) := by
  intro s h
  have hoffice : Reaches (Mailbox.step Letter.prio) free (office (start ι queue)) (office s) := by
    obtain ⟨x, hx, rfl⟩ := h.simulates (fun s x => x = office s) rfl fun s a t x hx _ ht =>
      ⟨office t, hx ▸ step_office ht, rfl⟩
    exact hx
  have hkept : Kept (office s) := reaches_kept Letter.prio hoffice fun _ => rfl
  have hsigned : Signed (Ended s) (s.sent.map Letter.sender) :=
    h.invariant ⟨by simp [start], by simp [start]⟩ fun _ _ _ hs _ ht => step_signed hs ht
  have hprio : ∀ l ∈ s.sent, l.prio = 1 :=
    h.invariant (by simp [start]) fun _ _ _ hs _ ht => step_prio hs ht
  have hperm : s.sent.Perm (s.received ++ s.letters) := Kept.perm Letter.prio hkept
  have hlane {xs : List (Letter ι)} (hxs : ∀ l ∈ xs, l ∈ s.sent) : lane Letter.prio 1 xs = xs :=
    List.filter_eq_self.mpr fun l hl => decide_eq_true (hprio l (hxs l hl))
  refine ⟨hoffice, ?_, hsigned.once⟩
  calc s.sent = lane Letter.prio 1 s.sent := (hlane fun l hl => hl).symm
    _ = lane Letter.prio 1 s.received ++ lane Letter.prio 1 s.letters := hkept 1
    _ = s.received ++ s.letters := by
      rw [hlane fun l hl => hperm.mem_iff.mpr (List.mem_append_left _ hl),
        hlane fun l hl => hperm.mem_iff.mpr (List.mem_append_right _ hl)]

/-- A process that has the queue open, has received from it or has sent to it. -/
def Uses (s : State ι) (p : ι) : Prop :=
  (∃ c n, s.procs p = some (.calling c n)) ∨ (∃ ret d, s.procs p = some (.exited ret (some d))) ∨
    p ∈ s.sent.map Letter.sender

/-- Only processes of `R` are started as receivers. -/
def ReceiversIn (R : Set ι) (_ : State ι) : Act ι → Prop
  | .start p args => main args = .opening .mqReceive → p ∈ R
  | _ => True

/-- The queue belongs to the receiver that created it, and no others use it but the
privileged. -/
structure Owned (m : Machine ι) (R : Set ι) (s : State ι) : Prop where
  node : ∀ q, s.queue = some q → ∃ p ∈ R, q = created m p
  receivers : ∀ p, s.procs p = some (.opening .mqReceive) → p ∈ R
  users : ∀ p, Uses s p → ∃ q, s.queue = some q ∧
    ((m.caller p).privileged ∨ (m.caller p).uid = q.node.owner)

omit [DecidableEq ι] in
/-- Who opens the queue owns it or is privileged, since only the owner may write to it. -/
theorem opened_owner {m : Machine ι} {R : Set ι} {queue : Option Mq} {p : ι} {c : Call} {q : Mq}
    (hnode : ∀ q, queue = some q → ∃ p ∈ R, q = created m p) (hp : c = .mqReceive → p ∈ R)
    (h : mqOpen m p queue c = some q) :
    (∃ r ∈ R, q = created m r) ∧ ((m.caller p).privileged ∨ (m.caller p).uid = q.node.owner) := by
  cases queue with
  | some q' =>
    have hgrant := (Option.ite_none_right_eq_some.mp h).1
    obtain rfl := opened_eq h
    obtain ⟨r, hr, rfl⟩ := hnode q rfl
    have hw : Want.write ∈ [Want.read, .write] := by simp
    exact ⟨⟨r, hr, rfl⟩, grants_write rfl (by decide) (by decide) hw hgrant⟩
  | none =>
    cases c with
    | mqSend => cases h
    | mqReceive =>
      cases h
      exact ⟨⟨p, hp rfl, rfl⟩, .inr rfl⟩

theorem uses_goto {s : State ι} {p r : ι} {x : Point} (hx : ∀ c n, x ≠ .calling c n)
    (hd : ∀ ret d, x ≠ .exited ret (some d)) (h : Uses (s.goto p x) r) : Uses s r := by
  obtain ⟨c, n, hr⟩ | ⟨ret, d, hr⟩ | hr := h
  · obtain ⟨_, he⟩ | ⟨_, hr⟩ := update_eq_some hr
    · exact absurd he.symm (hx c n)
    · exact .inl ⟨c, n, hr⟩
  · obtain ⟨_, he⟩ | ⟨_, hr⟩ := update_eq_some hr
    · exact absurd he.symm (hd ret d)
    · exact .inr (.inl ⟨ret, d, hr⟩)
  · exact .inr (.inr hr)

/-- Who is about to open the queue as a receiver was started as one. -/
theorem step_receivers {m : Machine ι} {R : Set ι} {s t : State ι} {a : Act ι}
    (hs : ∀ p, s.procs p = some (.opening .mqReceive) → p ∈ R) (ha : ReceiversIn R s a)
    (h : step m s a = some t) : ∀ p, t.procs p = some (.opening .mqReceive) → p ∈ R := by
  have hgoto {p : ι} {x : Point} (hx : x = .opening .mqReceive → p ∈ R) :
      ∀ q, (s.goto p x).procs q = some (.opening .mqReceive) → q ∈ R := by
    intro q hq
    obtain ⟨rfl, he⟩ | ⟨_, hq⟩ := update_eq_some hq
    · exact hx he.symm
    · exact hs q hq
  cases a with
  | start p args =>
    obtain ⟨_, ht⟩ := Option.ite_none_right_eq_some.mp h
    cases ht
    exact hgoto ha
  | opens p ok =>
    simp only [step] at h
    split at h
    · split at h
      · cases h
        exact hgoto nofun
      · cases h
        exact hgoto nofun
    · cases h
  | call p =>
    simp only [step] at h
    split at h
    · rename_i c maxLen q _ _
      cases c with
      | mqSend =>
        obtain ⟨_, ht⟩ := Option.ite_none_right_eq_some.mp h
        cases ht
        exact hgoto nofun
      | mqReceive =>
        simp only [call] at h
        split at h
        · cases h
        · cases h
          exact hgoto nofun
    · cases h
  | interrupt p =>
    simp only [step] at h
    split at h
    · cases h
      exact hgoto nofun
    · cases h

theorem step_owned {m : Machine ι} {R : Set ι} {s t : State ι} {a : Act ι} (hs : Owned m R s)
    (ha : ReceiversIn R s a) (h : step m s a = some t) : Owned m R t := by
  have hreceivers := step_receivers hs.receivers ha h
  cases step_effect h with
  | quiet p x begun silent t_eq =>
    subst t_eq
    exact ⟨hs.node, hreceivers, fun r hr => hs.users r (uses_goto silent.2 silent.1 hr)⟩
  | opens p c q opening opened t_eq =>
    obtain ⟨hq, howner⟩ :=
      opened_owner hs.node (fun hc => hs.receivers p (hc ▸ opening)) opened
    have hsame (q' : Mq) (hq' : s.queue = some q') : q = q' := by
      rw [hq'] at opened
      exact opened_eq opened
    subst t_eq
    refine ⟨fun q' hq' => ?_, hreceivers, fun r hr => ?_⟩
    · cases hq'
      exact hq
    · by_cases hrp : r = p
      · exact ⟨q, rfl, hrp ▸ howner⟩
      · have hold : Uses s r := by simpa [Uses, State.goto, hrp] using hr
        obtain ⟨q', hq', hu⟩ := hs.users r hold
        exact ⟨q, rfl, hsame q' hq' ▸ hu⟩
  | send p maxLen q calling queue_eq room t_eq =>
    have hp := hs.users p (.inl ⟨_, _, calling⟩)
    subst t_eq
    refine ⟨hs.node, hreceivers, fun r hr => ?_⟩
    by_cases hrp : r = p
    · exact hrp ▸ hp
    · refine hs.users r ?_
      simpa [Uses, State.goto, hrp, letter, Ne.symm hrp] using hr
  | recv p maxLen q l rest calling queue_eq taken t_eq =>
    have hp := hs.users p (.inl ⟨_, _, calling⟩)
    subst t_eq
    refine ⟨hs.node, hreceivers, fun r hr => ?_⟩
    by_cases hrp : r = p
    · exact hrp ▸ hp
    · refine hs.users r ?_
      simpa [Uses, State.goto, hrp] using hr

/-- In the runs in which only processes of `R` are started as receivers. -/
theorem only_owner (m : Machine ι) (R : Set ι) :
    AlwaysBy (step m) (ReceiversIn R) (Owned m R) (start ι none) := by
  refine fun s h => h.invariant ⟨fun q hq => ?_, fun p hp => ?_, fun p hp => ?_⟩
    fun _ _ _ hs ha ht => step_owned hs ha ht
  · cases hq
  · cases hp
  · obtain ⟨c, n, hp⟩ | ⟨ret, d, hp⟩ | hp := hp <;> cases hp

/-- No process is started as a receiver. -/
def OnlySenders (_ : State ι) : Act ι → Prop
  | .start _ args => main args ≠ .opening .mqReceive
  | _ => True

/-- There is no queue, nothing was sent, and nobody waits. -/
structure Idle (s : State ι) : Prop where
  queue : s.queue = none
  sent : s.sent = []
  procs : ∀ p x, s.procs p = some x → x = .opening .mqSend ∨ ∃ ret, x = .exited ret none

theorem main_cases (args : List (List UInt8)) :
    main args = .opening .mqSend ∨ main args = .opening .mqReceive ∨
      main args = .exited (-1) none := by
  unfold main
  split
  · split
    · exact .inl rfl
    · split
      · exact .inr (.inl rfl)
      · exact .inr (.inr rfl)
  · exact .inr (.inr rfl)

/-- Senders do not create the queue: without a receiver they all fail. -/
theorem senders_idle {m : Machine ι} {s : State ι}
    (h : Reaches (step m) OnlySenders (start ι none) s) : Idle s := by
  refine h.invariant ⟨rfl, rfl, fun p x hp => by cases hp⟩ fun s a t hs ha ht => ?_
  have hgoto {p : ι} {x : Point} (hx : x = .opening .mqSend ∨ ∃ ret, x = .exited ret none) :
      Idle (s.goto p x) := by
    refine ⟨hs.queue, hs.sent, fun q y hy => ?_⟩
    obtain ⟨_, hy⟩ | ⟨_, hy⟩ := update_eq_some hy
    · exact hy ▸ hx
    · exact hs.procs q y hy
  cases a with
  | start p args =>
    obtain ⟨_, ht⟩ := Option.ite_none_right_eq_some.mp ht
    cases ht
    apply hgoto
    obtain hm | hm | hm := main_cases args
    · exact .inl hm
    · exact absurd hm ha
    · exact .inr ⟨-1, hm⟩
  | opens p ok =>
    simp only [step, hs.queue] at ht
    split at ht
    · rename_i c hp
      obtain hc | ⟨ret, hc⟩ := hs.procs p _ hp
      · cases hc
        cases ht
        exact hgoto (.inr ⟨0, rfl⟩)
      · cases hc
    · cases ht
  | call p =>
    simp only [step, hs.queue] at ht
    split at ht
    · rename_i hq
      cases hq
    · cases ht
  | interrupt p =>
    simp only [step] at ht
    split at ht
    · rename_i c n hp
      obtain hc | ⟨ret, hc⟩ := hs.procs p _ hp
      · cases hc
      · cases hc
    · cases ht

/-- A machine with the usual attributes on which everyone is privileged. -/
def rootMachine : Machine Nat :=
  ⟨10, 8192, by decide, by decide, fun _ => ⟨0, [], true⟩, fun _ => 0, fun _ => 0, fun _ _ => 0⟩

/-- A sender that has found no queue. -/
def refused : State Nat :=
  ((start Nat none).goto 0 (.opening .mqSend)).goto 0 (.exited 0 none)

theorem senders_idle_refused : Idle refused := by
  have hrun : run (step rootMachine) (start Nat none) [.start 0 [[], ascii ['s']], .opens 0 true] =
      some refused := rfl
  refine senders_idle (m := rootMachine) (run_reaches_of (fun a ha u => ?_) hrun)
  obtain rfl | ha := List.mem_cons.mp ha
  · intro hm
    cases hm
  · obtain rfl := List.mem_singleton.mp ha
    trivial

/-- No store leaves its buffer. -/
def InBounds (s : State ι) : Prop := ∀ x ∈ s.stored, x.2.1 + x.2.2.length ≤ x.1

/-- The message size of the queue, whether it exists or is still to be created. -/
structure Sized (m : Machine ι) (n : Nat) (queue : Option Mq) : Prop where
  created : queue = none → m.msgsize = n
  existing : ∀ q, queue = some q → q.msgsize = n

omit [DecidableEq ι] in
theorem Sized.opened {m : Machine ι} {n : Nat} {queue : Option Mq} (hs : Sized m n queue) {p : ι}
    {c : Call} {q : Mq} (h : mqOpen m p queue c = some q) : q.msgsize = n := by
  cases queue with
  | some q' => exact opened_eq h ▸ hs.existing q' rfl
  | none =>
    cases c with
    | mqSend => cases h
    | mqReceive =>
      cases h
      exact hs.created rfl

omit [DecidableEq ι] in
theorem sized_of_opened {m : Machine ι} {queue : Option Mq} {p : ι} {q : Mq}
    (h : mqOpen m p queue .mqReceive = some q) : Sized m q.msgsize queue := by
  cases queue with
  | some q' =>
    refine ⟨fun hq => absurd hq (Option.some_ne_none q'), fun q'' hq => ?_⟩
    cases hq
    rw [opened_eq h]
  | none =>
    cases h
    exact ⟨fun _ => rfl, fun q' hq => absurd hq.symm (Option.some_ne_none q')⟩

theorem stores_inside {c : Call} {n : Nat} (h : sizeofPointer ≤ n) :
    ∀ x ∈ stores c n, x.1 + x.2.length ≤ n := by
  cases c with
  | mqSend =>
    have hpos : 0 < n := h.trans_lt' (by decide)
    simp [stores]
    omega
  | mqReceive => simpa [stores] using h

theorem step_inside {m : Machine ι} {n : Nat} (hn : sizeofPointer ≤ n) {s t : State ι} {a : Act ι}
    (hv : Served s) (hs : Sized m n s.queue) (hi : InBounds s) (h : step m s a = some t) :
    Sized m n t.queue ∧ InBounds t := by
  cases step_effect h with
  | quiet p x begun silent t_eq =>
    subst t_eq
    exact ⟨hs, hi⟩
  | opens p c q opening opened t_eq =>
    have hsize := hs.opened opened
    subst t_eq
    refine ⟨⟨fun hq => absurd hq (Option.some_ne_none q), fun q' hq' => ?_⟩, fun x hx => ?_⟩
    · cases hq'
      exact hsize
    · obtain hx | hx := List.mem_append.mp hx
      · exact hi x hx
      · obtain ⟨y, hy, rfl⟩ := List.mem_map.mp hx
        exact hsize ▸ stores_inside hn y (hsize ▸ hy)
  | send p maxLen q calling queue_eq room t_eq =>
    subst t_eq
    exact ⟨hs, hi⟩
  | recv p maxLen q l rest calling queue_eq taken t_eq =>
    obtain ⟨q', hq', hlen⟩ := hv.calling p _ _ calling
    obtain ⟨_, q'', hq'', htext⟩ := hv.letters l ((take_perm taken).mem_iff.mpr List.mem_cons_self)
    rw [hq'] at hq''
    cases hq''
    subst t_eq
    refine ⟨hs, fun x hx => ?_⟩
    obtain hx | hx := List.mem_append.mp hx
    · exact hi x hx
    · obtain rfl := List.mem_singleton.mp hx
      simp [htext, SenderBounds.padded_length, hlen]

/-- When `p` can open the queue, all runs stay inside the buffers exactly when a message has
the size of a pointer or more. -/
theorem inBounds_iff (m : Machine ι) {queue : Option Mq} {p : ι} {q : Mq}
    (hp : mqOpen m p queue .mqReceive = some q) :
    Always (step m) InBounds (start ι queue) ↔ sizeofPointer ≤ q.msgsize := by
  refine ⟨fun h => ?_, fun hn s hs => ?_⟩
  · -- `p` comes first and starts to receive
    let opened : State ι := { (start ι queue).goto p (.calling .mqReceive q.msgsize) with
      queue := some q
      stored := (stores .mqReceive q.msgsize).map fun x => (q.msgsize, x) }
    have hrun : run (step m) (start ι queue) [.start p [[], ascii ['r']], .opens p true] =
        some opened := by
      have hr : main [[], ascii ['r']] = .opening .mqReceive := rfl
      simp [run, step, start, State.goto, hr, hp, opened]
    have hlast := h opened (run_reaches hrun) _ List.mem_cons_self
    simpa using hlast
  · have hinv : Served s ∧ Sized m q.msgsize s.queue ∧ InBounds s := by
      apply hs.invariant
      · refine ⟨start_served queue, sized_of_opened hp, fun x hx => ?_⟩
        cases hx
      · intro u a v hu _ hv
        exact ⟨step_served hu.1 hv, step_inside hn hu.1 hu.2.1 hu.2.2 hv⟩
    exact hinv.2.2

/-- A queue with messages of four bytes. -/
def fourBytes : Mq := ⟨⟨0, 0, 0o644⟩, 10, 4, by decide, by decide⟩

theorem outOfBounds_fourBytes :
    ¬ Always (step rootMachine) InBounds (start Nat (some fourBytes)) := by
  have hopen : mqOpen rootMachine 0 (some fourBytes) .mqReceive = some fourBytes := rfl
  intro h
  exact absurd ((inBounds_iff rootMachine hopen).mp h) (by decide)

end LinuxExamples.PosixQueue
