import LinuxExamples.Access
import LinuxExamples.AnonMmap
import LinuxExamples.Mailbox
import LinuxExamples.Records
import LinuxExamples.SemIndex
import LinuxExamples.SenderBounds

namespace LinuxExamples.SysvQueue

open Access Bytes Mailbox Runs
open AnonMmap (snprintf)
open SemIndex (atoi)
open SenderBounds (padded)

def MAX_BUF_LEN : Nat := 1024

/-- The text that `send_data` formats. -/
def hello : List UInt8 := ascii ['H', 'e', 'l', 'l', 'o', ' ', 'w', 'o', 'r', 'l', 'd']

/-- A `SYSV_BUF`: its `mtype` and its `mtext`. -/
abbrev SysvBuf := Records.Record

/-- The local variable has any contents before. -/
def sysvBufSetting (buf : SysvBuf) (msg : List UInt8) (mtype : Int) : SysvBuf :=
  let buf := Records.cleared MAX_BUF_LEN buf
  (mtype, strcpy buf.2 msg)

/-- What `send_data` gives to `msgsnd`. -/
def sendData (stack : Mem) (frame : SysvBuf) (mtype : Int) : SysvBuf :=
  let buf := memset stack MAX_BUF_LEN
  let buf := snprintf buf MAX_BUF_LEN hello
  sysvBufSetting frame (str buf 0 MAX_BUF_LEN) mtype

/-- What `recv_data` prints when `msgrcv` has stored `mtext`. -/
def recvData (frame : SysvBuf) (mtext : List UInt8) : List UInt8 :=
  str (write frame.2 0 mtext) 0 MAX_BUF_LEN

def LONG_MAX : Int := 2 ^ 63 - 1

def LONG_MIN : Int := -2 ^ 63

/-- A number out of range becomes the nearest `long`. -/
def strtol (s : List UInt8) : Int := max LONG_MIN (min LONG_MAX (atoi s))

inductive Call where
  | msgsnd (mtype : Int) | msgrcv (mtype : Int)
  deriving DecidableEq

/-- Where a process is: before `sysv_mqid_setting`, in its call on the queue, or at its
end with what it returned and the text behind `Recv Data`. -/
inductive Point where
  | setting (c : Call) | calling (c : Call) | exited (ret : Int) (data : Option (List UInt8))
  deriving DecidableEq

/-- How `main` begins with its arguments. -/
def main : List (List UInt8) → Point
  | _ :: mode :: mtype :: _ =>
    if mode = ascii ['s'] then .setting (.msgsnd (strtol mtype))
    else if mode = ascii ['r'] then .setting (.msgrcv (strtol mtype))
    else .exited 0 none
  | _ => .exited (-1) none

/-- A message with the process that sent it. -/
structure Letter (ι : Type) where
  sender : ι
  mtype : Int
  mtext : List UInt8
  deriving DecidableEq

variable {ι : Type} [DecidableEq ι]

/-- What `msgrcv` selects by its type argument. -/
def request (mtype : Int) : Request (Letter ι) Int where
  accepts l := if mtype = 0 then true else if 0 < mtype then l.mtype = mtype else l.mtype ≤ -mtype
  rank l := if mtype < 0 then l.mtype else 0

/-- The limits of the system and, for each process, who runs it, its group and what its
stack holds. -/
structure Machine (ι : Type) where
  msgmax : Nat
  qbytes : Nat
  caller : ι → Caller
  group : ι → Nat
  stack : ι → Mem
  frame : ι → SysvBuf

/-- The queue, once a `msgget` has created it, with its messages, the processes, and
all messages ever sent and received. -/
structure State (ι : Type) where
  node : Option Inode
  letters : List (Letter ι)
  procs : ι → Option Point
  sent : List (Letter ι)
  received : List (Letter ι)

def start (ι : Type) : State ι := ⟨none, [], fun _ => none, [], []⟩

inductive Outcome (α : Type) where
  | blocks | fails | granted (a : α)

/-- `msgget(key, IPC_CREAT)`, with no permission bits: a new queue has mode 0. -/
def msgget (m : Machine ι) (p : ι) (node : Option Inode) : Inode :=
  node.getD ⟨(m.caller p).uid, m.group p, 0⟩

def bytes (letters : List (Letter ι)) : Nat := (letters.map fun l => l.mtext.length).sum

def msgsnd (m : Machine ι) (node : Inode) (letters : List (Letter ι)) (l : Letter ι) :
    Outcome (List (Letter ι)) :=
  if m.msgmax < l.mtext.length ∨ l.mtype < 1 then .fails
  else if node.grants (m.caller l.sender) [.write] = false then .fails
  else if bytes letters + l.mtext.length ≤ m.qbytes ∧ letters.length + 1 ≤ m.qbytes then
    .granted (letters ++ [l])
  else .blocks

def msgrcv (m : Machine ι) (node : Inode) (letters : List (Letter ι)) (p : ι) (mtype : Int) :
    Outcome (Letter ι × List (Letter ι)) :=
  if node.grants (m.caller p) [.read] = false then .fails
  else
    match take (request mtype) letters with
    | none => .blocks
    | some x => .granted x

/-- A process starts with its arguments, passes `sysv_mqid_setting` or fails in it, makes
its call on the queue, or is interrupted in it. -/
inductive Act (ι : Type) where
  | start (p : ι) (args : List (List UInt8)) | setting (p : ι) (ok : Bool) | call (p : ι)
  | interrupt (p : ι)

def State.goto (s : State ι) (p : ι) (x : Point) : State ι :=
  { s with procs := Function.update s.procs p (some x) }

def letter (m : Machine ι) (p : ι) (mtype : Int) : Letter ι :=
  let buf := sendData (m.stack p) (m.frame p) mtype
  ⟨p, buf.1, read buf.2 0 MAX_BUF_LEN⟩

def call (m : Machine ι) (s : State ι) (node : Inode) (p : ι) : Call → Option (State ι)
  | .msgsnd mtype =>
    match msgsnd m node s.letters (letter m p mtype) with
    | .blocks => none
    | .fails => some (s.goto p (.exited (-1) none))
    | .granted letters =>
      some { s.goto p (.exited 0 none) with
        letters := letters
        sent := s.sent ++ [letter m p mtype] }
  | .msgrcv mtype =>
    match msgrcv m node s.letters p mtype with
    | .blocks => none
    | .fails => some (s.goto p (.exited (-1) none))
    | .granted (l, letters) =>
      some { s.goto p (.exited 0 (some (recvData (m.frame p) l.mtext))) with
        letters := letters
        received := s.received ++ [l] }

def step (m : Machine ι) (s : State ι) : Act ι → Option (State ι)
  | .start p args => if s.procs p = none then some (s.goto p (main args)) else none
  | .setting p ok =>
    match s.procs p with
    | some (.setting c) =>
      if ok then some { s.goto p (.calling c) with node := some (msgget m p s.node) }
      else some (s.goto p (.exited (-1) none))
    | _ => none
  | .call p =>
    match s.procs p, s.node with
    | some (.calling c), some node => call m s node p c
    | _, _ => none
  | .interrupt p =>
    match s.procs p with
    | some (.calling _) => some (s.goto p (.exited (-1) none))
    | _ => none

/-- What a step does to the queue: nothing, a send, or a receive. -/
inductive Effect (m : Machine ι) (s t : State ι) : Act ι → Prop where
  | quiet {a} (p : ι) (x : Point) (procs : t.procs = Function.update s.procs p (some x))
      (node : t.node = s.node ∨ t.node = some (msgget m p s.node)) (letters : t.letters = s.letters)
      (sent : t.sent = s.sent) (received : t.received = s.received)
      (start : s.procs p = none ∨ ∃ y, s.procs p = some y ∧ ∀ ret d, y ≠ .exited ret d)
      (silent : ∀ ret d, x ≠ .exited ret (some d)) : Effect m s t a
  | send (p : ι) (mtype : Int) (node : Inode)
      (calling : s.procs p = some (.calling (.msgsnd mtype)))
      (node_eq : s.node = some node) (positive : 0 < mtype)
      (granted : node.grants (m.caller p) [.write])
      (room : bytes s.letters + MAX_BUF_LEN ≤ m.qbytes)
      (t_eq : t = { s.goto p (.exited 0 none) with
        letters := s.letters ++ [letter m p mtype]
        sent := s.sent ++ [letter m p mtype] }) : Effect m s t (.call p)
  | recv (p : ι) (mtype : Int) (node : Inode) (l : Letter ι) (rest : List (Letter ι))
      (calling : s.procs p = some (.calling (.msgrcv mtype)))
      (node_eq : s.node = some node) (granted : node.grants (m.caller p) [.read])
      (taken : take (request mtype) s.letters = some (l, rest))
      (t_eq : t = { s.goto p (.exited 0 (some (recvData (m.frame p) l.mtext))) with
        letters := rest
        received := s.received ++ [l] }) : Effect m s t (.call p)

omit [DecidableEq ι] in
theorem letter_length (m : Machine ι) (p : ι) (mtype : Int) :
    (letter m p mtype).mtext.length = MAX_BUF_LEN :=
  read_length _ _ _

theorem main_silent (args : List (List UInt8)) (ret : Int) (d : List UInt8) :
    main args ≠ .exited ret (some d) := by
  unfold main
  split
  · split
    · simp
    · split <;> simp
  · simp

theorem call_effect {m : Machine ι} {s t : State ι} {node : Inode} {p : ι} {c : Call}
    (hp : s.procs p = some (.calling c)) (hn : s.node = some node)
    (h : call m s node p c = some t) : Effect m s t (.call p) := by
  have hfail (ht : s.goto p (.exited (-1) none) = t) : Effect m s t (.call p) := by
    subst ht
    exact .quiet p _ rfl (.inl rfl) rfl rfl rfl (.inr ⟨_, hp, by simp⟩) (by simp)
  cases c with
  | msgsnd mtype =>
    simp only [call, msgsnd, letter_length] at h
    split at h
    · cases h
    · exact hfail (Option.some.inj h)
    · rename_i letters hm
      cases h
      split at hm
      · cases hm
      · rename_i hvalid
        split at hm
        · cases hm
        · rename_i hgrant
          split at hm
          · rename_i hroom
            cases hm
            have hpos : 0 < mtype := Int.not_le.mp fun hle =>
              hvalid (.inr (Int.lt_add_one_iff.mpr hle))
            exact .send p mtype node hp hn hpos (Bool.not_eq_false _ ▸ hgrant) hroom.1 rfl
          · cases hm
  | msgrcv mtype =>
    simp only [call, msgrcv] at h
    split at h
    · cases h
    · exact hfail (Option.some.inj h)
    · rename_i l letters hm
      cases h
      split at hm
      · cases hm
      · rename_i hgrant
        split at hm
        · cases hm
        · rename_i x hx
          cases hm
          exact .recv p mtype node l letters hp hn (Bool.not_eq_false _ ▸ hgrant) hx rfl

theorem step_effect {m : Machine ι} {s t : State ι} {a : Act ι} (h : step m s a = some t) :
    Effect m s t a := by
  cases a with
  | start p args =>
    obtain ⟨hp, ht⟩ := Option.ite_none_right_eq_some.mp h
    cases ht
    exact .quiet p _ rfl (.inl rfl) rfl rfl rfl (.inl hp) (main_silent args)
  | setting p ok =>
    simp only [step] at h
    split at h
    · rename_i c hp
      have hstart : ∃ y, s.procs p = some y ∧ ∀ ret d, y ≠ .exited ret d := ⟨_, hp, by simp⟩
      split at h
      · cases h
        exact .quiet p _ rfl (.inr rfl) rfl rfl rfl (.inr hstart) (by simp)
      · cases h
        exact .quiet p _ rfl (.inl rfl) rfl rfl rfl (.inr hstart) (by simp)
    · cases h
  | call p =>
    simp only [step] at h
    split at h
    · rename_i c node hp hn
      exact call_effect hp hn h
    · cases h
  | interrupt p =>
    simp only [step] at h
    split at h
    · rename_i c hp
      cases h
      exact .quiet p _ rfl (.inl rfl) rfl rfl rfl (.inr ⟨_, hp, by simp⟩) (by simp)
    · cases h

omit [DecidableEq ι] in
theorem request_respects (mtype : Int) :
    Respects Letter.mtype (request mtype : Request (Letter ι) Int) := by
  intro x y hxy ha
  simp only [request] at ha ⊢
  rw [← hxy]
  exact ⟨ha, rfl⟩

def office (s : State ι) : Lanes (Letter ι) Int := lanes Letter.mtype s.sent s.letters s.received

/-- A step sends, receives, or is not one of the abstract queues. -/
theorem step_office {m : Machine ι} {s t : State ι} {a : Act ι} (h : step m s a = some t) :
    Reaches (Mailbox.step Letter.mtype) free (office s) (office t) := by
  cases step_effect h with
  | quiet p x procs node letters sent received start silent =>
    rw [office, office, letters, sent, received]
    exact .refl _
  | send p mtype node calling node_eq positive granted room t_eq =>
    subst t_eq
    exact .single trivial (lanes_push Letter.mtype s.sent s.letters s.received _)
  | recv p mtype node l rest calling node_eq granted taken t_eq =>
    subst t_eq
    exact .single trivial (lanes_take Letter.mtype (request_respects mtype) taken s.sent s.received)

/-- A process that has sent a message has ended. -/
def Ended (s : State ι) (p : ι) : Prop := ∃ ret d, s.procs p = some (.exited ret d)

theorem update_ended {s : State ι} {p q : ι} (hp : ¬ Ended s p) (x : Point) (hq : Ended s q) :
    ∃ ret d, Function.update s.procs p (some x) q = some (.exited ret d) := by
  have hne : q ≠ p := fun he => hp (he ▸ hq)
  obtain ⟨ret, d, hd⟩ := hq
  exact ⟨ret, d, by rw [Function.update_of_ne hne, hd]⟩

omit [DecidableEq ι] in
theorem not_ended {s : State ι} {p : ι}
    (h : s.procs p = none ∨ ∃ y, s.procs p = some y ∧ ∀ ret d, y ≠ .exited ret d) :
    ¬ Ended s p := by
  rintro ⟨ret, d, hd⟩
  obtain hnone | ⟨y, hy, hrun⟩ := h
  · rw [hnone] at hd
    cases hd
  · rw [hy] at hd
    exact hrun ret d (Option.some.inj hd)

theorem step_ended {m : Machine ι} {s t : State ι} {a : Act ι} (h : step m s a = some t) {q : ι}
    (hq : Ended s q) : Ended t q := by
  cases step_effect h with
  | quiet p x procs node letters sent received start silent =>
    rw [Ended, procs]
    exact update_ended (not_ended start) x hq
  | send p mtype node calling node_eq positive granted room t_eq =>
    subst t_eq
    exact update_ended (not_ended (.inr ⟨_, calling, by simp⟩)) _ hq
  | recv p mtype node l rest calling node_eq granted taken t_eq =>
    subst t_eq
    exact update_ended (not_ended (.inr ⟨_, calling, by simp⟩)) _ hq

theorem step_signed {m : Machine ι} {s t : State ι} {a : Act ι}
    (hs : Signed (Ended s) (s.sent.map Letter.sender)) (h : step m s a = some t) :
    Signed (Ended t) (t.sent.map Letter.sender) := by
  have hkeep (q : ι) (hq : Ended s q) : Ended t q := step_ended h hq
  cases step_effect h with
  | quiet p x procs node letters sent received start silent => exact sent ▸ hs.mono hkeep
  | send p mtype node calling node_eq positive granted room t_eq =>
    have hrun : ¬ Ended s p := not_ended (.inr ⟨_, calling, by simp⟩)
    subst t_eq
    rw [List.map_append]
    exact hs.push hkeep hrun ⟨0, none, Function.update_self _ _ _⟩
  | recv p mtype node l rest calling node_eq granted taken t_eq =>
    subst t_eq
    exact hs.mono hkeep

/-- The queue has been used as one FIFO queue for each type, and each message was sent by
another process: none is lost, received twice or overtaken by one of its type. -/
structure Delivered (s : State ι) : Prop where
  refines : Reaches (Mailbox.step Letter.mtype) free (lanes Letter.mtype [] [] []) (office s)
  kept : ∀ k, lane Letter.mtype k s.sent =
    lane Letter.mtype k s.received ++ lane Letter.mtype k s.letters
  perm : s.sent.Perm (s.received ++ s.letters)
  once : (s.sent.map Letter.sender).Nodup

theorem messages_delivered (m : Machine ι) : Always (step m) Delivered (start ι) := by
  intro s h
  have hoffice : Reaches (Mailbox.step Letter.mtype) free (office (start ι)) (office s) := by
    obtain ⟨x, hx, rfl⟩ := h.simulates (fun s x => x = office s) rfl fun s a t x hx _ ht =>
      ⟨office t, hx ▸ step_office ht, rfl⟩
    exact hx
  have hkept : Kept (office s) := reaches_kept Letter.mtype hoffice fun _ => rfl
  have hsigned : Signed (Ended s) (s.sent.map Letter.sender) :=
    h.invariant ⟨by simp [start], by simp [start]⟩ fun _ _ _ hs _ ht => step_signed hs ht
  exact ⟨hoffice, hkept, Kept.perm Letter.mtype hkept, hsigned.once⟩

/-- Every call on the queue is a receive with the type `mtype`. -/
def OnlyReceives (mtype : Int) (s : State ι) : Act ι → Prop
  | .call p => ∀ c, s.procs p = some (.calling c) → c = .msgrcv mtype
  | _ => True

/-- What the receives of a run from `s` have taken. -/
def DrainedSince (mtype : Int) (s t : State ι) : Prop :=
  ∃ taken, t.received = s.received ++ taken ∧
    Drained Letter.mtype (request mtype) s.letters taken t.letters

theorem drained {m : Machine ι} {mtype : Int} {s t : State ι}
    (h : Reaches (step m) (OnlyReceives mtype) s t) : DrainedSince mtype s t := by
  refine h.invariant ⟨[], (List.append_nil _).symm, .refl _ _ _⟩ fun u a v hu ha hv => ?_
  obtain ⟨taken, hr, hd⟩ := hu
  cases step_effect hv with
  | quiet p x procs node letters sent received start silent =>
    exact ⟨taken, received ▸ hr, letters ▸ hd⟩
  | send p k node calling node_eq positive granted room t_eq =>
    cases ha _ calling
  | recv p k node l rest calling node_eq granted ht t_eq =>
    cases ha _ calling
    subst t_eq
    refine ⟨taken ++ [l], by simp [hr], ?_⟩
    exact hd.take Letter.mtype (request_respects mtype) ht

/-- The messages `taken` are the first in the order of the types, those of one type in the order
of the queue, among the messages of a type up to `n`. -/
structure TakenInOrder (n : Int) (queue taken rest : List (Letter ι)) : Prop where
  bounded : ∀ l ∈ taken, l.mtype ≤ n
  sorted : taken.Pairwise fun l l' => l.mtype ≤ l'.mtype
  least : ∀ l ∈ taken, ∀ l' ∈ rest, l'.mtype ≤ n → l.mtype ≤ l'.mtype
  lanes : ∀ k, lane Letter.mtype k queue = lane Letter.mtype k taken ++ lane Letter.mtype k rest

/-- Receivers that are given `-n` empty the queue in the order of the types. -/
theorem negative_type_sorts {m : Machine ι} {n : Int} (hn : 0 < n) {s t : State ι}
    (h : Reaches (step m) (OnlyReceives (-n)) s t) :
    ∃ taken, t.received = s.received ++ taken ∧ TakenInOrder n s.letters taken t.letters := by
  obtain ⟨taken, hr, hd⟩ := drained h
  have hne : n ≠ 0 := hn.ne'
  have hle : ¬ n < 0 := Int.not_lt.mpr hn.le
  refine ⟨taken, hr, ?_, ?_, ?_, hd.lanes⟩
  · simpa [request, hne, hle] using hd.accepted
  · simpa [request, hn] using hd.sorted
  · simpa [request, hn, hne, hle] using hd.least

/-- A machine on which everyone is privileged. -/
def rootMachine : Machine Nat :=
  ⟨8192, 16384, fun _ => ⟨0, [], true⟩, fun _ => 0, fun _ _ => 0, fun _ => (0, fun _ => 0)⟩

/-- A message of type 5 before one of type 2, and a receiver that was given `-9`. -/
def twoTypes : State Nat where
  node := some ⟨0, 0, 0⟩
  letters := [letter rootMachine 0 5, letter rootMachine 1 2]
  procs p := if p = 2 then some (.calling (.msgrcv (-9))) else none
  sent := [letter rootMachine 0 5, letter rootMachine 1 2]
  received := []

theorem negative_type_sorts_two : ∃ t, step rootMachine twoTypes (.call 2) = some t ∧
    ∃ taken, t.received = twoTypes.received ++ taken ∧
      TakenInOrder 9 twoTypes.letters taken t.letters := by
  have hok : OnlyReceives (-9) twoTypes (.call 2) := by
    intro c hc
    cases hc
    rfl
  exact ⟨_, rfl, negative_type_sorts (m := rootMachine) (n := 9) (by decide) (.single hok rfl)⟩

/-- With mode 0, which this program gives to the queue, only the privileged use it. -/
structure Privileged (m : Machine ι) (s : State ι) : Prop where
  mode : ∀ node, s.node = some node → node.mode = 0
  senders : ∀ l ∈ s.sent, (m.caller l.sender).privileged
  receivers : ∀ p ret d, s.procs p = some (.exited ret (some d)) → (m.caller p).privileged

theorem only_privileged (m : Machine ι) : Always (step m) (Privileged m) (start ι) := by
  refine .of_invariant (Privileged m) ⟨?_, ?_, ?_⟩ (fun s a t hs h => ?_) fun _ hs => hs
  · intro node hnode
    cases hnode
  · intro l hl
    cases hl
  · intro p ret d hp
    cases hp
  · cases step_effect h with
    | quiet p x procs node letters sent received start silent =>
      refine ⟨fun n hn => ?_, sent ▸ hs.senders, fun q ret d hq => ?_⟩
      · obtain hsame | hnew := node
        · exact hs.mode n (hsame ▸ hn)
        · rw [hnew] at hn
          cases hn
          cases hnode : s.node with
          | none => rfl
          | some old => exact hs.mode old hnode
      · by_cases hqp : q = p
        · subst hqp
          rw [procs, Function.update_self] at hq
          exact absurd (Option.some.inj hq) (silent ret d)
        · rw [procs, Function.update_of_ne hqp] at hq
          exact hs.receivers q ret d hq
    | send p mtype node calling node_eq positive granted room t_eq =>
      subst t_eq
      rw [grants_mode_zero (hs.mode node node_eq)] at granted
      refine ⟨hs.mode, fun l hl => ?_, fun q ret d hq => ?_⟩
      · obtain hl | hl := List.mem_append.mp hl
        · exact hs.senders l hl
        · obtain rfl := List.mem_singleton.mp hl
          exact granted
      · by_cases hqp : q = p
        · exact hqp ▸ granted
        · exact hs.receivers q ret d (by simpa [State.goto, hqp] using hq)
    | recv p mtype node l rest calling node_eq granted taken t_eq =>
      subst t_eq
      rw [grants_mode_zero (hs.mode node node_eq)] at granted
      refine ⟨hs.mode, hs.senders, fun q ret d hq => ?_⟩
      by_cases hqp : q = p
      · exact hqp ▸ granted
      · exact hs.receivers q ret d (by simpa [State.goto, hqp] using hq)

theorem sysvBufSetting_text (buf : SysvBuf) (msg : List UInt8) (mtype : Int) :
    read (sysvBufSetting buf msg mtype).2 0 MAX_BUF_LEN = padded msg MAX_BUF_LEN :=
  SenderBounds.read_strcpy_memset _ msg MAX_BUF_LEN

theorem hello_noNul : 0 ∉ hello := by decide

omit [DecidableEq ι] in
/-- What was on the stack is not sent. -/
theorem letter_text (m : Machine ι) (p : ι) (mtype : Int) :
    (letter m p mtype).mtext = padded hello MAX_BUF_LEN := by
  have htake : hello.take (MAX_BUF_LEN - 1) = hello := rfl
  have hstr (buf : Mem) : str (snprintf buf MAX_BUF_LEN hello) 0 MAX_BUF_LEN = hello := by
    rw [snprintf, htake]
    exact (strcpy_holds buf hello_noNul).str_eq (by decide)
  rw [letter, sendData, hstr]
  exact sysvBufSetting_text _ hello mtype

theorem recvData_padded (frame : SysvBuf) {s : List UInt8} (hs : 0 ∉ s)
    (h : s.length < MAX_BUF_LEN) :
    recvData frame (padded s MAX_BUF_LEN) = s := by
  obtain ⟨zs, hz⟩ := SenderBounds.padded_short h
  rw [recvData, hz]
  exact (holds_write frame.2 hs zs).str_eq h.le

/-- The queue is within its limit and holds the text alone, and the text is all that is
ever printed, whatever was on the stacks before. -/
structure Clean (m : Machine ι) (s : State ι) : Prop where
  bounded : bytes s.letters ≤ m.qbytes
  letters : ∀ l ∈ s.letters, 0 < l.mtype ∧ l.mtext = padded hello MAX_BUF_LEN
  printed : ∀ p ret d, s.procs p = some (.exited ret (some d)) → d = hello

theorem texts_clean (m : Machine ι) : Always (step m) (Clean m) (start ι) := by
  refine .of_invariant (Clean m) ⟨?_, ?_, ?_⟩ (fun s a t hs h => ?_) fun _ hs => hs
  · exact Nat.zero_le _
  · intro l hl
    cases hl
  · intro p ret d hp
    cases hp
  · cases step_effect h with
    | quiet p x procs node letters sent received start silent =>
      refine ⟨letters ▸ hs.bounded, letters ▸ hs.letters, fun q ret d hq => ?_⟩
      by_cases hqp : q = p
      · subst hqp
        rw [procs, Function.update_self] at hq
        exact absurd (Option.some.inj hq) (silent ret d)
      · rw [procs, Function.update_of_ne hqp] at hq
        exact hs.printed q ret d hq
    | send p mtype node calling node_eq positive granted room t_eq =>
      subst t_eq
      refine ⟨?_, fun l hl => ?_, fun q ret d hq => ?_⟩
      · simpa [bytes, letter_length] using room
      · obtain hl | hl := List.mem_append.mp hl
        · exact hs.letters l hl
        · obtain rfl := List.mem_singleton.mp hl
          exact ⟨positive, letter_text m p mtype⟩
      · by_cases hqp : q = p
        · subst hqp
          simp [State.goto] at hq
        · exact hs.printed q ret d (by simpa [State.goto, hqp] using hq)
    | recv p mtype node l rest calling node_eq granted taken t_eq =>
      subst t_eq
      have hperm := take_perm taken
      refine ⟨?_, fun l' hl => hs.letters l' (hperm.mem_iff.mpr (List.mem_cons_of_mem l hl)),
        fun q ret d hq => ?_⟩
      · have hsum : bytes s.letters = l.mtext.length + bytes rest :=
          (hperm.map fun l : Letter ι => l.mtext.length).sum_nat
        have hbound := hs.bounded
        dsimp only
        omega
      · by_cases hqp : q = p
        · subst hqp
          have hl := (hs.letters l (hperm.mem_iff.mpr List.mem_cons_self)).2
          simp only [State.goto, Function.update_self, Option.some.injEq, Point.exited.injEq] at hq
          rw [← hq.2, hl]
          exact recvData_padded _ hello_noNul (by decide)
        · exact hs.printed q ret d (by simpa [State.goto, hqp] using hq)

end LinuxExamples.SysvQueue
