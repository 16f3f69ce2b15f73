import LinuxExamples.Runs
import LinuxExamples.UnixAddress

namespace LinuxExamples.SocketSystem

open Bytes PartialTransfer Runs UnixSocket
open UnixAddress (filepathSize)

def QUEUE_DEFAULT_NUM : Nat := 5

def settingSockType (type : List UInt8) : Option SockType :=
  if type = ascii ['s', 't', 'r', 'e', 'a', 'm'] then some .sockStream
  else if type = ascii ['d', 'a', 't', 'a', 'g', 'r', 'a', 'm'] then some .sockDgram
  else none

/-- What `main` calls with its arguments. -/
inductive Job where
  | help
  | recvData (type : SockType) (path : List UInt8)
  | sendData (type : SockType) (path message : List UInt8)
  deriving DecidableEq

def main : List (List UInt8) → Job
  | _ :: mode :: a :: b :: rest =>
    if mode = ascii ['s'] then
      match settingSockType a with
      | none => .help
      | some type => .recvData type b
    else if mode = ascii ['c'] then
      match rest, settingSockType b with
      | path :: _, some type => .sendData type path a
      | _, _ => .help
    else .help
  | _ => .help

/-- A path that fits in `filepath`. An empty one would not name a file. -/
def PathFits (path : List UInt8) : Prop := path ≠ [] ∧ path.length < filepathSize

instance (path : List UInt8) : Decidable (PathFits path) := inferInstanceAs (Decidable (_ ∧ _))

def Job.Fits : Job → Prop
  | .help => True
  | .recvData _ path => 0 ∉ path ∧ PathFits path
  | .sendData _ path message => 0 ∉ path ∧ PathFits path ∧ 0 ∉ message

instance : DecidablePred Job.Fits := fun job => by
  cases job <;> unfold Job.Fits <;> infer_instance

/-- Where a process is, which has a socket until it ends. A server keeps what `recv` has
returned to it from the client it accepted, and a client what `send` has. -/
inductive Point (ι : Type) where
  | bind | listen | accept | recv (c : ι) (rets : List (List UInt8)) | recvfrom
  | connect | send (q : ι) (rets : List Nat) | sendto
  | killed | exited (ret : Int) (said : Option (List UInt8))

/-- The first call of a process that has a socket. -/
def Job.begin {ι : Type} : Job → Point ι
  | .help | .sendData .other _ _ => .exited (-1) none
  | .recvData _ _ => .bind
  | .sendData .sockStream _ _ => .connect
  | .sendData .sockDgram _ _ => .sendto

structure Proc (ι : Type) where
  job : Job
  point : Point ι

/-- The file that a process finds under an address, what its memory holds behind an
argument, what its stack holds, and how many datagrams a socket keeps. -/
structure Machine (ι φ : Type) where
  file : ι → List UInt8 → φ
  behind : ι → Mem
  stack : ι → Mem
  backlog : Nat

/-- The files, each of them with the server it is a socket of, if there is one; the
processes; for a server, the clients that it has not yet accepted and the datagrams
that it has not yet received; for a client, what it has sent on its connection and what
of it was not yet received, and the server; and for a server whom it has heard. -/
structure State (ι φ : Type) where
  files : φ → Option (Option ι)
  procs : ι → Option (Proc ι)
  queue : ι → List ι
  inbox : ι → List (ι × List UInt8)
  flow : ι → List UInt8
  sent : ι → List UInt8
  server : ι → Option ι
  heard : ι → Option ι

/-- Nothing runs yet, and none of the files that exist is a socket in use. -/
def start (ι : Type) {φ : Type} (exist : φ → Bool) : State ι φ where
  files f := if exist f then some none else none
  procs _ := none
  queue _ := []
  inbox _ := []
  flow _ := []
  sent _ := []
  server _ := none
  heard _ := none

variable {ι φ : Type} [DecidableEq ι] [DecidableEq φ]

def State.goto (s : State ι φ) (p : ι) (job : Job) (x : Point ι) : State ι φ :=
  { s with procs := Function.update s.procs p (some ⟨job, x⟩) }

/-- A client that holds its end of the connection. -/
def Point.sends : Point ι → Bool
  | .send _ _ => true
  | _ => false

def State.closed (s : State ι φ) (c : ι) : Bool := !(s.procs c).any fun x => x.point.sends

/-- What `recv` returns, up to `n` bytes of what has arrived. -/
def State.recv (s : State ι φ) (c : ι) (written n : Nat) : Option (List UInt8) :=
  if written = BUF_MAX_LEN ∨ s.flow c = [] ∧ s.closed c then some []
  else if 0 < n ∧ n ≤ (s.flow c).length ∧ written + n ≤ BUF_MAX_LEN then some ((s.flow c).take n)
  else none

def Point.accepts : Point ι → Bool
  | .accept | .recv _ _ => true
  | _ => false

def Point.receives : Point ι → Bool
  | .recvfrom => true
  | _ => false

/-- The server whose socket is found under a name, if it is at such a point. -/
def State.find (s : State ι φ) (at_ : Point ι → Bool) (f : φ) : Option ι :=
  match s.files f with
  | some (some q) => if (s.procs q).any fun x => at_ x.point then some q else none
  | _ => none

/-- The argument behind `message`. -/
def Machine.arg (m : Machine ι φ) (p : ι) (message : List UInt8) : Mem :=
  strcpy (m.behind p) message

/-- The next system call of a process, where `n` bytes are moved by a `recv` or `send`. -/
def call (m : Machine ι φ) (s : State ι φ) (p : ι) (n : Nat) (job : Job) (x : Point ι) :
    Option (State ι φ) :=
  match job, x with
  | .recvData type path, .bind =>
    let f := m.file p (sunPath path)
    match s.files f, type with
    | some _, _ | none, .other => some (s.goto p job (.exited (-1) none))
    | none, .sockStream =>
      some { s.goto p job .listen with files := Function.update s.files f (some (some p)) }
    | none, .sockDgram =>
      some { s.goto p job .recvfrom with files := Function.update s.files f (some (some p)) }
  | .recvData _ _, .listen => some (s.goto p job .accept)
  | .recvData _ _, .accept =>
    match s.queue p with
    | [] => none
    | c :: rest => some { s.goto p job (.recv c []) with queue := Function.update s.queue p rest }
  | .recvData type path, .recv c rets =>
    match s.recv c rets.flatten.length n with
    | none => none
    | some bs =>
      let s := { s with flow := Function.update s.flow c ((s.flow c).drop bs.length) }
      match doRecvData type path (m.stack p) ⟨true, true, (rets ++ [bs]).map some, none⟩ with
      | none => some (s.goto p job (.recv c (rets ++ [bs])))
      | some r =>
        some { s.goto p job (.exited r.ret r.said) with
          heard := Function.update s.heard p (some c) }
  | .recvData type path, .recvfrom =>
    match s.inbox p with
    | [] => none
    | (c, bs) :: rest =>
      match doRecvData type path (m.stack p) ⟨true, true, [], some (bs.take BUF_MAX_LEN)⟩ with
      | none => none
      | some r =>
        some { s.goto p job (.exited r.ret r.said) with
          inbox := Function.update s.inbox p rest
          heard := Function.update s.heard p (some c) }
  | .sendData _ path _, .connect =>
    match s.find Point.accepts (m.file p (sunPath path)) with
    | none => some (s.goto p job (.exited (-1) none))
    | some q =>
      if (s.queue q).length ≤ QUEUE_DEFAULT_NUM then
        some { s.goto p job (.send q []) with
          queue := Function.update s.queue q (s.queue q ++ [p])
          server := Function.update s.server p (some q) }
      else none
  | .sendData type path message, .send q rets =>
    if (s.procs q).any fun x => x.point.accepts then
      if 0 < n ∧ rets.sum + n ≤ sizeofPointer then
        let bs := read (m.arg p message) rets.sum n
        let s := { s with
          flow := Function.update s.flow p (s.flow p ++ bs)
          sent := Function.update s.sent p (s.sent p ++ bs) }
        match doSendData type path (m.arg p message) ⟨true, true, (rets ++ [n]).map some, true⟩ with
        | none => some (s.goto p job (.send q (rets ++ [n])))
        | some r => some (s.goto p job (.exited r.ret none))
      else none
    else some (s.goto p job .killed)
  | .sendData type path message, .sendto =>
    match s.find Point.receives (m.file p (sunPath path)) with
    | none => some (s.goto p job (.exited (-1) none))
    | some q =>
      if (s.inbox q).length < m.backlog then
        match doSendData type path (m.arg p message) ⟨true, true, [], true⟩ with
        | none => none
        | some r =>
          some { s.goto p job (.exited r.ret none) with
            inbox := Function.update s.inbox q (s.inbox q ++ [(p, r.bytes)])
            server := Function.update s.server p (some q) }
      else none
  | _, _ => none

def Point.ended : Point ι → Bool
  | .killed | .exited _ _ => true
  | _ => false

/-- A process starts with its arguments, makes its next call, is given an error by it, or
is killed. -/
inductive Act (ι : Type) where
  | start (p : ι) (args : List (List UInt8)) | call (p : ι) (n : Nat) | fail (p : ι) | kill (p : ι)

def step (m : Machine ι φ) (s : State ι φ) : Act ι → Option (State ι φ)
  | .start p args =>
    if (s.procs p).isNone ∧ (main args).Fits then some (s.goto p (main args) (main args).begin)
    else none
  | .call p n => (s.procs p).bind fun x => call m s p n x.job x.point
  | .fail p =>
    (s.procs p).bind fun x =>
      if x.point.ended then none else some (s.goto p x.job (.exited (-1) none))
  | .kill p =>
    (s.procs p).bind fun x => if x.point.ended then none else some (s.goto p x.job .killed)

/-- What a step does, with the process that moves, its job and where it goes. -/
inductive Effect (m : Machine ι φ) (s t : State ι φ) (p : ι) : Job → Point ι → Prop where
  | begins (args : List (List UInt8)) (idle : s.procs p = none) (fits : (main args).Fits)
      (t_eq : t = s.goto p (main args) (main args).begin) :
      Effect m s t p (main args) (main args).begin
  | ends (job : Job) (x y : Point ι) (here : s.procs p = some ⟨job, x⟩)
      (running : x.ended = false) (point : y = .killed ∨ y = .exited (-1) none)
      (t_eq : t = s.goto p job y) :
      Effect m s t p job y
  | binds (type : SockType) (path : List UInt8) (y : Point ι)
      (here : s.procs p = some ⟨.recvData type path, .bind⟩)
      (unused : s.files (m.file p (sunPath path)) = none)
      (point : type = .sockStream ∧ y = .listen ∨ type = .sockDgram ∧ y = .recvfrom)
      (t_eq : t = { s.goto p (.recvData type path) y with
        files := Function.update s.files (m.file p (sunPath path)) (some (some p)) }) :
      Effect m s t p (.recvData type path) y
  | listens (type : SockType) (path : List UInt8)
      (here : s.procs p = some ⟨.recvData type path, .listen⟩)
      (t_eq : t = s.goto p (.recvData type path) .accept) :
      Effect m s t p (.recvData type path) .accept
  | accepts (type : SockType) (path : List UInt8) (c : ι) (rest : List ι)
      (here : s.procs p = some ⟨.recvData type path, .accept⟩) (waiting : s.queue p = c :: rest)
      (t_eq : t = { s.goto p (.recvData type path) (.recv c []) with
        queue := Function.update s.queue p rest }) :
      Effect m s t p (.recvData type path) (.recv c [])
  | receives (type : SockType) (path : List UInt8) (c : ι) (rets : List (List UInt8)) (n : Nat)
      (bs : List UInt8) (here : s.procs p = some ⟨.recvData type path, .recv c rets⟩)
      (recv : s.recv c rets.flatten.length n = some bs)
      (waits : doRecvData type path (m.stack p) ⟨true, true, (rets ++ [bs]).map some, none⟩ = none)
      (t_eq : t = { s.goto p (.recvData type path) (.recv c (rets ++ [bs])) with
        flow := Function.update s.flow c ((s.flow c).drop bs.length) }) :
      Effect m s t p (.recvData type path) (.recv c (rets ++ [bs]))
  | prints (type : SockType) (path : List UInt8) (c : ι) (rets : List (List UInt8)) (n : Nat)
      (bs : List UInt8) (r : ServerRun)
      (here : s.procs p = some ⟨.recvData type path, .recv c rets⟩)
      (recv : s.recv c rets.flatten.length n = some bs)
      (done : doRecvData type path (m.stack p) ⟨true, true, (rets ++ [bs]).map some, none⟩ = some r)
      (t_eq : t = { s.goto p (.recvData type path) (.exited r.ret r.said) with
        flow := Function.update s.flow c ((s.flow c).drop bs.length)
        heard := Function.update s.heard p (some c) }) :
      Effect m s t p (.recvData type path) (.exited r.ret r.said)
  | hears (type : SockType) (path : List UInt8) (c : ι) (bs : List UInt8)
      (rest : List (ι × List UInt8)) (r : ServerRun)
      (here : s.procs p = some ⟨.recvData type path, .recvfrom⟩)
      (waiting : s.inbox p = (c, bs) :: rest)
      (done :
        doRecvData type path (m.stack p) ⟨true, true, [], some (bs.take BUF_MAX_LEN)⟩ = some r)
      (t_eq : t = { s.goto p (.recvData type path) (.exited r.ret r.said) with
        inbox := Function.update s.inbox p rest
        heard := Function.update s.heard p (some c) }) :
      Effect m s t p (.recvData type path) (.exited r.ret r.said)
  | connects (type : SockType) (path message : List UInt8) (q : ι)
      (here : s.procs p = some ⟨.sendData type path message, .connect⟩)
      (found : s.find Point.accepts (m.file p (sunPath path)) = some q)
      (t_eq : t = { s.goto p (.sendData type path message) (.send q []) with
        queue := Function.update s.queue q (s.queue q ++ [p])
        server := Function.update s.server p (some q) }) :
      Effect m s t p (.sendData type path message) (.send q [])
  | sends (type : SockType) (path message : List UInt8) (q : ι) (rets : List Nat) (n : Nat)
      (y : Point ι) (here : s.procs p = some ⟨.sendData type path message, .send q rets⟩)
      (pos : 0 < n) (fits : rets.sum + n ≤ sizeofPointer)
      (point :
        doSendData type path (m.arg p message) ⟨true, true, (rets ++ [n]).map some, true⟩ = none ∧
          y = .send q (rets ++ [n]) ∨
        ∃ r, doSendData type path (m.arg p message) ⟨true, true, (rets ++ [n]).map some, true⟩ =
          some r ∧ y = .exited r.ret none)
      (t_eq : t = { s.goto p (.sendData type path message) y with
        flow := Function.update s.flow p (s.flow p ++ read (m.arg p message) rets.sum n)
        sent := Function.update s.sent p (s.sent p ++ read (m.arg p message) rets.sum n) }) :
      Effect m s t p (.sendData type path message) y
  | sendsTo (type : SockType) (path message : List UInt8) (q : ι) (r : ClientRun)
      (here : s.procs p = some ⟨.sendData type path message, .sendto⟩)
      (found : s.find Point.receives (m.file p (sunPath path)) = some q)
      (done : doSendData type path (m.arg p message) ⟨true, true, [], true⟩ = some r)
      (t_eq : t = { s.goto p (.sendData type path message) (.exited r.ret none) with
        inbox := Function.update s.inbox q (s.inbox q ++ [(p, r.bytes)])
        server := Function.update s.server p (some q) }) :
      Effect m s t p (.sendData type path message) (.exited r.ret none)

section Effects

variable {m : Machine ι φ} {s t : State ι φ} {p : ι} {n : Nat}

theorem recvData_effect {type : SockType} {path : List UInt8} {x : Point ι}
    (hp : s.procs p = some ⟨.recvData type path, x⟩)
    (h : call m s p n (.recvData type path) x = some t) : ∃ p job y, Effect m s t p job y := by
  cases x with
  | bind =>
    simp only [call] at h
    split at h
    · exact ⟨_, _, _, .ends _ _ _ hp rfl (.inr rfl) (Option.some.inj h).symm⟩
    · exact ⟨_, _, _, .ends _ _ _ hp rfl (.inr rfl) (Option.some.inj h).symm⟩
    · rename_i hf
      exact ⟨_, _, _, .binds _ _ _ hp hf (.inl ⟨rfl, rfl⟩) (Option.some.inj h).symm⟩
    · rename_i hf
      exact ⟨_, _, _, .binds _ _ _ hp hf (.inr ⟨rfl, rfl⟩) (Option.some.inj h).symm⟩
  | listen => exact ⟨_, _, _, .listens type path hp (Option.some.inj h).symm⟩
  | accept =>
    simp only [call] at h
    split at h
    · cases h
    · rename_i c rest hq
      exact ⟨_, _, _, .accepts type path c rest hp hq (Option.some.inj h).symm⟩
  | recv c rets =>
    simp only [call] at h
    split at h
    · cases h
    · rename_i bs hbs
      split at h
      · rename_i hr
        exact ⟨_, _, _, .receives type path c rets n bs hp hbs hr (Option.some.inj h).symm⟩
      · rename_i r hr
        exact ⟨_, _, _, .prints type path c rets n bs r hp hbs hr (Option.some.inj h).symm⟩
  | recvfrom =>
    simp only [call] at h
    split at h
    · cases h
    · rename_i c bs rest hq
      split at h
      · cases h
      · rename_i r hr
        exact ⟨_, _, _, .hears type path c bs rest r hp hq hr (Option.some.inj h).symm⟩
  | connect | send q rets | sendto | killed | exited ret d => cases h

theorem sendData_effect {type : SockType} {path message : List UInt8} {x : Point ι}
    (hp : s.procs p = some ⟨.sendData type path message, x⟩)
    (h : call m s p n (.sendData type path message) x = some t) :
    ∃ p job y, Effect m s t p job y := by
  cases x with
  | connect =>
    simp only [call] at h
    split at h
    · exact ⟨_, _, _, .ends _ _ _ hp rfl (.inr rfl) (Option.some.inj h).symm⟩
    · rename_i q hq
      obtain ⟨_, ht⟩ := Option.ite_none_right_eq_some.mp h
      exact ⟨_, _, _, .connects type path message q hp hq (Option.some.inj ht).symm⟩
  | send q rets =>
    simp only [call] at h
    split at h
    · obtain ⟨⟨hpos, hfits⟩, h⟩ := Option.ite_none_right_eq_some.mp h
      split at h
      · rename_i hr
        exact ⟨_, _, _, .sends type path message q rets n _ hp hpos hfits (.inl ⟨hr, rfl⟩)
          (Option.some.inj h).symm⟩
      · rename_i r hr
        exact ⟨_, _, _, .sends type path message q rets n _ hp hpos hfits (.inr ⟨r, hr, rfl⟩)
          (Option.some.inj h).symm⟩
    · exact ⟨_, _, _, .ends _ _ _ hp rfl (.inl rfl) (Option.some.inj h).symm⟩
  | sendto =>
    simp only [call] at h
    split at h
    · exact ⟨_, _, _, .ends _ _ _ hp rfl (.inr rfl) (Option.some.inj h).symm⟩
    · rename_i q hq
      obtain ⟨_, h⟩ := Option.ite_none_right_eq_some.mp h
      split at h
      · cases h
      · rename_i r hr
        exact ⟨_, _, _, .sendsTo type path message q r hp hq hr (Option.some.inj h).symm⟩
  | bind | listen | accept | recv c rets | recvfrom | killed | exited ret d => cases h

theorem step_effect {a : Act ι} (h : step m s a = some t) : ∃ p job y, Effect m s t p job y := by
  cases a with
  | start p args =>
    obtain ⟨⟨hp, hfits⟩, ht⟩ := Option.ite_none_right_eq_some.mp h
    exact ⟨_, _, _, .begins args (Option.isNone_iff_eq_none.mp hp) hfits (Option.some.inj ht).symm⟩
  | call p n =>
    obtain ⟨⟨job, x⟩, hp, h⟩ := Option.bind_eq_some_iff.mp h
    cases job with
    | help => cases h
    | recvData type path => exact recvData_effect hp h
    | sendData type path message => exact sendData_effect hp h
  | fail p =>
    obtain ⟨⟨job, x⟩, hp, h⟩ := Option.bind_eq_some_iff.mp h
    obtain ⟨hrun, ht⟩ := Option.ite_none_left_eq_some.mp h
    exact ⟨_, _, _, .ends job x _ hp (Bool.eq_false_of_not_eq_true hrun) (.inr rfl)
      (Option.some.inj ht).symm⟩
  | kill p =>
    obtain ⟨⟨job, x⟩, hp, h⟩ := Option.bind_eq_some_iff.mp h
    obtain ⟨hrun, ht⟩ := Option.ite_none_left_eq_some.mp h
    exact ⟨_, _, _, .ends job x _ hp (Bool.eq_false_of_not_eq_true hrun) (.inl rfl)
      (Option.some.inj ht).symm⟩

/-- In a step one process moves, which has not ended, and its job stays the same. -/
structure Moved (s t : State ι φ) (p : ι) (job : Job) (y : Point ι) : Prop where
  procs : t.procs = Function.update s.procs p (some ⟨job, y⟩)
  same : ∀ x, s.procs p = some x → x.job = job ∧ x.point.ended = false

theorem Effect.moved {job : Job} {y : Point ι} (h : Effect m s t p job y) : Moved s t p job y := by
  have hmoved {x : Point ι} (hp : s.procs p = some ⟨job, x⟩) (hx : x.ended = false)
      (ht : t.procs = Function.update s.procs p (some ⟨job, y⟩)) : Moved s t p job y := by
    refine ⟨ht, fun x' hx' => ?_⟩
    cases hp.symm.trans hx'
    exact ⟨rfl, hx⟩
  cases h with
  | begins args idle fits t_eq =>
    subst t_eq
    refine ⟨rfl, fun x hx => ?_⟩
    cases idle.symm.trans hx
  | ends job x y here running point t_eq =>
    subst t_eq
    exact hmoved here running rfl
  | binds type path y here unused point t_eq =>
    subst t_eq
    exact hmoved here rfl rfl
  | listens type path here t_eq =>
    subst t_eq
    exact hmoved here rfl rfl
  | accepts type path c rest here waiting t_eq =>
    subst t_eq
    exact hmoved here rfl rfl
  | receives type path c rets n bs here recv waits t_eq =>
    subst t_eq
    exact hmoved here rfl rfl
  | prints type path c rets n bs r here recv done t_eq =>
    subst t_eq
    exact hmoved here rfl rfl
  | hears type path c bs rest r here waiting done t_eq =>
    subst t_eq
    exact hmoved here rfl rfl
  | connects type path message q here found t_eq =>
    subst t_eq
    exact hmoved here rfl rfl
  | sends type path message q rets n y here pos fits point t_eq =>
    subst t_eq
    exact hmoved here rfl rfl
  | sendsTo type path message q r here found done t_eq =>
    subst t_eq
    exact hmoved here rfl rfl

/-- A process has been started with a job. -/
def Has (s : State ι φ) (p : ι) (job : Job) : Prop := ∃ x, s.procs p = some ⟨job, x⟩

omit [DecidableEq φ] in
theorem Moved.has {job job' : Job} {y : Point ι} {r : ι} (h : Moved s t p job y)
    (hr : Has s r job') : Has t r job' := by
  obtain ⟨x, hx⟩ := hr
  by_cases hrp : r = p
  · subst hrp
    obtain rfl := (h.same _ hx).1
    exact ⟨y, by rw [h.procs, Function.update_self]⟩
  · exact ⟨x, by rw [h.procs, Function.update_of_ne hrp, hx]⟩

omit [DecidableEq φ] in
/-- An ended process stays as it is. -/
theorem Moved.ended {job : Job} {y : Point ι} {r : ι} {x : Proc ι} (h : Moved s t p job y)
    (hr : s.procs r = some x) (hx : x.point.ended) : t.procs r = some x := by
  have hrp : r ≠ p := by
    rintro rfl
    exact absurd hx (by rw [(h.same _ hr).2]; decide)
  rw [h.procs, Function.update_of_ne hrp, hr]

omit [DecidableEq φ] in
/-- Another process, or the one that has moved. -/
theorem Moved.at_cases {job : Job} {y : Point ι} {r : ι} {x : Proc ι} (h : Moved s t p job y)
    (hr : t.procs r = some x) : r = p ∧ x = ⟨job, y⟩ ∨ r ≠ p ∧ s.procs r = some x := by
  rw [h.procs] at hr
  exact update_eq_some hr

omit [DecidableEq φ] in
theorem Moved.idle {job : Job} {y : Point ι} {r : ι} (h : Moved s t p job y)
    (hr : t.procs r = none) : r ≠ p ∧ s.procs r = none := by
  rw [h.procs] at hr
  have hrp : r ≠ p := by
    rintro rfl
    simp at hr
  rw [Function.update_of_ne hrp] at hr
  exact ⟨hrp, hr⟩

end Effects

/-- The points that a process with a job can be at. -/
def Point.Of (job : Job) : Point ι → Prop
  | .bind | .exited _ (some _) => ∃ type path, job = .recvData type path
  | .listen | .accept | .recv _ _ => ∃ path, job = .recvData .sockStream path
  | .recvfrom => ∃ path, job = .recvData .sockDgram path
  | .connect | .send _ _ => ∃ path message, job = .sendData .sockStream path message
  | .sendto => ∃ path message, job = .sendData .sockDgram path message
  | .killed | .exited _ none => True

def Placed (s : State ι φ) : Prop := ∀ p x, s.procs p = some x → x.job.Fits ∧ x.point.Of x.job

section Placed

variable {m : Machine ι φ} {s t : State ι φ} {p : ι} {job : Job} {y : Point ι}

omit [DecidableEq ι] in
theorem begin_of (job : Job) : (job.begin : Point ι).Of job := by
  cases job with
  | help => trivial
  | recvData type path => exact ⟨type, path, rfl⟩
  | sendData type path message =>
    cases type with
    | sockStream | sockDgram => exact ⟨path, message, rfl⟩
    | other => trivial

theorem Effect.placed (h : Effect m s t p job y) (hs : Placed s) : Placed t := by
  have hfits {x : Point ι} (hp : s.procs p = some ⟨job, x⟩) : job.Fits := (hs p _ hp).1
  have hpoint : job.Fits ∧ y.Of job := by
    cases h with
    | begins args idle fits t_eq => exact ⟨fits, begin_of _⟩
    | ends job x y here running point t_eq =>
      obtain rfl | rfl := point <;> exact ⟨hfits here, trivial⟩
    | binds type path y here unused point t_eq =>
      obtain ⟨rfl, rfl⟩ | ⟨rfl, rfl⟩ := point <;> exact ⟨hfits here, path, rfl⟩
    | listens type path here t_eq => exact hs p _ here
    | accepts type path c rest here waiting t_eq => exact hs p _ here
    | receives type path c rets n bs here recv waits t_eq => exact hs p _ here
    | prints type path c rets n bs r here recv done t_eq =>
      refine ⟨hfits here, ?_⟩
      cases r.said with
      | none => trivial
      | some d => exact ⟨type, path, rfl⟩
    | hears type path c bs rest r here waiting done t_eq =>
      refine ⟨hfits here, ?_⟩
      cases r.said with
      | none => trivial
      | some d => exact ⟨type, path, rfl⟩
    | connects type path message q here found t_eq => exact hs p _ here
    | sends type path message q rets n y here pos fits point t_eq =>
      obtain ⟨_, rfl⟩ | ⟨r, _, rfl⟩ := point
      · exact hs p _ here
      · exact ⟨hfits here, trivial⟩
    | sendsTo type path message q r here found done t_eq => exact ⟨hfits here, trivial⟩
  intro r x hr
  obtain ⟨rfl, rfl⟩ | ⟨_, hr⟩ := h.moved.at_cases hr
  · exact hpoint
  · exact hs r x hr

end Placed

/-- A server whose address is its own. -/
def Point.Bound : Point ι → Prop
  | .listen | .accept | .recv _ _ | .recvfrom | .exited _ (some _) => True
  | _ => False

/-- A file leads to the server that has bound it, and keeps doing so when that has ended. -/
structure Filed (m : Machine ι φ) (s : State ι φ) : Prop where
  owner : ∀ f q, s.files f = some (some q) →
    ∃ type path, Has s q (.recvData type path) ∧ m.file q (sunPath path) = f
  bound : ∀ q type path x, s.procs q = some ⟨.recvData type path, x⟩ → x.Bound →
    s.files (m.file q (sunPath path)) = some (some q)

/-- A client with a server found it under its own address. -/
structure Linked (m : Machine ι φ) (s : State ι φ) : Prop where
  peer : ∀ c q, s.server c = some q → ∃ type path path' message,
    Has s c (.sendData type path' message) ∧ Has s q (.recvData type path) ∧
      m.file c (sunPath path') = m.file q (sunPath path)
  begun : ∀ c q, s.server c = some q →
    ∃ x, s.procs c = some x ∧ (x.point.sends ∨ x.point.ended)
  sending : ∀ c job q rets, s.procs c = some ⟨job, .send q rets⟩ → s.server c = some q

section Linked

variable {m : Machine ι φ} {s t : State ι φ} {p : ι} {job : Job} {y : Point ι}

omit [DecidableEq φ] in
theorem Filed.keep (hs : Filed m s) (hm : Moved s t p job y) (hf : t.files = s.files)
    (hy : y.Bound → ∃ x, s.procs p = some ⟨job, x⟩ ∧ x.Bound) : Filed m t := by
  refine ⟨fun f q hq => ?_, fun q type path x hq hx => ?_⟩
  · rw [hf] at hq
    obtain ⟨type, path, hhas, hfile⟩ := hs.owner f q hq
    exact ⟨type, path, hm.has hhas, hfile⟩
  · rw [hf]
    obtain ⟨rfl, he⟩ | ⟨_, hq⟩ := hm.at_cases hq
    · cases he
      obtain ⟨x, hp, hbound⟩ := hy hx
      exact hs.bound q type path x hp hbound
    · exact hs.bound q type path x hq hx

theorem Effect.filed (h : Effect m s t p job y) (hs : Filed m s) : Filed m t := by
  have hm := h.moved
  cases h with
  | begins args idle fits t_eq =>
    subst t_eq
    refine hs.keep hm rfl fun hy => ?_
    generalize main args = job at hy
    obtain _ | ⟨type, path⟩ | ⟨_ | _ | _, path, message⟩ := job <;> cases hy
  | ends job x y here running point t_eq =>
    subst t_eq
    refine hs.keep hm rfl fun hy => ?_
    obtain rfl | rfl := point <;> cases hy
  | binds type path y here unused point t_eq =>
    have hne (f : φ) (q : ι) (hq : s.files f = some (some q)) : f ≠ m.file p (sunPath path) := by
      rintro rfl
      cases unused.symm.trans hq
    subst t_eq
    refine ⟨fun f q hq => ?_, fun q type' path' x hq hx => ?_⟩
    · by_cases hf : f = m.file p (sunPath path)
      · subst hf
        obtain rfl : p = q := by simpa using hq
        exact ⟨type, path, hm.has ⟨_, here⟩, rfl⟩
      · have hq' : s.files f = some (some q) := by simpa [State.goto, hf] using hq
        obtain ⟨type', path', hhas, hfile⟩ := hs.owner f q hq'
        exact ⟨type', path', hm.has hhas, hfile⟩
    · obtain ⟨rfl, he⟩ | ⟨_, hq⟩ := hm.at_cases hq
      · cases he
        exact Function.update_self _ _ _
      · have hold := hs.bound q type' path' x hq hx
        exact (Function.update_of_ne (hne _ q hold) _ _).trans hold
  | listens type path here t_eq | accepts type path c rest here waiting t_eq
  | receives type path c rets n bs here recv waits t_eq
  | prints type path c rets n bs r here recv done t_eq
  | hears type path c bs rest r here waiting done t_eq =>
    subst t_eq
    exact hs.keep hm rfl fun _ => ⟨_, here, trivial⟩
  | connects type path message q here found t_eq
  | sendsTo type path message q r here found done t_eq =>
    subst t_eq
    exact hs.keep hm rfl fun hy => by cases hy
  | sends type path message q rets n y here pos fits point t_eq =>
    subst t_eq
    refine hs.keep hm rfl fun hy => ?_
    obtain ⟨_, rfl⟩ | ⟨r, _, rfl⟩ := point <;> cases hy

omit [DecidableEq ι] [DecidableEq φ] in
theorem find_eq {at_ : Point ι → Bool} {f : φ} {q : ι} (h : s.find at_ f = some q) :
    s.files f = some (some q) ∧ ∃ x, s.procs q = some x ∧ at_ x.point := by
  unfold State.find at h
  split at h
  · rename_i q' hf
    obtain ⟨hany, hq⟩ := Option.ite_none_right_eq_some.mp h
    obtain rfl := Option.some.inj hq
    exact ⟨hf, (Option.any_eq_true _ _).mp hany⟩
  · cases h

omit [DecidableEq φ] in
theorem Linked.keep (hs : Linked m s) (hm : Moved s t p job y) (hserver : t.server = s.server)
    (hy : s.server p ≠ none → y.sends ∨ y.ended)
    (hsend : ∀ q rets, y = .send q rets → s.server p = some q) :
    Linked m t := by
  refine ⟨fun c q hq => ?_, fun c q hq => ?_, fun c job' q rets hc => ?_⟩
  · rw [hserver] at hq
    obtain ⟨type, path, path', message, hc, hq, hfile⟩ := hs.peer c q hq
    exact ⟨type, path, path', message, hm.has hc, hm.has hq, hfile⟩
  · rw [hserver] at hq
    by_cases hcp : c = p
    · subst hcp
      exact ⟨_, by rw [hm.procs, Function.update_self], hy (by simp [hq])⟩
    · obtain ⟨x, hx, hpoint⟩ := hs.begun c q hq
      exact ⟨x, by rw [hm.procs, Function.update_of_ne hcp, hx], hpoint⟩
  · rw [hserver]
    obtain ⟨rfl, he⟩ | ⟨_, hc⟩ := hm.at_cases hc
    · cases he
      exact hsend q rets rfl
    · exact hs.sending c job' q rets hc

omit [DecidableEq φ] in
/-- A process that finds a server is linked to it. -/
theorem Linked.link (hs : Linked m s) (hm : Moved s t p job y) {type : SockType}
    {path message : List UInt8} {q : ι} (hjob : job = .sendData type path message)
    (hserver : t.server = Function.update s.server p (some q))
    (hfiles : s.files (m.file p (sunPath path)) = some (some q))
    (hq : ∃ path, Has s q (.recvData type path)) (hfiled : Filed m s)
    (hy : y.sends ∨ y.ended) (hsend : ∀ q' rets, y = .send q' rets → q' = q) : Linked m t := by
  refine ⟨fun c r hr => ?_, fun c r hr => ?_, fun c job' r rets hc => ?_⟩
  · rw [hserver] at hr
    obtain ⟨rfl, rfl⟩ | ⟨_, hr⟩ := update_eq_some hr
    · obtain ⟨type', path', hhas, hfile⟩ := hfiled.owner _ _ hfiles
      obtain ⟨path'', x, hx⟩ := hq
      obtain ⟨x', hx'⟩ := hhas
      cases hx.symm.trans hx'
      exact ⟨type, path', path, message, ⟨y, by rw [hm.procs, Function.update_self, hjob]⟩,
        hm.has ⟨_, hx⟩, hfile.symm⟩
    · obtain ⟨type', path', path'', message', hc, hq, hfile⟩ := hs.peer c r hr
      exact ⟨type', path', path'', message', hm.has hc, hm.has hq, hfile⟩
  · by_cases hcp : c = p
    · subst hcp
      exact ⟨_, by rw [hm.procs, Function.update_self], hy⟩
    · rw [hserver, Function.update_of_ne hcp] at hr
      obtain ⟨x, hx, hpoint⟩ := hs.begun c r hr
      exact ⟨x, by rw [hm.procs, Function.update_of_ne hcp, hx], hpoint⟩
  · obtain ⟨rfl, he⟩ | ⟨hcp, hc⟩ := hm.at_cases hc
    · cases he
      obtain rfl := hsend r rets rfl
      rw [hserver, Function.update_self]
    · rw [hserver, Function.update_of_ne hcp]
      exact hs.sending c job' r rets hc

omit [DecidableEq ι] [DecidableEq φ] in
/-- A process that has not yet called its server has none. -/
theorem Linked.free (hs : Linked m s) {x : Proc ι} (hp : s.procs p = some x)
    (hx : x.point.sends = false) (hx' : x.point.ended = false) : s.server p = none := by
  by_contra hne
  obtain ⟨q, hq⟩ := Option.ne_none_iff_exists'.mp hne
  obtain ⟨x', hp', hpoint⟩ := hs.begun p q hq
  cases hp.symm.trans hp'
  rw [hx, hx'] at hpoint
  simp at hpoint

theorem Effect.linked (h : Effect m s t p job y) (hs : Linked m s) (hfiled : Filed m s)
    (hplaced : Placed s) : Linked m t := by
  have hm := h.moved
  have hnone {x : Proc ι} (hp : s.procs p = some x) (hx : x.point.sends = false)
      (hx' : x.point.ended = false) (hserver : s.server p ≠ none) : y.sends ∨ y.ended :=
    absurd (hs.free hp hx hx') hserver
  cases h with
  | begins args idle fits t_eq =>
    subst t_eq
    refine hs.keep hm rfl (fun hserver => ?_) fun q rets he => ?_
    · obtain ⟨q, hq⟩ := Option.ne_none_iff_exists'.mp hserver
      obtain ⟨x, hx, _⟩ := hs.begun p q hq
      cases idle.symm.trans hx
    · generalize main args = job at he
      obtain _ | ⟨type, path⟩ | ⟨_ | _ | _, path, message⟩ := job <;> cases he
  | ends job x y here running point t_eq =>
    subst t_eq
    refine hs.keep hm rfl (fun _ => .inr ?_) fun q rets he => ?_
    · obtain rfl | rfl := point <;> rfl
    · obtain rfl | rfl := point <;> cases he
  | binds type path y here unused point t_eq =>
    subst t_eq
    refine hs.keep hm rfl (hnone here rfl rfl) fun q rets he => ?_
    obtain ⟨_, rfl⟩ | ⟨_, rfl⟩ := point <;> cases he
  | listens type path here t_eq | accepts type path c rest here waiting t_eq
  | receives type path c rets n bs here recv waits t_eq =>
    subst t_eq
    exact hs.keep hm rfl (hnone here rfl rfl) fun _ _ he => by cases he
  | prints type path c rets n bs r here recv done t_eq
  | hears type path c bs rest r here waiting done t_eq =>
    subst t_eq
    exact hs.keep hm rfl (fun _ => .inr rfl) fun _ _ he => by cases he
  | connects type path message q here found t_eq =>
    obtain ⟨hfiles, ⟨jobq, xq⟩, hq, haccepts⟩ := find_eq found
    obtain ⟨_, _, hjob⟩ := (hplaced p _ here).2
    cases hjob
    have hserver : ∃ path, Has s q (.recvData .sockStream path) := by
      have hof := (hplaced q _ hq).2
      cases xq with
      | accept | recv c rets =>
        obtain ⟨path', rfl⟩ := hof
        exact ⟨path', _, hq⟩
      | bind | listen | recvfrom | connect | send q rets | sendto | killed | exited ret d =>
        cases haccepts
    subst t_eq
    refine hs.link hm rfl rfl hfiles hserver hfiled (.inl rfl) fun q' rets he => ?_
    cases he
    rfl
  | sends type path message q rets n y here pos fits point t_eq =>
    subst t_eq
    refine hs.keep hm rfl (fun _ => ?_) fun q' rets' he => ?_
    · obtain ⟨_, rfl⟩ | ⟨r, _, rfl⟩ := point
      · exact .inl rfl
      · exact .inr rfl
    · obtain ⟨_, rfl⟩ | ⟨r, _, rfl⟩ := point
      · cases he
        exact hs.sending p _ q rets here
      · cases he
  | sendsTo type path message q r here found done t_eq =>
    obtain ⟨hfiles, ⟨jobq, xq⟩, hq, hreceives⟩ := find_eq found
    obtain ⟨_, _, hjob⟩ := (hplaced p _ here).2
    cases hjob
    have hserver : ∃ path, Has s q (.recvData .sockDgram path) := by
      have hof := (hplaced q _ hq).2
      cases xq with
      | recvfrom =>
        obtain ⟨path', rfl⟩ := hof
        exact ⟨path', _, hq⟩
      | bind | listen | accept | recv c rets | connect | send q rets | sendto | killed
      | exited ret d => cases hreceives
    subst t_eq
    exact hs.link hm rfl rfl hfiles hserver hfiled (.inr rfl) fun q' rets he => by cases he

end Linked

end LinuxExamples.SocketSystem
