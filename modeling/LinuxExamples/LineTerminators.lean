import LinuxExamples.BroadcastUdp
import LinuxExamples.ReceiveLoop

namespace LinuxExamples.LineTerminators

open Bytes Runs
open BroadcastUdp (Setting received)
open ReceiveLoop (Receiver)
open TcpEcho (ClientPoint Connection)

/-- The TCP client's buffer behind a `read` of the input. -/
def terminated (sndBuffer : Mem) (chunk : List UInt8) : Mem :=
  write (write sndBuffer 0 chunk) chunk.length [0]

/-- The TCP client, with the indices at which it has stored terminators, latest first. -/
structure EchoClient where
  point : ClientPoint
  sndBuffer : Mem
  receiver : Receiver
  stores : List Nat

/-- What the client's next call returns, or that the loop `while(n_left)` is left. A `read` of
the input that fails is treated as one that returns 0. -/
inductive Returned where
  | typed (chunk : List UInt8)
  | wrote (n : Nat)
  | echoed (bs : List UInt8)
  | finished
  | failed

def echoClient (BUFSIZ : Nat) (s : EchoClient) (a : Returned) : Option EchoClient :=
  match s.point, a with
  | .input, .typed chunk =>
    if BUFSIZ < chunk.length then none
    else if chunk = [] then some s
    else
      let sndBuffer := terminated s.sndBuffer chunk
      some { s with
        point := if streq sndBuffer 0 TcpEcho.quit then .closed else .write
        sndBuffer := sndBuffer
        stores := chunk.length :: s.stores }
  | .write, .wrote n =>
    if (str s.sndBuffer 0 BUFSIZ).length < n then none
    else some { s with point := .receive, receiver := ⟨n, 0, s.receiver.rcvBuffer⟩ }
  | .receive, .echoed bs =>
    if s.receiver.nLeft = 0 ∨ s.receiver.nLeft < bs.length then none
    else some { s with receiver := s.receiver.store bs }
  | .receive, .finished =>
    if s.receiver.nLeft = 0 then
      let r := s.receiver
      some { s with
        point := .input
        receiver := ⟨r.nLeft, r.nRecv, write r.rcvBuffer r.nRecv [0]⟩
        stores := r.nRecv :: s.stores }
    else none
  | .write, .failed | .receive, .failed => some { s with point := .closed }
  | _, _ => none

def start (sndBuffer : Mem) (receiver : Receiver) : EchoClient := ⟨.input, sndBuffer, receiver, []⟩

def view (s : Connection) (stores : List Nat) : EchoClient :=
  ⟨s.client, s.sndBuffer, ⟨s.nLeft, s.nRecv, s.rcvBuffer⟩, stores⟩

/-- In a connection to the echo server the client makes these steps. -/
theorem echoClient_view {BUFSIZ k : Nat} {s t : Connection}
    (hchunk : (s.stdin.headD []).length ≤ BUFSIZ) (h : TcpEcho.echoClient BUFSIZ k s = some t)
    (stores : List Nat) :
    ∃ a stores', echoClient BUFSIZ (view s stores) a = some (view t stores') := by
  have hfits : ¬ BUFSIZ < (s.stdin.headD []).length := Nat.not_lt.mpr hchunk
  cases hp : s.client with
  | input =>
    refine ⟨.typed (s.stdin.headD []), ?_⟩
    simp only [TcpEcho.echoClient, hp] at h
    by_cases hempty : s.stdin.headD [] = []
    · rw [if_pos hempty] at h
      cases h
      refine ⟨stores, ?_⟩
      simp only [echoClient, view, hp, hempty, List.length_nil, Nat.not_lt_zero, ↓reduceIte]
    · rw [if_neg hempty] at h
      refine ⟨(s.stdin.headD []).length :: stores, ?_⟩
      split at h <;> rename_i hquit <;> cases h <;>
        simp only [echoClient, view, terminated, hp, hempty, hfits, hquit, Bool.false_eq_true,
          ↓reduceIte]
  | write =>
    simp only [TcpEcho.echoClient, hp] at h
    cases h
    exact ⟨.wrote (str s.sndBuffer 0 BUFSIZ).length, stores, by simp [echoClient, view, hp]⟩
  | receive =>
    by_cases hleft : s.nLeft = 0
    · simp only [TcpEcho.echoClient, hp, hleft, ↓reduceIte] at h
      cases h
      exact ⟨.finished, s.nRecv :: stores, by simp [echoClient, view, hp, hleft]⟩
    · have hstore := ReceiveLoop.echoClient_store hp hleft h
      simp only [TcpEcho.echoClient, hp, if_neg hleft] at h
      split at h
      · rename_i hk
        have hle : ¬ s.nLeft < (s.s2c.take k).length := by
          rw [List.length_take]
          omega
        refine ⟨.echoed (s.s2c.take k), stores, ?_⟩
        simp only [echoClient, view, hp, hleft, hle, or_self, ↓reduceIte]
        rw [← hstore]
        cases h
        rfl
      · cases h
  | closed =>
    simp [TcpEcho.echoClient, hp] at h

/-- A `read` of the input that does not fill the buffer. -/
def Short (BUFSIZ : Nat) (_ : EchoClient) : Returned → Prop
  | .typed chunk => chunk = [] ∨ chunk.length < BUFSIZ
  | _ => True

def Inside (BUFSIZ : Nat) (stores : List Nat) : Prop := ∀ i ∈ stores, i < BUFSIZ

structure Inv (BUFSIZ : Nat) (s : EchoClient) : Prop where
  inside : Inside BUFSIZ s.stores
  request : s.point = .write → (str s.sndBuffer 0 BUFSIZ).length < BUFSIZ
  echo : s.point = .receive → s.receiver.nRecv + s.receiver.nLeft < BUFSIZ

theorem inside_cons {BUFSIZ i : Nat} {stores : List Nat} :
    Inside BUFSIZ (i :: stores) ↔ i < BUFSIZ ∧ Inside BUFSIZ stores := List.forall_mem_cons

/-- The text in the buffer ends at the terminator behind a chunk at the latest. -/
theorem typed_str_length (m : Mem) (chunk : List UInt8) (n : Nat) :
    (str (terminated m chunk) 0 n).length ≤ chunk.length := by
  apply str_length_le_nul
  rw [Nat.zero_add]
  exact write_apply_at _ [0] chunk.length 0 Nat.one_pos

section Calls

variable {BUFSIZ : Nat} {s : EchoClient} (hi : Inv BUFSIZ s)

include hi

theorem Inv.closed : Inv BUFSIZ { s with point := .closed } := by
  refine ⟨hi.inside, ?_, ?_⟩
  · intro hw
    cases hw
  · intro hrecv
    cases hrecv

theorem Inv.typed {chunk : List UInt8} (hshort : chunk.length < BUFSIZ) {point : ClientPoint}
    (hpoint : point ≠ .receive) :
    Inv BUFSIZ { s with
      point := point
      sndBuffer := terminated s.sndBuffer chunk
      stores := chunk.length :: s.stores } :=
  ⟨inside_cons.mpr ⟨hshort, hi.inside⟩, fun _ => (typed_str_length _ _ _).trans_lt hshort,
    fun hrecv => absurd hrecv hpoint⟩

/-- No more is asked back from the server than was written to it. -/
theorem Inv.wrote {n : Nat} (hp : s.point = .write) (hn : n ≤ (str s.sndBuffer 0 BUFSIZ).length) :
    Inv BUFSIZ { s with point := .receive, receiver := ⟨n, 0, s.receiver.rcvBuffer⟩ } := by
  have hlen := hi.request hp
  refine ⟨hi.inside, ?_, fun _ => ?_⟩
  · intro hw
    cases hw
  · simp only
    omega

theorem Inv.echoed {bs : List UInt8} (hp : s.point = .receive)
    (hbs : bs.length ≤ s.receiver.nLeft) :
    Inv BUFSIZ { s with receiver := s.receiver.store bs } := by
  have hsum := hi.echo hp
  refine ⟨hi.inside, fun hw => ?_, fun _ => ?_⟩
  · rw [hp] at hw
    cases hw
  · simp only [Receiver.store]
    omega

theorem Inv.finished (hp : s.point = .receive) (rcvBuffer : Mem) :
    Inv BUFSIZ { s with
      point := .input
      receiver := ⟨s.receiver.nLeft, s.receiver.nRecv, rcvBuffer⟩
      stores := s.receiver.nRecv :: s.stores } := by
  have hsum := hi.echo hp
  refine ⟨inside_cons.mpr ⟨by omega, hi.inside⟩, ?_, ?_⟩
  · intro hw
    cases hw
  · intro hrecv
    cases hrecv

theorem step_keeps {t : EchoClient} {a : Returned} (ha : Short BUFSIZ s a)
    (h : echoClient BUFSIZ s a = some t) : Inv BUFSIZ t := by
  unfold echoClient at h
  split at h
  · rename_i chunk hp
    split at h
    · cases h
    · split at h
      · cases h
        exact hi
      · rename_i hne
        cases h
        apply hi.typed (ha.resolve_left hne)
        split <;> decide
  · rename_i n hp
    split at h
    · cases h
    · rename_i hn
      cases h
      exact hi.wrote hp (Nat.le_of_not_lt hn)
  · rename_i bs hp
    split at h
    · cases h
    · rename_i hbs
      cases h
      exact hi.echoed hp (Nat.le_of_not_lt fun hlt => hbs (.inr hlt))
  · rename_i hp
    split at h
    · cases h
      exact hi.finished hp _
    · cases h
  · cases h
    exact hi.closed
  · cases h
    exact hi.closed
  · cases h

end Calls

/-- The terminator behind a chunk that fills the buffer is stored behind the buffer. -/
theorem full_breaks {BUFSIZ : Nat} {s t : EchoClient} {a : Returned}
    (h : echoClient BUFSIZ s a = some t) (ha : ¬ Short BUFSIZ s a) : ¬ Inside BUFSIZ t.stores := by
  cases a with
  | typed chunk =>
    obtain ⟨hne, hlong⟩ := not_or.mp ha
    cases hp : s.point with
    | input =>
      simp only [echoClient, hp, hne, ↓reduceIte] at h
      split at h
      · cases h
      · cases h
        exact fun hin => hlong (inside_cons.mp hin).1
    | write | receive | closed =>
      simp only [echoClient, hp] at h
      cases h
  | _ => exact absurd trivial ha

theorem echoClient_guarded (BUFSIZ : Nat) (sndBuffer : Mem) (receiver : Receiver) :
    Guards (echoClient BUFSIZ) (Short BUFSIZ) (fun s => Inside BUFSIZ s.stores)
      (start sndBuffer receiver) :=
  .of_invariant (Inv BUFSIZ) ⟨nofun, nofun, nofun⟩ (fun _ _ _ hi ha ht => step_keeps hi ha ht)
    (fun _ hi => hi.inside)
    fun _ _ t _ ht ha => ⟨t, .refl t, full_breaks ht ha⟩

/-- The broadcast reader, and whether it has left its loop. -/
structure Reader where
  left : Bool
  rcvBuffer : Mem
  stores : List Nat

/-- A round of the reader on a datagram that arrives; `none` is a failure of `recvfrom`. -/
def readerUdp {BUFSIZ : Nat} (e : Setting BUFSIZ) (s : Reader) (d : Option (List UInt8)) :
    Option Reader :=
  if s.left then none
  else
    match d with
    | none => some { s with left := true }
    | some d =>
      let rcvBuffer := received e s.rcvBuffer d
      some ⟨strneq rcvBuffer 0 BroadcastUdp.quit, rcvBuffer, (d.take BUFSIZ).length :: s.stores⟩

/-- A datagram that does not fill the buffer. -/
def ShortDatagram (BUFSIZ : Nat) (_ : Reader) (d : Option (List UInt8)) : Prop :=
  ∀ bs ∈ d, bs.length < BUFSIZ

variable {BUFSIZ : Nat} (e : Setting BUFSIZ)

theorem readerUdp_stores {s t : Reader} {d : Option (List UInt8)} (h : readerUdp e s d = some t) :
    Inside BUFSIZ t.stores ↔ ShortDatagram BUFSIZ s d ∧ Inside BUFSIZ s.stores := by
  unfold readerUdp at h
  split at h
  · cases h
  · cases d with
    | none =>
      cases h
      exact (and_iff_right nofun).symm
    | some bs =>
      cases h
      have hlen : (bs.take BUFSIZ).length < BUFSIZ ↔ bs.length < BUFSIZ := by
        rw [List.length_take]
        omega
      rw [inside_cons, hlen, ShortDatagram]
      simp

theorem readerUdp_guarded (rcvBuffer : Mem) : Guards (readerUdp e) (ShortDatagram BUFSIZ)
    (fun s => Inside BUFSIZ s.stores) ⟨false, rcvBuffer, []⟩ :=
  .of_invariant (fun s => Inside BUFSIZ s.stores) nofun
    (fun _ _ _ hi ha ht => (readerUdp_stores e ht).mpr ⟨ha, hi⟩) (fun _ hi => hi)
    fun _ _ t _ ht ha => ⟨t, .refl t, fun hin => ha ((readerUdp_stores e ht).mp hin).1⟩

/-- The terminators of both programs stay inside the buffers as long as no `read` of the input
and no `recvfrom` fills one, and each that does is followed by a store behind the buffer. -/
theorem terminators_guarded (sndBuffer rcvBuffer : Mem) (receiver : Receiver) :
    Guards (echoClient BUFSIZ) (Short BUFSIZ) (fun s => Inside BUFSIZ s.stores)
        (start sndBuffer receiver) ∧
      Guards (readerUdp e) (ShortDatagram BUFSIZ) (fun s => Inside BUFSIZ s.stores)
        ⟨false, rcvBuffer, []⟩ :=
  ⟨echoClient_guarded BUFSIZ sndBuffer receiver, readerUdp_guarded e rcvBuffer⟩

/-- A `read` of the input that returns all that it was asked for. -/
theorem full_read_outside : ¬ ∀ s,
    Reaches (echoClient 8192) free (start (fun _ => 0) ⟨0, 0, fun _ => 0⟩) s →
      Inside 8192 s.stores := by
  intro h
  have hlen : (List.replicate 8192 (120 : UInt8)).length = 8192 := List.length_replicate
  have hne : List.replicate 8192 (120 : UInt8) ≠ [] := List.ne_nil_of_length_eq_add_one hlen
  have hstep : ∃ t, echoClient 8192 (start (fun _ => 0) ⟨0, 0, fun _ => 0⟩)
      (.typed (List.replicate 8192 120)) = some t := by
    simp only [echoClient, start, hlen, hne, Nat.lt_irrefl, ↓reduceIte]
    exact ⟨_, rfl⟩
  obtain ⟨t, ht⟩ := hstep
  have hfull : ¬ Short 8192 (start (fun _ => 0) ⟨0, 0, fun _ => 0⟩)
      (.typed (List.replicate 8192 120)) := by
    rintro (hnil | hlt)
    · exact hne hnil
    · exact absurd (hlen ▸ hlt) (Nat.lt_irrefl _)
  exact full_breaks ht hfull (h t (.single trivial ht))

end LinuxExamples.LineTerminators
