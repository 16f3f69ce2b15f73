import LinuxExamples.Runs
import LinuxExamples.UdpEcho

namespace LinuxExamples.UdpClients

open Bytes Runs UdpEcho

structure Chunk (BUFSIZ : Nat) where
  bytes : List UInt8
  nonempty : bytes ≠ []
  short : bytes.length < BUFSIZ
  visible : bytes.head? ≠ some 0

/-- A client's next call; `original` and `echoed` are its two prints. -/
inductive Point where
  | input | original | write | read | echoed
  deriving DecidableEq

/-- A client with its datagrams on the way to the server and its receive queue, both in
order. The texts it has printed are listed latest first. -/
structure Client where
  point : Point
  sndBuff : Mem
  original : List (List UInt8)
  echoed : List (List UInt8)
  requests : List (List UInt8)
  replies : List (List UInt8)

/-- The clients by their addresses, and the server's buffer and the datagram it has
received and not yet answered. -/
structure State where
  clients : SockAddr → Client
  buf : Mem
  request : Option Datagram

def text (BUFSIZ : Nat) (c : Client) : List UInt8 := str c.sndBuff 0 BUFSIZ

/-- The client's calls behind the `read` of its input. A `read` of the socket returns as much
of the first datagram as was asked for and drops the rest of it; a `read` of no bytes returns at
once. -/
def echoClient (BUFSIZ : Nat) (c : Client) : Option Client :=
  let strlen := (text BUFSIZ c).length
  match c.point with
  | .input => none
  | .original => some { c with point := .write, original := text BUFSIZ c :: c.original }
  | .write => some { c with point := .read, requests := c.requests ++ [read c.sndBuff 0 strlen] }
  | .read =>
    if strlen = 0 then some { c with point := .echoed }
    else
      match c.replies with
      | [] => none
      | d :: replies =>
        some { c with
          point := .echoed
          sndBuff := write c.sndBuff 0 (d.take strlen)
          replies := replies }
  | .echoed => some { c with point := .input, echoed := text BUFSIZ c :: c.echoed }

inductive Act (BUFSIZ : Nat) where
  | typed (a : SockAddr) (chunk : Chunk BUFSIZ)
  | client (a : SockAddr)
  | recvfrom (a : SockAddr)
  | sendto

def State.put (s : State) (a : SockAddr) (c : Client) : State :=
  { s with clients := Function.update s.clients a c }

/-- A step of a client or of the server. The server receives from any client that has a
datagram on the way, so the datagrams of two clients may arrive in any order. -/
def step (BUFSIZ : Nat) (s : State) : Act BUFSIZ → Option State
  | .typed a chunk =>
    let c := s.clients a
    if c.point = .input then
      some (s.put a { c with point := .original, sndBuff := write c.sndBuff 0 chunk.bytes })
    else none
  | .client a => (echoClient BUFSIZ (s.clients a)).map fun c => s.put a c
  | .recvfrom a =>
    match s.request, (s.clients a).requests with
    | none, d :: requests =>
      let s := s.put a { s.clients a with requests := requests }
      some { s with buf := UdpEcho.recvfrom BUFSIZ s.buf ⟨a, d⟩, request := some ⟨a, d⟩ }
    | _, _ => none
  | .sendto =>
    s.request.map fun d =>
      let reply := answer BUFSIZ s.buf d
      let c := s.clients reply.peer
      { s.put reply.peer { c with replies := c.replies ++ [reply.payload] } with request := none }

/-- Every client is connected and has a cleared buffer. -/
def start (BUFSIZ : Nat) (stack : SockAddr → Mem) (buf : Mem) : State :=
  ⟨fun a => ⟨.input, memset (stack a) BUFSIZ, [], [], [], []⟩, buf, none⟩

def Served (s : State) (a : SockAddr) : Prop := ∃ d, s.request = some d ∧ d.peer = a

structure Idle (c : Client) (served : Prop) : Prop where
  requests : c.requests = []
  replies : c.replies = []
  server : ¬ served

/-- The text that was typed is in the buffer and has been printed, and is not empty. -/
def Shown (BUFSIZ : Nat) (c : Client) : Prop :=
  c.original = text BUFSIZ c :: c.echoed ∧ text BUFSIZ c ≠ []

/-- Where the one datagram of a client's round is. When it is with the server, it
stands at the front of the server's buffer. -/
inductive Stage (BUFSIZ : Nat) (c : Client) (served : Prop) (buf : Mem) : Prop where
  | rest (point : c.point = .input ∨ c.point = .original ∧ text BUFSIZ c ≠ [])
      (same : c.echoed = c.original) (idle : Idle c served)
  | unsent (point : c.point = .write) (shown : Shown BUFSIZ c) (idle : Idle c served)
  | sent (point : c.point = .read) (shown : Shown BUFSIZ c) (server : ¬ served)
      (requests : c.requests = [text BUFSIZ c]) (replies : c.replies = [])
  | served (point : c.point = .read) (shown : Shown BUFSIZ c) (server : served)
      (requests : c.requests = []) (replies : c.replies = [])
      (front : read buf 0 (text BUFSIZ c).length = text BUFSIZ c)
  | answered (reply : List UInt8) (point : c.point = .read) (shown : Shown BUFSIZ c)
      (server : ¬ served) (requests : c.requests = []) (replies : c.replies = [reply])
      (front : reply.take (text BUFSIZ c).length = text BUFSIZ c)
  | back (point : c.point = .echoed) (shown : Shown BUFSIZ c) (idle : Idle c served)

/-- The last byte of a client's buffer stays NUL, so its text ends inside the buffer. -/
def Ends (BUFSIZ : Nat) (c : Client) : Prop := ∀ i, i + 1 = BUFSIZ → c.sndBuff i = 0

structure Inv (BUFSIZ : Nat) (s : State) : Prop where
  stage : ∀ a, Stage BUFSIZ (s.clients a) (Served s a) s.buf
  ends : ∀ a, Ends BUFSIZ (s.clients a)

theorem start_inv (BUFSIZ : Nat) (stack : SockAddr → Mem) (buf : Mem) :
    Inv BUFSIZ (start BUFSIZ stack buf) := by
  refine ⟨fun a => .rest (.inl rfl) rfl ⟨rfl, rfl, ?_⟩, fun a i hi => ?_⟩
  · rintro ⟨d, hd, _⟩
    cases hd
  · exact memset_apply (stack a) (by omega)

/-- The steps of others leave a client's stage alone while the server neither takes nor
answers a datagram of this client. -/
theorem Stage.frame {BUFSIZ : Nat} {c : Client} {served served' : Prop} {buf buf' : Mem}
    (h : Stage BUFSIZ c served buf) (hserved : served' ↔ served) (hbuf : served → buf' = buf) :
    Stage BUFSIZ c served' buf' := by
  obtain rfl := propext hserved
  cases h with
  | rest hp hsame hi => exact .rest hp hsame hi
  | unsent hp hshown hi => exact .unsent hp hshown hi
  | sent hp hshown hsv hreq hrep => exact .sent hp hshown hsv hreq hrep
  | served hp hshown hsv hreq hrep hf =>
    exact .served hp hshown hsv hreq hrep (by rwa [hbuf hsv])
  | answered reply hp hshown hsv hreq hrep hf =>
    exact .answered reply hp hshown hsv hreq hrep hf
  | back hp hshown hi => exact .back hp hshown hi

/-- What a step has to show that changes the client `a` only. -/
theorem Inv.update {BUFSIZ : Nat} {s t : State} {a : SockAddr} {c : Client} (h : Inv BUFSIZ s)
    (ht : t.clients = Function.update s.clients a c) (hstage : Stage BUFSIZ c (Served t a) t.buf)
    (hends : Ends BUFSIZ c) (hserved : ∀ b, b ≠ a → (Served t b ↔ Served s b))
    (hbuf : ∀ b, b ≠ a → Served s b → t.buf = s.buf) : Inv BUFSIZ t := by
  constructor <;> rw [ht]
  · apply (Function.forall_update_iff _ fun b c => Stage BUFSIZ c (Served t b) t.buf).mpr
    exact ⟨hstage, fun b hb => (h.stage b).frame (hserved b hb) (hbuf b hb)⟩
  · apply (Function.forall_update_iff _ fun _ c => Ends BUFSIZ c).mpr
    exact ⟨hends, fun b _ => h.ends b⟩

/-- The text of a buffer that a chunk was stored to begins with the chunk's first byte. -/
theorem chunk_visible {BUFSIZ : Nat} (m : Mem) (chunk : Chunk BUFSIZ) :
    str (write m 0 chunk.bytes) 0 BUFSIZ ≠ [] := by
  obtain ⟨b, bs, hbytes⟩ := List.exists_cons_of_ne_nil chunk.nonempty
  have hb : b ≠ 0 := by
    rintro rfl
    exact chunk.visible (by rw [hbytes]; rfl)
  obtain ⟨n, rfl⟩ := Nat.exists_eq_succ_of_ne_zero (Nat.ne_of_gt (Nat.zero_lt_of_lt chunk.short))
  have hfirst : write m 0 chunk.bytes 0 = b := by
    have hw := write_apply_at m chunk.bytes 0 0 (by rw [hbytes]; exact Nat.succ_pos _)
    simpa only [hbytes, List.getElem_cons_zero] using hw
  rw [str_eq_takeWhile]
  simp [Bytes.read, hfirst, hb]

theorem typed_keeps {BUFSIZ : Nat} {s t : State} {a : SockAddr} {chunk : Chunk BUFSIZ}
    (h : Inv BUFSIZ s) (ht : step BUFSIZ s (.typed a chunk) = some t) : Inv BUFSIZ t := by
  simp only [step] at ht
  split at ht
  · rename_i hp
    cases ht
    refine h.update rfl ?_ (fun i hi => ?_) (fun _ _ => Iff.rfl) fun _ _ _ => rfl
    · cases h.stage a with
      | rest _ hsame hi =>
        exact .rest (.inr ⟨rfl, chunk_visible _ chunk⟩) hsame ⟨hi.requests, hi.replies, hi.server⟩
      | unsent hq | sent hq | served hq | answered _ hq | back hq =>
        rw [hp] at hq
        cases hq
    · have hi' : 0 + chunk.bytes.length ≤ i := by
        have hshort := chunk.short
        omega
      exact (write_apply_after _ _ hi').trans (h.ends a i hi)
  · cases ht

theorem write_text (BUFSIZ : Nat) (c : Client) :
    write c.sndBuff 0 (text BUFSIZ c) = c.sndBuff := by
  have hr : text BUFSIZ c = read c.sndBuff 0 (text BUFSIZ c).length := (read_str _ _ _).symm
  rw [hr, write_read]

theorem echoClient_keeps {BUFSIZ : Nat} {c c' : Client} {served : Prop} {buf : Mem}
    (h : Stage BUFSIZ c served buf) (ht : echoClient BUFSIZ c = some c') :
    Stage BUFSIZ c' served buf ∧ c'.sndBuff = c.sndBuff := by
  cases h with
  | rest hp hsame hi =>
    obtain hp | hp := hp
    · simp only [echoClient, hp] at ht
      cases ht
    · simp only [echoClient, hp.1] at ht
      cases ht
      refine ⟨.unsent rfl ⟨?_, hp.2⟩ ⟨hi.requests, hi.replies, hi.server⟩, rfl⟩
      exact congrArg (text BUFSIZ c :: ·) hsame.symm
  | unsent hp hshown hi =>
    simp only [echoClient, hp, hi.requests, List.nil_append] at ht
    cases ht
    exact ⟨.sent rfl hshown hi.server (congrArg (fun x => [x]) (read_str _ _ _)) hi.replies, rfl⟩
  | sent hp hshown _ _ hrep | served hp hshown _ _ hrep _ =>
    simp only [echoClient, hp, hrep, List.length_eq_zero_iff, hshown.2, ↓reduceIte] at ht
    cases ht
  | answered reply hp hshown hsv hreq hrep hf =>
    simp only [echoClient, hp, hrep, hf, write_text, List.length_eq_zero_iff, hshown.2,
      ↓reduceIte] at ht
    cases ht
    exact ⟨.back rfl hshown ⟨hreq, rfl, hsv⟩, rfl⟩
  | back hp hshown hi =>
    simp only [echoClient, hp] at ht
    cases ht
    exact ⟨.rest (.inl rfl) hshown.1.symm ⟨hi.requests, hi.replies, hi.server⟩, rfl⟩

theorem client_keeps {BUFSIZ : Nat} {s t : State} {a : SockAddr} (h : Inv BUFSIZ s)
    (ht : step BUFSIZ s (.client a) = some t) : Inv BUFSIZ t := by
  obtain ⟨c, hc, rfl⟩ := Option.map_eq_some_iff.mp ht
  obtain ⟨hstage, hbuf⟩ := echoClient_keeps (h.stage a) hc
  refine h.update rfl hstage (fun i hi => ?_) (fun _ _ => Iff.rfl) fun _ _ _ => rfl
  rw [hbuf]
  exact h.ends a i hi

theorem not_served {s : State} (h : s.request = none) (a : SockAddr) : ¬ Served s a := by
  rintro ⟨d, hd, _⟩
  rw [h] at hd
  cases hd

theorem served_iff {s : State} {d : Datagram} (h : s.request = some d) (a : SockAddr) :
    Served s a ↔ a = d.peer := by
  constructor
  · rintro ⟨e, he, rfl⟩
    rw [h] at he
    cases he
    rfl
  · rintro rfl
    exact ⟨d, h, rfl⟩

/-- The server takes a datagram over what any other client has left in its buffer. -/
theorem recvfrom_keeps {BUFSIZ : Nat} {s t : State} {a : SockAddr} (h : Inv BUFSIZ s)
    (ht : step BUFSIZ s (.recvfrom a) = some t) : Inv BUFSIZ t := by
  simp only [step] at ht
  split at ht
  · rename_i d requests hnone hreq
    cases ht
    have hfree := not_served hnone
    refine h.update rfl ?_ (h.ends a) (fun b hb => ?_) fun b _ hs => absurd hs (hfree b)
    · cases h.stage a with
      | rest _ _ hi | unsent _ _ hi | back _ _ hi =>
        rw [hi.requests] at hreq
        cases hreq
      | served _ _ _ hr | answered _ _ _ _ hr =>
        rw [hr] at hreq
        cases hreq
      | sent hp hshown _ hr hrep =>
        rw [hr] at hreq
        cases hreq
        refine .served hp hshown ((served_iff rfl a).mpr rfl) rfl hrep ?_
        have hlen : (text BUFSIZ (s.clients a)).length ≤ BUFSIZ := str_length_le _ _ _
        simp only [UdpEcho.recvfrom, List.take_of_length_le hlen]
        exact read_write s.buf 0 _
    · exact iff_of_false (fun hs => hb ((served_iff rfl b).mp hs)) (hfree b)
  · cases ht

theorem sendto_keeps {BUFSIZ : Nat} {s t : State} (h : Inv BUFSIZ s)
    (ht : step BUFSIZ s .sendto = some t) : Inv BUFSIZ t := by
  obtain ⟨d, hd, rfl⟩ := Option.map_eq_some_iff.mp ht
  have hserved := served_iff hd
  refine h.update rfl ?_ (h.ends d.peer) (fun b hb => ?_) fun _ _ _ => rfl
  · have hself : Served s d.peer := (hserved d.peer).mpr rfl
    cases h.stage d.peer with
    | rest _ _ hi | unsent _ _ hi | back _ _ hi => exact absurd hself hi.server
    | sent _ _ hn | answered _ _ _ hn => exact absurd hself hn
    | served hp hshown _ hreq hrep hf =>
      have hone : (s.clients d.peer).replies ++ [read s.buf 0 BUFSIZ] = [read s.buf 0 BUFSIZ] := by
        rw [hrep, List.nil_append]
      have hfront : (read s.buf 0 BUFSIZ).take (text BUFSIZ (s.clients d.peer)).length =
          text BUFSIZ (s.clients d.peer) :=
        (read_take s.buf 0 (str_length_le _ _ _)).trans hf
      exact .answered _ hp hshown (not_served rfl _) hreq hone hfront
  · exact iff_of_false (not_served rfl b) fun hs => hb ((hserved b).mp hs)

theorem step_keeps {BUFSIZ : Nat} (s : State) (a : Act BUFSIZ) (t : State) (h : Inv BUFSIZ s)
    (ht : step BUFSIZ s a = some t) : Inv BUFSIZ t := by
  cases a with
  | typed a chunk => exact typed_keeps h ht
  | client a => exact client_keeps h ht
  | recvfrom a => exact recvfrom_keeps h ht
  | sendto => exact sendto_keeps h ht

/-- Each echo that a client prints is the text of the same round, and a round leaves no
datagram behind. -/
structure EchoesMatch (BUFSIZ : Nat) (s : State) : Prop where
  rounds : ∀ a, (s.clients a).original = (s.clients a).echoed ∨
    ∃ x, (s.clients a).original = x :: (s.clients a).echoed
  ends : ∀ a, (s.clients a).point = .input →
    (s.clients a).original = (s.clients a).echoed ∧ (s.clients a).replies = []
  inside : ∀ a, Ends BUFSIZ (s.clients a)

theorem Inv.echoesMatch {BUFSIZ : Nat} {s : State} (h : Inv BUFSIZ s) : EchoesMatch BUFSIZ s := by
  refine ⟨fun a => ?_, fun a hp => ?_, h.ends⟩
  · cases h.stage a with
    | rest _ hsame _ => exact .inl hsame.symm
    | unsent _ hs _ | sent _ hs | served _ hs | answered _ _ hs | back _ hs _ =>
      exact .inr ⟨_, hs.1⟩
  · cases h.stage a with
    | rest _ hsame hi => exact ⟨hsame.symm, hi.replies⟩
    | unsent hq | sent hq | served hq | answered _ hq | back hq =>
      rw [hp] at hq
      cases hq

/-- The stale bytes in the server's replies and those in the clients' buffers cancel out. -/
theorem echoes_match (BUFSIZ : Nat) (stack : SockAddr → Mem) (buf : Mem) :
    Always (step BUFSIZ) (EchoesMatch BUFSIZ) (start BUFSIZ stack buf) :=
  .of_invariant (Inv BUFSIZ) (start_inv BUFSIZ stack buf) step_keeps fun _ h => h.echoesMatch

section Rounds

variable {BUFSIZ : Nat} {s t : State} {a : SockAddr}

/-- How many steps the round of `a` has still to make, when the server works for it alone. -/
def remaining (a : SockAddr) (s : State) : Nat :=
  match (s.clients a).point with
  | .input => 0
  | .original => 8
  | .write => 7
  | .read =>
    if (s.clients a).replies ≠ [] then 2
    else if (s.clients a).requests = [] then 3
    else if s.request = none then 4
    else 5
  | .echoed => 1

/-- The client `a` types nothing more. -/
def Untyped (a : SockAddr) (_ : State) (x : Act BUFSIZ) : Prop := ∀ chunk, x ≠ .typed a chunk

def Progress (BUFSIZ : Nat) (a : SockAddr) (s : State) : Prop :=
  ∃ (x : Act BUFSIZ) (t : State),
    Untyped a s x ∧ step BUFSIZ s x = some t ∧ remaining a t < remaining a s

/-- The client makes a call that is neither a wait nor its next `read` of the input. -/
theorem client_progress {c : Client} (hc : echoClient BUFSIZ (s.clients a) = some c)
    (hlt : remaining a (s.put a c) < remaining a s) : Progress BUFSIZ a s := by
  refine ⟨.client a, _, by simp [Untyped], ?_, hlt⟩
  simp only [step, hc, Option.map_some]

theorem remaining_put (s : State) (a : SockAddr) (c : Client) :
    (s.put a c).clients a = c ∧ (s.put a c).request = s.request :=
  ⟨Function.update_self _ _ _, rfl⟩

theorem recvfrom_eq {d : List UInt8} {requests : List (List UInt8)} (hr : s.request = none)
    (hreq : (s.clients a).requests = d :: requests) : step BUFSIZ s (.recvfrom a) =
      some { s.put a { s.clients a with requests := requests } with
        buf := UdpEcho.recvfrom BUFSIZ s.buf ⟨a, d⟩
        request := some ⟨a, d⟩ } := by
  simp only [step, hr, hreq]
  rfl

theorem sendto_eq {d : Datagram} (hr : s.request = some d) : step BUFSIZ s .sendto =
    some { s.put d.peer { s.clients d.peer with
      replies := (s.clients d.peer).replies ++ [read s.buf 0 BUFSIZ] } with request := none } := by
  simp only [step, hr]
  rfl

/-- The round of a client can always go on. -/
theorem Inv.progress (h : Inv BUFSIZ s) (hp : (s.clients a).point ≠ .input) :
    Progress BUFSIZ a s := by
  cases h.stage a with
  | rest hq _ _ =>
    obtain ⟨hq, _⟩ := hq.resolve_left hp
    refine client_progress (by simp only [echoClient, hq]; rfl) ?_
    simp [remaining, remaining_put, hq]
  | unsent hq _ hi =>
    refine client_progress (by simp only [echoClient, hq]; rfl) ?_
    simp only [remaining, remaining_put, hq, hi.replies, hi.requests]
    by_cases hfree : s.request = none <;> simp [hfree]
  | sent hq _ hsv hreq hrep =>
    cases hr : s.request with
    | none =>
      refine ⟨.recvfrom a, _, by simp [Untyped], recvfrom_eq hr hreq, ?_⟩
      simp [remaining, State.put, hq, hreq, hrep, hr]
    | some d =>
      have hne : a ≠ d.peer := fun he => hsv ((served_iff hr a).mpr he)
      refine ⟨.sendto, _, by simp [Untyped], sendto_eq hr, ?_⟩
      simp [remaining, State.put, hne, hq, hreq, hrep, hr]
  | served hq _ hsv hreq hrep _ =>
    obtain ⟨d, hr, rfl⟩ := hsv
    refine ⟨.sendto, _, by simp [Untyped], sendto_eq hr, ?_⟩
    simp [remaining, State.put, hq, hreq, hrep]
  | answered reply hq hshown _ _ hrep _ =>
    have hlen : (text BUFSIZ (s.clients a)).length ≠ 0 :=
      fun hz => hshown.2 (List.eq_nil_of_length_eq_zero hz)
    refine client_progress (by simp only [echoClient, hq, hrep, hlen, ↓reduceIte]; rfl) ?_
    simp [remaining, remaining_put, hq, hrep]
  | back hq _ _ =>
    refine client_progress (by simp only [echoClient, hq]; rfl) ?_
    simp [remaining, remaining_put, hq]

/-- What the client `a` has printed in the round of a chunk that has made the text `x` of its
buffer, when it had printed `original` and `echoed` before. -/
def Printed (BUFSIZ : Nat) (x : List UInt8) (original echoed : List (List UInt8)) (c : Client) :
    Prop :=
  match c.point with
  | .original => text BUFSIZ c = x ∧ c.original = original ∧ c.echoed = echoed
  | .write | .read | .echoed =>
    text BUFSIZ c = x ∧ c.original = x :: original ∧ c.echoed = echoed
  | .input => c.original = x :: original ∧ c.echoed = x :: echoed

variable {x : List UInt8} {original echoed : List (List UInt8)}

theorem echoClient_printed {c c' : Client} {served : Prop} {buf : Mem}
    (h : Stage BUFSIZ c served buf) (hs : Printed BUFSIZ x original echoed c)
    (ht : echoClient BUFSIZ c = some c') : Printed BUFSIZ x original echoed c' := by
  have hbuf := (echoClient_keeps h ht).2
  have htext : text BUFSIZ c' = text BUFSIZ c := by rw [text, text, hbuf]
  cases hp : c.point with
  | input =>
    simp only [echoClient, hp] at ht
    cases ht
  | original =>
    simp only [Printed, hp] at hs
    obtain ⟨rfl, rfl, rfl⟩ := hs
    simp only [echoClient, hp] at ht
    cases ht
    exact ⟨rfl, rfl, rfl⟩
  | write =>
    simp only [Printed, hp] at hs
    simp only [echoClient, hp] at ht
    cases ht
    exact hs
  | read =>
    simp only [Printed, hp] at hs
    obtain ⟨rfl, horiginal, hechoed⟩ := hs
    simp only [echoClient, hp] at ht
    split at ht
    · cases ht
      exact ⟨rfl, horiginal, hechoed⟩
    · split at ht
      · cases ht
      · cases ht
        exact ⟨htext, horiginal, hechoed⟩
  | echoed =>
    simp only [Printed, hp] at hs
    obtain ⟨rfl, horiginal, rfl⟩ := hs
    simp only [echoClient, hp] at ht
    cases ht
    exact ⟨horiginal, rfl⟩

theorem step_printed {b : Act BUFSIZ} (h : Inv BUFSIZ s)
    (hs : Printed BUFSIZ x original echoed (s.clients a)) (hb : Untyped a s b)
    (ht : step BUFSIZ s b = some t) : Printed BUFSIZ x original echoed (t.clients a) := by
  -- a step of or for another client leaves the client alone
  have hother (c : SockAddr) (k : Client) (hk : c = a → Printed BUFSIZ x original echoed k) :
      Printed BUFSIZ x original echoed (Function.update s.clients c k a) := by
    by_cases hc : a = c
    · subst hc
      rw [Function.update_self]
      exact hk rfl
    · rw [Function.update_of_ne hc]
      exact hs
  cases b with
  | typed c chunk =>
    obtain ⟨_, ht⟩ := Option.ite_none_right_eq_some.mp ht
    cases ht
    exact hother c _ fun hc => absurd (hc ▸ rfl) (hb chunk)
  | client c =>
    obtain ⟨k, hk, rfl⟩ := Option.map_eq_some_iff.mp ht
    refine hother c k fun hc => ?_
    subst hc
    exact echoClient_printed (h.stage c) hs hk
  | recvfrom c =>
    simp only [step] at ht
    split at ht
    · cases ht
      exact hother c _ fun hc => hc ▸ hs
    · cases ht
  | sendto =>
    obtain ⟨d, _, rfl⟩ := Option.map_eq_some_iff.mp ht
    exact hother d.peer _ fun hc => hc ▸ hs

structure InRound (BUFSIZ : Nat) (a : SockAddr) (x : List UInt8)
    (original echoed : List (List UInt8)) (s : State) : Prop where
  inv : Inv BUFSIZ s
  printed : Printed BUFSIZ x original echoed (s.clients a)

/-- The round of a typed chunk can always be completed, and when it is, both prints have shown
the text that the buffer had once the chunk was stored. -/
theorem rounds_complete (stack : SockAddr → Mem) (buf : Mem) {chunk : Chunk BUFSIZ}
    (hs : Reaches (step BUFSIZ) free (start BUFSIZ stack buf) s)
    (ht : step BUFSIZ s (.typed a chunk) = some t) :
    ∀ u, Reaches (step BUFSIZ) (Untyped a) t u →
      Printed BUFSIZ (str (write (s.clients a).sndBuff 0 chunk.bytes) 0 BUFSIZ)
        (s.clients a).original (s.clients a).echoed (u.clients a) ∧
      ∃ v, Reaches (step BUFSIZ) (Untyped a) u v ∧ (v.clients a).point = .input := by
  intro u hu
  have hi : Inv BUFSIZ s :=
    hs.invariant (start_inv BUFSIZ stack buf) fun s b t hi _ hst => step_keeps s b t hi hst
  have hfirst : InRound BUFSIZ a (str (write (s.clients a).sndBuff 0 chunk.bytes) 0 BUFSIZ)
      (s.clients a).original (s.clients a).echoed t := by
    refine ⟨step_keeps s _ t hi ht, ?_⟩
    obtain ⟨_, ht⟩ := Option.ite_none_right_eq_some.mp ht
    cases ht
    simp [Printed, State.put, text]
  have hround : InRound BUFSIZ a _ _ _ u := hu.invariant hfirst fun s b t h hb hst =>
    ⟨step_keeps s b t h.inv hst, step_printed h.inv h.printed hb hst⟩
  refine ⟨hround.printed, ?_⟩
  refine reaches_ok_of_measure (remaining a) (fun s (hs : Inv BUFSIZ s) hp => ?_) u hround.inv
  obtain ⟨b, t, hb, hst, hlt⟩ := hs.progress hp
  exact ⟨b, t, hb, hst, step_keeps s b t hs hst, hlt⟩

end Rounds

end LinuxExamples.UdpClients
