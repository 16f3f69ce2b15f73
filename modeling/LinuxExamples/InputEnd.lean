import LinuxExamples.LineTerminators
import LinuxExamples.UdpTyped

namespace LinuxExamples.InputEnd

open Bytes
open BroadcastUdp (Setting send)
open LineTerminators (terminated)
open ReceiveLoop (Receiver Result receiveLoop replies replies_cons)

/-- The reads of an input with the given pieces. Behind the last of them `read` returns 0. -/
def stdin (content : List (List UInt8)) : Stream' (List UInt8) :=
  content ++ₛ Stream'.const []

theorem stdin_cons (c : List UInt8) (content : List (List UInt8)) :
    stdin (c :: content) = Stream'.cons c (stdin content) := rfl

/-- A peer that sends back as many bytes as it is sent, in pieces that may be others in each
round. -/
structure Peer where
  pieces : Nat → List UInt8 → List (List UInt8)
  full : ∀ round request, (pieces round request).flatten.length = request.length

/-- What the reads of the socket return behind a request. -/
abbrev Answer := Nat → List UInt8 → Option (Stream' (Option (List UInt8)))

def Peer.answer (peer : Peer) : Answer :=
  fun round request => some (replies (peer.pieces round request) .closes)

/-- `main` of the TCP client from its loop on, where a request without an answer is one that
`write` fails on. It has no value while it has not returned within `fuel` iterations of a
loop. -/
def tcpClient (BUFSIZ : Nat) (answer : Answer) :
    Nat → Nat → Stream' (List UInt8) → Mem → Mem → Option Int
  | 0, _, _, _, _ => none
  | fuel + 1, round, reads, sndBuffer, rcvBuffer =>
    let chunk := reads.head
    if chunk = [] then tcpClient BUFSIZ answer fuel round reads.tail sndBuffer rcvBuffer
    else
      let sndBuffer := terminated sndBuffer chunk
      if streq sndBuffer 0 TcpEcho.quit then some 0
      else
        let request := str sndBuffer 0 BUFSIZ
        match answer round request with
        | none => some (-1)
        | some echo =>
          match receiveLoop (fuel + 1) echo ⟨request.length, 0, rcvBuffer⟩ with
          | none => none
          | some .failed => some (-1)
          | some (.received rcvBuffer) =>
            tcpClient BUFSIZ answer fuel (round + 1) reads.tail sndBuffer rcvBuffer

/-- A round of the UDP client behind the `read` of its input; it fails where `sendto` or
`recvfrom` does. -/
def udpRound (BUFSIZ : Nat) (answer : List UInt8 → Option (List UInt8)) (c : UdpClients.Client)
    (chunk : List UInt8) : Option UdpClients.Client :=
  let c := { c with point := .original, sndBuff := write c.sndBuff 0 chunk }
  (UdpClients.echoClient BUFSIZ c).bind fun c => (UdpClients.echoClient BUFSIZ c).bind fun c =>
    (answer (c.requests.getLastD [])).bind fun d =>
      (UdpClients.echoClient BUFSIZ { c with replies := [d] }).bind fun c =>
        UdpClients.echoClient BUFSIZ c

theorem round_eq (BUFSIZ : Nat) (c : UdpClients.Client) (input : UdpTyped.Input BUFSIZ) :
    UdpTyped.round BUFSIZ c input = udpRound BUFSIZ some c input.bytes := rfl

/-- `main` of the UDP client from its loop on; `none` among the reads is a failure. -/
def udpClient (BUFSIZ : Nat) (answer : Nat → List UInt8 → Option (List UInt8)) :
    Nat → Nat → Stream' (Option (List UInt8)) → UdpClients.Client → Option Int
  | 0, _, _, _ => none
  | fuel + 1, round, reads, c =>
    match reads.head with
    | none => some (-1)
    | some chunk =>
      match udpRound BUFSIZ (answer round) c chunk with
      | none => some (-1)
      | some c => udpClient BUFSIZ answer fuel (round + 1) reads.tail c

section Broadcaster

variable {BUFSIZ : Nat} (e : Setting BUFSIZ)

/-- The broadcaster's buffer behind a `read`, with a byte stored in place of the last one. -/
def typed (sndBuffer : Mem) (chunk : List UInt8) : Mem :=
  if chunk = [] then sndBuffer
  else write (write sndBuffer 0 chunk) (chunk.length - 1) [e.v]

/-- `main` of the broadcaster from its loop on. -/
def broadcaster (sendto : Nat → Bool) : Nat → Nat → Stream' (List UInt8) → Mem → Option Int
  | 0, _, _, _ => none
  | fuel + 1, round, reads, sndBuffer =>
    let chunk := reads.head
    let sndBuffer := typed e sndBuffer chunk
    if chunk = [] then broadcaster sendto fuel round reads.tail sndBuffer
    else if sendto round = false then some (-1)
    else if (send e sndBuffer).left then some 0
    else broadcaster sendto fuel (round + 1) reads.tail sndBuffer

theorem typed_line (sndBuffer : Mem) (l : BroadcastUdp.Line BUFSIZ) :
    typed e sndBuffer l.bytes = BroadcastUdp.typed e sndBuffer l :=
  if_neg (List.concat_ne_nil _ _)

end Broadcaster

/-- A `read` that makes the TCP client leave its loop. -/
def Quits (chunk : List UInt8) : Prop := TcpEcho.quit ++ [0] <+: chunk ++ [0]

theorem quit_noNul : 0 ∉ TcpEcho.quit := by decide

theorem quits_iff (m : Mem) (chunk : List UInt8) :
    streq (terminated m chunk) 0 TcpEcho.quit ↔ Quits chunk := by
  have hw : terminated m chunk = write m 0 (chunk ++ [0]) := by
    rw [write_append, Nat.zero_add, terminated]
  have hread := read_write m 0 (chunk ++ [0])
  rw [hw, streq_iff, Quits]
  refine ⟨fun h => ?_, fun h => ?_⟩
  · have hlen : TcpEcho.quit.length + 1 ≤ (chunk ++ [0]).length := by
      by_contra hshort
      rw [List.length_append, List.length_singleton] at hshort
      have hlt : chunk.length < TcpEcho.quit.length := by omega
      have hnul := (read_eq_iff _ 0 (chunk ++ [0])).mp hread chunk.length (by simp)
      have hquit := (read_eq_iff (write m 0 (chunk ++ [0])) 0 (TcpEcho.quit ++ [0])).mp h
        chunk.length (by rw [List.length_append]; omega)
      rw [hnul, List.getElem_concat_length rfl, List.getElem_append_left hlt] at hquit
      exact quit_noNul (hquit ▸ List.getElem_mem hlt)
    rw [← read_take _ 0 hlen, hread] at h
    exact h ▸ List.take_prefix _ _
  · rw [← hread] at h
    exact read_prefix h

theorem not_quits_nil : ¬ Quits [] := by
  intro h
  exact absurd h.length_le (by decide)

/-- A peer that answers in full is not taken for one that has failed. -/
theorem receiveLoop_not_failed (fuel : Nat) (pieces : List (List UInt8)) (s : Receiver) :
    receiveLoop fuel (replies pieces .closes) s ≠ some .failed := by
  induction fuel generalizing pieces s with
  | zero => exact (Option.some_ne_none _).symm
  | succ fuel ih =>
    by_cases hleft : s.nLeft = 0
    · rw [receiveLoop, if_neg (not_not.mpr hleft)]
      intro h
      cases h
    · rw [receiveLoop, if_pos hleft]
      cases pieces with
      | nil => exact ih [] (s.store [])
      | cons bs pieces => exact ih pieces (s.store bs)

theorem receiveLoop_received {fuel : Nat} {pieces : List (List UInt8)} {s : Receiver}
    (h : pieces.flatten.length = s.nLeft) (hfuel : pieces.length < fuel) :
    ∃ rcvBuffer, receiveLoop fuel (replies pieces .closes) s = some (.received rcvBuffer) := by
  induction pieces generalizing fuel s with
  | nil =>
    obtain ⟨fuel, rfl⟩ := Nat.exists_eq_add_one_of_ne_zero (Nat.ne_zero_of_lt hfuel)
    exact ⟨_, if_neg (not_not.mpr h.symm)⟩
  | cons bs pieces ih =>
    obtain ⟨fuel, rfl⟩ := Nat.exists_eq_add_one_of_ne_zero (Nat.ne_zero_of_lt hfuel)
    by_cases hleft : s.nLeft = 0
    · exact ⟨_, if_neg (not_not.mpr hleft)⟩
    · rw [List.flatten_cons, List.length_append] at h
      have hrest : pieces.flatten.length = (s.store bs).nLeft := by
        simp only [Receiver.store]
        omega
      obtain ⟨rcvBuffer, hr⟩ := ih hrest (Nat.lt_of_succ_lt_succ hfuel)
      refine ⟨rcvBuffer, ?_⟩
      rw [receiveLoop, if_pos hleft, replies_cons, Stream'.head_cons, Stream'.tail_cons]
      exact hr

section Tcp

variable {BUFSIZ : Nat} {peer : Peer}

variable {fuel round : Nat} {content : List (List UInt8)} {chunk : List UInt8}
  {sndBuffer rcvBuffer : Mem}

/-- The client returns only behind a `quit`. -/
theorem tcpClient_quits {r : Int}
    (h : tcpClient BUFSIZ peer.answer fuel round (stdin content) sndBuffer rcvBuffer = some r) :
    ∃ chunk ∈ content, Quits chunk := by
  induction fuel generalizing round content sndBuffer rcvBuffer with
  | zero => cases h
  | succ fuel ih =>
    cases content with
    | nil => exact ih h
    | cons chunk content =>
      rw [stdin_cons, tcpClient, Stream'.head_cons, Stream'.tail_cons] at h
      by_cases hempty : chunk = []
      · rw [if_pos hempty] at h
        obtain ⟨x, hx, hq⟩ := ih h
        exact ⟨x, List.mem_cons_of_mem _ hx, hq⟩
      · rw [if_neg hempty] at h
        dsimp only [Peer.answer] at h
        split at h
        · rename_i hq
          exact ⟨chunk, List.mem_cons_self, (quits_iff _ _).mp hq⟩
        · split at h
          · cases h
          · rename_i hfailed
            exact absurd hfailed (receiveLoop_not_failed _ _ _)
          · obtain ⟨x, hx, hq⟩ := ih h
            exact ⟨x, List.mem_cons_of_mem _ hx, hq⟩

theorem tcpClient_retry :
    tcpClient BUFSIZ peer.answer (fuel + 1) round (stdin ([] :: content)) sndBuffer rcvBuffer =
      tcpClient BUFSIZ peer.answer fuel round (stdin content) sndBuffer rcvBuffer := rfl

theorem tcpClient_quit (hempty : chunk ≠ []) (hq : Quits chunk) :
    tcpClient BUFSIZ peer.answer (fuel + 1) round (stdin (chunk :: content)) sndBuffer rcvBuffer =
      some 0 := by
  rw [stdin_cons, tcpClient, Stream'.head_cons, if_neg hempty]
  exact if_pos ((quits_iff _ _).mpr hq)

/-- A round of the client ends with the whole echo. -/
theorem tcpClient_request (content : List (List UInt8)) (hempty : chunk ≠ [])
    (hq : ¬ Quits chunk) (sndBuffer rcvBuffer : Mem)
    (hfuel : (peer.pieces round (str (terminated sndBuffer chunk) 0 BUFSIZ)).length ≤ fuel) :
    ∃ rcv, tcpClient BUFSIZ peer.answer (fuel + 1) round (stdin (chunk :: content)) sndBuffer
        rcvBuffer =
      tcpClient BUFSIZ peer.answer fuel (round + 1) (stdin content) (terminated sndBuffer chunk)
        rcv := by
  have hstay : ¬ streq (terminated sndBuffer chunk) 0 TcpEcho.quit = true :=
    fun hs => hq ((quits_iff _ _).mp hs)
  obtain ⟨rcv, hrcv⟩ := receiveLoop_received (s := ⟨_, 0, rcvBuffer⟩) (peer.full round _)
    (Nat.lt_succ_of_le hfuel)
  refine ⟨rcv, ?_⟩
  rw [stdin_cons, tcpClient, Stream'.head_cons, Stream'.tail_cons, if_neg hempty]
  simp only [hstay, Peer.answer, hrcv]
  rfl

/-- Enough fuel for the content up to a `quit`, whatever the receive buffer holds. -/
theorem tcpClient_returns (BUFSIZ : Nat) (peer : Peer) (h : ∃ chunk ∈ content, Quits chunk)
    (round : Nat) (sndBuffer : Mem) : ∃ least, ∀ fuel ≥ least, ∀ rcvBuffer, ∃ r,
      tcpClient BUFSIZ peer.answer fuel round (stdin content) sndBuffer rcvBuffer = some r := by
  induction content generalizing round sndBuffer with
  | nil =>
    obtain ⟨_, hmem, _⟩ := h
    cases hmem
  | cons chunk content ih =>
    have hrest (hnot : ¬ Quits chunk) : ∃ x ∈ content, Quits x := by
      obtain ⟨x, hmem, hx⟩ := h
      obtain rfl | hmem := List.mem_cons.mp hmem
      · exact absurd hx hnot
      · exact ⟨x, hmem, hx⟩
    have hpos {least fuel : Nat} (hfuel : fuel ≥ least + 1) : ∃ f, fuel = f + 1 ∧ least ≤ f :=
      ⟨fuel - 1, by omega, by omega⟩
    by_cases hempty : chunk = []
    · subst hempty
      obtain ⟨least, hleast⟩ := ih (hrest not_quits_nil) round sndBuffer
      refine ⟨least + 1, fun fuel hfuel rcvBuffer => ?_⟩
      obtain ⟨f, rfl, hf⟩ := hpos hfuel
      rw [tcpClient_retry]
      exact hleast f hf rcvBuffer
    · by_cases hq : Quits chunk
      · refine ⟨0 + 1, fun fuel hfuel rcvBuffer => ⟨0, ?_⟩⟩
        obtain ⟨f, rfl, _⟩ := hpos hfuel
        exact tcpClient_quit hempty hq
      · obtain ⟨least, hleast⟩ := ih (hrest hq) (round + 1) (terminated sndBuffer chunk)
        let pieces := peer.pieces round (str (terminated sndBuffer chunk) 0 BUFSIZ)
        refine ⟨max least pieces.length + 1, fun fuel hfuel rcvBuffer => ?_⟩
        obtain ⟨f, rfl, hf⟩ := hpos hfuel
        obtain ⟨rcv, hrcv⟩ := tcpClient_request content hempty hq sndBuffer rcvBuffer
          (max_le_iff.mp hf).2
        rw [hrcv]
        exact hleast f (max_le_iff.mp hf).1 rcv

theorem tcpClient_returns_iff (peer : Peer) (content : List (List UInt8))
    (sndBuffer rcvBuffer : Mem) :
    (∃ fuel r, tcpClient BUFSIZ peer.answer fuel 0 (stdin content) sndBuffer rcvBuffer = some r) ↔
      ∃ chunk ∈ content, Quits chunk := by
  constructor
  · rintro ⟨fuel, r, h⟩
    exact tcpClient_quits h
  · intro h
    obtain ⟨least, hleast⟩ := tcpClient_returns BUFSIZ peer h 0 sndBuffer
    exact ⟨least, hleast least le_rfl rcvBuffer⟩

end Tcp

section Udp

variable (BUFSIZ : Nat)

/-- A round that is answered does not fail. -/
theorem udpRound_answered (answer : List UInt8 → List UInt8) (c : UdpClients.Client)
    (chunk : List UInt8) : ∃ c', udpRound BUFSIZ (fun request => some (answer request)) c chunk =
      some c' := by
  simp only [udpRound, UdpClients.echoClient, Option.bind_some]
  split <;> exact ⟨_, rfl⟩

/-- The client has no way out of its loop but a failure. -/
theorem udpClient_goes_on (answer : Nat → List UInt8 → List UInt8) (fuel round : Nat)
    (content : List (List UInt8)) (c : UdpClients.Client) :
    udpClient BUFSIZ (fun i request => some (answer i request)) fuel round
      ((stdin content).map some) c = none := by
  induction fuel generalizing round content c with
  | zero => rfl
  | succ fuel ih =>
    have hrest : ∃ chunk rest, (stdin content).map some =
        Stream'.cons (some chunk) ((stdin rest).map some) := by
      cases content with
      | nil => exact ⟨[], [], (Stream'.eta _).symm⟩
      | cons chunk content => exact ⟨chunk, content, (Stream'.eta _).symm⟩
    obtain ⟨chunk, rest, hreads⟩ := hrest
    obtain ⟨c', hc'⟩ := udpRound_answered BUFSIZ (answer round) c chunk
    rw [hreads, udpClient, Stream'.head_cons, Stream'.tail_cons]
    simp only [hc']
    exact ih (round + 1) rest c'

end Udp

section Ends

variable {BUFSIZ : Nat} (e : Setting BUFSIZ)

/-- The broadcaster's buffer starts with `quit` behind one of its reads, each of which is stored
over what the buffer held before. -/
def Leaves (sndBuffer : Mem) (content : List (List UInt8)) : Prop :=
  ∃ earlier chunk, earlier ++ [chunk] <+: content ∧ chunk ≠ [] ∧
    strneq (typed e (earlier.foldl (typed e) sndBuffer) chunk) 0 BroadcastUdp.quit

theorem leaves_cons (sndBuffer : Mem) (chunk : List UInt8) (content : List (List UInt8)) :
    Leaves e sndBuffer (chunk :: content) ↔
      (chunk ≠ [] ∧ strneq (typed e sndBuffer chunk) 0 BroadcastUdp.quit) ∨
        Leaves e (typed e sndBuffer chunk) content := by
  constructor
  · rintro ⟨earlier, x, hprefix, hne, hq⟩
    cases earlier with
    | nil =>
      obtain ⟨rfl, _⟩ := List.cons_prefix_cons.mp hprefix
      exact .inl ⟨hne, hq⟩
    | cons y earlier =>
      obtain ⟨rfl, hrest⟩ := List.cons_prefix_cons.mp hprefix
      exact .inr ⟨earlier, x, hrest, hne, hq⟩
  · rintro (⟨hne, hq⟩ | ⟨earlier, x, hprefix, hne, hq⟩)
    · exact ⟨[], chunk, List.cons_prefix_cons.mpr ⟨rfl, List.nil_prefix⟩, hne, hq⟩
    · exact ⟨chunk :: earlier, x, List.cons_prefix_cons.mpr ⟨rfl, hprefix⟩, hne, hq⟩

/-- One iteration of the broadcaster whose datagrams are sent. -/
theorem broadcaster_cons (fuel round : Nat) (chunk : List UInt8) (content : List (List UInt8))
    (sndBuffer : Mem) :
    broadcaster e (fun _ => true) (fuel + 1) round (stdin (chunk :: content)) sndBuffer =
      if chunk ≠ [] ∧ strneq (typed e sndBuffer chunk) 0 BroadcastUdp.quit then some 0
      else broadcaster e (fun _ => true) fuel (if chunk = [] then round else round + 1)
        (stdin content) (typed e sndBuffer chunk) := by
  rw [stdin_cons, broadcaster, Stream'.head_cons, Stream'.tail_cons]
  by_cases hempty : chunk = []
  · simp only [hempty, ne_eq, not_true_eq_false, false_and, ↓reduceIte]
  · simp only [hempty, send, ne_eq, not_false_eq_true, true_and, Bool.true_eq_false, ↓reduceIte]
    congr

theorem broadcaster_leaves {fuel round : Nat} {content : List (List UInt8)} {sndBuffer : Mem}
    {r : Int} (h : broadcaster e (fun _ => true) fuel round (stdin content) sndBuffer = some r) :
    Leaves e sndBuffer content := by
  induction fuel generalizing round content sndBuffer with
  | zero => cases h
  | succ fuel ih =>
    cases content with
    | nil => exact ih h
    | cons chunk content =>
      rw [broadcaster_cons] at h
      rw [leaves_cons]
      split at h
      · rename_i hq
        exact .inl hq
      · exact .inr (ih h)

theorem broadcaster_returns {content : List (List UInt8)} {sndBuffer : Mem}
    (h : Leaves e sndBuffer content) (round : Nat) :
    ∃ fuel r, broadcaster e (fun _ => true) fuel round (stdin content) sndBuffer = some r := by
  induction content generalizing sndBuffer round with
  | nil =>
    obtain ⟨earlier, chunk, hprefix, _⟩ := h
    exact absurd hprefix.length_le (by simp)
  | cons chunk content ih =>
    by_cases hq : chunk ≠ [] ∧ strneq (typed e sndBuffer chunk) 0 BroadcastUdp.quit
    · exact ⟨1, 0, by rw [broadcaster_cons, if_pos hq]⟩
    · have hrest := ((leaves_cons e sndBuffer chunk content).mp h).resolve_left hq
      obtain ⟨fuel, r, hr⟩ := ih hrest (if chunk = [] then round else round + 1)
      exact ⟨fuel + 1, r, by rw [broadcaster_cons, if_neg hq, hr]⟩

/-- At the end of the input all three loops go on. The TCP client has left before where it has
read a `quit`, and the broadcaster where its buffer has started with one. -/
theorem loops_end_iff (peer : Peer) (answer : Nat → List UInt8 → List UInt8)
    (content : List (List UInt8)) (sndBuffer rcvBuffer : Mem) (c : UdpClients.Client) :
    ((∃ fuel r, tcpClient BUFSIZ peer.answer fuel 0 (stdin content) sndBuffer rcvBuffer = some r) ↔
        ∃ chunk ∈ content, Quits chunk) ∧
      (¬ ∃ fuel r, udpClient BUFSIZ (fun i request => some (answer i request)) fuel 0
        ((stdin content).map some) c = some r) ∧
      ((∃ fuel r, broadcaster e (fun _ => true) fuel 0 (stdin content) sndBuffer = some r) ↔
        Leaves e sndBuffer content) := by
  refine ⟨tcpClient_returns_iff peer content sndBuffer rcvBuffer, ?_, ?_⟩
  · rintro ⟨fuel, r, h⟩
    rw [udpClient_goes_on] at h
    cases h
  · constructor
    · rintro ⟨fuel, r, h⟩
      exact broadcaster_leaves e h
    · intro h
      exact broadcaster_returns e h 0

end Ends

/-- A peer that sends each request back at once. -/
def echo : Peer := ⟨fun _ request => [request], fun _ _ => by simp⟩

/-- An input without a single byte. -/
theorem empty_input_spins : ¬ ∀ (peer : Peer) (content : List (List UInt8)) (snd rcv : Mem),
    ∃ fuel r, tcpClient 8192 peer.answer fuel 0 (stdin content) snd rcv = some r := by
  intro h
  obtain ⟨_, hmem, _⟩ := (tcpClient_returns_iff echo [] _ _).mp
    (h echo [] (fun _ => 0) fun _ => 0)
  cases hmem

end LinuxExamples.InputEnd
