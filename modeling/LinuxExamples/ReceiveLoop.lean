import LinuxExamples.TcpEcho

namespace LinuxExamples.ReceiveLoop

open Bytes TcpEcho

/-- The variables of the loop that reads back an echo. -/
structure Receiver where
  nLeft : Nat
  nRecv : Nat
  rcvBuffer : Mem

def Receiver.store (s : Receiver) (bs : List UInt8) : Receiver :=
  ⟨s.nLeft - bs.length, s.nRecv + bs.length, write s.rcvBuffer s.nRecv bs⟩

/-- How the loop ends: the client gives up with `fin write 2`, or it has an echo to print. -/
inductive Result where
  | failed
  | received (rcvBuffer : Mem)

/-- The loop on the results of `read`, where `none` is -1 and the empty list is 0. Without
a value it has not ended within `fuel` tests of its condition. -/
def receiveLoop : Nat → Stream' (Option (List UInt8)) → Receiver → Option Result
  | 0, _, _ => none
  | fuel + 1, reads, s =>
    if s.nLeft ≠ 0 then
      match reads.head with
      | none => some .failed
      | some bs => receiveLoop fuel reads.tail (s.store bs)
    else some (.received (write s.rcvBuffer s.nRecv [0]))

/-- A `read` in the step of `echoClient` stores as one in the loop does. -/
theorem echoClient_store {BUFSIZ k : Nat} {s t : Connection} (hc : s.client = .receive)
    (hleft : s.nLeft ≠ 0) (ht : echoClient BUFSIZ k s = some t) :
    (⟨t.nLeft, t.nRecv, t.rcvBuffer⟩ : Receiver) =
      Receiver.store ⟨s.nLeft, s.nRecv, s.rcvBuffer⟩ (s.s2c.take k) := by
  simp only [echoClient, hc, if_neg hleft] at ht
  split at ht
  · rename_i hk
    cases ht
    have hlen : (s.s2c.take k).length = k := List.length_take_of_le hk.2.2
    simp only [Receiver.store, hlen]
  · cases ht

/-- After its chunks a server has closed the connection, or `read` fails. -/
inductive Ending where
  | closes | fails
  deriving DecidableEq

def Ending.read : Ending → Option (List UInt8)
  | .closes => some []
  | .fails => none

/-- A server that echoes up to `n` bytes in chunks of any size. -/
structure Server (n : Nat) where
  chunks : List (List UInt8)
  nonempty : ∀ c ∈ chunks, c ≠ []
  total : chunks.flatten.length ≤ n
  ending : Ending

/-- The results of `read`, of which the last one comes again for ever. -/
def replies (chunks : List (List UInt8)) (ending : Ending) : Stream' (Option (List UInt8)) :=
  chunks.map some ++ₛ Stream'.const ending.read

theorem replies_cons (c : List UInt8) (chunks : List (List UInt8)) (ending : Ending) :
    replies (c :: chunks) ending = Stream'.cons (some c) (replies chunks ending) := rfl

/-- A server that has closed too early keeps the loop going: `n_left` stays positive. -/
theorem receiveLoop_diverges (fuel : Nat) {chunks : List (List UInt8)} {s : Receiver}
    (h : chunks.flatten.length < s.nLeft) :
    receiveLoop fuel (replies chunks .closes) s = none := by
  induction fuel generalizing chunks s with
  | zero => rfl
  | succ fuel ih =>
    rw [receiveLoop, if_pos (Nat.ne_zero_of_lt h)]
    cases chunks with
    | nil =>
      have hs : ([] : List (List UInt8)).flatten.length < (s.store []).nLeft := h
      exact ih hs
    | cons c chunks =>
      rw [replies_cons, Stream'.head_cons, Stream'.tail_cons]
      refine ih ?_
      rw [List.flatten_cons, List.length_append] at h
      simp only [Receiver.store]
      omega

/-- Each read takes one chunk; behind the last of them nothing is left, or `read` fails. -/
theorem receiveLoop_ends {chunks : List (List UInt8)} {ending : Ending} {s : Receiver}
    (h : chunks.flatten.length = s.nLeft ∨ ending = .fails) :
    ∃ r, receiveLoop (chunks.length + 1) (replies chunks ending) s = some r := by
  induction chunks generalizing s with
  | nil =>
    by_cases hleft : s.nLeft = 0
    · exact ⟨_, if_neg (not_not.mpr hleft)⟩
    · obtain h | rfl := h
      · exact absurd h.symm hleft
      · exact ⟨.failed, if_pos hleft⟩
  | cons c chunks ih =>
    by_cases hleft : s.nLeft = 0
    · exact ⟨_, if_neg (not_not.mpr hleft)⟩
    · have hrest : chunks.flatten.length = (s.store c).nLeft ∨ ending = .fails := by
        refine h.imp_left fun h => ?_
        rw [List.flatten_cons, List.length_append] at h
        simp only [Receiver.store]
        omega
      obtain ⟨r, hr⟩ := ih hrest
      refine ⟨r, ?_⟩
      rw [List.length_cons, receiveLoop, if_pos hleft, replies_cons, Stream'.head_cons,
        Stream'.tail_cons]
      exact hr

/-- The loop ends exactly when the whole echo arrives or `read` fails. -/
theorem receiveLoop_ends_iff {n : Nat} (server : Server n) (rcvBuffer : Mem) :
    (∃ fuel r, receiveLoop fuel (replies server.chunks server.ending) ⟨n, 0, rcvBuffer⟩ = some r) ↔
      server.chunks.flatten.length = n ∨ server.ending = .fails := by
  constructor
  · rintro ⟨fuel, r, hr⟩
    by_contra h
    push Not at h
    obtain ⟨hne, hending⟩ := h
    have hcloses : server.ending = .closes := by
      cases he : server.ending with
      | closes => rfl
      | fails => exact absurd he hending
    have hlt := server.total.lt_of_ne hne
    rw [hcloses, receiveLoop_diverges fuel hlt] at hr
    cases hr
  · intro h
    exact ⟨_, receiveLoop_ends h⟩

theorem closed_server_hangs : ¬ ∀ (n : Nat) (server : Server n) (rcvBuffer : Mem),
    ∃ fuel r,
      receiveLoop fuel (replies server.chunks server.ending) ⟨n, 0, rcvBuffer⟩ = some r := by
  intro h
  obtain ⟨fuel, r, hr⟩ := h 1 ⟨[], nofun, Nat.zero_le 1, .closes⟩ fun _ => 0
  have hlt : ([] : List (List UInt8)).flatten.length < (⟨1, 0, fun _ => 0⟩ : Receiver).nLeft :=
    Nat.zero_lt_one
  exact Option.some_ne_none r (hr.symm.trans (receiveLoop_diverges fuel hlt))

end LinuxExamples.ReceiveLoop
