import LinuxExamples.Bytes

namespace LinuxExamples.PartialTransfer

open Bytes

/-- A finished send loop: its return value, the bytes the kernel took, and the
offset and length each call of `send` was given. -/
structure Sent where
  ret : Int
  bytes : List UInt8
  calls : List (Nat × Nat)

/-- The loop of `partial_message_send` from a value of `written`, on what each
call of `send` returns (`none` is -1). Without a value it is still waiting. -/
def partialMessageSend (buf : Mem) (size : Nat) : Nat → List (Option Nat) → Option Sent
  | written, rets =>
    if written < size then
      match rets with
      | [] => none
      | none :: _ => some ⟨-1, [], [(written, size - written)]⟩
      | some n :: rets =>
        (partialMessageSend buf size (written + n) rets).map fun s =>
          ⟨s.ret, read buf written n ++ s.bytes, (written, size - written) :: s.calls⟩
    else some ⟨0, [], []⟩

/-- What a socket may return to the send loop: a failure at any call, otherwise
between one byte and all that the call asked for. -/
inductive SendReturns (size : Nat) : Nat → List (Option Nat) → Prop
  | waiting (written) : SendReturns size written []
  | fail (written rets) : SendReturns size written (none :: rets)
  | unused (rets) : SendReturns size size rets
  | piece {written n rets} : 0 < n → written + n ≤ size → SendReturns size (written + n) rets →
      SendReturns size written (some n :: rets)

theorem partialMessageSend_bytes {buf : Mem} {size written : Nat} {rets : List (Option Nat)}
    {s : Sent} (hr : SendReturns size written rets)
    (h : partialMessageSend buf size written rets = some s) (h0 : s.ret ≠ -1) :
    s.bytes = read buf written (size - written) := by
  induction hr generalizing s with
  | waiting written =>
    by_cases hw : written < size
    · simp [partialMessageSend, hw] at h
    · simp only [partialMessageSend, hw, ↓reduceIte, Option.some.injEq] at h
      have hz : size - written = 0 := by omega
      rw [← h, hz, read_zero]
  | fail written rets =>
    by_cases hw : written < size
    · simp only [partialMessageSend, hw, ↓reduceIte, Option.some.injEq] at h
      simp [← h] at h0
    · simp only [partialMessageSend, hw, ↓reduceIte, Option.some.injEq] at h
      have hz : size - written = 0 := by omega
      rw [← h, hz, read_zero]
  | unused rets =>
    unfold partialMessageSend at h
    simp only [Nat.lt_irrefl, ↓reduceIte, Option.some.injEq] at h
    rw [← h, Nat.sub_self, read_zero]
  | @piece written n rets hn hle _ ih =>
    have hw : written < size := by omega
    simp only [partialMessageSend, hw, ↓reduceIte, Option.map_eq_some_iff] at h
    obtain ⟨r, hrec, rfl⟩ := h
    have hsplit : size - written = n + (size - (written + n)) := by omega
    rw [ih hrec h0, hsplit, read_add]

/-- The bytes that a call is given lie inside a buffer of `size` bytes. -/
def Inside (size : Nat) (c : Nat × Nat) : Prop := c.1 + c.2 ≤ size

/-- Without failures the send loop returns 0, after one call for each byte at the latest. -/
theorem partialMessageSend_returns (buf : Mem) {size written : Nat} {rets : List Nat}
    (hr : SendReturns size written (rets.map some)) (hw : written ≤ size)
    (hlen : size - written ≤ rets.length) :
    ∃ s, partialMessageSend buf size written (rets.map some) = some s ∧ s.ret = 0 ∧
      ∀ c ∈ s.calls, Inside size c := by
  induction rets generalizing written with
  | nil =>
    have hend : ¬ written < size := by
      rw [List.length_nil] at hlen
      omega
    exact ⟨⟨0, [], []⟩, by simp [partialMessageSend, hend], rfl, nofun⟩
  | cons n rets ih =>
    by_cases hend : written < size
    · rw [List.map_cons] at hr
      cases hr with
      | unused => exact absurd hend (Nat.lt_irrefl _)
      | piece hn hle hr =>
        rw [List.length_cons] at hlen
        obtain ⟨s, hs, h0, hcalls⟩ := ih hr hle (by omega)
        refine ⟨⟨s.ret, read buf written n ++ s.bytes, (written, size - written) :: s.calls⟩,
          by simp [partialMessageSend, hend, hs], h0, ?_⟩
        exact List.forall_mem_cons.mpr ⟨(Nat.add_sub_of_le hw).le, hcalls⟩
    · exact ⟨⟨0, [], []⟩, by simp [partialMessageSend, hend], rfl, nofun⟩

structure Received where
  ret : Int
  buf : Mem
  calls : List (Nat × Nat)

/-- The loop of `partial_message_recv`, on what each call of `recv` returns:
`none` is -1 and the empty list is 0. -/
def partialMessageRecv (size : Nat) : Nat → Mem → List (Option (List UInt8)) → Option Received
  | _, _, [] => none
  | written, buf, none :: _ => some ⟨-1, buf, [(written, size - written)]⟩
  | written, buf, some bs :: rets =>
    let buf := write buf written bs
    if bs.length = 0 then some ⟨0, buf, [(written, size - written)]⟩
    else
      (partialMessageRecv size (written + bs.length) buf rets).map fun r =>
        { r with calls := (written, size - written) :: r.calls }

/-- What a stream socket may return to the receive loop when the peer sends
`stream` and closes: pieces no larger than asked for, 0 at the end of the
stream or to a call that asks for nothing, and a failure at any call. -/
inductive RecvReturns (size : Nat) : Nat → List UInt8 → List (Option (List UInt8)) → Prop
  | waiting (written stream) : RecvReturns size written stream []
  | fail (written stream rets) : RecvReturns size written stream (none :: rets)
  | full (stream rets) : RecvReturns size size stream (some [] :: rets)
  | eof (written rets) : RecvReturns size written [] (some [] :: rets)
  | piece {written bs stream rets} : bs ≠ [] → written + bs.length ≤ size →
      RecvReturns size (written + bs.length) stream rets →
      RecvReturns size written (bs ++ stream) (some bs :: rets)

/-- However the stream is split, the loop stores the part of it that fits. -/
theorem partialMessageRecv_buf {size written : Nat} {buf : Mem} {stream : List UInt8}
    {rets : List (Option (List UInt8))} {r : Received} (hr : RecvReturns size written stream rets)
    (h : partialMessageRecv size written buf rets = some r) (h0 : r.ret ≠ -1) :
    r.buf = write buf written (stream.take (size - written)) := by
  induction hr generalizing buf r with
  | waiting written stream => simp [partialMessageRecv] at h
  | fail written stream rets =>
    simp only [partialMessageRecv, Option.some.injEq] at h
    simp [← h] at h0
  | full stream rets =>
    simp only [partialMessageRecv, List.length_nil, ↓reduceIte, Option.some.injEq] at h
    rw [← h, Nat.sub_self, List.take_zero]
  | eof written rets =>
    simp only [partialMessageRecv, List.length_nil, ↓reduceIte, Option.some.injEq] at h
    rw [← h, List.take_nil]
  | @piece written bs stream rets hne hle _ ih =>
    have hlen : bs.length ≠ 0 := fun hz => hne (List.length_eq_zero_iff.mp hz)
    simp only [partialMessageRecv, hlen, ↓reduceIte, Option.map_eq_some_iff] at h
    obtain ⟨r', hrec, rfl⟩ := h
    have ht : (bs ++ stream).take (size - written) =
        bs ++ stream.take (size - (written + bs.length)) := by
      rw [List.take_append, List.take_of_length_le (by omega), Nat.sub_sub]
    rw [ht, write_append, ih hrec h0]

/-- Without failures the receive loop returns 0 at the end of the stream at the latest. -/
theorem partialMessageRecv_returns {size written : Nat} {stream : List UInt8} (buf : Mem)
    {rets : List (List UInt8)} (hr : RecvReturns size written stream (rets.map some))
    (hw : written ≤ size) (hlen : stream.length < rets.length) :
    ∃ r, partialMessageRecv size written buf (rets.map some) = some r ∧ r.ret = 0 ∧
      ∀ c ∈ r.calls, Inside size c := by
  have hcall : Inside size (written, size - written) := (Nat.add_sub_of_le hw).le
  induction rets generalizing written stream buf with
  | nil => exact absurd hlen (Nat.not_lt_zero _)
  | cons bs rets ih =>
    rw [List.map_cons] at hr
    cases hr with
    | full | eof =>
      exact ⟨_, rfl, rfl, List.forall_mem_singleton.mpr hcall⟩
    | piece hne hle hr =>
      have hpos : bs.length ≠ 0 := fun hz => hne (List.length_eq_zero_iff.mp hz)
      rw [List.length_append, List.length_cons] at hlen
      obtain ⟨r, hrec, h0, hcalls⟩ := ih (write buf written bs) hr hle (by omega)
        (Nat.add_sub_of_le hle).le
      refine ⟨{ r with calls := (written, size - written) :: r.calls },
        by simp [partialMessageRecv, hpos, hrec], h0, ?_⟩
      exact List.forall_mem_cons.mpr ⟨hcall, hcalls⟩

end LinuxExamples.PartialTransfer
