import LinuxExamples.SenderBounds
import LinuxExamples.UnixSocket

namespace LinuxExamples.SentBytes

open Bytes
open PartialTransfer (partialMessageSend Sent)
open SenderBounds (Message)
open UnixSocket (ClientKernel SockType)

/-- The bytes that each call of `send` in `partial_message_send` is given, from a value of
`written`; the kernel may take fewer of them. -/
def handed (buf : Mem) (size : Nat) : Nat → List (Option Nat) → List (List UInt8)
  | written, rets =>
    if written < size then
      read buf written (size - written) ::
        match rets with
        | [] | none :: _ => []
        | some n :: rets => handed buf size (written + n) rets
    else []

theorem handed_calls {buf : Mem} {size written : Nat} {rets : List (Option Nat)} {s : Sent}
    (h : partialMessageSend buf size written rets = some s) :
    handed buf size written rets = s.calls.map fun c => read buf c.1 c.2 := by
  induction rets generalizing written s with
  | nil =>
    by_cases hw : written < size <;> simp only [partialMessageSend, handed, hw, ↓reduceIte] at h ⊢
    · cases h
    · cases h
      rfl
  | cons ret rets ih =>
    cases ret with
    | none =>
      by_cases hw : written < size <;>
        simp only [partialMessageSend, handed, hw, ↓reduceIte] at h ⊢ <;> cases h <;> rfl
    | some n =>
      by_cases hw : written < size <;> simp only [partialMessageSend, handed, hw, ↓reduceIte] at h ⊢
      · obtain ⟨s', hs', rfl⟩ := Option.map_eq_some_iff.mp h
        rw [List.map_cons, ← ih hs']
      · cases h
        rfl

/-- What `do_send_data` gives to `send` or `sendto`. -/
def doSendData (type : SockType) (message : Mem) (k : ClientKernel) : List (List UInt8) :=
  if k.socket = false then []
  else
    match type with
    | .sockStream => if k.connect = false then [] else handed message sizeofPointer 0 k.sends
    | .sockDgram => [read message 0 sizeofPointer]
    | .other => []

/-- What the `ls` client gives to `write` for a typed word, from what its buffer held before. -/
def lsClient (BUFSIZ : Nat) (connect : Bool) (buffer : Mem) (word : List UInt8) :
    List (List UInt8) :=
  if connect then [read (strcpy buffer word) 0 BUFSIZ] else []

/-- Bytes from the start of a string are determined by it up to its terminator. -/
theorem read_determined_iff (s : Message) (n : Nat) :
    (∀ m m', Holds m s.bytes → Holds m' s.bytes → read m 0 n = read m' 0 n) ↔
      n ≤ s.bytes.length + 1 := by
  refine ⟨fun h => ?_, fun hn m m' hm hm' => ?_⟩
  · by_contra hlong
    have hlast (c : UInt8) : strcpy (fun _ => c) s.bytes (0 + (s.bytes.length + 1)) = c := by
      rw [strcpy, write_apply_after]
      simp
    have heq := read_eq_congr (h (strcpy (fun _ => 0) s.bytes) (strcpy (fun _ => 1) s.bytes)
      (strcpy_holds _ s.noNul) (strcpy_holds _ s.noNul)) (Nat.lt_of_not_le hlong)
    rw [hlast, hlast] at heq
    exact absurd heq (by decide)
  · apply read_congr
    intro i _ hi
    by_cases hlen : i < s.bytes.length
    · simpa using read_eq_congr (hm.bytes.trans hm'.bytes.symm) hlen
    · have hend : i = s.bytes.length := by omega
      rw [hend, hm.nul, hm'.nul]

theorem handed_congr {m m' : Mem} {size : Nat} (h : ∀ i < size, m i = m' i) (written : Nat)
    (rets : List (Option Nat)) : handed m size written rets = handed m' size written rets := by
  have hcall (written : Nat) : written < size →
      read m written (size - written) = read m' written (size - written) := by
    intro hw
    apply read_congr
    intro i _ hi
    exact h i (by omega)
  induction rets generalizing written with
  | nil =>
    by_cases hw : written < size <;> simp only [handed, hw, ↓reduceIte]
    rw [hcall written hw]
  | cons ret rets ih =>
    cases ret with
    | none =>
      by_cases hw : written < size <;> simp only [handed, hw, ↓reduceIte]
      rw [hcall written hw]
    | some n =>
      by_cases hw : written < size <;> simp only [handed, hw, ↓reduceIte]
      rw [hcall written hw, ih (written + n)]

theorem doSendData_congr {m m' : Mem} (h : read m 0 sizeofPointer = read m' 0 sizeofPointer)
    (type : SockType) (k : ClientKernel) : doSendData type m k = doSendData type m' k := by
  have hbyte : ∀ i < sizeofPointer, m i = m' i := fun i hi => by simpa using read_eq_congr h hi
  cases type with
  | sockStream => simp only [doSendData, handed_congr hbyte]
  | sockDgram => simp only [doSendData, h]
  | other => rfl

/-- A client whose first call is answered has given all eight bytes to it. -/
theorem doSendData_first (message : Mem) {type : SockType} (htype : type ≠ .other) :
    doSendData type message ⟨true, true, [], true⟩ = [read message 0 sizeofPointer] := by
  cases type with
  | sockStream | sockDgram => rfl
  | other => exact absurd rfl htype

theorem doSendData_determined_iff (s : Message) {type : SockType} (htype : type ≠ .other) :
    (∀ k m m', Holds m s.bytes → Holds m' s.bytes → doSendData type m k = doSendData type m' k) ↔
      sizeofPointer ≤ s.bytes.length + 1 := by
  rw [← read_determined_iff]
  refine ⟨fun h m m' hm hm' => ?_, fun h k m m' hm hm' => ?_⟩
  · have hk := h ⟨true, true, [], true⟩ m m' hm hm'
    rw [doSendData_first m htype, doSendData_first m' htype] at hk
    exact (List.cons.inj hk).1
  · exact doSendData_congr (h m m' hm hm') type k

theorem lsClient_determined_iff (BUFSIZ : Nat) (s : Message) :
    (∀ connect buffer buffer',
        lsClient BUFSIZ connect buffer s.bytes = lsClient BUFSIZ connect buffer' s.bytes) ↔
      BUFSIZ ≤ s.bytes.length + 1 := by
  rw [← read_determined_iff]
  refine ⟨fun h m m' hm hm' => ?_, fun h connect buffer buffer' => ?_⟩
  · have hb := (List.cons.inj (h true m m')).1
    rwa [strcpy_of_holds hm, strcpy_of_holds hm'] at hb
  · cases connect with
    | false => rfl
    | true =>
      simp only [lsClient, ↓reduceIte]
      rw [h _ _ (strcpy_holds buffer s.noNul) (strcpy_holds buffer' s.noNul)]

/-- What leaves a client is determined by its string exactly where the bytes it sends, eight or
the whole buffer, end at the terminator at the latest. -/
theorem sent_determined_iff (BUFSIZ : Nat) (s : Message) :
    (∀ type ≠ SockType.other,
      (∀ k m m', Holds m s.bytes → Holds m' s.bytes → doSendData type m k = doSendData type m' k) ↔
        sizeofPointer ≤ s.bytes.length + 1) ∧
      ((∀ connect buffer buffer',
          lsClient BUFSIZ connect buffer s.bytes = lsClient BUFSIZ connect buffer' s.bytes) ↔
        BUFSIZ ≤ s.bytes.length + 1) :=
  ⟨fun _ htype => doSendData_determined_iff s htype, lsClient_determined_iff BUFSIZ s⟩

/-- Five bytes behind the terminator of `hi` leave with the datagram. -/
theorem bytes_behind_sent : ¬ ∀ (type : SockType) (s : Message) (k : ClientKernel) (m m' : Mem),
    Holds m s.bytes → Holds m' s.bytes → doSendData type m k = doSendData type m' k := by
  intro h
  have hsent := h .sockDgram ⟨ascii ['h', 'i'], by decide⟩ ⟨true, false, [], true⟩
    (strcpy (fun _ => 35) (ascii ['h', 'i'])) (strcpy (fun _ => 36) (ascii ['h', 'i']))
    (strcpy_holds _ (by decide)) (strcpy_holds _ (by decide))
  exact absurd hsent (by decide)

end LinuxExamples.SentBytes
