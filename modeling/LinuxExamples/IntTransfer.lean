import LinuxExamples.Limits
import LinuxExamples.PartialTransfer

namespace LinuxExamples.IntTransfer

open Bytes Limits

/-- The conversion of an `int` to `size_t`. -/
def toSize (x : Int) : Nat := (x % 2 ^ 64).toNat

/-- The conversion of a `ssize_t` to `int`. -/
def toInt (x : Int) : Int := x.bmod (2 ^ 32)

/-- The sum of two values of type `int`, unless it overflows. -/
def addInt (x y : Int) : Option Int :=
  let sum := x + y
  if -2 ^ 31 ≤ sum ∧ sum < 2 ^ 31 then some sum else none

/-- What a call of `send` returns, with the bytes of it that were transferred. -/
def ssize : Option Nat → Int
  | none => -1
  | some n => n

structure Sent where
  ret : Int
  bytes : List UInt8
  calls : List (Int × Nat)

/-- The loop of `partial_message_send` with the types of its variables. It has no value
while it is waiting, nor when `written` overflows. -/
def partialMessageSend (buf : Mem) (size : Nat) : Int → List (Option Nat) → Option Sent
  | written, rets =>
    if toSize written < size then
      match rets with
      | [] => none
      | n :: rets =>
        let call := (written, toSize (size - written))
        let ret := toInt (ssize n)
        let bytes := read buf written.toNat (n.getD 0)
        if ret = -1 then some ⟨ret, bytes, [call]⟩
        else
          (addInt written ret).bind fun written =>
            (partialMessageSend buf size written rets).map fun s =>
              ⟨s.ret, bytes ++ s.bytes, call :: s.calls⟩
    else some ⟨0, [], []⟩

structure Received where
  ret : Int
  buf : Mem
  calls : List (Int × Nat)

/-- The loop of `partial_message_recv` with the types of its variables. -/
def partialMessageRecv (size : Nat) :
    Int → Mem → List (Option (List UInt8)) → Option Received
  | _, _, [] => none
  | written, buf, bs :: rets =>
    let call := (written, toSize (size - written))
    let ret := toInt (ssize (bs.map fun bs => bs.length))
    let buf := write buf written.toNat (bs.getD [])
    if ret = -1 then some ⟨ret, buf, [call]⟩
    else
      (addInt written ret).bind fun written =>
        if ret = 0 then some ⟨0, buf, [call]⟩
        else
          (partialMessageRecv size written buf rets).map fun r =>
            { r with calls := call :: r.calls }

def ofNat (c : Nat × Nat) : Int × Nat := (c.1, c.2)

def Sent.ofNat (s : PartialTransfer.Sent) : Sent :=
  ⟨s.ret, s.bytes, s.calls.map IntTransfer.ofNat⟩

def Received.ofNat (r : PartialTransfer.Received) : Received :=
  ⟨r.ret, r.buf, r.calls.map IntTransfer.ofNat⟩

/-- The results of the calls of `send` when none fails. As each call transfers a byte at
least, `size` results are always enough. -/
structure SendResults (size : Nat) where
  rets : List Nat
  returns : PartialTransfer.SendReturns size 0 (rets.map some)
  enough : size ≤ rets.length

/-- The results of the calls of `recv` on a stream when none fails, with the one for the end
of the stream. -/
structure RecvResults (size : Nat) (stream : List UInt8) where
  rets : List (List UInt8)
  returns : PartialTransfer.RecvReturns size 0 stream (rets.map some)
  enough : stream.length < rets.length

def Inside (size : Nat) (c : Int × Nat) : Prop := 0 ≤ c.1 ∧ c.1 + c.2 ≤ size

variable {size written n : Nat}

theorem toSize_natCast (h : n ≤ INT_MAX) : toSize n = n := by
  unfold toSize
  rw [INT_MAX] at h
  omega

theorem toSize_sub (hw : written ≤ size) (h : size ≤ INT_MAX) :
    toSize (size - written) = size - written := by
  have hc : (size : Int) - written = (size - written : Nat) := (Int.ofNat_sub hw).symm
  rw [hc, toSize_natCast ((Nat.sub_le _ _).trans h)]

theorem toInt_natCast (h : n ≤ INT_MAX) : toInt n = n := by
  rw [INT_MAX] at h
  exact Int.bmod_eq_of_le (by omega) (by omega)

theorem addInt_natCast (h : written + n ≤ INT_MAX) :
    addInt written n = some ((written + n : Nat) : Int) := by
  rw [INT_MAX] at h
  have hfits : -2 ^ 31 ≤ (written : Int) + n ∧ (written : Int) + n < 2 ^ 31 := by omega
  rw [addInt, if_pos hfits, Int.natCast_add]

/-- Up to `INT_MAX` bytes the arithmetic of the send loop is that of natural numbers. -/
theorem partialMessageSend_refines (buf : Mem) {rets : List (Option Nat)}
    (hr : PartialTransfer.SendReturns size written rets) (hw : written ≤ size)
    (h : size ≤ INT_MAX) :
    partialMessageSend buf size written rets =
      (PartialTransfer.partialMessageSend buf size written rets).map .ofNat := by
  induction hr with
  | waiting written =>
    unfold partialMessageSend PartialTransfer.partialMessageSend
    rw [toSize_natCast (hw.trans h)]
    split <;> rfl
  | fail written rets =>
    unfold partialMessageSend PartialTransfer.partialMessageSend
    rw [toSize_natCast (hw.trans h), toSize_sub hw h]
    split <;> rfl
  | unused rets =>
    unfold partialMessageSend PartialTransfer.partialMessageSend
    rw [toSize_natCast h]
    simp only [Nat.lt_irrefl, ↓reduceIte]
    rfl
  | @piece written n rets hn hle hr ih =>
    have hlt : written < size := by omega
    have hne : (n : Int) ≠ -1 := by omega
    unfold partialMessageSend PartialTransfer.partialMessageSend
    rw [toSize_natCast (hw.trans h), toSize_sub hw h]
    simp only [hlt, ↓reduceIte, ssize, toInt_natCast (show n ≤ INT_MAX by omega), hne,
      addInt_natCast (hle.trans h), Option.bind_some, ih hle, Option.map_map]
    rfl

theorem partialMessageRecv_zero (buf : Mem) (rets : List (Option (List UInt8)))
    (hw : written ≤ size) (h : size ≤ INT_MAX) :
    partialMessageRecv size written buf (some [] :: rets) =
      (PartialTransfer.partialMessageRecv size written buf (some [] :: rets)).map .ofNat := by
  have hzero : toInt ((0 : Nat) : Int) = 0 := toInt_natCast (Nat.zero_le _)
  have hsum : addInt written 0 = some (written : Int) := addInt_natCast (hw.trans h)
  unfold partialMessageRecv PartialTransfer.partialMessageRecv
  rw [toSize_sub hw h]
  simp only [Option.map_some, Option.getD_some, ssize, List.length_nil, hzero, hsum,
    Option.bind_some, write_nil, ↓reduceIte]
  rfl

theorem partialMessageRecv_refines (buf : Mem) {stream : List UInt8}
    {rets : List (Option (List UInt8))}
    (hr : PartialTransfer.RecvReturns size written stream rets) (hw : written ≤ size)
    (h : size ≤ INT_MAX) :
    partialMessageRecv size written buf rets =
      (PartialTransfer.partialMessageRecv size written buf rets).map .ofNat := by
  induction hr generalizing buf with
  | waiting written stream => rfl
  | fail written stream rets =>
    unfold partialMessageRecv PartialTransfer.partialMessageRecv
    rw [toSize_sub hw h]
    simp only [Option.map_none, Option.getD_none, write_nil]
    rfl
  | full stream rets => exact partialMessageRecv_zero buf rets hw h
  | eof written rets => exact partialMessageRecv_zero buf rets hw h
  | @piece written bs stream rets hne hle hr ih =>
    have hpos : bs.length ≠ 0 := fun hz => hne (List.length_eq_zero_iff.mp hz)
    have hret : (bs.length : Int) ≠ -1 := by omega
    unfold partialMessageRecv PartialTransfer.partialMessageRecv
    rw [toSize_sub hw h]
    simp only [Option.map_some, Option.getD_some, ssize,
      toInt_natCast (show bs.length ≤ INT_MAX by omega), hret, ↓reduceIte,
      addInt_natCast (hle.trans h), Option.bind_some, Int.natCast_eq_zero, hpos, ih _ hle,
      Option.map_map, Int.toNat_natCast]
    rfl

theorem inside_ofNat {calls : List (Nat × Nat)}
    (h : ∀ c ∈ calls, PartialTransfer.Inside size c) :
    ∀ c ∈ calls.map ofNat, Inside size c := by
  intro c hc
  obtain ⟨d, hd, rfl⟩ := List.mem_map.mp hc
  have hd : d.1 + d.2 ≤ size := h d hd
  exact ⟨Int.natCast_nonneg _, Int.ofNat_le.mpr hd⟩

/-- However the transfers are split, both loops end with 0, all bytes are sent in order, and
those that fit the receiver's buffer are stored in it. -/
theorem transfers_inverse (m buf : Mem) (b : List UInt8) (cap : Nat) (sends : SendResults b.length)
    (recvs : RecvResults cap b) (hb : b.length ≤ INT_MAX) (hcap : cap ≤ INT_MAX) :
    (∃ s, partialMessageSend (write m 0 b) b.length 0 (sends.rets.map some) = some s ∧
      s.ret = 0 ∧ s.bytes = b ∧ ∀ c ∈ s.calls, Inside b.length c) ∧
    ∃ r, partialMessageRecv cap 0 buf (recvs.rets.map some) = some r ∧ r.ret = 0 ∧
      read r.buf 0 (min b.length cap) = b.take cap ∧
      (∀ i, min b.length cap ≤ i → r.buf i = buf i) ∧ ∀ c ∈ r.calls, Inside cap c := by
  constructor
  · obtain ⟨s, hs, h0, hcalls⟩ := PartialTransfer.partialMessageSend_returns (write m 0 b)
      sends.returns (Nat.zero_le _) sends.enough
    have hbytes : s.bytes = b := by
      rw [PartialTransfer.partialMessageSend_bytes sends.returns hs (by omega), Nat.sub_zero,
        read_write]
    have href := partialMessageSend_refines (write m 0 b) sends.returns (Nat.zero_le _) hb
    exact ⟨.ofNat s, by rw [hs] at href; exact href, h0, hbytes, inside_ofNat hcalls⟩
  · obtain ⟨r, hr, h0, hcalls⟩ := PartialTransfer.partialMessageRecv_returns buf recvs.returns
      (Nat.zero_le _) recvs.enough
    have hlen : (b.take cap).length = min b.length cap := by
      rw [List.length_take, Nat.min_comm]
    have hbuf : r.buf = write buf 0 (b.take cap) :=
      PartialTransfer.partialMessageRecv_buf recvs.returns hr (by omega)
    have href := partialMessageRecv_refines buf recvs.returns (Nat.zero_le _) hcap
    refine ⟨.ofNat r, by rw [hr] at href; exact href, h0, ?_, ?_, inside_ofNat hcalls⟩
    · change read r.buf 0 _ = _
      rw [← hlen, hbuf, read_write]
    · intro i hi
      change r.buf i = _
      rw [hbuf, write_apply_after _ _ (by omega)]

def twoBytes : List UInt8 := ascii ['h', 'i']

def oneByOne : SendResults twoBytes.length where
  rets := [1, 1]
  returns := .piece Nat.one_pos (Nat.le_succ 1) (.piece Nat.one_pos le_rfl (.unused []))
  enough := le_rfl

def oneByte : RecvResults 1 twoBytes where
  rets := [ascii ['h'], [], []]
  returns := .piece (show ascii ['h'] ≠ [] by decide) (show 0 + (ascii ['h']).length ≤ 1 by decide)
    (.full (ascii ['i']) [some []])
  enough := by decide

theorem twoBytes_transferred : ∃ r, partialMessageRecv 1 0 (fun _ => 0)
    (oneByte.rets.map some) = some r ∧ r.ret = 0 ∧ read r.buf 0 1 = ascii ['h'] := by
  obtain ⟨_, r, hr, h0, hbuf, _⟩ := transfers_inverse (fun _ => 0) (fun _ => 0) twoBytes 1
    oneByOne oneByte (by decide) (by decide)
  exact ⟨r, hr, h0, hbuf⟩

end LinuxExamples.IntTransfer
