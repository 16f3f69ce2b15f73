import LinuxExamples.PartialTransfer

namespace LinuxExamples.UnixSocket

open Bytes PartialTransfer

def BUF_MAX_LEN : Nat := 4096

inductive SockType where
  | sockStream | sockDgram | other
  deriving DecidableEq

/-- `sun_path` after `strncpy(addr.sun_path, filepath, sizeof(addr.sun_path) - 1)` into a
zeroed `sockaddr_un`. -/
def sunPath (filepath : List UInt8) : List UInt8 :=
  filepath.take 107 ++ List.replicate (108 - (filepath.take 107).length) 0

/-- Whether the client's calls succeed, and what each `send` returns. -/
structure ClientKernel where
  socket : Bool
  connect : Bool
  sends : List (Option Nat)
  sendto : Bool

/-- The return value of `do_send_data`, the address used and the bytes that left. -/
structure ClientRun where
  ret : Int
  addr : List UInt8
  bytes : List UInt8

def doSendData (type : SockType) (filepath : List UInt8) (message : Mem) (k : ClientKernel) :
    Option ClientRun :=
  if k.socket = false then some ⟨-1, [], []⟩
  else
    let addr := sunPath filepath
    match type with
    | .sockStream =>
      if k.connect = false then some ⟨-1, addr, []⟩
      else
        (partialMessageSend message sizeofPointer 0 k.sends).map fun s =>
          if s.ret = -1 then ⟨-1, addr, s.bytes⟩ else ⟨0, addr, s.bytes⟩
    | .sockDgram =>
      if k.sendto = false then some ⟨-1, addr, []⟩
      else some ⟨0, addr, read message 0 sizeofPointer⟩
    | .other => some ⟨-1, addr, []⟩

structure ServerKernel where
  socket : Bool
  bind : Bool
  recvs : List (Option (List UInt8))
  recvfrom : Option (List UInt8)

structure ServerRun where
  ret : Int
  addr : List UInt8
  buf : Mem
  said : Option (List UInt8)

/-- `said` is the text after `Client said`. The result of `accept` is not
checked: if it fails, so does the first `recv`. -/
def doRecvData (type : SockType) (filepath : List UInt8) (stack : Mem) (k : ServerKernel) :
    Option ServerRun :=
  let buf := memset stack BUF_MAX_LEN
  if k.socket = false then some ⟨-1, [], buf, none⟩
  else
    let addr := sunPath filepath
    if k.bind = false then some ⟨-1, addr, buf, none⟩
    else
      match type with
      | .sockStream =>
        (partialMessageRecv BUF_MAX_LEN 0 buf k.recvs).map fun r =>
          if r.ret = -1 then ⟨-1, addr, r.buf, none⟩
          else ⟨0, addr, r.buf, some (str r.buf 0 BUF_MAX_LEN)⟩
      | .sockDgram =>
        match k.recvfrom with
        | none => some ⟨-1, addr, buf, none⟩
        | some bs =>
          let buf := write buf 0 bs
          some ⟨0, addr, buf, some (str buf 0 BUF_MAX_LEN)⟩
      | .other => some ⟨-1, addr, buf, none⟩

/-- What the server's kernel may return when a client on the same address has
sent `bytes`: the stream in any pieces, or the datagram cut to the buffer. -/
def Delivers (type : SockType) (bytes : List UInt8) (k : ServerKernel) : Prop :=
  match type with
  | .sockStream => RecvReturns BUF_MAX_LEN 0 bytes k.recvs
  | .sockDgram => k.recvfrom = none ∨ k.recvfrom = some (bytes.take BUF_MAX_LEN)
  | .other => True

/-- A client that reports success has sent the eight bytes at `message`. -/
theorem doSendData_bytes {type : SockType} {filepath : List UInt8} {message : Mem}
    {k : ClientKernel} {c : ClientRun} (hk : SendReturns sizeofPointer 0 k.sends)
    (h : doSendData type filepath message k = some c) (h0 : c.ret = 0) :
    c.bytes = read message 0 sizeofPointer := by
  simp only [doSendData] at h
  split at h
  · cases h
    simp at h0
  · cases type with
    | sockStream =>
      dsimp only at h
      split at h
      · cases h
        simp at h0
      · obtain ⟨s, hs, rfl⟩ := Option.map_eq_some_iff.mp h
        by_cases hret : s.ret = -1
        · simp [hret] at h0
        · simp only [hret, ↓reduceIte]
          exact partialMessageSend_bytes hk hs hret
    | sockDgram =>
      dsimp only at h
      split at h
      · cases h
        simp at h0
      · cases h
        rfl
    | other =>
      cases h
      simp at h0

/-- The ways to the server's `printf`. -/
inductive Received (type : SockType) (stack : Mem) (k : ServerKernel) (buf : Mem) : Prop
  | stream (r : PartialTransfer.Received) (type_eq : type = .sockStream)
      (recv : partialMessageRecv BUF_MAX_LEN 0 (memset stack BUF_MAX_LEN) k.recvs = some r)
      (ret : r.ret ≠ -1) (buf_eq : buf = r.buf)
  | datagram (bs : List UInt8) (type_eq : type = .sockDgram) (recvfrom : k.recvfrom = some bs)
      (buf_eq : buf = write (memset stack BUF_MAX_LEN) 0 bs)

/-- A server prints its buffer and returns 0, or it does neither. -/
theorem doRecvData_cases {type : SockType} {filepath : List UInt8} {stack : Mem} {k : ServerKernel}
    {s : ServerRun} (h : doRecvData type filepath stack k = some s) :
    s.ret = -1 ∧ s.said = none ∨
      s.ret = 0 ∧ s.said = some (str s.buf 0 BUF_MAX_LEN) ∧ Received type stack k s.buf := by
  simp only [doRecvData] at h
  split at h
  · cases h
    exact .inl ⟨rfl, rfl⟩
  · split at h
    · cases h
      exact .inl ⟨rfl, rfl⟩
    · cases type with
      | sockStream =>
        obtain ⟨r, hr, rfl⟩ := Option.map_eq_some_iff.mp h
        by_cases hret : r.ret = -1
        · rw [if_pos hret]
          exact .inl ⟨rfl, rfl⟩
        · rw [if_neg hret]
          exact .inr ⟨rfl, rfl, .stream r rfl hr hret rfl⟩
      | sockDgram =>
        cases hk : k.recvfrom with
        | none =>
          simp only [hk] at h
          cases h
          exact .inl ⟨rfl, rfl⟩
        | some bs =>
          simp only [hk] at h
          cases h
          exact .inr ⟨rfl, rfl, .datagram bs rfl hk rfl⟩
      | other =>
        cases h
        exact .inl ⟨rfl, rfl⟩

/-- Both transports leave the bytes sent over the cleared buffer, as far as they fit. -/
theorem Received.buf {type : SockType} {bytes : List UInt8} {stack buf : Mem} {k : ServerKernel}
    (h : Received type stack k buf) (hk : Delivers type bytes k) :
    buf = write (memset stack BUF_MAX_LEN) 0 (bytes.take BUF_MAX_LEN) := by
  cases h with
  | stream r ht hr hret hbuf =>
    subst ht
    rw [hbuf, partialMessageRecv_buf hk hr hret, Nat.sub_zero]
  | datagram bs ht hbs hbuf =>
    subst ht
    obtain hnone | hsome := hk
    · rw [hnone] at hbs
      cases hbs
    · rw [hsome] at hbs
      cases hbs
      exact hbuf

/-- A server that reports success prints the bytes sent to it up to a NUL. -/
theorem doRecvData_said {type : SockType} {filepath bytes : List UInt8} {stack : Mem}
    {k : ServerKernel} {s : ServerRun} (hk : Delivers type bytes k)
    (h : doRecvData type filepath stack k = some s) (h0 : s.ret = 0) :
    s.said = some ((bytes.take BUF_MAX_LEN).takeWhile (· ≠ 0)) := by
  obtain ⟨hret, _⟩ | ⟨_, hsaid, hr⟩ := doRecvData_cases h
  · rw [hret] at h0
    cases h0
  · rw [hsaid, hr.buf hk, str_memset_write _ (List.length_take_le _ _)]

/-- End to end, the first eight bytes of the message arrive. -/
theorem said_eq {type : SockType} {filepath m : List UInt8} {message stack : Mem}
    {kc : ClientKernel} {ks : ServerKernel} {c : ClientRun} {s : ServerRun}
    (hm : Holds message m) (hsends : SendReturns sizeofPointer 0 kc.sends)
    (hc : doSendData type filepath message kc = some c) (hc0 : c.ret = 0)
    (hrecvs : Delivers type c.bytes ks) (hs : doRecvData type filepath stack ks = some s)
    (hs0 : s.ret = 0) : s.said = some (m.take sizeofPointer) := by
  have hb := doSendData_bytes hsends hc hc0
  have hfit : c.bytes.length ≤ BUF_MAX_LEN := by
    rw [hb, read_length]
    decide
  rw [doRecvData_said hrecvs hs hs0, List.take_of_length_le hfit, hb, ← str_eq_takeWhile,
    hm.str_take]

/-- When client and server both succeed, the text printed is the message if
and only if the message is no longer than a pointer. -/
theorem said_iff {type : SockType} {filepath m : List UInt8} {message stack : Mem}
    {kc : ClientKernel} {ks : ServerKernel} {c : ClientRun} {s : ServerRun}
    (hm : Holds message m) (_hlen : m.length < BUF_MAX_LEN)
    (hsends : SendReturns sizeofPointer 0 kc.sends)
    (hc : doSendData type filepath message kc = some c) (hc0 : c.ret = 0)
    (hrecvs : Delivers type c.bytes ks) (hs : doRecvData type filepath stack ks = some s)
    (hs0 : s.ret = 0) : s.said = some m ↔ m.length ≤ sizeofPointer := by
  rw [said_eq hm hsends hc hc0 hrecvs hs hs0, Option.some.injEq, List.take_eq_self_iff]

/-- A client whose kernel takes `n` bytes and then the rest of the eight. -/
def splitClient (n : Nat) : ClientKernel := ⟨true, true, [some n, some (sizeofPointer - n)], true⟩

/-- A server that is given the first `n` of some bytes, then the rest, then the end. -/
def splitServer (n : Nat) (bytes : List UInt8) : ServerKernel :=
  ⟨true, true, [some (bytes.take n), some (bytes.drop n), some []], none⟩

def unix : List UInt8 := ascii ['u', 'n', 'i', 'x']

def unixSocket : List UInt8 := unix ++ ascii [' ', 's', 'o', 'c', 'k', 'e', 't']

theorem splitClient_sends : SendReturns sizeofPointer 0 (splitClient 3).sends :=
  .piece (by decide) (by decide) (.piece (by decide) (by decide) (.unused []))

theorem splitServer_delivers {bytes : List UInt8} (h : bytes.length = sizeofPointer) :
    Delivers .sockStream bytes (splitServer 1 bytes) := by
  have h1 : (bytes.take 1).length = 1 := by rw [List.length_take, h]; rfl
  have h7 : (bytes.drop 1).length = 7 := by rw [List.length_drop, h]; rfl
  have hb : RecvReturns BUF_MAX_LEN 0 (bytes.take 1 ++ (bytes.drop 1 ++ []))
      (splitServer 1 bytes).recvs := by
    apply RecvReturns.piece (List.ne_nil_of_length_eq_add_one h1) (by rw [h1]; decide)
    apply RecvReturns.piece (List.ne_nil_of_length_eq_add_one h7) (by rw [h1, h7]; decide)
    exact RecvReturns.eof _ _
  rwa [List.append_nil, List.take_append_drop] at hb

theorem splitClient_run (message : Mem) :
    doSendData .sockStream [47] message (splitClient 3) =
      some ⟨0, sunPath [47], read message 0 sizeofPointer⟩ := rfl

theorem splitServer_run (message stack : Mem) : ∃ s,
    doRecvData .sockStream [47] stack (splitServer 1 (read message 0 sizeofPointer)) = some s ∧
      s.ret = 0 := ⟨_, rfl, rfl⟩

theorem said_iff_unix :
    ∃ s, doRecvData .sockStream [47] (fun _ => 7)
        (splitServer 1 (read (strcpy (fun _ => 7) unix) 0 sizeofPointer)) = some s ∧
      (s.said = some unix ↔ unix.length ≤ sizeofPointer) := by
  obtain ⟨s, hs, hs0⟩ := splitServer_run (strcpy (fun _ => 7) unix) (fun _ => 7)
  exact ⟨s, hs, said_iff (strcpy_holds _ (by decide)) (by decide) splitClient_sends
    (splitClient_run _) rfl (splitServer_delivers (read_length _ _ _)) hs hs0⟩

/-- A message of eleven bytes is cut to eight. -/
theorem long_message_cut : ¬ ∀ (filepath m : List UInt8) (message stack : Mem) (kc : ClientKernel)
    (ks : ServerKernel) (c : ClientRun) (s : ServerRun), Holds message m → m.length < BUF_MAX_LEN →
    SendReturns sizeofPointer 0 kc.sends → doSendData .sockStream filepath message kc = some c →
    c.ret = 0 → Delivers .sockStream c.bytes ks →
    doRecvData .sockStream filepath stack ks = some s → s.ret = 0 → s.said = some m := by
  intro h
  have hm : Holds (strcpy (fun _ => 0) unixSocket) unixSocket := strcpy_holds _ (by decide)
  have hc := splitClient_run (strcpy (fun _ => 0) unixSocket)
  have hd := splitServer_delivers (read_length (strcpy (fun _ => 0) unixSocket) 0 sizeofPointer)
  obtain ⟨s, hs, hs0⟩ := splitServer_run (strcpy (fun _ => 0) unixSocket) (fun _ => 0)
  have hall := h _ _ _ _ _ _ _ _ hm (by decide) splitClient_sends hc rfl hd hs hs0
  have hcut := said_eq hm splitClient_sends hc rfl hd hs hs0
  exact absurd (hall.symm.trans hcut) (by decide)

/-- The `printf` of a server has a NUL to stop at inside `buf`, and nothing was stored
behind `buf`. -/
structure Bounded (stack : Mem) (s : ServerRun) : Prop where
  nul : ∃ i < BUF_MAX_LEN, s.buf i = 0
  outside : ∀ i, BUF_MAX_LEN ≤ i → s.buf i = stack i

theorem nul_iff (stack : Mem) (bytes : List UInt8) :
    (∃ i < BUF_MAX_LEN, write (memset stack BUF_MAX_LEN) 0 (bytes.take BUF_MAX_LEN) i = 0) ↔
      bytes.length < BUF_MAX_LEN ∨ 0 ∈ bytes.take BUF_MAX_LEN := by
  rw [exists_nul_write (List.length_take_le _ _), or_comm, List.length_take]
  refine or_congr_left ?_
  constructor
  · rintro ⟨i, hlo, hhi, _⟩
    omega
  · intro hlt
    exact ⟨bytes.length, Nat.min_le_right _ _, hlt, memset_apply stack hlt⟩

/-- What the peer sends leaves a NUL in the buffer unless it fills it with other bytes. -/
theorem bounded_iff_short {type : SockType} {filepath bytes : List UInt8} {stack : Mem}
    {k : ServerKernel} {s : ServerRun} (hk : Delivers type bytes k)
    (h : doRecvData type filepath stack k = some s) (hsaid : s.said ≠ none) :
    Bounded stack s ↔ bytes.length < BUF_MAX_LEN ∨ 0 ∈ bytes.take BUF_MAX_LEN := by
  have hbuf : s.buf = write (memset stack BUF_MAX_LEN) 0 (bytes.take BUF_MAX_LEN) := by
    obtain ⟨_, hnone⟩ | ⟨_, _, hr⟩ := doRecvData_cases h
    · exact absurd hnone hsaid
    · exact hr.buf hk
  have houtside : ∀ i, BUF_MAX_LEN ≤ i → s.buf i = stack i := by
    intro i hi
    have hlen : (bytes.take BUF_MAX_LEN).length ≤ BUF_MAX_LEN := List.length_take_le _ _
    have hmemset : (List.replicate BUF_MAX_LEN (0 : UInt8)).length = BUF_MAX_LEN :=
      List.length_replicate
    rw [hbuf, write_apply_after _ _ (by omega), memset, write_apply_after _ _ (by omega)]
  rw [← nul_iff stack bytes, ← hbuf]
  exact ⟨fun hb => hb.nul, fun hnul => ⟨hnul, houtside⟩⟩

theorem bounded_iff_unix :
    ∃ s, doRecvData .sockStream [47] (fun _ => 7)
        (splitServer 1 (read (strcpy (fun _ => 7) unix) 0 sizeofPointer)) = some s ∧
      (Bounded (fun _ => 7) s ↔
        (read (strcpy (fun _ => 7) unix) 0 sizeofPointer).length < BUF_MAX_LEN ∨
          0 ∈ (read (strcpy (fun _ => 7) unix) 0 sizeofPointer).take BUF_MAX_LEN) := by
  obtain ⟨s, hs, hs0⟩ := splitServer_run (strcpy (fun _ => 7) unix) (fun _ => 7)
  have hd := splitServer_delivers (read_length (strcpy (fun _ => 7) unix) 0 sizeofPointer)
  have hsaid := doRecvData_said hd hs hs0
  exact ⟨s, hs, bounded_iff_short hd hs (hsaid ▸ Option.some_ne_none _)⟩

/-- A datagram that fills the buffer with letters. -/
theorem full_datagram_unterminated : ¬ ∀ (type : SockType) (filepath bytes : List UInt8)
    (stack : Mem) (k : ServerKernel) (s : ServerRun), Delivers type bytes k →
    doRecvData type filepath stack k = some s → s.said ≠ none → Bounded stack s := by
  intro h
  have htake : (List.replicate BUF_MAX_LEN (120 : UInt8)).take BUF_MAX_LEN =
      List.replicate BUF_MAX_LEN 120 :=
    List.take_of_length_le List.length_replicate.le
  have hb := h .sockDgram [47] (List.replicate BUF_MAX_LEN 120) (fun _ => 0)
    ⟨true, true, [], some ((List.replicate BUF_MAX_LEN 120).take BUF_MAX_LEN)⟩ _ (.inr rfl) rfl
    (Option.some_ne_none _)
  obtain hlt | h0 := (nul_iff (fun _ => 0) _).mp hb.nul
  · rw [List.length_replicate] at hlt
    exact absurd hlt (Nat.lt_irrefl _)
  · rw [htake] at h0
    exact absurd (List.eq_of_mem_replicate h0) (by decide)

end LinuxExamples.UnixSocket
