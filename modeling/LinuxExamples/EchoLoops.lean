import LinuxExamples.TcpEcho

namespace LinuxExamples.EchoLoops

open Bytes

/-- What `read` does: it returns -1, or it stores bytes and returns their number. -/
inductive ReadResult (BUFSIZ : Nat) where
  | error
  | data (bytes : List UInt8) (short : bytes.length ≤ BUFSIZ)

variable {BUFSIZ : Nat}

def ReadResult.n : ReadResult BUFSIZ → Int
  | .error => -1
  | .data bytes _ => bytes.length

def ReadResult.store (rcvBuffer : Mem) : ReadResult BUFSIZ → Mem
  | .error => rcvBuffer
  | .data bytes _ => write rcvBuffer 0 bytes

/-- The conversion of an `int` to `size_t`. -/
def sizeT : Int → Nat
  | .ofNat n => n
  | .negSucc n => 2 ^ 64 - 1 - n

/-- What the kernel does in one round: the result of `read`, and what the
`write` behind it returns if there is one. -/
structure Round (BUFSIZ : Nat) where
  read : ReadResult BUFSIZ
  write : Int

/-- A call of `write`: the value of `n` and the length that the call gets. -/
structure Write where
  n : Int
  length : Nat
  deriving DecidableEq

structure Echo where
  reads : Nat
  printed : List (List UInt8)
  writes : List Write
  sent : List UInt8
  ended : Bool

/-- The loop of both servers, up to what it prints. Behind the last of the rounds
it waits for `read`, and what `write` returns is dropped. -/
def echoLoop (out : Mem → List UInt8) : Mem → List (Round BUFSIZ) → Echo
  | _, [] => ⟨0, [], [], [], false⟩
  | rcvBuffer, r :: rounds =>
    let n := r.read.n
    if n ≠ 0 then
      let rcvBuffer := r.read.store rcvBuffer
      let e := echoLoop out rcvBuffer rounds
      { reads := e.reads + 1
        printed := out rcvBuffer :: e.printed
        writes := ⟨n, sizeT n⟩ :: e.writes
        sent := read rcvBuffer 0 r.write.toNat ++ e.sent
        ended := e.ended }
    else ⟨1, [], [], [], true⟩

/-- The inner loop of `echo_server`. -/
def echoServer (rcvBuffer : Mem) (rounds : List (Round BUFSIZ)) : Echo :=
  echoLoop (fun rcvBuffer => str rcvBuffer 0 BUFSIZ) rcvBuffer rounds

def doEcho (rcvBuffer : Mem) (rounds : List (Round BUFSIZ)) : Echo :=
  echoLoop (fun _ => ascii ['c', 'h', 'i', 'l', 'd'] ++ [10]) rcvBuffer rounds

/-- A `read` and a `write` of the server in the lock-step model, where nothing fails, are a
round of the loop whose `write` is not short. -/
theorem echoServer_round {k j : Nat} {s t u : TcpEcho.Connection} (hs : s.server = .read)
    (ht : TcpEcho.echoServer BUFSIZ k s = some t) (hopen : t.server ≠ .closed)
    (hu : TcpEcho.echoServer BUFSIZ j t = some u) :
    ∃ short : (s.c2s.take k).length ≤ BUFSIZ,
      u.s2c = s.s2c ++ (echoServer s.srvBuffer [⟨.data (s.c2s.take k) short, k⟩]).sent := by
  simp only [TcpEcho.echoServer, hs] at ht
  split at ht
  · rename_i hk
    cases ht
    cases hu
    have hlen : (s.c2s.take k).length = k := List.length_take_of_le hk.2.2
    refine ⟨hlen.trans_le hk.2.1, ?_⟩
    simp [echoServer, echoLoop, ReadResult.n, ReadResult.store, hlen, hk.1.ne']
  · split at ht
    · cases ht
      exact absurd rfl hopen
    · cases ht

/-- The rounds before a `read` returns 0. -/
def beforeEnd (rounds : List (Round BUFSIZ)) : List (Round BUFSIZ) :=
  rounds.takeWhile fun r => r.read.n ≠ 0

section Loop

variable (out : Mem → List UInt8) (rcvBuffer : Mem) (rounds : List (Round BUFSIZ))

theorem echoLoop_writes : (echoLoop out rcvBuffer rounds).writes =
    (beforeEnd rounds).map fun r => ⟨r.read.n, sizeT r.read.n⟩ := by
  induction rounds generalizing rcvBuffer with
  | nil => rfl
  | cons r rounds ih =>
    by_cases hn : r.read.n = 0
    · simp [echoLoop, beforeEnd, hn]
    · have ht := ih (r.read.store rcvBuffer)
      simp only [beforeEnd] at ht
      simp [echoLoop, beforeEnd, hn, ht]

theorem echoLoop_ends {good : List (Round BUFSIZ)} {r : Round BUFSIZ}
    (rest : List (Round BUFSIZ)) (hgood : ∀ g ∈ good, g.read.n ≠ 0) (hr : r.read.n = 0) :
    (echoLoop out rcvBuffer (good ++ r :: rest)).ended = true ∧
      (echoLoop out rcvBuffer (good ++ r :: rest)).reads = good.length + 1 := by
  induction good generalizing rcvBuffer with
  | nil => simp [echoLoop, hr]
  | cons g good ih =>
    have hg : g.read.n ≠ 0 := hgood g (List.mem_cons_self)
    obtain ⟨hend, hreads⟩ := ih (g.read.store rcvBuffer)
      fun g hg => hgood g (List.mem_cons_of_mem _ hg)
    simp [echoLoop, hg, hend, hreads]

theorem beforeEnd_append {good rest : List (Round BUFSIZ)} {r : Round BUFSIZ}
    (hgood : ∀ g ∈ good, g.read.n ≠ 0) :
    beforeEnd (good ++ r :: rest) = good ++ beforeEnd (r :: rest) := by
  have hpos : ∀ g ∈ good, decide (g.read.n ≠ 0) = true := by
    intro g hg
    exact decide_eq_true (hgood g hg)
  exact List.takeWhile_append_of_pos hpos

end Loop

/-- The loop ends at the first result that is 0 or -1 without a write for it, and each
length is between 1 and the number of bytes just read. -/
structure StopsInTime (rounds : List (Round BUFSIZ)) (e : Echo) : Prop where
  ends : ∀ good r rest, rounds = good ++ r :: rest → (∀ g ∈ good, 0 < g.read.n) → r.read.n ≤ 0 →
    e.ended = true ∧ e.reads = good.length + 1 ∧ e.writes.length = good.length
  lengths : ∀ w ∈ e.writes, 1 ≤ w.length ∧ (w.length : Int) ≤ w.n ∧ w.length ≤ BUFSIZ

theorem ReadResult.length_ok {r : ReadResult BUFSIZ} (h0 : r.n ≠ 0) (he : r.n ≠ -1) :
    1 ≤ sizeT r.n ∧ (sizeT r.n : Int) ≤ r.n ∧ sizeT r.n ≤ BUFSIZ := by
  cases r with
  | error => exact absurd rfl he
  | data bytes short =>
    have hpos : 1 ≤ bytes.length := by
      simp only [ReadResult.n] at h0
      omega
    exact ⟨hpos, le_rfl, short⟩

theorem ReadResult.n_eq_zero {r : ReadResult BUFSIZ} (h : r.n ≤ 0) (he : r.n ≠ -1) : r.n = 0 := by
  cases r with
  | error => exact absurd rfl he
  | data bytes short =>
    simp only [ReadResult.n] at h ⊢
    omega

theorem stopsInTime_of {rounds : List (Round BUFSIZ)} (out : Mem → List UInt8) (rcvBuffer : Mem)
    (h : ∀ r ∈ beforeEnd rounds, r.read.n ≠ -1) :
    StopsInTime rounds (echoLoop out rcvBuffer rounds) := by
  constructor
  · rintro good r rest rfl hgood hr
    have hne : ∀ g ∈ good, g.read.n ≠ 0 := fun g hg => (hgood g hg).ne'
    rw [beforeEnd_append hne] at h
    have hzero : r.read.n = 0 := by
      by_contra h0
      have hmem : r ∈ good ++ beforeEnd (r :: rest) := by
        simp [beforeEnd, h0]
      exact h0 (ReadResult.n_eq_zero hr (h r hmem))
    obtain ⟨hend, hreads⟩ := echoLoop_ends out rcvBuffer rest hne hzero
    refine ⟨hend, hreads, ?_⟩
    rw [echoLoop_writes, beforeEnd_append hne]
    simp [beforeEnd, hzero]
  · intro w hw
    rw [echoLoop_writes] at hw
    obtain ⟨r, hr, rfl⟩ := List.mem_map.mp hw
    have h0 : r.read.n ≠ 0 := by
      simpa using List.mem_takeWhile_imp hr
    exact ReadResult.length_ok h0 (h r hr)

theorem stopsInTime_iff (out : Mem → List UInt8) (rcvBuffer : Mem)
    (rounds : List (Round BUFSIZ)) : StopsInTime rounds (echoLoop out rcvBuffer rounds) ↔
      ∀ r ∈ beforeEnd rounds, r.read.n ≠ -1 := by
  constructor
  · intro h r hr he
    have hw : ⟨r.read.n, sizeT r.read.n⟩ ∈ (echoLoop out rcvBuffer rounds).writes := by
      rw [echoLoop_writes]
      exact List.mem_map_of_mem hr
    obtain ⟨_, hle, _⟩ := h.lengths _ hw
    rw [he] at hle
    exact absurd hle (by decide)
  · exact stopsInTime_of out rcvBuffer

/-- Both loops take a failure of `read` for data: they write with the length -1 and go on. -/
theorem echo_stops_iff (rcvBuffer : Mem) (rounds : List (Round BUFSIZ)) :
    (StopsInTime rounds (echoServer rcvBuffer rounds) ↔
      ∀ r ∈ beforeEnd rounds, r.read.n ≠ -1) ∧
    (StopsInTime rounds (doEcho rcvBuffer rounds) ↔
      ∀ r ∈ beforeEnd rounds, r.read.n ≠ -1) :=
  ⟨stopsInTime_iff _ rcvBuffer rounds, stopsInTime_iff _ rcvBuffer rounds⟩

theorem read_error_written : (¬ ∀ (rcvBuffer : Mem) (rounds : List (Round 8192)),
      StopsInTime rounds (echoServer rcvBuffer rounds)) ∧
    ¬ ∀ (rcvBuffer : Mem) (rounds : List (Round 8192)),
      StopsInTime rounds (doEcho rcvBuffer rounds) := by
  constructor
  · intro h
    have hs := (h (fun _ => 0) [⟨.error, -1⟩]).ends [] _ [] rfl nofun (by decide)
    exact absurd hs.1 (by decide)
  · intro h
    have hs := (h (fun _ => 0) [⟨.error, -1⟩]).ends [] _ [] rfl nofun (by decide)
    exact absurd hs.1 (by decide)

/-- A chunk of the stream as `read` returns it, and how much of it `write` transfers. -/
structure Piece (BUFSIZ : Nat) where
  bytes : List UInt8
  short : bytes.length ≤ BUFSIZ
  written : Nat
  pos : 0 < written
  le : written ≤ bytes.length

def Piece.round (p : Piece BUFSIZ) : Round BUFSIZ := ⟨.data p.bytes p.short, p.written⟩

/-- A stream that arrives in these pieces and then ends. -/
def session (pieces : List (Piece BUFSIZ)) : List (Round BUFSIZ) :=
  pieces.map Piece.round ++ [⟨.data [] (Nat.zero_le _), 0⟩]

def received (pieces : List (Piece BUFSIZ)) : List UInt8 := pieces.flatMap fun p => p.bytes

theorem Piece.round_ne (p : Piece BUFSIZ) : p.round.read.n ≠ 0 := by
  have hlen := p.pos.trans_le p.le
  simp only [Piece.round, ReadResult.n]
  omega

theorem session_ended (out : Mem → List UInt8) (rcvBuffer : Mem) (pieces : List (Piece BUFSIZ)) :
    (echoLoop out rcvBuffer (session pieces)).ended = true := by
  refine (echoLoop_ends out rcvBuffer [] ?_ rfl).1
  intro g hg
  obtain ⟨p, _, rfl⟩ := List.mem_map.mp hg
  exact p.round_ne

theorem session_sent (out : Mem → List UInt8) (rcvBuffer : Mem) (pieces : List (Piece BUFSIZ)) :
    (echoLoop out rcvBuffer (session pieces)).sent =
      pieces.flatMap fun p => p.bytes.take p.written := by
  induction pieces generalizing rcvBuffer with
  | nil => rfl
  | cons p pieces ih =>
    have hread : read (write rcvBuffer 0 p.bytes) 0 p.written = p.bytes.take p.written := by
      have ht := read_take (write rcvBuffer 0 p.bytes) 0 p.le
      rwa [read_write, eq_comm] at ht
    have hn := p.round_ne
    have ht := ih (write rcvBuffer 0 p.bytes)
    simp only [session, Piece.round] at hn ht
    simp [session, echoLoop, Piece.round, hn, ReadResult.store, hread, ht]

/-- What was cut off at one chunk cannot be made up for at a later one. -/
theorem flatMap_take_eq_iff (pieces : List (Piece BUFSIZ)) :
    (pieces.flatMap fun p => p.bytes.take p.written) = received pieces ↔
      ∀ p ∈ pieces, p.written = p.bytes.length := by
  have hshort (pieces : List (Piece BUFSIZ)) :
      (pieces.flatMap fun p => p.bytes.take p.written).length ≤ (received pieces).length := by
    rw [received, List.length_flatMap, List.length_flatMap]
    refine List.sum_le_sum fun p _ => ?_
    rw [List.length_take]
    exact Nat.min_le_right _ _
  induction pieces with
  | nil => simp [received]
  | cons p pieces ih =>
    rw [List.forall_mem_cons, received, List.flatMap_cons, List.flatMap_cons]
    constructor
    · intro h
      have hlen := congrArg List.length h
      have hle := p.le
      have hrest := hshort pieces
      simp only [List.length_append, List.length_take, received] at hlen hrest
      have hw : p.written = p.bytes.length := by omega
      rw [hw, List.take_length] at h
      exact ⟨hw, ih.mp (List.append_cancel_left h)⟩
    · rintro ⟨hw, hrest⟩
      rw [ih.mpr hrest, hw, List.take_length, received]

/-- The loops do not look at what `write` returns, so the rest of a chunk is
lost when it is short. -/
theorem echo_complete_iff (rcvBuffer : Mem) (pieces : List (Piece BUFSIZ)) :
    ((echoServer rcvBuffer (session pieces)).ended = true ∧
      ((echoServer rcvBuffer (session pieces)).sent = received pieces ↔
        ∀ p ∈ pieces, p.written = p.bytes.length)) ∧
    (doEcho rcvBuffer (session pieces)).ended = true ∧
      ((doEcho rcvBuffer (session pieces)).sent = received pieces ↔
        ∀ p ∈ pieces, p.written = p.bytes.length) := by
  simp only [echoServer, doEcho, session_sent]
  exact ⟨⟨session_ended _ _ _, flatMap_take_eq_iff pieces⟩, session_ended _ _ _,
    flatMap_take_eq_iff pieces⟩

theorem short_write_loses : (¬ ∀ (rcvBuffer : Mem) (pieces : List (Piece 8192)),
      (echoServer rcvBuffer (session pieces)).sent = received pieces) ∧
    ¬ ∀ (rcvBuffer : Mem) (pieces : List (Piece 8192)),
      (doEcho rcvBuffer (session pieces)).sent = received pieces := by
  constructor
  · intro h
    have hs := h (fun _ => 0) [⟨[104, 105], by decide, 1, by decide, by decide⟩]
    exact absurd hs (by decide)
  · intro h
    have hs := h (fun _ => 0) [⟨[104, 105], by decide, 1, by decide, by decide⟩]
    exact absurd hs (by decide)

end LinuxExamples.EchoLoops
