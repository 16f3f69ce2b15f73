import LinuxExamples.TcpEcho

namespace LinuxExamples.TcpLockStep

open Bytes Runs TcpEcho

/-- What the server has read and not yet written. -/
def pending (s : Connection) : List UInt8 :=
  match s.server with
  | .write n => read s.srvBuffer 0 n
  | _ => []

/-- Inside a round the bytes of the chunk are spread, in order, over the receive
buffer, the way back, the server and the way there. -/
structure Round (s : Connection) (chunk : List UInt8) : Prop where
  spread : read s.rcvBuffer 0 s.nRecv ++ (s.s2c ++ (pending s ++ s.c2s)) = chunk
  counts : s.nRecv + s.nLeft = chunk.length
  server : s.server ≠ .closed ∧ ∀ n, s.server = .write n → 0 < n

/-- The client works on the chunk that its send buffer holds. -/
structure Working (BUFSIZ : Nat) (s : Connection) (chunk : List UInt8) : Prop where
  short : chunk.length < BUFSIZ
  holds : Holds s.sndBuffer chunk
  original : s.original = chunk :: s.echoed

inductive Stage (BUFSIZ : Nat) (s : Connection) : Prop where
  | input (point : s.client = .input) (idle : Idle s) (printed : s.echoed = s.original)
  | write (chunk : List UInt8) (point : s.client = .write) (idle : Idle s)
      (working : Working BUFSIZ s chunk)
  | receive (chunk : List UInt8) (point : s.client = .receive) (round : Round s chunk)
      (working : Working BUFSIZ s chunk)

structure Inv (BUFSIZ : Nat) (s : Connection) : Prop where
  stdin : ∀ c ∈ s.stdin, 0 ∉ c ∧ c.length < BUFSIZ ∧ c ≠ quit
  stage : Stage BUFSIZ s

theorem start_inv {BUFSIZ : Nat} (input : List (Chunk BUFSIZ)) (sndBuffer rcvBuffer srvBuffer : Mem)
    (nLeft nRecv : Nat) : Inv BUFSIZ (start input sndBuffer rcvBuffer srvBuffer nLeft nRecv) := by
  refine ⟨fun c hc => ?_, .input rfl ⟨rfl, rfl, rfl⟩ rfl⟩
  obtain ⟨c, _, rfl⟩ := List.mem_map.mp hc
  exact ⟨c.noNul, c.short, c.notQuit⟩

theorem terminated (m : Mem) (s : List UInt8) : write (write m 0 s) s.length [0] = strcpy m s := by
  rw [strcpy, write_append, Nat.zero_add]

theorem pending_idle {s : Connection} (h : Idle s) : pending s = [] := by
  rw [pending, h.server]

theorem input_keeps {BUFSIZ k : Nat} {s t : Connection} (hi : Inv BUFSIZ s)
    (hp : s.client = .input) (hidle : Idle s) (hprinted : s.echoed = s.original)
    (ht : echoClient BUFSIZ k s = some t) : Inv BUFSIZ t := by
  have htail : ∀ c ∈ s.stdin.tail, 0 ∉ c ∧ c.length < BUFSIZ ∧ c ≠ quit := fun c hc =>
    hi.stdin c (List.mem_of_mem_tail hc)
  simp only [echoClient, hp] at ht
  split at ht
  · cases ht
    exact ⟨htail, .input rfl ⟨hidle.c2s, hidle.server, hidle.s2c⟩ hprinted⟩
  · rename_i hne
    obtain ⟨chunk, rest, hs⟩ : ∃ chunk rest, s.stdin = chunk :: rest := by
      cases hs : s.stdin with
      | nil => exact absurd (by rw [hs]; rfl) hne
      | cons chunk rest => exact ⟨chunk, rest, rfl⟩
    obtain ⟨hnul, hshort, hquit⟩ := hi.stdin chunk (by simp [hs])
    have hh := strcpy_holds s.sndBuffer hnul
    rw [hs, List.headD_cons, terminated] at ht
    split at ht
    · rename_i hq
      have hqs : Holds (strcpy s.sndBuffer chunk) quit := (streq_iff_holds _ (by decide)).mp hq
      exact absurd (hh.inj hqs) hquit
    · cases ht
      rw [hs] at htail
      refine ⟨htail, .write chunk rfl ⟨hidle.c2s, hidle.server, hidle.s2c⟩ ⟨hshort, hh, ?_⟩⟩
      rw [hh.str_eq hshort.le, hprinted]

theorem write_keeps {BUFSIZ k : Nat} {s t : Connection} {chunk : List UInt8} (hi : Inv BUFSIZ s)
    (hp : s.client = .write) (hidle : Idle s) (hw : Working BUFSIZ s chunk)
    (ht : echoClient BUFSIZ k s = some t) : Inv BUFSIZ t := by
  simp only [echoClient, hp, hw.holds.str_eq hw.short.le] at ht
  cases ht
  refine ⟨hi.stdin, .receive chunk rfl ⟨?_, ?_, ?_⟩ ⟨hw.short, hw.holds, hw.original⟩⟩
  · change [] ++ (s.s2c ++ (pending s ++ (s.c2s ++ chunk))) = chunk
    rw [hidle.s2c, pending_idle hidle, hidle.c2s]
    rfl
  · exact Nat.zero_add _
  · rw [hidle.server]
    simp

theorem Round.complete {s : Connection} {chunk : List UInt8} (h : Round s chunk)
    (hn : s.nLeft = 0) : read s.rcvBuffer 0 s.nRecv = chunk ∧ Idle s := by
  have hlen := congrArg List.length h.spread
  have hcounts := h.counts
  simp only [List.length_append, read_length] at hlen
  have hc2s : s.c2s = [] := List.eq_nil_of_length_eq_zero (by omega)
  have hs2c : s.s2c = [] := List.eq_nil_of_length_eq_zero (by omega)
  have hpend : pending s = [] := List.eq_nil_of_length_eq_zero (by omega)
  have hserver : s.server = .read := by
    cases hsv : s.server with
    | read => rfl
    | write n =>
      have hpos := h.server.2 n hsv
      simp only [pending, hsv] at hpend
      have hzero := congrArg List.length hpend
      rw [read_length] at hzero
      exact absurd hzero hpos.ne'
    | closed => exact absurd hsv h.server.1
  refine ⟨?_, hc2s, hserver, hs2c⟩
  rw [← h.spread, hs2c, hpend, hc2s]
  simp

theorem receive_keeps {BUFSIZ k : Nat} {s t : Connection} {chunk : List UInt8} (hi : Inv BUFSIZ s)
    (hp : s.client = .receive) (hr : Round s chunk) (hw : Working BUFSIZ s chunk)
    (ht : echoClient BUFSIZ k s = some t) : Inv BUFSIZ t := by
  simp only [echoClient, hp] at ht
  split at ht
  · rename_i hn
    cases ht
    obtain ⟨hread, hidle⟩ := hr.complete hn
    have hlen : s.nRecv = chunk.length := by rw [← hread, read_length]
    rw [hlen] at hread
    have hh := terminate_holds hw.holds.noNul hread
    refine ⟨hi.stdin, .input rfl ⟨hidle.c2s, hidle.server, hidle.s2c⟩ ?_⟩
    rw [hlen, hh.str_eq hw.short.le, hw.original]
  · split at ht
    · rename_i hk
      obtain ⟨_, hkl, hks⟩ := hk
      cases ht
      have htake : (s.s2c.take k).length = k := List.length_take_of_le hks
      refine ⟨hi.stdin, .receive chunk rfl ⟨?_, ?_, hr.server⟩ ⟨hw.short, hw.holds, hw.original⟩⟩
      · have hread := read_write_end s.rcvBuffer s.nRecv (s.s2c.take k)
        rw [htake] at hread
        change read (write s.rcvBuffer s.nRecv (s.s2c.take k)) 0 (s.nRecv + k) ++
          (s.s2c.drop k ++ (pending s ++ s.c2s)) = chunk
        rw [hread, List.append_assoc, ← List.append_assoc (s.s2c.take k), List.take_append_drop]
        exact hr.spread
      · have hcounts := hr.counts
        change s.nRecv + k + (s.nLeft - k) = chunk.length
        omega
    · cases ht

theorem idle_waits {BUFSIZ k : Nat} {s : Connection} (h : Idle s) (hp : s.client ≠ .closed) :
    echoServer BUFSIZ k s = none := by
  have hk : ¬ (0 < k ∧ k ≤ BUFSIZ ∧ k ≤ 0) := by omega
  simp only [echoServer, h.server, h.c2s, List.length_nil, hk, hp, false_and, ↓reduceIte]

theorem Round.server_keeps {BUFSIZ k : Nat} {s t : Connection} {chunk : List UInt8}
    (hr : Round s chunk) (hp : s.client = .receive) (ht : echoServer BUFSIZ k s = some t) :
    Round t chunk ∧ t = { s with
      c2s := t.c2s, server := t.server, srvBuffer := t.srvBuffer, s2c := t.s2c } := by
  cases hsv : s.server with
  | read =>
    have hpend : pending s = [] := by rw [pending, hsv]
    simp only [echoServer, hsv, hp, reduceCtorEq, false_and, ↓reduceIte] at ht
    split at ht
    · rename_i hk
      obtain ⟨hpos, _, hkc⟩ := hk
      cases ht
      refine ⟨⟨?_, hr.counts, by simp, fun n hn => ?_⟩, by rw [hp]⟩
      · have hread := read_write s.srvBuffer 0 (s.c2s.take k)
        rw [List.length_take_of_le hkc] at hread
        change read s.rcvBuffer 0 s.nRecv ++ (s.s2c ++
          (read (write s.srvBuffer 0 (s.c2s.take k)) 0 k ++ s.c2s.drop k)) = chunk
        have hspread := hr.spread
        rw [hpend, List.nil_append] at hspread
        rw [hread, List.take_append_drop]
        exact hspread
      · cases hn
        exact hpos
    · cases ht
  | write n =>
    simp only [echoServer, hsv] at ht
    cases ht
    refine ⟨⟨?_, hr.counts, by simp⟩, rfl⟩
    have hspread := hr.spread
    simp only [pending, hsv] at hspread
    change read s.rcvBuffer 0 s.nRecv ++ ((s.s2c ++ read s.srvBuffer 0 n) ++ ([] ++ s.c2s)) = chunk
    rw [List.nil_append, List.append_assoc]
    exact hspread
  | closed => exact absurd hsv hr.server.1

theorem server_keeps {BUFSIZ k : Nat} {s t : Connection} (hi : Inv BUFSIZ s)
    (ht : echoServer BUFSIZ k s = some t) : Inv BUFSIZ t := by
  cases hi.stage with
  | input hp hidle _ =>
    rw [idle_waits hidle (by simp [hp])] at ht
    cases ht
  | write _ hp hidle _ =>
    rw [idle_waits hidle (by simp [hp])] at ht
    cases ht
  | receive chunk hp hr hw =>
    obtain ⟨hr', he⟩ := hr.server_keeps hp ht
    rw [he] at hr' ⊢
    exact ⟨hi.stdin, .receive chunk hp hr' ⟨hw.short, hw.holds, hw.original⟩⟩

theorem step_keeps {BUFSIZ : Nat} (s : Connection) (a : Act) (t : Connection) (hi : Inv BUFSIZ s)
    (ht : step BUFSIZ s a = some t) : Inv BUFSIZ t := by
  cases a with
  | server k => exact server_keeps hi ht
  | client k =>
    cases hi.stage with
    | input hp hidle hprinted => exact input_keeps hi hp hidle hprinted ht
    | write _ hp hidle hw => exact write_keeps hi hp hidle hw ht
    | receive _ hp hr hw => exact receive_keeps hi hp hr hw ht

/-- Some byte of an unfinished round can move on. -/
theorem Round.goes {BUFSIZ : Nat} {s : Connection} {chunk : List UInt8} (hr : Round s chunk)
    (hb : 0 < BUFSIZ) (hp : s.client = .receive) (hn : 0 < s.nLeft) :
    ∃ a t, step BUFSIZ s a = some t := by
  have hlen := congrArg List.length hr.spread
  have hcounts := hr.counts
  simp only [List.length_append, read_length] at hlen
  by_cases hs2c : 1 ≤ s.s2c.length
  · have hk : 0 < 1 ∧ 1 ≤ s.nLeft ∧ 1 ≤ s.s2c.length := ⟨Nat.one_pos, hn, hs2c⟩
    refine ⟨.client 1, Option.isSome_iff_exists.mp ?_⟩
    simp only [step, echoClient, hp, hn.ne', hk, and_self, ↓reduceIte, Option.isSome_some]
  · cases hsv : s.server with
    | read =>
      have hpend : (pending s).length = 0 := by
        rw [pending, hsv]
        rfl
      have hk : 0 < 1 ∧ 1 ≤ BUFSIZ ∧ 1 ≤ s.c2s.length := ⟨Nat.one_pos, hb, by omega⟩
      refine ⟨.server 1, Option.isSome_iff_exists.mp ?_⟩
      simp only [step, echoServer, hsv, hk, and_self, ↓reduceIte, Option.isSome_some]
    | write n =>
      refine ⟨.server 0, Option.isSome_iff_exists.mp ?_⟩
      simp only [step, echoServer, hsv, Option.isSome_some]
    | closed => exact absurd hsv hr.server.1

theorem Inv.lockStep {BUFSIZ : Nat} {s : Connection} (hi : Inv BUFSIZ s) : LockStep BUFSIZ s := by
  cases hi.stage with
  | input hp _ hprinted =>
    refine ⟨fun h => ?_, fun _ => hprinted, fun h => ?_⟩
    · simp [hp] at h
    · simp [hp] at h
  | write _ hp _ _ =>
    refine ⟨fun h => ?_, fun h => ?_, fun h => ?_⟩
    · simp [hp] at h
    · simp [hp] at h
    · simp [hp] at h
  | receive chunk hp hr hw =>
    refine ⟨fun _ hn => ?_, fun h => ?_, fun _ hn => hr.goes (Nat.zero_lt_of_lt hw.short) hp hn⟩
    · rw [hw.holds.str_eq hw.short.le]
      exact hr.complete hn
    · simp [hp] at h

/-- The echo client and server stay in lock step over every input, every way of
splitting the reads and every order of the two processes' steps. -/
theorem lock_step {BUFSIZ : Nat} (input : List (Chunk BUFSIZ)) (sndBuffer rcvBuffer srvBuffer : Mem)
    (nLeft nRecv : Nat) :
    Always (step BUFSIZ) (LockStep BUFSIZ)
      (start input sndBuffer rcvBuffer srvBuffer nLeft nRecv) :=
  .of_invariant (Inv BUFSIZ) (start_inv input sndBuffer rcvBuffer srvBuffer nLeft nRecv) step_keeps
    fun _ hi => hi.lockStep

/-- The way that the bytes of a round have still to go, over three queues to the client. -/
def onWay (s : Connection) : Nat :=
  3 * s.c2s.length + 2 * (pending s).length + s.s2c.length

/-- Each step inside a round brings some of its bytes forward. -/
theorem Round.step_lowers {BUFSIZ : Nat} {s t : Connection} {a : Act} {chunk : List UInt8}
    (hr : Round s chunk) (hp : s.client = .receive) (hn : 0 < s.nLeft)
    (ht : step BUFSIZ s a = some t) : onWay t < onWay s ∧ t.client = .receive := by
  cases a with
  | client k =>
    simp only [step, echoClient, hp, hn.ne', ↓reduceIte] at ht
    obtain ⟨⟨hpos, _, hk⟩, ht⟩ := Option.ite_none_right_eq_some.mp ht
    cases ht
    refine ⟨?_, rfl⟩
    simp only [onWay, pending, List.length_drop]
    omega
  | server k =>
    obtain ⟨_, ht'⟩ := hr.server_keeps hp ht
    refine ⟨?_, by rw [ht', hp]⟩
    cases hsv : s.server with
    | read =>
      simp only [step, echoServer, hsv, hp, reduceCtorEq, false_and, ↓reduceIte] at ht
      obtain ⟨⟨hpos, _, hk⟩, ht⟩ := Option.ite_none_right_eq_some.mp ht
      cases ht
      simp only [onWay, pending, hsv, List.length_drop, List.length_nil, read_length]
      omega
    | write n =>
      have hpos := hr.server.2 n hsv
      simp only [step, echoServer, hsv] at ht
      cases ht
      simp only [onWay, pending, hsv, List.length_append, List.length_nil, read_length]
      omega
    | closed => exact absurd hsv hr.server.1

/-- The round that a client is in comes to its end: no step wastes its way, and until it has
come there is one. -/
structure Completes (BUFSIZ : Nat) (s : Connection) : Prop where
  lowers : s.client = .receive → 0 < s.nLeft → ∀ a t, step BUFSIZ s a = some t →
    onWay t < onWay s ∧ t.client = .receive
  ends : s.client = .receive →
    ∃ u, Reaches (step BUFSIZ) free s u ∧ u.client = .receive ∧ u.nLeft = 0

structure Receiving (BUFSIZ : Nat) (s : Connection) : Prop where
  inv : Inv BUFSIZ s
  client : s.client = .receive

theorem Inv.round {BUFSIZ : Nat} {s : Connection} (hi : Inv BUFSIZ s) (hp : s.client = .receive) :
    ∃ chunk, Round s chunk ∧ Working BUFSIZ s chunk := by
  cases hi.stage with
  | input hq | write _ hq =>
    rw [hp] at hq
    cases hq
  | receive chunk _ hr hw => exact ⟨chunk, hr, hw⟩

theorem Inv.completes {BUFSIZ : Nat} {s : Connection} (hi : Inv BUFSIZ s) :
    Completes BUFSIZ s := by
  refine ⟨fun hp hn a t ht => ?_, fun hp => ?_⟩
  · obtain ⟨chunk, hr, _⟩ := hi.round hp
    exact hr.step_lowers hp hn ht
  · have hgo (s : Connection) (hs : Receiving BUFSIZ s)
        (hne : ¬ (s.client = .receive ∧ s.nLeft = 0)) :
        ∃ a t, step BUFSIZ s a = some t ∧ Receiving BUFSIZ t ∧ onWay t < onWay s := by
      obtain ⟨chunk, hr, hw⟩ := hs.inv.round hs.client
      have hn : 0 < s.nLeft := Nat.pos_of_ne_zero fun hz => hne ⟨hs.client, hz⟩
      obtain ⟨a, t, ht⟩ := hr.goes (Nat.zero_lt_of_lt hw.short) hs.client hn
      obtain ⟨hlt, hclient⟩ := hr.step_lowers hs.client hn ht
      exact ⟨a, t, ht, ⟨step_keeps s a t hs.inv ht, hclient⟩, hlt⟩
    exact reaches_of_measure_inv onWay hgo s ⟨hi, hp⟩

/-- No round spins or gets stuck, whatever the order of the steps. -/
theorem rounds_complete {BUFSIZ : Nat} (input : List (Chunk BUFSIZ))
    (sndBuffer rcvBuffer srvBuffer : Mem) (nLeft nRecv : Nat) : Always (step BUFSIZ)
      (Completes BUFSIZ) (start input sndBuffer rcvBuffer srvBuffer nLeft nRecv) :=
  .of_invariant (Inv BUFSIZ) (start_inv input sndBuffer rcvBuffer srvBuffer nLeft nRecv) step_keeps
    fun _ hi => hi.completes

end LinuxExamples.TcpLockStep
