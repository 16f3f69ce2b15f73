import LinuxExamples.Bytes

namespace LinuxExamples.UdpEcho

open Bytes

structure SockAddr where
  sinAddr : UInt32
  sinPort : UInt16
  deriving DecidableEq

structure Datagram where
  peer : SockAddr
  payload : List UInt8
  deriving DecidableEq

/-- What the kernel does in one iteration of the server: `recvfrom` fails, or
it delivers a datagram and the `sendto` that follows returns `n`. -/
inductive Event where
  | recvFails
  | request (d : Datagram) (n : Int)

/-- `recvfrom` overwrites the bytes of the datagram that fit and no others. -/
def recvfrom (BUFSIZ : Nat) (buf : Mem) (d : Datagram) : Mem :=
  write buf 0 (d.payload.take BUFSIZ)

/-- The answer handed to `sendto`: the whole of `buf`, back to the sender. -/
def answer (BUFSIZ : Nat) (buf : Mem) (d : Datagram) : Datagram := ⟨d.peer, read buf 0 BUFSIZ⟩

/-- The server's loop: the datagrams it has sent, and its exit status once it returns. -/
def serverLoop (BUFSIZ : Nat) : Mem → List Event → List Datagram × Option Int
  | _, [] => ([], none)
  | _, .recvFails :: _ => ([], some (-1))
  | buf, .request d n :: es =>
    let buf := recvfrom BUFSIZ buf d
    if n < 0 then ([], some (-1))
    else
      let rest := serverLoop BUFSIZ buf es
      (answer BUFSIZ buf d :: rest.1, rest.2)

/-- The replies when no call fails: `sendto` then returns the size it was given. -/
def replies (BUFSIZ : Nat) (buf : Mem) (ds : List Datagram) : List Datagram :=
  (serverLoop BUFSIZ buf (ds.map fun d => .request d BUFSIZ)).1

theorem replies_nil (BUFSIZ : Nat) (buf : Mem) : replies BUFSIZ buf [] = [] := rfl

theorem replies_cons (BUFSIZ : Nat) (buf : Mem) (d : Datagram) (ds : List Datagram) :
    replies BUFSIZ buf (d :: ds) =
      answer BUFSIZ (recvfrom BUFSIZ buf d) d :: replies BUFSIZ (recvfrom BUFSIZ buf d) ds := by
  have hn : ¬ (BUFSIZ : Int) < 0 := by omega
  simp [replies, serverLoop, hn]

theorem answer_full (BUFSIZ : Nat) (buf : Mem) {d : Datagram} (h : d.payload.length = BUFSIZ) :
    answer BUFSIZ (recvfrom BUFSIZ buf d) d = d := by
  subst h
  simp [answer, recvfrom]

theorem length_of_answer_eq (BUFSIZ : Nat) (buf : Mem) {d : Datagram}
    (h : answer BUFSIZ buf d = d) : d.payload.length = BUFSIZ := by
  have hl := congrArg (fun d => d.payload.length) h
  simpa [answer] using hl.symm

theorem replies_exact_iff (BUFSIZ : Nat) (buf : Mem) (ds : List Datagram) :
    replies BUFSIZ buf ds = ds ↔ ∀ d ∈ ds, d.payload.length = BUFSIZ := by
  induction ds generalizing buf with
  | nil => simp [replies, serverLoop]
  | cons d ds ih =>
    rw [replies_cons, List.cons.injEq, ih, List.forall_mem_cons]
    refine and_congr_left fun _ => ⟨length_of_answer_eq BUFSIZ _, answer_full BUFSIZ buf⟩

theorem replies_last (BUFSIZ : Nat) (buf : Mem) (ds : List Datagram) (d : Datagram) :
    ∃ buf', (replies BUFSIZ buf (ds ++ [d])).getLast? =
      some (answer BUFSIZ (recvfrom BUFSIZ buf' d) d) := by
  induction ds generalizing buf with
  | nil => exact ⟨buf, by rw [List.nil_append, replies_cons]; rfl⟩
  | cons e ds ih =>
    obtain ⟨buf', h⟩ := ih (recvfrom BUFSIZ buf e)
    refine ⟨buf', ?_⟩
    have hne : replies BUFSIZ (recvfrom BUFSIZ buf e) (ds ++ [d]) ≠ [] :=
      fun h0 => by simp [h0] at h
    rw [List.cons_append, replies_cons, List.getLast?_cons_of_ne_nil hne, h]

/-- A peer other than `a`, so that another client's datagrams exist. -/
def SockAddr.other (a : SockAddr) : SockAddr := { a with sinPort := a.sinPort + 1 }

theorem SockAddr.other_ne (a : SockAddr) : a.other ≠ a := by
  intro h
  have hp : a.sinPort + 1 = a.sinPort := congrArg SockAddr.sinPort h
  simp at hp

/-- A datagram that leaves part of the buffer alone shows there what the
last datagram of the other client was filled with. -/
theorem stale_byte (BUFSIZ : Nat) (buf : Mem) {d : Datagram} (h : d.payload.length < BUFSIZ)
    (c : UInt8) :
    recvfrom BUFSIZ (recvfrom BUFSIZ buf ⟨d.peer.other, List.replicate BUFSIZ c⟩) d
      d.payload.length = c := by
  have ht : d.payload.take BUFSIZ = d.payload := List.take_of_length_le h.le
  have hs := write_apply_at buf (List.replicate BUFSIZ c) 0 d.payload.length (by simpa using h)
  rw [recvfrom, ht, write_apply_after _ _ (by simp), recvfrom]
  simpa using hs

theorem short_leaks (BUFSIZ : Nat) (buf : Mem) {d : Datagram} (h : d.payload.length < BUFSIZ)
    (he : (replies BUFSIZ buf [⟨d.peer.other, List.replicate BUFSIZ 0⟩, d]).getLast? =
      (replies BUFSIZ buf [⟨d.peer.other, List.replicate BUFSIZ 1⟩, d]).getLast?) : False := by
  simp only [replies_cons, replies_nil, List.getLast?_cons_cons, List.getLast?_singleton,
    Option.some.injEq, answer, Datagram.mk.injEq, true_and] at he
  have hb := read_eq_congr he h
  rw [Nat.zero_add, stale_byte BUFSIZ buf h, stale_byte BUFSIZ buf h] at hb
  exact absurd hb (by decide)

/-- The server echoes exactly the datagrams that fill its buffer, and these
are the ones whose reply does not depend on what other clients have sent. -/
theorem echo_iff_full (BUFSIZ : Nat) :
    (∀ (buf : Mem) (ds : List Datagram), (∀ d ∈ ds, d.payload.length ≤ BUFSIZ) →
      (replies BUFSIZ buf ds = ds ↔ ∀ d ∈ ds, d.payload.length = BUFSIZ)) ∧
    ∀ d : Datagram, d.payload.length ≤ BUFSIZ →
      ((∀ (buf : Mem) (ds₁ ds₂ : List Datagram),
          (∀ e ∈ ds₁ ++ ds₂, e.payload.length ≤ BUFSIZ) →
          ds₁.filter (fun e => e.peer = d.peer) = ds₂.filter (fun e => e.peer = d.peer) →
          (replies BUFSIZ buf (ds₁ ++ [d])).getLast? = (replies BUFSIZ buf (ds₂ ++ [d])).getLast?) ↔
        d.payload.length = BUFSIZ) := by
  refine ⟨fun buf ds _ => replies_exact_iff BUFSIZ buf ds, fun d hd => ⟨fun h => ?_, ?_⟩⟩
  · by_contra hne
    refine short_leaks BUFSIZ (fun _ => 0) (Nat.lt_of_le_of_ne hd hne)
      (h _ [⟨d.peer.other, List.replicate BUFSIZ 0⟩] [⟨d.peer.other, List.replicate BUFSIZ 1⟩]
        ?_ ?_)
    · simp
    · simp [d.peer.other_ne]
  · intro hfull buf ds₁ ds₂ _ _
    obtain ⟨b₁, h₁⟩ := replies_last BUFSIZ buf ds₁ d
    obtain ⟨b₂, h₂⟩ := replies_last BUFSIZ buf ds₂ d
    rw [h₁, h₂, answer_full BUFSIZ b₁ hfull, answer_full BUFSIZ b₂ hfull]

/-- A one-byte datagram comes back as the whole buffer. -/
theorem short_datagram_padded : ¬ ∀ (buf : Mem) (ds : List Datagram),
    (∀ d ∈ ds, d.payload.length ≤ 8192) → replies 8192 buf ds = ds := by
  intro h
  have he := h (fun _ => 0) [⟨⟨0, 0⟩, [104]⟩] (by simp)
  rw [replies_exact_iff] at he
  exact absurd (he _ (List.mem_singleton_self _)) (by decide)

end LinuxExamples.UdpEcho
