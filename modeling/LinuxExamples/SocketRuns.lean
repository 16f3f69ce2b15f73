import LinuxExamples.SocketSystem

namespace LinuxExamples.SocketSystem

open Bytes PartialTransfer Runs UnixSocket

variable {ι φ : Type} [DecidableEq ι] [DecidableEq φ]

/-- The send loop is done when all the bytes have left. -/
theorem sent_all {buf : Mem} {size written : Nat} {rets : List Nat} {r : PartialTransfer.Sent}
    (h : partialMessageSend buf size written (rets.map some) = some r) :
    size ≤ written + rets.sum := by
  induction rets generalizing written r with
  | nil =>
    by_cases hw : written < size
    · simp [partialMessageSend, hw] at h
    · simpa using hw
  | cons n rets ih =>
    by_cases hw : written < size
    · simp only [List.map_cons, partialMessageSend, hw, ↓reduceIte] at h
      obtain ⟨r', hr', _⟩ := Option.map_eq_some_iff.mp h
      have hrest := ih hr'
      rw [List.sum_cons]
      omega
    · rw [List.sum_cons]
      omega

theorem client_sent {path : List UInt8} {message : Mem} {rets : List Nat} {r : ClientRun}
    (h : doSendData .sockStream path message ⟨true, true, rets.map some, true⟩ = some r) :
    sizeofPointer ≤ rets.sum := by
  obtain ⟨s, hs, _⟩ := Option.map_eq_some_iff.mp h
  have hall := sent_all hs
  omega

section Pieces

variable {rets : List (List UInt8)} (hrets : ∀ bs ∈ rets, bs ≠ [])

include hrets

/-- The receive loop goes on as long as `recv` returns bytes, -/
theorem recv_waits (size written : Nat) (buf : Mem) :
    partialMessageRecv size written buf (rets.map some) = none := by
  induction rets generalizing written buf with
  | nil => rfl
  | cons bs rets ih =>
    obtain ⟨hbs, hrest⟩ := List.forall_mem_cons.mp hrets
    have hlen : bs.length ≠ 0 := fun hz => hbs (List.length_eq_zero_iff.mp hz)
    simp only [List.map_cons, partialMessageRecv, hlen, ↓reduceIte, ih hrest, Option.map_none]

/-- and then has stored all of them. -/
theorem recv_ends (size written : Nat) (buf : Mem) :
    ∃ r, partialMessageRecv size written buf ((rets ++ [[]]).map some) = some r ∧ r.ret = 0 ∧
      r.buf = write buf written rets.flatten := by
  induction rets generalizing written buf with
  | nil => exact ⟨_, rfl, rfl, rfl⟩
  | cons bs rets ih =>
    obtain ⟨hbs, hrest⟩ := List.forall_mem_cons.mp hrets
    have hlen : bs.length ≠ 0 := fun hz => hbs (List.length_eq_zero_iff.mp hz)
    obtain ⟨r, hr, h0, hbuf⟩ := ih hrest (written + bs.length) (write buf written bs)
    refine ⟨{ r with calls := (written, size - written) :: r.calls }, ?_, h0, ?_⟩
    · simp only [List.cons_append, List.map_cons, partialMessageRecv, hlen, ↓reduceIte, hr,
        Option.map_some]
    · rw [List.flatten_cons, write_append]
      exact hbuf

theorem server_waits (path : List UInt8) (stack : Mem) :
    doRecvData .sockStream path stack ⟨true, true, rets.map some, none⟩ = none := by
  simp only [doRecvData, Bool.true_eq_false, ↓reduceIte, recv_waits hrets, Option.map_none]

theorem server_ends (path : List UInt8) (stack : Mem) :
    ∃ r, doRecvData .sockStream path stack ⟨true, true, (rets ++ [[]]).map some, none⟩ = some r ∧
      r.ret = 0 ∧ (rets.flatten.length ≤ BUF_MAX_LEN →
        r.said = some (rets.flatten.takeWhile (· ≠ 0))) := by
  obtain ⟨r, hr, h0, hbuf⟩ := recv_ends hrets BUF_MAX_LEN 0 (memset stack BUF_MAX_LEN)
  refine ⟨⟨0, sunPath path, r.buf, some (str r.buf 0 BUF_MAX_LEN)⟩, ?_, rfl, fun hlen => ?_⟩
  · simp only [doRecvData, Bool.true_eq_false, ↓reduceIte, hr, Option.map_some, h0]
    rfl
  · simp only [hbuf, str_memset_write stack hlen]

end Pieces

/-- How many bytes a client at a point has sent. -/
def Point.Sent (k : Nat) : Point ι → Prop
  | .connect => k = 0
  | .send _ rets => k = rets.sum
  | .exited ret none => ret = 0 → k = sizeofPointer
  | _ => True

/-- A client has sent the begin of its argument, and all eight bytes if it reports success. -/
structure Flows (m : Machine ι φ) (s : State ι φ) : Prop where
  unsent : ∀ c, s.procs c = none → s.sent c = []
  stream : ∀ c path message x, s.procs c = some ⟨.sendData .sockStream path message, x⟩ →
    ∃ k ≤ sizeofPointer, s.sent c = read (m.arg c message) 0 k ∧ x.Sent k

section Flows

variable {m : Machine ι φ} {s t : State ι φ} {p : ι} {job : Job} {y : Point ι}

omit [DecidableEq φ] in
theorem Flows.keep (hs : Flows m s) (hm : Moved s t p job y) (hsent : t.sent = s.sent)
    (hy : ∀ path message, job = .sendData .sockStream path message →
      ∃ k ≤ sizeofPointer, s.sent p = read (m.arg p message) 0 k ∧ y.Sent k) : Flows m t := by
  refine ⟨fun c hc => ?_, fun c path message x hc => ?_⟩
  · rw [hsent]
    exact hs.unsent c (hm.idle hc).2
  · rw [hsent]
    obtain ⟨rfl, he⟩ | ⟨_, hc⟩ := hm.at_cases hc
    · cases he
      exact hy path message rfl
    · exact hs.stream c path message x hc

theorem Effect.flows (h : Effect m s t p job y) (hs : Flows m s) (hplaced : Placed s) :
    Flows m t := by
  have hm := h.moved
  cases h with
  | begins args idle fits t_eq =>
    subst t_eq
    refine hs.keep hm rfl fun path message hjob => ⟨0, Nat.zero_le _, hs.unsent p idle, ?_⟩
    rw [hjob]
    rfl
  | ends job x y here running point t_eq =>
    subst t_eq
    refine hs.keep hm rfl fun path message hjob => ?_
    subst hjob
    obtain ⟨k, hk, hsent, _⟩ := hs.stream p path message x here
    refine ⟨k, hk, hsent, ?_⟩
    obtain rfl | rfl := point
    · trivial
    · rintro ⟨⟩
  | binds type path y here unused point t_eq | listens type path here t_eq
  | accepts type path c rest here waiting t_eq | receives type path c rets n bs here recv waits t_eq
  | prints type path c rets n bs r here recv done t_eq
  | hears type path c bs rest r here waiting done t_eq =>
    subst t_eq
    exact hs.keep hm rfl fun _ _ hjob => by cases hjob
  | connects type path message q here found t_eq =>
    subst t_eq
    refine hs.keep hm rfl fun path' message' hjob => ?_
    cases hjob
    obtain ⟨k, hk, hsent, rfl⟩ := hs.stream p path message _ here
    exact ⟨0, hk, hsent, rfl⟩
  | sendsTo type path message q r here found done t_eq =>
    subst t_eq
    refine hs.keep hm rfl fun path' message' hjob => ?_
    cases hjob
    obtain ⟨_, _, hdgram⟩ := (hplaced p _ here).2
    cases hdgram
  | sends type path message q rets n y here pos fits point t_eq =>
    obtain ⟨_, _, hjob⟩ := (hplaced p _ here).2
    cases hjob
    obtain ⟨k, hk, hsent, rfl⟩ := hs.stream p path message _ here
    have hy : y.Sent (rets.sum + n) := by
      have hsum : (rets ++ [n]).sum = rets.sum + n := by simp
      obtain ⟨_, rfl⟩ | ⟨r, hr, rfl⟩ := point
      · exact hsum.symm
      · have hall := client_sent hr
        intro _
        omega
    subst t_eq
    refine ⟨fun c hc => ?_, fun c path' message' x hc => ?_⟩
    · obtain ⟨hcp, hc⟩ := hm.idle hc
      simpa [State.goto, hcp] using hs.unsent c hc
    · obtain ⟨rfl, he⟩ | ⟨hcp, hc⟩ := hm.at_cases hc
      · cases he
        refine ⟨rets.sum + n, fits, ?_, hy⟩
        simp only [Function.update_self, hsent, read_add, Nat.zero_add]
      · obtain ⟨k, hk', hsent', hx⟩ := hs.stream c path' message' x hc
        exact ⟨k, hk', by simpa [State.goto, hcp] using hsent', hx⟩

end Flows

omit [DecidableEq ι] [DecidableEq φ] in
/-- What `recv` returns: the end, or the next bytes. -/
theorem recv_cases {s : State ι φ} {c : ι} {written n : Nat} {bs : List UInt8}
    (h : s.recv c written n = some bs) :
    bs = [] ∧ (written = BUF_MAX_LEN ∨ s.flow c = [] ∧ s.closed c) ∨
      bs ≠ [] ∧ s.flow c = bs ++ (s.flow c).drop bs.length := by
  unfold State.recv at h
  split at h
  · rename_i hend
    cases h
    exact .inl ⟨rfl, hend⟩
  · obtain ⟨⟨hpos, hle, _⟩, hbs⟩ := Option.ite_none_right_eq_some.mp h
    obtain rfl := Option.some.inj hbs
    have hlen : ((s.flow c).take n).length = n := List.length_take_of_le hle
    refine .inr ⟨List.ne_nil_of_length_pos (hlen.symm ▸ hpos), ?_⟩
    rw [hlen, List.take_append_drop]

/-- What a client has sent is in its connection or with the server that has accepted it. -/
structure Kept (m : Machine ι φ) (s : State ι φ) : Prop where
  queued : ∀ q c, c ∈ s.queue q → s.server c = some q ∧ s.flow c = s.sent c
  once : ∀ q, (s.queue q).Nodup
  receiving : ∀ q job c rets, s.procs q = some ⟨job, .recv c rets⟩ → s.server c = some q ∧
    c ∉ s.queue q ∧ s.sent c = rets.flatten ++ s.flow c ∧ ∀ bs ∈ rets, bs ≠ []
  fresh : ∀ c, s.server c = none → s.flow c = s.sent c
  inbox : ∀ q c bs, (c, bs) ∈ s.inbox q → s.server c = some q ∧
    ∃ path message, s.procs c = some ⟨.sendData .sockDgram path message, .exited 0 none⟩ ∧
      bs = read (m.arg c message) 0 sizeofPointer

section Kept

variable {m : Machine ι φ} {s t : State ι φ} {p : ι} {job : Job} {y : Point ι}

omit [DecidableEq φ] in
/-- A new link leaves the others as they are. -/
theorem linked_update {c q r : ι} (hp : s.server p = none) (hc : s.server c = some r) :
    Function.update s.server p (some q) c = some r := by
  have hcp : c ≠ p := by
    rintro rfl
    cases hp.symm.trans hc
  rw [Function.update_of_ne hcp, hc]

omit [DecidableEq φ] in
theorem Kept.inbox_keep (hs : Kept m s) (hm : Moved s t p job y) {q c : ι} {bs : List UInt8}
    (h : (c, bs) ∈ s.inbox q) : s.server c = some q ∧
      ∃ path message, t.procs c = some ⟨.sendData .sockDgram path message, .exited 0 none⟩ ∧
        bs = read (m.arg c message) 0 sizeofPointer := by
  obtain ⟨hserver, path, message, hc, hbs⟩ := hs.inbox q c bs h
  exact ⟨hserver, path, message, hm.ended hc rfl, hbs⟩

omit [DecidableEq φ] in
theorem Kept.keep (hs : Kept m s) (hm : Moved s t p job y) (hqueue : t.queue = s.queue)
    (hserver : t.server = s.server) (hflow : t.flow = s.flow) (hsent : t.sent = s.sent)
    (hinbox : ∀ q x, x ∈ t.inbox q → x ∈ s.inbox q) (hy : ∀ c rets, y ≠ .recv c rets) :
    Kept m t := by
  refine ⟨?_, ?_, fun q job' c rets hq => ?_, ?_, fun q c bs hbs => ?_⟩
  · rw [hqueue, hserver, hflow, hsent]
    exact hs.queued
  · rw [hqueue]
    exact hs.once
  · rw [hqueue, hserver, hflow, hsent]
    obtain ⟨_, he⟩ | ⟨_, hq⟩ := hm.at_cases hq
    · cases he
      exact absurd rfl (hy c rets)
    · exact hs.receiving q job' c rets hq
  · rw [hserver, hflow, hsent]
    exact hs.fresh
  · rw [hserver]
    exact hs.inbox_keep hm (hinbox q (c, bs) hbs)

omit [DecidableEq φ] in
/-- A server takes bytes that no other server and no queue accounts for. -/
theorem Kept.drain (hs : Kept m s) (hm : Moved s t p job y) {type : SockType} {path : List UInt8}
    {c : ι} {rets : List (List UInt8)} {k : Nat}
    (here : s.procs p = some ⟨.recvData type path, .recv c rets⟩)
    (hqueue : t.queue = s.queue) (hserver : t.server = s.server)
    (hflow : t.flow = Function.update s.flow c ((s.flow c).drop k)) (hsent : t.sent = s.sent)
    (hinbox : t.inbox = s.inbox)
    (hy : ∀ c' rets', y = .recv c' rets' → c' = c ∧ s.sent c = rets'.flatten ++ (s.flow c).drop k ∧
      ∀ bs ∈ rets', bs ≠ []) : Kept m t := by
  obtain ⟨hlink, hout, _, _⟩ := hs.receiving p _ c rets here
  have hother (c' : ι) (hc : c' ≠ c) : t.flow c' = s.flow c' := by
    rw [hflow, Function.update_of_ne hc]
  refine ⟨fun q c' hc => ?_, ?_, fun q job' c' rets' hq => ?_, fun c' hc => ?_,
    fun q c' bs hbs => ?_⟩
  · rw [hqueue] at hc
    obtain ⟨hs', hf⟩ := hs.queued q c' hc
    have hne : c' ≠ c := by
      rintro rfl
      cases hlink.symm.trans hs'
      exact hout hc
    rw [hserver, hother c' hne, hsent]
    exact ⟨hs', hf⟩
  · rw [hqueue]
    exact hs.once
  · obtain ⟨rfl, he⟩ | ⟨hqp, hq⟩ := hm.at_cases hq
    · cases he
      obtain ⟨rfl, hall, hne⟩ := hy c' rets' rfl
      rw [hserver, hqueue, hsent, hflow, Function.update_self]
      exact ⟨hlink, hout, hall, hne⟩
    · obtain ⟨hlink', hout', hall, hne⟩ := hs.receiving q job' c' rets' hq
      have hcc : c' ≠ c := by
        rintro rfl
        exact hqp (Option.some.inj (hlink'.symm.trans hlink))
      rw [hserver, hqueue, hsent, hother c' hcc]
      exact ⟨hlink', hout', hall, hne⟩
  · rw [hserver] at hc
    have hne : c' ≠ c := by
      rintro rfl
      cases hlink.symm.trans hc
    rw [hother c' hne, hsent]
    exact hs.fresh c' hc
  · rw [hinbox] at hbs
    rw [hserver]
    exact hs.inbox_keep hm hbs

theorem Effect.kept (h : Effect m s t p job y) (hs : Kept m s) (hlinked : Linked m s)
    (hplaced : Placed s) : Kept m t := by
  have hm := h.moved
  cases h with
  | begins args idle fits t_eq =>
    subst t_eq
    refine hs.keep hm rfl rfl rfl rfl (fun _ _ => id) fun c rets he => ?_
    generalize main args = job at he
    obtain _ | ⟨type, path⟩ | ⟨_ | _ | _, path, message⟩ := job <;> cases he
  | ends job x y here running point t_eq =>
    subst t_eq
    refine hs.keep hm rfl rfl rfl rfl (fun _ _ => id) fun c rets he => ?_
    obtain rfl | rfl := point <;> cases he
  | binds type path y here unused point t_eq =>
    subst t_eq
    refine hs.keep hm rfl rfl rfl rfl (fun _ _ => id) fun c rets he => ?_
    obtain ⟨_, rfl⟩ | ⟨_, rfl⟩ := point <;> cases he
  | listens type path here t_eq =>
    subst t_eq
    exact hs.keep hm rfl rfl rfl rfl (fun _ _ => id) fun _ _ he => by cases he
  | accepts type path c rest here waiting t_eq =>
    have hmem : c ∈ s.queue p := waiting ▸ List.mem_cons_self
    obtain ⟨hserver, hflow⟩ := hs.queued p c hmem
    have honce := hs.once p
    rw [waiting, List.nodup_cons] at honce
    have hsub (q c' : ι) (hc : c' ∈ Function.update s.queue p rest q) : c' ∈ s.queue q := by
      by_cases hqp : q = p
      · subst hqp
        rw [Function.update_self] at hc
        exact waiting ▸ List.mem_cons_of_mem c hc
      · rwa [Function.update_of_ne hqp] at hc
    subst t_eq
    refine ⟨fun q c' hc => hs.queued q c' (hsub q c' hc), fun q => ?_, fun q job' c' rets hq => ?_,
      hs.fresh, fun q c' bs hbs => hs.inbox_keep hm hbs⟩
    · by_cases hqp : q = p
      · subst hqp
        simpa using honce.2
      · simpa [hqp] using hs.once q
    · obtain ⟨rfl, he⟩ | ⟨_, hq⟩ := hm.at_cases hq
      · cases he
        exact ⟨hserver, by simpa using honce.1, hflow.symm, by simp⟩
      · obtain ⟨hlink, hout, hall, hne⟩ := hs.receiving q job' c' rets hq
        exact ⟨hlink, fun hc => hout (hsub q c' hc), hall, hne⟩
  | receives type path c rets n bs here recv waits t_eq =>
    obtain ⟨_, _, hall, hne⟩ := hs.receiving p _ c rets here
    obtain ⟨_, hjob⟩ := (hplaced p _ here).2
    cases hjob
    subst t_eq
    refine hs.drain hm here rfl rfl rfl rfl rfl fun c' rets' he => ?_
    cases he
    obtain ⟨rfl, _⟩ | ⟨hbs, hflow⟩ := recv_cases recv
    · obtain ⟨r, hr, _⟩ := server_ends hne path (m.stack p)
      cases waits.symm.trans hr
    · refine ⟨rfl, ?_, ?_⟩
      · rw [List.flatten_append, List.flatten_singleton, List.append_assoc, ← hflow]
        exact hall
      · intro bs' hbs'
        obtain hbs' | hbs' := List.mem_append.mp hbs'
        · exact hne bs' hbs'
        · exact List.mem_singleton.mp hbs' ▸ hbs
  | prints type path c rets n bs r here recv done t_eq =>
    subst t_eq
    exact hs.drain hm here rfl rfl rfl rfl rfl fun _ _ he => by cases he
  | hears type path c bs rest r here waiting done t_eq =>
    subst t_eq
    refine hs.keep hm rfl rfl rfl rfl (fun q x hx => ?_) fun _ _ he => by cases he
    by_cases hqp : q = p
    · subst hqp
      simp only [Function.update_self] at hx
      exact waiting ▸ List.mem_cons_of_mem _ hx
    · simpa [State.goto, hqp] using hx
  | connects type path message q here found t_eq =>
    have hnone := hlinked.free here rfl rfl
    have hout (r : ι) : p ∉ s.queue r := fun hp => by cases hnone.symm.trans (hs.queued r p hp).1
    have hserver {c r : ι} (hc : s.server c = some r) := linked_update (q := q) hnone hc
    have hqueue {c r : ι} (hc : c ∈ Function.update s.queue q (s.queue q ++ [p]) r) :
        r = q ∧ c = p ∨ c ∈ s.queue r := by
      by_cases hrq : r = q
      · subst hrq
        simpa [or_comm] using hc
      · rw [Function.update_of_ne hrq] at hc
        exact .inr hc
    subst t_eq
    refine ⟨fun r c hc => ?_, fun r => ?_, fun r job' c rets hr => ?_, fun c hc => ?_,
      fun r c bs hbs => ?_⟩
    · obtain ⟨rfl, rfl⟩ | hc := hqueue hc
      · exact ⟨Function.update_self _ _ _, hs.fresh c hnone⟩
      · obtain ⟨hlink, hflow⟩ := hs.queued r c hc
        exact ⟨hserver hlink, hflow⟩
    · by_cases hrq : r = q
      · subst hrq
        simp only [Function.update_self]
        exact List.nodup_append.mpr ⟨hs.once r, List.nodup_singleton p, fun a ha b hb hab =>
          hout r (List.mem_singleton.mp hb ▸ hab ▸ ha)⟩
      · simpa [State.goto, hrq] using hs.once r
    · obtain ⟨_, he⟩ | ⟨_, hr⟩ := hm.at_cases hr
      · cases he
      · obtain ⟨hlink, hc, hall, hne⟩ := hs.receiving r job' c rets hr
        refine ⟨hserver hlink, fun hmem => ?_, hall, hne⟩
        obtain ⟨_, rfl⟩ | hmem := hqueue hmem
        · cases hnone.symm.trans hlink
        · exact hc hmem
    · by_cases hcp : c = p
      · exact hs.fresh c (hcp ▸ hnone)
      · simp only [Function.update_of_ne hcp] at hc
        exact hs.fresh c hc
    · obtain ⟨hlink, hrest⟩ := hs.inbox_keep hm hbs
      exact ⟨hserver hlink, hrest⟩
  | sends type path message q rets n y here pos fits point t_eq =>
    have hgrow {c : ι} (pre : List UInt8) (hc : s.sent c = pre ++ s.flow c) :
        Function.update s.sent p (s.sent p ++ Bytes.read (m.arg p message) rets.sum n) c =
          pre ++ Function.update s.flow p
            (s.flow p ++ Bytes.read (m.arg p message) rets.sum n) c := by
      by_cases hcp : c = p
      · subst hcp
        rw [Function.update_self, Function.update_self, hc, List.append_assoc]
      · rw [Function.update_of_ne hcp, Function.update_of_ne hcp, hc]
    subst t_eq
    refine ⟨fun r c hc => ?_, hs.once, fun r job' c rets' hr => ?_, fun c hc => ?_,
      fun r c bs hbs => hs.inbox_keep hm hbs⟩
    · obtain ⟨hlink, hflow⟩ := hs.queued r c hc
      exact ⟨hlink, (hgrow [] hflow.symm).symm⟩
    · obtain ⟨_, he⟩ | ⟨_, hr⟩ := hm.at_cases hr
      · obtain ⟨_, rfl⟩ | ⟨r', _, rfl⟩ := point <;> cases he
      · obtain ⟨hlink, hout, hall, hne⟩ := hs.receiving r job' c rets' hr
        exact ⟨hlink, hout, hgrow _ hall, hne⟩
    · exact (hgrow [] (hs.fresh c hc).symm).symm
  | sendsTo type path message q r here found done t_eq =>
    have hnone := hlinked.free here rfl rfl
    have hserver {c r : ι} (hc : s.server c = some r) := linked_update (q := q) hnone hc
    obtain ⟨_, _, hjob⟩ := (hplaced p _ here).2
    cases hjob
    cases done
    subst t_eq
    refine ⟨fun r c hc => ?_, hs.once, fun r job' c rets hr => ?_, fun c hc => ?_,
      fun r c bs hbs => ?_⟩
    · obtain ⟨hlink, hflow⟩ := hs.queued r c hc
      exact ⟨hserver hlink, hflow⟩
    · obtain ⟨_, he⟩ | ⟨_, hr⟩ := hm.at_cases hr
      · cases he
      · obtain ⟨hlink, hrest⟩ := hs.receiving r job' c rets hr
        exact ⟨hserver hlink, hrest⟩
    · by_cases hcp : c = p
      · exact hs.fresh c (hcp ▸ hnone)
      · simp only [Function.update_of_ne hcp] at hc
        exact hs.fresh c hc
    · have hold (hmem : (c, bs) ∈ s.inbox r) := hs.inbox_keep hm hmem
      by_cases hrq : r = q
      · subst hrq
        simp only [Function.update_self] at hbs
        obtain hbs | hbs := List.mem_append.mp hbs
        · exact ⟨hserver (hold hbs).1, (hold hbs).2⟩
        · cases List.mem_singleton.mp hbs
          exact ⟨Function.update_self _ _ _, path, message,
            by rw [hm.procs, Function.update_self], rfl⟩
      · simp only [Function.update_of_ne hrq] at hbs
        exact ⟨hserver (hold hbs).1, (hold hbs).2⟩

end Kept

/-- A client that has ended with the begin of its message told, and all of its first eight
bytes if it reports success. -/
def Told (s : State ι φ) (c : ι) (d : List UInt8) : Prop :=
  ∃ type path message x, s.procs c = some ⟨.sendData type path message, x⟩ ∧ x.ended ∧
    d <+: message.take sizeofPointer ∧ (x = .exited 0 none → d = message.take sizeofPointer)

/-- A server that has printed something reports success, and has it from its client. -/
def Said (s : State ι φ) : Prop := ∀ q job ret d, s.procs q = some ⟨job, .exited ret (some d)⟩ →
  ret = 0 ∧ ∃ c, s.heard q = some c ∧ s.server c = some q ∧ Told s c d

section Said

variable {m : Machine ι φ} {s t : State ι φ} {p : ι} {job : Job} {y : Point ι}

omit [DecidableEq φ] in
theorem Moved.told (h : Moved s t p job y) {c : ι} {d : List UInt8} (hc : Told s c d) :
    Told t c d := by
  obtain ⟨type, path, message, x, hc, hx, htold⟩ := hc
  exact ⟨type, path, message, x, h.ended hc hx, hx, htold⟩

omit [DecidableEq φ] in
theorem Said.keep (hs : Said s) (hm : Moved s t p job y)
    (hserver : ∀ c q, s.server c = some q → t.server c = some q)
    (hheard : ∀ q, q ≠ p → t.heard q = s.heard q)
    (hy : ∀ ret d, y = .exited ret (some d) →
      ret = 0 ∧ ∃ c, t.heard p = some c ∧ s.server c = some p ∧ Told s c d) : Said t := by
  have htold {q : ι} {ret : Int} {d : List UInt8}
      (h : ret = 0 ∧ ∃ c, t.heard q = some c ∧ s.server c = some q ∧ Told s c d) :
      ret = 0 ∧ ∃ c, t.heard q = some c ∧ t.server c = some q ∧ Told t c d := by
    obtain ⟨hret, c, hq, hc, hd⟩ := h
    exact ⟨hret, c, hq, hserver c q hc, hm.told hd⟩
  intro q job' ret d hq
  obtain ⟨rfl, he⟩ | ⟨hqp, hq⟩ := hm.at_cases hq
  · cases he
    exact htold (hy ret d rfl)
  · refine htold ?_
    rw [hheard q hqp]
    exact hs q job' ret d hq

omit [DecidableEq ι] [DecidableEq φ] in
theorem sent_length (hflows : Flows m s) {c : ι} {path message : List UInt8} {x : Point ι}
    (hc : s.procs c = some ⟨.sendData .sockStream path message, x⟩) :
    (s.sent c).length ≤ sizeofPointer := by
  obtain ⟨k, hk, hsent, _⟩ := hflows.stream c path message x hc
  rwa [hsent, read_length]

omit [DecidableEq ι] [DecidableEq φ] in
/-- What a client that has ended has sent is the begin of its message. -/
theorem told_of_sent (hflows : Flows m s) (hplaced : Placed s) {c : ι} {path message : List UInt8}
    {x : Point ι} (hc : s.procs c = some ⟨.sendData .sockStream path message, x⟩) (hx : x.ended) :
    Told s c ((s.sent c).takeWhile (· ≠ 0)) := by
  obtain ⟨k, hk, hsent, hpoint⟩ := hflows.stream c path message x hc
  have hholds : Holds (m.arg c message) message := strcpy_holds _ (hplaced c _ hc).1.2.2
  have htext : (s.sent c).takeWhile (· ≠ 0) = message.take k := by
    rw [hsent, ← str_eq_takeWhile, hholds.str_take]
  refine ⟨_, path, message, x, hc, hx, ?_, ?_⟩
  · rw [htext]
    exact List.take_prefix_take_left hk
  · rintro rfl
    rw [htext, hpoint rfl]

theorem Effect.said (h : Effect m s t p job y) (hs : Said s) (hkept : Kept m s) (hflows : Flows m s)
    (hlinked : Linked m s) (hplaced : Placed s) : Said t := by
  have hm := h.moved
  cases h with
  | begins args idle fits t_eq =>
    subst t_eq
    refine hs.keep hm (fun _ _ => id) (fun _ _ => rfl) fun ret d he => ?_
    generalize main args = job at he
    obtain _ | ⟨type, path⟩ | ⟨_ | _ | _, path, message⟩ := job <;> cases he
  | ends job x y here running point t_eq =>
    subst t_eq
    refine hs.keep hm (fun _ _ => id) (fun _ _ => rfl) fun ret d he => ?_
    obtain rfl | rfl := point <;> cases he
  | binds type path y here unused point t_eq =>
    subst t_eq
    refine hs.keep hm (fun _ _ => id) (fun _ _ => rfl) fun ret d he => ?_
    obtain ⟨_, rfl⟩ | ⟨_, rfl⟩ := point <;> cases he
  | listens type path here t_eq | accepts type path c rest here waiting t_eq
  | receives type path c rets n bs here recv waits t_eq =>
    subst t_eq
    exact hs.keep hm (fun _ _ => id) (fun _ _ => rfl) fun _ _ he => by cases he
  | sends type path message q rets n y here pos fits point t_eq =>
    subst t_eq
    refine hs.keep hm (fun _ _ => id) (fun _ _ => rfl) fun ret d he => ?_
    obtain ⟨_, rfl⟩ | ⟨r, _, rfl⟩ := point <;> cases he
  | connects type path message q here found t_eq
  | sendsTo type path message q r here found done t_eq =>
    have hnone := hlinked.free here rfl rfl
    subst t_eq
    exact hs.keep hm (fun _ _ => linked_update hnone) (fun _ _ => rfl) fun _ _ he => by cases he
  | prints type path c rets n bs r here recv done t_eq =>
    obtain ⟨hlink, _, hall, hne⟩ := hkept.receiving p _ c rets here
    obtain ⟨_, hjob⟩ := (hplaced p _ here).2
    cases hjob
    obtain ⟨type', path', path'', message, ⟨x, hc⟩, ⟨x', hq⟩, _⟩ := hlinked.peer c p hlink
    cases here.symm.trans hq
    obtain ⟨rfl, hend⟩ | ⟨hbs, _⟩ := recv_cases recv
    · have hshort : rets.flatten.length ≤ sizeofPointer := by
        have hsent := sent_length hflows hc
        rw [hall, List.length_append] at hsent
        omega
      have hroom : rets.flatten.length < BUF_MAX_LEN := hshort.trans_lt (by decide)
      obtain ⟨hflow, hclosed⟩ := hend.resolve_left hroom.ne
      have hx : x.ended := by
        obtain ⟨x', hx', hpoint⟩ := hlinked.begun c p hlink
        cases hc.symm.trans hx'
        have hsends : x.sends = false := by simpa [State.closed, hc] using hclosed
        rw [hsends] at hpoint
        simpa using hpoint
      obtain ⟨r', hr', hret, hsaid⟩ := server_ends hne path (m.stack p)
      obtain rfl := Option.some.inj (hr'.symm.trans done)
      have htold := told_of_sent hflows hplaced hc hx
      rw [hall, hflow, List.append_nil] at htold
      subst t_eq
      refine hs.keep hm (fun _ _ => id) (fun q hq => Function.update_of_ne hq _ _)
        fun ret d he => ?_
      rw [hret, hsaid hroom.le] at he
      cases he
      exact ⟨rfl, c, Function.update_self _ _ _, hlink, htold⟩
    · have hmore : ∀ b ∈ rets ++ [bs], b ≠ [] := by
        intro b hb
        obtain hb | hb := List.mem_append.mp hb
        · exact hne b hb
        · exact List.mem_singleton.mp hb ▸ hbs
      cases done.symm.trans (server_waits hmore path (m.stack p))
  | hears type path c bs rest r here waiting done t_eq =>
    obtain ⟨hlink, path', message, hc, rfl⟩ := hkept.inbox p c bs (waiting ▸ List.mem_cons_self)
    obtain ⟨_, hjob⟩ := (hplaced p _ here).2
    cases hjob
    have hholds : Holds (m.arg c message) message := strcpy_holds _ (hplaced c _ hc).1.2.2
    have htake : (Bytes.read (m.arg c message) 0 sizeofPointer).take BUF_MAX_LEN =
        Bytes.read (m.arg c message) 0 sizeofPointer :=
      List.take_of_length_le (by rw [read_length]; decide)
    have hsaid : r.said = some (message.take sizeofPointer) := by
      rw [htake] at done
      cases done
      have hlen : (Bytes.read (m.arg c message) 0 sizeofPointer).length ≤ BUF_MAX_LEN := by
        rw [read_length]
        decide
      simp only [str_memset_write _ hlen, ← str_eq_takeWhile, hholds.str_take]
    have hret : r.ret = 0 := by
      cases done
      rfl
    subst t_eq
    refine hs.keep hm (fun _ _ => id) (fun q hq => Function.update_of_ne hq _ _) fun ret d he => ?_
    rw [hret, hsaid] at he
    cases he
    exact ⟨rfl, c, Function.update_self _ _ _, hlink, _, path', message, _, hc, rfl,
      List.prefix_refl _, fun _ => rfl⟩

end Said

/-- The invariant of the whole system. -/
structure Sound (m : Machine ι φ) (s : State ι φ) : Prop where
  placed : Placed s
  filed : Filed m s
  linked : Linked m s
  flows : Flows m s
  kept : Kept m s
  said : Said s

section Sound

variable {m : Machine ι φ} {s t : State ι φ}

theorem step_sound {a : Act ι} (hs : Sound m s) (h : step m s a = some t) : Sound m t := by
  obtain ⟨p, job, y, he⟩ := step_effect h
  exact ⟨he.placed hs.placed, he.filed hs.filed, he.linked hs.linked hs.filed hs.placed,
    he.flows hs.flows hs.placed, he.kept hs.kept hs.linked hs.placed,
    he.said hs.said hs.kept hs.flows hs.linked hs.placed⟩

omit [DecidableEq ι] [DecidableEq φ] in
theorem start_sound (exist : φ → Bool) : Sound m (start ι exist) := by
  have hfile (f : φ) (q : ι) : (start ι exist).files f ≠ some (some q) := by
    simp only [start]
    split <;> simp
  refine ⟨?_, ⟨fun f q hq => absurd hq (hfile f q), ?_⟩, ⟨?_, ?_, ?_⟩, ⟨fun _ _ => rfl, ?_⟩,
    ⟨?_, fun _ => List.nodup_nil, ?_, fun _ _ => rfl, ?_⟩, ?_⟩ <;> simp [start, Placed, Said]

/-- Each text that was printed is from one client of the same transport that found the same
file: the first eight bytes of its message, or less of them if it failed. -/
structure Heard (m : Machine ι φ) (s : State ι φ) (q c : ι) (d : List UInt8) : Prop where
  heard : s.heard q = some c
  pair : ∃ type path path' message x, s.procs q = some ⟨.recvData type path, .exited 0 (some d)⟩ ∧
    s.procs c = some ⟨.sendData type path' message, x⟩ ∧
    m.file c (sunPath path') = m.file q (sunPath path) ∧ d <+: message.take sizeofPointer ∧
    (x = .exited 0 none → d = message.take sizeofPointer)

omit [DecidableEq ι] [DecidableEq φ] in
theorem Sound.heard (hs : Sound m s) {q : ι} {job : Job} {ret : Int} {d : List UInt8}
    (hq : s.procs q = some ⟨job, .exited ret (some d)⟩) :
    ∃ c, s.server c = some q ∧ Heard m s q c d := by
  obtain ⟨rfl, c, hheard, hlink, type, path, message, x, hc, _, hpart, hwhole⟩ :=
    hs.said q job ret d hq
  obtain ⟨type', path', path'', message', ⟨x', hc'⟩, ⟨y, hq'⟩, hfile⟩ := hs.linked.peer c q hlink
  cases hc.symm.trans hc'
  cases hq.symm.trans hq'
  exact ⟨c, hlink, hheard, type, path', path, message, x, hq, hc, hfile, hpart, hwhole⟩

theorem texts_heard (m : Machine ι φ) (exist : φ → Bool) :
    Always (step m) (fun s => ∀ q job ret d, s.procs q = some ⟨job, .exited ret (some d)⟩ →
      ∃ c, Heard m s q c d) (start ι exist) := by
  refine .of_invariant (Sound m) (start_sound exist) (fun _ _ _ hs h => step_sound hs h) ?_
  intro s hs q job ret d hq
  obtain ⟨c, _, h⟩ := hs.heard hq
  exact ⟨c, h⟩

/-- A machine on which each path is a file of its own, with cleared memory. -/
def cleared : Machine Bool (List UInt8) := ⟨fun _ path => path, fun _ _ => 0, fun _ _ => 0, 10⟩

/-- A server and a client of the stream type, with the message in two parts. -/
def meeting : List (Act Bool) :=
  let stream := ascii ['s', 't', 'r', 'e', 'a', 'm']
  [.start true [[], ascii ['s'], stream, ascii ['x']], .call true 0, .call true 0,
    .start false [[], ascii ['c'], ascii ['h', 'i'], stream, ascii ['x']], .call false 0,
    .call true 0, .call false 5, .call true 2, .call false 3, .call true 6, .call true 0]

def Point.said : Point ι → Option (List UInt8)
  | .exited _ said => said
  | _ => none

example : ((run (step cleared) (start Bool fun _ => false) meeting).bind fun s =>
    (s.procs true).bind fun x => x.point.said) = some (ascii ['h', 'i']) := by decide

/-- What `q` has printed. -/
def Printed (s : State ι φ) (q : ι) (path : List UInt8) : Prop :=
  ∃ type ret d, s.procs q = some ⟨.recvData type path, .exited ret (some d)⟩

/-- No two servers ever print under one file, and no client is heard by two servers. -/
structure Once (m : Machine ι φ) (s : State ι φ) : Prop where
  file : ∀ q q' path path', Printed s q path → Printed s q' path' →
    m.file q (sunPath path) = m.file q' (sunPath path') → q = q'
  client : ∀ q q' c path path', Printed s q path → Printed s q' path' → s.heard q = some c →
    s.heard q' = some c → q = q'

omit [DecidableEq ι] [DecidableEq φ] in
theorem Sound.once (hs : Sound m s) : Once m s := by
  refine ⟨fun q q' path path' hq hq' hfile => ?_, fun q q' c path path' hq hq' hc hc' => ?_⟩
  · obtain ⟨type, ret, d, hq⟩ := hq
    obtain ⟨type', ret', d', hq'⟩ := hq'
    have hbound := hs.filed.bound q type path _ hq trivial
    have hbound' := hs.filed.bound q' type' path' _ hq' trivial
    rw [hfile, hbound'] at hbound
    exact (Option.some.inj (Option.some.inj hbound)).symm
  · obtain ⟨type, ret, d, hq⟩ := hq
    obtain ⟨type', ret', d', hq'⟩ := hq'
    obtain ⟨r, hlink, hheard⟩ := hs.heard hq
    obtain ⟨r', hlink', hheard'⟩ := hs.heard hq'
    cases hc.symm.trans hheard.heard
    cases hc'.symm.trans hheard'.heard
    exact Option.some.inj (hlink.symm.trans hlink')

theorem files_print_once (m : Machine ι φ) (exist : φ → Bool) :
    Always (step m) (Once m) (start ι exist) :=
  .of_invariant (Sound m) (start_sound exist) (fun _ _ _ hs h => step_sound hs h)
    fun _ hs => hs.once

end Sound

end LinuxExamples.SocketSystem
