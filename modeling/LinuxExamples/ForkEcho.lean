import LinuxExamples.Runs

namespace LinuxExamples.ForkEcho

open Runs

/-- The next system call of a process. `read` and `write` are the two of
`do_echo`; the others are those of the loop in `main`. -/
inductive Point where
  | accept | fork | closeConn | closeListen | read | write (n : Int) | exited
  deriving DecidableEq

/-- A process: its program point, whether its listening descriptor is open,
and the value of the variable `c_socket`. -/
structure Proc where
  pc : Point
  sSocket : Bool
  cSocket : Int
  deriving DecidableEq

inductive Event where
  | accept (ret : Int) | fork (ret : Int) | echoReturned
  deriving DecidableEq

/-- All processes in order of creation, the original one first, and the calls
they have made, latest first. -/
structure Server where
  procs : List Proc
  calls : List (Nat × Event)
  deriving DecidableEq

/-- The state after `listen`. The variable `c_socket` is not initialised. -/
def start (junk : Int) : Server := ⟨[⟨.accept, true, junk⟩], []⟩

def AcceptReturns (p : Proc) (r : Int) : Prop := r = -1 ∨ (p.sSocket = true ∧ 0 ≤ r)

def ReadReturns (BUFSIZ : Nat) (p : Proc) (r : Int) : Prop :=
  r = -1 ∨ (p.cSocket ≠ -1 ∧ 0 ≤ r ∧ r ≤ BUFSIZ)

instance (p : Proc) (r : Int) : Decidable (AcceptReturns p r) :=
  inferInstanceAs (Decidable (_ ∨ _))

instance (BUFSIZ : Nat) (p : Proc) (r : Int) : Decidable (ReadReturns BUFSIZ p r) :=
  inferInstanceAs (Decidable (_ ∨ _))

def Server.put (s : Server) (i : Nat) (p : Proc) : Server := { s with procs := s.procs.set i p }

def Server.log (s : Server) (i : Nat) (e : Event) : Server := { s with calls := (i, e) :: s.calls }

/-- Process `i` makes its next system call, which returns `r` to it. A
successful `fork` leaves a copy that sees the result 0 and closes its
listening descriptor. When the `read` of `do_echo` returns 0 the loop of
`main` goes on. -/
def call (BUFSIZ : Nat) (s : Server) (i : Nat) (p : Proc) (r : Int) : Option Server :=
  match p.pc with
  | .accept =>
    if AcceptReturns p r then
      some ((s.put i { p with pc := .fork, cSocket := r }).log i (.accept r))
    else none
  | .fork =>
    if r < 0 then some ((s.put i { p with pc := .exited }).log i (.fork r))
    else if 0 < r then
      some ⟨s.procs.set i { p with pc := .closeConn } ++ [{ p with pc := .closeListen }],
        (i, .fork r) :: s.calls⟩
    else none
  | .closeConn => some (s.put i { p with pc := .accept })
  | .closeListen => some (s.put i { p with pc := .read, sSocket := false })
  | .read =>
    if ReadReturns BUFSIZ p r then
      if r ≠ 0 then some (s.put i { p with pc := .write r })
      else some ((s.put i { p with pc := .accept }).log i .echoReturned)
    else none
  | .write _ => some (s.put i { p with pc := .read })
  | .exited => none

/-- An action picks a process and what the kernel returns to its next call. -/
def step (BUFSIZ : Nat) (s : Server) (a : Nat × Int) : Option Server :=
  s.procs[a.1]?.bind fun p => call BUFSIZ s a.1 p a.2

def Event.accepted : Event → Bool
  | .accept r => r != -1
  | _ => false

def Event.forked : Event → Bool
  | .fork r => decide (0 < r)
  | _ => false

def accepts (cs : List (Nat × Event)) : Nat := cs.countP fun c => c.2.accepted

def forks (cs : List (Nat × Event)) : Nat := cs.countP fun c => c.2.forked

/-- One process accepts and forks, at most one child for each connection. -/
structure Contract (s : Server) : Prop where
  onlyOriginal : ∀ c ∈ s.calls, c.2 ≠ .echoReturned → c.1 = 0
  bounded : forks s.calls ≤ accepts s.calls
  quietAfterEcho : ∀ later i earlier, s.calls = later ++ (i, .echoReturned) :: earlier →
    i ≠ 0 → ∀ c ∈ later, c.1 = i → c.2 = .echoReturned

/-- No child is forked for a failed `accept`, and no client closes its connection. -/
def Guarded (s : Server) (a : Nat × Int) : Prop :=
  ∀ p, s.procs[a.1]? = some p →
    (p.pc = .fork → p.cSocket = -1 → a.2 < 0) ∧ (p.pc = .read → a.2 ≠ 0)

def Point.inEcho : Point → Bool
  | .closeListen | .read | .write _ => true
  | _ => false

/-- How the calls so far relate to where the original process is. -/
def Balanced (p : Proc) (cs : List (Nat × Event)) : Prop :=
  match p.pc with
  | .accept | .closeConn => accepts cs = forks cs
  | .fork => accepts cs = forks cs + (if p.cSocket = -1 then 0 else 1)
  | .exited => forks cs ≤ accepts cs
  | _ => False

structure Inv (s : Server) : Prop where
  procs : ∃ p rest, s.procs = p :: rest ∧ Balanced p s.calls ∧ ∀ q ∈ rest, q.pc.inEcho = true
  calls : ∀ c ∈ s.calls, c.1 = 0 ∧ c.2 ≠ .echoReturned

theorem start_inv (junk : Int) : Inv (start junk) :=
  ⟨⟨_, [], rfl, rfl, by simp⟩, by simp [start]⟩

@[simp] theorem accepts_cons (i : Nat) (e : Event) (cs : List (Nat × Event)) :
    accepts ((i, e) :: cs) = accepts cs + if e.accepted then 1 else 0 := by
  simp [accepts, List.countP_cons]

@[simp] theorem forks_cons (i : Nat) (e : Event) (cs : List (Nat × Event)) :
    forks ((i, e) :: cs) = forks cs + if e.forked then 1 else 0 := by
  simp [forks, List.countP_cons]

theorem Balanced.bounded {p : Proc} {cs : List (Nat × Event)} (h : Balanced p cs) :
    forks cs ≤ accepts cs := by
  unfold Balanced at h
  split at h
  · exact h.ge
  · exact h.ge
  · omega
  · exact h
  · exact h.elim

theorem Inv.contract {s : Server} (h : Inv s) : Contract s := by
  obtain ⟨p, rest, _, hb, _⟩ := h.procs
  refine ⟨fun c hc _ => (h.calls c hc).1, hb.bounded, fun later i earlier he _ _ _ _ => ?_⟩
  exact absurd rfl (h.calls (i, .echoReturned) (by simp [he])).2

/-- The original process goes round its loop; what it adds are its children. -/
theorem original_keeps (BUFSIZ : Nat) {s t : Server} {p : Proc} {rest : List Proc} {r : Int}
    (hs : s.procs = p :: rest) (hb : Balanced p s.calls) (hrest : ∀ q ∈ rest, q.pc.inEcho = true)
    (hc : ∀ c ∈ s.calls, c.1 = 0 ∧ c.2 ≠ .echoReturned)
    (hok : p.pc = .fork → p.cSocket = -1 → r < 0)
    (ht : call BUFSIZ s 0 p r = some t) : Inv t := by
  obtain ⟨procs, calls⟩ := s
  obtain ⟨pc, sSocket, cSocket⟩ := p
  dsimp only at hs hb hc hok
  subst hs
  cases pc with
  | accept =>
    simp only [call] at ht
    split at ht
    · cases ht
      refine ⟨⟨_, rest, rfl, ?_, hrest⟩, ?_⟩
      · simp only [Balanced] at hb
        by_cases hr : r = -1 <;> simp [Balanced, Server.log, Server.put, Event.accepted,
          Event.forked, hb, hr]
      · simpa [Server.log, Server.put] using hc
    · cases ht
  | fork =>
    simp only [call] at ht
    simp only [Balanced] at hb
    split at ht
    · rename_i hr
      cases ht
      refine ⟨⟨_, rest, rfl, ?_, hrest⟩, by simpa [Server.log, Server.put] using hc⟩
      have hf : ¬ 0 < r := by omega
      simp [Balanced, Server.log, Server.put, Event.accepted, Event.forked, hb, hf]
    · rename_i hr
      split at ht
      · rename_i hp
        cases ht
        have hconn : cSocket ≠ -1 := fun h => hr (hok rfl h)
        refine ⟨⟨_, _, rfl, ?_, ?_⟩, by simpa using hc⟩
        · simp [Balanced, Event.accepted, Event.forked, hb, hconn, hp]
        · simpa [Point.inEcho, or_imp, forall_and] using hrest
      · cases ht
  | closeConn =>
    cases ht
    exact ⟨⟨_, rest, rfl, hb, hrest⟩, hc⟩
  | closeListen | read | write => exact hb.elim
  | exited => cases ht

/-- A child stays inside `do_echo` as long as its client does not close. -/
theorem child_keeps (BUFSIZ : Nat) {s t : Server} {p q : Proc} {rest : List Proc} {k : Nat}
    {r : Int} (hs : s.procs = p :: rest) (hb : Balanced p s.calls)
    (hrest : ∀ q ∈ rest, q.pc.inEcho = true)
    (hc : ∀ c ∈ s.calls, c.1 = 0 ∧ c.2 ≠ .echoReturned)
    (hq : rest[k]? = some q) (hok : q.pc = .read → r ≠ 0)
    (ht : call BUFSIZ s (k + 1) q r = some t) : Inv t := by
  have hset : ∀ q' : Proc, q'.pc.inEcho = true → ∀ x ∈ rest.set k q', x.pc.inEcho = true := by
    intro q' hq' x hx
    obtain hx | rfl := List.mem_or_eq_of_mem_set hx
    · exact hrest x hx
    · exact hq'
  have hput : ∀ q' : Proc, q'.pc.inEcho = true → Inv (s.put (k + 1) q') := fun q' hq' =>
    ⟨⟨p, rest.set k q', by simp [Server.put, hs], hb, hset q' hq'⟩, hc⟩
  have hin := hrest q (List.mem_of_getElem? hq)
  obtain ⟨pc, sSocket, cSocket⟩ := q
  cases pc with
  | accept | fork | closeConn | exited => cases hin
  | closeListen | write =>
    cases ht
    exact hput _ rfl
  | read =>
    simp only [call, ne_eq, hok rfl, not_false_eq_true, ↓reduceIte] at ht
    split at ht
    · cases ht
      exact hput _ rfl
    · cases ht

theorem step_keeps (BUFSIZ : Nat) (s : Server) (a : Nat × Int) (t : Server) (hi : Inv s)
    (hok : Guarded s a) (ht : step BUFSIZ s a = some t) : Inv t := by
  obtain ⟨i, r⟩ := a
  obtain ⟨p, rest, hs, hb, hrest⟩ := hi.procs
  obtain ⟨q, hq, hcall⟩ := Option.bind_eq_some_iff.mp ht
  obtain ⟨hfork, hread⟩ := hok q hq
  cases i with
  | zero =>
    have hpq : p = q := by simpa [hs] using hq
    subst hpq
    exact original_keeps BUFSIZ hs hb hrest hi.calls hfork hcall
  | succ k =>
    have hk : rest[k]? = some q := by simpa [hs] using hq
    exact child_keeps BUFSIZ hs hb hrest hi.calls hk hread hcall

/-- A child forked for a failed `accept` is one more than the connections. -/
theorem orphan_breaks (BUFSIZ : Nat) {s t : Server} {p : Proc} {r : Int} (hb : Balanced p s.calls)
    (hp : p.pc = .fork) (hconn : p.cSocket = -1) (hr : ¬ r < 0)
    (ht : call BUFSIZ s 0 p r = some t) : ¬ Contract t := by
  simp only [Balanced, hp, hconn, ↓reduceIte, Nat.add_zero] at hb
  simp only [call, hp, hr, ↓reduceIte] at ht
  split at ht
  · rename_i hpos
    cases ht
    intro h
    have hle := h.bounded
    simp [Event.accepted, Event.forked, hpos, hb] at hle
  · cases ht

/-- A child whose client has closed calls `accept` next. -/
theorem return_breaks (BUFSIZ : Nat) {s t : Server} {k : Nat} {q : Proc}
    (hq : s.procs[k + 1]? = some q) (hp : q.pc = .read)
    (ht : call BUFSIZ s (k + 1) q 0 = some t) :
    ∃ u, Reaches (step BUFSIZ) free t u ∧ ¬ Contract u := by
  simp only [call, hp, ne_eq, not_true_eq_false, ↓reduceIte] at ht
  split at ht
  · cases ht
    obtain ⟨hk, _⟩ := List.getElem?_eq_some_iff.mp hq
    have hstep : step BUFSIZ ((s.put (k + 1) { q with pc := .accept }).log (k + 1) .echoReturned)
        (k + 1, -1) = some (((s.put (k + 1) { q with pc := .fork, cSocket := -1 }).log (k + 1)
          .echoReturned).log (k + 1) (.accept (-1))) := by
      simp [step, call, AcceptReturns, Server.put, Server.log, List.getElem?_set_self hk]
    refine ⟨_, .single trivial hstep, fun h => ?_⟩
    have h0 := h.onlyOriginal (k + 1, .accept (-1)) (by simp [Server.log]) (by simp)
    exact Nat.succ_ne_zero k h0
  · cases ht

theorem unguarded_breaks (BUFSIZ : Nat) {s t : Server} {a : Nat × Int} (hi : Inv s)
    (ht : step BUFSIZ s a = some t) (ha : ¬ Guarded s a) :
    ∃ u, Reaches (step BUFSIZ) free t u ∧ ¬ Contract u := by
  obtain ⟨i, r⟩ := a
  obtain ⟨p, rest, hs, hb, hrest⟩ := hi.procs
  obtain ⟨q, hq, hcall⟩ := Option.bind_eq_some_iff.mp ht
  have hbad : (q.pc = .fork ∧ q.cSocket = -1 ∧ ¬ r < 0) ∨ (q.pc = .read ∧ r = 0) := by
    by_contra hn
    push Not at hn
    refine ha fun x hx => ?_
    obtain rfl : q = x := Option.some_injective _ (hq.symm.trans hx)
    exact hn
  cases i with
  | zero =>
    have hpq : p = q := by simpa [hs] using hq
    subst hpq
    obtain ⟨hp, hconn, hr⟩ | ⟨hp, _⟩ := hbad
    · exact ⟨t, .refl t, orphan_breaks BUFSIZ hb hp hconn hr hcall⟩
    · simp [Balanced, hp] at hb
  | succ k =>
    have hin : q.pc.inEcho = true := hrest q (List.mem_of_getElem? (by simpa [hs] using hq))
    obtain ⟨hp, _⟩ | ⟨hp, hr⟩ := hbad
    · simp [hp, Point.inEcho] at hin
    · subst hr
      exact return_breaks BUFSIZ hq hp hcall

/-- The server keeps its contract in every run without an orphaned fork and
without a closing client, and the first such event leads to a breach. -/
theorem contract_iff_guarded (BUFSIZ : Nat) (junk : Int) :
    Guards (step BUFSIZ) Guarded Contract (start junk) :=
  .of_invariant Inv (start_inv junk) (step_keeps BUFSIZ) (fun _ h => h.contract)
    fun _ _ _ hi ht ha => unguarded_breaks BUFSIZ hi ht ha

/-- One client connects and closes at once; its child goes on to `accept`. -/
def clientLeaves : List (Nat × Int) := [(0, 4), (0, 100), (1, 0), (1, 0), (1, -1)]

theorem child_accepts : ¬ ∀ s, Reaches (step 8192) free (start 0) s → Contract s := by
  intro h
  have hr : run (step 8192) (start 0) clientLeaves =
      some ⟨[⟨.closeConn, true, 4⟩, ⟨.fork, false, -1⟩],
        [(1, .accept (-1)), (1, .echoReturned), (0, .fork 100), (0, .accept 4)]⟩ := by decide
  have h0 := (h _ (run_reaches hr)).onlyOriginal (1, .accept (-1)) (by simp) (by simp)
  exact absurd h0 (by decide)

end LinuxExamples.ForkEcho
