import LinuxExamples.Limits
import LinuxExamples.Runs

namespace LinuxExamples.PthreadMutex

open Limits Runs

def PLUS_NUM : Int := 10

/-- The two threads, by the function that each runs. -/
inductive Tid where
  | count | plus
  deriving DecidableEq

instance : Fintype Tid := ⟨{.count, .plus}, fun p => by cases p <;> decide⟩

/-- The next step of a thread: `load` and `store` are the two of its update of `share_memory`,
`next` is the end of an iteration. -/
inductive Point where
  | lock | log | load | store (v : Int32) | unlock | next | ended
  deriving DecidableEq

structure Thread where
  point : Point
  i : Nat
  completed : Nat

/-- The owner of the mutex, and the values that the file shows, latest first. -/
structure State where
  mutex : Option Tid
  shareMemory : Int32
  threads : Tid → Thread
  log : List Int

/-- The test of the loop `for(int i=0; i<n; i++)`. -/
def Thread.test (n : Nat) (th : Thread) : Thread :=
  { th with point := if th.i < n then .lock else .ended }

def State.put (s : State) (p : Tid) (th : Thread) : State :=
  { s with threads := Function.update s.threads p th }

/-- A step of a thread that adds `amount` in each of its `n` iterations. The file is always
opened. An overflow wraps. -/
def body (n : Nat) (amount : Int) (p : Tid) (s : State) : Option State :=
  let th := s.threads p
  match th.point with
  | .lock =>
    if s.mutex = none then some { s.put p { th with point := .log } with mutex := some p } else none
  | .log =>
    some { s.put p { th with point := .load } with log := s.shareMemory.toInt :: s.log }
  | .load => some (s.put p { th with point := .store s.shareMemory })
  | .store v =>
    some { s.put p { th with point := .unlock } with shareMemory := v + .ofInt amount }
  | .unlock =>
    some { s.put p { th with point := .next, completed := th.completed + 1 } with mutex := none }
  | .next => some (s.put p (Thread.test n { th with i := th.i + 1 }))
  | .ended => none

def amount : Tid → Int
  | .count => 1
  | .plus => PLUS_NUM

def bound (A B : Nat) : Tid → Nat
  | .count => A
  | .plus => B

def countShareMemory (A : Nat) : State → Option State := body A 1 .count

def plusShareMemory (B : Nat) : State → Option State := body B PLUS_NUM .plus

def step (A B : Nat) (s : State) : Tid → Option State
  | .count => countShareMemory A s
  | .plus => plusShareMemory B s

def start (A B : Nat) : State :=
  ⟨none, 0, fun p => Thread.test (bound A B p) ⟨.ended, 0, 0⟩, []⟩

def added (threads : Tid → Thread) : Int :=
  (threads .count).completed + PLUS_NUM * (threads .plus).completed

def sections (threads : Tid → Thread) : Nat :=
  (threads .count).completed + (threads .plus).completed

def Ended (s : State) : Prop := ∀ p, (s.threads p).point = .ended

theorem step_eq (A B : Nat) (s : State) (p : Tid) :
    step A B s p = body (bound A B p) (amount p) p s := by
  cases p <;> rfl

def Point.inside : Point → Bool
  | .lock | .next | .ended => false
  | _ => true

structure Counts (n : Nat) (th : Thread) : Prop where
  running : th.point ≠ .ended → th.i < n
  ended : th.point = .ended → th.i = n
  completed : th.completed = th.i + if th.point = .next then 1 else 0

/-- A log of `n` values below `v`, in order and from 0 on. -/
structure Logged (log : List Int) (n : Nat) (v : Int) : Prop where
  length : log.length = n
  ordered : log.Pairwise (· > ·)
  below : ∀ x ∈ log, x < v
  first : ∀ x, log.getLast? = some x → x = 0
  zero : n = 0 → v = 0

/-- The log is right as long as the sum `v` fits in an `int`. -/
def LoggedTo (log : List Int) (n : Nat) (v : Int) : Prop := v ≤ INT_MAX → Logged log n v

/-- How far the owner of the mutex is, when the sections completed are `n` and have added `v`. -/
inductive Section (th : Thread) (amount : Int) (share : Int32) (log : List Int) (n : Nat)
    (v : Int) : Prop where
  | log (point : th.point = .log) (value : share = .ofInt v) (logged : LoggedTo log n v)
  | load (old : List Int) (point : th.point = .load) (value : share = .ofInt v)
      (log : log = share.toInt :: old) (logged : LoggedTo old n v)
  | store (old : List Int) (point : th.point = .store share) (value : share = .ofInt v)
      (log : log = share.toInt :: old) (logged : LoggedTo old n v)
  | unlock (point : th.point = .unlock) (value : share = .ofInt (v + amount))
      (logged : LoggedTo log (n + 1) (v + amount))

inductive Stage (s : State) : Prop where
  | free (mutex : s.mutex = none) (outside : ∀ p, (s.threads p).point.inside = false)
      (value : s.shareMemory = .ofInt (added s.threads))
      (logged : LoggedTo s.log (sections s.threads) (added s.threads))
  | held (p : Tid) (mutex : s.mutex = some p)
      (outside : ∀ q, q ≠ p → (s.threads q).point.inside = false)
      (owner : Section (s.threads p) (amount p) s.shareMemory s.log (sections s.threads)
        (added s.threads))

structure Inv (A B : Nat) (s : State) : Prop where
  counts : ∀ p, Counts (bound A B p) (s.threads p)
  stage : Stage s

theorem test_counts {n : Nat} {th : Thread} (hi : th.i ≤ n) (hc : th.completed = th.i) :
    Counts n (th.test n) := by
  by_cases h : th.i < n
  · refine ⟨fun _ => h, fun he => ?_, ?_⟩
    · simp [Thread.test, h] at he
    · simp [Thread.test, h, hc]
  · have he : th.i = n := by omega
    exact ⟨fun hne => by simp [Thread.test, h] at hne, fun _ => he, by simp [Thread.test, h, hc]⟩

theorem start_inv (A B : Nat) : Inv A B (start A B) := by
  refine ⟨fun p => test_counts (Nat.zero_le _) rfl, .free rfl (fun p => ?_) rfl ?_⟩
  · simp only [start, Thread.test]
    split <;> rfl
  · intro _
    refine ⟨rfl, .nil, ?_, ?_, fun _ => rfl⟩ <;> simp [start]

/-- Storing a greater value makes the logged value an old one. -/
theorem Logged.cons {log : List Int} {n : Nat} {v w : Int} (h : Logged log n v) (hv : v < w) :
    Logged (v :: log) (n + 1) w := by
  refine ⟨by rw [List.length_cons, h.length], List.pairwise_cons.mpr ⟨h.below, h.ordered⟩, ?_, ?_,
    fun hn => absurd hn (Nat.succ_ne_zero n)⟩
  · refine List.forall_mem_cons.mpr ⟨hv, fun x hx => (h.below x hx).trans hv⟩
  · intro x hx
    cases hl : log with
    | nil =>
      have hn : n = 0 := by rw [← h.length, hl, List.length_nil]
      rw [hl, List.getLast?_singleton, Option.some.injEq] at hx
      rw [← hx, h.zero hn]
    | cons y ys =>
      rw [hl, List.getLast?_cons_cons, ← hl] at hx
      exact h.first x hx

theorem added_update {threads : Tid → Thread} {p : Tid} {th : Thread}
    (h : th.completed = (threads p).completed) :
    added (Function.update threads p th) = added threads ∧
      sections (Function.update threads p th) = sections threads := by
  cases p <;> simp [added, sections, h]

theorem added_complete {threads : Tid → Thread} {p : Tid} {th : Thread}
    (h : th.completed = (threads p).completed + 1) :
    added (Function.update threads p th) = added threads + amount p ∧
      sections (Function.update threads p th) = sections threads + 1 := by
  cases p with
  | count =>
    simp only [added, sections, Function.update_self, ne_eq, reduceCtorEq, not_false_eq_true,
      Function.update_of_ne, h, amount]
    push_cast
    constructor <;> ring
  | plus =>
    simp only [added, sections, Function.update_self, ne_eq, reduceCtorEq, not_false_eq_true,
      Function.update_of_ne, h, amount]
    push_cast
    constructor <;> ring

theorem added_nonneg (threads : Tid → Thread) : 0 ≤ added threads := by
  simp only [added, PLUS_NUM]
  omega

theorem Counts.move {n : Nat} {th : Thread} (h : Counts n th) {x : Point}
    (hp : th.point ≠ .ended ∧ th.point ≠ .next) (hx : x ≠ .ended ∧ x ≠ .next) :
    Counts n { th with point := x } := by
  refine ⟨fun _ => h.running hp.1, fun he => absurd he hx.1, ?_⟩
  have hc := h.completed
  simpa only [hp.2, hx.2, ↓reduceIte] using hc

theorem amount_pos (p : Tid) : 0 < amount p := by
  cases p <;> decide

/-- The thread that is inside its section owns the mutex. -/
theorem Stage.owner {s : State} {p : Tid} (h : Stage s) (hp : (s.threads p).point.inside = true) :
    s.mutex = some p ∧ (∀ q, q ≠ p → (s.threads q).point.inside = false) ∧
      Section (s.threads p) (amount p) s.shareMemory s.log (sections s.threads)
        (added s.threads) := by
  cases h with
  | free _ hout _ _ =>
    rw [hout p] at hp
    cases hp
  | held q hm hout hs =>
    by_cases hpq : p = q
    · subst hpq
      exact ⟨hm, hout, hs⟩
    · rw [hout p hpq] at hp
      cases hp

theorem counts_update {A B : Nat} {s : State} (h : Inv A B s) {p : Tid} {th : Thread}
    (hth : Counts (bound A B p) th) :
    ∀ q, Counts (bound A B q) (Function.update s.threads p th q) :=
  (Function.forall_update_iff s.threads fun q th => Counts (bound A B q) th).mpr
    ⟨hth, fun q _ => h.counts q⟩

/-- What a step of `p` has to show that leaves the mutex with `p`. -/
theorem Inv.held {A B : Nat} {s t : State} {p : Tid} {th : Thread} (h : Inv A B s)
    (ht : t.threads = Function.update s.threads p th) (hth : Counts (bound A B p) th)
    (hc : th.completed = (s.threads p).completed) (hm : t.mutex = some p)
    (hout : ∀ q, q ≠ p → (s.threads q).point.inside = false)
    (hs : Section th (amount p) t.shareMemory t.log (sections s.threads) (added s.threads)) :
    Inv A B t := by
  obtain ⟨ha, hn⟩ := added_update hc
  refine ⟨?_, .held p hm (fun q hq => ?_) ?_⟩
  · rw [ht]
    exact counts_update h hth
  · rw [ht, Function.update_of_ne hq]
    exact hout q hq
  · rwa [ht, Function.update_self, ha, hn]

/-- A section that adds to a value which still fits logs the value before. -/
theorem LoggedTo.cons {log : List Int} {n : Nat} {v w : Int} (h : LoggedTo log n v) (hv : 0 ≤ v)
    (hw : v < w) : LoggedTo ((Int32.ofInt v).toInt :: log) (n + 1) w := by
  intro hle
  have hfits : v ≤ INT_MAX := hw.le.trans hle
  rw [toInt_ofInt_of_le hv hfits]
  exact (h hfits).cons hw

theorem lock_keeps {A B : Nat} {s t : State} {p : Tid} (h : Inv A B s)
    (hp : (s.threads p).point = .lock) (ht : step A B s p = some t) : Inv A B t := by
  rw [step_eq] at ht
  simp only [body, hp] at ht
  split at ht
  · rename_i hm
    cases ht
    have hc := (h.counts p).move (x := .log) (by simp [hp]) (by simp)
    cases h.stage with
    | held q hq => simp [hq] at hm
    | free _ hout hv hl => exact h.held rfl hc rfl rfl (fun q _ => hout q) (.log rfl hv hl)
  · cases ht

theorem section_keeps {A B : Nat} {s t : State} {p : Tid} (h : Inv A B s)
    (hp : (s.threads p).point.inside = true) (ht : step A B s p = some t) : Inv A B t := by
  obtain ⟨hm, hout, hs⟩ := h.stage.owner hp
  have hc (x : Point) := (h.counts p).move (x := x)
    (by constructor <;> intro he <;> simp [he, Point.inside] at hp)
  rw [step_eq] at ht
  cases hs with
  | log hpt hv hl =>
    simp only [body, hpt] at ht
    cases ht
    exact h.held rfl (hc .load (by simp)) rfl hm hout (.load s.log rfl hv rfl hl)
  | load old hpt hv hl hold =>
    simp only [body, hpt] at ht
    cases ht
    exact h.held rfl (hc (.store s.shareMemory) (by simp)) rfl hm hout (.store old rfl hv hl hold)
  | store old hpt hv hl hold =>
    simp only [body, hpt] at ht
    cases ht
    have hlt : added s.threads < added s.threads + amount p :=
      Int.lt_add_of_pos_right _ (amount_pos p)
    have hvalue : s.shareMemory + .ofInt (amount p) = .ofInt (added s.threads + amount p) := by
      rw [hv, Int32.ofInt_add]
    refine h.held rfl (hc .unlock (by simp)) rfl hm hout (.unlock rfl hvalue ?_)
    rw [State.put, hl, hv]
    exact hold.cons (added_nonneg _) hlt
  | unlock hpt hv hl =>
    simp only [body, hpt] at ht
    cases ht
    have hn := h.counts p
    let th : Thread :=
      { s.threads p with point := .next, completed := (s.threads p).completed + 1 }
    have hth : th.completed = (s.threads p).completed + 1 := rfl
    obtain ⟨ha, hs⟩ := added_complete hth
    refine ⟨counts_update h ⟨fun _ => hn.running (by simp [hpt]), (fun he => nomatch he), ?_⟩,
      .free rfl ?_ (hv.trans (congrArg Int32.ofInt ha.symm)) ?_⟩
    · have hi := hn.completed
      simp only [hpt, reduceCtorEq, ↓reduceIte] at hi ⊢
      omega
    · apply (Function.forall_update_iff s.threads fun _ th => th.point.inside = false).mpr
      exact ⟨rfl, hout⟩
    · change LoggedTo s.log (sections (Function.update s.threads p th))
        (added (Function.update s.threads p th))
      rw [hs, ha]
      exact hl

theorem test_outside (n : Nat) (th : Thread) : (th.test n).point.inside = false := by
  simp only [Thread.test]
  split <;> rfl

/-- The end of an iteration concerns the loop counter only. -/
theorem next_cases {A B : Nat} {s t : State} {p : Tid} (h : Inv A B s)
    (hp : (s.threads p).point = .next) (ht : step A B s p = some t) :
    ∃ th, Counts (bound A B p) th ∧ th.completed = (s.threads p).completed ∧
      th.point.inside = false ∧ t = s.put p th := by
  rw [step_eq] at ht
  simp only [body, hp] at ht
  cases ht
  have hi := (h.counts p).running (by simp [hp])
  have hc := (h.counts p).completed
  rw [hp, if_pos rfl] at hc
  refine ⟨_, test_counts ?_ ?_, ?_, test_outside _ _, rfl⟩
  · exact hi
  · exact hc
  · rfl

theorem next_keeps {A B : Nat} {s t : State} {p : Tid} (h : Inv A B s)
    (hp : (s.threads p).point = .next) (ht : step A B s p = some t) : Inv A B t := by
  obtain ⟨th, hth, hc, hin, rfl⟩ := next_cases h hp ht
  obtain ⟨ha, hn⟩ := added_update hc
  refine ⟨counts_update h hth, ?_⟩
  cases h.stage with
  | free hm hout hv hl =>
    refine .free hm ?_ (hv.trans (congrArg Int32.ofInt ha.symm)) ?_
    · apply (Function.forall_update_iff s.threads fun _ th => th.point.inside = false).mpr
      exact ⟨hin, fun q _ => hout q⟩
    · rw [State.put, hn, ha]
      exact hl
  | held q hm hout hs =>
    have hq : q ≠ p := by
      rintro rfl
      cases hs with
      | log hpt | load _ hpt | store _ hpt | unlock hpt =>
        rw [hp] at hpt
        cases hpt
    refine .held q hm ?_ ?_
    · apply (Function.forall_update_iff s.threads fun r th => r ≠ q → th.point.inside = false).mpr
      exact ⟨fun _ => hin, fun r _ => hout r⟩
    · have hq' : (s.put p th).threads q = s.threads q := Function.update_of_ne hq _ _
      rw [hq', State.put, ha, hn]
      exact hs

theorem step_keeps {A B : Nat} (s : State) (p : Tid) (t : State) (h : Inv A B s)
    (ht : step A B s p = some t) : Inv A B t := by
  cases hp : (s.threads p).point with
  | lock => exact lock_keeps h hp ht
  | log | load | store v | unlock => exact section_keeps h (by rw [hp]; rfl) ht
  | next => exact next_keeps h hp ht
  | ended =>
    rw [step_eq] at ht
    simp only [body, hp] at ht
    cases ht

theorem Counts.completed_le {n : Nat} {th : Thread} (h : Counts n th) : th.completed ≤ n := by
  have hc := h.completed
  by_cases he : th.point = .ended
  · have hi := h.ended he
    rw [he] at hc
    simp only [reduceCtorEq, ↓reduceIte] at hc
    omega
  · have hi := h.running he
    split at hc <;> omega

theorem Inv.added_le {A B : Nat} {s : State} (h : Inv A B s) :
    added s.threads ≤ A + PLUS_NUM * B := by
  have hcount := (h.counts .count).completed_le
  have hplus := (h.counts .plus).completed_le
  simp only [bound] at hcount hplus
  simp only [added, PLUS_NUM]
  omega

/-- The section that is under way is one of the iterations. -/
theorem Inv.section_le {A B : Nat} {s : State} {p : Tid} (h : Inv A B s)
    (hp : (s.threads p).point.inside = true) :
    added s.threads + amount p ≤ A + PLUS_NUM * B := by
  have hlt : (s.threads p).completed < bound A B p := by
    have hc := (h.counts p).completed
    have hi := (h.counts p).running fun he => by simp [he, Point.inside] at hp
    have hne : (s.threads p).point ≠ .next := fun he => by simp [he, Point.inside] at hp
    rw [if_neg hne] at hc
    omega
  have hcount := (h.counts .count).completed_le
  have hplus := (h.counts .plus).completed_le
  simp only [bound] at hcount hplus
  cases p <;> simp only [bound, amount, added, PLUS_NUM] at hlt ⊢ <;> omega

theorem Inv.ordered {A B : Nat} {s : State} (h : Inv A B s) (hAB : A + PLUS_NUM * B ≤ INT_MAX) :
    s.log.Pairwise (· > ·) ∧ ∀ x, s.log.getLast? = some x → x = 0 := by
  have hle := h.added_le.trans hAB
  cases h.stage with
  | free _ _ _ hl => exact ⟨(hl hle).ordered, (hl hle).first⟩
  | held p _ _ hs =>
    cases hs with
    | log _ _ hl => exact ⟨(hl hle).ordered, (hl hle).first⟩
    | unlock hpt _ hl =>
      have hfits := (h.section_le (by rw [hpt]; rfl)).trans hAB
      exact ⟨(hl hfits).ordered, (hl hfits).first⟩
    | load old hpt hv hlog hl | store old hpt hv hlog hl =>
      have hfits := (h.section_le (by rw [hpt]; rfl)).trans hAB
      have hlt := Int.lt_add_of_pos_right (added s.threads) (amount_pos p)
      have hc := hl.cons (added_nonneg s.threads) hlt hfits
      rw [hlog, hv]
      exact ⟨hc.ordered, hc.first⟩

/-- Behind the last sections nobody holds the mutex. -/
theorem Inv.finished {A B : Nat} {s : State} (h : Inv A B s) (hend : Ended s) :
    added s.threads = A + PLUS_NUM * B ∧ s.mutex = none ∧
      LoggedTo s.log (A + B) (added s.threads) := by
  have hc (p : Tid) : (s.threads p).completed = bound A B p := by
    have hcount := h.counts p
    simpa [hend p, hcount.ended (hend p)] using hcount.completed
  cases h.stage with
  | held p _ _ hs =>
    cases hs with
    | log hpt | load _ hpt | store _ hpt | unlock hpt =>
      rw [hend p] at hpt
      cases hpt
  | free hm _ _ hl =>
    rw [sections, hc, hc] at hl
    exact ⟨by rw [added, hc, hc]; rfl, hm, hl⟩

def Point.rank : Point → Nat
  | .lock => 6
  | .log => 5
  | .load => 4
  | .store _ => 3
  | .unlock => 2
  | .next => 1
  | .ended => 0

def remaining (n : Nat) (th : Thread) : Nat := 7 * (n - th.i) + th.point.rank

theorem goes {A B : Nat} {s : State} {p : Tid} (h : Inv A B s)
    (hp : (s.threads p).point ≠ .ended) (hlock : (s.threads p).point = .lock → s.mutex = none) :
    ∃ t th, step A B s p = some t ∧ t.threads = Function.update s.threads p th ∧
      remaining (bound A B p) th < remaining (bound A B p) (s.threads p) := by
  rw [step_eq]
  cases hpt : (s.threads p).point with
  | lock =>
    simp only [body, hpt, hlock hpt, ↓reduceIte]
    refine ⟨_, _, rfl, rfl, ?_⟩
    simp [remaining, hpt, Point.rank]
  | log | load | store | unlock =>
    simp only [body, hpt]
    refine ⟨_, _, rfl, rfl, ?_⟩
    simp [remaining, hpt, Point.rank]
  | next =>
    simp only [body, hpt]
    refine ⟨_, _, rfl, rfl, ?_⟩
    have hi := (h.counts p).running hp
    by_cases hlt : (s.threads p).i + 1 < bound A B p <;>
      simp only [remaining, Thread.test, hpt, Point.rank, hlt, ↓reduceIte] <;> omega
  | ended => exact absurd hpt hp

/-- The threads can always run to their end. -/
theorem Inv.ends {A B : Nat} {s : State} (hs : Inv A B s) :
    ∃ u, Reaches (step A B) free s u ∧ Ended u := by
  apply reaches_of_measure_inv (fun s => ∑ p, remaining (bound A B p) (s.threads p)) _ s hs
  intro s hi hne
  have hgo : ∃ p, (s.threads p).point ≠ .ended ∧
      ((s.threads p).point = .lock → s.mutex = none) := by
    cases hi.stage with
    | free hm _ _ _ =>
      obtain ⟨p, hp⟩ := not_forall.mp hne
      exact ⟨p, hp, fun _ => hm⟩
    | held p _ _ hsec =>
      cases hsec with
      | log hpt | load _ hpt | store _ hpt | unlock hpt => exact ⟨p, by simp [hpt], by simp [hpt]⟩
  obtain ⟨p, hp, hlock⟩ := hgo
  obtain ⟨t, th, ht, hth, hlt⟩ := goes hi hp hlock
  refine ⟨p, t, ht, step_keeps s p t hi ht, sum_lt_of_one (p := p) ?_ fun q hq => ?_⟩
  · rwa [hth, Function.update_self]
  · rw [hth, Function.update_of_ne hq]

end LinuxExamples.PthreadMutex
