import LinuxExamples.Limits
import LinuxExamples.Runs

namespace LinuxExamples.UnnamedSemaphore

open Limits Runs

def SEM_NUM : Nat := 5

/-- The shared record; a `sem_t` is its value. -/
structure DataInfo where
  sem : Nat
  pid : Int
  count : Int32
  deriving DecidableEq

/-- The next step of a process that executes `posix_unnamed_get`. The value it
has loaded for `info->count += 1` is not yet stored back. -/
inductive Point where
  | wait | storePid | load | store (v : Int32) | done | failed
  deriving DecidableEq

def posixUnnamedGet (pid : Int) (info : DataInfo) : Point → Option (Point × DataInfo)
  | .wait => if 0 < info.sem then some (.storePid, { info with sem := info.sem - 1 }) else none
  | .storePid => some (.load, { info with pid := pid })
  | .load => some (.store info.count, info)
  | .store v => some (.done, { info with count := v + 1 })
  | .done => none
  | .failed => none

/-- A put fails at the greatest value of the semaphore. -/
def posixUnnamedPut (info : DataInfo) : Option DataInfo :=
  if info.sem < SEM_VALUE_MAX then some { info with sem := info.sem + 1 } else none

/-- The processes that run `posix_unnamed_get`, and how many of them have finished. -/
structure State (ι : Type) where
  info : DataInfo
  procs : ι → Point
  completed : Nat

/-- A step of a get, an interrupted `sem_wait`, or a whole put. -/
inductive Act (ι : Type) where
  | get (p : ι) | interrupt (p : ι) | put

variable {ι : Type} [DecidableEq ι]

def step (getpid : ι → Int) (s : State ι) : Act ι → Option (State ι)
  | .get p =>
    (posixUnnamedGet (getpid p) s.info (s.procs p)).map fun x =>
      ⟨x.2, Function.update s.procs p x.1, s.completed + if x.1 = .done then 1 else 0⟩
  | .interrupt p =>
    if s.procs p = .wait then some { s with procs := Function.update s.procs p .failed } else none
  | .put => (posixUnnamedPut s.info).map fun info => { s with info := info }

/-- After `posix_unnamed_monitor` has initialised the semaphore. -/
def start (ι : Type) (info : DataInfo) : State ι :=
  ⟨{ info with sem := SEM_NUM }, fun _ => .wait, 0⟩

/-- How many steps a process that has been granted the semaphore still has to do. -/
def Point.remaining : Point → Nat
  | .storePid => 3
  | .load => 2
  | .store _ => 1
  | _ => 0

/-- No process is between its granted `sem_wait` and its last store. -/
def Quiescent (s : State ι) : Prop := ∀ p, (s.procs p).remaining = 0

/-- The counter shows every completed get. -/
def Counted (c₀ : Int) (s : State ι) : Prop :=
  Quiescent s → s.info.count.toInt = c₀ + s.completed

/-- Process `p` has loaded the counter and is about to store `v + 1`. -/
def Loaded (s : State ι) (p : ι) (v : Int32) : Prop := s.procs p = .store v

/-- The counter is loaded only while no other process is about to store it, and while it can
be incremented. -/
def Isolated (s : State ι) : Act ι → Prop
  | .get p => s.procs p = .load →
      s.info.count.toInt ≠ INT_MAX ∧ ∀ q v, q ≠ p → ¬ Loaded s q v
  | _ => True

/-- What a step does to the counter: nothing, a load, or the store of a loaded value. -/
inductive Effect (s t : State ι) (a : Act ι) : Prop where
  | quiet (loaded : ∀ q w, Loaded t q w ↔ Loaded s q w) (count : t.info.count = s.info.count)
      (completed : t.completed = s.completed) (noLoad : ∀ p, a = .get p → s.procs p ≠ .load)
  | load (p : ι) (act : a = .get p) (point : s.procs p = .load)
      (loaded : ∀ q w, Loaded t q w ↔ (q = p ∧ w = s.info.count) ∨ Loaded s q w)
      (count : t.info.count = s.info.count) (completed : t.completed = s.completed)
  | store (p : ι) (v : Int32) (act : a = .get p) (point : Loaded s p v)
      (loaded : ∀ q w, Loaded t q w ↔ q ≠ p ∧ Loaded s q w)
      (count : t.info.count = v + 1) (completed : t.completed = s.completed + 1)

theorem loaded_update {s t : State ι} {p : ι} {x : Point}
    (ht : t.procs = Function.update s.procs p x) (q : ι) (w : Int32) :
    Loaded t q w ↔ (q = p ∧ x = .store w) ∨ (q ≠ p ∧ Loaded s q w) := by
  unfold Loaded
  rw [ht]
  by_cases hq : q = p
  · subst hq
    simp
  · simp [hq]

/-- A process that goes from one point to another, neither of them before its store. -/
theorem loaded_quiet {s t : State ι} {p : ι} {x : Point}
    (ht : t.procs = Function.update s.procs p x) (hp : ∀ v, s.procs p ≠ .store v)
    (hx : ∀ v, x ≠ .store v) (q : ι) (w : Int32) : Loaded t q w ↔ Loaded s q w := by
  rw [loaded_update ht]
  constructor
  · rintro (⟨_, hw⟩ | ⟨_, hq⟩)
    · exact absurd hw (hx w)
    · exact hq
  · intro hq
    refine .inr ⟨?_, hq⟩
    rintro rfl
    exact hp w hq

theorem get_effect {getpid : ι → Int} {s t : State ι} {p : ι}
    (h : step getpid s (.get p) = some t) : Effect s t (.get p) := by
  obtain ⟨x, hx, rfl⟩ := Option.map_eq_some_iff.mp h
  cases hp : s.procs p with
  | wait =>
    rw [hp] at hx
    simp only [posixUnnamedGet] at hx
    split at hx
    · cases hx
      refine .quiet (loaded_quiet rfl (by simp [hp]) (by simp)) rfl rfl fun q hq => ?_
      cases hq
      simp [hp]
    · cases hx
  | storePid =>
    rw [hp] at hx
    cases hx
    refine .quiet (loaded_quiet rfl (by simp [hp]) (by simp)) rfl rfl fun q hq => ?_
    cases hq
    simp [hp]
  | load =>
    rw [hp] at hx
    cases hx
    refine .load p rfl hp (fun q w => ?_) rfl rfl
    have hne : Loaded s q w → q ≠ p := by
      rintro hq rfl
      exact absurd (hp.symm.trans hq) (by simp)
    rw [loaded_update rfl, and_iff_right_of_imp hne, Point.store.injEq, eq_comm (a := w)]
  | store v =>
    rw [hp] at hx
    cases hx
    refine .store p v rfl hp (fun q w => ?_) rfl rfl
    rw [loaded_update rfl]
    simp
  | done | failed =>
    rw [hp] at hx
    cases hx

theorem step_effect {getpid : ι → Int} {s t : State ι} {a : Act ι}
    (h : step getpid s a = some t) : Effect s t a := by
  cases a with
  | get p => exact get_effect h
  | interrupt p =>
    simp only [step] at h
    split at h
    · rename_i hp
      cases h
      exact .quiet (loaded_quiet rfl (by simp [hp]) (by simp)) rfl rfl fun q hq => by cases hq
    · cases h
  | put =>
    obtain ⟨info, hinfo, rfl⟩ := Option.map_eq_some_iff.mp h
    obtain ⟨_, hinfo⟩ := Option.ite_none_right_eq_some.mp hinfo
    cases hinfo
    exact .quiet (fun _ _ => Iff.rfl) rfl rfl fun q hq => by cases hq

/-- At most one process has loaded the counter, which has not changed since and can be
incremented. -/
structure Inv (c₀ : Int) (s : State ι) : Prop where
  count : s.info.count.toInt = c₀ + s.completed
  loaded : ∀ p v, Loaded s p v →
    v = s.info.count ∧ v.toInt ≠ INT_MAX ∧ ∀ q w, q ≠ p → ¬ Loaded s q w

omit [DecidableEq ι] in
theorem start_inv (info : DataInfo) : Inv info.count.toInt (start ι info) :=
  ⟨(Int.add_zero _).symm, fun _ _ hp => by cases hp⟩

theorem step_keeps {c₀ : Int} (getpid : ι → Int) (s : State ι) (a : Act ι) (t : State ι)
    (hi : Inv c₀ s) (hok : Isolated s a) (ht : step getpid s a = some t) : Inv c₀ t := by
  cases step_effect ht with
  | quiet hl hc hd _ =>
    refine ⟨by rw [hc, hd, hi.count], fun q w hq => ?_⟩
    obtain ⟨hw, hroom, hn⟩ := hi.loaded q w ((hl q w).mp hq)
    exact ⟨hw.trans hc.symm, hroom, fun q' w' hq' h => hn q' w' hq' ((hl q' w').mp h)⟩
  | load p ha hp hl hc hd =>
    subst ha
    obtain ⟨hroom, hn⟩ := hok hp
    have honly : ∀ q w, Loaded t q w → q = p ∧ w = s.info.count := by
      intro q w hq
      obtain hq | hq := (hl q w).mp hq
      · exact hq
      · by_cases hqp : q = p
        · subst hqp
          exact absurd (hp.symm.trans hq) (by simp)
        · exact absurd hq (hn q w hqp)
    refine ⟨by rw [hc, hd, hi.count], fun q w hq => ?_⟩
    obtain ⟨rfl, rfl⟩ := honly q w hq
    exact ⟨hc.symm, hroom, fun q' w' hq' h => hq' (honly q' w' h).1⟩
  | store p v ha hp hl hc hd =>
    obtain ⟨hv, hroom, hn⟩ := hi.loaded p v hp
    have hnone : ∀ q w, ¬ Loaded t q w := by
      intro q w hq
      obtain ⟨hqp, hq⟩ := (hl q w).mp hq
      exact hn q w hqp hq
    refine ⟨?_, fun q w hq => absurd hq (hnone q w)⟩
    rw [hc, hd, toInt_succ, if_neg hroom, hv, hi.count]
    push_cast
    ring

theorem toInt_succ_le (v : Int32) : (v + 1).toInt ≤ v.toInt + 1 := by
  have hlow : -2 ^ 31 ≤ v.toInt := Int32.le_toInt v
  rw [toInt_succ]
  split <;> omega

/-- An update is lost: the counter is behind the completed gets, or it will be as
soon as the processes that hold loaded values have stored them. -/
structure Behind (c₀ : Int) (s : State ι) : Prop where
  count : s.info.count.toInt ≤ c₀ + s.completed
  loaded : ∀ p v, Loaded s p v → v.toInt ≤ c₀ + s.completed
  idle : (∀ p v, ¬ Loaded s p v) → s.info.count.toInt < c₀ + s.completed
  alone : ∀ p v, Loaded s p v → (∀ q w, q ≠ p → ¬ Loaded s q w) →
    (v + 1).toInt ≤ c₀ + s.completed

theorem behind_keeps {c₀ : Int} (getpid : ι → Int) (s : State ι) (a : Act ι) (t : State ι)
    (hs : Behind c₀ s) (ht : step getpid s a = some t) : Behind c₀ t := by
  cases step_effect ht with
  | quiet hl hc hd _ =>
    refine ⟨by rw [hc, hd]; exact hs.count, fun q w hq => ?_, fun hn => ?_, fun q w hq hn => ?_⟩
    · rw [hd]
      exact hs.loaded q w ((hl q w).mp hq)
    · rw [hc, hd]
      exact hs.idle fun q w h => hn q w ((hl q w).mpr h)
    · rw [hd]
      exact hs.alone q w ((hl q w).mp hq) fun q' w' hq' h => hn q' w' hq' ((hl q' w').mpr h)
  | load p _ hp hl hc hd =>
    have hfresh : Loaded t p s.info.count := (hl p _).mpr (.inl ⟨rfl, rfl⟩)
    refine ⟨by rw [hc, hd]; exact hs.count, fun q w hq => ?_, fun hn => ?_, fun q w hq hn => ?_⟩
    · rw [hd]
      obtain ⟨_, rfl⟩ | hq := (hl q w).mp hq
      · exact hs.count
      · exact hs.loaded q w hq
    · exact absurd hfresh (hn p _)
    · by_cases hqp : q = p
      · have hnone : ∀ q' w', ¬ Loaded s q' w' := by
          intro q' w' h
          by_cases hq' : q' = p
          · rw [hq'] at h
            exact absurd (hp.symm.trans h) (by simp)
          · exact hn q' w' (hqp ▸ hq') ((hl q' w').mpr (.inr h))
        have hidle := hs.idle hnone
        obtain ⟨_, rfl⟩ | hq := (hl q w).mp hq
        · rw [hd]
          exact (toInt_succ_le _).trans hidle
        · exact absurd hq (hnone q w)
      · exact absurd hfresh (hn p _ (Ne.symm hqp))
  | store p v _ hp hl hc hd =>
    have hv := hs.loaded p v hp
    have hsucc := toInt_succ_le v
    have hle : ∀ q w, Loaded t q w → w.toInt < c₀ + t.completed := by
      intro q w hq
      have hw := hs.loaded q w ((hl q w).mp hq).2
      rw [hd]
      push_cast
      omega
    refine ⟨?_, fun q w hq => (hle q w hq).le, fun hn => ?_,
      fun q w hq _ => (toInt_succ_le w).trans (hle q w hq)⟩
    · rw [hc, hd]
      push_cast
      omega
    · have hlt := hs.alone p v hp fun q w hqp h => hn q w ((hl q w).mpr ⟨hqp, h⟩)
      rw [hc, hd]
      push_cast
      omega

/-- A load beside another process that is about to store loses an update, and so does one of
the greatest number. -/
theorem overlap_behind {c₀ : Int} {getpid : ι → Int} {s t : State ι} {a : Act ι} (hi : Inv c₀ s)
    (ht : step getpid s a = some t) (ha : ¬ Isolated s a) : Behind c₀ t := by
  cases a with
  | interrupt | put => exact absurd trivial ha
  | get p =>
    simp only [Isolated, Classical.not_imp] at ha
    obtain ⟨hp, hnot⟩ := ha
    cases step_effect ht with
    | quiet _ _ _ hno => exact absurd hp (hno p rfl)
    | store p' w hact hpt _ _ _ =>
      cases hact
      exact absurd (hp.symm.trans hpt) (by simp)
    | load p' hact _ hl hc hd =>
      cases hact
      have hsame : ∀ q w, Loaded t q w → w = s.info.count := by
        intro q w h
        obtain ⟨_, hw⟩ | h := (hl q w).mp h
        · exact hw
        · exact (hi.loaded q w h).1
      have hcount : s.info.count.toInt = c₀ + t.completed := by rw [hd, hi.count]
      have hfresh : Loaded t p s.info.count := (hl p _).mpr (.inl ⟨rfl, rfl⟩)
      refine ⟨by rw [hc, hcount], fun q w h => by rw [hsame q w h, hcount],
        fun hn => absurd hfresh (hn p _), fun r w hr hn => ?_⟩
      by_cases hmax : s.info.count.toInt = INT_MAX
      · rw [hsame r w hr, toInt_succ, if_pos hmax, ← hcount, hmax, INT_MAX]
        decide
      · have hother : ∃ q v, q ≠ p ∧ Loaded s q v := by
          by_contra hnone
          push Not at hnone
          exact hnot ⟨hmax, hnone⟩
        obtain ⟨q, v, hqp, hq⟩ := hother
        by_cases hrp : r = p
        · exact absurd ((hl q v).mpr (.inr hq)) (hn q v (hrp ▸ hqp))
        · exact absurd hfresh (hn p _ (Ne.symm hrp))

theorem granted_steps (getpid : ι → Int) {s : State ι} {p : ι}
    (hp : (s.procs p).remaining ≠ 0) : ∃ t, step getpid s (.get p) = some t ∧
      (t.procs p).remaining < (s.procs p).remaining ∧ ∀ q, q ≠ p → t.procs q = s.procs q := by
  have hx : ∃ x, posixUnnamedGet (getpid p) s.info (s.procs p) = some x ∧
      x.1.remaining < (s.procs p).remaining := by
    cases hpt : s.procs p with
    | wait | done | failed =>
      rw [hpt] at hp
      exact absurd rfl hp
    | storePid | load | store => exact ⟨_, rfl, Nat.lt_succ_self _⟩
  obtain ⟨x, hx, hlt⟩ := hx
  refine ⟨_, by rw [step, hx, Option.map_some], ?_, fun q hq => Function.update_of_ne hq _ _⟩
  simpa only [Function.update_self] using hlt

/-- Processes that have been granted the semaphore can always run to their end. -/
theorem finishes [Fintype ι] (getpid : ι → Int) (s : State ι) :
    ∃ u, Reaches (step getpid) free s u ∧ Quiescent u := by
  apply reaches_of_measure fun s => ∑ p, (s.procs p).remaining
  intro s hq
  obtain ⟨p, hp⟩ := not_forall.mp hq
  obtain ⟨t, ht, hlt, hrest⟩ := granted_steps getpid hp
  exact ⟨.get p, t, ht, sum_lt_of_one hlt fun q hqp => congrArg Point.remaining (hrest q hqp)⟩

omit [DecidableEq ι] in
theorem Behind.not_counted {c₀ : Int} {s : State ι} (h : Behind c₀ s) (hq : Quiescent s) :
    ¬ Counted c₀ s := by
  have hnone : ∀ p v, ¬ Loaded s p v := by
    intro p v hp
    have hr := hq p
    rw [hp] at hr
    exact Nat.one_ne_zero hr
  intro hc
  exact (h.idle hnone).ne (hc hq)

/-- A lost update is never made up for. -/
theorem overlap_loses {c₀ : Int} {getpid : ι → Int} {s t u : State ι} {a : Act ι} (hi : Inv c₀ s)
    (ht : step getpid s a = some t) (ha : ¬ Isolated s a) (hu : Reaches (step getpid) free t u)
    (hq : Quiescent u) : ¬ Counted c₀ u := by
  apply Behind.not_counted _ hq
  exact hu.invariant (overlap_behind hi ht ha) fun s a t hs _ ht => behind_keeps getpid s a t hs ht

/-- Updates are counted in every run whose loads are isolated, and the first
load that is not isolated loses one. -/
theorem counted_iff_isolated [Fintype ι] (getpid : ι → Int) (info : DataInfo) :
    Guards (step getpid) Isolated (Counted info.count.toInt) (start ι info) := by
  apply Guards.of_invariant (Inv info.count.toInt)
  · exact start_inv info
  · exact step_keeps getpid
  · exact fun _ hi _ => hi.count
  · intro s a t hi ht ha
    obtain ⟨u, hu, hq⟩ := finishes getpid t
    exact ⟨u, hu, overlap_loses hi ht ha hu hq⟩

/-- Two processes are granted the semaphore and both load the counter before either stores it. -/
def overlap : List (Act (Fin 2)) :=
  [.get 0, .get 0, .get 0, .get 1, .get 1, .get 1, .get 0, .get 1]

theorem overlap_counts_once : ¬ ∀ s, Reaches (step fun p : Fin 2 => 100 + p) free
    (start (Fin 2) ⟨0, 0, 0⟩) s → Counted 0 s := by
  intro h
  have hv : (run (step fun p : Fin 2 => 100 + p) (start (Fin 2) ⟨0, 0, 0⟩) overlap).map
      (fun s => (s.info.count, s.completed, s.procs 0, s.procs 1)) =
        some (1, 2, .done, .done) := by
    decide
  obtain ⟨s, hs, hview⟩ := Option.map_eq_some_iff.mp hv
  simp only [Prod.mk.injEq] at hview
  obtain ⟨hc, hd, h0, h1⟩ := hview
  have hq : Quiescent s := Fin.forall_fin_two.mpr ⟨by rw [h0]; rfl, by rw [h1]; rfl⟩
  have hcount := h s (run_reaches hs) hq
  rw [hc, hd] at hcount
  exact absurd hcount (by decide)

end LinuxExamples.UnnamedSemaphore
