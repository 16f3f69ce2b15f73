import LinuxExamples.PollMonitor
import LinuxExamples.UnnamedSemaphore

namespace LinuxExamples.UnnamedMonitor

open Limits Runs UnnamedSemaphore

inductive Phase where
  | compare | print | getvalue | copy | done
  deriving DecidableEq

structure Line where
  pid : Int
  counter : Int32
  sem : Int
  deriving DecidableEq

structure Monitor where
  phase : Phase
  info : DataInfo
  loc : DataInfo
  sval : Int
  n : Nat
  out : List Line

/-- The number of reports after which the loop ends. -/
def limit : Nat := 5

def zero : DataInfo := ⟨0, 0, 0⟩

/-- The monitor at the top of its loop. The variable `sval` is not initialised. -/
def start (info : DataInfo) (junk : Int) : Monitor :=
  ⟨.compare, { info with sem := SEM_NUM }, zero, junk, 0, []⟩

def line (s : Monitor) : Line := ⟨s.info.pid, s.info.count, s.sval⟩

/-- The monitor's next atomic step. The semaphore's value is read after the line is printed. -/
def posixUnnamedMonitor (s : Monitor) : Monitor :=
  match s.phase with
  | .compare => if s.loc ≠ s.info then { s with phase := .print } else s
  | .print => { s with phase := .getvalue, out := line s :: s.out }
  | .getvalue => { s with phase := .copy, sval := s.info.sem }
  | .copy =>
    { s with
      phase := if s.n + 1 = limit then .done else .compare
      loc := s.info
      n := s.n + 1 }
  | .done => s

/-- A whole get; there is none while `sem_wait` blocks, and no put where `sem_post` fails. -/
def getAll (pid : Int) (info : DataInfo) : Option DataInfo := do
  let (pc, info) ← posixUnnamedGet pid info .wait
  let (pc, info) ← posixUnnamedGet pid info pc
  let (pc, info) ← posixUnnamedGet pid info pc
  let (_, info) ← posixUnnamedGet pid info pc
  return info

inductive Act where
  | tick | get (pid : Int) | put

/-- A monitor step, or a whole get or put in one atomic step. The monitor
destroys the semaphore when it leaves its loop. -/
def step (s : Monitor) (a : Act) : Option Monitor :=
  if s.phase = .done then none else
    match a with
    | .tick => some (posixUnnamedMonitor s)
    | .get pid => (getAll pid s.info).map fun info => { s with info := info }
    | .put => (posixUnnamedPut s.info).map fun info => { s with info := info }

theorem getAll_eq (pid : Int) (info : DataInfo) :
    getAll pid info = if 0 < info.sem then some ⟨info.sem - 1, pid, info.count + 1⟩ else none := by
  by_cases h : 0 < info.sem
  · simp [getAll, posixUnnamedGet, h]
  · simp [getAll, posixUnnamedGet, h]

/-- The two fields of a line that are printed from the record. -/
def Line.fields (l : Line) : Int × Int32 := (l.pid, l.counter)

def fields (info : DataInfo) : Int × Int32 := (info.pid, info.count)

/-- The line that shows all of a record. -/
def wholeLine (info : DataInfo) : Line := ⟨info.pid, info.count, info.sem⟩

variable {L : Type} (shown : Line → L) (view : DataInfo → L)

/-- When the monitor would stay quiet, its last line shows the record, as far as
`shown` and `view` look at the two. -/
def Quiet (s : Monitor) : Prop :=
  s.phase = .compare → s.loc = s.info →
    s.out.head?.map shown = some (view s.info) ∨ (s.out = [] ∧ s.info = zero)

/-- The monitor is between a print and its copy and goes on after the copy. -/
def InGap (s : Monitor) : Prop := (s.phase = .getvalue ∨ s.phase = .copy) ∧ s.n + 1 ≠ limit

/-- A line shows the record when it is printed, and no get or put that changes what is
shown falls into the gap. -/
def Undisturbed (s : Monitor) : Act → Prop
  | .tick => s.phase = .print → s.n + 1 ≠ limit → shown (line s) = view s.info
  | .get pid => InGap s → ∀ info, getAll pid s.info = some info → view info = view s.info
  | .put => InGap s → ∀ info, posixUnnamedPut s.info = some info → view info = view s.info

/-- For the fields printed from the record, only a get in the gap disturbs. -/
theorem undisturbed_fields_iff (s : Monitor) (a : Act) : Undisturbed Line.fields fields s a ↔
    (InGap s → 0 < s.info.sem → ∀ pid, a ≠ .get pid) := by
  cases a with
  | tick => exact iff_of_true (fun _ _ => rfl) fun _ _ _ => by simp
  | put =>
    refine iff_of_true (fun _ info hinfo => ?_) fun _ _ _ => by simp
    obtain ⟨_, hinfo⟩ := Option.ite_none_right_eq_some.mp hinfo
    cases hinfo
    rfl
  | get pid =>
    simp only [Undisturbed, getAll_eq]
    by_cases h : 0 < s.info.sem
    · simp [h, fields]
    · simp [h]

/-- For the whole line, every get and put in the gap disturbs, and so does a print while
`sval` is not the semaphore's value. -/
theorem undisturbed_whole_iff (s : Monitor) (a : Act) : Undisturbed id wholeLine s a ↔
    match a with
    | .tick => s.phase = .print → s.n + 1 ≠ limit → s.sval = s.info.sem
    | .get _ => InGap s → ¬ 0 < s.info.sem
    | .put => InGap s → ¬ s.info.sem < SEM_VALUE_MAX := by
  cases a with
  | tick => simp [Undisturbed, line, wholeLine]
  | put =>
    by_cases h : s.info.sem < SEM_VALUE_MAX
    · simp [Undisturbed, wholeLine, posixUnnamedPut, h]
    · simp [Undisturbed, posixUnnamedPut, h]
  | get pid =>
    simp only [Undisturbed, getAll_eq]
    by_cases h : 0 < s.info.sem
    · simp [h, wholeLine]
    · simp [h]

/-- In the abstract monitor the semaphore's value is not read; it is only compared. -/
def Phase.abstract : Phase → PollMonitor.Phase
  | .compare => .compare
  | .print => .print
  | .getvalue | .copy => .copy
  | .done => .done

theorem Phase.abstract_compare (p : Phase) : p.abstract = .compare ↔ p = .compare := by
  cases p <;> simp [Phase.abstract]

theorem Phase.abstract_print (p : Phase) : p.abstract = .print ↔ p = .print := by
  cases p <;> simp [Phase.abstract]

theorem Phase.abstract_copy (p : Phase) : p.abstract = .copy ↔ p = .getvalue ∨ p = .copy := by
  cases p <;> simp [Phase.abstract]

theorem Phase.abstract_done (p : Phase) : p.abstract = .done ↔ p = .done := by
  cases p <;> simp [Phase.abstract]

def abstract (s : Monitor) : PollMonitor.State DataInfo L :=
  ⟨s.phase.abstract, s.info, s.loc, s.n, s.out.map shown⟩

theorem quiet_iff (s : Monitor) :
    Quiet shown view s ↔ PollMonitor.Quiet view zero (abstract shown s) := by
  simp only [Quiet, PollMonitor.Quiet, abstract, Phase.abstract_compare, List.head?_map,
    List.map_eq_nil_iff]

/-- Reading the semaphore's value is no step of the abstract monitor; every other step is one. -/
theorem abstract_tick (s : Monitor) (hp : s.phase ≠ .getvalue) :
    abstract shown (posixUnnamedMonitor s) =
      PollMonitor.tick limit (shown (line s)) (abstract shown s) := by
  obtain ⟨phase, info, loc, sval, n, out⟩ := s
  cases phase with
  | compare =>
    by_cases h : loc = info
    · simp [posixUnnamedMonitor, PollMonitor.tick, abstract, Phase.abstract, h]
    · simp [posixUnnamedMonitor, PollMonitor.tick, abstract, Phase.abstract, h]
  | print => rfl
  | getvalue => exact absurd rfl hp
  | copy =>
    by_cases h : n + 1 = limit
    · simp [posixUnnamedMonitor, PollMonitor.tick, abstract, Phase.abstract, h]
    · simp [posixUnnamedMonitor, PollMonitor.tick, abstract, Phase.abstract, h]
  | done => rfl

theorem abstract_getvalue (s : Monitor) (hp : s.phase = .getvalue) :
    abstract shown (posixUnnamedMonitor s) = abstract shown s := by
  simp only [posixUnnamedMonitor, abstract, hp, Phase.abstract]

theorem step_tick {s : Monitor} (hp : s.phase ≠ .done) :
    step s .tick = some (posixUnnamedMonitor s) := if_neg hp

theorem tick_cases {s t : Monitor} (ht : step s .tick = some t) :
    s.phase ≠ .done ∧ t = posixUnnamedMonitor s := by
  by_cases hp : s.phase = .done
  · simp [step, hp] at ht
  · rw [step_tick hp] at ht
    exact ⟨hp, (Option.some_injective _ ht).symm⟩

theorem update_cases {s t : Monitor} {a : Act} (ha : a ≠ .tick) (ht : step s a = some t) :
    t = { s with info := t.info } ∧
      ((∃ pid, a = .get pid ∧ getAll pid s.info = some t.info) ∨
        (a = .put ∧ posixUnnamedPut s.info = some t.info)) := by
  simp only [step] at ht
  split at ht
  · cases ht
  · cases a with
    | tick => exact absurd rfl ha
    | get pid =>
      obtain ⟨info, hi, rfl⟩ := Option.map_eq_some_iff.mp ht
      exact ⟨rfl, .inl ⟨pid, rfl, hi⟩⟩
    | put =>
      obtain ⟨info, hi, rfl⟩ := Option.map_eq_some_iff.mp ht
      exact ⟨rfl, .inr ⟨rfl, hi⟩⟩

theorem undisturbed_update_iff {s t : Monitor} {a : Act} (ha : a ≠ .tick)
    (ht : step s a = some t) :
    Undisturbed shown view s a ↔ (InGap s → view t.info = view s.info) := by
  obtain ⟨pid, rfl, hi⟩ | ⟨rfl, hi⟩ := (update_cases ha ht).2
  · simp [Undisturbed, hi]
  · simp [Undisturbed, hi]

theorem abstract_step {s t : Monitor} (hp : s.phase ≠ .getvalue) (ht : step s .tick = some t) :
    PollMonitor.step limit (abstract shown s) (.tick (shown (line s))) =
      some (abstract shown t) := by
  obtain ⟨hdone, rfl⟩ := tick_cases ht
  have hdone' : (abstract shown s).phase ≠ .done := (Phase.abstract_done _).not.mpr hdone
  rw [abstract_tick shown s hp]
  exact if_neg hdone'

theorem abstract_update {s t : Monitor} {a : Act} (ha : a ≠ .tick) (ht : step s a = some t) :
    PollMonitor.step limit (abstract shown s) (.update t.info) = some (abstract shown t) := by
  rw [(update_cases ha ht).1]
  rfl

theorem undisturbed_answer (s : Monitor) (a : Act) (t : Monitor)
    (hok : Undisturbed shown view s a) (ht : step s a = some t) :
    Reaches (PollMonitor.step limit) (PollMonitor.Undisturbed view limit)
      (abstract shown s) (abstract shown t) := by
  by_cases ha : a = .tick
  · subst ha
    by_cases hg : s.phase = .getvalue
    · obtain ⟨_, rfl⟩ := tick_cases ht
      rw [abstract_getvalue shown s hg]
      exact .refl _
    · have hok' : PollMonitor.Undisturbed view limit (abstract shown s)
          (.tick (shown (line s))) := fun hp hl => hok ((Phase.abstract_print _).mp hp) hl
      exact .single hok' (abstract_step shown hg ht)
  · have hok' : PollMonitor.Undisturbed view limit (abstract shown s) (.update t.info) :=
      fun hp hl => (undisturbed_update_iff shown view ha ht).mp hok
        ⟨(Phase.abstract_copy _).mp hp, hl⟩
    exact .single hok' (abstract_update shown ha ht)

theorem undisturbed_inv {info : DataInfo} {junk : Int} {s : Monitor}
    (h : Reaches step (Undisturbed shown view) (start info junk) s) :
    PollMonitor.Inv view limit zero (abstract shown s) := by
  obtain ⟨x, hx, rfl⟩ := h.simulates (fun s x => abstract shown s = x) rfl
    fun s a t x hs hok ht =>
      ⟨abstract shown t, hs ▸ undisturbed_answer shown view s a t hok ht, rfl⟩
  exact PollMonitor.undisturbed_inv view limit zero hx

/-- A monitor that has printed a line goes on to make its copy. -/
theorem copies {s : Monitor} (hp : s.phase = .getvalue ∨ s.phase = .copy) :
    ∃ u l, Reaches step free s u ∧ abstract shown u =
      PollMonitor.tick limit l (abstract shown s) := by
  have copy {t : Monitor} (ht : t.phase = .copy) :
      Reaches step free t (posixUnnamedMonitor t) ∧ abstract shown (posixUnnamedMonitor t) =
        PollMonitor.tick limit (shown (line t)) (abstract shown t) :=
    ⟨.single trivial (step_tick (by simp [ht])), abstract_tick shown t (by simp [ht])⟩
  cases hp with
  | inl hp =>
    have hs : Reaches step free s (posixUnnamedMonitor s) :=
      .single trivial (step_tick (by simp [hp]))
    have hp' : (posixUnnamedMonitor s).phase = .copy := by simp only [posixUnnamedMonitor, hp]
    obtain ⟨hu, ha⟩ := copy hp'
    exact ⟨_, _, hs.trans hu, by rw [ha, abstract_getvalue shown s hp]⟩
  | inr hp => exact ⟨_, _, copy hp⟩

theorem disturbed_answer {s t : Monitor} {a : Act} (ht : step s a = some t)
    (ha : ¬ Undisturbed shown view s a) :
    ∃ b, PollMonitor.step limit (abstract shown s) b = some (abstract shown t) ∧
      ¬ PollMonitor.Undisturbed view limit (abstract shown s) b := by
  by_cases htick : a = .tick
  · subst htick
    simp only [Undisturbed, Classical.not_imp] at ha
    obtain ⟨hp, hl, hne⟩ := ha
    exact ⟨_, abstract_step shown (by simp [hp]) ht,
      fun h => hne (h ((Phase.abstract_print _).mpr hp) hl)⟩
  · rw [undisturbed_update_iff shown view htick ht, Classical.not_imp] at ha
    obtain ⟨⟨hp, hl⟩, hne⟩ := ha
    exact ⟨_, abstract_update shown htick ht, fun h => hne (h ((Phase.abstract_copy _).mpr hp) hl)⟩

theorem disturbed_breaks {s t : Monitor} {a : Act}
    (hs : PollMonitor.Inv view limit zero (abstract shown s)) (ht : step s a = some t)
    (ha : ¬ Undisturbed shown view s a) : ∃ u, Reaches step free t u ∧ ¬ Quiet shown view u := by
  obtain ⟨b, hb, hdist⟩ := disturbed_answer shown view ht ha
  obtain ⟨hp, hq⟩ := PollMonitor.disturbed_absorbs view limit zero hs hb hdist
  obtain ⟨u, l, hu, hul⟩ := copies shown ((Phase.abstract_copy _).mp hp)
  refine ⟨u, hu, ?_⟩
  rw [quiet_iff, hul]
  exact hq l

theorem quiet_guards (info : DataInfo) (junk : Int) :
    Guards step (Undisturbed shown view) (Quiet shown view) (start info junk) :=
  ⟨fun _ h => (quiet_iff shown view _).mpr (undisturbed_inv shown view h).quiet,
    fun _ _ _ h ht ha => disturbed_breaks shown view (undisturbed_inv shown view h) ht ha⟩

end LinuxExamples.UnnamedMonitor
