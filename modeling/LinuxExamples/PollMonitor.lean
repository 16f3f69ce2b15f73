import LinuxExamples.Runs

namespace LinuxExamples.PollMonitor

open Runs

inductive Phase where
  | compare | print | copy | done
  deriving DecidableEq

/-- A process that reports changes of a shared value by comparing it with a
private copy. The lines it has printed are listed latest first. -/
structure State (R L : Type) where
  phase : Phase
  shared : R
  seen : R
  count : Nat
  lines : List L

/-- An update of the shared value, or a step of the monitor; the line is the one that a
print adds. -/
inductive Act (R L : Type) where
  | tick (l : L) | update (r : R)

variable {R L : Type} [DecidableEq R]

/-- The monitor's next atomic step. It leaves its loop at the report number `limit`. -/
def tick (limit : Nat) (l : L) (s : State R L) : State R L :=
  match s.phase with
  | .compare => if s.seen = s.shared then s else { s with phase := .print }
  | .print => { s with phase := .copy, lines := l :: s.lines }
  | .copy =>
    { s with
      phase := if s.count + 1 = limit then .done else .compare
      seen := s.shared
      count := s.count + 1 }
  | .done => s

def step (limit : Nat) (s : State R L) : Act R L → Option (State R L)
  | .tick l => if s.phase = .done then none else some (tick limit l s)
  | .update r => some { s with shared := r }

def start (zero r : R) : State R L := ⟨.compare, r, zero, 0, []⟩

/-- When the monitor would stay quiet, its last line shows the shared value. -/
def Quiet (view : R → L) (zero : R) (s : State R L) : Prop :=
  s.phase = .compare → s.seen = s.shared →
    s.lines.head? = some (view s.shared) ∨ (s.lines = [] ∧ s.shared = zero)

/-- A line shows the shared value, and no update that changes what is shown falls between
a print and its copy. The last report before the monitor leaves its loop is exempt. -/
def Undisturbed (view : R → L) (limit : Nat) (s : State R L) : Act R L → Prop
  | .tick l => s.phase = .print → s.count + 1 ≠ limit → l = view s.shared
  | .update r => s.phase = .copy → s.count + 1 ≠ limit → view r = view s.shared

structure Inv (view : R → L) (limit : Nat) (zero : R) (s : State R L) : Prop where
  compare : s.phase = .compare →
    s.lines.head? = some (view s.seen) ∨ (s.lines = [] ∧ s.seen = zero)
  copy : s.phase = .copy → s.count + 1 ≠ limit → s.lines.head? = some (view s.shared)

variable (view : R → L) (limit : Nat) (zero : R)

theorem tick_keeps {s : State R L} {l : L} (h : Inv view limit zero s)
    (hok : Undisturbed view limit s (.tick l)) : Inv view limit zero (tick limit l s) := by
  obtain ⟨phase, shared, seen, count, lines⟩ := s
  cases phase with
  | compare =>
    by_cases he : seen = shared
    · simpa only [tick, he, ↓reduceIte] using h
    · constructor <;> intro hp <;> simp [tick, he] at hp
  | print =>
    constructor
    · intro hp
      simp [tick] at hp
    · intro _ hl
      exact congrArg some (hok rfl hl)
  | copy =>
    by_cases hl : count + 1 = limit
    · constructor <;> intro hp <;> simp [tick, hl] at hp
    · constructor
      · intro _
        exact .inl (h.copy rfl hl)
      · intro hp
        simp [tick, hl] at hp
  | done => exact h

theorem step_keeps (s : State R L) (a : Act R L) (t : State R L) (h : Inv view limit zero s)
    (hok : Undisturbed view limit s a) (ht : step limit s a = some t) :
    Inv view limit zero t := by
  cases a with
  | tick l =>
    simp only [step] at ht
    split at ht
    · cases ht
    · cases ht
      exact tick_keeps view limit zero h hok
  | update r =>
    cases ht
    refine ⟨h.compare, fun hp hl => ?_⟩
    dsimp only at hp hl ⊢
    rw [hok hp hl]
    exact h.copy hp hl

theorem undisturbed_inv {r : R} {s : State R L}
    (h : Reaches (step limit) (Undisturbed view limit) (start zero r) s) :
    Inv view limit zero s := by
  apply h.invariant
  · exact ⟨fun _ => .inr ⟨rfl, rfl⟩, fun hp => by simp [start] at hp⟩
  · exact step_keeps view limit zero

omit [DecidableEq R] in
theorem Inv.quiet {s : State R L} (h : Inv view limit zero s) : Quiet view zero s := by
  intro hp he
  rw [← he]
  exact h.compare hp

theorem copy_not_quiet {s : State R L} {k l : L} (hp : s.phase = .copy) (hl : s.count + 1 ≠ limit)
    (hline : s.lines.head? = some k) (hk : k ≠ view s.shared) :
    ¬ Quiet view zero (tick limit l s) := by
  intro hq
  simp only [Quiet, tick, hp, hl, ↓reduceIte, forall_const] at hq
  obtain hq | hq := hq
  · exact hk (Option.some_injective _ (hline.symm.trans hq))
  · simp [hq.1] at hline

/-- What a disturbing step leaves unshown is absorbed by the copy that follows it. -/
theorem disturbed_absorbs {s t : State R L} {a : Act R L} (hs : Inv view limit zero s)
    (ht : step limit s a = some t) (ha : ¬ Undisturbed view limit s a) :
    t.phase = .copy ∧ ∀ l, ¬ Quiet view zero (tick limit l t) := by
  cases a with
  | tick k =>
    simp only [Undisturbed, Classical.not_imp] at ha
    obtain ⟨hp, hl, hk⟩ := ha
    have hprint : step limit s (.tick k) =
        some { s with phase := .copy, lines := k :: s.lines } := by
      simp [step, tick, hp]
    obtain rfl := Option.some_injective _ (hprint.symm.trans ht)
    exact ⟨rfl, fun l => copy_not_quiet view limit zero rfl hl rfl hk⟩
  | update r =>
    simp only [Undisturbed, Classical.not_imp] at ha
    obtain ⟨hp, hl, hv⟩ := ha
    cases ht
    exact ⟨hp, fun l => copy_not_quiet view limit zero hp hl (hs.copy hp hl) (Ne.symm hv)⟩

end LinuxExamples.PollMonitor
