import Mathlib

namespace LinuxExamples.Runs

variable {σ τ α β : Type}

/-- One step to a next state by an action that satisfies `ok` in the state it is taken in. -/
def Next (step : σ → α → Option σ) (ok : σ → α → Prop) (s t : σ) : Prop :=
  ∃ a, ok s a ∧ step s a = some t

/-- Finite runs whose actions all satisfy `ok`. A partial step function says
which actions are enabled, so every interleaving of enabled actions is a run. -/
def Reaches (step : σ → α → Option σ) (ok : σ → α → Prop) : σ → σ → Prop :=
  Relation.ReflTransGen (Next step ok)

/-- No condition on the actions of a run. -/
def free (_ : σ) (_ : α) : Prop := True

variable {step : σ → α → Option σ} {ok : σ → α → Prop} {s t u : σ} {a : α}

theorem Reaches.refl (s : σ) : Reaches step ok s s := Relation.ReflTransGen.refl

theorem Reaches.single (hok : ok s a) (h : step s a = some t) : Reaches step ok s t :=
  Relation.ReflTransGen.single ⟨a, hok, h⟩

theorem Reaches.trans (h : Reaches step ok s t) (h' : Reaches step ok t u) : Reaches step ok s u :=
  Relation.ReflTransGen.trans h h'

/-- What holds at the start of a run and is kept by each of its steps holds at its end. -/
theorem Reaches.invariant {inv : σ → Prop} (h : Reaches step ok s t) (hs : inv s)
    (keep : ∀ s a t, inv s → ok s a → step s a = some t → inv t) : inv t := by
  induction h with
  | refl => exact hs
  | tail _ hn ih =>
    obtain ⟨a, hok, ht⟩ := hn
    exact keep _ a _ ih hok ht

/-- Forward simulation: when each step is answered by a run of a second system
that restores the relation, so is a whole run. -/
theorem Reaches.simulates {step' : τ → β → Option τ} {ok' : τ → β → Prop} (rel : σ → τ → Prop)
    {x : τ} (h : Reaches step ok s t) (hs : rel s x)
    (answer : ∀ s a t x, rel s x → ok s a → step s a = some t →
      ∃ y, Reaches step' ok' x y ∧ rel t y) :
    ∃ y, Reaches step' ok' x y ∧ rel t y := by
  induction h with
  | refl => exact ⟨x, .refl x, hs⟩
  | tail _ hn ih =>
    obtain ⟨a, hok, ht⟩ := hn
    obtain ⟨y, hy, hr⟩ := ih
    obtain ⟨z, hz, hr'⟩ := answer _ a _ y hr hok ht
    exact ⟨z, hy.trans hz, hr'⟩

/-- What holds in every state that can be reached. -/
def Always (step : σ → α → Option σ) (safe : σ → Prop) (s₀ : σ) : Prop :=
  ∀ s, Reaches step free s₀ s → safe s

/-- The same for the runs whose actions satisfy `ok`. -/
def AlwaysBy (step : σ → α → Option σ) (ok : σ → α → Prop) (safe : σ → Prop) (s₀ : σ) : Prop :=
  ∀ s, Reaches step ok s₀ s → safe s

theorem Always.of_invariant {safe : σ → Prop} {s₀ : σ} (inv : σ → Prop) (hs : inv s₀)
    (keep : ∀ s a t, inv s → step s a = some t → inv t) (hsafe : ∀ s, inv s → safe s) :
    Always step safe s₀ :=
  fun s h => hsafe s (h.invariant hs fun s a t hi _ ht => keep s a t hi ht)

/-- A goal is reachable when each state short of it that satisfies an invariant has a step
that keeps the invariant and lowers a measure. -/
theorem reaches_of_measure_inv (μ : σ → Nat) {inv goal : σ → Prop}
    (h : ∀ s, inv s → ¬ goal s → ∃ a t, step s a = some t ∧ inv t ∧ μ t < μ s) (s : σ)
    (hs : inv s) : ∃ u, Reaches step free s u ∧ goal u := by
  induction hm : μ s using Nat.strong_induction_on generalizing s with
  | _ m ih =>
    by_cases hg : goal s
    · exact ⟨s, .refl s, hg⟩
    · obtain ⟨a, t, ht, hit, hlt⟩ := h s hs hg
      obtain ⟨u, hu, hgu⟩ := ih (μ t) (hm ▸ hlt) t hit rfl
      have hst : Reaches step free s t := .single trivial ht
      exact ⟨u, hst.trans hu, hgu⟩

/-- The same by actions that satisfy `ok`. -/
theorem reaches_ok_of_measure (μ : σ → Nat) {inv goal : σ → Prop}
    (h : ∀ s, inv s → ¬ goal s → ∃ a t, ok s a ∧ step s a = some t ∧ inv t ∧ μ t < μ s) (s : σ)
    (hs : inv s) : ∃ u, Reaches step ok s u ∧ goal u := by
  induction hm : μ s using Nat.strong_induction_on generalizing s with
  | _ m ih =>
    by_cases hg : goal s
    · exact ⟨s, .refl s, hg⟩
    · obtain ⟨a, t, ha, ht, hit, hlt⟩ := h s hs hg
      obtain ⟨u, hu, hgu⟩ := ih (μ t) (hm ▸ hlt) t hit rfl
      have hst : Reaches step ok s t := .single ha ht
      exact ⟨u, hst.trans hu, hgu⟩

/-- Every way on by actions that satisfy `ok` comes to the goal. -/
inductive Inevitable (step : σ → α → Option σ) (ok : σ → α → Prop) (goal : σ → Prop) : σ → Prop
  | reached (s : σ) (h : goal s) : Inevitable step ok goal s
  | next (s : σ) (moves : ∃ a t, ok s a ∧ step s a = some t)
      (all : ∀ a t, ok s a → step s a = some t → Inevitable step ok goal t) :
      Inevitable step ok goal s

theorem inevitable_of_measure (μ : σ → Nat) {inv goal : σ → Prop}
    (moves : ∀ s, inv s → ¬ goal s → ∃ a t, ok s a ∧ step s a = some t)
    (lowers : ∀ s a t, inv s → ¬ goal s → ok s a → step s a = some t → inv t ∧ μ t < μ s) (s : σ)
    (hs : inv s) : Inevitable step ok goal s := by
  induction hm : μ s using Nat.strong_induction_on generalizing s with
  | _ m ih =>
    by_cases hg : goal s
    · exact .reached s hg
    · refine .next s (moves s hs hg) fun a t ha ht => ?_
      obtain ⟨hit, hlt⟩ := lowers s a t hs hg ha ht
      exact ih (μ t) (hm ▸ hlt) t hit rfl

theorem reaches_of_measure (μ : σ → Nat) {goal : σ → Prop}
    (h : ∀ s, ¬ goal s → ∃ a t, step s a = some t ∧ μ t < μ s) (s : σ) :
    ∃ u, Reaches step free s u ∧ goal u := by
  have hinv (s : σ) (_ : True) (hg : ¬ goal s) :
      ∃ a t, step s a = some t ∧ True ∧ μ t < μ s := by
    obtain ⟨a, t, ht, hlt⟩ := h s hg
    exact ⟨a, t, ht, trivial, hlt⟩
  exact reaches_of_measure_inv μ hinv s trivial

theorem sum_lt_of_one {ι : Type} [Fintype ι] {f g : ι → Nat} {p : ι} (hp : f p < g p)
    (hrest : ∀ q, q ≠ p → f q = g q) : ∑ q, f q < ∑ q, g q := by
  apply Finset.sum_lt_sum
  · intro q _
    by_cases hq : q = p
    · exact hq ▸ hp.le
    · exact (hrest q hq).le
  · exact ⟨p, Finset.mem_univ p, hp⟩

theorem sum_succ_of_one {ι : Type} [Fintype ι] {f g : ι → Nat} {p : ι} (hp : f p + 1 = g p)
    (hrest : ∀ q, q ≠ p → f q = g q) : ∑ q, f q + 1 = ∑ q, g q := by
  classical
  have hothers : ∑ q ∈ Finset.univ.erase p, f q = ∑ q ∈ Finset.univ.erase p, g q :=
    Finset.sum_congr rfl fun q hq => hrest q (Finset.ne_of_mem_erase hq)
  have hf := Finset.add_sum_erase Finset.univ f (Finset.mem_univ p)
  have hg := Finset.add_sum_erase Finset.univ g (Finset.mem_univ p)
  omega

/-- `safe` holds all along the runs whose actions satisfy `ok`, and the first action
of a run that does not can be followed by others to a state that is not safe. -/
structure Guards (step : σ → α → Option σ) (ok : σ → α → Prop) (safe : σ → Prop) (s₀ : σ) :
    Prop where
  keeps : ∀ s, Reaches step ok s₀ s → safe s
  breaks : ∀ s a t, Reaches step ok s₀ s → step s a = some t → ¬ ok s a →
    ∃ u, Reaches step free t u ∧ ¬ safe u

theorem Guards.of_invariant {safe : σ → Prop} {s₀ : σ} (inv : σ → Prop) (hs : inv s₀)
    (keep : ∀ s a t, inv s → ok s a → step s a = some t → inv t) (hsafe : ∀ s, inv s → safe s)
    (hbreak : ∀ s a t, inv s → step s a = some t → ¬ ok s a →
      ∃ u, Reaches step free t u ∧ ¬ safe u) : Guards step ok safe s₀ :=
  ⟨fun s h => hsafe s (h.invariant hs keep),
    fun s a t h ht ha => hbreak s a t (h.invariant hs keep) ht ha⟩

/-- Perform a list of actions, failing at the first that is not enabled. -/
def run (step : σ → α → Option σ) : σ → List α → Option σ
  | s, [] => some s
  | s, a :: as => (step s a).bind fun t => run step t as

theorem run_reaches_of {as : List α} (hok : ∀ a ∈ as, ∀ u, ok u a)
    (h : run step s as = some t) : Reaches step ok s t := by
  induction as generalizing s with
  | nil =>
    cases h
    exact .refl _
  | cons a as ih =>
    obtain ⟨u, hu, ht⟩ := Option.bind_eq_some_iff.mp h
    obtain ⟨ha, has⟩ := List.forall_mem_cons.mp hok
    have hfirst : Reaches step ok s u := .single (ha s) hu
    exact hfirst.trans (ih has ht)

theorem run_reaches {as : List α} (h : run step s as = some t) : Reaches step free s t :=
  run_reaches_of (fun _ _ _ => trivial) h

/-- One of several processes has moved to `x`. -/
theorem update_eq_some {ι β : Type} [DecidableEq ι] {f : ι → Option β} {p q : ι} {x y : β}
    (h : Function.update f p (some x) q = some y) : q = p ∧ y = x ∨ q ≠ p ∧ f q = some y := by
  by_cases hq : q = p
  · subst hq
    rw [Function.update_self] at h
    exact .inl ⟨rfl, (Option.some.inj h).symm⟩
  · rw [Function.update_of_ne hq] at h
    exact .inr ⟨hq, h⟩

end LinuxExamples.Runs
