import Mathlib

namespace LinuxExamples.Signals

/-- What the delivery of a signal does. While a handler runs, the signal itself and those in
the handler's mask are blocked. -/
inductive Action (σ : Type) where
  | kill | handle (mask : Finset σ)

/-- A handler that runs, with the signals that were blocked before and how far it is. -/
structure Frame (σ γ : Type) where
  sig : σ
  saved : Finset σ
  stage : γ

/-- The signals of one thread. A signal that is sent again while it is pending is lost. -/
structure Context (σ γ : Type) where
  action : σ → Action σ
  blocked : Finset σ
  pending : Finset σ
  frames : List (Frame σ γ)

variable {σ γ : Type} [DecidableEq σ]

/-- The signals that are delivered before the thread goes on. -/
def Context.ready (c : Context σ γ) : Finset σ := c.pending \ c.blocked

def Context.send (c : Context σ γ) (x : σ) : Context σ γ :=
  { c with pending := insert x c.pending }

def Context.enter (c : Context σ γ) (x : σ) (mask : Finset σ) (g : γ) : Context σ γ :=
  { c with
    blocked := insert x (c.blocked ∪ mask)
    pending := c.pending.erase x
    frames := ⟨x, c.blocked, g⟩ :: c.frames }

/-- The innermost handler returns. -/
def Context.leave (c : Context σ γ) : Context σ γ :=
  match c.frames with
  | [] => c
  | f :: rest => { c with blocked := f.saved, frames := rest }

/-- The innermost handler goes on. -/
def Context.proceed (c : Context σ γ) (g : γ) : Context σ γ :=
  match c.frames with
  | [] => c
  | f :: rest => { c with frames := { f with stage := g } :: rest }

omit [DecidableEq σ] in
@[simp] theorem Context.leave_action (c : Context σ γ) : c.leave.action = c.action := by
  unfold Context.leave
  split <;> rfl

omit [DecidableEq σ] in
@[simp] theorem Context.leave_pending (c : Context σ γ) : c.leave.pending = c.pending := by
  unfold Context.leave
  split <;> rfl

omit [DecidableEq σ] in
@[simp] theorem Context.proceed_action (c : Context σ γ) (g : γ) :
    (c.proceed g).action = c.action := by
  unfold Context.proceed
  split <;> rfl

omit [DecidableEq σ] in
@[simp] theorem Context.proceed_pending (c : Context σ γ) (g : γ) :
    (c.proceed g).pending = c.pending := by
  unfold Context.proceed
  split <;> rfl

/-- The handlers that run have blocked, each over the one before, what is blocked. -/
inductive Nested (base : Finset σ) (mask : σ → Finset σ) : List (Frame σ γ) → Finset σ → Prop
  | idle : Nested base mask [] base
  | enter {frames b x g} : Nested base mask frames b → x ∉ b →
      Nested base mask (⟨x, b, g⟩ :: frames) (insert x (b ∪ mask x))

section Nested

variable {base b : Finset σ} {mask : σ → Finset σ} {frames : List (Frame σ γ)}

theorem Nested.blocks (h : Nested base mask frames b) :
    ∀ f ∈ frames, f.sig ∈ b ∧ mask f.sig ⊆ b := by
  induction h with
  | idle => simp
  | @enter frames b x g _ _ ih =>
    have hsub : b ∪ mask x ⊆ insert x (b ∪ mask x) := Finset.subset_insert _ _
    intro f hf
    obtain rfl | hf := List.mem_cons.mp hf
    · exact ⟨Finset.mem_insert_self _ _, Finset.subset_union_right.trans hsub⟩
    · obtain ⟨hsig, hmask⟩ := ih f hf
      have hb : b ⊆ insert x (b ∪ mask x) := Finset.subset_union_left.trans hsub
      exact ⟨hb hsig, hmask.trans hb⟩

/-- No handler interrupts itself. -/
theorem Nested.nodup (h : Nested base mask frames b) : (frames.map Frame.sig).Nodup := by
  induction h with
  | idle => exact List.nodup_nil
  | enter h hx ih =>
    refine List.nodup_cons.mpr ⟨fun hmem => ?_, ih⟩
    obtain ⟨f, hf, rfl⟩ := List.mem_map.mp hmem
    exact hx (h.blocks f hf).1

/-- There are never more handlers than signals that have one. -/
theorem Nested.length_le (h : Nested base mask frames b) {handled : Finset σ}
    (hf : ∀ f ∈ frames, f.sig ∈ handled) : frames.length ≤ handled.card := by
  have hsub : (frames.map Frame.sig).toFinset ⊆ handled := by
    intro x hx
    obtain ⟨f, hmem, rfl⟩ := List.mem_map.mp (List.mem_toFinset.mp hx)
    exact hf f hmem
  calc frames.length = (frames.map Frame.sig).toFinset.card := by
        rw [List.toFinset_card_of_nodup h.nodup, List.length_map]
    _ ≤ handled.card := Finset.card_le_card hsub

theorem Nested.idle_eq (h : Nested base mask ([] : List (Frame σ γ)) b) : b = base := by
  cases h
  rfl

end Nested

/-- The context of a thread whose handlers have these masks. -/
def Context.Nested (c : Context σ γ) (base : Finset σ) (mask : σ → Finset σ) : Prop :=
  Signals.Nested base mask c.frames c.blocked

section Context

variable {base : Finset σ} {mask : σ → Finset σ} {c : Context σ γ}

theorem Context.Nested.enter (h : c.Nested base mask) {x : σ} (hx : x ∈ c.ready) (g : γ) :
    (c.enter x (mask x) g).Nested base mask :=
  Signals.Nested.enter h (Finset.mem_sdiff.mp hx).2

theorem Context.Nested.leave (h : c.Nested base mask) : c.leave.Nested base mask := by
  obtain ⟨action, blocked, pending, frames⟩ := c
  cases frames with
  | nil => exact h
  | cons f rest =>
    cases h with
    | enter h _ => exact h

theorem Context.Nested.proceed (h : c.Nested base mask) (g : γ) :
    (c.proceed g).Nested base mask := by
  obtain ⟨action, blocked, pending, frames⟩ := c
  cases frames with
  | nil => exact h
  | cons f rest =>
    cases h with
    | enter h hx => exact Signals.Nested.enter h hx

end Context

end LinuxExamples.Signals
