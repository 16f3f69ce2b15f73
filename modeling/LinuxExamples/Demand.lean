import LinuxExamples.Runs

namespace LinuxExamples.Demand

open Runs

/-- The value of a counting semaphore, and how many callers are in a call that waits for a
permit, in one that gives up where there is none, and in a post. -/
structure Tally where
  value : Nat
  waits : Nat
  tries : Nat
  posts : Nat

inductive Act where
  | take | attempt | post

/-- One caller is served and leaves. A post that would exceed `max` does nothing. -/
def step (max : Nat) (s : Tally) : Act → Option Tally
  | .take =>
    if 0 < s.waits ∧ 0 < s.value then
      some { s with value := s.value - 1, waits := s.waits - 1 }
    else none
  | .attempt =>
    if 0 < s.tries then some { s with value := s.value - 1, tries := s.tries - 1 } else none
  | .post =>
    if 0 < s.posts then
      some { s with value := if s.value < max then s.value + 1 else s.value, posts := s.posts - 1 }
    else none

/-- All callers have left. -/
def Served (s : Tally) : Prop := s.waits = 0 ∧ s.tries = 0 ∧ s.posts = 0

def pending (s : Tally) : Nat := s.waits + s.tries + s.posts

/-- There are permits for all who wait, when nobody else takes any. -/
def Covered (s : Tally) : Prop := s.waits ≤ s.value + s.posts

/-- There are permits for all who wait, whoever is served before them. -/
def Secure (max : Nat) (s : Tally) : Prop :=
  s.waits = 0 ∨ s.waits + s.tries ≤ min max (s.value + s.posts)

variable {max : Nat} {s t : Tally} {a : Act}

/-- The three ways of being served. -/
inductive Move (max : Nat) (s t : Tally) : Act → Prop where
  | take (waits : s.waits = t.waits + 1) (value : s.value = t.value + 1) (tries : t.tries = s.tries)
      (posts : t.posts = s.posts) : Move max s t .take
  | attempt (tries : s.tries = t.tries + 1) (value : t.value = s.value - 1)
      (waits : t.waits = s.waits) (posts : t.posts = s.posts) : Move max s t .attempt
  | post (posts : s.posts = t.posts + 1) (waits : t.waits = s.waits) (tries : t.tries = s.tries)
      (value : s.value < max ∧ t.value = s.value + 1 ∨ max ≤ s.value ∧ t.value = s.value) :
      Move max s t .post

theorem step_move (h : step max s a = some t) : Move max s t a := by
  cases a with
  | take =>
    obtain ⟨⟨hwaits, hvalue⟩, ht⟩ := Option.ite_none_right_eq_some.mp h
    cases ht
    exact .take (Nat.sub_add_cancel hwaits).symm (Nat.sub_add_cancel hvalue).symm rfl rfl
  | attempt =>
    obtain ⟨htries, ht⟩ := Option.ite_none_right_eq_some.mp h
    cases ht
    exact .attempt (Nat.sub_add_cancel htries).symm rfl rfl rfl
  | post =>
    obtain ⟨hposts, ht⟩ := Option.ite_none_right_eq_some.mp h
    cases ht
    refine .post (Nat.sub_add_cancel hposts).symm rfl rfl ?_
    simp only
    split
    · exact .inl ⟨‹_›, rfl⟩
    · exact .inr ⟨Nat.le_of_not_lt ‹_›, rfl⟩

theorem Move.step (h : Move max s t a) : step max s a = some t := by
  cases h with
  | take waits value tries posts =>
    refine (if_pos ⟨by omega, by omega⟩).trans (congrArg some ?_)
    cases s
    cases t
    simp only [Tally.mk.injEq] at *
    omega
  | attempt tries value waits posts =>
    refine (if_pos (by omega)).trans (congrArg some ?_)
    cases s
    cases t
    simp only [Tally.mk.injEq] at *
    omega
  | post posts waits tries value =>
    refine (if_pos (by omega)).trans (congrArg some ?_)
    cases s
    cases t
    simp only [Tally.mk.injEq] at *
    split <;> omega

theorem Move.pending_lt (h : Move max s t a) : pending t < pending s := by
  unfold pending
  cases h <;> omega

theorem Move.value_le (h : Move max s t a) (hs : s.value ≤ max) : t.value ≤ max := by
  cases h <;> omega

/-- Callers that are not covered never will be. -/
theorem Move.not_covered (h : Move max s t a) (hs : ¬ Covered s) : ¬ Covered t := by
  unfold Covered at hs ⊢
  cases h <;> omega

theorem Move.secure (h : Move max s t a) (hs : Secure max s) : Secure max t := by
  unfold Secure at hs ⊢
  cases h <;> omega

theorem Secure.covered (h : Secure max s) : Covered s := by
  unfold Secure at h
  unfold Covered
  omega

theorem exists_take (max : Nat) (hwaits : 0 < s.waits) (hvalue : 0 < s.value) :
    ∃ t, step max s .take = some t ∧ Move max s t .take :=
  have h := if_pos ⟨hwaits, hvalue⟩
  ⟨_, h, step_move h⟩

theorem exists_attempt (max : Nat) (htries : 0 < s.tries) :
    ∃ t, step max s .attempt = some t ∧ Move max s t .attempt :=
  have h := if_pos htries
  ⟨_, h, step_move h⟩

theorem exists_post (max : Nat) (hposts : 0 < s.posts) :
    ∃ t, step max s .post = some t ∧ Move max s t .post :=
  have h := if_pos hposts
  ⟨_, h, step_move h⟩

/-- Covered callers have a next step after which they are still covered: a `take` where it is
possible, a post where there are only waiting callers left without a permit. -/
theorem Covered.next (hmax : 0 < max) (hs : Covered s) (hg : ¬ Served s) :
    ∃ a t, step max s a = some t ∧ Covered t ∧ pending t < pending s := by
  unfold Covered Served at *
  obtain ⟨a, t, ht, hm, hc⟩ : ∃ a t, step max s a = some t ∧ Move max s t a ∧
      t.waits ≤ t.value + t.posts := by
    by_cases hwaits : 0 < s.waits
    · by_cases hvalue : 0 < s.value
      · obtain ⟨t, ht, hm⟩ := exists_take max hwaits hvalue
        refine ⟨_, t, ht, hm, ?_⟩
        cases hm
        omega
      · obtain ⟨t, ht, hm⟩ := exists_post max (show 0 < s.posts by omega)
        refine ⟨_, t, ht, hm, ?_⟩
        cases hm
        omega
    · by_cases htries : 0 < s.tries
      · obtain ⟨t, ht, hm⟩ := exists_attempt max htries
        refine ⟨_, t, ht, hm, ?_⟩
        cases hm
        omega
      · obtain ⟨t, ht, hm⟩ := exists_post max (show 0 < s.posts by omega)
        refine ⟨_, t, ht, hm, ?_⟩
        cases hm
        omega
  exact ⟨a, t, ht, hc, hm.pending_lt⟩

/-- Callers can all be served exactly when they are covered. -/
theorem serves_iff (hmax : 0 < max) :
    (∃ t, Reaches (step max) free s t ∧ Served t) ↔ Covered s := by
  constructor
  · rintro ⟨t, h, hend⟩
    by_contra hs
    have ht : ¬ Covered t := h.invariant hs fun _ _ _ hi _ hn => (step_move hn).not_covered hi
    unfold Covered at ht
    unfold Served at hend
    omega
  · exact reaches_of_measure_inv pending (fun s hs hg => hs.next hmax hg) s

/-- Callers that are not secure: the posts first, then those who only try. -/
theorem next_of_not_secure (hs : ¬ Secure max s ∧ s.value ≤ max) (hg : Covered s) :
    ∃ a t, step max s a = some t ∧ (¬ Secure max t ∧ t.value ≤ max) ∧ pending t < pending s := by
  unfold Secure Covered at *
  by_cases hposts : 0 < s.posts
  · obtain ⟨t, ht, hm⟩ := exists_post max hposts
    refine ⟨_, t, ht, ⟨?_, hm.value_le hs.2⟩, hm.pending_lt⟩
    cases hm
    omega
  · obtain ⟨t, ht, hm⟩ := exists_attempt max (show 0 < s.tries by omega)
    refine ⟨_, t, ht, ⟨?_, hm.value_le hs.2⟩, hm.pending_lt⟩
    cases hm
    omega

/-- Callers stay covered in every order exactly when they are secure. -/
theorem stays_covered_iff (hs : s.value ≤ max) :
    (∀ t, Reaches (step max) free s t → Covered t) ↔ Secure max s := by
  constructor
  · intro h
    by_contra hsec
    obtain ⟨t, ht, hc⟩ := reaches_of_measure_inv pending
      (fun s hs hg => next_of_not_secure hs (not_not.mp hg)) s ⟨hsec, hs⟩
    exact hc (h t ht)
  · intro hsec t h
    have ht : Secure max t := h.invariant hsec fun _ _ _ hi _ hn => (step_move hn).secure hi
    exact ht.covered

end LinuxExamples.Demand
