import LinuxExamples.AnonMmap

namespace LinuxExamples.AnonReports

open Bytes Runs AnonMmap

variable {N : Nat}

/-- What is in the shared record when the children `R` are reported. -/
inductive Stage (ps : Pids N) (s : State N) (R : List (Fin N)) : Prop where
  | quiet (same : differs s.loc s.info = false) (rest : ∀ i, i ∉ R → s.children i = .pid)
  | writing (k : Fin N) (new : k ∉ R) (pid : s.info.pid = ps.getpid k)
      (point : s.children k = .message) (rest : ∀ i, i ∉ k :: R → s.children i = .pid)
  | written (k : Fin N) (new : k ∉ R) (pid : s.info.pid = ps.getpid k)
      (message : Holds s.info.message ((text k).take (MAX_BUF_LEN - 1)))
      (point : s.children k = .done) (rest : ∀ i, i ∉ k :: R → s.children i = .pid)

/-- The children `R` are reported, latest first, and at most one other has begun its update. -/
structure Inv (ps : Pids N) (s : State N) (R : List (Fin N)) : Prop where
  out : s.out = R.map (pair ps)
  n : s.n = R.length
  nodup : R.Nodup
  done : ∀ i ∈ R, s.children i = .done
  loc : ∀ i, i ∉ R → s.loc.pid ≠ ps.getpid i
  left : s.left = true ↔ s.n = N ∧ 0 < N
  stage : Stage ps s R

theorem start_inv (ps : Pids N) (info junk : AnonInfo) : Inv ps (start N info junk) [] := by
  have hsame : differs (cleared junk) (cleared info) = false := by
    rw [differs_eq_false_iff, cleared, cleared, AnonInfo.record_ofRecord, AnonInfo.record_ofRecord,
      Records.fields_cleared, Records.fields_cleared]
  refine ⟨rfl, rfl, List.nodup_nil, fun i hi => ?_, fun i _ => (ps.ne_zero i).symm, ?_,
    .quiet hsame fun _ _ => rfl⟩
  · cases hi
  · simp only [start, Bool.false_eq_true, false_iff, not_and]
    omega

theorem Inv.full_iff {ps : Pids N} {s : State N} {R : List (Fin N)} (h : Inv ps s R) :
    s.n = N ↔ ∀ i, i ∈ R := by
  have hcard := List.toFinset_card_of_nodup h.nodup
  rw [h.n, ← hcard]
  constructor
  · intro hN i
    have huniv : R.toFinset = Finset.univ := Finset.eq_univ_of_card _ (by rw [hN, Fintype.card_fin])
    exact List.mem_toFinset.mp (huniv ▸ Finset.mem_univ i)
  · intro hall
    have huniv : R.toFinset = Finset.univ :=
      Finset.eq_univ_iff_forall.mpr fun i => List.mem_toFinset.mpr (hall i)
    rw [huniv, Finset.card_univ, Fintype.card_fin]

theorem Inv.contract {ps : Pids N} {s : State N} {R : List (Fin N)} (h : Inv ps s R) :
    Contract ps s := by
  refine ⟨fun l hl => ?_, fun hleft i => ?_, fun ⟨hdone, hsame, hn⟩ => ?_⟩
  · rw [h.out] at hl
    obtain ⟨i, hi, rfl⟩ := List.mem_map.mp hl
    exact ⟨i, h.done i hi, rfl⟩
  · have hi := h.full_iff.mp (h.left.mp hleft).1 i
    rw [h.out, List.count_map_of_injective _ _ (pair_injective ps)]
    exact List.count_eq_one_of_mem h.nodup hi
  · have hmissing : ∃ i, i ∉ R := not_forall.mp (h.full_iff.not.mp hn.ne)
    cases h.stage with
    | quiet _ hrest =>
      obtain ⟨i, hi⟩ := hmissing
      have hp := hrest i hi
      rw [hdone i] at hp
      cases hp
    | writing k _ _ hk _ =>
      rw [hdone k] at hk
      cases hk
    | written k hnew hpid _ _ _ =>
      have hne : s.loc.pid ≠ s.info.pid := hpid ▸ h.loc k hnew
      rw [differs_of_pid hne] at hsame
      cases hsame

theorem poll_keeps {ps : Pids N} {s : State N} {R : List (Fin N)} (hi : Inv ps s R)
    (hok : ∀ i, s.children i ≠ .message) : ∃ R', Inv ps (anonMonitor s) R' := by
  cases hi.stage with
  | quiet hsame _ =>
    have hs : anonMonitor s = s := by simp only [anonMonitor, hsame, Bool.false_eq_true, ↓reduceIte]
    exact ⟨R, hs.symm ▸ hi⟩
  | writing k _ _ hk _ => exact absurd hk (hok k)
  | written k hnew hpid hm hk hrest =>
    have hd : differs s.loc s.info = true := differs_of_pid (hpid ▸ hi.loc k hnew)
    have hpos : 0 < N := k.pos
    refine ⟨k :: R, ?_⟩
    simp only [anonMonitor, hd, ↓reduceIte]
    refine ⟨?_, ?_, List.nodup_cons.mpr ⟨hnew, hi.nodup⟩, fun i hiR => ?_, fun i hiR => ?_, ?_, ?_⟩
    · rw [List.map_cons, hi.out, line_pair hpid hm]
    · rw [List.length_cons, hi.n]
    · obtain rfl | hiR := List.mem_cons.mp hiR
      · exact hk
      · exact hi.done i hiR
    · change s.info.pid ≠ ps.getpid i
      rw [hpid]
      intro he
      apply hiR
      rw [ps.injective he]
      exact List.mem_cons_self
    · simp [hpos]
    · exact .quiet (differs_copyInfo _ _) hrest

theorem pid_keeps {ps : Pids N} {s : State N} {R : List (Fin N)} {i : Fin N} (hi : Inv ps s R)
    (hp : s.children i = .pid) (hmid : ∀ j, s.children j ≠ .message)
    (hsame : differs s.loc s.info = false) :
    Inv ps { s with
      info := { s.info with pid := ps.getpid i }
      children := Function.update s.children i .message } R := by
  have hnew : i ∉ R := by
    intro hR
    rw [hi.done i hR] at hp
    cases hp
  have hrest : ∀ j, j ∉ R → s.children j = .pid := by
    cases hi.stage with
    | quiet _ hrest => exact hrest
    | writing k _ _ hk _ => exact absurd hk (hmid k)
    | written k hk hpid _ _ _ =>
      have hd : differs s.loc s.info = true := differs_of_pid (hpid ▸ hi.loc k hk)
      rw [hd] at hsame
      cases hsame
  refine ⟨hi.out, hi.n, hi.nodup, fun j hj => ?_, hi.loc, hi.left, ?_⟩
  · have hji : j ≠ i := fun h => hnew (h ▸ hj)
    exact (Function.update_of_ne hji _ _).trans (hi.done j hj)
  · refine .writing i hnew rfl (Function.update_self _ _ _) fun j hj => ?_
    obtain ⟨hji, hj⟩ := List.ne_and_not_mem_of_not_mem_cons hj
    exact (Function.update_of_ne hji _ _).trans (hrest j hj)

theorem Inv.writing {ps : Pids N} {s : State N} {R : List (Fin N)} {i : Fin N}
    (hi : Inv ps s R) (hp : s.children i = .message) :
    i ∉ R ∧ s.info.pid = ps.getpid i ∧ ∀ j, j ∉ i :: R → s.children j = .pid := by
  have hnew : i ∉ R := by
    intro hR
    rw [hi.done i hR] at hp
    cases hp
  cases hi.stage with
  | quiet _ hrest =>
    rw [hrest i hnew] at hp
    cases hp
  | written k _ _ _ hk hrest =>
    by_cases hik : i = k
    · rw [hik, hk] at hp
      cases hp
    · rw [hrest i (List.not_mem_cons_of_ne_of_not_mem hik hnew)] at hp
      cases hp
  | writing k _ hpid _ hrest =>
    have hik : i = k := by
      by_contra hik
      rw [hrest i (List.not_mem_cons_of_ne_of_not_mem hik hnew)] at hp
      cases hp
    subst hik
    exact ⟨hnew, hpid, hrest⟩

theorem message_keeps {ps : Pids N} {s : State N} {R : List (Fin N)} {i : Fin N}
    (hi : Inv ps s R) (hp : s.children i = .message) :
    Inv ps { s with
      info := { s.info with message := snprintf s.info.message MAX_BUF_LEN (text i) }
      children := Function.update s.children i .done } R := by
  obtain ⟨hnew, hpid, hrest⟩ := hi.writing hp
  refine ⟨hi.out, hi.n, hi.nodup, fun j hj => ?_, hi.loc, hi.left, ?_⟩
  · have hji : j ≠ i := fun h => hnew (h ▸ hj)
    exact (Function.update_of_ne hji _ _).trans (hi.done j hj)
  · refine .written i hnew hpid (strcpy_holds _ (text_noNul _ _)) (Function.update_self _ _ _)
      fun j hj => ?_
    exact (Function.update_of_ne (List.ne_of_not_mem_cons hj) _ _).trans (hrest j hj)

theorem step_keeps (ps : Pids N) (s : State N) (a : Act N) (t : State N) (hi : ∃ R, Inv ps s R)
    (hok : Spaced s a) (ht : step ps s a = some t) : ∃ R, Inv ps t R := by
  obtain ⟨R, hi⟩ := hi
  cases a with
  | poll =>
    obtain ⟨_, rfl⟩ := poll_cases ht
    exact poll_keeps hi hok
  | store i =>
    obtain ⟨hp, rfl⟩ | ⟨hp, rfl⟩ := store_cases ht
    · obtain ⟨hmid, hsame⟩ := hok hp
      exact ⟨R, pid_keeps hi hp hmid hsame⟩
    · exact ⟨R, message_keeps hi hp⟩

/-- Child `i` is not reported and never will be, since its identifier is overwritten. -/
structure Lost (ps : Pids N) (i : Fin N) (s : State N) : Prop where
  point : s.children i ≠ .pid
  info : s.info.pid ≠ ps.getpid i
  out : ∀ l ∈ s.out, l.pid ≠ ps.getpid i
  n : s.left = false → s.n < N

theorem lost_keeps {ps : Pids N} {i : Fin N} (s : State N) (a : Act N) (t : State N)
    (hs : Lost ps i s) (ht : step ps s a = some t) : Lost ps i t := by
  cases a with
  | poll =>
    obtain ⟨hleft, rfl⟩ := poll_cases ht
    obtain ⟨_, he⟩ | ⟨_, he⟩ := anonMonitor_cases s
    · rwa [he]
    · rw [he]
      refine ⟨hs.point, hs.info, List.forall_mem_cons.mpr ⟨hs.info, hs.out⟩, fun hne => ?_⟩
      have hne' : s.n + 1 ≠ N := by simpa using hne
      exact lt_of_le_of_ne (hs.n hleft) hne'
  | store j =>
    obtain ⟨hp, rfl⟩ | ⟨hp, rfl⟩ := store_cases ht
    · have hij : i ≠ j := by
        rintro rfl
        exact hs.point hp
      refine ⟨fun h => ?_, fun he => hij (ps.injective he).symm, hs.out, hs.n⟩
      exact hs.point ((Function.update_of_ne hij _ _).symm.trans h)
    · refine ⟨fun h => ?_, hs.info, hs.out, hs.n⟩
      by_cases hij : i = j
      · subst hij
        simp at h
      · exact hs.point ((Function.update_of_ne hij _ _).symm.trans h)

def remaining : Point → Nat
  | .pid => 2
  | .message => 1
  | .done => 0

theorem all_finish (ps : Pids N) (s : State N) :
    ∃ u, Reaches (step ps) free s u ∧ ∀ i, u.children i = .done := by
  apply reaches_of_measure fun s => ∑ i, remaining (s.children i)
  intro s hs
  obtain ⟨i, hi⟩ := not_forall.mp hs
  have hx : ∃ x, anonSendData i (ps.getpid i) s.info (s.children i) = some x ∧
      remaining x.1 < remaining (s.children i) := by
    cases hp : s.children i with
    | pid | message => exact ⟨_, rfl, Nat.lt_succ_self _⟩
    | done => exact absurd hp hi
  obtain ⟨x, hx, hlt⟩ := hx
  refine ⟨.store i, _, by rw [step, hx, Option.map_some], sum_lt_of_one (p := i) ?_ ?_⟩
  · simpa only [Function.update_self] using hlt
  · intro j hj
    simp only [Function.update_of_ne hj]

theorem Lost.not_contract {ps : Pids N} {i : Fin N} {s : State N} (h : Lost ps i s)
    (hdone : ∀ j, s.children j = .done) (hend : s.left = true ∨ differs s.loc s.info = false) :
    ¬ Contract ps s := by
  intro hc
  by_cases hleft : s.left = true
  · have hmem : pair ps i ∈ s.out := by
      apply List.count_pos_iff.mp
      rw [hc.once hleft i]
      exact Nat.one_pos
    exact h.out _ hmem rfl
  · have hn := h.n (Bool.not_eq_true _ ▸ hleft)
    exact hc.live ⟨hdone, hend.resolve_left hleft, hn⟩

theorem lost_breaks {ps : Pids N} {i : Fin N} {s : State N} (h : Lost ps i s) :
    ∃ u, Reaches (step ps) free s u ∧ ¬ Contract ps u := by
  obtain ⟨u, hu, hdone⟩ := all_finish ps s
  have hlost : Lost ps i u := hu.invariant h fun s a t hs _ ht => lost_keeps s a t hs ht
  by_cases hleft : u.left = true
  · exact ⟨u, hu, hlost.not_contract hdone (.inl hleft)⟩
  · have hstep : step ps u .poll = some (anonMonitor u) := if_neg hleft
    have hpoll : Reaches (step ps) free u (anonMonitor u) := .single trivial hstep
    have hlost' := lost_keeps u .poll _ hlost hstep
    refine ⟨anonMonitor u, hu.trans hpoll, ?_⟩
    obtain ⟨hd, he⟩ | ⟨_, he⟩ := anonMonitor_cases u
    · rw [he] at hlost' ⊢
      exact hlost'.not_contract hdone (.inr hd)
    · rw [he] at hlost' ⊢
      exact hlost'.not_contract hdone (.inr (differs_copyInfo _ _))

/-- A poll between the two stores of an update reports a pair that nobody wrote. -/
theorem early_poll_breaks {ps : Pids N} {s : State N} {R : List (Fin N)} {i : Fin N}
    (hi : Inv ps s R) (hp : s.children i = .message) : ¬ Contract ps (anonMonitor s) := by
  obtain ⟨hnew, hpid, _⟩ := hi.writing hp
  have hd : differs s.loc s.info = true := differs_of_pid (hpid ▸ hi.loc i hnew)
  obtain ⟨hsame, _⟩ | ⟨_, he⟩ := anonMonitor_cases s
  · rw [hd] at hsame
    cases hsame
  · rw [he]
    intro hc
    obtain ⟨k, hk, hline⟩ := hc.written _ List.mem_cons_self
    have hik : i = k := ps.injective (hpid.symm.trans (congrArg Line.pid hline))
    have hk' : s.children k = .done := hk
    rw [← hik, hp] at hk'
    cases hk'

/-- A child that begins before the latest update is reported overwrites its identifier. -/
theorem early_store_loses {ps : Pids N} {s t : State N} {R : List (Fin N)} {i : Fin N}
    (hi : Inv ps s R) (hp : s.children i = .pid)
    (hok : ¬ ((∀ j, s.children j ≠ .message) ∧ differs s.loc s.info = false))
    (ht : step ps s (.store i) = some t) : ∃ k, Lost ps k t := by
  have hactive : ∃ k, k ∉ R ∧ s.children k ≠ .pid := by
    cases hi.stage with
    | writing k hnew _ hk _ => exact ⟨k, hnew, by simp [hk]⟩
    | written k hnew _ _ hk _ => exact ⟨k, hnew, by simp [hk]⟩
    | quiet hsame hrest =>
      refine absurd ⟨fun j hj => ?_, hsame⟩ hok
      by_cases hR : j ∈ R
      · rw [hi.done j hR] at hj
        cases hj
      · rw [hrest j hR] at hj
        cases hj
  obtain ⟨k, hnew, hk⟩ := hactive
  have hki : k ≠ i := by
    rintro rfl
    exact hk hp
  have hout : ∀ l ∈ s.out, l.pid ≠ ps.getpid k := by
    intro l hl
    rw [hi.out] at hl
    obtain ⟨j, hj, rfl⟩ := List.mem_map.mp hl
    exact fun he => hnew (ps.injective he ▸ hj)
  have hn : s.n < N := by
    apply lt_of_le_of_ne _ (hi.full_iff.not.mpr fun h => hnew (h k))
    rw [hi.n]
    simpa using hi.nodup.length_le_card
  obtain ⟨_, rfl⟩ | ⟨hmid, _⟩ := store_cases ht
  · refine ⟨k, fun h => hk ?_, fun he => hki (ps.injective he).symm, hout, fun _ => hn⟩
    exact (Function.update_of_ne hki _ _).symm.trans h
  · rw [hp] at hmid
    cases hmid

/-- Every child is reported exactly once in the runs whose updates are spaced, and the
first store or poll that comes too early leads to a state where one is not. -/
theorem contract_iff_spaced (ps : Pids N) (info junk : AnonInfo) :
    Guards (step ps) Spaced (Contract ps) (start N info junk) := by
  apply Guards.of_invariant fun s => ∃ R, Inv ps s R
  · exact ⟨[], start_inv ps info junk⟩
  · exact step_keeps ps
  · exact fun _ ⟨_, hi⟩ => hi.contract
  · intro s a t ⟨R, hi⟩ ht ha
    cases a with
    | poll =>
      obtain ⟨i, hp⟩ := not_forall.mp ha
      obtain ⟨_, rfl⟩ := poll_cases ht
      exact ⟨_, .refl _, early_poll_breaks hi (not_not.mp hp)⟩
    | store i =>
      obtain ⟨hp, hok⟩ := Classical.not_imp.mp ha
      obtain ⟨k, hk⟩ := early_store_loses hi hp hok ht
      exact lost_breaks hk

def consecutive : Pids FORK_NUM where
  getpid i := 100 + (i : Nat)
  injective i j h := by
    ext
    simpa using h
  ne_zero i := by omega

def blank : AnonInfo := ⟨0, fun _ => 0⟩

/-- The monitor polls when child 0 has stored its identifier but not yet its message. -/
theorem half_written_pair : ¬ ∀ s, Reaches (step consecutive) free (start FORK_NUM blank blank) s →
    Contract consecutive s := by
  intro h
  let child : Fin FORK_NUM := ⟨0, by decide⟩
  let info : AnonInfo := { cleared blank with pid := 100 }
  let mid : Fin FORK_NUM → Point := Function.update (fun _ => .pid) child .message
  have hr : run (step consecutive) (start FORK_NUM blank blank) [.store child, .poll] =
      some ⟨info, mid, copyInfo (cleared blank) info, 1, [line info], false⟩ := rfl
  obtain ⟨k, hk, _⟩ := (h _ (run_reaches hr)).written _ List.mem_cons_self
  have hnone : ∀ k, mid k ≠ .done := by decide
  exact hnone k hk

end LinuxExamples.AnonReports
