import LinuxExamples.AnonChildren

namespace LinuxExamples.AnonChildren

open AnonMmap Bytes Runs Stdio

/-- The text that the monitor shows of what child `i` has stored. -/
def shown (i : Fin FORK_NUM) : List UInt8 := (text i).take (MAX_BUF_LEN - 1)

/-- What a child has still to store is not in the shared record yet. -/
structure Fresh (ps : Pids FORK_NUM) (f : AnonMmap.State FORK_NUM) : Prop where
  pid : ∀ i, f.children i = .pid → f.info.pid ≠ ps.getpid i
  message : ∀ i, f.children i ≠ .done → str f.info.message 0 MAX_BUF_LEN ≠ shown i

section Fresh

variable {ps : Pids FORK_NUM} {f f' : AnonMmap.State FORK_NUM} {i : Fin FORK_NUM}

theorem shown_injective : ∀ i j, shown i = shown j → i = j := by decide

theorem shown_ne_nil : ∀ i, shown i ≠ [] := by decide

theorem str_snprintf (m : Mem) (i : Fin FORK_NUM) :
    str (snprintf m MAX_BUF_LEN (text i)) 0 MAX_BUF_LEN = shown i :=
  (strcpy_holds m (text_noNul i _)).str_eq ((List.length_take_le _ _).trans (Nat.sub_le _ _))

theorem store_fresh (hf : Fresh ps f) (h : AnonMmap.step ps f (.store i) = some f') :
    Fresh ps f' := by
  obtain ⟨hp, rfl⟩ | ⟨hp, rfl⟩ := store_cases h
  · refine ⟨fun j hj => ?_, fun j hj => ?_⟩
    · by_cases hji : j = i
      · subst hji
        simp at hj
      · exact fun he => hji (ps.injective he).symm
    · by_cases hji : j = i
      · subst hji
        exact hf.message j (by simp [hp])
      · exact hf.message j (by simpa [hji] using hj)
  · refine ⟨fun j hj => ?_, fun j hj => ?_⟩
    · by_cases hji : j = i
      · subst hji
        simp at hj
      · exact hf.pid j (by simpa [hji] using hj)
    · by_cases hji : j = i
      · subst hji
        simp at hj
      · rw [str_snprintf]
        exact fun he => hji (shown_injective i j he).symm

/-- Right behind a report each store makes another one due. -/
theorem store_differs (hf : Fresh ps f) (h : AnonMmap.step ps f (.store i) = some f')
    (hsame : differs f.loc f.info = false) : differs f'.loc f'.info = true := by
  rw [differs_eq_false_iff] at hsame
  obtain ⟨hp, rfl⟩ | ⟨hp, rfl⟩ := store_cases h
  · have hpid : f.loc.pid = f.info.pid := congrArg Prod.fst hsame
    exact differs_of_pid (hpid ▸ hf.pid i hp)
  · by_contra hnot
    rw [Bool.not_eq_true, differs_eq_false_iff, hsame] at hnot
    have hmessage := congrArg Prod.snd hnot
    apply hf.message i (by simp [hp])
    rw [← str_snprintf f.info.message i, str_eq_takeWhile, str_eq_takeWhile]
    exact congrArg (List.takeWhile _) hmessage

theorem start_fresh (ps : Pids FORK_NUM) (info junk : AnonInfo) :
    Fresh ps (AnonMmap.start FORK_NUM info junk) := by
  refine ⟨fun i _ => (ps.ne_zero i).symm, fun i _ he => shown_ne_nil i (he.symm.trans ?_)⟩
  have hfields := Records.fields_cleared MAX_BUF_LEN info.record
  have hzero : read (AnonMmap.start FORK_NUM info junk).info.message 0 MAX_BUF_LEN =
      List.replicate MAX_BUF_LEN 0 := congrArg Prod.snd hfields
  rw [str_eq_takeWhile, hzero]
  simp

end Fresh

/-- How many stores a child has still to make. -/
def storesLeft (s : State) (i : Fin FORK_NUM) : Nat :=
  if i ∈ s.killed then 0
  else
    match s.family.children i with
    | .pid => 2
    | .message => 1
    | .done => 0

/-- How many reports there can be: those so far, one that is due, and one for each store. -/
def potential (s : State) : Nat :=
  s.family.n + (if differs s.family.loc s.family.info then 1 else 0) + ∑ i, storesLeft s i

section Potential

variable {ps : Pids FORK_NUM} {s t : State} {a : Act}

theorem store_storesLeft {i : Fin FORK_NUM} {f : AnonMmap.State FORK_NUM} (hruns : s.runs i)
    (h : AnonMmap.step ps s.family (.store i) = some f) :
    ∑ j, storesLeft { s with family := f } j + 1 = ∑ j, storesLeft s j := by
  have hkilled : i ∉ s.killed := fun hk => hruns.2 (.inr hk)
  refine sum_succ_of_one (p := i) ?_ fun j hj => ?_
  · obtain ⟨hp, rfl⟩ | ⟨hp, rfl⟩ := store_cases h <;> simp [storesLeft, hkilled, hp]
  · obtain ⟨_, _, _, _, hrest⟩ := store_keeps h
    simp only [storesLeft, hrest j hj]

theorem kill_storesLeft (s : State) (i : Fin FORK_NUM) (out : Output (Option (Fin FORK_NUM)) Text) :
    ∑ j, storesLeft { s with killed := insert i s.killed, out := out } j ≤ ∑ j, storesLeft s j := by
  refine Finset.sum_le_sum fun j _ => ?_
  by_cases hj : j ∈ s.killed <;> by_cases hji : j = i <;> simp [storesLeft, hj, hji]

theorem reap_family (ps : Pids FORK_NUM) (s : State) (i : Fin FORK_NUM) :
    (reap ps s i).family = s.family ∧ (reap ps s i).killed = s.killed := by
  unfold reap
  dsimp only
  split <;> exact ⟨rfl, rfl⟩

theorem potential_congr (hfamily : t.family = s.family) (hkilled : t.killed = s.killed) :
    potential t = potential s := by
  simp only [potential, storesLeft, hfamily, hkilled]

/-- A report uses up the one that is due. -/
theorem poll_potential (hleft : s.family.left = false) : potential (poll s) = potential s := by
  obtain ⟨_, h⟩ | ⟨hd, hfamily, h⟩ := poll_cases hleft
  · rw [h]
  · have hkilled : (poll s).killed = s.killed := by
      obtain ⟨_, h⟩ | ⟨_, h⟩ := h <;> rw [h]
    obtain ⟨hcount, _, hchildren, _, _, hsame⟩ := anonMonitor_reports hd
    simp only [potential, storesLeft, hfamily, hkilled, hcount, hchildren, hsame, hd,
      Bool.false_eq_true, ↓reduceIte]

theorem step_potential (hs : Counted s) (h : step ps s a = some t) : potential t ≤ potential s := by
  cases a with
  | fork =>
    obtain ⟨_, h⟩ := Option.ite_none_right_eq_some.mp h
    split at h <;> cases h <;> exact (potential_congr rfl rfl).le
  | forkFails =>
    obtain ⟨_, h⟩ := Option.ite_none_right_eq_some.mp h
    cases h
    exact (potential_congr rfl rfl).le
  | poll =>
    obtain ⟨hp, h⟩ := Option.ite_none_right_eq_some.mp h
    cases h
    exact (poll_potential (hs.left (.inr hp))).le
  | store i =>
    obtain ⟨hruns, h⟩ := Option.ite_none_right_eq_some.mp h
    obtain ⟨f, hf, rfl⟩ := Option.map_eq_some_iff.mp h
    obtain ⟨hn, _⟩ := store_keeps hf
    have hstores := store_storesLeft hruns hf
    have hdue : (if differs f.loc f.info then 1 else 0) ≤ 1 := by split <;> decide
    simp only [potential, hn]
    omega
  | exit i =>
    obtain ⟨_, h⟩ := Option.ite_none_right_eq_some.mp h
    cases h
    exact (potential_congr rfl rfl).le
  | kill i =>
    obtain ⟨_, h⟩ := Option.ite_none_right_eq_some.mp h
    cases h
    exact Nat.add_le_add_left (kill_storesLeft s i _) _
  | reap i =>
    obtain ⟨_, h⟩ := Option.ite_none_right_eq_some.mp h
    cases h
    obtain ⟨hfamily, hkilled⟩ := reap_family ps s i
    exact (potential_congr hfamily hkilled).le

/-- The parent has not returned, and there can be enough reports. -/
def Possible (s : State) : Prop :=
  match s.parent with
  | .fork | .monitor => FORK_NUM ≤ potential s
  | .wait => True
  | .returned ret => ret = 0

theorem possible_monitor (hp : s.parent = .monitor) : Possible s ↔ FORK_NUM ≤ potential s := by
  simp only [Possible, hp]

def Parent.rank (forked : Nat) : Parent → Nat
  | .fork => FORK_NUM + 2 - forked
  | .monitor => 1
  | .wait | .returned _ => 0

/-- How many steps the parent and the children have to make, the monitor only when a report
is due. -/
def remaining (s : State) : Nat :=
  s.parent.rank s.forked + 2 * ∑ i, storesLeft s i +
    (if differs s.family.loc s.family.info then 1 else 0) + ((s.exited ∪ s.killed)ᶜ).card +
    (FORK_NUM - s.reaped.length)

structure Live (ps : Pids FORK_NUM) (s : State) : Prop where
  counted : Counted s
  fresh : Fresh ps s.family
  possible : Possible s

/-- No child is killed. -/
def Unkilled (_ : State) : Act → Prop
  | .kill _ => False
  | _ => True

/-- There is a step to make. -/
def Next (ps : Pids FORK_NUM) (s : State) : Prop :=
  ∃ a t, Unkilled s a ∧ step ps s a = some t ∧ Live ps t ∧ remaining t < remaining s

theorem exists_store_of_not_done (ps : Pids FORK_NUM) {f : AnonMmap.State FORK_NUM}
    {i : Fin FORK_NUM} (h : f.children i ≠ .done) :
    ∃ f', AnonMmap.step ps f (.store i) = some f' := by
  cases hc : f.children i with
  | pid | message => exact ⟨_, by rw [AnonMmap.step, hc]; rfl⟩
  | done => exact absurd hc h

/-- When no report is due, some child has a store to make. -/
theorem exists_store (ps : Pids FORK_NUM) (hs : Counted s) (hp : s.parent = .monitor)
    (hsame : differs s.family.loc s.family.info = false) (h : FORK_NUM ≤ potential s) :
    ∃ i f, s.runs i ∧ AnonMmap.step ps s.family (.store i) = some f := by
  have hprogress := hs.progress
  simp only [Progress, hp] at hprogress
  obtain ⟨hforked, hn, _⟩ := hprogress
  have hpos : 0 < ∑ i, storesLeft s i := by
    simp only [potential, hsame, Bool.false_eq_true, ↓reduceIte] at h
    omega
  obtain ⟨i, _, hi⟩ := Finset.exists_ne_zero_of_sum_ne_zero hpos.ne'
  have hkilled : i ∉ s.killed := fun hk => hi (if_pos hk)
  rw [storesLeft, if_neg hkilled] at hi
  have hexited : i ∉ s.exited := fun he => by simp [hs.done i he] at hi
  have hruns : s.runs i := runs_of_not_dead hforked (by simp [State.dead, hkilled, hexited])
  have hdone : s.family.children i ≠ .done := fun hd => by simp [hd] at hi
  obtain ⟨f, hf⟩ := exists_store_of_not_done ps hdone
  exact ⟨i, f, hruns, hf⟩

theorem poll_fresh (hleft : s.family.left = false) (hf : Fresh ps s.family) :
    Fresh ps (poll s).family := by
  obtain ⟨_, h⟩ | ⟨hd, hfamily, _⟩ := poll_cases hleft
  · rw [h]
    exact hf
  · obtain ⟨_, _, hchildren, _, hinfo, _⟩ := anonMonitor_reports hd
    rw [hfamily]
    refine ⟨fun i => ?_, fun i => ?_⟩
    · rw [hchildren, hinfo]
      exact hf.pid i
    · rw [hchildren, hinfo]
      exact hf.message i

theorem fork_next (hs : Live ps s) (hp : s.parent = .fork) : Next ps s := by
  have hpossible := hs.possible
  simp only [Possible, hp] at hpossible
  by_cases hlt : s.forked < FORK_NUM
  · have hstep : step ps s .fork = some { s with
        forked := s.forked + 1
        out := s.out.fork none (some ⟨s.forked, hlt⟩) } := by
      simp only [step, hp, ↓reduceIte, dif_pos hlt]
    refine ⟨.fork, _, trivial, hstep, ⟨step_counted hs.counted hstep, hs.fresh, ?_⟩, ?_⟩
    · simp only [Possible, hp]
      exact hpossible
    · simp only [remaining, hp, Parent.rank, storesLeft]
      omega
  · have hstep : step ps s .fork = some { s with parent := .monitor } := by
      simp only [step, hp, ↓reduceIte, dif_neg hlt]
    refine ⟨.fork, _, trivial, hstep, ⟨step_counted hs.counted hstep, hs.fresh, hpossible⟩, ?_⟩
    have hforked := hs.counted.forked
    simp only [remaining, hp, Parent.rank, storesLeft]
    omega

theorem monitor_next (hs : Live ps s) (hp : s.parent = .monitor) : Next ps s := by
  have hpossible := (possible_monitor hp).mp hs.possible
  have hleft := hs.counted.left (.inr hp)
  cases hd : differs s.family.loc s.family.info with
  | true =>
    have hstep : step ps s .poll = some (poll s) := if_pos hp
    have hpotential := poll_potential hleft
    obtain ⟨hsame, _⟩ | ⟨_, hfamily, h⟩ := poll_cases hleft
    · rw [hd] at hsame
      cases hsame
    · obtain ⟨_, _, hchildren, _, _, hsame⟩ := anonMonitor_reports hd
      refine ⟨.poll, _, trivial, hstep,
        ⟨step_counted hs.counted hstep, poll_fresh hleft hs.fresh, ?_⟩, ?_⟩
      · obtain ⟨_, h⟩ | ⟨_, h⟩ := h
        · have hparent : (poll s).parent = .monitor := by rw [h]; exact hp
          exact (possible_monitor hparent).mpr (hpotential ▸ hpossible)
        · have hparent : (poll s).parent = .wait := by rw [h]
          simp only [Possible, hparent]
      · obtain ⟨_, h⟩ | ⟨_, h⟩ := h <;>
          simp only [h, remaining, hp, hd, Parent.rank, storesLeft, hchildren, hsame, ↓reduceIte,
            Bool.false_eq_true] <;> omega
  | false =>
    obtain ⟨i, f, hruns, hf⟩ := exists_store ps hs.counted hp hd hpossible
    have hstep : step ps s (.store i) = some { s with family := f } := by
      simp only [step, if_pos hruns, hf, Option.map_some]
    have hdue := store_differs hs.fresh hf hd
    have hstores := store_storesLeft hruns hf
    obtain ⟨hn, _⟩ := store_keeps hf
    refine ⟨.store i, _, trivial, hstep,
      ⟨step_counted hs.counted hstep, store_fresh hs.fresh hf, ?_⟩, ?_⟩
    · have hparent : ({ s with family := f } : State).parent = .monitor := hp
      refine (possible_monitor hparent).mpr ?_
      simp only [potential, hd, hdue, hn, ↓reduceIte, Bool.false_eq_true] at hpossible ⊢
      omega
    · simp only [remaining, hd, hdue, ↓reduceIte, Bool.false_eq_true]
      omega

theorem wait_next (hs : Live ps s) (hp : s.parent = .wait) : Next ps s := by
  have hprogress := hs.counted.progress
  simp only [Progress, hp] at hprogress
  obtain ⟨hforked, _, hlen⟩ := hprogress
  by_cases hall : ∀ i, s.dead i
  · have hunreaped : ∃ i, i ∉ s.reaped := by
      by_contra hnot
      push Not at hnot
      have hle : (List.finRange FORK_NUM).length ≤ s.reaped.length :=
        ((List.nodup_finRange _).subperm fun i _ => hnot i).length_le
      rw [List.length_finRange] at hle
      omega
    obtain ⟨i, hi⟩ := hunreaped
    have hstep : step ps s (.reap i) = some (reap ps s i) := if_pos ⟨hp, hall i, hi⟩
    obtain ⟨hfamily, hkilled⟩ := reap_family ps s i
    refine ⟨.reap i, _, trivial, hstep, ⟨step_counted hs.counted hstep, hfamily ▸ hs.fresh, ?_⟩, ?_⟩
    · unfold reap
      dsimp only
      split
      · exact rfl
      · simp only [Possible, hp]
    · have hmore : (s.reaped ++ [i]).length = s.reaped.length + 1 := List.length_append
      unfold reap
      dsimp only
      split <;> simp only [remaining, hp, Parent.rank, storesLeft] <;> omega
  · push Not at hall
    obtain ⟨i, hi⟩ := hall
    have hruns := runs_of_not_dead hforked hi
    by_cases hdone : s.family.children i = .done
    · have hstep : step ps s (.exit i) = some { s with
          exited := insert i s.exited
          out := s.out.flush (some i) } := if_pos ⟨hruns, hdone⟩
      refine ⟨.exit i, _, trivial, hstep, ⟨step_counted hs.counted hstep, hs.fresh, ?_⟩, ?_⟩
      · simp only [Possible, hp]
      · have hless : ((insert i s.exited ∪ s.killed)ᶜ).card < ((s.exited ∪ s.killed)ᶜ).card := by
          apply Finset.card_lt_card
          rw [Finset.compl_ssubset_compl, Finset.insert_union]
          exact Finset.ssubset_insert (by simpa [State.dead] using hi)
        simp only [remaining, storesLeft]
        omega
    · obtain ⟨f, hf⟩ := exists_store_of_not_done ps hdone
      have hstep : step ps s (.store i) = some { s with family := f } := by
        simp only [step, if_pos hruns, hf, Option.map_some]
      have hstores := store_storesLeft hruns hf
      have hdue : (if differs f.loc f.info then 1 else 0) ≤ 1 := by split <;> decide
      refine ⟨.store i, _, trivial, hstep,
        ⟨step_counted hs.counted hstep, store_fresh hs.fresh hf, ?_⟩, ?_⟩
      · simp only [Possible, hp]
      · simp only [remaining]
        omega

theorem Live.next (hs : Live ps s) (hg : s.parent ≠ .returned 0) : Next ps s := by
  cases hp : s.parent with
  | fork => exact fork_next hs hp
  | monitor => exact monitor_next hs hp
  | wait => exact wait_next hs hp
  | returned ret =>
    have hpossible := hs.possible
    simp only [Possible, hp] at hpossible
    exact absurd (hpossible ▸ hp) hg

theorem step_fresh (hs : Counted s) (hf : Fresh ps s.family) (h : step ps s a = some t) :
    Fresh ps t.family := by
  cases a with
  | fork =>
    obtain ⟨_, h⟩ := Option.ite_none_right_eq_some.mp h
    split at h <;> cases h <;> exact hf
  | poll =>
    obtain ⟨hp, h⟩ := Option.ite_none_right_eq_some.mp h
    cases h
    exact poll_fresh (hs.left (.inr hp)) hf
  | store i =>
    obtain ⟨_, h⟩ := Option.ite_none_right_eq_some.mp h
    obtain ⟨f, hstore, rfl⟩ := Option.map_eq_some_iff.mp h
    exact store_fresh hf hstore
  | reap i =>
    obtain ⟨_, h⟩ := Option.ite_none_right_eq_some.mp h
    cases h
    exact (reap_family ps s i).1 ▸ hf
  | forkFails | exit i | kill i =>
    obtain ⟨_, h⟩ := Option.ite_none_right_eq_some.mp h
    cases h
    exact hf

/-- There cannot be more than `k` reports. -/
structure Limited (k : Nat) (s : State) : Prop where
  counted : Counted s
  potential : potential s ≤ k

theorem step_limited {k : Nat} (hs : Limited k s) (h : step ps s a = some t) : Limited k t :=
  ⟨step_counted hs.counted h, (step_potential hs.counted h).trans hs.potential⟩

/-- Whether the parent can still return 0: without a kill when there can be enough reports, and
never when there cannot. -/
structure Decided (ps : Pids FORK_NUM) (s : State) : Prop where
  can : FORK_NUM ≤ potential s →
    ∃ t, Reaches (step ps) Unkilled s t ∧ t.parent = .returned 0
  cannot : potential s < FORK_NUM → ∀ t, Reaches (step ps) free s t → t.parent ≠ .returned 0

theorem return_decided (ps : Pids FORK_NUM) (terminal : Bool) (info junk : AnonInfo) :
    Always (step ps) (fun s => s.parent = .fork ∨ s.parent = .monitor → Decided ps s)
      (start terminal info junk) := by
  refine .of_invariant (fun s => Counted s ∧ Fresh ps s.family)
    ⟨start_counted terminal info junk, start_fresh ps info junk⟩
    (fun _ _ _ hs h => ⟨step_counted hs.1 h, step_fresh hs.1 hs.2 h⟩) ?_
  rintro s ⟨hcounted, hfresh⟩ hp
  refine ⟨fun hle => ?_, fun hlt t ht hreturned => ?_⟩
  · have hlive : Live ps s := by
      refine ⟨hcounted, hfresh, ?_⟩
      obtain hp | hp := hp <;> simpa only [Possible, hp] using hle
    exact reaches_ok_of_measure remaining (fun _ hu hg => hu.next hg) s hlive
  · have hlimited : Limited (potential s) t :=
      ht.invariant ⟨hcounted, le_rfl⟩ fun _ _ _ hu _ hv => step_limited hu hv
    have hprogress := hlimited.counted.progress
    simp only [Progress, hreturned] at hprogress
    have hn : t.family.n ≤ potential t := by
      unfold potential
      omega
    have hle := hlimited.potential
    rw [(hprogress trivial).1] at hn
    omega

end Potential

end LinuxExamples.AnonChildren
