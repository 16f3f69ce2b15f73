import LinuxExamples.UnnamedMonitor

namespace LinuxExamples.CoherentReports

open UnnamedSemaphore UnnamedMonitor

/-- A whole get or put; a process id is positive. -/
inductive Op where
  | get (pid : Int) (pos : 0 < pid)
  | put

def Op.perform (info : DataInfo) : Op → Option DataInfo
  | .get pid _ => getAll pid info
  | .put => posixUnnamedPut info

/-- What an operation adds to the semaphore's value. -/
def Op.net : Op → Int
  | .get _ _ => -1
  | .put => 1

def net (batch : List Op) : Int := (batch.map Op.net).sum

/-- A batch of operations, none of which blocks or fails. -/
def performAll (batch : List Op) (info : DataInfo) : Option DataInfo :=
  batch.foldlM Op.perform info

/-- The body of the monitor's loop, from one test of the record to the next. -/
def iteration (s : Monitor) : Monitor := posixUnnamedMonitor^[4] s

/-- A printed line and the record at that moment. -/
structure Report where
  line : Line
  info : DataInfo

/-- What the monitor prints in its iterations, with a batch of operations in front of each.
There is none where an operation blocks or fails, or where the loop has ended. -/
def reports : Monitor → List (List Op) → Option (List Report)
  | _, [] => some []
  | s, batch :: batches =>
    if s.phase = .done then none
    else
      (performAll batch s.info).bind fun info =>
        let t := iteration { s with info := info }
        let printed := t.out.take (t.out.length - s.out.length)
        (reports t batches).map fun rest => printed.map (fun l => ⟨l, info⟩) ++ rest

def Coherent (rs : List Report) : Prop := ∀ r ∈ rs, r.line = wholeLine r.info

theorem coherent_append (rs rs' : List Report) :
    Coherent (rs ++ rs') ↔ Coherent rs ∧ Coherent rs' := List.forall_mem_append

theorem Op.perform_sem {op : Op} {info info' : DataInfo} (h : op.perform info = some info') :
    (info'.sem : Int) = info.sem + op.net := by
  cases op with
  | get pid pos =>
    rw [Op.perform, getAll_eq] at h
    split at h
    · cases h
      simp only [Op.net]
      omega
    · cases h
  | put =>
    obtain ⟨_, h⟩ := Option.ite_none_right_eq_some.mp h
    cases h
    rfl

/-- The record shows that a get has gone by, or the semaphore still has some value at least. -/
def Marked (least : Nat) (info : DataInfo) : Prop := 0 < info.pid ∨ least ≤ info.sem

theorem Op.perform_marked {op : Op} {least : Nat} {info info' : DataInfo}
    (h : op.perform info = some info') (hi : Marked least info) : Marked least info' := by
  cases op with
  | get pid pos =>
    rw [Op.perform, getAll_eq] at h
    split at h
    · cases h
      exact .inl pos
    · cases h
  | put =>
    obtain ⟨_, h⟩ := Option.ite_none_right_eq_some.mp h
    cases h
    exact hi.imp_right Nat.le_succ_of_le

theorem performAll_sem {batch : List Op} {info info' : DataInfo}
    (h : performAll batch info = some info') : (info'.sem : Int) = info.sem + net batch := by
  induction batch generalizing info with
  | nil =>
    cases h
    exact (Int.add_zero _).symm
  | cons op batch ih =>
    obtain ⟨mid, hmid, hrest⟩ := Option.bind_eq_some_iff.mp h
    have hop := Op.perform_sem hmid
    have hbatch := ih hrest
    rw [net, List.map_cons, List.sum_cons]
    rw [net] at hbatch
    omega

theorem performAll_marked {batch : List Op} {least : Nat} {info info' : DataInfo}
    (h : performAll batch info = some info') (hi : Marked least info) : Marked least info' := by
  induction batch generalizing info with
  | nil =>
    cases h
    exact hi
  | cons op batch ih =>
    obtain ⟨mid, hmid, hrest⟩ := Option.bind_eq_some_iff.mp h
    exact ih hrest (Op.perform_marked hmid hi)

theorem iteration_same {s : Monitor} (hp : s.phase = .compare) (h : s.loc = s.info) :
    iteration s = s := by
  have hstep : posixUnnamedMonitor s = s := by
    simp only [posixUnnamedMonitor, hp, h, ne_eq, not_true_eq_false, ↓reduceIte]
  exact Function.iterate_fixed hstep 4

theorem iteration_differs {s : Monitor} (hp : s.phase = .compare) (h : s.loc ≠ s.info) :
    iteration s = { s with
      phase := if s.n + 1 = limit then .done else .compare
      out := line s :: s.out
      sval := s.info.sem
      loc := s.info
      n := s.n + 1 } := by
  have hstep : posixUnnamedMonitor s = { s with phase := .print } := by
    simp only [posixUnnamedMonitor, hp, h, ne_eq, not_false_eq_true, ↓reduceIte]
  simp only [iteration, Function.iterate_succ_apply, hstep]
  rfl

/-- Behind an iteration the copy and `sval` show the record. -/
structure Synced (s : Monitor) : Prop where
  phase : s.phase = .compare ∨ s.phase = .done
  loc : s.loc = s.info
  sval : s.sval = s.info.sem

/-- One iteration prints a line if the copy differs from the record. -/
theorem reports_cons {s : Monitor} {batch : List Op} {batches : List (List Op)} {rs : List Report}
    (h : reports s (batch :: batches) = some rs) (hp : s.phase = .compare) :
    ∃ info rest, performAll batch s.info = some info ∧
      reports (iteration { s with info := info }) batches = some rest ∧
      rs = (if s.loc = info then [] else [⟨line { s with info := info }, info⟩]) ++ rest := by
  have hgoes : s.phase ≠ .done := by
    rw [hp]
    decide
  rw [reports, if_neg hgoes] at h
  obtain ⟨info, hinfo, h⟩ := Option.bind_eq_some_iff.mp h
  obtain ⟨rest, hrest, rfl⟩ := Option.map_eq_some_iff.mp h
  refine ⟨info, rest, hinfo, hrest, ?_⟩
  congr 1
  by_cases hloc : s.loc = info
  · have hi : iteration { s with info := info } = { s with info := info } :=
      iteration_same hp hloc
    rw [hi, if_pos hloc, Nat.sub_self]
    rfl
  · have hi : (iteration { s with info := info }).out = line { s with info := info } :: s.out := by
      rw [iteration_differs (s := { s with info := info }) hp hloc]
    rw [hi, if_neg hloc, List.length_cons, Nat.add_sub_cancel_left]
    rfl

theorem iteration_synced {s : Monitor} (hp : s.phase = .compare) (h : s.loc ≠ s.info) :
    Synced (iteration s) := by
  rw [iteration_differs hp h]
  refine ⟨?_, rfl, rfl⟩
  dsimp only
  split
  · exact .inr rfl
  · exact .inl rfl

theorem line_eq_iff (s : Monitor) : line s = wholeLine s.info ↔ s.sval = s.info.sem := by
  simp [line, wholeLine]

theorem coherent_singleton (s : Monitor) : Coherent [⟨line s, s.info⟩] ↔ s.sval = s.info.sem :=
  List.forall_mem_singleton.trans (line_eq_iff s)

/-- What is printed after the first line is coherent as long as every batch gives back to the
semaphore what it takes. -/
theorem synced_coherent_iff {s : Monitor} {batches : List (List Op)} {rs : List Report}
    (hs : Synced s) (h : reports s batches = some rs) : Coherent rs ↔ ∀ b ∈ batches, net b = 0 := by
  induction batches generalizing s rs with
  | nil =>
    cases h
    exact iff_of_true nofun nofun
  | cons batch batches ih =>
    have hp : s.phase = .compare := hs.phase.resolve_right fun hdone => by
      rw [reports, if_pos hdone] at h
      cases h
    obtain ⟨info, rest, hinfo, hrest, rfl⟩ := reports_cons h hp
    have hsem := performAll_sem hinfo
    have hsval := hs.sval
    rw [List.forall_mem_cons, coherent_append]
    by_cases hloc : s.loc = info
    · have heq : s.info = info := hs.loc.symm.trans hloc
      have hzero : net batch = 0 := by
        rw [heq] at hsem
        omega
      have hsame : iteration { s with info := info } = s := by
        subst heq
        exact iteration_same hp hloc
      rw [hsame] at hrest
      rw [if_pos hloc, ih hs hrest]
      exact and_congr_left' (iff_of_true nofun hzero)
    · have hnext : Synced (iteration { s with info := info }) := iteration_synced hp hloc
      rw [if_neg hloc, ih hnext hrest]
      refine and_congr_left' ((coherent_singleton { s with info := info }).trans ?_)
      simp only
      omega

/-- The first line shows what `sval` holds by chance, and a later one what the semaphore's value
was at the line before. -/
theorem coherent_iff {info : DataInfo} {junk : Int} {batches : List (List Op)} {rs : List Report}
    (h : reports (start info junk) batches = some rs) :
    Coherent rs ↔
      (∀ b ∈ batches.head?, junk = SEM_NUM + net b) ∧ ∀ b ∈ batches.tail, net b = 0 := by
  cases batches with
  | nil =>
    cases h
    exact iff_of_true nofun ⟨nofun, nofun⟩
  | cons batch batches =>
    obtain ⟨info', rest, hinfo, hrest, rfl⟩ := reports_cons h rfl
    have hsem := performAll_sem hinfo
    have hmarked : Marked SEM_NUM info' := performAll_marked hinfo (.inr le_rfl)
    have hloc : (start info junk).loc ≠ info' := by
      rintro rfl
      obtain hpid | hleast := hmarked
      · exact Int.lt_irrefl 0 hpid
      · exact absurd hleast (Nat.not_succ_le_zero 4)
    rw [if_neg hloc, coherent_append, synced_coherent_iff (iteration_synced rfl hloc) hrest]
    refine and_congr_left' ((coherent_singleton _).trans ?_)
    simp only [UnnamedMonitor.start, List.head?_cons, Option.mem_some_iff, forall_eq'] at hsem ⊢
    omega

/-- A get that is given back before the second line. -/
theorem coherent_iff_given_back :
    ∃ rs, reports (UnnamedMonitor.start zero 5) [[], [.get 7 (by decide), .put]] = some rs ∧
      (Coherent rs ↔ (∀ b ∈ [[], [Op.get 7 (by decide), .put]].head?, (5 : Int) = SEM_NUM + net b) ∧
        ∀ b ∈ [[], [Op.get 7 (by decide), .put]].tail, net b = 0) := by
  have hrun : reports (UnnamedMonitor.start zero 5) [[], [.get 7 (by decide), .put]] =
      some [⟨⟨0, 0, 5⟩, ⟨5, 0, 0⟩⟩, ⟨⟨7, 1, 5⟩, ⟨5, 7, 1⟩⟩] := rfl
  exact ⟨_, hrun, coherent_iff hrun⟩

/-- A put between the first two lines is not seen in the second. -/
theorem put_not_seen : ¬ ∀ (info : DataInfo) (junk : Int) (batches : List (List Op))
    (rs : List Report), reports (UnnamedMonitor.start info junk) batches = some rs →
      Coherent rs := by
  intro h
  have hrun : reports (UnnamedMonitor.start zero 5) [[], [.put]] =
      some [⟨⟨0, 0, 5⟩, ⟨5, 0, 0⟩⟩, ⟨⟨0, 0, 5⟩, ⟨6, 0, 0⟩⟩] := rfl
  have hline := h _ _ _ _ hrun _ (List.mem_cons_of_mem _ List.mem_cons_self)
  exact absurd hline (by decide)

end LinuxExamples.CoherentReports
