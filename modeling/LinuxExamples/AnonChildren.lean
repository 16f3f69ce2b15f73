import LinuxExamples.AnonMmap
import LinuxExamples.Stdio

namespace LinuxExamples.AnonChildren

open AnonMmap Bytes Runs Stdio

/-- What `do_anon` and its monitor print. -/
inductive Text where
  | startAnonymous | report (l : Line) | endAnonymous | terminate (pid : Int)
  deriving DecidableEq

inductive Parent where
  | fork | monitor | wait | returned (ret : Int)
  deriving DecidableEq

/-- `do_anon` with the children forked so far; the shared record, the stores that the children
have still to make and the variables of the monitor; the children that have ended by
themselves or by a signal, and those that were waited for; and the output, in which the
parent is `none`. -/
structure State where
  parent : Parent
  forked : Nat
  family : AnonMmap.State FORK_NUM
  exited : Finset (Fin FORK_NUM)
  killed : Finset (Fin FORK_NUM)
  reaped : List (Fin FORK_NUM)
  out : Output (Option (Fin FORK_NUM)) Text

def start (terminal : Bool) (info junk : AnonInfo) : State where
  parent := .fork
  forked := 0
  family := AnonMmap.start FORK_NUM info junk
  exited := ∅
  killed := ∅
  reaped := []
  out := Output.print ⟨terminal, [], fun _ => []⟩ none .startAnonymous

def State.dead (s : State) (i : Fin FORK_NUM) : Prop := i ∈ s.exited ∨ i ∈ s.killed

instance (s : State) : DecidablePred s.dead := fun _ => inferInstanceAs (Decidable (_ ∨ _))

def State.runs (s : State) (i : Fin FORK_NUM) : Prop := i.val < s.forked ∧ ¬ s.dead i

instance (s : State) : DecidablePred s.runs := fun _ => inferInstanceAs (Decidable (_ ∧ _))

/-- The parent forks, the monitor makes an iteration, a child makes a store, exits or is
killed, or the parent waits for a child. -/
inductive Act where
  | fork | forkFails | poll | store (i : Fin FORK_NUM) | exit (i : Fin FORK_NUM)
  | kill (i : Fin FORK_NUM) | reap (i : Fin FORK_NUM)

/-- An iteration of `anon_monitor`, behind the last of which `do_anon` goes on. -/
def poll (s : State) : State :=
  let family := anonMonitor s.family
  let out :=
    if differs s.family.loc s.family.info then s.out.print none (.report (line s.family.info))
    else s.out
  if family.left then
    { s with parent := .wait, family := family, out := out.print none .endAnonymous }
  else { s with family := family, out := out }

/-- The parent returns behind the last child. -/
def reap (ps : Pids FORK_NUM) (s : State) (i : Fin FORK_NUM) : State :=
  let reaped := s.reaped ++ [i]
  let out := s.out.print none (.terminate (ps.getpid i))
  if reaped.length = FORK_NUM then
    { s with parent := .returned 0, reaped := reaped, out := out.flush none }
  else { s with reaped := reaped, out := out }

def step (ps : Pids FORK_NUM) (s : State) : Act → Option State
  | .fork =>
    if s.parent = .fork then
      if h : s.forked < FORK_NUM then
        some { s with forked := s.forked + 1, out := s.out.fork none (some ⟨s.forked, h⟩) }
      else some { s with parent := .monitor }
    else none
  | .forkFails =>
    if s.parent = .fork ∧ s.forked < FORK_NUM then
      some { s with parent := .returned (-1), out := s.out.flush none }
    else none
  | .poll => if s.parent = .monitor then some (poll s) else none
  | .store i =>
    if s.runs i then
      (AnonMmap.step ps s.family (.store i)).map fun family => { s with family := family }
    else none
  | .exit i =>
    if s.runs i ∧ s.family.children i = .done then
      some { s with exited := insert i s.exited, out := s.out.flush (some i) }
    else none
  | .kill i =>
    if s.runs i then
      some { s with killed := insert i s.killed, out := s.out.discard (some i) }
    else none
  | .reap i =>
    if s.parent = .wait ∧ s.dead i ∧ i ∉ s.reaped then some (reap ps s i) else none

/-- How far the parent is. -/
def Progress (s : State) : Prop :=
  match s.parent with
  | .fork => s.family.n = 0 ∧ s.reaped = []
  | .monitor => s.forked = FORK_NUM ∧ s.family.n < FORK_NUM ∧ s.reaped = []
  | .wait => s.forked = FORK_NUM ∧ s.family.n = FORK_NUM ∧ s.reaped.length < FORK_NUM
  | .returned ret => ret = 0 → s.family.n = FORK_NUM ∧ s.reaped.length = FORK_NUM

structure Counted (s : State) : Prop where
  progress : Progress s
  left : s.parent = .fork ∨ s.parent = .monitor → s.family.left = false
  forked : s.forked ≤ FORK_NUM
  born : ∀ i, s.dead i → i.val < s.forked
  done : ∀ i ∈ s.exited, s.family.children i = .done
  apart : ∀ i ∈ s.exited, i ∉ s.killed
  reports : s.family.out.length = s.family.n
  once : s.reaped.Nodup
  ended : ∀ i ∈ s.reaped, s.dead i

section Counted

variable {ps : Pids FORK_NUM} {s t : State} {a : Act}

theorem runs_of_not_dead {i : Fin FORK_NUM} (hforked : s.forked = FORK_NUM) (h : ¬ s.dead i) :
    s.runs i := ⟨by rw [hforked]; exact i.isLt, h⟩

/-- The monitor changes nothing, reports and goes on, or makes its last report. -/
theorem poll_cases (hleft : s.family.left = false) :
    differs s.family.loc s.family.info = false ∧ poll s = s ∨
      differs s.family.loc s.family.info = true ∧
        (poll s).family = anonMonitor s.family ∧
        (s.family.n + 1 ≠ FORK_NUM ∧ poll s = { s with
          family := anonMonitor s.family
          out := s.out.print none (.report (line s.family.info)) } ∨
        s.family.n + 1 = FORK_NUM ∧ poll s = { s with
          parent := .wait
          family := anonMonitor s.family
          out := (s.out.print none (.report (line s.family.info))).print none .endAnonymous }) := by
  obtain ⟨hd, hm⟩ | ⟨hd, hm⟩ := anonMonitor_cases s.family
  · refine .inl ⟨hd, ?_⟩
    simp only [poll, hm, hleft, hd, Bool.false_eq_true, ↓reduceIte]
  · have hnext : (anonMonitor s.family).left = (s.family.n + 1 == FORK_NUM) := by rw [hm]
    by_cases hn : s.family.n + 1 = FORK_NUM
    · have hpoll : poll s = { s with
          parent := .wait
          family := anonMonitor s.family
          out := (s.out.print none (.report (line s.family.info))).print none .endAnonymous } := by
        simp only [poll, hnext, hn, hd, BEq.rfl, ↓reduceIte]
      exact .inr ⟨hd, by rw [hpoll], .inr ⟨hn, hpoll⟩⟩
    · have hpoll : poll s = { s with
          family := anonMonitor s.family
          out := s.out.print none (.report (line s.family.info)) } := by
        simp only [poll, hnext, beq_false_of_ne hn, hd, Bool.false_eq_true, ↓reduceIte]
      exact .inr ⟨hd, by rw [hpoll], .inl ⟨hn, hpoll⟩⟩

theorem anonMonitor_reports {f : AnonMmap.State FORK_NUM} (h : differs f.loc f.info = true) :
    (anonMonitor f).n = f.n + 1 ∧ (anonMonitor f).out = line f.info :: f.out ∧
      (anonMonitor f).children = f.children ∧ (anonMonitor f).left = (f.n + 1 == FORK_NUM) ∧
      (anonMonitor f).info = f.info ∧ differs (anonMonitor f).loc (anonMonitor f).info = false := by
  obtain ⟨hd, _⟩ | ⟨_, hm⟩ := anonMonitor_cases f
  · rw [hd] at h
    cases h
  · rw [hm]
    exact ⟨rfl, rfl, rfl, rfl, rfl, differs_copyInfo _ _⟩

/-- What a store leaves alone. -/
theorem store_keeps {f f' : AnonMmap.State FORK_NUM} {i : Fin FORK_NUM}
    (h : AnonMmap.step ps f (.store i) = some f') :
    f'.n = f.n ∧ f'.out = f.out ∧ f'.left = f.left ∧ f'.loc = f.loc ∧
      ∀ j, j ≠ i → f'.children j = f.children j := by
  obtain ⟨_, rfl⟩ | ⟨_, rfl⟩ := store_cases h
  · exact ⟨rfl, rfl, rfl, rfl, fun j hj => Function.update_of_ne hj _ _⟩
  · exact ⟨rfl, rfl, rfl, rfl, fun j hj => Function.update_of_ne hj _ _⟩

theorem poll_counted (hs : Counted s) (hp : s.parent = .monitor) : Counted (poll s) := by
  have hprogress := hs.progress
  simp only [Progress, hp] at hprogress
  obtain ⟨hforked, hn, hreaped⟩ := hprogress
  obtain ⟨_, h⟩ | ⟨hd, _, h⟩ := poll_cases (hs.left (.inr hp))
  · rw [h]
    exact hs
  · obtain ⟨hcount, hout, hchildren, hleft, _⟩ := anonMonitor_reports hd
    have hreports : (anonMonitor s.family).out.length = (anonMonitor s.family).n := by
      rw [hcount, hout, List.length_cons, hs.reports]
    have hdone : ∀ i ∈ s.exited, (anonMonitor s.family).children i = .done := by
      rw [hchildren]
      exact hs.done
    obtain ⟨hne, h⟩ | ⟨heq, h⟩ := h
    · rw [h]
      refine ⟨?_, fun _ => ?_, hs.forked, hs.born, hdone, hs.apart, hreports, hs.once, hs.ended⟩
      · simp only [Progress, hp, hcount]
        exact ⟨hforked, by omega, hreaped⟩
      · exact hleft.trans (beq_false_of_ne hne)
    · rw [h]
      refine ⟨?_, fun hp' => ?_, hs.forked, hs.born, hdone, hs.apart, hreports, hs.once, hs.ended⟩
      · simp only [Progress, hcount, hreaped]
        exact ⟨hforked, heq, by decide⟩
      · obtain hp' | hp' := hp' <;> cases hp'

theorem reap_counted {i : Fin FORK_NUM} (hs : Counted s) (hp : s.parent = .wait) (hdead : s.dead i)
    (hi : i ∉ s.reaped) : Counted (reap ps s i) := by
  have hprogress := hs.progress
  simp only [Progress, hp] at hprogress
  obtain ⟨hforked, hn, hlen⟩ := hprogress
  have honce : (s.reaped ++ [i]).Nodup := by
    rw [List.nodup_append_comm]
    exact List.nodup_cons.mpr ⟨hi, hs.once⟩
  have hended : ∀ j ∈ s.reaped ++ [i], s.dead j := by
    intro j hj
    obtain hj | hj := List.mem_append.mp hj
    · exact hs.ended j hj
    · rw [List.mem_singleton.mp hj]
      exact hdead
  have hsucc : (s.reaped ++ [i]).length = s.reaped.length + 1 := List.length_append
  unfold reap
  dsimp only
  split
  · rename_i hall
    refine ⟨fun _ => ⟨hn, hall⟩, fun hp' => ?_, hs.forked, hs.born, hs.done, hs.apart, hs.reports,
      honce, hended⟩
    obtain hp' | hp' := hp' <;> cases hp'
  · refine ⟨?_, fun hp' => hs.left hp', hs.forked, hs.born, hs.done, hs.apart, hs.reports,
      honce, hended⟩
    simp only [Progress, hp]
    exact ⟨hforked, hn, by omega⟩

theorem step_counted (hs : Counted s) (h : step ps s a = some t) : Counted t := by
  cases a with
  | fork =>
    obtain ⟨hp, h⟩ := Option.ite_none_right_eq_some.mp h
    have hprogress := hs.progress
    simp only [Progress, hp] at hprogress
    split at h
    · rename_i hlt
      cases h
      refine ⟨?_, hs.left, hlt, fun i hi => Nat.lt_succ_of_lt (hs.born i hi), hs.done, hs.apart,
        hs.reports, hs.once, hs.ended⟩
      simp only [Progress, hp]
      exact hprogress
    · rename_i hge
      cases h
      refine ⟨⟨le_antisymm hs.forked (not_lt.mp hge), ?_, hprogress.2⟩,
        fun _ => hs.left (.inl hp), hs.forked, hs.born, hs.done, hs.apart, hs.reports, hs.once,
        hs.ended⟩
      rw [hprogress.1]
      decide
  | forkFails =>
    obtain ⟨_, h⟩ := Option.ite_none_right_eq_some.mp h
    cases h
    refine ⟨fun hret => absurd hret (by decide), fun hp => ?_, hs.forked, hs.born, hs.done,
      hs.apart, hs.reports, hs.once, hs.ended⟩
    obtain hp | hp := hp <;> cases hp
  | poll =>
    obtain ⟨hp, h⟩ := Option.ite_none_right_eq_some.mp h
    cases h
    exact poll_counted hs hp
  | store i =>
    obtain ⟨hruns, h⟩ := Option.ite_none_right_eq_some.mp h
    obtain ⟨f, hf, rfl⟩ := Option.map_eq_some_iff.mp h
    obtain ⟨hn, hout, hleft, _, hrest⟩ := store_keeps hf
    have hprogress := hs.progress
    refine ⟨?_, fun hp => hleft.trans (hs.left hp), hs.forked, hs.born, fun j hj => ?_, hs.apart,
      by rw [hout, hn]; exact hs.reports, hs.once, hs.ended⟩
    · simpa only [Progress, hn] using hprogress
    · have hji : j ≠ i := fun he => hruns.2 (.inl (he ▸ hj))
      exact (hrest j hji).trans (hs.done j hj)
  | exit i =>
    obtain ⟨⟨hruns, hdone⟩, h⟩ := Option.ite_none_right_eq_some.mp h
    cases h
    refine ⟨hs.progress, hs.left, hs.forked, fun j hj => ?_, fun j hj => ?_,
      fun j hj => ?_, hs.reports, hs.once, fun j hj => ?_⟩
    · obtain hj | hj := hj
      · obtain rfl | hj := Finset.mem_insert.mp hj
        · exact hruns.1
        · exact hs.born j (.inl hj)
      · exact hs.born j (.inr hj)
    · obtain rfl | hj := Finset.mem_insert.mp hj
      · exact hdone
      · exact hs.done j hj
    · obtain rfl | hj := Finset.mem_insert.mp hj
      · exact fun hk => hruns.2 (.inr hk)
      · exact hs.apart j hj
    · exact (hs.ended j hj).imp_left Finset.mem_insert_of_mem
  | kill i =>
    obtain ⟨hruns, h⟩ := Option.ite_none_right_eq_some.mp h
    cases h
    refine ⟨hs.progress, hs.left, hs.forked, fun j hj => ?_, hs.done, fun j hj hk => ?_, hs.reports,
      hs.once, fun j hj => ?_⟩
    · obtain hj | hj := hj
      · exact hs.born j (.inl hj)
      · obtain rfl | hj := Finset.mem_insert.mp hj
        · exact hruns.1
        · exact hs.born j (.inr hj)
    · obtain rfl | hk := Finset.mem_insert.mp hk
      · exact hruns.2 (.inl hj)
      · exact hs.apart j hj hk
    · exact (hs.ended j hj).imp_right Finset.mem_insert_of_mem
  | reap i =>
    obtain ⟨⟨hp, hdead, hi⟩, h⟩ := Option.ite_none_right_eq_some.mp h
    cases h
    exact reap_counted hs hp hdead hi

theorem start_counted (terminal : Bool) (info junk : AnonInfo) :
    Counted (start terminal info junk) where
  progress := ⟨rfl, rfl⟩
  left _ := rfl
  forked := Nat.zero_le _
  born i hi := by simp [State.dead, start] at hi
  done i hi := by simp [start] at hi
  apart i hi := by simp [start] at hi
  reports := rfl
  once := List.nodup_nil
  ended i hi := by simp [start] at hi

end Counted

/-- The lines of the parent. -/
def printed (ps : Pids FORK_NUM) (s : State) : List Text :=
  .startAnonymous :: s.family.out.reverse.map .report ++
    match s.parent with
    | .fork | .monitor => []
    | .wait | .returned _ => .endAnonymous :: s.reaped.map fun i => .terminate (ps.getpid i)

/-- What a child has in its buffer from the `fork` on. -/
def inherited (terminal : Bool) : List Text := if terminal then [] else [.startAnonymous]

def ParentOut (ps : Pids FORK_NUM) (s : State) : Prop :=
  match s.parent with
  | .returned ret => ret = 0 → s.out.by_ none = printed ps s
  | _ => s.out.Holds none (printed ps s)

structure ChildOut (s : State) (i : Fin FORK_NUM) : Prop where
  file : s.out.by_ (some i) = if i ∈ s.exited then inherited s.out.terminal else []
  buffer : s.runs i → s.out.buffer (some i) = inherited s.out.terminal

structure Printed (ps : Pids FORK_NUM) (s : State) : Prop where
  parent : ParentOut ps s
  child : ∀ i, ChildOut s i

section Printed

variable {ps : Pids FORK_NUM} {s t : State} {a : Act} {i : Fin FORK_NUM}

theorem ChildOut.same (h : ChildOut s i) (hsame : Same s.out t.out (some i))
    (hexited : i ∈ t.exited ↔ i ∈ s.exited) (hruns : t.runs i → s.runs i) : ChildOut t i := by
  refine ⟨?_, fun hr => ?_⟩
  · rw [hsame.by_, hsame.terminal, h.file]
    simp only [hexited]
  · rw [hsame.buffer, hsame.terminal]
    exact h.buffer (hruns hr)

theorem ParentOut.same (h : ParentOut ps s) (hsame : Same s.out t.out none)
    (hparent : t.parent = s.parent) (hprinted : printed ps t = printed ps s) : ParentOut ps t := by
  unfold ParentOut
  rw [hparent, hprinted]
  cases hp : s.parent with
  | returned ret =>
    simp only [ParentOut, hp] at h
    exact fun hret => hsame.by_.trans (h hret)
  | fork | monitor | wait =>
    simp only [ParentOut, hp] at h
    exact h.same hsame

/-- A child that is forked begins with the line that the parent has in its buffer. -/
theorem fork_printed (hc : Counted s) (hs : Printed ps s) (hp : s.parent = .fork)
    (hlt : s.forked < FORK_NUM) : Printed ps { s with
      forked := s.forked + 1
      out := s.out.fork none (some ⟨s.forked, hlt⟩) } := by
  have hprogress := hc.progress
  have hparent := hs.parent
  simp only [Progress, hp] at hprogress
  refine ⟨hs.parent.same (same_fork none (by simp)) rfl rfl, fun j => ?_⟩
  by_cases hj : j = ⟨s.forked, hlt⟩
  · subst hj
    refine ⟨(hs.child _).file, fun _ => ?_⟩
    have hout : s.family.out = [] := by
      rw [← List.length_eq_zero_iff, hc.reports]
      exact hprogress.1
    simp only [ParentOut, hp, printed, hout] at hparent
    exact (Function.update_self _ _ _).trans hparent.2
  · refine (hs.child j).same (same_fork none (by simpa using Ne.symm hj)) Iff.rfl fun hr => ?_
    have hne : j.val ≠ s.forked := fun he => hj (Fin.ext he)
    have hborn : j.val < s.forked + 1 := hr.1
    exact ⟨by omega, hr.2⟩

theorem poll_printed (hc : Counted s) (hs : Printed ps s) (hp : s.parent = .monitor) :
    Printed ps (poll s) := by
  have hparent := hs.parent
  simp only [ParentOut, hp, printed, List.append_nil] at hparent
  obtain ⟨_, h⟩ | ⟨hd, _, h⟩ := poll_cases (hc.left (.inr hp))
  · rw [h]
    exact hs
  · obtain ⟨_, hout, _⟩ := anonMonitor_reports hd
    have hreverse : (anonMonitor s.family).out.reverse.map Text.report =
        s.family.out.reverse.map .report ++ [.report (line s.family.info)] := by
      rw [hout, List.reverse_cons, List.map_append]
      rfl
    have hreport := hparent.print (.report (line s.family.info))
    obtain ⟨_, h⟩ | ⟨_, h⟩ := h
    · rw [h]
      refine ⟨?_, fun j => (hs.child j).same (same_print (by simp) _) Iff.rfl fun hr => hr⟩
      simp only [ParentOut, hp, printed, hreverse, List.append_nil]
      exact hreport
    · have hprogress := hc.progress
      simp only [Progress, hp] at hprogress
      rw [h]
      refine ⟨?_, fun j => (hs.child j).same
        ((same_print (by simp) _).trans (same_print (by simp) _)) Iff.rfl fun hr => hr⟩
      simp only [ParentOut, printed, hreverse, hprogress.2.2]
      exact hreport.print .endAnonymous

theorem reap_printed (hs : Printed ps s) (hp : s.parent = .wait) (i : Fin FORK_NUM) :
    Printed ps (reap ps s i) := by
  have hparent := hs.parent
  simp only [ParentOut, hp, printed] at hparent
  have hline := hparent.print (.terminate (ps.getpid i))
  have hlines : Text.startAnonymous :: s.family.out.reverse.map .report ++
      (.endAnonymous :: s.reaped.map fun i => .terminate (ps.getpid i)) ++
        [.terminate (ps.getpid i)] =
      .startAnonymous :: s.family.out.reverse.map .report ++
        (.endAnonymous :: (s.reaped ++ [i]).map fun i => .terminate (ps.getpid i)) := by
    simp
  rw [hlines] at hline
  unfold reap
  dsimp only
  split
  · refine ⟨fun _ => hline.flush_by, fun j => (hs.child j).same
      ((same_print (by simp) _).trans (same_flush (by simp))) Iff.rfl fun hr => hr⟩
  · refine ⟨?_, fun j => (hs.child j).same (same_print (by simp) _) Iff.rfl fun hr => hr⟩
    simp only [ParentOut, hp, printed]
    exact hline

theorem step_printed (hc : Counted s) (hs : Printed ps s) (h : step ps s a = some t) :
    Printed ps t := by
  cases a with
  | fork =>
    obtain ⟨hp, h⟩ := Option.ite_none_right_eq_some.mp h
    split at h
    · rename_i hlt
      cases h
      exact fork_printed hc hs hp hlt
    · cases h
      refine ⟨?_, fun j => (hs.child j).same (.refl _ _) Iff.rfl fun hr => hr⟩
      have hparent := hs.parent
      simpa only [ParentOut, printed, hp] using hparent
  | forkFails =>
    obtain ⟨_, h⟩ := Option.ite_none_right_eq_some.mp h
    cases h
    exact ⟨fun hret => absurd hret (by decide),
      fun j => (hs.child j).same (same_flush (by simp)) Iff.rfl fun hr => hr⟩
  | poll =>
    obtain ⟨hp, h⟩ := Option.ite_none_right_eq_some.mp h
    cases h
    exact poll_printed hc hs hp
  | store i =>
    obtain ⟨_, h⟩ := Option.ite_none_right_eq_some.mp h
    obtain ⟨f, hf, rfl⟩ := Option.map_eq_some_iff.mp h
    obtain ⟨_, hout, _⟩ := store_keeps hf
    exact ⟨hs.parent.same (.refl _ _) rfl (by simp only [printed, hout]),
      fun j => (hs.child j).same (.refl _ _) Iff.rfl fun hr => hr⟩
  | exit i =>
    obtain ⟨⟨hruns, _⟩, h⟩ := Option.ite_none_right_eq_some.mp h
    cases h
    refine ⟨hs.parent.same (same_flush (by simp)) rfl rfl, fun j => ?_⟩
    by_cases hj : j = i
    · subst hj
      have hold := (hs.child j).file
      rw [if_neg fun he => hruns.2 (.inl he)] at hold
      refine ⟨?_, fun hr => absurd (.inl (Finset.mem_insert_self _ _)) hr.2⟩
      have hflush : (s.out.flush (some j)).by_ (some j) =
          s.out.by_ (some j) ++ s.out.buffer (some j) :=
        (write_by _ _ _ _).trans (by rw [if_pos rfl])
      rw [hflush, hold, (hs.child j).buffer hruns, if_pos (Finset.mem_insert_self _ _)]
      rfl
    · refine (hs.child j).same (same_flush (by simpa using Ne.symm hj)) (by simp [hj]) fun hr => ?_
      exact ⟨hr.1, fun hd => hr.2 (hd.imp_left Finset.mem_insert_of_mem)⟩
  | kill i =>
    obtain ⟨hruns, h⟩ := Option.ite_none_right_eq_some.mp h
    cases h
    refine ⟨hs.parent.same (same_discard (by simp)) rfl rfl, fun j => ?_⟩
    by_cases hj : j = i
    · subst hj
      exact ⟨(hs.child j).file, fun hr => absurd (.inr (Finset.mem_insert_self _ _)) hr.2⟩
    · refine (hs.child j).same (same_discard (by simpa using Ne.symm hj)) Iff.rfl fun hr => ?_
      exact ⟨hr.1, fun hd => hr.2 (hd.imp_right Finset.mem_insert_of_mem)⟩
  | reap i =>
    obtain ⟨⟨hp, _⟩, h⟩ := Option.ite_none_right_eq_some.mp h
    cases h
    exact reap_printed hs hp i

theorem start_printed (ps : Pids FORK_NUM) (terminal : Bool) (info junk : AnonInfo) :
    Printed ps (start terminal info junk) := by
  have hempty (p : Option (Fin FORK_NUM)) :
      (⟨terminal, [], fun _ => []⟩ : Output (Option (Fin FORK_NUM)) Text).Holds p [] :=
    ⟨(ite_self _).symm, (ite_self _).symm⟩
  refine ⟨(hempty none).print .startAnonymous, fun i => ⟨?_, fun hr => ?_⟩⟩
  · have hsame : Same _ (start terminal info junk).out (some i) := same_print (by simp) _
    exact hsame.by_.trans rfl
  · exact absurd hr.1 (Nat.not_lt_zero _)

/-- When `do_anon` returns 0, each child is dead and was waited for once, behind all reports.
Into a file that is not a terminal, each child that exits puts the first line again. -/
structure Finished (ps : Pids FORK_NUM) (s : State) : Prop where
  reports : s.family.out.length = FORK_NUM
  reaped : s.reaped.Perm (List.finRange FORK_NUM)
  dead : ∀ i, s.dead i
  lines : s.out.by_ none = .startAnonymous :: s.family.out.reverse.map .report ++
    (.endAnonymous :: s.reaped.map fun i => .terminate (ps.getpid i))
  starts : (s.out.file.map Prod.snd).count .startAnonymous =
    1 + if s.out.terminal then 0 else s.exited.card

theorem reaped_perm (hc : Counted s) (h : s.reaped.length = FORK_NUM) :
    s.reaped.Perm (List.finRange FORK_NUM) := by
  refine (hc.once.subperm fun i _ => List.mem_finRange i).perm_of_length_le ?_
  rw [h, List.length_finRange]

theorem starts_eq (hs : Printed ps s) (hlines : s.out.by_ none = printed ps s) :
    (s.out.file.map Prod.snd).count .startAnonymous =
      1 + if s.out.terminal then 0 else s.exited.card := by
  have hparent : (linesOf s.out.file none).count .startAnonymous = 1 := by
    refine (congrArg (List.count _) hlines).trans ?_
    unfold printed
    split <;> simp [List.count_eq_zero]
  have hchild (i : Fin FORK_NUM) : (linesOf s.out.file (some i)).count .startAnonymous =
      if i ∈ s.exited then if s.out.terminal then 0 else 1 else 0 := by
    refine (congrArg (List.count _) (hs.child i).file).trans ?_
    unfold inherited
    by_cases hi : i ∈ s.exited <;> cases s.out.terminal <;> simp [hi]
  rw [count_eq_sum, Fintype.sum_option, hparent, Finset.sum_congr rfl fun i _ => hchild i]
  split <;> simp

theorem returned_finished (ps : Pids FORK_NUM) (terminal : Bool) (info junk : AnonInfo) :
    Always (step ps) (fun s => s.parent = .returned 0 → Finished ps s)
      (start terminal info junk) := by
  refine .of_invariant (fun s => Counted s ∧ Printed ps s)
    ⟨start_counted terminal info junk, start_printed ps terminal info junk⟩
    (fun _ _ _ hs h => ⟨step_counted hs.1 h, step_printed hs.1 hs.2 h⟩) ?_
  rintro s ⟨hc, hs⟩ hp
  have hprogress := hc.progress
  have hlines := hs.parent
  simp only [Progress, hp] at hprogress
  simp only [ParentOut, hp] at hlines
  obtain ⟨hn, hlen⟩ := hprogress trivial
  have hperm := reaped_perm hc hlen
  refine ⟨hc.reports.trans hn, hperm, fun i => ?_, ?_, starts_eq hs (hlines trivial)⟩
  · exact hc.ended i (hperm.mem_iff.mpr (List.mem_finRange i))
  · rw [hlines trivial, printed, hp]

end Printed

end LinuxExamples.AnonChildren
