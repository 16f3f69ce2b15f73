import LinuxExamples.Runs
import LinuxExamples.Stdio

namespace LinuxExamples.ForkExec

open Runs Stdio

/-- Who prints: the parent, the child, and `ls` in the child's place. -/
inductive Writer where
  | parent | child | ls
  deriving DecidableEq

/-- The lines of `yj_print_ruseage`. -/
inductive Usage where
  | cpuTime | maxResidentSetSize | integralSharedMemory | integralUnsharedData
  | integralUnsharedStack | pageReclaims | pageFaults | swaps | blockTransfers
  | signalsReceived | ipcMessages | contextSwitches
  deriving DecidableEq

/-- The calls of `printf`, and what `ls` writes. -/
inductive Line where
  | thisIsParent | thisIsChild | currentPid (pid : Nat) | parentPid (pid : Nat)
  | forkFail | execlFail | waitFail | exited (pid code : Nat) | notExited (pid : Nat)
  | rusage (u : Usage) | listing (bytes : List UInt8)
  deriving DecidableEq

/-- The two processes and who becomes the parent of an orphan; where the output goes; and
what `ls` writes and returns. -/
structure Machine where
  parent : Nat
  child : Nat
  reaper : Nat
  terminal : Bool
  ls : List (List UInt8)
  lsCode : Nat

/-- How the child has ended: by `exit` after an `execl` that failed, in `ls`, or by a signal. -/
inductive End where
  | refused | ran | signaled
  deriving DecidableEq

inductive Child where
  | banner | pid | ppid | exec | failed | running (todo : List (List UInt8)) | dead (e : End)
  deriving DecidableEq

/-- The parent prints its first lines, waits, and prints its report. -/
inductive Parent where
  | fork | begins (todo : List Line) | reports (e : End) (todo : List Line) | ended (ret : Int)
  | killed
  deriving DecidableEq

structure State where
  parent : Parent
  child : Option Child
  out : Output Writer Line

def start (m : Machine) : State := ⟨.fork, none, ⟨m.terminal, [], fun _ => []⟩⟩

def parentLines (m : Machine) : List Line := [.thisIsParent, .currentPid m.parent]

/-- The lines of the child before its `execl`, where `ppid` is what `getppid` has returned. -/
def childLines (m : Machine) (ppid : Nat) : List Line :=
  [.thisIsChild, .currentPid m.child, .parentPid ppid]

def yjPrintRuseage : List Line :=
  [.cpuTime, .maxResidentSetSize, .integralSharedMemory, .integralUnsharedData,
    .integralUnsharedStack, .pageReclaims, .pageFaults, .swaps, .blockTransfers,
    .signalsReceived, .ipcMessages, .contextSwitches].map .rusage

/-- What the parent prints of the status of the child. -/
def report (m : Machine) : End → List Line
  | .refused => .exited m.child 255 :: yjPrintRuseage
  | .ran => .exited m.child m.lsCode :: yjPrintRuseage
  | .signaled => [.notExited m.child]

/-- A process makes its next step, `fork`, `wait4` or `execl` fails, or a process is killed. -/
inductive Act where
  | parent | child | forkFails | waitFails | execFails | killParent | killChild

def Parent.gone : Parent → Bool
  | .ended _ | .killed => true
  | _ => false

def getppid (m : Machine) (s : State) : Nat := if s.parent.gone then m.reaper else m.parent

def parentStep (m : Machine) (s : State) : Option State :=
  match s.parent with
  | .fork => some { s with parent := .begins (parentLines m), child := some .banner }
  | .begins (l :: todo) => some { s with parent := .begins todo, out := s.out.print .parent l }
  | .begins [] =>
    match s.child with
    | some (.dead e) => some { s with parent := .reports e (report m e) }
    | _ => none
  | .reports e (l :: todo) =>
    some { s with parent := .reports e todo, out := s.out.print .parent l }
  | .reports _ [] => some { s with parent := .ended 0, out := s.out.flush .parent }
  | .ended _ | .killed => none

def childStep (m : Machine) (s : State) : Option State :=
  match s.child with
  | some .banner => some { s with child := some .pid, out := s.out.print .child .thisIsChild }
  | some .pid =>
    some { s with child := some .ppid, out := s.out.print .child (.currentPid m.child) }
  | some .ppid =>
    some { s with child := some .exec, out := s.out.print .child (.parentPid (getppid m s)) }
  | some .exec => some { s with child := some (.running m.ls), out := s.out.discard .child }
  | some .failed => some { s with child := some (.dead .refused), out := s.out.flush .child }
  | some (.running (bs :: todo)) =>
    some { s with child := some (.running todo), out := s.out.write .ls [.listing bs] }
  | some (.running []) => some { s with child := some (.dead .ran) }
  | some (.dead _) | none => none

def step (m : Machine) (s : State) : Act → Option State
  | .parent => parentStep m s
  | .child => childStep m s
  | .forkFails =>
    if s.parent = .fork then
      some { s with parent := .ended (-1), out := (s.out.print .parent .forkFail).flush .parent }
    else none
  | .waitFails =>
    if s.parent = .begins [] then
      some { s with parent := .ended (-1), out := (s.out.print .parent .waitFail).flush .parent }
    else none
  | .execFails =>
    if s.child = some .exec then
      some { s with child := some .failed, out := s.out.print .child .execlFail }
    else none
  | .killParent =>
    match s.parent with
    | .ended _ | .killed => none
    | _ => some { s with parent := .killed, out := s.out.discard .parent }
  | .killChild =>
    match s.child with
    | none | some (.dead _) => none
    | some _ => some { s with child := some (.dead .signaled), out := s.out.discard .child }

/-- What the parent has printed so far. Once its report begins the child is dead, and nothing
comes between the lines of the report. -/
def ParentOut (m : Machine) (child : Option Child) (out : Output Writer Line) : Parent → Prop
  | .fork => child = none ∧ out.Holds .parent []
  | .begins todo => ∃ done, done ++ todo = parentLines m ∧ out.Holds .parent done
  | .reports e todo => child = some (.dead e) ∧ ∃ pre done, done ++ todo = report m e ∧
      out.Holds .parent (parentLines m ++ done) ∧
      out.file = pre ++ (if m.terminal then done else []).map (.parent, ·)
  | .ended ret => ret = 0 → ∃ e pre, child = some (.dead e) ∧
      out.by_ .parent = parentLines m ++ report m e ∧
      out.file = pre ++
        (if m.terminal then report m e else parentLines m ++ report m e).map (.parent, ·)
  | .killed => True

/-- The lines that a child which has called `execl` leaves in the file. -/
def kept (m : Machine) (ppid : Nat) : List Line := if m.terminal then childLines m ppid else []

/-- What a dead child and `ls` have got into the file. -/
def Left (m : Machine) (ppid : Nat) (child ls : List Line) : End → Prop
  | .refused => child = childLines m ppid ++ [.execlFail] ∧ ls = []
  | .ran => child = kept m ppid ∧ ls = m.ls.map .listing
  | .signaled => (∃ sent, sent <+: m.ls ∧ ls = sent.map .listing) ∧
      (child = kept m ppid ∨ ls = [] ∧
        child <+: if m.terminal then childLines m ppid ++ [.execlFail] else [])

def ChildOut (m : Machine) (ppid : Nat) (out : Output Writer Line) : Option Child → Prop
  | none | some .banner => out.Holds .child [] ∧ out.by_ .ls = []
  | some .pid => out.Holds .child [.thisIsChild] ∧ out.by_ .ls = []
  | some .ppid => out.Holds .child [.thisIsChild, .currentPid m.child] ∧ out.by_ .ls = []
  | some .exec => out.Holds .child (childLines m ppid) ∧ out.by_ .ls = []
  | some .failed => out.Holds .child (childLines m ppid ++ [.execlFail]) ∧ out.by_ .ls = []
  | some (.running todo) => out.by_ .child = kept m ppid ∧
      ∃ sent, sent ++ todo = m.ls ∧ out.by_ .ls = sent.map .listing
  | some (.dead e) => Left m ppid (out.by_ .child) (out.by_ .ls) e

/-- What `getppid` may have returned. -/
def Adopted (m : Machine) (p : Parent) (ppid : Nat) : Prop :=
  ppid = m.parent ∨ ppid = m.reaper ∧ p.gone ∧ p ≠ .ended 0

structure Kept (m : Machine) (s : State) : Prop where
  terminal : s.out.terminal = m.terminal
  parent : ParentOut m s.child s.out s.parent
  child : ∃ ppid, Adopted m s.parent ppid ∧ ChildOut m ppid s.out s.child

section Kept

variable {m : Machine} {s t : State} {o o' : Output Writer Line}

theorem ChildOut.same {ppid : Nat} {c : Option Child} (h : ChildOut m ppid o c)
    (hchild : Same o o' .child) (hls : Same o o' .ls) : ChildOut m ppid o' c := by
  match c with
  | none | some .banner | some .pid | some .ppid | some .exec | some .failed =>
    obtain ⟨hc, hl⟩ := h
    exact ⟨hc.same hchild, hls.by_.trans hl⟩
  | some (.running todo) =>
    obtain ⟨hc, sent, hsent, hl⟩ := h
    exact ⟨hchild.by_.trans hc, sent, hsent, hls.by_.trans hl⟩
  | some (.dead e) =>
    rw [ChildOut, hchild.by_, hls.by_]
    exact h

theorem ParentOut.childMoves {p : Parent} {c : Child} (h : ParentOut m (some c) o p)
    (hlive : ∀ e, c ≠ .dead e) (hsame : Same o o' .parent) (c' : Child) :
    ParentOut m (some c') o' p := by
  cases p with
  | fork => cases h.1
  | begins todo =>
    obtain ⟨done, hdone, ho⟩ := h
    exact ⟨done, hdone, ho.same hsame⟩
  | reports e todo => exact absurd (Option.some.inj h.1) (hlive e)
  | ended ret =>
    intro hret
    obtain ⟨e, _, hc, _⟩ := h hret
    exact absurd (Option.some.inj hc) (hlive e)
  | killed => trivial

/-- A step of the parent leaves the lines of the other two alone. -/
theorem Kept.parentMoves (hs : Kept m s) (hgone : s.parent.gone = false) {p : Parent}
    {c : Option Child} (hchild : Same s.out o .child) (hls : Same s.out o .ls)
    (hc : ∀ ppid, ChildOut m ppid s.out s.child → ChildOut m ppid s.out c)
    (hparent : ParentOut m c o p) : Kept m ⟨p, c, o⟩ := by
  obtain ⟨ppid, hppid | ⟨_, hgone', _⟩, hout⟩ := hs.child
  · exact ⟨hchild.terminal.trans hs.terminal, hparent, ppid, .inl hppid,
      (hc ppid hout).same hchild hls⟩
  · rw [hgone] at hgone'
    cases hgone'

theorem Kept.childMoves (hs : Kept m s) {c c' : Child} (hc : s.child = some c)
    (hlive : ∀ e, c ≠ .dead e) (hsame : Same s.out o .parent)
    (hout : ∀ ppid, Adopted m s.parent ppid → ChildOut m ppid s.out (some c) →
      ∃ ppid', Adopted m s.parent ppid' ∧ ChildOut m ppid' o (some c')) :
    Kept m ⟨s.parent, some c', o⟩ := by
  obtain ⟨ppid, hppid, hold⟩ := hs.child
  have hparent := hs.parent
  rw [hc] at hold hparent
  exact ⟨hsame.terminal.trans hs.terminal, hparent.childMoves hlive hsame c', hout ppid hppid hold⟩

theorem Kept.adopted (hs : Kept m s) {c : Child} (hc : s.child = some c)
    (hlive : ∀ e, c ≠ .dead e) : Adopted m s.parent (getppid m s) := by
  unfold getppid
  split
  · rename_i hgone
    refine .inr ⟨rfl, hgone, fun hp => ?_⟩
    have hparent := hs.parent
    rw [hp] at hparent
    obtain ⟨e, _, he, _⟩ := hparent rfl
    exact hlive e (Option.some.inj (hc.symm.trans he))
  · exact .inl rfl

theorem parentStep_kept (hs : Kept m s) (h : parentStep m s = some t) : Kept m t := by
  have hparent := hs.parent
  unfold parentStep at h
  cases hp : s.parent with
  | fork =>
    simp only [hp, Option.some.injEq] at h hparent
    obtain ⟨hc, ho⟩ := hparent
    subst h
    refine hs.parentMoves (by rw [hp]; rfl) (.refl _ _) (.refl _ _) ?_ ⟨[], rfl, ho⟩
    rw [hc]
    exact fun _ h => h
  | begins todo =>
    cases todo with
    | nil =>
      simp only [hp] at h hparent
      obtain ⟨done, hdone, ho⟩ := hparent
      split at h
      · rename_i e hc
        cases h
        refine hs.parentMoves (by rw [hp]; rfl) (.refl _ _) (.refl _ _) (fun _ h => h)
          ⟨hc, s.out.file, [], rfl, ?_, by simp⟩
        rw [List.append_nil] at hdone ⊢
        exact hdone ▸ ho
      · cases h
    | cons l todo =>
      simp only [hp, Option.some.injEq] at h hparent
      obtain ⟨done, hdone, ho⟩ := hparent
      subst h
      exact hs.parentMoves (by rw [hp]; rfl) (same_print (by decide) l) (same_print (by decide) l)
        (fun _ h => h) ⟨done ++ [l], by rw [← hdone, List.append_assoc]; rfl, ho.print l⟩
  | reports e todo =>
    cases todo with
    | nil =>
      simp only [hp, Option.some.injEq] at h hparent
      obtain ⟨hc, pre, done, hdone, ho, hfile⟩ := hparent
      subst h
      refine hs.parentMoves (by rw [hp]; rfl) (same_flush (by decide)) (same_flush (by decide))
        (fun _ h => h) fun _ => ⟨e, pre, hc, ?_, ?_⟩
      · rw [List.append_nil] at hdone
        exact hdone ▸ ho.flush_by
      · rw [List.append_nil] at hdone
        have hflush : (s.out.flush .parent).file =
          s.out.file ++ (s.out.buffer .parent).map (.parent, ·) := rfl
        rw [hflush, hfile, ho.2, hs.terminal, ← hdone]
        split <;> simp
    | cons l todo =>
      simp only [hp, Option.some.injEq] at h hparent
      obtain ⟨hc, pre, done, hdone, ho, hfile⟩ := hparent
      subst h
      refine hs.parentMoves (by rw [hp]; rfl) (same_print (by decide) l) (same_print (by decide) l)
        (fun _ h => h) ⟨hc, pre, done ++ [l], by rw [← hdone, List.append_assoc]; rfl, ?_, ?_⟩
      · rw [← List.append_assoc]
        exact ho.print l
      · rw [print_file, hfile, hs.terminal]
        split <;> simp
  | ended ret | killed => simp [hp] at h

theorem childStep_kept (hs : Kept m s) (h : childStep m s = some t) : Kept m t := by
  unfold childStep at h
  split at h
  · rename_i hc
    cases h
    refine hs.childMoves hc (by simp) (same_print (by decide) _) fun n hn ho => ⟨n, hn, ?_⟩
    exact ⟨ho.1.print _, (same_print (by decide) _).by_.trans ho.2⟩
  · rename_i hc
    cases h
    refine hs.childMoves hc (by simp) (same_print (by decide) _) fun n hn ho => ⟨n, hn, ?_⟩
    exact ⟨ho.1.print _, (same_print (by decide) _).by_.trans ho.2⟩
  · rename_i hc
    cases h
    refine hs.childMoves hc (by simp) (same_print (by decide) _) fun n hn ho =>
      ⟨getppid m s, hs.adopted hc (by simp), ?_⟩
    exact ⟨ho.1.print _, (same_print (by decide) _).by_.trans ho.2⟩
  · rename_i hc
    cases h
    refine hs.childMoves hc (by simp) (same_discard (by decide)) fun n hn ho => ⟨n, hn, ?_⟩
    refine ⟨?_, [], rfl, (same_discard (by decide)).by_.trans ho.2⟩
    rw [ho.1.discard_by, hs.terminal, kept]
  · rename_i hc
    cases h
    refine hs.childMoves hc (by simp) (same_flush (by decide)) fun n hn ho => ⟨n, hn, ?_⟩
    exact ⟨ho.1.flush_by, (same_flush (by decide)).by_.trans ho.2⟩
  · rename_i bs todo hc
    cases h
    refine hs.childMoves hc (by simp) (same_write (by decide) _) fun n hn ho => ⟨n, hn, ?_⟩
    obtain ⟨hkept, sent, hsent, hls⟩ := ho
    refine ⟨(same_write (by decide) _).by_.trans hkept, sent ++ [bs], ?_, ?_⟩
    · rw [← hsent, List.append_assoc]
      rfl
    · rw [write_by, if_pos rfl, hls, List.map_append]
      rfl
  · rename_i hc
    cases h
    refine hs.childMoves hc (by simp) (.refl _ _) fun n hn ho => ⟨n, hn, ?_⟩
    obtain ⟨hkept, sent, hsent, hls⟩ := ho
    rw [List.append_nil] at hsent
    exact ⟨hkept, hsent ▸ hls⟩
  · cases h
  · cases h

/-- Before `execl` all lines of the child are its own. -/
theorem ChildOut.early {ppid : Nat} {c : Child} (h : ChildOut m ppid o (some c))
    (hlive : ∀ e, c ≠ .dead e) (hrun : ∀ todo, c ≠ .running todo) :
    ∃ xs, xs <+: childLines m ppid ++ [.execlFail] ∧ o.Holds .child xs ∧ o.by_ .ls = [] := by
  cases c with
  | banner => exact ⟨[], List.nil_prefix, h⟩
  | pid => exact ⟨[.thisIsChild], ⟨[.currentPid m.child, .parentPid ppid, .execlFail], rfl⟩, h⟩
  | ppid =>
    exact ⟨[.thisIsChild, .currentPid m.child], ⟨[.parentPid ppid, .execlFail], rfl⟩, h⟩
  | exec => exact ⟨childLines m ppid, ⟨[.execlFail], rfl⟩, h⟩
  | failed => exact ⟨childLines m ppid ++ [Line.execlFail], List.prefix_rfl, h⟩
  | running todo => exact absurd rfl (hrun todo)
  | dead e => exact absurd rfl (hlive e)

/-- A signal that ends the child loses what it has not flushed. -/
theorem ChildOut.killed {ppid : Nat} {c : Child} (h : ChildOut m ppid o (some c))
    (hlive : ∀ e, c ≠ .dead e) (ht : o.terminal = m.terminal) :
    Left m ppid (o.by_ .child) (o.by_ .ls) .signaled := by
  by_cases hrun : ∃ todo, c = .running todo
  · obtain ⟨todo, rfl⟩ := hrun
    obtain ⟨hkept, sent, hsent, hls⟩ := h
    exact ⟨⟨sent, ⟨todo, hsent⟩, hls⟩, .inl hkept⟩
  · obtain ⟨xs, hxs, hchild, hls⟩ := h.early hlive fun todo hc => hrun ⟨todo, hc⟩
    refine ⟨⟨[], List.nil_prefix, hls⟩, .inr ⟨hls, ?_⟩⟩
    rw [hchild.1, ht]
    split
    · exact hxs
    · exact List.prefix_rfl

theorem step_kept {a : Act} (hs : Kept m s) (h : step m s a = some t) : Kept m t := by
  cases a with
  | parent => exact parentStep_kept hs h
  | child => exact childStep_kept hs h
  | forkFails =>
    obtain ⟨hp, ht⟩ := Option.ite_none_right_eq_some.mp h
    cases ht
    exact hs.parentMoves (by rw [hp]; rfl)
      ((same_print (by decide) _).trans (same_flush (by decide)))
      ((same_print (by decide) _).trans (same_flush (by decide))) (fun _ h => h)
      fun hret => absurd hret (by decide)
  | waitFails =>
    obtain ⟨hp, ht⟩ := Option.ite_none_right_eq_some.mp h
    cases ht
    exact hs.parentMoves (by rw [hp]; rfl)
      ((same_print (by decide) _).trans (same_flush (by decide)))
      ((same_print (by decide) _).trans (same_flush (by decide))) (fun _ h => h)
      fun hret => absurd hret (by decide)
  | execFails =>
    obtain ⟨hc, ht⟩ := Option.ite_none_right_eq_some.mp h
    cases ht
    refine hs.childMoves hc (by simp) (same_print (by decide) _) fun n hn ho => ⟨n, hn, ?_⟩
    exact ⟨ho.1.print _, (same_print (by decide) _).by_.trans ho.2⟩
  | killParent =>
    have hgone : s.parent.gone = false ∧
        t = { s with parent := .killed, out := s.out.discard .parent } := by
      simp only [step] at h
      split at h
      · cases h
      · cases h
      · cases hp : s.parent <;> simp_all [Parent.gone]
    obtain ⟨hgone, rfl⟩ := hgone
    exact hs.parentMoves hgone (same_discard (by decide)) (same_discard (by decide)) (fun _ h => h)
      trivial
  | killChild =>
    simp only [step] at h
    split at h
    · cases h
    · cases h
    · rename_i c hlive hc
      cases h
      refine hs.childMoves hc hlive (same_discard (by decide)) fun n hn ho => ⟨n, hn, ?_⟩
      have hleft := ho.killed hlive hs.terminal
      exact hleft

theorem start_kept (m : Machine) : Kept m (start m) := by
  have hempty (p : Writer) : (start m).out.Holds p [] :=
    ⟨(ite_self _).symm, (ite_self _).symm⟩
  exact ⟨rfl, ⟨rfl, hempty .parent⟩, m.parent, .inl rfl, hempty .child, rfl⟩

theorem Kept.ended (hs : Kept m s) (hp : s.parent = .ended 0) :
    ∃ e pre, s.child = some (.dead e) ∧
      s.out.file = pre ++
        (if m.terminal then report m e else parentLines m ++ report m e).map (.parent, ·) ∧
      linesOf pre .parent = (if m.terminal then parentLines m else []) ∧
      Left m m.parent (linesOf pre .child) (linesOf pre .ls) e := by
  have hparent := hs.parent
  rw [hp] at hparent
  obtain ⟨e, pre, hc, hby, hfile⟩ := hparent rfl
  have hothers {q : Writer} (hq : q ≠ .parent) : s.out.by_ q = linesOf pre q := by
    rw [Output.by_, hfile, linesOf_append, linesOf_map, if_neg hq.symm, List.append_nil]
  refine ⟨e, pre, hc, hfile, ?_, ?_⟩
  · rw [Output.by_, hfile, linesOf_append, linesOf_map, if_pos rfl] at hby
    split
    · rename_i ht
      rw [if_pos ht] at hby
      exact List.append_cancel_right hby
    · rename_i ht
      rw [if_neg ht] at hby
      exact List.append_cancel_right (hby.trans (List.nil_append _).symm)
  · obtain ⟨ppid, hppid, hchild⟩ := hs.child
    have hown : ppid = m.parent := hppid.resolve_right fun h => h.2.2 hp
    rw [hc, hown, ChildOut, hothers (by decide), hothers (by decide)] at hchild
    exact hchild

/-- When the parent returns 0, the child is dead and the report about it is the last of the
file, in one piece. Any number that the child has told is the parent's. -/
theorem report_last (m : Machine) : Always (step m) (fun s => s.parent = .ended 0 →
    ∃ e pre, s.child = some (.dead e) ∧ s.out.file = pre ++ (report m e).map (.parent, ·) ∧
      linesOf pre .parent = parentLines m ∧
      Left m m.parent (linesOf pre .child) (linesOf pre .ls) e) (start m) := by
  refine .of_invariant (Kept m) (start_kept m) (fun _ _ _ hs h => step_kept hs h) fun s hs hp => ?_
  obtain ⟨e, pre, hc, hfile, hlines, hleft⟩ := hs.ended hp
  by_cases ht : m.terminal
  · rw [if_pos ht] at hfile hlines
    exact ⟨e, pre, hc, hfile, hlines, hleft⟩
  · rw [if_neg ht] at hfile hlines
    refine ⟨e, pre ++ (parentLines m).map (.parent, ·), hc, ?_, ?_, ?_⟩
    · rw [hfile, List.map_append, List.append_assoc]
    · rw [linesOf_append, hlines, linesOf_map, if_pos rfl, List.nil_append]
    · have hothers {q : Writer} (hq : q ≠ .parent) :
          linesOf (pre ++ (parentLines m).map (.parent, ·)) q = linesOf pre q := by
        rw [linesOf_append, linesOf_map, if_neg hq.symm, List.append_nil]
      rw [hothers (by decide), hothers (by decide)]
      exact hleft

/-- What is in a file that is not a terminal before the lines of the parent: the child's own
lines are lost unless its `execl` fails. -/
def Lost (m : Machine) (body : List (Writer × Line)) : End → Prop
  | .refused => body = (childLines m m.parent ++ [Line.execlFail]).map (.child, ·)
  | .ran => body = m.ls.map fun bs => (.ls, .listing bs)
  | .signaled => ∃ sent, sent <+: m.ls ∧ body = sent.map fun bs => (.ls, .listing bs)

theorem listed {file : List (Writer × Line)} {sent : List (List UInt8)}
    (hparent : linesOf file .parent = []) (hchild : linesOf file .child = [])
    (hls : linesOf file .ls = sent.map .listing) :
    file = sent.map fun bs => (.ls, .listing bs) := by
  refine (file_eq (p := .ls) fun q hq => ?_).trans ?_
  · cases q with
    | parent => exact hparent
    | child => exact hchild
    | ls => exact absurd rfl hq
  · rw [hls, List.map_map]
    rfl

theorem redirected (m : Machine) : Always (step m) (fun s => s.parent = .ended 0 →
    s.out.terminal = false → ∃ e body, s.child = some (.dead e) ∧ Lost m body e ∧
      s.out.file = body ++ (parentLines m ++ report m e).map (.parent, ·)) (start m) := by
  refine .of_invariant (Kept m) (start_kept m) (fun _ _ _ hs h => step_kept hs h)
    fun s hs hp ht => ?_
  rw [hs.terminal] at ht
  obtain ⟨e, body, hc, hfile, hlines, hleft⟩ := hs.ended hp
  simp only [ht, Bool.false_eq_true, ↓reduceIte] at hfile hlines
  refine ⟨e, body, hc, ?_, hfile⟩
  cases e with
  | refused =>
    obtain ⟨hchild, hls⟩ := hleft
    rw [Lost, ← hchild]
    refine file_eq fun q hq => ?_
    cases q with
    | parent => exact hlines
    | child => exact absurd rfl hq
    | ls => exact hls
  | ran =>
    obtain ⟨hchild, hls⟩ := hleft
    rw [kept, ht] at hchild
    exact listed hlines hchild hls
  | signaled =>
    obtain ⟨⟨sent, hsent, hls⟩, hchild⟩ := hleft
    have hnone : linesOf body .child = [] := by
      obtain hchild | ⟨_, hchild⟩ := hchild
      · rwa [kept, ht] at hchild
      · rw [ht] at hchild
        exact List.prefix_nil.mp hchild
    exact ⟨sent, hsent, listed hlines hnone hls⟩

end Kept

end LinuxExamples.ForkExec
