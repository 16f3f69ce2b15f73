import LinuxExamples.Runs
import LinuxExamples.Signals

namespace LinuxExamples.SigAction

open Runs Signals

/-- The signals that the program knows, and those that end a process by default. -/
inductive Sig where
  | sigint | sigquit | other (n : Nat)
  deriving DecidableEq

/-- The lines that are printed, and the beginning of `pause`. -/
inductive Event where
  | inputSigint | receivedSignal | afterSleep | afterSignalHandler | sigactionFailed | pauses
  deriving DecidableEq

/-- How far a call of `handler` is. -/
inductive Stage where
  | psignal | sleep | printf

/-- Where `main` is. A signal that has come before `pause` is called does not end it. -/
inductive Point where
  | sigaction | prompt | pause | paused | after | ret
  | returned | failed | killed (by_ : Sig)
  deriving DecidableEq

def Point.live : Point → Bool
  | .returned | .failed | .killed _ => false
  | _ => true

/-- `log` has the lines in the order of the calls that print them, each of which is one step,
as on a terminal, and `sent` counts the SIGINTs. -/
structure State where
  context : Context Sig Stage
  point : Point
  log : List Event
  sent : Nat

/-- `act.sa_mask` as `main` sets it. -/
def saMask : Finset Sig := {.sigquit}

def start : State := ⟨⟨fun _ => .kill, ∅, ∅, []⟩, .sigaction, [], 0⟩

/-- Add an event to the log. -/
def State.print (s : State) (e : Event) : State := { s with log := s.log ++ [e] }

/-- The next step of `main`, if it does not wait. -/
def main (s : State) : Option State :=
  match s.point with
  | .sigaction =>
    some { s with
      context := { s.context with
        action := Function.update s.context.action .sigint (.handle saMask) }
      point := .prompt }
  | .prompt => some { s.print .inputSigint with point := .pause }
  | .pause => some { s.print .pauses with point := .paused }
  | .after => some { s.print .afterSignalHandler with point := .ret }
  | .ret => some { s with point := .returned }
  | .paused | .returned | .failed | .killed _ => none

/-- The next step of `handler`. When it returns to `pause`, so does that. -/
def handler (s : State) : Stage → State
  | .psignal => { s.print .receivedSignal with context := s.context.proceed .sleep }
  | .sleep => { s with context := s.context.proceed .printf }
  | .printf =>
    { s.print .afterSleep with
      context := s.context.leave
      point := if s.point = .paused then .after else s.point }

def run (s : State) : Option State :=
  match s.context.frames with
  | [] => main s
  | f :: _ => some (handler s f.stage)

/-- A signal is sent or delivered, `sigaction` fails, or the process goes on, which it does
when there is nothing to deliver. -/
inductive Act where
  | send (x : Sig) | deliver (x : Sig) | fail | run

def step (s : State) : Act → Option State
  | .send x =>
    if s.point.live then
      some { s with
        context := s.context.send x
        sent := s.sent + if x = .sigint then 1 else 0 }
    else none
  | .deliver x =>
    if s.point.live ∧ x ∈ s.context.ready then
      match s.context.action x with
      | .kill => some { s with point := .killed x }
      | .handle mask => some { s with context := s.context.enter x mask .psignal }
    else none
  | .fail =>
    if s.point = .sigaction then some { s.print .sigactionFailed with point := .failed } else none
  | .run => if s.point.live ∧ s.context.ready = ∅ then run s else none

/-- What `n` calls of the handler print. -/
def runs (n : Nat) : List Event := (List.replicate n [.receivedSignal, .afterSleep]).flatten

/-- What `main` and whole calls of the handler have logged when `main` is at a point: it goes
past `pause` only after a whole call since that began. -/
def Main (w : List Event) : Point → Prop
  | .sigaction => w = []
  | .failed => w = [.sigactionFailed]
  | .prompt => ∃ a, w = runs a
  | .pause => ∃ a b, w = runs a ++ .inputSigint :: runs b
  | .paused => ∃ a b, w = runs a ++ .inputSigint :: (runs b ++ [.pauses])
  | .after => ∃ a b c, w = runs a ++ .inputSigint :: (runs b ++ .pauses :: runs (c + 1))
  | .ret | .returned => ∃ a b c d, w = runs a ++ .inputSigint ::
      (runs b ++ .pauses :: (runs (c + 1) ++ .afterSignalHandler :: runs d))
  | .killed _ => False

/-- The same where a kill may have ended `main` at any point. -/
def Word (w : List Event) : Point → Prop
  | .killed _ => ∃ x, Main w x
  | x => Main w x

/-- What a call of the handler that goes on has printed. -/
def begun : List (Frame Sig Stage) → List Event
  | [] => []
  | f :: _ =>
    match f.stage with
    | .psignal => []
    | .sleep | .printf => [.receivedSignal]

/-- SIGINTs that are under way to the handler's first line. -/
def underway (c : Context Sig Stage) : Nat :=
  (if .sigint ∈ c.pending then 1 else 0) +
    match c.frames with
    | [] => 0
    | f :: _ =>
      match f.stage with
      | .psignal => 1
      | .sleep | .printf => 0

structure Orderly (s : State) : Prop where
  nested : s.context.Nested ∅ fun _ => saMask
  handled : ∀ f ∈ s.context.frames, f.sig = .sigint
  action : ∀ x mask, s.context.action x = .handle mask →
    x = .sigint ∧ mask = saMask ∧ s.point ≠ .sigaction
  installed : s.point.live → s.point ≠ .sigaction → s.context.action .sigint = .handle saMask
  idle : s.point = .sigaction → s.context.frames = []
  word : ∃ w, Word w s.point ∧ s.log = w ++ begun s.context.frames
  quit : s.point = .killed .sigquit → s.context.frames = []
  counted : s.log.count .receivedSignal + underway s.context ≤ s.sent

section Orderly

variable {s t : State}

theorem runs_succ (n : Nat) : runs (n + 1) = runs n ++ [.receivedSignal, .afterSleep] := by
  rw [runs, List.replicate_succ', List.flatten_append, List.flatten_singleton]
  rfl

theorem Word.main {w : List Event} {x : Point} (h : Word w x) (hlive : x.live) : Main w x := by
  cases x with
  | killed y => cases hlive
  | sigaction | prompt | pause | paused | after | ret | returned | failed => exact h

/-- A call of the handler has ended. -/
theorem Main.handled {w : List Event} {x : Point} (h : Main w x) (hlive : x.live)
    (hx : x ≠ .sigaction) :
    Word (w ++ [.receivedSignal, .afterSleep]) (if x = .paused then .after else x) := by
  cases x with
  | sigaction => exact absurd rfl hx
  | prompt =>
    obtain ⟨a, rfl⟩ := h
    exact ⟨a + 1, (runs_succ a).symm⟩
  | pause =>
    obtain ⟨a, b, rfl⟩ := h
    exact ⟨a, b + 1, by simp [runs_succ]⟩
  | paused =>
    obtain ⟨a, b, rfl⟩ := h
    exact ⟨a, b, 0, by simp [runs]⟩
  | after =>
    obtain ⟨a, b, c, rfl⟩ := h
    exact ⟨a, b, c + 1, by simp [runs_succ]⟩
  | ret =>
    obtain ⟨a, b, c, d, rfl⟩ := h
    exact ⟨a, b, c, d + 1, by simp [runs_succ]⟩
  | returned | failed | killed y => cases hlive

/-- There is at most one call of the handler. -/
theorem Orderly.frames (hs : Orderly s) : s.context.frames = [] ∨ ∃ f, s.context.frames = [f] := by
  have hlen : s.context.frames.length ≤ ({.sigint} : Finset Sig).card :=
    Nested.length_le hs.nested fun f hf => Finset.mem_singleton.mpr (hs.handled f hf)
  match hf : s.context.frames with
  | [] => exact .inl rfl
  | [f] => exact .inr ⟨f, rfl⟩
  | f :: g :: rest => simp [hf] at hlen

/-- While the handler runs, neither signal is delivered. -/
theorem Orderly.blocked (hs : Orderly s) (hf : s.context.frames ≠ []) :
    .sigint ∈ s.context.blocked ∧ .sigquit ∈ s.context.blocked := by
  obtain ⟨f, hmem⟩ := List.exists_mem_of_ne_nil _ hf
  obtain ⟨hsig, hmask⟩ := Nested.blocks hs.nested f hmem
  rw [hs.handled f hmem] at hsig
  exact ⟨hsig, hmask (Finset.mem_singleton_self _)⟩

theorem deliver_orderly {x : Sig} (hs : Orderly s) (h : step s (.deliver x) = some t) :
    Orderly t := by
  obtain ⟨⟨hlive, hready⟩, h⟩ := Option.ite_none_right_eq_some.mp h
  obtain ⟨w, hw, hlog⟩ := hs.word
  have hpend : x ∈ s.context.pending ∧ x ∉ s.context.blocked := Finset.mem_sdiff.mp hready
  split at h
  · cases h
    refine ⟨hs.nested, hs.handled, fun y mask hy => ?_, nofun, fun hp => ?_,
      ⟨w, ⟨s.point, hw.main hlive⟩, hlog⟩, fun hq => ?_, hs.counted⟩
    · obtain ⟨hy, hmask, _⟩ := hs.action y mask hy
      exact ⟨hy, hmask, by simp⟩
    · cases hp
    · cases hq
      by_contra hf
      exact hpend.2 (hs.blocked hf).2
  · rename_i mask hact
    obtain ⟨rfl, rfl, hpoint⟩ := hs.action x mask hact
    have hidle : s.context.frames = [] := by
      by_contra hf
      exact hpend.2 (hs.blocked hf).1
    have hnested := hs.nested.enter hready .psignal
    have hcount := hs.counted
    cases h
    refine ⟨hnested, ?_, hs.action, hs.installed, fun hp => absurd hp hpoint, ⟨w, hw, ?_⟩,
      fun hq => ?_, ?_⟩
    · simp [Context.enter, hidle]
    · simpa [Context.enter, begun, hidle] using hlog
    · simp only at hq
      rw [hq] at hlive
      cases hlive
    · simp only [underway, hpend.1, hidle, ↓reduceIte] at hcount
      simpa [underway, Context.enter] using hcount

/-- A step of `main`, outside the handler. -/
theorem Orderly.move (hs : Orderly s) (hidle : s.context.frames = [])
    (hframes : t.context.frames = s.context.frames)
    (hblocked : t.context.blocked = s.context.blocked)
    (hpending : t.context.pending = s.context.pending)
    (haction : ∀ x mask, t.context.action x = .handle mask →
      x = .sigint ∧ mask = saMask ∧ t.point ≠ .sigaction)
    (hinstalled : t.point.live → t.point ≠ .sigaction →
      t.context.action .sigint = .handle saMask)
    (hword : Word t.log t.point)
    (hcount : t.log.count .receivedSignal = s.log.count .receivedSignal)
    (hsent : t.sent = s.sent) : Orderly t := by
  have hidle' : t.context.frames = [] := hframes.trans hidle
  refine ⟨?_, ?_, haction, hinstalled, fun _ => hidle', ⟨t.log, hword, ?_⟩, fun _ => hidle', ?_⟩
  · rw [Context.Nested, hframes, hblocked]
    exact hs.nested
  · simp [hidle']
  · simp [hidle', begun]
  · have hold := hs.counted
    rw [hcount, hsent]
    simpa only [underway, hframes, hpending] using hold

/-- A step of `main` behind its `sigaction`, which leaves the signals alone. -/
theorem Orderly.goesOn (hs : Orderly s) (hidle : s.context.frames = []) (hlive : s.point.live)
    (hpoint : s.point ≠ .sigaction) (hcontext : t.context = s.context)
    (hnext : t.point ≠ .sigaction) (hword : Word t.log t.point)
    (hcount : t.log.count .receivedSignal = s.log.count .receivedSignal)
    (hsent : t.sent = s.sent) : Orderly t := by
  refine hs.move hidle (by rw [hcontext]) (by rw [hcontext]) (by rw [hcontext])
    (fun x mask hx => ?_) (fun _ _ => ?_) hword hcount hsent
  · rw [hcontext] at hx
    obtain ⟨hsig, hmask, _⟩ := hs.action x mask hx
    exact ⟨hsig, hmask, hnext⟩
  · rw [hcontext]
    exact hs.installed hlive hpoint

theorem main_orderly (hs : Orderly s) (hidle : s.context.frames = []) (h : main s = some t) :
    Orderly t := by
  obtain ⟨w, hw, hlog⟩ := hs.word
  obtain rfl : s.log = w := by simpa [hidle, begun] using hlog
  have hgoes := hs.goesOn (t := t) hidle
  cases hp : s.point with
  | sigaction =>
    simp only [main, hp, Option.some.injEq] at h
    rw [hp] at hw
    subst h
    refine hs.move hidle rfl rfl rfl (fun x mask hx => ?_) (fun _ _ => by simp) ⟨0, hw⟩ rfl rfl
    by_cases hsig : x = .sigint
    · subst hsig
      simp only [Function.update_self, Action.handle.injEq] at hx
      exact ⟨rfl, hx.symm, by simp⟩
    · simp only [Function.update_of_ne hsig] at hx
      obtain ⟨hx, hmask, _⟩ := hs.action x mask hx
      exact ⟨hx, hmask, by simp⟩
  | prompt =>
    rw [hp] at hw hgoes
    obtain ⟨a, ha⟩ := hw
    simp only [main, hp, Option.some.injEq] at h
    subst h
    exact hgoes rfl (by simp) rfl (by simp) ⟨a, 0, by simp [State.print, ha, runs]⟩
      (by simp [State.print]) rfl
  | pause =>
    rw [hp] at hw hgoes
    obtain ⟨a, b, hb⟩ := hw
    simp only [main, hp, Option.some.injEq] at h
    subst h
    exact hgoes rfl (by simp) rfl (by simp) ⟨a, b, by simp [State.print, hb]⟩
      (by simp [State.print]) rfl
  | after =>
    rw [hp] at hw hgoes
    obtain ⟨a, b, c, hc⟩ := hw
    simp only [main, hp, Option.some.injEq] at h
    subst h
    exact hgoes rfl (by simp) rfl (by simp) ⟨a, b, c, 0, by simp [State.print, hc, runs]⟩
      (by simp [State.print]) rfl
  | ret =>
    rw [hp] at hw hgoes
    simp only [main, hp, Option.some.injEq] at h
    subst h
    exact hgoes rfl (by simp) rfl (by simp) hw rfl rfl
  | paused | returned | failed | killed y => simp [main, hp] at h

theorem handler_orderly (hs : Orderly s) {f : Frame Sig Stage} (hf : s.context.frames = [f])
    (hlive : s.point.live) : Orderly (handler s f.stage) := by
  obtain ⟨w, hw, hlog⟩ := hs.word
  have hcount := hs.counted
  have hpoint : s.point ≠ .sigaction := fun hp => by simp [hs.idle hp] at hf
  have hkill : s.point ≠ .killed .sigquit := fun hp => by simp [hs.quit hp] at hf
  obtain ⟨sig, saved, stage⟩ := f
  have hsig : sig = .sigint := hs.handled ⟨sig, saved, stage⟩ (by simp [hf])
  cases stage with
  | psignal =>
    refine ⟨hs.nested.proceed _, ?_, by simpa [handler, State.print] using hs.action,
      by simpa [handler, State.print] using hs.installed, fun hp => absurd hp hpoint,
      ⟨w, hw, ?_⟩, fun hp => absurd hp hkill, ?_⟩
    · simp [handler, Context.proceed, hf, hsig]
    · simpa [handler, State.print, Context.proceed, hf, begun] using hlog
    · simp only [underway, hf] at hcount
      have hone : (s.log ++ [Event.receivedSignal]).count .receivedSignal =
          s.log.count .receivedSignal + 1 := by simp
      simp only [handler, State.print, Context.proceed, hf, underway, hone]
      omega
  | sleep =>
    refine ⟨hs.nested.proceed _, ?_, by simpa [handler, State.print] using hs.action,
      by simpa [handler, State.print] using hs.installed, fun hp => absurd hp hpoint,
      ⟨w, hw, ?_⟩, fun hp => absurd hp hkill, ?_⟩
    · simp [handler, Context.proceed, hf, hsig]
    · simpa [handler, Context.proceed, hf, begun] using hlog
    · simpa [handler, Context.proceed, hf, underway] using hcount
  | printf =>
    have hnext : (if s.point = .paused then .after else s.point) ≠ .sigaction := by
      split
      · simp
      · exact hpoint
    refine ⟨hs.nested.leave, ?_, fun x mask hx => ?_, fun _ _ => ?_, fun hp => absurd hp hnext,
      ⟨w ++ [.receivedSignal, .afterSleep], (hw.main hlive).handled hlive hpoint, ?_⟩,
      fun hp => ?_, ?_⟩
    · simp [handler, Context.leave, hf]
    · obtain ⟨hx, hmask, _⟩ := hs.action x mask (by simpa [handler] using hx)
      exact ⟨hx, hmask, hnext⟩
    · simpa [handler] using hs.installed hlive hpoint
    · simp [handler, State.print, Context.leave, hf, begun, hlog]
    · simp [handler, Context.leave, hf]
    · simpa [handler, State.print, Context.leave, hf, underway] using hcount

theorem step_orderly {a : Act} (hs : Orderly s) (h : step s a = some t) : Orderly t := by
  cases a with
  | send x =>
    obtain ⟨hlive, ht⟩ := Option.ite_none_right_eq_some.mp h
    have hcount := hs.counted
    cases ht
    refine ⟨hs.nested, hs.handled, hs.action, hs.installed, hs.idle, hs.word, hs.quit, ?_⟩
    simp only [underway, Context.send, Finset.mem_insert] at hcount ⊢
    by_cases hx : x = .sigint
    · subst hx
      simp only [true_or, ↓reduceIte]
      split at hcount <;> omega
    · simpa [hx, Ne.symm hx] using hcount
  | deliver x => exact deliver_orderly hs h
  | fail =>
    obtain ⟨hp, ht⟩ := Option.ite_none_right_eq_some.mp h
    have hidle := hs.idle hp
    obtain ⟨w, hw, hlog⟩ := hs.word
    obtain rfl : s.log = w := by simpa [hidle, begun] using hlog
    rw [hp] at hw
    cases ht
    refine hs.move hidle rfl rfl rfl (fun x mask hx => ?_) nofun ?_ ?_ rfl
    · obtain ⟨hx, hmask, _⟩ := hs.action x mask hx
      exact ⟨hx, hmask, by simp⟩
    · exact congrArg (· ++ [Event.sigactionFailed]) hw
    · simp [State.print]
  | run =>
    obtain ⟨⟨hlive, _⟩, h⟩ := Option.ite_none_right_eq_some.mp h
    obtain hf | ⟨f, hf⟩ := hs.frames
    · rw [run, hf] at h
      exact main_orderly hs hf h
    · rw [run, hf] at h
      exact Option.some.inj h ▸ handler_orderly hs hf hlive

theorem start_orderly : Orderly start :=
  ⟨.idle, by simp [start], by simp [start], fun _ hp => absurd rfl hp, fun _ => rfl,
    ⟨[], rfl, rfl⟩, fun _ => rfl, by simp [start, underway]⟩

/-- The lines of a run: those of `main` and of whole calls of the handler, then at most the
first line of a call that goes on or was cut short, which SIGQUIT does not do. Each call
answers a signal of its own. -/
structure Printed (s : State) : Prop where
  lines : ∃ w, Word w s.point ∧
    (s.log = w ∨ s.log = w ++ [.receivedSignal] ∧ s.context.frames ≠ [] ∧
      s.point ≠ .killed .sigquit)
  answers : s.log.count .receivedSignal ≤ s.sent

theorem Orderly.printed (hs : Orderly s) : Printed s := by
  have hcount := hs.counted
  refine ⟨?_, by omega⟩
  obtain ⟨w, hw, hlog⟩ := hs.word
  refine ⟨w, hw, ?_⟩
  obtain hf | ⟨⟨sig, saved, stage⟩, hf⟩ := hs.frames
  · exact .inl (by simpa [hf, begun] using hlog)
  · have hkill : s.point ≠ .killed .sigquit := fun hp => by simp [hs.quit hp] at hf
    cases stage with
    | psignal => exact .inl (by simpa [hf, begun] using hlog)
    | sleep | printf => exact .inr ⟨by simpa [hf, begun] using hlog, by simp [hf], hkill⟩

theorem lines_orderly : Always step Printed start :=
  .of_invariant Orderly start_orderly (fun _ _ _ hs h => step_orderly hs h) fun _ hs => hs.printed

theorem step_dead (hs : s.point.live = false) (a : Act) : step s a = none := by
  cases a with
  | send x | deliver x | run => simp [step, hs]
  | fail =>
    refine if_neg fun hp => ?_
    rw [hp] at hs
    cases hs

/-- A process that has SIGQUIT to come when `main` can go on, or has been killed. -/
structure Doomed (s : State) : Prop where
  orderly : Orderly s
  point : (∃ x, s.point = .killed x) ∨
    s.point.live ∧ s.point ≠ .sigaction ∧ .sigquit ∈ s.context.pending

/-- Nothing is logged between the two states but what the handler prints. -/
def Silent (s t : State) : Prop :=
  ∃ rest, t.log = s.log ++ rest ∧ ∀ e ∈ rest, e = .receivedSignal ∨ e = .afterSleep

theorem Silent.of_log (h : t.log = s.log) : Silent s t := ⟨[], by simp [h], by simp⟩

theorem Silent.trans {u : State} (h : Silent s t) (h' : Silent t u) : Silent s u := by
  obtain ⟨rest, hrest, hhandler⟩ := h
  obtain ⟨rest', hrest', hhandler'⟩ := h'
  refine ⟨rest ++ rest', by rw [hrest', hrest, List.append_assoc], fun e he => ?_⟩
  obtain he | he := List.mem_append.mp he
  · exact hhandler e he
  · exact hhandler' e he

theorem handler_silent (s : State) (stage : Stage) : Silent s (handler s stage) := by
  cases stage with
  | psignal => exact ⟨[.receivedSignal], rfl, by simp⟩
  | sleep => exact .of_log rfl
  | printf => exact ⟨[.afterSleep], rfl, by simp⟩

theorem handler_pending (s : State) (stage : Stage) :
    (handler s stage).context.pending = s.context.pending := by
  cases stage <;> simp [handler]

theorem handler_point (s : State) (stage : Stage) :
    (handler s stage).point = s.point ∨ s.point = .paused ∧ (handler s stage).point = .after := by
  cases stage with
  | psignal | sleep => exact .inl rfl
  | printf =>
    by_cases hp : s.point = .paused
    · exact .inr ⟨hp, if_pos hp⟩
    · exact .inl (if_neg hp)

theorem Orderly.ready_quit (hs : Orderly s) (hf : s.context.frames = [])
    (hq : .sigquit ∈ s.context.pending) : .sigquit ∈ s.context.ready := by
  have hblocked : s.context.blocked = ∅ := by
    have hnested := hs.nested
    rw [Context.Nested, hf] at hnested
    exact hnested.idle_eq
  rw [Context.ready, hblocked]
  simpa using hq

/-- What a step of a doomed process may be. -/
inductive Dooming (s : State) : Act → State → Prop
  | sent (x : Sig) : Dooming s (.send x)
      { s with context := s.context.send x, sent := s.sent + if x = .sigint then 1 else 0 }
  | killed (x : Sig) (ready : x ∈ s.context.ready) (ne : x ≠ .sigint) :
      Dooming s (.deliver x) { s with point := .killed x }
  | entered (ready : .sigint ∈ s.context.ready) (idle : s.context.frames = []) :
      Dooming s (.deliver .sigint) { s with context := s.context.enter .sigint saMask .psignal }
  | handled (f : Frame Sig Stage) (frames : s.context.frames = [f]) :
      Dooming s .run (handler s f.stage)

theorem Doomed.cases (hs : Doomed s) {a : Act} (h : step s a = some t) :
    (s.point.live ∧ s.point ≠ .sigaction ∧ .sigquit ∈ s.context.pending) ∧ Dooming s a t := by
  obtain ⟨x, hx⟩ | hpoint := hs.point
  · cases (step_dead (by rw [hx]; rfl) a).symm.trans h
  · refine ⟨hpoint, ?_⟩
    obtain ⟨hlive, hpoint, hquit⟩ := hpoint
    have hinstalled := hs.orderly.installed hlive hpoint
    cases a with
    | send x =>
      obtain ⟨_, ht⟩ := Option.ite_none_right_eq_some.mp h
      cases ht
      exact .sent x
    | deliver x =>
      obtain ⟨⟨_, hready⟩, h⟩ := Option.ite_none_right_eq_some.mp h
      split at h
      · rename_i hact
        cases h
        refine .killed x hready ?_
        rintro rfl
        cases hinstalled.symm.trans hact
      · rename_i mask hact
        obtain ⟨rfl, rfl, _⟩ := hs.orderly.action x mask hact
        cases h
        refine .entered hready ?_
        by_contra hf
        exact (Finset.mem_sdiff.mp hready).2 (hs.orderly.blocked hf).1
    | fail =>
      obtain ⟨hp, _⟩ := Option.ite_none_right_eq_some.mp h
      exact absurd hp hpoint
    | run =>
      obtain ⟨⟨_, hready⟩, h⟩ := Option.ite_none_right_eq_some.mp h
      obtain hf | ⟨f, hf⟩ := hs.orderly.frames
      · have hmem := hs.orderly.ready_quit hf hquit
        simp [hready] at hmem
      · rw [run, hf] at h
        cases h
        exact .handled f hf

theorem step_doomed {a : Act} (hs : Doomed s) (h : step s a = some t) : Doomed t := by
  have horderly := step_orderly hs.orderly h
  obtain ⟨⟨hlive, hpoint, hquit⟩, hd⟩ := hs.cases h
  refine ⟨horderly, ?_⟩
  cases hd with
  | sent x => exact .inr ⟨hlive, hpoint, Finset.mem_insert_of_mem hquit⟩
  | killed x ready ne => exact .inl ⟨x, rfl⟩
  | entered ready idle =>
    have hpend : .sigquit ∈ s.context.pending.erase .sigint :=
      Finset.mem_erase.mpr ⟨by simp, hquit⟩
    exact .inr ⟨hlive, hpoint, hpend⟩
  | handled f frames =>
    have hpend := (handler_pending s f.stage).symm ▸ hquit
    obtain hsame | ⟨_, hafter⟩ := handler_point s f.stage
    · exact .inr ⟨hsame ▸ hlive, hsame ▸ hpoint, hpend⟩
    · exact .inr ⟨by rw [hafter]; rfl, by simp [hafter], hpend⟩

theorem doomed_silent (hs : Doomed s) (h : Reaches step free s t) : Doomed t ∧ Silent s t := by
  induction h with
  | refl => exact ⟨hs, .of_log rfl⟩
  | tail _ hn ih =>
    obtain ⟨a, _, ha⟩ := hn
    obtain ⟨hs, hsilent⟩ := ih
    refine ⟨step_doomed hs ha, hsilent.trans ?_⟩
    cases (hs.cases ha).2 with
    | sent x | killed x ready ne | entered ready idle => exact .of_log rfl
    | handled f frames => exact handler_silent _ f.stage

/-- How many steps the handler has to make, and the one that kills. -/
def remaining (s : State) : Nat :=
  if s.point.live then
    match s.context.frames with
    | [] => 1
    | f :: _ =>
      match f.stage with
      | .psignal => 4
      | .sleep => 3
      | .printf => 2
  else 0

/-- The same with one more call of the handler for a SIGINT that is pending. -/
def left (s : State) : Nat := (if .sigint ∈ s.context.pending then 4 else 0) + remaining s

/-- No signal is sent any more. -/
def Unsent (_ : State) : Act → Prop
  | .send _ => False
  | _ => True

theorem Doomed.lowers (hs : Doomed s) {a : Act} (ha : Unsent s a) (h : step s a = some t) :
    left t < left s := by
  obtain ⟨⟨hlive, _⟩, hd⟩ := hs.cases h
  cases hd with
  | sent x => cases ha
  | killed x ready ne =>
    have hpos : 0 < remaining s := by
      unfold remaining
      rw [if_pos hlive]
      split
      · exact Nat.one_pos
      · split <;> decide
    have hzero : remaining { s with point := .killed x } = 0 := rfl
    simp only [left, hzero]
    omega
  | entered ready idle =>
    have hpend := (Finset.mem_sdiff.mp ready).1
    simp [left, remaining, Context.enter, hlive, hpend, idle]
  | handled f frames =>
    obtain ⟨sig, saved, stage⟩ := f
    cases stage with
    | psignal => simp [left, remaining, handler, State.print, Context.proceed, frames, hlive]
    | sleep => simp [left, remaining, handler, Context.proceed, frames, hlive]
    | printf =>
      have hrest : remaining (handler s .printf) ≤ 1 := by
        simp only [remaining, handler, State.print, Context.leave, frames]
        split <;> decide
      have hnow : remaining s = 2 := by simp only [remaining, hlive, frames, ↓reduceIte]
      simp only [left, handler_pending, hnow]
      omega

/-- The signal is delivered that is ready, and if none is the handler goes on. -/
theorem Doomed.moves (hs : Doomed s) (hg : ¬ ∃ x, s.point = .killed x) :
    ∃ a t, Unsent s a ∧ step s a = some t := by
  obtain ⟨hlive, _, hquit⟩ := hs.point.resolve_left hg
  by_cases hready : s.context.ready = ∅
  · obtain hf | ⟨f, hf⟩ := hs.orderly.frames
    · have hmem := hs.orderly.ready_quit hf hquit
      simp [hready] at hmem
    · refine ⟨.run, handler s f.stage, trivial, ?_⟩
      simp only [step, hlive, hready, and_self, ↓reduceIte, run, hf]
  · obtain ⟨x, hx⟩ := Finset.nonempty_iff_ne_empty.mpr hready
    cases hact : s.context.action x with
    | kill =>
      refine ⟨.deliver x, { s with point := .killed x }, trivial, ?_⟩
      simp only [step, hlive, hx, and_self, ↓reduceIte, hact]
    | handle mask =>
      refine ⟨.deliver x, { s with context := s.context.enter x mask .psignal }, trivial, ?_⟩
      simp only [step, hlive, hx, and_self, ↓reduceIte, hact]

/-- Signals other than SIGINT and SIGQUIT are not sent. -/
def Known (_ : State) : Act → Prop
  | .send x => x = .sigint ∨ x = .sigquit
  | _ => True

/-- A doomed process that no signal but SIGQUIT can kill. -/
structure Quits (s : State) : Prop where
  doomed : Doomed s
  others : ∀ n, .other n ∉ s.context.pending
  point : ∀ x, s.point = .killed x → x = .sigquit

theorem step_quits {a : Act} (hs : Quits s) (ha : Known s a) (h : step s a = some t) : Quits t := by
  obtain ⟨⟨hlive, _⟩, hd⟩ := hs.doomed.cases h
  refine ⟨step_doomed hs.doomed h, ?_, ?_⟩
  · intro n hn
    cases hd with
    | sent x =>
      obtain hx | hn := Finset.mem_insert.mp hn
      · obtain rfl | rfl := ha <;> cases hx
      · exact hs.others n hn
    | killed x ready ne => exact hs.others n hn
    | entered ready idle => exact hs.others n (Finset.mem_of_mem_erase hn)
    | handled f frames =>
      exact hs.others n (handler_pending s f.stage ▸ hn)
  · intro x hx
    cases hd with
    | sent y | entered ready idle =>
      change s.point = .killed x at hx
      rw [hx] at hlive
      cases hlive
    | killed y ready ne =>
      cases hx
      have hpend := (Finset.mem_sdiff.mp ready).1
      cases x with
      | sigint => exact absurd rfl ne
      | sigquit => rfl
      | other n => exact absurd hpend (hs.others n)
    | handled f frames =>
      obtain hsame | ⟨_, hafter⟩ := handler_point s f.stage
      · rw [hsame.symm.trans hx] at hlive
        cases hlive
      · cases hafter.symm.trans hx

theorem unsent_known {a : Act} (h : Unsent s a) : Known s a := by
  cases a with
  | send x => cases h
  | deliver x | fail | run => trivial

/-- What SIGQUIT brings about once it has come while the handler runs: `main` does nothing any
more, and without further signals the process is killed, by SIGQUIT itself when no signal
but SIGINT and SIGQUIT was sent. -/
structure Doom (s : State) : Prop where
  silent : ∀ t, Reaches step free s t → Silent s t
  killed : ∀ t, Reaches step free s t →
    Inevitable step Unsent (fun u => ∃ x, u.point = .killed x) t
  quit : (∀ n, .other n ∉ s.context.pending) → ∀ t, Reaches step Known s t →
    Inevitable step Unsent (fun u => u.point = .killed .sigquit) t

theorem quit_kills : Always step (fun s =>
    s.point.live → s.context.frames ≠ [] → .sigquit ∈ s.context.pending → Doom s) start := by
  refine .of_invariant Orderly start_orderly (fun _ _ _ hs h => step_orderly hs h) ?_
  intro s hs hlive hf hquit
  have hpoint : s.point ≠ .sigaction := fun hp => hf (hs.idle hp)
  have hdoomed : Doomed s := ⟨hs, .inr ⟨hlive, hpoint, hquit⟩⟩
  refine ⟨fun t h => (doomed_silent hdoomed h).2, fun t h => ?_, fun hothers t h => ?_⟩
  · refine inevitable_of_measure left (fun _ => Doomed.moves) (fun _ _ _ hi _ ha hn => ?_) t
      (doomed_silent hdoomed h).1
    exact ⟨step_doomed hi hn, hi.lowers ha hn⟩
  · have ht : Quits t :=
      h.invariant ⟨hdoomed, hothers, fun x hx => by simp [hx, Point.live] at hlive⟩
        fun _ _ _ hi ha hn => step_quits hi ha hn
    have hlowers {u v : State} {a : Act} (hi : Quits u) (ha : Unsent u a)
        (hn : step u a = some v) : Quits v ∧ left v < left u :=
      ⟨step_quits hi (unsent_known ha) hn, hi.doomed.lowers ha hn⟩
    refine inevitable_of_measure left (fun u hi hg => hi.doomed.moves ?_)
      (fun _ _ _ hi _ ha hn => hlowers hi ha hn) t ht
    rintro ⟨x, hx⟩
    exact hg (hi.point x hx ▸ hx)

end Orderly

end LinuxExamples.SigAction
