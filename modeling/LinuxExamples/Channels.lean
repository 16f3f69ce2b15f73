import LinuxExamples.Bytes
import LinuxExamples.Runs

namespace LinuxExamples.Channels

open Bytes Runs

/-- One end of a byte channel. -/
inductive End (κ : Type) where
  | reader (c : κ) | writer (c : κ)
  deriving DecidableEq

/-- An operation of a process on its descriptors or on its buffer. A descriptor stands for
one or more ends. -/
inductive Op (κ : Type) where
  | close (ends : List (End κ)) | clear (n : Nat) | print (n : Nat) | exit
  | write (c : κ) (bs : List UInt8) | read (c : κ) (n : Nat)

/-- A process: what it has still to do, the ends it holds, its buffer and what it has printed. -/
structure Proc (κ : Type) where
  todo : List (Op κ)
  held : List (End κ)
  buf : Mem
  out : List (List UInt8)

structure State (ι κ : Type) where
  chan : κ → List UInt8
  procs : ι → Proc κ

variable {ι κ : Type} [DecidableEq κ]

/-- What an operation does to the process itself; a write and a read are only passed. -/
def Proc.local (x : Proc κ) (rest : List (Op κ)) : Op κ → Proc κ
  | .close ends => { x with todo := rest, held := x.held.filter (· ∉ ends) }
  | .clear n => { x with todo := rest, buf := memset x.buf n }
  | .print n => { x with todo := rest, out := x.out ++ [str x.buf 0 n] }
  | .exit => { x with todo := [], held := [] }
  | .write _ _ | .read _ _ => { x with todo := rest }

def Proc.dead (x : Proc κ) : Proc κ := { x with todo := [], held := [] }

section Step

variable [Fintype ι] [DecidableEq ι]

def State.holds (s : State ι κ) (e : End κ) : Prop := ∃ p, e ∈ (s.procs p).held

instance (s : State ι κ) (e : End κ) : Decidable (s.holds e) :=
  inferInstanceAs (Decidable (∃ p, e ∈ (s.procs p).held))

/-- Give a process and perhaps a channel a new state. -/
def State.put (s : State ι κ) (p : ι) (x : Proc κ) (d : Option (κ × List UInt8)) : State ι κ where
  chan := match d with
    | none => s.chan
    | some (c, bs) => Function.update s.chan c bs
  procs := Function.update s.procs p x

inductive Act (ι : Type) where
  | run (p : ι) | kill (p : ι)

/-- A write without a reader kills the writer. A read from an empty channel waits as long
as some process holds a writing end, and then is the end of the file. -/
def exec (s : State ι κ) (p : ι) (rest : List (Op κ)) : Op κ → Option (State ι κ)
  | .write c bs =>
    if s.holds (.reader c) then
      some (s.put p ((s.procs p).local rest (.write c bs)) (some (c, s.chan c ++ bs)))
    else some (s.put p (s.procs p).dead none)
  | .read c n =>
    let x := (s.procs p).local rest (.read c n)
    if s.chan c = [] then if s.holds (.writer c) then none else some (s.put p x none)
    else
      some (s.put p { x with buf := write x.buf 0 ((s.chan c).take n) }
        (some (c, (s.chan c).drop n)))
  | o => some (s.put p ((s.procs p).local rest o) none)

def step (s : State ι κ) : Act ι → Option (State ι κ)
  | .run p =>
    match (s.procs p).todo with
    | [] => none
    | o :: rest => exec s p rest o
  | .kill p => some (s.put p (s.procs p).dead none)

/-- No process is killed from outside. -/
def Unkilled (_ : State ι κ) : Act ι → Prop
  | .run _ => True
  | .kill _ => False

end Step

/-- The operation uses the channel. -/
def Op.Touches (c : κ) : Op κ → Prop
  | .write d _ | .read d _ => d = c
  | _ => False

/-- The end is still held after the operation, when it was before. -/
def Op.Keeps (e : End κ) : Op κ → Prop
  | .close ends => e ∉ ends
  | .exit => False
  | _ => True

section Put

variable [DecidableEq ι] {p q : ι}

theorem put_procs_self (s : State ι κ) (p : ι) (x : Proc κ) (d : Option (κ × List UInt8)) :
    (s.put p x d).procs p = x := Function.update_self _ _ _

theorem put_procs_ne (s : State ι κ) (x : Proc κ) (d : Option (κ × List UInt8)) (h : q ≠ p) :
    (s.put p x d).procs q = s.procs q := Function.update_of_ne h _ _

end Put

section Moves

variable [Fintype ι] [DecidableEq ι] {s t : State ι κ} {p q : ι} {a : Act ι} {c : κ}

def Act.actor : Act ι → ι
  | .run p | .kill p => p

/-- What a step of `p` is, in any state. -/
inductive Moves (s : State ι κ) (p : ι) : State ι κ → Prop
  | dies : Moves s p (s.put p (s.procs p).dead none)
  | quiet (o : Op κ) (rest : List (Op κ)) (todo : (s.procs p).todo = o :: rest)
      (silent : ∀ c, ¬ o.Touches c) : Moves s p (s.put p ((s.procs p).local rest o) none)
  | write (c : κ) (bs : List UInt8) (rest : List (Op κ))
      (todo : (s.procs p).todo = .write c bs :: rest) (reader : s.holds (.reader c)) :
      Moves s p (s.put p ((s.procs p).local rest (.write c bs)) (some (c, s.chan c ++ bs)))
  | eof (c : κ) (n : Nat) (rest : List (Op κ)) (todo : (s.procs p).todo = .read c n :: rest)
      (chan : s.chan c = []) (noWriter : ¬ s.holds (.writer c)) :
      Moves s p (s.put p ((s.procs p).local rest (.read c n)) none)
  | read (c : κ) (n : Nat) (rest : List (Op κ)) (todo : (s.procs p).todo = .read c n :: rest)
      (chan : s.chan c ≠ []) :
      Moves s p (s.put p { (s.procs p).local rest (.read c n) with
        buf := write (s.procs p).buf 0 ((s.chan c).take n) } (some (c, (s.chan c).drop n)))

theorem step_moves (h : step s a = some t) : Moves s a.actor t := by
  cases a with
  | kill p =>
    cases h
    exact .dies
  | run p =>
    simp only [step] at h
    split at h
    · cases h
    · rename_i o rest ho
      cases o with
      | write c bs =>
        simp only [exec] at h
        split at h
        · rename_i hheld
          cases h
          exact .write c bs rest ho hheld
        · cases h
          exact .dies
      | read c n =>
        simp only [exec] at h
        split at h
        · rename_i hc
          split at h
          · cases h
          · rename_i hheld
            cases h
            exact .eof c n rest ho hc hheld
        · rename_i hc
          cases h
          exact .read c n rest ho hc
      | close ends | clear n | print n | exit =>
        cases h
        exact .quiet _ rest ho fun _ => id

section Inversion

variable {rest : List (Op κ)}

omit [Fintype ι]

theorem Moves.of_nil (h : Moves s p t) (hp : (s.procs p).todo = []) :
    t = s.put p (s.procs p).dead none := by
  cases h with
  | dies => rfl
  | quiet o rest todo silent | write c bs rest todo reader | eof c n rest todo chan noWriter
  | read c n rest todo chan => cases hp.symm.trans todo

theorem Moves.of_quiet (h : Moves s p t) {o : Op κ} (hp : (s.procs p).todo = o :: rest)
    (silent : ∀ c, ¬ o.Touches c) :
    t = s.put p (s.procs p).dead none ∨ t = s.put p ((s.procs p).local rest o) none := by
  cases h with
  | dies => exact .inl rfl
  | quiet o' rest' todo _ =>
    cases hp.symm.trans todo
    exact .inr rfl
  | write c bs rest' todo reader | eof c n rest' todo chan noWriter | read c n rest' todo chan =>
    cases hp.symm.trans todo
    exact absurd rfl (silent c)

theorem Moves.of_write (h : Moves s p t) {bs : List UInt8}
    (hp : (s.procs p).todo = .write c bs :: rest) :
    t = s.put p (s.procs p).dead none ∨
      t = s.put p ((s.procs p).local rest (.write c bs)) (some (c, s.chan c ++ bs)) := by
  cases h with
  | dies => exact .inl rfl
  | quiet o rest' todo silent =>
    cases hp.symm.trans todo
    exact absurd rfl (silent c)
  | write d bs' rest' todo reader =>
    cases hp.symm.trans todo
    exact .inr rfl
  | eof d n rest' todo chan noWriter | read d n rest' todo chan => cases hp.symm.trans todo

/-- A read ends in death, at the end of the file, or with a text. -/
theorem Moves.of_read (h : Moves s p t) {n : Nat} (hp : (s.procs p).todo = .read c n :: rest) :
    t = s.put p (s.procs p).dead none ∨
      (s.chan c = [] ∧ ¬ s.holds (.writer c)) ∧
        t = s.put p ((s.procs p).local rest (.read c n)) none ∨
      s.chan c ≠ [] ∧ t = s.put p { (s.procs p).local rest (.read c n) with
        buf := Bytes.write (s.procs p).buf 0 ((s.chan c).take n) }
          (some (c, (s.chan c).drop n)) := by
  cases h with
  | dies => exact .inl rfl
  | quiet o rest' todo silent =>
    cases hp.symm.trans todo
    exact absurd rfl (silent c)
  | write d bs' rest' todo reader => cases hp.symm.trans todo
  | eof d k rest' todo chan noWriter =>
    cases hp.symm.trans todo
    exact .inr (.inl ⟨⟨chan, noWriter⟩, rfl⟩)
  | read d k rest' todo chan =>
    cases hp.symm.trans todo
    exact .inr (.inr ⟨chan, rfl⟩)

end Inversion

/-- A process can go on unless it waits for a writer. -/
theorem can_run {o : Op κ} {rest : List (Op κ)} (ho : (s.procs p).todo = o :: rest)
    (h : ∀ c n, o = .read c n → s.chan c = [] → ¬ s.holds (.writer c)) :
    ∃ t, step s (.run p) = some t := by
  simp only [step, ho]
  cases o with
  | write c bs =>
    simp only [exec]
    split <;> exact ⟨_, rfl⟩
  | read c n =>
    have hfree := h c n rfl
    simp only [exec]
    split
    · rename_i hc
      rw [if_neg (hfree hc)]
      exact ⟨_, rfl⟩
    · exact ⟨_, rfl⟩
  | close ends | clear n | print n | exit => exact ⟨_, rfl⟩

/-- How a step leaves the process that takes it. -/
structure Shrinks (x y : Proc κ) : Prop where
  todo : y.todo <:+ x.todo
  held : ∀ e ∈ y.held, e ∈ x.held
  out : x.out <+: y.out

omit [Fintype ι] [DecidableEq ι] in
theorem shrinks_local {x : Proc κ} {o : Op κ} {rest : List (Op κ)} (h : x.todo = o :: rest) :
    Shrinks x (x.local rest o) := by
  have hrest : rest <:+ x.todo := h ▸ List.suffix_cons o rest
  cases o with
  | close ends => exact ⟨hrest, fun e he => (List.mem_filter.mp he).1, List.prefix_refl _⟩
  | print n => exact ⟨hrest, fun e he => he, List.prefix_append _ _⟩
  | exit => exact ⟨List.nil_suffix, fun e he => absurd he List.not_mem_nil, List.prefix_refl _⟩
  | clear n | write c bs | read c n => exact ⟨hrest, fun e he => he, List.prefix_refl _⟩

omit [Fintype ι] in
theorem Moves.shrinks (h : Moves s p t) : Shrinks (s.procs p) (t.procs p) := by
  cases h with
  | dies =>
    rw [put_procs_self]
    exact ⟨List.nil_suffix, fun e he => absurd he List.not_mem_nil, List.prefix_refl _⟩
  | quiet o rest todo silent =>
    rw [put_procs_self]
    exact shrinks_local todo
  | write c bs rest todo reader =>
    rw [put_procs_self]
    exact shrinks_local todo
  | eof c n rest todo chan noWriter =>
    rw [put_procs_self]
    exact shrinks_local todo
  | read c n rest todo chan =>
    rw [put_procs_self]
    have hl := shrinks_local todo
    exact ⟨hl.todo, hl.held, hl.out⟩

omit [Fintype ι] in
theorem Moves.others (h : Moves s p t) (hq : q ≠ p) : t.procs q = s.procs q := by
  cases h <;> exact put_procs_ne s _ _ hq

theorem step_shrinks (h : step s a = some t) (q : ι) : Shrinks (s.procs q) (t.procs q) := by
  have hm := step_moves h
  by_cases hq : q = a.actor
  · exact hq ▸ hm.shrinks
  · rw [hm.others hq]
    exact ⟨List.suffix_refl _, fun e he => he, List.prefix_refl _⟩

theorem reaches_shrinks {ok : State ι κ → Act ι → Prop} (h : Reaches step ok s t) (q : ι) :
    Shrinks (s.procs q) (t.procs q) := by
  induction h with
  | refl => exact ⟨List.suffix_refl _, fun e he => he, List.prefix_refl _⟩
  | tail _ hn ih =>
    obtain ⟨a, _, hstep⟩ := hn
    have hs := step_shrinks hstep q
    exact ⟨hs.todo.trans ih.todo, fun e he => ih.held e (hs.held e he), ih.out.trans hs.out⟩

/-- How many operations are still to be done. -/
def total (s : State ι κ) : Nat := ∑ p, (s.procs p).todo.length

theorem run_total (h : step s (.run p) = some t) : total t < total s := by
  have hne : (s.procs p).todo ≠ [] := by
    intro hp
    simp [step, hp] at h
  have hpos := List.length_pos_of_ne_nil hne
  have hm : Moves s p t := step_moves h
  refine sum_lt_of_one (p := p) ?_ fun q hq => by rw [hm.others hq]
  cases hm with
  | dies =>
    rw [put_procs_self]
    exact hpos
  | quiet o rest todo silent =>
    rw [put_procs_self, todo]
    cases o <;> simp [Proc.local]
  | write c bs rest todo reader | eof c n rest todo chan noWriter | read c n rest todo chan =>
    rw [put_procs_self, todo]
    simp [Proc.local]

/-- A goal is reached without a kill when each state short of it, under an invariant, has a
process that can go on and keeps the invariant. -/
theorem reaches_goal {inv goal : State ι κ → Prop}
    (h : ∀ s, inv s → ¬ goal s → ∃ p t, step s (.run p) = some t ∧ inv t) (s : State ι κ)
    (hs : inv s) : ∃ t, Reaches step Unkilled s t ∧ inv t ∧ goal t := by
  induction hm : total s using Nat.strong_induction_on generalizing s with
  | _ m ih =>
    by_cases hg : goal s
    · exact ⟨s, .refl s, hs, hg⟩
    · obtain ⟨p, t, ht, hit⟩ := h s hs hg
      obtain ⟨u, hu, hiu, hgu⟩ := ih (total t) (hm ▸ run_total ht) t hit rfl
      have hst : Reaches step Unkilled s t := .single (a := .run p) trivial ht
      exact ⟨u, hst.trans hu, hiu, hgu⟩

/-- The process waits for a text that no process will write, and holds the writing end
itself, so that there is no end of the file for it either. -/
structure Starved (s : State ι κ) (p : ι) (c : κ) : Prop where
  chan : s.chan c = []
  held : .writer c ∈ (s.procs p).held
  waits : ∃ n rest, (s.procs p).todo = .read c n :: rest
  others : ∀ q, q ≠ p → ∀ bs, .write c bs ∉ (s.procs q).todo

/-- The process itself is not killed. -/
def Spares (p : ι) (_ : State ι κ) (a : Act ι) : Prop := a ≠ .kill p

theorem Starved.step (hs : Starved s p c) (ha : a ≠ .kill p) (h : step s a = some t) :
    Starved t p c ∧ t.procs p = s.procs p := by
  obtain ⟨n, rest, hwaits⟩ := hs.waits
  have hwriter : s.holds (.writer c) := ⟨p, hs.held⟩
  have hne : a.actor ≠ p := by
    cases a with
    | kill q =>
      rintro rfl
      exact ha rfl
    | run q =>
      rintro (rfl : q = p)
      simp [Channels.step, hwaits, exec, hs.chan, hwriter] at h
  have hm := step_moves h
  have hp : t.procs p = s.procs p := hm.others hne.symm
  have hchan : t.chan c = [] := by
    cases hm with
    | dies | quiet o rest todo silent | eof c' n rest todo chan noWriter => exact hs.chan
    | write c' bs rest todo reader =>
      have hc : c ≠ c' := by
        rintro rfl
        exact hs.others _ hne bs (todo ▸ List.mem_cons_self)
      exact (Function.update_of_ne hc _ _).trans hs.chan
    | read c' n rest todo chan =>
      have hc : c ≠ c' := by
        rintro rfl
        exact chan hs.chan
      exact (Function.update_of_ne hc _ _).trans hs.chan
  refine ⟨⟨hchan, hp ▸ hs.held, hp ▸ hs.waits, fun q hq bs hw => ?_⟩, hp⟩
  exact hs.others q hq bs ((step_shrinks h q).todo.subset hw)

/-- A starved process never goes on, whatever the others do. -/
theorem Starved.forever (hs : Starved s p c) (h : Reaches Channels.step (Spares p) s t) :
    Starved t p c ∧ t.procs p = s.procs p := by
  induction h with
  | refl => exact ⟨hs, rfl⟩
  | tail _ hn ih =>
    obtain ⟨a, ha, hstep⟩ := hn
    obtain ⟨hst, hp⟩ := ih.1.step ha hstep
    exact ⟨hst, hp.trans ih.2⟩

end Moves

end LinuxExamples.Channels
