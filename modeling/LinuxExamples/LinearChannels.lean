import LinuxExamples.Channels

namespace LinuxExamples.Channels

open Bytes Runs

variable {ι κ : Type} [DecidableEq κ]

def Untouched (x : Proc κ) (c : κ) : Prop := ∀ o ∈ x.todo, ¬ o.Touches c

/-- The process uses the channel in this one operation, and holds the end until then. -/
structure Pending (x : Proc κ) (c : κ) (o : Op κ) (e : End κ) (before after : List (Op κ)) :
    Prop where
  todo : x.todo = before ++ o :: after
  touches : o.Touches c
  others : ∀ o' ∈ before ++ after, ¬ o'.Touches c
  held : e ∈ x.held
  keeps : ∀ o' ∈ before, o'.Keeps e

/-- The channel is used once: some process writes a text to it that another reads whole. -/
inductive Phase (s : State ι κ) (c : κ) : Prop where
  | unwritten (w r : ι) (bs : List UInt8) (n : Nat) (before after before' after' : List (Op κ))
      (ne : w ≠ r) (chan : s.chan c = []) (nonempty : bs ≠ []) (fits : bs.length ≤ n)
      (write : Pending (s.procs w) c (.write c bs) (.writer c) before after)
      (read : Pending (s.procs r) c (.read c n) (.reader c) before' after')
      (others : ∀ q, q ≠ w → q ≠ r → Untouched (s.procs q) c)
  | written (r : ι) (n : Nat) (before after : List (Op κ)) (chan : s.chan c ≠ [])
      (fits : (s.chan c).length ≤ n)
      (read : Pending (s.procs r) c (.read c n) (.reader c) before after)
      (others : ∀ q, q ≠ r → Untouched (s.procs q) c)
  | done (chan : s.chan c = []) (others : ∀ q, Untouched (s.procs q) c)

/-- Every channel is used once. -/
def Linear (s : State ι κ) : Prop := ∀ c, Phase s c

/-- The step of a process in a linear state: its new state, and the channel it has used. -/
def effect (x : Proc κ) (chan : κ → List UInt8) : Option (Proc κ × Option (κ × List UInt8)) :=
  match x.todo with
  | [] => none
  | .write c bs :: rest => some (x.local rest (.write c bs), some (c, chan c ++ bs))
  | .read c n :: rest =>
    let y := x.local rest (.read c n)
    if chan c = [] then none
    else some ({ y with buf := write y.buf 0 ((chan c).take n) }, some (c, (chan c).drop n))
  | o :: rest => some (x.local rest o, none)

section Pending

variable {x y : Proc κ} {c : κ} {o o' : Op κ} {e : End κ} {before after rest : List (Op κ)}

omit [DecidableEq κ] in
theorem Pending.head (h : Pending x c o e before after) (hx : x.todo = o' :: rest)
    (ho' : o'.Touches c) : o' = o ∧ rest = after := by
  have htodo := h.todo
  rw [hx] at htodo
  cases before with
  | nil =>
    cases htodo
    exact ⟨rfl, rfl⟩
  | cons o'' before =>
    cases htodo
    exact absurd ho' (h.others o' List.mem_cons_self)

omit [DecidableEq κ] in
theorem Pending.after_untouched (h : Pending x c o e before after) (hy : y.todo = after) :
    Untouched y c := by
  intro o' ho'
  exact h.others o' (List.mem_append_right _ (hy ▸ ho'))

/-- How a step that does not use a channel changes the process. -/
structure Passes (x y : Proc κ) (o : Op κ) (rest : List (Op κ)) : Prop where
  todo : x.todo = o :: rest
  todo' : y.todo = rest ∨ o = .exit ∧ y.todo = []
  held : ∀ e ∈ x.held, o.Keeps e → e ∈ y.held

omit [DecidableEq κ] in
theorem Pending.passes (h : Pending x c o e before after) (hp : Passes x y o' rest)
    (ho' : ¬ o'.Touches c) : ∃ before', Pending y c o e before' after := by
  have htodo := h.todo
  rw [hp.todo] at htodo
  cases before with
  | nil =>
    cases htodo
    exact absurd h.touches ho'
  | cons o'' before =>
    cases htodo
    have hkeep := h.keeps o' List.mem_cons_self
    refine ⟨before, ?_, h.touches, fun a ha => h.others a (List.mem_cons_of_mem _ ha),
      hp.held e h.held hkeep, fun a ha => h.keeps a (List.mem_cons_of_mem _ ha)⟩
    obtain hy | ⟨rfl, _⟩ := hp.todo'
    · exact hy
    · exact absurd hkeep id

omit [DecidableEq κ] in
theorem Untouched.passes (h : Untouched x c) (hp : Passes x y o rest) : Untouched y c := by
  intro a ha
  obtain hy | ⟨_, hy⟩ := hp.todo'
  · exact h a (hp.todo ▸ List.mem_cons_of_mem _ (hy ▸ ha))
  · rw [hy] at ha
    cases ha

end Pending

/-- What a step in a linear state may be: an operation without a channel, a write to an
empty channel, or a read from a channel that is not empty. -/
inductive Fires (s : State ι κ) (x : Proc κ) : Proc κ → Option (κ × List UInt8) → Prop
  | quiet (o : Op κ) (rest : List (Op κ)) (silent : ∀ c, ¬ o.Touches c)
      (passes : Passes x (x.local rest o) o rest) : Fires s x (x.local rest o) none
  | write (c : κ) (bs : List UInt8) (rest : List (Op κ)) (y : Proc κ)
      (passes : Passes x y (.write c bs) rest) : Fires s x y (some (c, s.chan c ++ bs))
  | read (c : κ) (n : Nat) (rest : List (Op κ)) (y : Proc κ) (ne : s.chan c ≠ [])
      (passes : Passes x y (.read c n) rest) : Fires s x y (some (c, (s.chan c).drop n))

theorem passes_local {x : Proc κ} {o : Op κ} {rest : List (Op κ)} (h : x.todo = o :: rest) :
    Passes x (x.local rest o) o rest := by
  cases o with
  | close ends =>
    refine ⟨h, .inl rfl, fun e he hk => List.mem_filter.mpr ⟨he, decide_eq_true hk⟩⟩
  | exit => exact ⟨h, .inr ⟨rfl, rfl⟩, fun e _ hk => absurd hk id⟩
  | clear n | print n | write c bs | read c n => exact ⟨h, .inl rfl, fun e he _ => he⟩

theorem effect_fires {s : State ι κ} {x y : Proc κ} {d : Option (κ × List UInt8)}
    (h : effect x s.chan = some (y, d)) : Fires s x y d := by
  unfold effect at h
  split at h
  · cases h
  · rename_i c bs rest hx
    cases h
    exact .write c bs rest _ (passes_local hx)
  · rename_i c n rest hx
    dsimp only at h
    split at h
    · cases h
    · rename_i hne
      cases h
      have hp := passes_local hx
      exact .read c n rest _ hne ⟨hp.todo, hp.todo', hp.held⟩
  · rename_i o rest hw hr hx
    cases h
    refine .quiet o rest (fun c hc => ?_) (passes_local hx)
    cases o with
    | write c bs => exact hw c bs rfl
    | read c n => exact hr c n rfl
    | close ends | clear n | print n | exit => exact hc

section Linear

variable [Fintype ι] [DecidableEq ι] {s t : State ι κ} {p q : ι} {x y : Proc κ}
  {d : Option (κ × List UInt8)} {c : κ}

omit [Fintype ι] in
/-- A step that does not use a channel leaves it in its phase. -/
theorem Phase.passes (hs : Phase s c) {o : Op κ} {rest : List (Op κ)}
    (hp : Passes (s.procs p) y o rest) (ho : ¬ o.Touches c)
    (hd : (s.put p y d).chan c = s.chan c) : Phase (s.put p y d) c := by
  have huntouched {q : ι} (hq : Untouched (s.procs q) c) : Untouched ((s.put p y d).procs q) c := by
    by_cases hqp : q = p
    · subst hqp
      rw [put_procs_self]
      exact hq.passes hp
    · rwa [put_procs_ne s y d hqp]
  have hpending {q : ι} {o' : Op κ} {e : End κ} {before after : List (Op κ)}
      (hq : Pending (s.procs q) c o' e before after) :
      ∃ before', Pending ((s.put p y d).procs q) c o' e before' after := by
    by_cases hqp : q = p
    · subst hqp
      rw [put_procs_self]
      exact hq.passes hp ho
    · rw [put_procs_ne s y d hqp]
      exact ⟨before, hq⟩
  cases hs with
  | unwritten w r bs n before after before' after' ne chan nonempty fits write read others =>
    obtain ⟨_, hw⟩ := hpending write
    obtain ⟨_, hr⟩ := hpending read
    exact .unwritten w r bs n _ _ _ _ ne (hd.trans chan) nonempty fits hw hr fun q hqw hqr =>
      huntouched (others q hqw hqr)
  | written r n before after chan fits read others =>
    obtain ⟨_, hr⟩ := hpending read
    exact .written r n _ _ (hd ▸ chan) (hd ▸ fits) hr fun q hqr => huntouched (others q hqr)
  | done chan others => exact .done (hd.trans chan) fun q => huntouched (others q)

/-- A process at its write: the channel is empty, and one other process will read the text. -/
structure AtWrite (s : State ι κ) (p : ι) (c : κ) (bs : List UInt8) (rest : List (Op κ)) (r : ι)
    (n : Nat) (before after : List (Op κ)) : Prop where
  ne : r ≠ p
  chan : s.chan c = []
  nonempty : bs ≠ []
  fits : bs.length ≤ n
  read : Pending (s.procs r) c (.read c n) (.reader c) before after
  rest : ∀ y : Proc κ, y.todo = rest → Untouched y c
  others : ∀ q, q ≠ p → q ≠ r → Untouched (s.procs q) c

/-- A process at its read of a channel that is not empty. -/
structure AtRead (s : State ι κ) (p : ι) (c : κ) (n : Nat) (rest : List (Op κ)) : Prop where
  fits : (s.chan c).length ≤ n
  rest : ∀ y : Proc κ, y.todo = rest → Untouched y c
  others : ∀ q, q ≠ p → Untouched (s.procs q) c

omit [DecidableEq κ] in
theorem Untouched.absurd {o : Op κ} {rest : List (Op κ)} (h : Untouched x c)
    (hx : x.todo = o :: rest) (ho : o.Touches c) : False :=
  h o (hx ▸ List.mem_cons_self) ho

omit [DecidableEq κ] [Fintype ι] in
theorem Phase.atWrite (hs : Phase s c) {bs : List UInt8} {rest : List (Op κ)}
    (hp : (s.procs p).todo = .write c bs :: rest) :
    ∃ r n before after, AtWrite s p c bs rest r n before after := by
  cases hs with
  | unwritten w r bs' n before after before' after' ne chan nonempty fits write read others =>
    by_cases hpw : p = w
    · subst hpw
      obtain ⟨he, ha⟩ := write.head hp rfl
      cases he
      exact ⟨r, n, before', after', ne.symm, chan, nonempty, fits, read,
        fun y hy => write.after_untouched (hy.trans ha), others⟩
    · by_cases hpr : p = r
      · subst hpr
        cases (read.head hp rfl).1
      · exact ((others p hpw hpr).absurd hp rfl).elim
  | written r n before after chan fits read others =>
    by_cases hpr : p = r
    · subst hpr
      cases (read.head hp rfl).1
    · exact ((others p hpr).absurd hp rfl).elim
  | done chan others => exact ((others p).absurd hp rfl).elim

omit [DecidableEq κ] [Fintype ι] in
theorem Phase.atRead (hs : Phase s c) {n : Nat} {rest : List (Op κ)}
    (hp : (s.procs p).todo = .read c n :: rest) (hc : s.chan c ≠ []) : AtRead s p c n rest := by
  cases hs with
  | unwritten w r bs n before after before' after' ne chan nonempty fits write read others =>
    exact absurd chan hc
  | written r n' before after chan fits read others =>
    by_cases hpr : p = r
    · subst hpr
      obtain ⟨he, ha⟩ := read.head hp rfl
      cases he
      exact ⟨fits, fun y hy => read.after_untouched (hy.trans ha), others⟩
    · exact ((others p hpr).absurd hp rfl).elim
  | done chan others => exact ((others p).absurd hp rfl).elim

omit [DecidableEq κ] [Fintype ι] [DecidableEq ι] in
/-- A process that waits for a text waits for one that will write it. -/
theorem Phase.writer_held (hs : Phase s c) {n : Nat} {rest : List (Op κ)}
    (hp : (s.procs p).todo = .read c n :: rest) (hc : s.chan c = []) :
    ∃ q, .writer c ∈ (s.procs q).held := by
  cases hs with
  | unwritten w r bs n before after before' after' ne chan nonempty fits write read others =>
    exact ⟨w, write.held⟩
  | written r n before after chan fits read others => exact absurd hc chan
  | done chan others => exact ((others p).absurd hp rfl).elim

omit [Fintype ι] in
theorem Linear.fires (hs : Linear s) (h : Fires s (s.procs p) y d) : Linear (s.put p y d) := by
  intro c
  cases h with
  | quiet o rest silent passes => exact (hs c).passes passes (silent c) rfl
  | write c' bs rest y passes =>
    by_cases hc : c' = c
    · subst hc
      obtain ⟨r, n, before, after, hw⟩ := (hs c').atWrite passes.todo
      have hchan : (s.put p y (some (c', s.chan c' ++ bs))).chan c' = bs := by
        simp [State.put, hw.chan]
      refine .written r n before after ?_ ?_ ?_ fun q hqr => ?_
      · rw [hchan]
        exact hw.nonempty
      · rw [hchan]
        exact hw.fits
      · rw [put_procs_ne s y _ hw.ne]
        exact hw.read
      · by_cases hqp : q = p
        · subst hqp
          rw [put_procs_self]
          obtain hy | ⟨he, _⟩ := passes.todo'
          · exact hw.rest y hy
          · cases he
        · rw [put_procs_ne s y _ hqp]
          exact hw.others q hqp hqr
    · exact (hs c).passes passes hc (Function.update_of_ne (Ne.symm hc) _ _)
  | read c' n rest y ne passes =>
    by_cases hc : c' = c
    · subst hc
      have hr := (hs c').atRead passes.todo ne
      have hchan : (s.put p y (some (c', (s.chan c').drop n))).chan c' = [] := by
        simp [State.put, List.drop_eq_nil_of_le hr.fits]
      refine .done hchan fun q => ?_
      by_cases hqp : q = p
      · subst hqp
        rw [put_procs_self]
        obtain hy | ⟨he, _⟩ := passes.todo'
        · exact hr.rest y hy
        · cases he
      · rw [put_procs_ne s y _ hqp]
        exact hr.others q hqp
    · exact (hs c).passes passes hc (Function.update_of_ne (Ne.symm hc) _ _)

/-- In a linear state no write lacks a reader and no read meets the end of the file. -/
theorem Linear.step_eq (hs : Linear s) (p : ι) :
    step s (.run p) = (effect (s.procs p) s.chan).map fun x => s.put p x.1 x.2 := by
  simp only [step, effect]
  cases hp : (s.procs p).todo with
  | nil => rfl
  | cons o rest =>
    cases o with
    | write c bs =>
      obtain ⟨r, n, before, after, hw⟩ := (hs c).atWrite hp
      have hheld : s.holds (.reader c) := ⟨r, hw.read.held⟩
      simp [exec, hheld]
    | read c n =>
      by_cases hc : s.chan c = []
      · have hheld : s.holds (.writer c) := (hs c).writer_held hp hc
        simp [exec, hc, hheld]
      · simp [exec, hc]
    | close ends | clear n | print n | exit => rfl

omit [Fintype ι] [DecidableEq ι] in
/-- An effect depends on the process and the channel that it uses. -/
theorem effect_congr {chan chan' : κ → List UInt8}
    (h : ∀ o ∈ x.todo.head?, ∀ c, o.Touches c → chan c = chan' c) :
    effect x chan = effect x chan' := by
  unfold effect
  cases hx : x.todo with
  | nil => rfl
  | cons o rest =>
    rw [hx] at h
    cases o with
    | write c bs =>
      have hc : chan c = chan' c := h _ rfl c rfl
      simp only [hc]
    | read c n =>
      have hc : chan c = chan' c := h _ rfl c rfl
      simp only [hc]
    | close ends | clear n | print n | exit => rfl

omit [Fintype ι] in
/-- Two processes that can both go on do not use the same channel. -/
theorem Linear.exclusive (hs : Linear s) {bs : List UInt8}
    (hp : effect (s.procs p) s.chan = some (y, some (c, bs)))
    (hq : effect (s.procs q) s.chan ≠ none) {o : Op κ} {rest : List (Op κ)}
    (ho : (s.procs q).todo = o :: rest) (hc : o.Touches c) : q = p := by
  by_contra hne
  cases effect_fires hp with
  | write c bs rest y passes =>
    obtain ⟨r, n, before, after, hw⟩ := (hs c).atWrite passes.todo
    by_cases hqr : q = r
    · subst hqr
      obtain ⟨he, _⟩ := hw.read.head ho hc
      subst he
      simp [effect, ho, hw.chan] at hq
    · exact (hw.others q hne hqr).absurd ho hc
  | read c n rest y hfull passes =>
    exact (((hs c).atRead passes.todo hfull).others q hne).absurd ho hc

omit [Fintype ι] in
theorem put_comm (hpq : p ≠ q) (x y : Proc κ) {d e : Option (κ × List UInt8)}
    (h : ∀ a ∈ d, ∀ b ∈ e, a.1 ≠ b.1) : (s.put p x d).put q y e = (s.put q y e).put p x d := by
  have hprocs := Function.update_comm hpq x y s.procs
  cases d with
  | none => cases e <;> simp [State.put, hprocs]
  | some a =>
    cases e with
    | none => simp [State.put, hprocs]
    | some b =>
      have hchan := Function.update_comm (h a rfl b rfl) a.2 b.2 s.chan
      simp [State.put, hprocs, hchan]

/-- The steps of two processes can be taken in either order. -/
theorem Linear.diamond {u : State ι κ} (hs : Linear s) (hpq : p ≠ q)
    (hp : step s (.run p) = some t) (hq : step s (.run q) = some u) :
    ∃ v, step t (.run q) = some v ∧ step u (.run p) = some v := by
  rw [hs.step_eq] at hp hq
  obtain ⟨⟨y, d⟩, hy, rfl⟩ := Option.map_eq_some_iff.mp hp
  obtain ⟨⟨z, e⟩, hz, rfl⟩ := Option.map_eq_some_iff.mp hq
  have hother {p q : ι} {y z : Proc κ} {d e : Option (κ × List UInt8)} (hpq : p ≠ q)
      (hy : effect (s.procs p) s.chan = some (y, d))
      (hz : effect (s.procs q) s.chan = some (z, e)) :
      effect ((s.put p y d).procs q) (s.put p y d).chan = some (z, e) := by
    rw [put_procs_ne s y d hpq.symm, ← hz]
    apply effect_congr
    intro o ho c hc
    obtain ⟨rest, ho⟩ := List.head?_eq_some_iff.mp ho
    cases d with
    | none => rfl
    | some a =>
      have hne : c ≠ a.1 := by
        rintro rfl
        exact hpq (hs.exclusive hy (by simp [hz]) ho hc).symm
      exact Function.update_of_ne hne _ _
  have hchan : ∀ a ∈ d, ∀ b ∈ e, a.1 ≠ b.1 := by
    rintro ⟨c, bs⟩ hd ⟨c', bs'⟩ he (rfl : c = c')
    cases hd
    cases he
    cases effect_fires hz with
    | write c bs rest y passes =>
      exact hpq (hs.exclusive hy (by simp [hz]) passes.todo rfl).symm
    | read c n rest y ne passes =>
      exact hpq (hs.exclusive hy (by simp [hz]) passes.todo rfl).symm
  refine ⟨(s.put p y d).put q z e, ?_, ?_⟩
  · rw [(hs.fires (effect_fires hy)).step_eq, hother hpq hy hz]
    rfl
  · rw [(hs.fires (effect_fires hz)).step_eq, hother hpq.symm hz hy, put_comm hpq y z hchan]
    rfl

/-- A step without a kill from a linear state. -/
def Runs (s t : State ι κ) : Prop := Linear s ∧ Next step Unkilled s t

theorem Linear.step (hs : Linear s) (h : Next step Unkilled s t) : Linear t := by
  obtain ⟨a, ha, h⟩ := h
  cases a with
  | kill p => exact absurd ha id
  | run p =>
    rw [hs.step_eq] at h
    obtain ⟨⟨y, d⟩, hy, rfl⟩ := Option.map_eq_some_iff.mp h
    exact hs.fires (effect_fires hy)

theorem Linear.runs (hs : Linear s) (h : Reaches Channels.step Unkilled s t) :
    Linear t ∧ Relation.ReflTransGen Channels.Runs s t := by
  induction h with
  | refl => exact ⟨hs, .refl⟩
  | tail _ hn ih => exact ⟨ih.1.step hn, ih.2.tail ⟨ih.1, hn⟩⟩

theorem Linear.next (hs : Linear s) (h : Channels.step s (.run p) = some t) : Channels.Runs s t :=
  ⟨hs, .run p, trivial, h⟩

theorem Runs.diamond {a b c : State ι κ} (hb : Channels.Runs a b) (hc : Channels.Runs a c) :
    ∃ d, Relation.ReflGen Channels.Runs b d ∧ Relation.ReflTransGen Channels.Runs c d := by
  obtain ⟨hlin, x, hx, hb⟩ := hb
  obtain ⟨_, y, hy, hc⟩ := hc
  cases x with
  | kill p => exact absurd hx id
  | run p =>
    cases y with
    | kill q => exact absurd hy id
    | run q =>
      by_cases hpq : p = q
      · subst hpq
        obtain rfl := Option.some.inj (hb.symm.trans hc)
        exact ⟨b, .refl, .refl⟩
      · obtain ⟨v, hbv, hcv⟩ := hlin.diamond hpq hb hc
        have hlb : Linear b := hlin.step (hlin.next hb).2
        have hlc : Linear c := hlin.step (hlin.next hc).2
        exact ⟨v, .single (hlb.next hbv), .single (hlc.next hcv)⟩

/-- All runs from a linear state lead to the same end: where one run has brought
all processes to theirs, every other can be continued to. -/
theorem Linear.confluent (hs : Linear s) (ht : Reaches Channels.step Unkilled s t)
    (hend : ∀ p, (t.procs p).todo = []) {u : State ι κ} (hu : Reaches Channels.step Unkilled s u) :
    Reaches Channels.step Unkilled u t := by
  obtain ⟨v, htv, huv⟩ :=
    Relation.church_rosser (fun _ _ _ => Runs.diamond) (hs.runs ht).2 (hs.runs hu).2
  have hlast : t = v := by
    obtain rfl | ⟨w, ⟨_, a, ha, hw⟩, _⟩ := Relation.ReflTransGen.cases_head htv
    · rfl
    · cases a with
      | kill p => exact absurd ha id
      | run p => simp [Channels.step, hend p] at hw
  have hrun : Relation.ReflTransGen (Next Channels.step Unkilled) u v :=
    Relation.ReflTransGen.mono (fun _ _ h => h.2) u v huv
  exact hlast ▸ hrun

/-- Whatever order the processes run in, they all come to their ends with these outputs, and
print nothing else on the way. -/
structure Completes (s₀ : State ι κ) (outs : ι → List (List UInt8)) : Prop where
  agrees : ∀ s, Reaches Channels.step Unkilled s₀ s → ∀ p, (s.procs p).out <+: outs p
  finishes : ∀ s, Reaches Channels.step Unkilled s₀ s →
    ∃ t, Reaches Channels.step Unkilled s t ∧ ∀ p, (t.procs p).todo = [] ∧ (t.procs p).out = outs p

/-- One order that brings all processes to their ends speaks for all orders. -/
theorem Linear.completes (hs : Linear s) (ht : Reaches Channels.step Unkilled s t)
    (hend : ∀ p, (t.procs p).todo = []) : Completes s fun p => (t.procs p).out := by
  refine ⟨fun u hu p => ?_, fun u hu => ?_⟩
  · exact (reaches_shrinks (hs.confluent ht hend hu) p).out
  · exact ⟨t, hs.confluent ht hend hu, fun p => ⟨hend p, rfl⟩⟩

end Linear

end LinuxExamples.Channels
