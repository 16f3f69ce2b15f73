import LinuxExamples.LinearChannels

namespace LinuxExamples.Delivery

open Bytes Channels Runs

variable {ι κ : Type}

/-- The process is to take its write to a channel that still has a reader. -/
def Writes (p : ι) (c : κ) (s : State ι κ) (a : Act ι) : Prop :=
  a = .run p ∧ (∃ bs rest, (s.procs p).todo = .write c bs :: rest) ∧ s.holds (.reader c)

/-- A text that one process writes once to a channel, and that another, which has no other
use for the channel, reads once and prints. -/
structure Exchange (ι κ : Type) where
  sender : ι
  receiver : ι
  channel : κ
  text : List UInt8
  size : Nat
  /-- What the receiver does after it has printed. -/
  after : List (Op κ)
  /-- The receiver's buffer before its read. -/
  old : Mem
  ne : receiver ≠ sender
  nonempty : text ≠ []
  fits : text.length ≤ size
  silent : ∀ o ∈ after, ¬ o.Touches channel ∧ ∀ n, o ≠ .print n

variable [DecidableEq κ]

/-- The receiver comes to its read, with the old contents of its buffer there. -/
inductive Comes (e : Exchange ι κ) : Proc κ → Prop
  | reads (x : Proc κ) (todo : x.todo = .read e.channel e.size :: .print e.size :: e.after)
      (out : x.out = []) (buf : x.buf = e.old) : Comes e x
  | passes (x : Proc κ) (o : Op κ) (rest : List (Op κ)) (todo : x.todo = o :: rest)
      (untouched : ¬ o.Touches e.channel) (other : ∀ d n, o ≠ .read d n)
      (next : Comes e (x.local rest o)) : Comes e x

/-- The receiver has not passed its read: it comes to it, or it died before. -/
inductive Waits (e : Exchange ι κ) (x : Proc κ) : Prop
  | comes (comes : Comes e x)
  | quit (todo : x.todo = []) (out : x.out = [])

/-- The receiver has passed its read, with `m` in its buffer. -/
inductive Hears (e : Exchange ι κ) (m : Mem) (x : Proc κ) : Prop
  | heard (todo : x.todo = .print e.size :: e.after) (out : x.out = []) (buf : x.buf = m)
  | printed (todo : x.todo <:+ e.after) (out : x.out = [str m 0 e.size])
  | quit (todo : x.todo = []) (out : x.out = [])

/-- How far the text is when the write has been made (`w`) and when it has not. -/
inductive Lane (e : Exchange ι κ) (w : Prop) (s : State ι κ) : Prop
  | unsent (before after : List (Op κ)) (hw : ¬ w) (chan : s.chan e.channel = [])
      (write : Pending (s.procs e.sender) e.channel (.write e.channel e.text)
        (.writer e.channel) before after)
      (waits : Waits e (s.procs e.receiver))
  | died (hw : ¬ w) (chan : s.chan e.channel = []) (sender : (s.procs e.sender).todo = [])
      (receiver : Waits e (s.procs e.receiver) ∨ Hears e e.old (s.procs e.receiver))
  | sent (hw : w) (chan : s.chan e.channel = e.text)
      (sender : Untouched (s.procs e.sender) e.channel) (waits : Waits e (s.procs e.receiver))
  | taken (hw : w) (chan : s.chan e.channel = [])
      (sender : Untouched (s.procs e.sender) e.channel)
      (hears : Hears e (Bytes.write e.old 0 e.text) (s.procs e.receiver))

theorem Comes.out {e : Exchange ι κ} {x : Proc κ} (h : Comes e x) : x.out = [] := by
  induction h with
  | reads x todo out buf => exact out
  | passes x o rest todo untouched other next ih =>
    cases o with
    | print n => simp [Proc.local] at ih
    | close ends | clear n | exit | write c bs | read c n => exact ih

section Moves

variable [DecidableEq ι] {s t : State ι κ} {p : ι} {c : κ}

theorem chan_eq (hm : Moves s p t)
    (h : ∀ o rest, (s.procs p).todo = o :: rest → ¬ o.Touches c) : t.chan c = s.chan c := by
  cases hm with
  | dies | quiet o rest todo silent | eof d n rest todo chan noWriter => rfl
  | write d bs rest todo reader =>
    exact Function.update_of_ne (fun hc => h _ _ todo hc.symm) _ _
  | read d n rest todo chan =>
    exact Function.update_of_ne (fun hc => h _ _ todo hc.symm) _ _

theorem untouched_chan (h : Untouched (s.procs p) c) (hm : Moves s p t) : t.chan c = s.chan c :=
  chan_eq hm fun o _ ho => h o (ho ▸ List.mem_cons_self)

theorem moves_passes (hm : Moves s p t) {o : Op κ} {rest : List (Op κ)}
    (hp : (s.procs p).todo = o :: rest) :
    t = s.put p (s.procs p).dead none ∨ Passes (s.procs p) (t.procs p) o rest := by
  cases hm with
  | dies => exact .inl rfl
  | quiet o' rest' todo silent =>
    cases hp.symm.trans todo
    rw [put_procs_self]
    exact .inr (passes_local todo)
  | write d bs rest' todo reader | eof d n rest' todo chan noWriter =>
    cases hp.symm.trans todo
    rw [put_procs_self]
    exact .inr (passes_local todo)
  | read d n rest' todo chan =>
    cases hp.symm.trans todo
    rw [put_procs_self]
    have hl := passes_local todo
    exact .inr ⟨hl.todo, hl.todo', hl.held⟩

theorem out_eq (hm : Moves s p t)
    (h : ∀ o rest, (s.procs p).todo = o :: rest → ∀ n, o ≠ .print n) :
    (t.procs p).out = (s.procs p).out := by
  cases hm with
  | dies =>
    rw [put_procs_self]
    rfl
  | quiet o rest todo silent =>
    rw [put_procs_self]
    cases o with
    | print n => exact absurd rfl (h _ _ todo n)
    | close ends | clear n | exit | write c bs | read c n => rfl
  | write d bs rest todo reader | eof d n rest todo chan noWriter | read d n rest todo chan =>
    rw [put_procs_self]
    rfl

end Moves

section Receiver

variable [DecidableEq ι] {e : Exchange ι κ} {s t : State ι κ} {m : Mem}

/-- What a step of the receiver before its read may be. -/
inductive FromWait (e : Exchange ι κ) (s t : State ι κ) : Prop
  | waits (waits : Waits e (t.procs e.receiver)) (chan : t.chan e.channel = s.chan e.channel)
  | eof (empty : s.chan e.channel = []) (noWriter : ¬ s.holds (.writer e.channel))
      (hears : Hears e e.old (t.procs e.receiver))
      (chan : t.chan e.channel = s.chan e.channel)
  | takes (full : s.chan e.channel ≠ [])
      (hears : Hears e (Bytes.write e.old 0 ((s.chan e.channel).take e.size))
        (t.procs e.receiver))
      (chan : t.chan e.channel = (s.chan e.channel).drop e.size)

theorem Waits.moves (h : Waits e (s.procs e.receiver)) (hm : Moves s e.receiver t) :
    FromWait e s t := by
  have hdead (hout : (s.procs e.receiver).out = []) :
      FromWait e s (s.put e.receiver (s.procs e.receiver).dead none) := by
    refine .waits (.quit ?_ ?_) rfl
    · rw [put_procs_self]
      rfl
    · rw [put_procs_self]
      exact hout
  cases h with
  | quit todo out =>
    obtain rfl := hm.of_nil todo
    exact hdead out
  | comes comes =>
    have hout : (s.procs e.receiver).out = [] := comes.out
    cases comes with
    | reads _ todo out buf =>
      obtain rfl | ⟨⟨hempty, hnone⟩, rfl⟩ | ⟨hfull, rfl⟩ := hm.of_read todo
      · exact hdead out
      · refine .eof hempty hnone (.heard ?_ ?_ ?_) rfl
        · rw [put_procs_self]
          rfl
        · rw [put_procs_self]
          exact out
        · rw [put_procs_self]
          exact buf
      · refine .takes hfull (.heard ?_ ?_ ?_) (Function.update_self _ _ _)
        · rw [put_procs_self]
          rfl
        · rw [put_procs_self]
          exact out
        · rw [put_procs_self, ← buf]
    | passes _ o rest todo untouched other next =>
      cases hm with
      | dies => exact hdead hout
      | quiet o' rest' todo' silent =>
        cases todo.symm.trans todo'
        refine .waits (.comes ?_) rfl
        rw [put_procs_self]
        exact next
      | write d bs rest' todo' reader =>
        cases todo.symm.trans todo'
        refine .waits (.comes ?_) (Function.update_of_ne (Ne.symm untouched) _ _)
        rw [put_procs_self]
        exact next
      | eof d n rest' todo' chan noWriter | read d n rest' todo' chan =>
        cases todo.symm.trans todo'
        exact absurd rfl (other d n)

theorem Hears.moves (h : Hears e m (s.procs e.receiver)) (hm : Moves s e.receiver t) :
    Hears e m (t.procs e.receiver) := by
  cases h with
  | heard todo out buf =>
    obtain rfl | rfl := hm.of_quiet todo fun _ => id
    · rw [put_procs_self]
      exact .quit rfl out
    · rw [put_procs_self]
      refine .printed (List.suffix_refl _) ?_
      simp [Proc.local, out, buf]
  | printed todo out =>
    have hprint (o : Op κ) (rest : List (Op κ)) (ho : (s.procs e.receiver).todo = o :: rest)
        (n : Nat) : o ≠ .print n :=
      (e.silent o (todo.subset (ho ▸ List.mem_cons_self))).2 n
    refine .printed (hm.shrinks.todo.trans todo) ?_
    rw [← out, out_eq hm hprint]
  | quit todo out =>
    obtain rfl := hm.of_nil todo
    rw [put_procs_self]
    exact .quit rfl out

omit [DecidableEq κ] [DecidableEq ι] in
theorem Hears.untouched (h : Hears e m (s.procs e.receiver)) :
    Untouched (s.procs e.receiver) e.channel := by
  intro o ho
  cases h with
  | heard todo out buf =>
    rw [todo] at ho
    obtain rfl | ho := List.mem_cons.mp ho
    · exact id
    · exact (e.silent o ho).1
  | printed todo out => exact (e.silent o (todo.subset ho)).1
  | quit todo out =>
    rw [todo] at ho
    cases ho

end Receiver

section Lane

variable [DecidableEq ι] {e : Exchange ι κ} {s t : State ι κ} {w : Prop} {p : ι}

theorem Lane.receiver_moves (h : Lane e w s) (hm : Moves s e.receiver t) : Lane e w t := by
  have hsender : t.procs e.sender = s.procs e.sender := hm.others e.ne.symm
  cases h with
  | unsent before after hw chan write waits =>
    cases waits.moves hm with
    | waits waits hchan => exact .unsent before after hw (hchan.trans chan) (hsender ▸ write) waits
    | eof empty noWriter hears hchan => exact absurd ⟨e.sender, write.held⟩ noWriter
    | takes full hears hchan => exact absurd chan full
  | died hw chan sender receiver =>
    obtain waits | hears := receiver
    · cases waits.moves hm with
      | waits waits hchan => exact .died hw (hchan.trans chan) (hsender ▸ sender) (.inl waits)
      | eof empty noWriter hears hchan =>
        exact .died hw (hchan.trans chan) (hsender ▸ sender) (.inr hears)
      | takes full hears hchan => exact absurd chan full
    · exact .died hw ((untouched_chan hears.untouched hm).trans chan) (hsender ▸ sender)
        (.inr (hears.moves hm))
  | sent hw chan sender waits =>
    cases waits.moves hm with
    | waits waits hchan => exact .sent hw (hchan.trans chan) (hsender ▸ sender) waits
    | eof empty noWriter hears hchan => exact absurd (chan.symm.trans empty) e.nonempty
    | takes full hears hchan =>
      rw [chan, List.take_of_length_le e.fits] at hears
      rw [chan, List.drop_eq_nil_of_le e.fits] at hchan
      exact .taken hw hchan (hsender ▸ sender) hears
  | taken hw chan sender hears =>
    exact .taken hw ((untouched_chan hears.untouched hm).trans chan) (hsender ▸ sender)
      (hears.moves hm)

theorem Lane.other_moves (h : Lane e w s) (hs : p ≠ e.sender) (hr : p ≠ e.receiver)
    (hp : Untouched (s.procs p) e.channel) (hm : Moves s p t) : Lane e w t := by
  have hchan := untouched_chan hp hm
  have hsender := hm.others hs.symm
  have hreceiver := hm.others hr.symm
  cases h with
  | unsent before after hw chan write waits =>
    exact .unsent before after hw (hchan.trans chan) (hsender ▸ write) (hreceiver ▸ waits)
  | died hw chan sender receiver =>
    exact .died hw (hchan.trans chan) (hsender ▸ sender) (hreceiver ▸ receiver)
  | sent hw chan sender waits =>
    exact .sent hw (hchan.trans chan) (hsender ▸ sender) (hreceiver ▸ waits)
  | taken hw chan sender hears =>
    exact .taken hw (hchan.trans chan) (hsender ▸ sender) (hreceiver ▸ hears)

theorem Lane.sender_dies (h : Lane e w s) :
    Lane e w (s.put e.sender (s.procs e.sender).dead none) := by
  have hreceiver := put_procs_ne s (s.procs e.sender).dead none e.ne
  have hsender : ((s.put e.sender (s.procs e.sender).dead none).procs e.sender).todo = [] := by
    rw [put_procs_self]
    rfl
  have huntouched : Untouched ((s.put e.sender (s.procs e.sender).dead none).procs e.sender)
      e.channel := by
    intro o ho
    rw [hsender] at ho
    cases ho
  cases h with
  | unsent before after hw chan write waits =>
    exact .died hw chan hsender (.inl (hreceiver ▸ waits))
  | died hw chan sender receiver => exact .died hw chan hsender (hreceiver ▸ receiver)
  | sent hw chan sender waits => exact .sent hw chan huntouched (hreceiver ▸ waits)
  | taken hw chan sender hears => exact .taken hw chan huntouched (hreceiver ▸ hears)

theorem Lane.kills (h : Lane e w s) (hp : p ≠ e.sender → p ≠ e.receiver →
    Untouched (s.procs p) e.channel) : Lane e w (s.put p (s.procs p).dead none) := by
  by_cases hr : p = e.receiver
  · subst hr
    exact h.receiver_moves .dies
  · by_cases hs : p = e.sender
    · subst hs
      exact h.sender_dies
    · exact h.other_moves hs hr (hp hs hr) .dies

variable [Fintype ι]

/-- The sender's own step, which is its write when the text is now sent. -/
theorem Lane.sender_runs (h : Lane e w s) (ht : step s (.run e.sender) = some t) :
    Lane e (w ∨ Writes e.sender e.channel s (.run e.sender)) t := by
  have hm : Moves s e.sender t := step_moves ht
  have hreceiver := hm.others e.ne
  cases h with
  | unsent before after hw chan write waits =>
    cases before with
    | nil =>
      have htodo := write.todo
      by_cases hr : s.holds (.reader e.channel)
      · have hstep : t = s.put e.sender ((s.procs e.sender).local after (.write e.channel e.text))
            (some (e.channel, s.chan e.channel ++ e.text)) := by
          simpa [step, htodo, exec, hr] using ht.symm
        refine .sent (.inr ⟨rfl, ⟨_, _, htodo⟩, hr⟩) ?_ (write.after_untouched ?_)
          (hreceiver ▸ waits)
        · rw [hstep]
          simp [State.put, chan]
        · rw [hstep, put_procs_self]
          rfl
      · have hstep : t = s.put e.sender (s.procs e.sender).dead none := by
          simpa [step, htodo, exec, hr] using ht.symm
        have hwrites : ¬ Writes e.sender e.channel s (.run e.sender) := fun h => hr h.2.2
        have hlane : Lane e w s := .unsent [] after hw chan write waits
        rw [or_iff_left hwrites, hstep]
        exact hlane.sender_dies
    | cons o before =>
      have ho : ¬ o.Touches e.channel := write.others o List.mem_cons_self
      have hwrites : ¬ Writes e.sender e.channel s (.run e.sender) := by
        rintro ⟨_, ⟨bs, rest, hhead⟩, _⟩
        cases hhead.symm.trans write.todo
        exact ho rfl
      rw [or_iff_left hwrites]
      obtain rfl | hp := moves_passes hm write.todo
      · exact Lane.sender_dies (.unsent _ after hw chan write waits)
      · obtain ⟨before', hwrite⟩ := write.passes hp ho
        refine .unsent before' after hw ?_ hwrite (hreceiver ▸ waits)
        refine (chan_eq hm fun o' rest ho' => ?_).trans chan
        cases ho'.symm.trans write.todo
        exact ho
  | died hw chan sender receiver => simp [step, sender] at ht
  | sent hw chan sender waits =>
    exact .sent (.inl hw) ((untouched_chan sender hm).trans chan)
      (fun o ho => sender o (hm.shrinks.todo.subset ho)) (hreceiver ▸ waits)
  | taken hw chan sender hears =>
    exact .taken (.inl hw) ((untouched_chan sender hm).trans chan)
      (fun o ho => sender o (hm.shrinks.todo.subset ho)) (hreceiver ▸ hears)

/-- The channel is a lane of its two processes, and no other process uses it. -/
structure Private (e : Exchange ι κ) (w : Prop) (s : State ι κ) : Prop where
  lane : Lane e w s
  others : ∀ p, p ≠ e.sender → p ≠ e.receiver → Untouched (s.procs p) e.channel

theorem Private.step (h : Private e w s) {a : Act ι} (ht : step s a = some t) :
    Private e (w ∨ Writes e.sender e.channel s a) t := by
  refine ⟨?_, fun p hs hr o ho => h.others p hs hr o ((step_shrinks ht p).todo.subset ho)⟩
  have hidle (ha : a ≠ .run e.sender) : ¬ Writes e.sender e.channel s a := fun hw => ha hw.1
  cases a with
  | kill p =>
    rw [or_iff_left (hidle (by simp))]
    cases ht
    exact h.lane.kills (h.others p)
  | run p =>
    by_cases hs : p = e.sender
    · subst hs
      exact h.lane.sender_runs ht
    · rw [or_iff_left (hidle (by simp [hs]))]
      have hm : Moves s p t := step_moves ht
      by_cases hr : p = e.receiver
      · subst hr
        exact h.lane.receiver_moves hm
      · exact h.lane.other_moves hs hr (h.others p hs hr) hm

omit [DecidableEq ι] [Fintype ι] in
theorem Waits.out {x : Proc κ} (h : Waits e x) : x.out = [] := by
  cases h with
  | comes comes => exact comes.out
  | quit todo out => exact out

omit [DecidableEq κ] [DecidableEq ι] [Fintype ι] in
theorem Hears.out {m : Mem} {x : Proc κ} (h : Hears e m x) :
    x.out = [] ∨ x.out = [str m 0 e.size] := by
  cases h with
  | heard todo out buf | quit todo out => exact .inl out
  | printed todo out => exact .inr out

/-- Whatever is killed when: what the receiver `q` prints, if anything, is the text when the
sender `p` has written it, and otherwise `old`, for which the sender must have come to its
end without its write. -/
structure Delivers (s₀ : State ι κ) (p q : ι) (c : κ) (text old : List UInt8) : Prop where
  written : ∀ s a t u, Reaches Channels.step free s₀ s → Writes p c s a →
    Channels.step s a = some t → Reaches Channels.step free t u →
    (u.procs q).out = [] ∨ (u.procs q).out = [text]
  unwritten : ∀ s, Reaches Channels.step (fun s a => ¬ Writes p c s a) s₀ s →
    (s.procs q).out = [] ∨ (s.procs q).out = [old] ∧ (s.procs p).todo = []

theorem Private.reaches (h : Private e w s) (ht : Reaches Channels.step free s t) :
    ∃ w', Private e w' t := by
  induction ht with
  | refl => exact ⟨w, h⟩
  | tail _ hn ih =>
    obtain ⟨a, _, ha⟩ := hn
    obtain ⟨_, hp⟩ := ih
    exact ⟨_, hp.step ha⟩

theorem Private.delivers (h : Private e False s) :
    Delivers s e.sender e.receiver e.channel (str (Bytes.write e.old 0 e.text) 0 e.size)
      (str e.old 0 e.size) := by
  refine ⟨fun x a t u hx ha ht hu => ?_, fun x hx => ?_⟩
  · obtain ⟨w, hw⟩ := h.reaches hx
    have hwritten : Private e True t := by
      have hp := hw.step ht
      rwa [or_iff_right_of_imp fun _ => ha, eq_true ha] at hp
    have hu : Private e True u :=
      hu.invariant hwritten fun _ _ _ hp _ ht => true_or (Writes _ _ _ _) ▸ hp.step ht
    cases hu.lane with
    | unsent before after hw chan write waits => exact absurd trivial hw
    | died hw chan sender receiver => exact absurd trivial hw
    | sent hw chan sender waits => exact .inl waits.out
    | taken hw chan sender hears => exact hears.out
  · have hx : Private e False x := hx.invariant h fun _ _ _ hp ha ht => by
      have hp := hp.step ht
      rwa [or_iff_left ha] at hp
    cases hx.lane with
    | unsent before after hw chan write waits => exact .inl waits.out
    | died hw chan sender receiver =>
      obtain waits | hears := receiver
      · exact .inl waits.out
      · exact hears.out.imp_right fun ho => ⟨ho, sender⟩
    | sent hw chan sender waits => exact hw.elim
    | taken hw chan sender hears => exact hw.elim

omit [DecidableEq ι] [Fintype ι] in
/-- A receiver at its read does not wait for a sender that is past its write. -/
theorem Lane.full (h : Lane e w s) {rest : List (Op κ)} {n : Nat}
    (hr : (s.procs e.receiver).todo = .read e.channel n :: rest)
    (hs : (s.procs e.sender).todo ≠ [])
    (hw : ∀ bs, .write e.channel bs ∉ (s.procs e.sender).todo) : s.chan e.channel ≠ [] := by
  cases h with
  | unsent before after _ chan write waits =>
    exact absurd (write.todo ▸ List.mem_append_right _ List.mem_cons_self) (hw e.text)
  | died _ chan sender receiver => exact absurd sender hs
  | sent _ chan sender waits => exact chan ▸ e.nonempty
  | taken _ chan sender hears =>
    exact absurd rfl (hears.untouched (.read e.channel n) (hr ▸ List.mem_cons_self))

end Lane

/-- The process exits last, so that it holds nothing at its end. -/
inductive Exits (x : Proc κ) : Prop
  | ahead (before : List (Op κ)) (todo : x.todo = before ++ [.exit])
  | ended (todo : x.todo = []) (held : x.held = [])

/-- The process closes an end of its own before it does anything else of its program. -/
inductive Parted (pr : List (Op κ)) (e : End κ) (x : Proc κ) : Prop
  | first (todo : x.todo = pr)
  | closed (held : e ∉ x.held)

section Ends

variable [DecidableEq ι] {s t : State ι κ} {p : ι} {pr rest : List (Op κ)} {e : End κ}
  {ends : List (End κ)}

theorem Exits.moves (h : Exits (s.procs p)) (hm : Moves s p t) : Exits (t.procs p) := by
  have hrest {o : Op κ} {rest : List (Op κ)} (ho : (s.procs p).todo = o :: rest) :
      o = .exit ∨ ∃ before, rest = before ++ [.exit] := by
    cases h with
    | ahead before todo =>
      rw [ho] at todo
      cases before with
      | nil =>
        cases todo
        exact .inl rfl
      | cons o' before =>
        cases todo
        exact .inr ⟨before, rfl⟩
    | ended todo held => cases ho.symm.trans todo
  have hahead {o : Op κ} {rest : List (Op κ)} (ho : (s.procs p).todo = o :: rest)
      (hne : o ≠ .exit) : ∃ before, rest = before ++ [.exit] := (hrest ho).resolve_left hne
  cases hm with
  | dies =>
    rw [put_procs_self]
    exact .ended rfl rfl
  | quiet o rest todo silent =>
    rw [put_procs_self]
    cases o with
    | exit => exact .ended rfl rfl
    | close ends | clear n | print n | write c bs | read c n =>
      obtain ⟨before, hb⟩ := hahead todo (by simp)
      exact .ahead before hb
  | write c bs rest todo reader | eof c n rest todo chan noWriter | read c n rest todo chan =>
    rw [put_procs_self]
    obtain ⟨before, hb⟩ := hahead todo (by simp)
    exact .ahead before hb

theorem Parted.moves (h : Parted pr e (s.procs p)) (hpr : pr = .close ends :: rest)
    (he : e ∈ ends) (hm : Moves s p t) : Parted pr e (t.procs p) := by
  cases h with
  | closed held => exact .closed fun hh => held (hm.shrinks.held e hh)
  | first todo =>
    obtain rfl | rfl := hm.of_quiet (todo.trans hpr) fun _ => id
    · rw [put_procs_self]
      exact .closed List.not_mem_nil
    · rw [put_procs_self]
      refine .closed fun hh => ?_
      simpa [he] using (List.mem_filter.mp hh).2

omit [DecidableEq κ] [DecidableEq ι] in
theorem Exits.held_eq {x : Proc κ} (h : Exits x) (ht : x.todo = []) : x.held = [] := by
  cases h with
  | ahead before todo => simp [ht] at todo
  | ended todo held => exact held

theorem Exits.step [Fintype ι] {a : Act ι} (h : Exits (s.procs p)) (ht : step s a = some t) :
    Exits (t.procs p) := by
  have hm := step_moves ht
  by_cases hp : p = a.actor
  · subst hp
    exact h.moves hm
  · rwa [hm.others hp]

theorem Parted.step [Fintype ι] {a : Act ι} (h : Parted pr e (s.procs p))
    (hpr : pr = .close ends :: rest) (he : e ∈ ends) (ht : step s a = some t) :
    Parted pr e (t.procs p) := by
  have hm := step_moves ht
  by_cases hp : p = a.actor
  · subst hp
    exact h.moves hpr he hm
  · rwa [hm.others hp]

omit [DecidableEq κ] [DecidableEq ι] in
theorem Parted.not_held (h : Parted pr e (s.procs p)) (hne : (s.procs p).todo ≠ pr) :
    e ∉ (s.procs p).held := by
  cases h with
  | first todo => exact absurd todo hne
  | closed held => exact held

end Ends

end LinuxExamples.Delivery
