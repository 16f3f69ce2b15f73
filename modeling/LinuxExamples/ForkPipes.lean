import LinuxExamples.LinearChannels

namespace LinuxExamples.ForkPipes

open Bytes Channels Runs

inductive Party where
  | parent | child
  deriving DecidableEq

instance : Fintype Party := ⟨{.parent, .child}, fun p => by cases p <;> simp⟩

theorem parent_ne_child : Party.parent ≠ .child := nofun

/-- The ends open before the `fork`, and what the two processes do after it. -/
structure Program (κ : Type) where
  ends : List (End κ)
  parent : List (Op κ)
  child : List (Op κ)

variable {κ : Type}

/-- After the `fork`, with any contents of the two buffers. -/
def start (pr : Program κ) (buf : Party → Mem) : State Party κ where
  chan _ := []
  procs
    | .parent => ⟨pr.parent, pr.ends, buf .parent, []⟩
    | .child => ⟨pr.child, pr.ends, buf .child, []⟩

section Asks

variable [DecidableEq κ] {pr : Program κ} {c : κ} {n : Nat} {bs : List UInt8}
  {rest rest' : List (Op κ)} {buf : Party → Mem} {s t : State Party κ} {a : Act Party}

/-- A parent that begins with a read and never waits again, and a child that begins with the
write for it, while the parent holds both ends itself. -/
structure Asks (pr : Program κ) (c : κ) (n : Nat) (bs : List UInt8) (rest rest' : List (Op κ)) :
    Prop where
  parent : pr.parent = .read c n :: rest
  child : pr.child = .write c bs :: rest'
  reader : .reader c ∈ pr.ends
  writer : .writer c ∈ pr.ends
  nonempty : bs ≠ []
  noRead : ∀ d k, .read d k ∉ rest
  noWrite' : ∀ bs, .write c bs ∉ rest'
  noRead' : ∀ k, .read c k ∉ rest'

/-- The parent as the `fork` left it. -/
def asking (pr : Program κ) (buf : Party → Mem) : Proc κ := ⟨pr.parent, pr.ends, buf .parent, []⟩

/-- The child is at its end, and the parent still waits for it. -/
structure Hangs (pr : Program κ) (buf : Party → Mem) (c : κ) (s : State Party κ) : Prop where
  parent : s.procs .parent = asking pr buf
  chan : s.chan c = []
  child : (s.procs .child).todo = []

/-- How far the two have come. -/
inductive Stage (pr : Program κ) (buf : Party → Mem) (c : κ) (rest rest' : List (Op κ))
    (s : State Party κ) : Prop where
  | asked (parent : s.procs .parent = asking pr buf) (chan : s.chan c = [])
      (child : (s.procs .child).todo = pr.child)
  | answered (parent : s.procs .parent = asking pr buf) (chan : s.chan c ≠ [])
      (child : (s.procs .child).todo <:+ rest')
  | hangs (hangs : Hangs pr buf c s)
  | passed (parent : (s.procs .parent).todo <:+ rest)

/-- A move of the parent from its read: it dies or it finds a text. -/
theorem Asks.parent_moves (h : Asks pr c n bs rest rest') (hp : s.procs .parent = asking pr buf)
    (hm : Moves s .parent t) :
    (t.procs .parent).todo = [] ∨ s.chan c ≠ [] ∧ (t.procs .parent).todo = rest := by
  have htodo : (s.procs .parent).todo = .read c n :: rest := by rw [hp, asking, h.parent]
  obtain rfl | ⟨⟨_, hnone⟩, _⟩ | ⟨hchan, rfl⟩ := hm.of_read htodo
  · exact .inl (by rw [put_procs_self]; rfl)
  · refine absurd ⟨.parent, ?_⟩ hnone
    rw [hp]
    exact h.writer
  · exact .inr ⟨hchan, by rw [put_procs_self]; rfl⟩

theorem Asks.stage_step (h : Asks pr c n bs rest rest') (hs : Stage pr buf c rest rest' s)
    (ht : step s a = some t) : Stage pr buf c rest rest' t := by
  have hm := step_moves ht
  have hpassed (hp : (t.procs .parent).todo = [] ∨ s.chan c ≠ [] ∧ (t.procs .parent).todo = rest) :
      Stage pr buf c rest rest' t := by
    obtain hp | ⟨_, hp⟩ := hp
    · exact .passed (hp ▸ List.nil_suffix)
    · exact .passed (hp ▸ List.suffix_refl _)
  cases hactor : a.actor with
  | parent =>
    rw [hactor] at hm
    cases hs with
    | asked parent chan child => exact hpassed (h.parent_moves parent hm)
    | answered parent chan child => exact hpassed (h.parent_moves parent hm)
    | hangs hangs => exact hpassed (h.parent_moves hangs.parent hm)
    | passed parent => exact .passed (hm.shrinks.todo.trans parent)
  | child =>
    rw [hactor] at hm
    have hparent : t.procs .parent = s.procs .parent := hm.others (by simp)
    cases hs with
    | asked parent chan child =>
      obtain rfl | rfl := hm.of_write (child.trans h.child)
      · exact .hangs ⟨hparent.trans parent, chan, by rw [put_procs_self]; rfl⟩
      · refine .answered (hparent.trans parent) ?_ ?_
        · simp [State.put, h.nonempty]
        · rw [put_procs_self]
          exact List.suffix_refl _
    | answered parent chan child =>
      refine .answered (hparent.trans parent) ?_ (hm.shrinks.todo.trans child)
      cases hm with
      | dies | quiet o rest₂ todo silent | eof d k rest₂ todo empty noWriter => exact chan
      | write d bs rest₂ todo reader =>
        have hc : c ≠ d := by
          rintro rfl
          exact h.noWrite' bs (child.subset (todo ▸ List.mem_cons_self))
        exact fun he => chan ((Function.update_of_ne hc _ _).symm.trans he)
      | read d k rest₂ todo chan' =>
        have hc : c ≠ d := by
          rintro rfl
          exact h.noRead' k (child.subset (todo ▸ List.mem_cons_self))
        exact fun he => chan ((Function.update_of_ne hc _ _).symm.trans he)
    | hangs hangs =>
      obtain rfl := hm.of_nil hangs.child
      exact .hangs ⟨hparent.trans hangs.parent, hangs.chan, by rw [put_procs_self]; rfl⟩
    | passed parent => exact .passed (hparent ▸ parent)

omit [DecidableEq κ] in
theorem Hangs.starved (h : Asks pr c n bs rest rest') (hs : Hangs pr buf c s) :
    Starved s .parent c := by
  refine ⟨hs.chan, ?_, ⟨n, rest, ?_⟩, fun q hq bs hw => ?_⟩
  · rw [hs.parent]
    exact h.writer
  · rw [hs.parent, asking, h.parent]
  · cases q with
    | parent => exact hq rfl
    | child =>
      rw [hs.child] at hw
      cases hw

/-- Whatever is killed when: the parent can come to its end unless it hangs, if it hangs
it does so for ever, and it hangs when there is no child from the start. -/
structure HangsOnly (s₀ : State Party κ) (hangs : State Party κ → Prop) : Prop where
  finishes : ∀ s, Reaches step free s₀ s → ¬ hangs s →
    ∃ t, Reaches step Unkilled s t ∧ (t.procs .parent).todo = []
  forever : ∀ s t, hangs s → Reaches step (Spares .parent) s t →
    (s.procs .parent).todo ≠ [] ∧ t.procs .parent = s.procs .parent
  failed : ∀ t, step s₀ (.kill .child) = some t → hangs t

omit [DecidableEq κ] in
theorem passed_not_hangs (h : Asks pr c n bs rest rest') (hp : (s.procs .parent).todo <:+ rest) :
    ¬ Hangs pr buf c s := by
  intro hs
  rw [hs.parent, asking, h.parent] at hp
  have hlen := hp.length_le
  simp at hlen

/-- Short of its end the parent can go on, or the child can, towards the text. -/
theorem Asks.goes_on (h : Asks pr c n bs rest rest')
    (hs : Stage pr buf c rest rest' s ∧ ¬ Hangs pr buf c s) (hg : ¬ (s.procs .parent).todo = []) :
    ∃ p t, step s (.run p) = some t ∧ Stage pr buf c rest rest' t ∧ ¬ Hangs pr buf c t := by
  obtain ⟨hs, hnot⟩ := hs
  have hread {t : State Party κ} (ht : step s (.run .parent) = some t)
      (hp : (t.procs .parent).todo <:+ rest) :
      ∃ p t, step s (.run p) = some t ∧ Stage pr buf c rest rest' t ∧ ¬ Hangs pr buf c t :=
    ⟨.parent, t, ht, .passed hp, passed_not_hangs h hp⟩
  cases hs with
  | asked parent chan child =>
    have hreader : s.holds (.reader c) := ⟨.parent, by rw [parent]; exact h.reader⟩
    have htodo := child.trans h.child
    let t := s.put .child ((s.procs .child).local rest' (.write c bs)) (some (c, s.chan c ++ bs))
    have ht : step s (.run .child) = some t := by simp [step, htodo, exec, hreader, t]
    refine ⟨.child, t, ht, h.stage_step (.asked parent chan child) ht, fun hh => ?_⟩
    have hchan : t.chan c = s.chan c ++ bs := Function.update_self _ _ _
    rw [hh.chan, chan, List.nil_append] at hchan
    exact h.nonempty hchan.symm
  | answered parent chan child =>
    have htodo : (s.procs .parent).todo = .read c n :: rest := by rw [parent, asking, h.parent]
    obtain ⟨t, ht⟩ := can_run htodo fun d k hd hc => by
      cases hd
      exact absurd hc chan
    obtain hp | ⟨_, hp⟩ := h.parent_moves parent (step_moves ht)
    · exact hread ht (hp ▸ List.nil_suffix)
    · exact hread ht (hp ▸ List.suffix_refl _)
  | hangs hangs => exact absurd hangs hnot
  | passed parent =>
    obtain ⟨o, rest₂, htodo⟩ := List.exists_cons_of_ne_nil hg
    obtain ⟨t, ht⟩ := can_run htodo fun d k hd _ => by
      cases hd
      exact absurd (parent.subset (htodo ▸ List.mem_cons_self)) (h.noRead d k)
    exact hread ht ((step_shrinks ht .parent).todo.trans parent)

theorem Asks.hangsOnly (h : Asks pr c n bs rest rest') (buf : Party → Mem) :
    HangsOnly (start pr buf) (Hangs pr buf c) := by
  refine ⟨fun s hs hnot => ?_, fun s t hs ht => ?_, fun t ht => ?_⟩
  · have hstage : Stage pr buf c rest rest' s :=
      hs.invariant (.asked rfl rfl rfl) fun _ _ _ hi _ ht => h.stage_step hi ht
    obtain ⟨t, ht, _, hg⟩ := reaches_goal (fun _ => h.goes_on) s ⟨hstage, hnot⟩
    exact ⟨t, ht, hg⟩
  · have hstarved := hs.starved h
    refine ⟨?_, (hstarved.forever ht).2⟩
    obtain ⟨k, rest₂, hw⟩ := hstarved.waits
    simp [hw]
  · cases ht
    exact ⟨rfl, rfl, rfl⟩

end Asks

/-- A single pipe that the child writes once and the parent reads once is linear. -/
theorem onePipe_linear {pr : Program Unit} {buf : Party → Mem} {bs : List UInt8} {n : Nat}
    {before after before' after' : List (Op Unit)} (nonempty : bs ≠ []) (fits : bs.length ≤ n)
    (write : Pending ((start pr buf).procs .child) () (.write () bs) (.writer ()) before after)
    (read : Pending ((start pr buf).procs .parent) () (.read () n) (.reader ()) before' after') :
    Linear (start pr buf) := by
  intro c
  refine .unwritten .child .parent bs n before after before' after' (by simp) rfl nonempty fits
    write read fun q hq hq' => ?_
  cases q <;> contradiction

/-- The pipes of `interactive.c`. -/
inductive Fds where
  | fds1 | fds2
  deriving DecidableEq

def BUF_SIZE : Nat := 30

def str1 : List UInt8 := ascii ['W', 'h', 'o', ' ', 'a', 'r', 'e', ' ', 'y', 'o', 'u', '?']

def str2 : List UInt8 :=
  ascii ['T', 'h', 'a', 'n', 'k', ' ', 'y', 'o', 'u', ' ', 'f', 'o', 'r', ' ', 'y', 'o', 'u', 'r',
    ' ', 'm', 'e', 's', 's', 'a', 'g', 'e']

/-- `interactive.c`: no end is ever closed before the exit. When the `fork` fails, the branch
of the parent runs without a child, as if the child had been killed at once. -/
def interactive : Program Fds where
  ends := [.reader .fds1, .writer .fds1, .reader .fds2, .writer .fds2]
  parent := [.read .fds1 BUF_SIZE, .print BUF_SIZE, .write .fds2 (str2 ++ [0]), .exit]
  child := [.write .fds1 (str1 ++ [0]), .read .fds2 BUF_SIZE, .print BUF_SIZE, .exit]

theorem interactive_linear (buf : Party → Mem) : Linear (start interactive buf) := by
  intro c
  cases c with
  | fds1 =>
    refine .unwritten .child .parent (str1 ++ [0]) BUF_SIZE [] (interactive.child.drop 1) []
      (interactive.parent.drop 1) (by simp) rfl (by decide) (by decide) ?_ ?_ fun q hq hq' => ?_
    · exact ⟨rfl, rfl, by simp [interactive, Op.Touches], by simp [start, interactive], by simp⟩
    · exact ⟨rfl, rfl, by simp [interactive, Op.Touches], by simp [start, interactive], by simp⟩
    · cases q <;> contradiction
  | fds2 =>
    refine .unwritten .parent .child (str2 ++ [0]) BUF_SIZE (interactive.parent.take 2)
      (interactive.parent.drop 3) (interactive.child.take 1) (interactive.child.drop 2)
      (by simp) rfl
      (by decide) (by decide) ?_ ?_ fun q hq hq' => ?_
    · exact ⟨rfl, rfl, by simp [interactive, Op.Touches], by simp [start, interactive],
        by simp [interactive, Op.Keeps]⟩
    · exact ⟨rfl, rfl, by simp [interactive, Op.Touches], by simp [start, interactive],
        by simp [interactive, Op.Keeps]⟩
    · cases q <;> contradiction

/-- The child's text first, and then the parent's. -/
def order : List (Act Party) :=
  [.run .child, .run .parent, .run .parent, .run .parent, .run .parent, .run .child, .run .child,
    .run .child]

/-- What the two processes print. -/
def heard : Party → List (List UInt8)
  | .parent => [str1]
  | .child => [str2]

theorem interactive_run (buf : Party → Mem) : ∃ t,
    Reaches step Unkilled (start interactive buf) t ∧ (∀ p, (t.procs p).todo = []) ∧
      ∀ p, (t.procs p).out = heard p := by
  have hprint {m : Mem} {s : List UInt8} (hs : 0 ∉ s) (hlen : s.length ≤ BUF_SIZE) :
      str (write m 0 (s ++ [0])) 0 BUF_SIZE = s := (strcpy_holds m hs).str_eq hlen
  have hrun : ∃ t, run step (start interactive buf) order = some t ∧
      (∀ p, (t.procs p).todo = []) ∧
      (t.procs .parent).out = [str (write (buf .parent) 0 (str1 ++ [0])) 0 BUF_SIZE] ∧
      (t.procs .child).out = [str (write (buf .child) 0 (str2 ++ [0])) 0 BUF_SIZE] := by
    refine ⟨_, rfl, fun p => ?_, rfl, rfl⟩
    cases p <;> rfl
  obtain ⟨t, ht, hend, hparent, hchild⟩ := hrun
  refine ⟨t, run_reaches_of (fun a ha u => ?_) ht, hend, fun p => ?_⟩
  · fin_cases ha <;> trivial
  · cases p with
    | parent => rw [hparent, hprint (by decide) (by decide), heard]
    | child => rw [hchild, hprint (by decide) (by decide), heard]

/-- In every order of their steps, the two processes print each other's text and end. -/
theorem interactive_completes (buf : Party → Mem) : Completes (start interactive buf) heard := by
  obtain ⟨t, ht, hend, hout⟩ := interactive_run buf
  have hc := (interactive_linear buf).completes ht hend
  rwa [funext hout] at hc

theorem interactive_asks : Asks interactive .fds1 BUF_SIZE (str1 ++ [0])
    (interactive.parent.drop 1) (interactive.child.drop 1) := by
  refine ⟨rfl, rfl, ?_, ?_, by decide, ?_, ?_, ?_⟩ <;> simp [interactive]

/-- If the child is at its end before its write, the parent waits for ever, and only then. -/
theorem interactive_hangsOnly (buf : Party → Mem) :
    HangsOnly (start interactive buf) (Hangs interactive buf .fds1) :=
  interactive_asks.hangsOnly buf

/-- `one_way.c`, whose text is `str1` as well, and which treats a failed `fork` the same way. -/
def oneWay : Program Unit where
  ends := [.reader (), .writer ()]
  parent := [.read () BUF_SIZE, .print BUF_SIZE, .exit]
  child := [.write () (str1 ++ [0]), .exit]

theorem oneWay_asks : Asks oneWay () BUF_SIZE (str1 ++ [0]) (oneWay.parent.drop 1)
    (oneWay.child.drop 1) := by
  refine ⟨rfl, rfl, ?_, ?_, by decide, ?_, ?_, ?_⟩ <;> simp [oneWay]

theorem oneWay_hangsOnly (buf : Party → Mem) : HangsOnly (start oneWay buf) (Hangs oneWay buf ()) :=
  oneWay_asks.hangsOnly buf

end LinuxExamples.ForkPipes
