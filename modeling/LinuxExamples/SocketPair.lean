import LinuxExamples.Delivery
import LinuxExamples.ForkPipes

namespace LinuxExamples.SocketPair

open Bytes Channels Delivery ForkPipes Runs

/-- The two directions of the socket pair. -/
inductive Dir where
  | toParent | toChild
  deriving DecidableEq

def BUFSIZ : Nat := 8192

def data1 : List UInt8 := ascii ['F', 'r', 'o', 'm', ' ', 'P', 'a', 'r', 'e', 'n', 't']

def data2 : List UInt8 := ascii ['F', 'r', 'o', 'm', ' ', 'C', 'h', 'i', 'l', 'd']

/-- The ends that `sd[0]` stands for. -/
def sd0 : List (End Dir) := [.reader .toParent, .writer .toChild]

def sd1 : List (End Dir) := [.reader .toChild, .writer .toParent]

/-- `socketpair_fork.c`. -/
def program : Program Dir where
  ends := sd0 ++ sd1
  parent := [.close sd1, .read .toParent BUFSIZ, .print BUFSIZ, .write .toChild (data1 ++ [0]),
    .close sd0, .exit]
  child := [.close sd0, .write .toParent (data2 ++ [0]), .read .toChild BUFSIZ, .print BUFSIZ,
    .close sd1, .exit]

variable (buf : Party → Mem)

/-- The child's write, which is for the parent. -/
theorem child_pending : Pending ((start program buf).procs .child) .toParent
    (.write .toParent (data2 ++ [0])) (.writer .toParent) (program.child.take 1)
    (program.child.drop 2) :=
  ⟨rfl, rfl, by simp [program, Op.Touches], by simp [start, program, sd1],
    by simp [program, Op.Keeps, sd0]⟩

theorem parent_pending : Pending ((start program buf).procs .parent) .toChild
    (.write .toChild (data1 ++ [0])) (.writer .toChild) (program.parent.take 3)
    (program.parent.drop 4) :=
  ⟨rfl, rfl, by simp [program, Op.Touches], by simp [start, program, sd0],
    by simp [program, Op.Keeps, sd1]⟩

theorem program_linear : Linear (start program buf) := by
  intro c
  cases c with
  | toParent =>
    refine .unwritten .child .parent (data2 ++ [0]) BUFSIZ (program.child.take 1)
      (program.child.drop 2) (program.parent.take 1) (program.parent.drop 2) (by simp)
      rfl (by decide)
      (by decide) (child_pending buf) ?_ fun q hq hq' => ?_
    · exact ⟨rfl, rfl, by simp [program, Op.Touches], by simp [start, program, sd0],
        by simp [program, Op.Keeps, sd1]⟩
    · cases q <;> contradiction
  | toChild =>
    refine .unwritten .parent .child (data1 ++ [0]) BUFSIZ (program.parent.take 3)
      (program.parent.drop 4) (program.child.take 2) (program.child.drop 3) (by simp)
      rfl (by decide)
      (by decide) (parent_pending buf) ?_ fun q hq hq' => ?_
    · exact ⟨rfl, rfl, by simp [program, Op.Touches], by simp [start, program, sd1],
        by simp [program, Op.Keeps, sd0]⟩
    · cases q <;> contradiction

def order : List (Act Party) :=
  List.replicate 2 (.run .child) ++ List.replicate 6 (.run .parent) ++
    List.replicate 4 (.run .child)

def heard : Party → List (List UInt8)
  | .parent => [data2]
  | .child => [data1]

theorem str_text (m : Mem) {s : List UInt8} (hs : 0 ∉ s) (hlen : s.length ≤ BUFSIZ) :
    str (write m 0 (s ++ [0])) 0 BUFSIZ = s :=
  (strcpy_holds m hs).str_eq hlen

theorem program_run : ∃ t, Reaches step Unkilled (start program buf) t ∧
    (∀ p, (t.procs p).todo = []) ∧ ∀ p, (t.procs p).out = heard p := by
  have hrun : ∃ t, run step (start program buf) order = some t ∧ (∀ p, (t.procs p).todo = []) ∧
      (t.procs .parent).out = [str (write (buf .parent) 0 (data2 ++ [0])) 0 BUFSIZ] ∧
      (t.procs .child).out = [str (write (buf .child) 0 (data1 ++ [0])) 0 BUFSIZ] := by
    refine ⟨_, rfl, fun p => ?_, rfl, rfl⟩
    cases p <;> rfl
  obtain ⟨t, ht, hend, hparent, hchild⟩ := hrun
  refine ⟨t, run_reaches_of (fun a ha u => ?_) ht, hend, fun p => ?_⟩
  · fin_cases ha <;> trivial
  · cases p with
    | parent => rw [hparent, str_text _ (by decide) (by decide), heard]
    | child => rw [hchild, str_text _ (by decide) (by decide), heard]

/-- In every order of their steps, the two processes print each other's text and end. -/
theorem socketPair_completes : Completes (start program buf) heard := by
  obtain ⟨t, ht, hend, hout⟩ := program_run buf
  have hc := (program_linear buf).completes ht hend
  rwa [funext hout] at hc

/-- What the child writes and the parent reads. -/
def toParent : Exchange Party Dir where
  sender := .child
  receiver := .parent
  channel := .toParent
  text := data2 ++ [0]
  size := BUFSIZ
  after := program.parent.drop 3
  old := buf .parent
  ne := parent_ne_child
  nonempty := by simp
  fits := by decide
  silent := by simp [program, Op.Touches]

def toChild : Exchange Party Dir where
  sender := .parent
  receiver := .child
  channel := .toChild
  text := data1 ++ [0]
  size := BUFSIZ
  after := program.child.drop 4
  old := buf .child
  ne := parent_ne_child.symm
  nonempty := by simp
  fits := by decide
  silent := by simp [program, Op.Touches]

theorem toParent_private : Private (toParent buf) False (start program buf) := by
  refine ⟨.unsent (program.child.take 1) (program.child.drop 2) id rfl (child_pending buf)
    (.comes (.passes _ _ _ rfl id (by simp) (.reads _ rfl rfl rfl))), fun p hs hr => ?_⟩
  cases p
  · exact absurd rfl hr
  · exact absurd rfl hs

theorem toChild_private : Private (toChild buf) False (start program buf) := by
  refine ⟨.unsent (program.parent.take 3) (program.parent.drop 4) id rfl (parent_pending buf)
    (.comes (.passes _ _ _ rfl id (by simp) (.passes _ _ _ rfl ?_ (by simp)
      (.reads _ rfl rfl rfl)))), fun p hs hr => ?_⟩
  · simp [Op.Touches, toChild]
  · cases p
    · exact absurd rfl hs
    · exact absurd rfl hr

/-- What is the case in every run, whatever is killed when. -/
structure Ready (s : State Party Dir) : Prop where
  sends : ∃ w, Private (toParent buf) w s
  parent : (s.procs .parent).todo <:+ program.parent
  child : (s.procs .child).todo <:+ program.child
  exits : ∀ p, Exits (s.procs p)
  parted : Parted program.parent (.writer .toParent) (s.procs .parent)
  parted' : Parted program.child (.writer .toChild) (s.procs .child)

section Robust

variable {buf} {s t : State Party Dir}

theorem step_ready {a : Act Party} (hs : Ready buf s) (h : step s a = some t) : Ready buf t := by
  obtain ⟨w, hw⟩ := hs.sends
  exact ⟨⟨_, hw.step h⟩, (step_shrinks h .parent).todo.trans hs.parent,
    (step_shrinks h .child).todo.trans hs.child, fun p => (hs.exits p).step h,
    hs.parted.step rfl (by simp [sd1]) h, hs.parted'.step rfl (by simp [sd0]) h⟩

theorem parent_reads {c : Dir} {n : Nat} {rest : List (Op Dir)}
    (h : .read c n :: rest <:+ program.parent) : c = .toParent := by
  have hread : c = .toParent ∧ n = BUFSIZ := by
    simpa [program] using h.subset List.mem_cons_self
  exact hread.1

theorem child_reads {c : Dir} {n : Nat} {rest : List (Op Dir)}
    (h : .read c n :: rest <:+ program.child) : c = .toChild ∧ rest = program.child.drop 3 := by
  have hread : (c = .toChild ∧ n = BUFSIZ) ∧ rest = program.child.drop 3 := by
    simpa [program, List.suffix_cons_iff] using h
  exact ⟨hread.1.1, hread.2⟩

/-- A side waits only for the other, which has not waited yet or does not any more. -/
theorem goes_on (hs : Ready buf s) (hend : ¬ ∀ p, (s.procs p).todo = []) :
    ∃ p t, step s (.run p) = some t ∧ Ready buf t := by
  have hgo {p : Party} (h : ∃ t, step s (.run p) = some t) :
      ∃ p t, step s (.run p) = some t ∧ Ready buf t := by
    obtain ⟨t, ht⟩ := h
    exact ⟨p, t, ht, step_ready hs ht⟩
  by_contra hstuck
  -- a process that is not at its end is at its read
  have hread {p : Party} (hne : (s.procs p).todo ≠ []) :
      ∃ c n rest, (s.procs p).todo = .read c n :: rest ∧ s.chan c = [] ∧ s.holds (.writer c) := by
    obtain ⟨o, rest, ho⟩ := List.exists_cons_of_ne_nil hne
    by_contra hno
    refine hstuck (hgo (can_run ho fun c n he hc hw => hno ⟨c, n, rest, he ▸ ho, hc, hw⟩))
  have hnot {p : Party} (hp : (s.procs p).todo = []) (e : End Dir) : e ∉ (s.procs p).held := by
    rw [(hs.exits p).held_eq hp]
    exact List.not_mem_nil
  by_cases hp : (s.procs .parent).todo = []
  · have hc : (s.procs .child).todo ≠ [] := by
      refine fun hc => hend fun p => ?_
      cases p
      · exact hp
      · exact hc
    obtain ⟨c, n, rest, ho, _, q, hq⟩ := hread hc
    obtain ⟨rfl, _⟩ := child_reads (ho ▸ hs.child)
    cases q with
    | parent => exact hnot hp _ hq
    | child => exact hs.parted'.not_held (by rw [ho]; simp [program]) hq
  · obtain ⟨c, n, rest, ho, hempty, q, hq⟩ := hread hp
    obtain rfl := parent_reads (ho ▸ hs.parent)
    have hparent : .writer .toParent ∉ (s.procs .parent).held :=
      hs.parted.not_held (by rw [ho]; simp [program])
    by_cases hc : (s.procs .child).todo = []
    · cases q with
      | parent => exact hparent hq
      | child => exact hnot hc _ hq
    · obtain ⟨d, k, rest', ho', _, _⟩ := hread hc
      obtain ⟨_, rfl⟩ := child_reads (ho' ▸ hs.child)
      obtain ⟨w, hw⟩ := hs.sends
      refine hw.lane.full ho hc (fun bs hmem => ?_) hempty
      change .write .toParent bs ∈ (s.procs .child).todo at hmem
      rw [ho'] at hmem
      simp [program] at hmem

end Robust

/-- Each process prints the text that the other has written for it or, when the other has
come to its end without its write, what its own buffer held, if anything, and both
processes can come to their ends from every state. -/
structure Robust (s₀ : State Party Dir) : Prop where
  parent : Delivers s₀ .child .parent .toParent data2 (str (buf .parent) 0 BUFSIZ)
  child : Delivers s₀ .parent .child .toChild data1 (str (buf .child) 0 BUFSIZ)
  finishes : ∀ s, Reaches step free s₀ s →
    ∃ t, Reaches step Unkilled s t ∧ ∀ p, (t.procs p).todo = []

/-- Whatever is killed when. -/
theorem socketPair_robust : Robust buf (start program buf) := by
  refine ⟨?_, ?_, fun s h => ?_⟩
  · have hd := (toParent_private buf).delivers
    have htext : str (write (toParent buf).old 0 (toParent buf).text) 0 (toParent buf).size =
        data2 := str_text _ (by decide) (by decide)
    rwa [htext] at hd
  · have hd := (toChild_private buf).delivers
    have htext : str (write (toChild buf).old 0 (toChild buf).text) 0 (toChild buf).size =
        data1 := str_text _ (by decide) (by decide)
    rwa [htext] at hd
  · have hexits (p : Party) : Exits ((start program buf).procs p) := by
      cases p
      · exact .ahead (program.parent.take 5) rfl
      · exact .ahead (program.child.take 5) rfl
    have hready : Ready buf s :=
      h.invariant ⟨⟨_, toParent_private buf⟩, List.suffix_refl _, List.suffix_refl _, hexits,
        .first rfl, .first rfl⟩ fun _ _ _ hs _ ht => step_ready hs ht
    obtain ⟨t, ht, _, hg⟩ := reaches_goal (fun _ => goes_on) s hready
    exact ⟨t, ht, hg⟩

end LinuxExamples.SocketPair
