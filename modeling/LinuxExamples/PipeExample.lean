import LinuxExamples.AnonMmap
import LinuxExamples.Delivery
import LinuxExamples.ForkPipes
import LinuxExamples.SenderBounds

namespace LinuxExamples.PipeExample

open Bytes Channels Delivery ForkPipes Runs
open AnonMmap (snprintf)
open SenderBounds (padded)

def MAX_BUF_LEN : Nat := 1028

/-- The text that `send_data` formats. -/
def text : List UInt8 :=
  ascii ['m', 's', 'g', ':', ' ', 'H', 'e', 'l', 'l', 'o', ' ', 'w', 'o', 'r', 'l', 'd']

/-- What `send_data` writes: the whole buffer, which is on the stack. -/
def sendData (stack : Mem) : List UInt8 :=
  read (snprintf (memset stack MAX_BUF_LEN) MAX_BUF_LEN text) 0 MAX_BUF_LEN

/-- The child sends and the parent receives, each after it has closed the end that it does
not use. -/
def program (stack : Mem) : Program Unit where
  ends := [.reader (), .writer ()]
  parent := [.close [.writer ()], .clear MAX_BUF_LEN, .read () MAX_BUF_LEN, .print MAX_BUF_LEN,
    .close [.reader ()], .exit]
  child := [.close [.reader ()], .write () (sendData stack), .close [.writer ()], .exit]

variable (buf : Party → Mem)

def initial : State Party Unit := start (program (buf .child)) buf

theorem sendData_eq (stack : Mem) : sendData stack = padded text MAX_BUF_LEN :=
  SenderBounds.read_strcpy_memset _ _ _

theorem str_sendData (m stack : Mem) : str (write m 0 (sendData stack)) 0 MAX_BUF_LEN = text := by
  obtain ⟨zs, hz⟩ := SenderBounds.padded_short (show text.length < MAX_BUF_LEN by decide)
  rw [sendData_eq, hz]
  exact (holds_write m (by decide) zs).str_eq (by decide)

theorem sendData_length (stack : Mem) : (sendData stack).length = MAX_BUF_LEN :=
  read_length _ _ _

theorem sendData_ne_nil (stack : Mem) : sendData stack ≠ [] := by
  rw [← List.length_pos_iff, sendData_length]
  decide

theorem write_pending : Pending ((initial buf).procs .child) ()
    (.write () (sendData (buf .child))) (.writer ()) ((program (buf .child)).child.take 1)
    ((program (buf .child)).child.drop 2) :=
  ⟨rfl, rfl, by simp [program, Op.Touches], by simp [initial, start, program],
    by simp [program, Op.Keeps]⟩

theorem initial_linear : Linear (initial buf) := by
  have hread : Pending ((initial buf).procs .parent) () (.read () MAX_BUF_LEN) (.reader ())
      ((program (buf .child)).parent.take 2) ((program (buf .child)).parent.drop 3) :=
    ⟨rfl, rfl, by simp [program, Op.Touches], by simp [initial, start, program],
      by simp [program, Op.Keeps]⟩
  exact onePipe_linear (sendData_ne_nil _) (sendData_length _).le (write_pending buf) hread

def order : List (Act Party) :=
  List.replicate 4 (.run .child) ++ List.replicate 6 (.run .parent)

/-- What the two processes print of what they receive. -/
def heard : Party → List (List UInt8)
  | .parent => [text]
  | .child => []

theorem initial_run : ∃ t, Reaches step Unkilled (initial buf) t ∧ (∀ p, (t.procs p).todo = []) ∧
    ∀ p, (t.procs p).out = heard p := by
  have hrun : ∃ t, run step (initial buf) order = some t ∧ (∀ p, (t.procs p).todo = []) ∧
      (t.procs .child).out = [] ∧ (t.procs .parent).out =
        [str (write (memset (buf .parent) MAX_BUF_LEN) 0
          (([] ++ sendData (buf .child)).take MAX_BUF_LEN)) 0 MAX_BUF_LEN] := by
    refine ⟨_, rfl, fun p => ?_, rfl, rfl⟩
    cases p <;> rfl
  obtain ⟨t, ht, hend, hchild, hparent⟩ := hrun
  refine ⟨t, run_reaches_of (fun a ha u => ?_) ht, hend, fun p => ?_⟩
  · obtain ha | ha := List.mem_append.mp ha <;>
      obtain rfl := List.eq_of_mem_replicate ha <;> trivial
  · cases p with
    | child => exact hchild
    | parent =>
      rw [hparent, List.nil_append, List.take_of_length_le (sendData_length _).le, str_sendData,
        heard]

/-- In every order of their steps, the parent prints the text and both processes end. -/
theorem pipe_completes : Completes (initial buf) heard := by
  obtain ⟨t, ht, hend, hout⟩ := initial_run buf
  have hc := (initial_linear buf).completes ht hend
  rwa [funext hout] at hc

theorem str_cleared (m : Mem) : str (memset m MAX_BUF_LEN) 0 MAX_BUF_LEN = [] :=
  List.length_eq_zero_iff.mp (Nat.le_zero.mp
    (str_length_le_nul (memset_apply m (show 0 < MAX_BUF_LEN by decide)) MAX_BUF_LEN))

/-- What the child sends to the parent, whose buffer is cleared. -/
def exchange : Exchange Party Unit where
  sender := .child
  receiver := .parent
  channel := ()
  text := sendData (buf .child)
  size := MAX_BUF_LEN
  after := [.close [.reader ()], .exit]
  old := memset (buf .parent) MAX_BUF_LEN
  ne := parent_ne_child
  nonempty := sendData_ne_nil _
  fits := (sendData_length _).le
  silent := by simp [Op.Touches]

theorem initial_private : Private (exchange buf) False (initial buf) := by
  refine ⟨.unsent ((program (buf .child)).child.take 1) ((program (buf .child)).child.drop 2) id
    rfl (write_pending buf) (.comes ?_), fun p hs hr => ?_⟩
  · refine .passes _ _ _ rfl id (by simp) (.passes _ _ _ rfl id (by simp) (.reads _ rfl rfl rfl))
  · cases p
    · exact absurd rfl hr
    · exact absurd rfl hs

/-- What is the case in every run, whatever is killed when. -/
structure Ready (stack : Mem) (s : State Party Unit) : Prop where
  todo : (s.procs .child).todo <:+ (program stack).child
  exits : Exits (s.procs .child)
  parted : Parted (program stack).parent (.writer ()) (s.procs .parent)

section Robust

variable {stack : Mem} {s t : State Party Unit}

theorem step_ready {a : Act Party} (hs : Ready stack s) (h : step s a = some t) :
    Ready stack t :=
  ⟨(step_shrinks h .child).todo.trans hs.todo, hs.exits.step h,
    hs.parted.step rfl List.mem_cons_self h⟩

/-- The child never waits, and when it has ended the parent does not either, since it
has closed its own writing end. -/
theorem goes_on (hs : Ready stack s) (hend : ¬ ∀ p, (s.procs p).todo = []) :
    ∃ p t, step s (.run p) = some t ∧ Ready stack t := by
  have hgo {p : Party} (h : ∃ t, step s (.run p) = some t) :
      ∃ p t, step s (.run p) = some t ∧ Ready stack t := by
    obtain ⟨t, ht⟩ := h
    exact ⟨p, t, ht, step_ready hs ht⟩
  cases hc : (s.procs .child).todo with
  | cons o rest =>
    refine hgo (can_run hc fun c n ho => ?_)
    have hmem := hs.todo.subset (hc ▸ List.mem_cons_self)
    simp [program, ho] at hmem
  | nil =>
    cases hp : (s.procs .parent).todo with
    | nil =>
      refine absurd (fun p => ?_) hend
      cases p
      · exact hp
      · exact hc
    | cons o rest =>
      refine hgo (can_run hp fun c n ho _ => ?_)
      rintro ⟨q, hq⟩
      cases q with
      | parent =>
        refine hs.parted.not_held (fun he => ?_) hq
        rw [hp, ho] at he
        cases he
      | child =>
        rw [hs.exits.held_eq hc] at hq
        cases hq

end Robust

/-- The parent prints the text if the child has written it and otherwise an empty one, if
anything, and both processes can come to their ends from every state. -/
structure Robust (s₀ : State Party Unit) : Prop where
  delivers : Delivers s₀ .child .parent () text []
  finishes : ∀ s, Reaches step free s₀ s →
    ∃ t, Reaches step Unkilled s t ∧ ∀ p, (t.procs p).todo = []

/-- Whatever is killed when. -/
theorem pipe_robust : Robust (initial buf) := by
  refine ⟨?_, fun s h => ?_⟩
  · have hd := (initial_private buf).delivers
    have hold : str (exchange buf).old 0 (exchange buf).size = [] := str_cleared _
    have htext :
        str (write (exchange buf).old 0 (exchange buf).text) 0 (exchange buf).size = text :=
      str_sendData _ _
    rwa [hold, htext] at hd
  · have hready : Ready (buf .child) s :=
      h.invariant ⟨List.suffix_refl _, .ahead ((program (buf .child)).child.take 3) rfl, .first rfl⟩
        fun _ _ _ hs _ ht => step_ready hs ht
    obtain ⟨t, ht, _, hg⟩ := reaches_goal (fun _ => goes_on) s hready
    exact ⟨t, ht, hg⟩

end LinuxExamples.PipeExample
