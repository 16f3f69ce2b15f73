import LinuxExamples.PollMonitor
import LinuxExamples.Records

namespace LinuxExamples.SharedMemory

open Bytes Runs PollMonitor

def PAGE_SIZE : Nat := 4096

def MONITORING_COUNT : Nat := 5

inductive Api where
  | posix | sysv
  deriving DecidableEq

structure DataInfo where
  size : Int
  message : Mem

def DataInfo.record (info : DataInfo) : Records.Record := (info.size, info.message)

def DataInfo.ofRecord (r : Records.Record) : DataInfo := ⟨r.1, r.2⟩

theorem DataInfo.record_ofRecord (r : Records.Record) : (DataInfo.ofRecord r).record = r := rfl

/-- A line of a monitor. The text is what `%s` shows of the field `message`; it
stops at the end of the field also where a record has no terminator. -/
structure Line where
  api : Api
  size : Int
  message : List UInt8
  deriving DecidableEq

def clear (info : DataInfo) : DataInfo := .ofRecord (Records.cleared PAGE_SIZE info.record)

def differs (a b : DataInfo) : Bool := Records.memcmp PAGE_SIZE a.record b.record

def copyInfo (dst src : DataInfo) : DataInfo :=
  .ofRecord (Records.memcpy PAGE_SIZE dst.record src.record)

def posixSendMessage (message : List UInt8) (info : DataInfo) : DataInfo :=
  ⟨sizeofPointer, strcpy info.message message⟩

def sysvGenInfo (info : DataInfo) : DataInfo := clear info

def sysSendMessage (message : List UInt8) (info : DataInfo) : DataInfo :=
  let info := sysvGenInfo info
  ⟨sizeofPointer, strcpy info.message message⟩

def sendMessage : Api → List UInt8 → DataInfo → DataInfo
  | .posix => posixSendMessage
  | .sysv => sysSendMessage

structure Monitor where
  phase : Phase
  info : DataInfo
  loc : DataInfo
  n : Nat
  out : List Line

def line (api : Api) (info : DataInfo) : Line := ⟨api, info.size, str info.message 0 PAGE_SIZE⟩

/-- The monitor at the top of its loop, after it has cleared both records. -/
def recvStart (info junk : DataInfo) : Monitor := ⟨.compare, clear info, clear junk, 0, []⟩

/-- One of the steps compare, print and copy of a monitor that labels its lines `api`. -/
def recvLoop (api : Api) (s : Monitor) : Monitor :=
  match s.phase with
  | .compare => if differs s.loc s.info then { s with phase := .print } else s
  | .print => { s with phase := .copy, out := line api s.info :: s.out }
  | .copy =>
    { s with
      phase := if s.n + 1 = MONITORING_COUNT then .done else .compare
      loc := copyInfo s.loc s.info
      n := s.n + 1 }
  | .done => s

def posixRecvMessage : Monitor → Monitor := recvLoop .posix

def sysvRecvMessage : Monitor → Monitor := recvLoop .sysv

def recvMessage : Api → Monitor → Monitor
  | .posix => posixRecvMessage
  | .sysv => sysvRecvMessage

inductive Act where
  | tick | send (message : List UInt8)

def Monitor.sent (api : Api) (m : List UInt8) (s : Monitor) : Monitor :=
  { s with info := sendMessage api m s.info }

/-- A monitor step, or the whole update of a sender, in one atomic step. -/
def step (api : Api) (s : Monitor) : Act → Option Monitor
  | .tick => if s.phase = .done then none else some (recvMessage api s)
  | .send m => some (s.sent api m)

theorem recvMessage_eq (api : Api) (s : Monitor) : recvMessage api s = recvLoop api s := by
  cases api <;> rfl

def fields (info : DataInfo) : Int × List UInt8 := Records.fields PAGE_SIZE info.record

def zero : Int × List UInt8 := Records.zero PAGE_SIZE

def view (api : Api) (f : Int × List UInt8) : Line := ⟨api, f.1, f.2.takeWhile (· ≠ 0)⟩

theorem line_eq (api : Api) (info : DataInfo) : line api info = view api (fields info) := by
  rw [line, str_eq_takeWhile]
  rfl

theorem differs_iff (a b : DataInfo) : differs a b ↔ fields a ≠ fields b :=
  Records.memcmp_iff PAGE_SIZE _ _

theorem differs_eq_false_iff (a b : DataInfo) : differs a b = false ↔ fields a = fields b :=
  Records.memcmp_eq_false_iff PAGE_SIZE _ _

theorem fields_copyInfo (dst src : DataInfo) : fields (copyInfo dst src) = fields src := by
  rw [fields, copyInfo, DataInfo.record_ofRecord, Records.fields_memcpy, fields]

theorem fields_clear (info : DataInfo) : fields (clear info) = zero := by
  rw [fields, clear, DataInfo.record_ofRecord, Records.fields_cleared, zero]

def abstract (s : Monitor) : State (Int × List UInt8) Line :=
  ⟨s.phase, fields s.info, fields s.loc, s.n, s.out⟩

def abstractAct (api : Api) (s : Monitor) : Act → PollMonitor.Act (Int × List UInt8) Line
  | .tick => .tick (view api (fields s.info))
  | .send m => .update (fields (sendMessage api m s.info))

theorem abstract_start (info junk : DataInfo) :
    abstract (recvStart info junk) = start zero zero := by
  simp only [abstract, recvStart, start, fields_clear]

theorem abstract_tick (api : Api) (s : Monitor) : abstract (recvMessage api s) =
    tick MONITORING_COUNT (view api (fields s.info)) (abstract s) := by
  obtain ⟨phase, info, loc, n, out⟩ := s
  rw [recvMessage_eq]
  cases phase with
  | compare =>
    by_cases h : fields loc = fields info
    · have hd := (differs_eq_false_iff loc info).mpr h
      simp [recvLoop, tick, abstract, hd, h]
    · simp [recvLoop, tick, abstract, (differs_iff loc info).mpr h, h]
  | print => simp only [recvLoop, tick, abstract, line_eq]
  | copy =>
    simp only [recvLoop, tick, abstract, fields_copyInfo]
    rfl
  | done => rfl

/-- The byte-level monitor and the abstract one move in lock step. -/
theorem abstract_step (api : Api) (s : Monitor) (a : Act) :
    PollMonitor.step MONITORING_COUNT (abstract s) (abstractAct api s a) =
      (step api s a).map abstract := by
  cases a with
  | tick =>
    by_cases hp : s.phase = .done
    · simp [PollMonitor.step, abstractAct, step, abstract, hp]
    · have ha : (abstract s).phase ≠ .done := hp
      simp [PollMonitor.step, abstractAct, step, hp, ha, abstract_tick]
  | send m => rfl

/-- The last line shows the record whenever the monitor would stay quiet. -/
def Quiet (api : Api) (s : Monitor) : Prop :=
  s.phase = .compare → differs s.loc s.info = false →
    s.out.head? = some (line api s.info) ∨ (s.out = [] ∧ fields s.info = zero)

/-- No message that changes the line falls between a print and its copy,
unless the monitor leaves its loop after that copy. -/
def Undisturbed (api : Api) (s : Monitor) : Act → Prop
  | .tick => True
  | .send m => s.phase = .copy → s.n + 1 ≠ MONITORING_COUNT →
      line api (sendMessage api m s.info) = line api s.info

theorem quiet_iff (api : Api) (s : Monitor) :
    Quiet api s ↔ PollMonitor.Quiet (view api) zero (abstract s) := by
  simp only [Quiet, PollMonitor.Quiet, abstract, differs_eq_false_iff, line_eq]

theorem undisturbed_iff (api : Api) (s : Monitor) (a : Act) :
    Undisturbed api s a ↔
      PollMonitor.Undisturbed (view api) MONITORING_COUNT (abstract s) (abstractAct api s a) := by
  cases a with
  | tick => exact iff_of_true trivial fun _ _ => rfl
  | send m => simp only [Undisturbed, PollMonitor.Undisturbed, abstractAct, abstract, line_eq]

/-- Every undisturbed run of the code is an undisturbed run of the abstract monitor. -/
theorem abstract_reaches (api : Api) {s t : Monitor}
    (h : Reaches (step api) (Undisturbed api) s t) :
    Reaches (PollMonitor.step MONITORING_COUNT)
      (PollMonitor.Undisturbed (view api) MONITORING_COUNT) (abstract s) (abstract t) := by
  obtain ⟨x, hx, rfl⟩ := h.simulates (fun s x => abstract s = x) rfl fun s a t x hs hok ht => by
    have hstep := abstract_step api s a
    rw [ht, hs] at hstep
    have ha := (undisturbed_iff api s a).mp hok
    rw [hs] at ha
    exact ⟨abstract t, .single ha hstep, rfl⟩
  exact hx

theorem undisturbed_inv (api : Api) {info junk : DataInfo} {s : Monitor}
    (h : Reaches (step api) (Undisturbed api) (recvStart info junk) s) :
    PollMonitor.Inv (view api) MONITORING_COUNT zero (abstract s) := by
  have ha := abstract_reaches api h
  rw [abstract_start] at ha
  exact PollMonitor.undisturbed_inv _ _ _ ha

/-- The first disturbing message goes unreported once the copy is made. -/
theorem disturbed_breaks (api : Api) {s t : Monitor} {a : Act}
    (hs : PollMonitor.Inv (view api) MONITORING_COUNT zero (abstract s))
    (ht : step api s a = some t) (ha : ¬ Undisturbed api s a) :
    ∃ u, Reaches (step api) free t u ∧ ¬ Quiet api u := by
  have hstep := abstract_step api s a
  rw [ht, Option.map_some] at hstep
  rw [undisturbed_iff] at ha
  obtain ⟨hp, hq⟩ := disturbed_absorbs (view api) MONITORING_COUNT zero hs hstep ha
  have hp' : t.phase = .copy := hp
  have hnext : step api t .tick = some (recvMessage api t) := by simp [step, hp']
  refine ⟨recvMessage api t, .single trivial hnext, ?_⟩
  rw [quiet_iff, abstract_tick]
  exact hq _

theorem quiet_guards (api : Api) (info junk : DataInfo) :
    Guards (step api) (Undisturbed api) (Quiet api) (recvStart info junk) :=
  ⟨fun _ h => (quiet_iff api _).mpr (undisturbed_inv api h).quiet,
    fun _ _ _ h ht ha => disturbed_breaks api (undisturbed_inv api h) ht ha⟩

end LinuxExamples.SharedMemory
