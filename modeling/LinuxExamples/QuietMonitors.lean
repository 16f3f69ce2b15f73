import LinuxExamples.SharedMemory
import LinuxExamples.UnnamedMonitor

namespace LinuxExamples.QuietMonitors

open Bytes Runs UnnamedMonitor

/-- Each of the three monitors reports every update that stays in place, as long as
none falls between a report's print and its copy; the first one that does is absorbed.
The unnamed monitor's line is looked at both for the fields printed from the record and
as a whole, with the semaphore's value. -/
theorem quiet_iff_undisturbed (api : SharedMemory.Api) (info junk : SharedMemory.DataInfo)
    (record : UnnamedSemaphore.DataInfo) (sval : Int) :
    Guards (SharedMemory.step api) (SharedMemory.Undisturbed api) (SharedMemory.Quiet api)
        (SharedMemory.recvStart info junk) ∧
      Guards step (Undisturbed Line.fields fields) (Quiet Line.fields fields) (start record sval) ∧
      Guards step (Undisturbed id wholeLine) (Quiet id wholeLine) (start record sval) :=
  ⟨SharedMemory.quiet_guards api info junk, quiet_guards Line.fields fields record sval,
    quiet_guards id wholeLine record sval⟩

/-- The message `b` arrives after the monitor has printed `a` and before it makes its copy. -/
def lateMessage : List SharedMemory.Act :=
  [.send [97], .tick, .tick, .send [98], .tick]

def blank : SharedMemory.DataInfo := ⟨0, fun _ => 0⟩

theorem late_message_absorbed :
    ¬ ∀ s, Reaches (SharedMemory.step .posix) free (SharedMemory.recvStart blank blank) s →
      SharedMemory.Quiet .posix s := by
  intro h
  let cleared := SharedMemory.clear blank
  let a := SharedMemory.posixSendMessage [97] cleared
  let b := SharedMemory.posixSendMessage [98] a
  have hr : run (SharedMemory.step .posix) (SharedMemory.recvStart blank blank) lateMessage =
      some ⟨.compare, b, SharedMemory.copyInfo cleared b, 1, [SharedMemory.line .posix a]⟩ := rfl
  have hsame := (SharedMemory.differs_eq_false_iff (SharedMemory.copyInfo cleared b) b).mpr
    (SharedMemory.fields_copyInfo cleared b)
  have ha : Holds a.message [97] := strcpy_holds _ (by decide)
  have hb : Holds b.message [98] := strcpy_holds _ (by decide)
  obtain hline | hline := h _ (run_reaches hr) rfl hsame
  · have htext := congrArg SharedMemory.Line.message (Option.some_injective _ hline)
    rw [SharedMemory.line, SharedMemory.line, ha.str_eq (by decide), hb.str_eq (by decide)] at htext
    exact absurd htext (by decide)
  · cases hline.1

end LinuxExamples.QuietMonitors
