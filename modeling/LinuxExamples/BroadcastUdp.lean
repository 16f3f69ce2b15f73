import LinuxExamples.Bytes

namespace LinuxExamples.BroadcastUdp

open Bytes

def quit : List UInt8 := ascii ['q', 'u', 'i', 't']

def newline : UInt8 := 10

/-- A typed line that a `read` of the input returns, with the newline behind its text. -/
structure Line (BUFSIZ : Nat) where
  text : List UInt8
  noNul : 0 ∉ text
  short : text.length + 1 < BUFSIZ

def Line.bytes {BUFSIZ : Nat} (l : Line BUFSIZ) : List UInt8 := l.text ++ [newline]

/-- A datagram, and whether the broadcaster leaves its loop after sending it. -/
structure Sent where
  payload : List UInt8
  left : Bool

/-- The two programs store at the end of a text what the conversion of a pointer to `char`
yields: `v` in the broadcaster and `w` in the reader. A string that is not terminated is
read up to `past` bytes past its buffer. -/
structure Setting (BUFSIZ : Nat) where
  v : UInt8
  w : UInt8
  past : Nat

variable {BUFSIZ : Nat} (e : Setting BUFSIZ)

/-- The broadcaster's buffer after it has stored its terminator. -/
def typed (sndBuffer : Mem) (l : Line BUFSIZ) : Mem :=
  let n := l.bytes.length
  write (write sndBuffer 0 l.bytes) (n - 1) [e.v]

def send (sndBuffer : Mem) : Sent :=
  let strlen := (str sndBuffer 0 (BUFSIZ + e.past)).length
  ⟨read sndBuffer 0 strlen, strneq sndBuffer 0 quit⟩

/-- The loop of `broadcster_udp`, on the lines typed. -/
def broadcaster : Mem → List (Line BUFSIZ) → List Sent
  | _, [] => []
  | sndBuffer, l :: ls =>
    let sndBuffer := typed e sndBuffer l
    let s := send e sndBuffer
    if s.left then [s] else s :: broadcaster sndBuffer ls

def received (rcvBuffer : Mem) (d : List UInt8) : Mem :=
  let n := (d.take BUFSIZ).length
  write (write rcvBuffer 0 (d.take BUFSIZ)) n [e.w]

def printed (rcvBuffer : Mem) : List UInt8 := str rcvBuffer 0 (BUFSIZ + e.past)

/-- The loop of `reader_udp`, on the datagrams sent: what it prints for each, or `none` when
it leaves. -/
def reader : Mem → List (List UInt8) → List (Option (List UInt8))
  | _, [] => []
  | rcvBuffer, d :: ds =>
    let rcvBuffer := received e rcvBuffer d
    if strneq rcvBuffer 0 quit then [none] else some (printed e rcvBuffer) :: reader rcvBuffer ds

/-- For each datagram the reader prints the line typed, or both leave their loops. -/
def Law (sndBuffer rcvBuffer : Mem) (ls : List (Line BUFSIZ)) : Prop :=
  let sent := broadcaster e sndBuffer ls
  reader e rcvBuffer (sent.map fun s => s.payload) =
    List.zipWith (fun s l => if s.left then none else some l.text) sent ls

/-- The first line makes the broadcaster leave at once: with the byte stored in place of its
newline and the initial contents behind it, it starts with `quit`. -/
def QuitsAtOnce (sndBuffer : Mem) (ls : List (Line BUFSIZ)) : Prop :=
  ∃ l rest, ls = l :: rest ∧ read (write sndBuffer 0 (l.text ++ [e.v])) 0 quit.length = quit

theorem quit_noNul : 0 ∉ quit := by decide

theorem typed_eq (sndBuffer : Mem) (l : Line BUFSIZ) :
    typed e sndBuffer l = write sndBuffer 0 (l.text ++ [e.v]) := by
  have hn : l.bytes.length - 1 = l.text.length := by
    rw [Line.bytes, List.length_append, List.length_singleton, Nat.add_sub_cancel]
  have hover (m : Mem) (o : Nat) : write (write m o [newline]) o [e.v] = write m o [e.v] :=
    write_write m o _ _ le_rfl
  simp only [typed, hn]
  rw [Line.bytes, write_append, write_append, Nat.zero_add, hover]

theorem received_eq (rcvBuffer : Mem) (d : List UInt8) :
    received e rcvBuffer d = write rcvBuffer 0 (d.take BUFSIZ ++ [e.w]) := by
  rw [received, write_append, Nat.zero_add]

theorem send_payload (sndBuffer : Mem) :
    (send e sndBuffer).payload = str sndBuffer 0 (BUFSIZ + e.past) := read_str _ _ _

variable {e} {sndBuffer rcvBuffer snd rcv : Mem} {l : Line BUFSIZ} {ls : List (Line BUFSIZ)}

/-- The last round of the broadcaster. -/
theorem law_leave (hsnd : typed e sndBuffer l = snd)
    (hrcv : received e rcvBuffer (send e snd).payload = rcv) (hq : strneq snd 0 quit = true) :
    Law e sndBuffer rcvBuffer (l :: ls) ↔ strneq rcv 0 quit = true := by
  have hleft : (send e snd).left = true := hq
  simp only [Law, broadcaster, hsnd, hleft, ↓reduceIte, List.map_cons, List.map_nil, reader, hrcv,
    List.zipWith_cons_cons, List.zipWith_nil_left]
  by_cases hr : strneq rcv 0 quit = true <;> simp [hr]

theorem law_stay (hsnd : typed e sndBuffer l = snd)
    (hrcv : received e rcvBuffer (send e snd).payload = rcv) (hq : strneq snd 0 quit = false) :
    Law e sndBuffer rcvBuffer (l :: ls) ↔
      strneq rcv 0 quit = false ∧ printed e rcv = l.text ∧ Law e snd rcv ls := by
  have hleft : (send e snd).left = false := hq
  simp only [Law, broadcaster, hsnd, hleft, Bool.false_eq_true, ↓reduceIte, List.map_cons, reader,
    hrcv, List.zipWith_cons_cons]
  by_cases hr : strneq rcv 0 quit = true <;> simp [hr]

theorem law_of_nul (hv : e.v = 0) (hw : e.w = 0) (sndBuffer rcvBuffer : Mem)
    (ls : List (Line BUFSIZ)) : Law e sndBuffer rcvBuffer ls := by
  induction ls generalizing sndBuffer rcvBuffer with
  | nil => rfl
  | cons l ls ih =>
    have hshort := l.short
    have hsnd : Holds (typed e sndBuffer l) l.text := by
      rw [typed_eq, hv]
      exact strcpy_holds _ l.noNul
    have hd : (send e (typed e sndBuffer l)).payload = l.text := by
      rw [send_payload, hsnd.str_eq (by omega)]
    have hrcv : Holds (received e rcvBuffer l.text) l.text := by
      rw [received_eq, hw, List.take_of_length_le (by omega)]
      exact strcpy_holds _ l.noNul
    rw [← congrArg (received e rcvBuffer) hd] at hrcv
    have hsame := (hrcv.strneq_iff quit_noNul).trans (hsnd.strneq_iff quit_noNul).symm
    cases hq : strneq (typed e sndBuffer l) 0 quit with
    | true => exact (law_leave rfl rfl hq).mpr (hsame.mpr hq)
    | false =>
      refine (law_stay rfl rfl hq).mpr ⟨?_, hrcv.str_eq (by omega), ih _ _⟩
      rw [← Bool.not_eq_true, hsame, hq]
      exact Bool.false_ne_true

/-- What begins the bytes that the reader stores begins the text that it prints. -/
theorem prefix_printed (rcvBuffer : Mem) {d p : List UInt8} (hp : 0 ∉ p)
    (hd : p <+: d.take BUFSIZ ++ [e.w]) (hn : p.length ≤ BUFSIZ) :
    read (received e rcvBuffer d) 0 p.length = p ∧ p <+: printed e (received e rcvBuffer d) := by
  have hr : read (received e rcvBuffer d) 0 p.length = p := by
    rw [received_eq]
    apply read_prefix (n := (d.take BUFSIZ ++ [e.w]).length)
    rwa [read_write]
  exact ⟨hr, prefix_str hp hr (hn.trans (Nat.le_add_right _ _))⟩

theorem law_of_quit (hB : 256 ≤ BUFSIZ) (hq : QuitsAtOnce e sndBuffer ls) :
    Law e sndBuffer rcvBuffer ls := by
  obtain ⟨l, rest, rfl, hq⟩ := hq
  rw [← typed_eq] at hq
  have hlen : quit.length = 4 := rfl
  have hd : quit <+: (send e (typed e sndBuffer l)).payload := by
    rw [send_payload]
    exact prefix_str quit_noNul hq (by omega)
  have htake : quit <+: (send e (typed e sndBuffer l)).payload.take BUFSIZ :=
    List.prefix_take_iff.mpr ⟨hd, by omega⟩
  have hr := (prefix_printed rcvBuffer quit_noNul
    (htake.trans (List.prefix_append _ [e.w])) (by omega)).1
  exact (law_leave rfl rfl ((strneq_iff _ _ _).mpr hq)).mpr ((strneq_iff _ _ _).mpr hr)

/-- Otherwise a byte other than NUL shows in the first text that the reader prints. -/
theorem nul_of_law (hl : Law e sndBuffer rcvBuffer (l :: ls))
    (hq : strneq (typed e sndBuffer l) 0 quit = false) : e.v = 0 ∧ e.w = 0 := by
  obtain ⟨_, htext, _⟩ := (law_stay rfl rfl hq).mp hl
  have hshort := l.short
  have hshown (p : List UInt8) (hp : 0 ∉ p) (hlen : p.length = l.text.length + 1)
      (hd : p <+: (send e (typed e sndBuffer l)).payload.take BUFSIZ ++ [e.w]) : False := by
    have hle := (prefix_printed rcvBuffer hp hd (by omega)).2.length_le
    rw [htext, hlen] at hle
    omega
  have hnoNul (c : UInt8) (hc : c ≠ 0) : 0 ∉ l.text ++ [c] := by
    simp [l.noNul, hc.symm]
  by_cases hv : e.v = 0
  · refine ⟨hv, ?_⟩
    by_contra hw
    have hsnd : Holds (typed e sndBuffer l) l.text := by
      rw [typed_eq, hv]
      exact strcpy_holds _ l.noNul
    have hd : (send e (typed e sndBuffer l)).payload.take BUFSIZ = l.text := by
      rw [send_payload, hsnd.str_eq (by omega), List.take_of_length_le (by omega)]
    exact hshown (l.text ++ [e.w]) (hnoNul _ hw) (by simp) (by rw [hd])
  · exfalso
    have hr : read (typed e sndBuffer l) 0 (l.text ++ [e.v]).length = l.text ++ [e.v] := by
      rw [typed_eq, read_write]
    have hlen : (l.text ++ [e.v]).length = l.text.length + 1 := by simp
    have hd : l.text ++ [e.v] <+: (send e (typed e sndBuffer l)).payload := by
      rw [send_payload]
      exact prefix_str (hnoNul _ hv) hr (by omega)
    have htake : l.text ++ [e.v] <+: (send e (typed e sndBuffer l)).payload.take BUFSIZ :=
      List.prefix_take_iff.mpr ⟨hd, by omega⟩
    exact hshown _ (hnoNul _ hv) hlen (htake.trans (List.prefix_append _ _))

/-- Reader and broadcaster agree on all lines if and only if both conversions yield a NUL, or
the first line ends both loops before their bytes matter. -/
theorem law_iff_terminated (hB : 256 ≤ BUFSIZ) (e : Setting BUFSIZ) (sndBuffer rcvBuffer : Mem)
    (ls : List (Line BUFSIZ)) : Law e sndBuffer rcvBuffer ls ↔
      ls = [] ∨ (e.v = 0 ∧ e.w = 0) ∨ QuitsAtOnce e sndBuffer ls := by
  constructor
  · intro h
    cases ls with
    | nil => exact .inl rfl
    | cons l ls =>
      cases hq : strneq (typed e sndBuffer l) 0 quit with
      | true =>
        rw [strneq_iff, typed_eq] at hq
        exact .inr (.inr ⟨l, ls, rfl, hq⟩)
      | false => exact .inr (.inl (nul_of_law h hq))
  · rintro (rfl | ⟨hv, hw⟩ | hq)
    · rfl
    · exact law_of_nul hv hw _ _ _
    · exact law_of_quit hB hq

def quitLine : Line 8192 := ⟨quit, by decide, by decide⟩

def oneLetter : Line 8192 := ⟨ascii ['h'], by decide, by decide⟩

theorem quitLine_agrees : Law ⟨1, 1, 0⟩ (fun _ => 0) (fun _ => 0) [quitLine] :=
  (law_iff_terminated (by decide) _ _ _ _).mpr
    (.inr (.inr ⟨quitLine, [], rfl, by decide⟩))

/-- With other bytes than NUL the reader prints a byte more than the line typed. -/
theorem oneLetter_disagrees : ¬ Law ⟨1, 1, 0⟩ (fun _ => 0) (fun _ => 0) [oneLetter] := by
  intro h
  have hv := (nul_of_law h (by decide)).1
  exact absurd hv (by decide)

end LinuxExamples.BroadcastUdp
