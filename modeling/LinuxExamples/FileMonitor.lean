import LinuxExamples.Bytes
import LinuxExamples.Runs

namespace LinuxExamples.FileMonitor

open Bytes Runs

def MAX_BUF_LEN : Nat := 4096

/-- The offset of the field `Message`, behind the `int` in the field `size`. -/
def offsetMessage : Nat := 4

def sizeofDataInfo : Nat := offsetMessage + MAX_BUF_LEN

def lastByte : Nat := offsetMessage + (MAX_BUF_LEN - 1)

/-- The bytes of a nonnegative `int`, lowest first. -/
def intBytes (n : Nat) : List UInt8 := (List.range 4).map fun k => UInt8.ofNat (n / 256 ^ k)

def intOfBytes (bs : List UInt8) : Int :=
  (BitVec.ofNat 32 (bs.foldr (fun b n => b.toNat + 256 * n) 0)).toInt

/-- The argument of `do_send_data`, with room for its terminator in the field. -/
structure Message where
  bytes : List UInt8
  noNul : 0 ∉ bytes
  short : bytes.length < MAX_BUF_LEN

abbrev Store := Nat × List UInt8

/-- The stores of `strncpy`, one by one: the string, and zeros up to `n` bytes. -/
def strncpy (o : Nat) (s : List UInt8) (n : Nat) : List Store :=
  (List.range n).map fun i => (o + i, [s[i]?.getD 0])

def doSendData (m : Message) : List Store :=
  (0, intBytes sizeofPointer) :: strncpy offsetMessage m.bytes MAX_BUF_LEN

structure Line where
  size : Int
  message : List UInt8
  deriving DecidableEq

def line (m : Mem) : Line := ⟨intOfBytes (read m 0 4), str m offsetMessage MAX_BUF_LEN⟩

/-- The next step of `do_monitoring`, which stores to the shared record only before it makes
its first copy. An index is that of the next byte to be stored, copied or compared. -/
inductive Point where
  | storeSize | clear (i : Nat) | alloc | copy (i : Nat) | print | top | compare (i : Nat)
  deriving DecidableEq

/-- The monitor and the processes `ι` that send to it, each with the stores of its call that it
has still to make. The lines printed are listed latest first. -/
structure State (ι : Type) where
  buf : Mem
  tmpBuf : Mem
  point : Point
  senders : ι → List Store
  out : List Line

variable {ι : Type}

/-- The sizes that the loop compares at its top are those of two pointers. -/
def doMonitoring (s : State ι) : State ι :=
  match s.point with
  | .storeSize => { s with buf := write s.buf 0 (intBytes 0), point := .clear 0 }
  | .clear i =>
    { s with
      buf := write s.buf (offsetMessage + i) [0]
      point := if i + 1 = MAX_BUF_LEN then .alloc else .clear (i + 1) }
  | .alloc => { s with tmpBuf := memset s.tmpBuf sizeofDataInfo, point := .copy 0 }
  | .copy i =>
    { s with
      tmpBuf := write s.tmpBuf i [s.buf i]
      point := if i + 1 = sizeofDataInfo then .print else .copy (i + 1) }
  | .print => { s with out := line s.tmpBuf :: s.out, point := .top }
  | .top => { s with point := if sizeofPointer < sizeofPointer then .alloc else .compare 0 }
  | .compare i =>
    { s with
      point :=
        if s.tmpBuf i ≠ s.buf i then .copy 0
        else if i + 1 = sizeofDataInfo then .top
        else .compare (i + 1) }

inductive Act (ι : Type) where
  | monitor | send (p : ι) (m : Message) | store (p : ι)

variable [DecidableEq ι]

/-- A step of the monitor, a call of `do_send_data` by a process that has finished its last
one, or the next store of a call. -/
def step (s : State ι) : Act ι → Option (State ι)
  | .monitor => some (doMonitoring s)
  | .send p m =>
    if s.senders p = [] then
      some { s with senders := Function.update s.senders p (doSendData m) }
    else none
  | .store p =>
    match s.senders p with
    | [] => none
    | (o, bs) :: rest =>
      some { s with buf := write s.buf o bs, senders := Function.update s.senders p rest }

def start (ι : Type) (file junk : Mem) : State ι := ⟨file, junk, .storeSize, fun _ => [], []⟩

/-- A pass of `memcmp` is under way, and no process stores to the record. -/
def Pass (s : State ι) (a : Act ι) : Prop := (∃ i, s.point = .compare i) ∧ ∀ p, a ≠ .store p

def Terminated (m : Mem) : Prop := ∃ i < MAX_BUF_LEN, m (offsetMessage + i) = 0

/-- A store that leaves the last byte of the record alone or makes it a NUL. -/
def EndsRecord (x : Store) : Prop := x.1 + x.2.length ≤ lastByte ∨ x = (lastByte, [0])

def Point.cleared : Point → Bool
  | .storeSize | .clear _ => false
  | _ => true

def Point.copied : Point → Bool
  | .print | .top | .compare _ => true
  | _ => false

def Point.reported : Point → Bool
  | .top | .compare _ => true
  | _ => false

structure Inv (s : State ι) : Prop where
  senders : ∀ p, ∀ x ∈ s.senders p, EndsRecord x
  buf : s.point.cleared = true → s.buf lastByte = 0
  tmpBuf : s.point.copied = true → s.tmpBuf lastByte = 0
  out : s.point.reported = true → s.out.head? = some (line s.tmpBuf)

omit [DecidableEq ι] in
theorem start_inv (file junk : Mem) : Inv (start ι file junk) := by
  refine ⟨fun p x hx => ?_, fun h => ?_, fun h => ?_, fun h => ?_⟩
  · cases hx
  all_goals cases h

theorem EndsRecord.write {x : Store} (h : EndsRecord x) {m : Mem} (hm : m lastByte = 0) :
    write m x.1 x.2 lastByte = 0 := by
  obtain h | rfl := h
  · rw [write_apply_after m x.2 h, hm]
  · exact write_apply_at m [0] lastByte 0 Nat.one_pos

theorem doSendData_endsRecord (m : Message) : ∀ x ∈ doSendData m, EndsRecord x := by
  intro x hx
  obtain rfl | hx := List.mem_cons.mp hx
  · exact .inl (by decide)
  · obtain ⟨i, hi, rfl⟩ := List.mem_map.mp hx
    have hlt : i < MAX_BUF_LEN := List.mem_range.mp hi
    by_cases hl : i = MAX_BUF_LEN - 1
    · have hnone : m.bytes.length ≤ i := by
        have hs := m.short
        omega
      refine .inr ?_
      simp [hl, lastByte, List.getElem?_eq_none (hl ▸ hnone)]
    · refine .inl ?_
      simp only [lastByte, List.length_singleton]
      omega

omit [DecidableEq ι] in
theorem doMonitoring_keeps {s : State ι} (h : Inv s) : Inv (doMonitoring s) := by
  obtain ⟨buf, tmpBuf, point, senders, out⟩ := s
  cases point with
  | storeSize => refine ⟨h.senders, fun hc => ?_, fun hc => ?_, fun hc => ?_⟩ <;> cases hc
  | clear i =>
    by_cases hi : i + 1 = MAX_BUF_LEN
    · have hlast : offsetMessage + i = lastByte := by
        rw [lastByte, ← hi, Nat.add_sub_cancel]
      simp only [doMonitoring, hi, ↓reduceIte, hlast]
      refine ⟨h.senders, fun _ => write_apply_at buf [0] lastByte 0 Nat.one_pos, fun hc => ?_,
        fun hc => ?_⟩ <;> cases hc
    · simp only [doMonitoring, hi, ↓reduceIte]
      refine ⟨h.senders, fun hc => ?_, fun hc => ?_, fun hc => ?_⟩ <;> cases hc
  | alloc =>
    refine ⟨h.senders, fun _ => h.buf rfl, fun hc => ?_, fun hc => ?_⟩ <;> cases hc
  | copy i =>
    have hbuf := h.buf rfl
    by_cases hi : i + 1 = sizeofDataInfo
    · have hlast : i = lastByte := by
        have hsize : sizeofDataInfo = lastByte + 1 := rfl
        omega
      simp only [doMonitoring, hi, ↓reduceIte]
      refine ⟨h.senders, fun _ => hbuf, fun _ => ?_, fun hc => nomatch hc⟩
      rw [hlast]
      exact (write_apply_at tmpBuf [buf lastByte] lastByte 0 Nat.one_pos).trans hbuf
    · simp only [doMonitoring, hi, ↓reduceIte]
      refine ⟨h.senders, fun _ => hbuf, fun hc => ?_, fun hc => ?_⟩ <;> cases hc
  | print => exact ⟨h.senders, fun _ => h.buf rfl, fun _ => h.tmpBuf rfl, fun _ => rfl⟩
  | top => exact ⟨h.senders, fun _ => h.buf rfl, fun _ => h.tmpBuf rfl, fun _ => h.out rfl⟩
  | compare i =>
    have hbuf := h.buf rfl
    have htmp := h.tmpBuf rfl
    have hout := h.out rfl
    simp only [doMonitoring]
    split
    · refine ⟨h.senders, fun _ => hbuf, fun hc => ?_, fun hc => ?_⟩ <;> cases hc
    · split
      · exact ⟨h.senders, fun _ => hbuf, fun _ => htmp, fun _ => hout⟩
      · exact ⟨h.senders, fun _ => hbuf, fun _ => htmp, fun _ => hout⟩

theorem senders_update {s : State ι} (h : Inv s) (p : ι) {xs : List Store}
    (hxs : ∀ x ∈ xs, EndsRecord x) :
    ∀ q, ∀ x ∈ Function.update s.senders p xs q, EndsRecord x := by
  intro q x hx
  by_cases hq : q = p
  · subst hq
    rw [Function.update_self] at hx
    exact hxs x hx
  · rw [Function.update_of_ne hq] at hx
    exact h.senders q x hx

theorem step_keeps (s : State ι) (a : Act ι) (t : State ι) (h : Inv s) (ht : step s a = some t) :
    Inv t := by
  cases a with
  | monitor =>
    cases ht
    exact doMonitoring_keeps h
  | send p m =>
    simp only [step] at ht
    split at ht
    · cases ht
      exact ⟨senders_update h p (doSendData_endsRecord m), h.buf, h.tmpBuf, h.out⟩
    · cases ht
  | store p =>
    simp only [step] at ht
    split at ht
    · cases ht
    · rename_i o bs rest hp
      cases ht
      have hall := h.senders p
      rw [hp, List.forall_mem_cons] at hall
      exact ⟨senders_update h p hall.2, fun hc => hall.1.write (h.buf hc), h.tmpBuf, h.out⟩

theorem line_congr {m m' : Mem} (h : ∀ i < sizeofDataInfo, m i = m' i) : line m = line m' := by
  have hsize : offsetMessage + MAX_BUF_LEN = sizeofDataInfo := rfl
  have hint : read m 0 4 = read m' 0 4 :=
    read_congr fun i _ hi => h i (hi.trans (by decide))
  have htext : read m offsetMessage MAX_BUF_LEN = read m' offsetMessage MAX_BUF_LEN :=
    read_congr fun i _ hi => h i (by omega)
  rw [line, line, str_eq_takeWhile, str_eq_takeWhile, hint, htext]

/-- How far a pass over unchanging records has come. -/
def Compared (s : State ι) : Prop :=
  match s.point with
  | .compare i => ∀ j < i, s.tmpBuf j = s.buf j
  | .top => ∀ j < sizeofDataInfo, s.tmpBuf j = s.buf j
  | _ => True

theorem compared_keeps (s : State ι) (a : Act ι) (t : State ι) (h : Compared s) (hok : Pass s a)
    (ht : step s a = some t) : Compared t := by
  obtain ⟨⟨i, hi⟩, hno⟩ := hok
  simp only [Compared, hi] at h
  cases a with
  | store p => exact absurd rfl (hno p)
  | send p m =>
    simp only [step] at ht
    split at ht
    · cases ht
      simpa only [Compared, hi] using h
    · cases ht
  | monitor =>
    cases ht
    simp only [doMonitoring, hi]
    by_cases he : s.tmpBuf i = s.buf i
    · have hnext : ∀ j < i + 1, s.tmpBuf j = s.buf j := by
        intro j hj
        obtain hj | rfl := Nat.lt_succ_iff_lt_or_eq.mp hj
        · exact h j hj
        · exact he
      by_cases hl : i + 1 = sizeofDataInfo
      · simp only [Compared, he, ne_eq, not_true_eq_false, ↓reduceIte, hl]
        rwa [hl] at hnext
      · simpa only [Compared, he, ne_eq, not_true_eq_false, ↓reduceIte, hl] using hnext
    · simp only [Compared, ne_eq, he, not_false_eq_true, ↓reduceIte]

theorem Terminated.of_lastByte {m : Mem} (h : m lastByte = 0) : Terminated m :=
  ⟨MAX_BUF_LEN - 1, by decide, h⟩

/-- The last line printed shows the private copy, which is a well-terminated record. -/
def Reported (s : State ι) : Prop :=
  s.point = .top → s.out.head? = some (line s.tmpBuf) ∧ Terminated s.tmpBuf

omit [DecidableEq ι] in
theorem Inv.reported {s : State ι} (h : Inv s) : Reported s := by
  intro hp
  exact ⟨h.out (by rw [hp]; rfl), .of_lastByte (h.tmpBuf (by rw [hp]; rfl))⟩

/-- After an undisturbed pass that has found no difference the last line shows the file. -/
theorem Inv.pass {s t : State ι} (hi : Inv s) (hs : s.point = .compare 0)
    (h : Reaches step Pass s t) (ht : t.point = .top) :
    t.out.head? = some (line t.buf) ∧ Terminated t.buf := by
  have hcompared : Compared t := by
    apply h.invariant _ compared_keeps
    simp [Compared, hs]
  have hinv : Inv t := h.invariant hi fun s a t hi _ hst => step_keeps s a t hi hst
  simp only [Compared, ht] at hcompared
  refine ⟨?_, .of_lastByte (hinv.buf (by rw [ht]; rfl))⟩
  rw [← line_congr hcompared]
  exact (hinv.reported ht).1

/-- However the stores of the senders tear the copies and comparisons of the monitor, the last
line shows what it has copied, and the file once a pass over it is undisturbed. -/
theorem never_quiet (ι : Type) [DecidableEq ι] (file junk : Mem) :
    Always step Reported (start ι file junk) ∧
      ∀ s, Reaches step free (start ι file junk) s → s.point = .compare 0 →
        ∀ t, Reaches step Pass s t → t.point = .top →
          t.out.head? = some (line t.buf) ∧ Terminated t.buf := by
  refine ⟨.of_invariant Inv (start_inv file junk) step_keeps fun _ h => h.reported, ?_⟩
  intro s hs hp t ht htop
  have hi : Inv s :=
    hs.invariant (start_inv file junk) fun s a t hi _ hst => step_keeps s a t hi hst
  exact hi.pass hp ht htop

/-- How many bytes a pass has still to compare. -/
def Point.uncompared : Point → Nat
  | .compare i => sizeofDataInfo - i
  | _ => 0

/-- A pass ends at the top of the loop, or goes on to a copy where it finds a difference. -/
def Point.passed : Point → Prop
  | .compare _ => False
  | _ => True

/-- A pass is inside the record. -/
def Passing (s : State ι) : Prop := ∀ i, s.point = .compare i → i < sizeofDataInfo

theorem passing_keeps (s : State ι) (a : Act ι) (t : State ι) (h : Passing s)
    (ht : step s a = some t) : Passing t := by
  cases a with
  | send p m =>
    obtain ⟨_, ht⟩ := Option.ite_none_right_eq_some.mp ht
    cases ht
    exact h
  | store p =>
    simp only [step] at ht
    split at ht
    · cases ht
    · cases ht
      exact h
  | monitor =>
    cases ht
    intro i hi
    obtain ⟨buf, tmpBuf, point, senders, out⟩ := s
    cases point with
    | storeSize | alloc | print => cases hi
    | clear j | copy j =>
      simp only [doMonitoring] at hi
      split at hi <;> cases hi
    | top =>
      simp only [doMonitoring, Nat.lt_irrefl, ↓reduceIte] at hi
      cases hi
      decide
    | compare j =>
      have hj := h j rfl
      simp only [doMonitoring] at hi
      split at hi
      · cases hi
      · split at hi
        · cases hi
        · cases hi
          omega

/-- An undisturbed pass can always be finished by the monitor. -/
theorem pass_ends (file junk : Mem) : Always step (fun s : State ι => ∃ u,
    Reaches step Pass s u ∧ u.point.passed) (start ι file junk) := by
  refine .of_invariant Passing (fun i hi => by cases hi) passing_keeps fun s hs => ?_
  refine reaches_ok_of_measure (fun s => s.point.uncompared) (fun s (hs : Passing s) hp => ?_) s hs
  obtain ⟨i, hi⟩ : ∃ i, s.point = .compare i := by
    cases hq : s.point with
    | compare i => exact ⟨i, rfl⟩
    | storeSize | clear | alloc | copy | print | top =>
      rw [hq] at hp
      exact absurd trivial hp
  have hlt := hs i hi
  refine ⟨.monitor, _, ⟨⟨i, hi⟩, by simp⟩, rfl, passing_keeps s .monitor _ hs rfl, ?_⟩
  simp only [doMonitoring, hi]
  split
  · exact Nat.sub_pos_of_lt hlt
  · split
    · exact Nat.sub_pos_of_lt hlt
    · simp only [Point.uncompared]
      omega

end LinuxExamples.FileMonitor
