import LinuxExamples.SharedMemory

namespace LinuxExamples.SharedReports

open Bytes Runs PollMonitor SharedMemory

/-- A message argument that fits the field `message` with its terminator. -/
structure Message where
  bytes : List UInt8
  noNul : 0 ∉ bytes
  short : bytes.length < PAGE_SIZE

/-- A whole iteration of the monitor's loop with no send in between. -/
def poll (api : Api) (s : Monitor) : Monitor :=
  let t := recvMessage api s
  if t.phase = .print then recvMessage api (recvMessage api t) else t

/-- Send each message and poll at least once before the next one; the number
beside a message counts the further polls. -/
def conduct (api : Api) : Monitor → List (Message × Nat) → Monitor
  | s, [] => s
  | s, (m, k) :: rest => conduct api ((poll api)^[k + 1] (s.sent api m.bytes)) rest

theorem poll_reaches (api : Api) (s : Monitor) : Reaches (step api) free s (poll api s) := by
  have tick (u : Monitor) : Reaches (step api) free u (recvMessage api u) := by
    by_cases hp : u.phase = .done
    · have hu : recvMessage api u = u := by
        rw [recvMessage_eq]
        simp only [recvLoop, hp]
      rw [hu]
      exact .refl u
    · have hu : step api u .tick = some (recvMessage api u) := if_neg hp
      exact .single trivial hu
  simp only [poll]
  split
  · exact (tick s).trans ((tick _).trans (tick _))
  · exact tick s

/-- The texts reported, in order, when the receiver polls `k` times before the first send. -/
def reports (api : Api) (info junk : DataInfo) (k : Nat) (sched : List (Message × Nat)) :
    List (List UInt8) :=
  (conduct api ((poll api)^[k] (recvStart info junk)) sched).out.reverse.map fun l => l.message

/-- The record after sending `m`. Only the SysV sender clears what lies behind the terminator. -/
structure Stored (api : Api) (m : Message) (info : DataInfo) : Prop where
  size : info.size = sizeofPointer
  holds : Holds info.message m.bytes
  tail : api = .sysv → ∀ i, m.bytes.length ≤ i → i < PAGE_SIZE → info.message i = 0

theorem stored_send (api : Api) (m : Message) (info : DataInfo) :
    Stored api m (sendMessage api m.bytes info) := by
  cases api with
  | posix => exact ⟨rfl, strcpy_holds _ m.noNul, fun h => by cases h⟩
  | sysv =>
    have hm := strcpy_holds (memset info.message PAGE_SIZE) m.noNul
    refine ⟨rfl, hm, fun _ i hlo hhi => ?_⟩
    by_cases hi : i = m.bytes.length
    · rw [hi]
      exact hm.nul
    · have hlen : 0 + (m.bytes ++ [0]).length ≤ i := by
        rw [List.length_append, List.length_singleton]
        omega
      exact (write_apply_after _ _ hlen).trans (memset_apply _ hhi)

/-- Sending the message that is already there changes no byte of the record. -/
theorem resend_same {api : Api} {m : Message} {info : DataInfo} (h : Stored api m info) :
    fields (sendMessage api m.bytes info) = fields info := by
  have hs := stored_send api m info
  have hr : read (sendMessage api m.bytes info).message 0 PAGE_SIZE =
      read info.message 0 PAGE_SIZE := by
    cases api with
    | posix => exact congrArg (fun b => read b 0 PAGE_SIZE) (strcpy_of_holds h.holds)
    | sysv =>
      apply read_congr
      intro i _ hi
      rw [Nat.zero_add] at hi
      by_cases hm : i < m.bytes.length
      · have he := read_eq_congr (hs.holds.bytes.trans h.holds.bytes.symm) hm
        rwa [Nat.zero_add] at he
      · rw [hs.tail rfl i (Nat.le_of_not_lt hm) hi, h.tail rfl i (Nat.le_of_not_lt hm) hi]
  simp only [fields, Records.fields, DataInfo.record, hr, hs.size, h.size]

theorem stored_text {api : Api} {m : Message} {info : DataInfo} (h : Stored api m info) :
    (line api info).message = m.bytes :=
  h.holds.str_eq m.short.le

theorem send_changes {api : Api} {a m : Message} {info : DataInfo} (h : Stored api a info)
    (hne : a.bytes ≠ m.bytes) : fields (sendMessage api m.bytes info) ≠ fields info := by
  intro he
  have hline : line api (sendMessage api m.bytes info) = line api info := by
    rw [line_eq, line_eq, he]
  have ht := congrArg (fun l => l.message) hline
  rw [stored_text (stored_send api m info), stored_text h] at ht
  exact hne ht.symm

/-- The first message changes even an empty record, since it sets the size. -/
theorem send_changes_zero {api : Api} (m : Message) {info : DataInfo} (h : fields info = zero) :
    fields (sendMessage api m.bytes info) ≠ fields info := by
  intro he
  have hz := congrArg Prod.fst (he.trans h)
  have hs := (stored_send api m info).size
  change (sendMessage api m.bytes info).size = 0 at hz
  rw [hs] at hz
  exact absurd hz (by decide)

/-- A monitor that has reported the texts `rs`, as far as it reports at all,
and has nothing left to report. -/
structure Reported (s : Monitor) (rs : List (List UInt8)) : Prop where
  texts : s.out.reverse.map (fun l => l.message) = rs.take MONITORING_COUNT
  n : s.n = min rs.length MONITORING_COUNT
  phase : s.phase = if rs.length < MONITORING_COUNT then .compare else .done
  synced : s.phase = .compare → fields s.loc = fields s.info

theorem poll_quiet (api : Api) {s : Monitor} (hp : s.phase = .compare ∨ s.phase = .done)
    (hs : s.phase = .compare → fields s.loc = fields s.info) : poll api s = s := by
  have ht : recvMessage api s = s := by
    rw [recvMessage_eq]
    cases hp with
    | inl hp =>
      have hd := (differs_eq_false_iff s.loc s.info).mpr (hs hp)
      simp [recvLoop, hp, hd]
    | inr hp => simp [recvLoop, hp]
  have hne : s.phase ≠ .print := by
    cases hp with
    | inl hp => simp [hp]
    | inr hp => simp [hp]
  simp only [poll, ht, hne, ↓reduceIte]

theorem poll_report (api : Api) {s : Monitor} (hp : s.phase = .compare)
    (hd : fields s.loc ≠ fields s.info) :
    poll api s = ⟨if s.n + 1 = MONITORING_COUNT then .done else .compare, s.info,
      copyInfo s.loc s.info, s.n + 1, line api s.info :: s.out⟩ := by
  simp only [poll, recvMessage_eq, recvLoop, hp, (differs_iff _ _).mpr hd, ↓reduceIte]

theorem Reported.polls {s : Monitor} {rs : List (List UInt8)} (h : Reported s rs) (api : Api)
    (k : Nat) : (poll api)^[k] s = s := by
  have hp : s.phase = .compare ∨ s.phase = .done := by
    rw [h.phase]
    split
    · exact .inl rfl
    · exact .inr rfl
  exact Function.iterate_fixed (poll_quiet api hp h.synced) k

theorem Reported.send_same {api : Api} {s : Monitor} {rs : List (List UInt8)} {m : Message}
    (h : Reported s rs) (hm : Stored api m s.info) (k : Nat) :
    Reported ((poll api)^[k + 1] (s.sent api m.bytes)) rs ∧
      ((poll api)^[k + 1] (s.sent api m.bytes)).info = sendMessage api m.bytes s.info := by
  have hr : Reported (s.sent api m.bytes) rs :=
    ⟨h.texts, h.n, h.phase, fun hp => (h.synced hp).trans (resend_same hm).symm⟩
  rw [hr.polls]
  exact ⟨hr, rfl⟩

theorem Reported.report {api : Api} {s : Monitor} {rs : List (List UInt8)} {m : Message}
    (h : Reported s rs) (hm : fields (sendMessage api m.bytes s.info) ≠ fields s.info)
    (hl : rs.length < MONITORING_COUNT) :
    Reported (poll api (s.sent api m.bytes)) (rs ++ [m.bytes]) ∧
      (poll api (s.sent api m.bytes)).info = sendMessage api m.bytes s.info := by
  have hphase := h.phase
  rw [if_pos hl] at hphase
  have hd : fields (s.sent api m.bytes).loc ≠ fields (s.sent api m.bytes).info := by
    change fields s.loc ≠ fields (sendMessage api m.bytes s.info)
    rw [h.synced hphase]
    exact hm.symm
  have hlen : (rs ++ [m.bytes]).length = s.n + 1 := by
    rw [List.length_append, List.length_singleton, h.n, min_eq_left hl.le]
  have hle : s.n + 1 ≤ MONITORING_COUNT := by
    rw [h.n, min_eq_left hl.le]
    exact hl
  rw [poll_report api (s := s.sent api m.bytes) hphase hd]
  refine ⟨⟨?_, ?_, ?_, fun _ => fields_copyInfo _ _⟩, rfl⟩
  · have htext : (line api (s.sent api m.bytes).info).message = m.bytes :=
      stored_text (stored_send api m s.info)
    have ho := h.texts
    rw [List.take_of_length_le hl.le] at ho
    rw [List.take_of_length_le (hlen.trans_le hle), List.reverse_cons, List.map_append,
      List.map_singleton, htext]
    exact congrArg (· ++ [m.bytes]) ho
  · rw [hlen]
    exact (min_eq_left hle).symm
  · change (if s.n + 1 = MONITORING_COUNT then Phase.done else Phase.compare) =
      if (rs ++ [m.bytes]).length < MONITORING_COUNT then .compare else .done
    rw [hlen]
    by_cases hfull : s.n + 1 = MONITORING_COUNT
    · rw [if_pos hfull, if_neg hfull.not_lt]
    · rw [if_neg hfull, if_pos (lt_of_le_of_ne hle hfull)]

theorem Reported.ignore {api : Api} {s : Monitor} {rs : List (List UInt8)} (h : Reported s rs)
    (m : Message) (hl : ¬ rs.length < MONITORING_COUNT) :
    Reported (s.sent api m.bytes) (rs ++ [m.bytes]) := by
  have hphase := h.phase
  rw [if_neg hl] at hphase
  have hl' : ¬ (rs ++ [m.bytes]).length < MONITORING_COUNT := by
    rw [List.length_append]
    omega
  refine ⟨?_, ?_, ?_, fun hp => ?_⟩
  · rw [List.take_append_of_le_length (Nat.le_of_not_lt hl)]
    exact h.texts
  · rw [min_eq_right (Nat.le_of_not_lt hl'), ← min_eq_right (Nat.le_of_not_lt hl)]
    exact h.n
  · rw [if_neg hl']
    exact hphase
  · exact absurd (hphase.symm.trans hp) (by simp)

theorem Reported.send_new {api : Api} {s : Monitor} {rs : List (List UInt8)} {m : Message}
    (h : Reported s rs) (hm : fields (sendMessage api m.bytes s.info) ≠ fields s.info) (k : Nat) :
    Reported ((poll api)^[k + 1] (s.sent api m.bytes)) (rs ++ [m.bytes]) ∧
      ((poll api)^[k + 1] (s.sent api m.bytes)).info = sendMessage api m.bytes s.info := by
  by_cases hl : rs.length < MONITORING_COUNT
  · obtain ⟨hr, hi⟩ := h.report hm hl
    rw [Function.iterate_succ_apply, hr.polls]
    exact ⟨hr, hi⟩
  · have hr : Reported (s.sent api m.bytes) (rs ++ [m.bytes]) := h.ignore m hl
    rw [hr.polls]
    exact ⟨hr, rfl⟩

/-- The induction over the sends that follow the message `a`, which is reported already. -/
theorem Reported.conduct {api : Api} {s : Monitor} {pre : List (List UInt8)} {a : Message}
    (sched : List (Message × Nat)) (h : Reported s (pre ++ [a.bytes])) (ha : Stored api a s.info) :
    Reported (SharedReports.conduct api s sched)
      (pre ++ (sched.map fun x => x.1.bytes).destutter' (· ≠ ·) a.bytes) := by
  induction sched generalizing s pre a with
  | nil => exact h
  | cons x sched ih =>
    obtain ⟨m, k⟩ := x
    have hm := stored_send api m s.info
    rw [List.map_cons]
    by_cases hne : a.bytes ≠ m.bytes
    · obtain ⟨hr, hi⟩ := h.send_new (send_changes ha hne) k
      rw [List.destutter'_cons_pos _ hne, List.append_cons]
      apply ih hr
      rwa [hi]
    · have he : m.bytes = a.bytes := (not_not.mp hne).symm
      have hsame : Stored api m s.info := ⟨ha.size, he ▸ ha.holds, he ▸ ha.tail⟩
      obtain ⟨hr, hi⟩ := h.send_same hsame k
      rw [List.destutter'_cons_neg _ hne, ← he]
      rw [← he] at hr
      apply ih hr
      rwa [hi]

theorem reported_start (info junk : DataInfo) : Reported (recvStart info junk) [] :=
  ⟨rfl, rfl, rfl, fun _ => (fields_clear junk).trans (fields_clear info).symm⟩

theorem reports_eq (api : Api) (info junk : DataInfo) (k : Nat) (sched : List (Message × Nat)) :
    reports api info junk k sched =
      ((sched.map fun x => x.1.bytes).destutter (· ≠ ·)).take MONITORING_COUNT := by
  have h := reported_start info junk
  rw [reports, h.polls]
  cases sched with
  | nil => rfl
  | cons x sched =>
    obtain ⟨m, j⟩ := x
    obtain ⟨hr, hi⟩ := h.send_new (send_changes_zero m (fields_clear info)) j
    have hs : Stored api m ((poll api)^[j + 1] ((recvStart info junk).sent api m.bytes)).info := by
      rw [hi]
      exact stored_send api m _
    have hr' : Reported _ ([] ++ [m.bytes]) := hr
    exact (hr'.conduct sched hs).texts

/-- Whatever the two segments held before and however often each receiver polls,
both report the sent messages without those that repeat their predecessor. -/
theorem posix_sysv_equivalent (info junk info' junk' : DataInfo) (k k' : Nat)
    (sched : List (Message × Nat × Nat)) :
    reports .posix info junk k (sched.map fun x => (x.1, x.2.1)) =
        ((sched.map fun x => x.1.bytes).destutter (· ≠ ·)).take MONITORING_COUNT ∧
      reports .sysv info' junk' k' (sched.map fun x => (x.1, x.2.2)) =
        ((sched.map fun x => x.1.bytes).destutter (· ≠ ·)).take MONITORING_COUNT := by
  constructor
  · rw [reports_eq, List.map_map]
    rfl
  · rw [reports_eq, List.map_map]
    rfl

end LinuxExamples.SharedReports
