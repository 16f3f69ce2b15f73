import LinuxExamples.SenderBounds

namespace LinuxExamples.MmapRecord

open Bytes
open FileMonitor (Store intBytes intOfBytes strncpy)
open SenderBounds

def sizeofName : Nat := 20

def sizeofHobby : Nat := 30

/-- The offset of `age` in `MMAP_TEST_STRUCT`, right behind `name`. -/
def offsetAge : Nat := 20

def offsetHobby : Nat := 24

/-- The size of `MMAP_TEST_STRUCT`, with two bytes of padding. -/
def sizeofStruct : Nat := 56

/-- The text of the three fields that `yj_print_struct` prints. -/
structure Printed where
  name : List UInt8
  age : Int
  hobby : List UInt8
  deriving DecidableEq

/-- `yj_print_struct` on a structure of the given bytes, whose copy for the call lies at the
front of `frame`. A `%s` goes on to a NUL, or to the last of `past` bytes behind the copy. -/
def yjPrintStruct (frame : Mem) (past : Nat) (bytes : List UInt8) : Printed :=
  let copy := write frame 0 bytes
  ⟨str copy 0 (sizeofStruct + past), intOfBytes (read copy offsetAge 4),
    str copy offsetHobby (sizeofStruct - offsetHobby + past)⟩

/-- The arguments of `yj_setting_struct`. -/
structure Person where
  name : List UInt8
  age : BitVec 32
  hobby : List UInt8
  name_noNul : 0 ∉ name
  hobby_noNul : 0 ∉ hobby

def yjSettingStruct (x : Person) : List Store :=
  strncpy 0 x.name sizeofName ++
    (offsetAge, intBytes x.age.toNat) :: strncpy offsetHobby x.hobby sizeofHobby

structure Created where
  ret : Int
  file : List UInt8

/-- `yj_create_file` on the earlier contents of the file, whether `open` succeeds and what
`write` returns. The file is not truncated, and a short write is a success. -/
def yjCreateFile (canOpen : Bool) (written : Option Nat) (file : List UInt8) (message : Mem) :
    Created :=
  if canOpen = false then ⟨-1, file⟩
  else
    match written with
    | none => ⟨-1, file⟩
    | some n => ⟨0, (read message 0 sizeofStruct).take n ++ file.drop n⟩

/-- What a reader finds if its `open` succeeds. -/
def opened (canOpen : Bool) (file : List UInt8) : Option (List UInt8) :=
  if canOpen then some file else none

/-- `yj_read_file` on a file, if that can be opened with `O_RDONLY`, and on what the stack holds
at `out`. -/
def yjReadFile (file : Option (List UInt8)) (canRead : Bool) (out frame : Mem) (past : Nat) :
    Option Printed :=
  match file with
  | none => none
  | some bytes =>
    if canRead = false then none
    else
      let out := write out 0 (bytes.take sizeofStruct)
      some (yjPrintStruct frame past (read out 0 sizeofStruct))

/-- The mapping of a file, which goes on with zeros to the end of its last page. -/
def mapped (bytes : List UInt8) : Mem := fun i => bytes[i]?.getD 0

/-- `yj_read_mmap` on a file, if that can be opened with `O_RDWR`. -/
def yjReadMmap (file : Option (List UInt8)) (canMap : Bool) (frame : Mem) (past : Nat) :
    Option Printed :=
  match file with
  | none => none
  | some bytes =>
    if canMap = false ∨ bytes.length = 0 then none
    else some (yjPrintStruct frame past (read (mapped bytes) 0 sizeofStruct))

theorem intOfBytes_intBytes (n : Nat) : intOfBytes (intBytes n) = (BitVec.ofNat 32 n).toInt := by
  have hbytes : (intBytes n).foldr (fun b k => b.toNat + 256 * k) 0 = n % 2 ^ 32 := by
    simp [intBytes, List.range_succ]
    omega
  have hmod : BitVec.ofNat 32 (n % 2 ^ 32) = BitVec.ofNat 32 n := by
    apply BitVec.eq_of_toNat_eq
    simp
  rw [intOfBytes, hbytes, hmod]

/-- The bytes of the three fields. -/
def fields (x : Person) : List UInt8 :=
  padded x.name sizeofName ++ (intBytes x.age.toNat ++ padded x.hobby sizeofHobby)

theorem perform_yjSettingStruct (m : Mem) (x : Person) :
    perform m (yjSettingStruct x) = write m 0 (fields x) := by
  have hname : 0 + (padded x.name sizeofName).length = offsetAge := by
    rw [padded_length]
    rfl
  have hage : offsetAge + (intBytes x.age.toNat).length = offsetHobby := rfl
  rw [yjSettingStruct, perform_append, strncpy_eq, perform_bytewise, strncpy_eq, fields,
    write_append, hname, write_append, hage]
  exact perform_bytewise _ _ _

/-- A field that `strncpy` has filled is printed without its last byte exactly where the string
is shorter than the field. -/
theorem field_text_iff {m : Mem} {o w n : Nat} {s : List UInt8} (hs : 0 ∉ s)
    (hr : read m o w = padded s w) (hn : w ≤ n) (hw : 0 < w) :
    str m o n = s.take (w - 1) ↔ s.length < w := by
  refine ⟨fun h => ?_, fun hlt => ?_⟩
  · by_contra hlong
    have hle : w ≤ s.length := Nat.le_of_not_lt hlong
    have hlen : (s.take w).length = w := List.length_take_of_le hle
    have htake : read m o (s.take w).length = s.take w := by rw [hlen, hr, padded_full hle]
    have hp := prefix_str (fun h0 => hs (List.mem_of_mem_take h0)) htake (hlen.le.trans hn)
    have hfits := hp.length_le
    rw [h, hlen, List.length_take] at hfits
    omega
  · obtain ⟨zs, hzs⟩ := padded_short hlt
    have hp : s ++ [0] <+: read m o n := by
      apply List.IsPrefix.trans _ (read_take m o hn ▸ List.take_prefix _ _)
      exact ⟨zs, by rw [hr, hzs, List.append_assoc]; rfl⟩
    rw [str_terminated hs hp, List.take_of_length_le (Nat.le_sub_one_of_lt hlt)]

theorem fields_length (x : Person) : (fields x).length = sizeofStruct - 2 := by
  have hage : (intBytes x.age.toNat).length = 4 := rfl
  rw [fields, List.length_append, List.length_append, padded_length, padded_length, hage]
  rfl

/-- The whole structure once its fields are set over `junk`. -/
def record (junk : Mem) (x : Person) : List UInt8 :=
  read (perform junk (yjSettingStruct x)) 0 sizeofStruct

theorem record_length (junk : Mem) (x : Person) : (record junk x).length = sizeofStruct :=
  read_length _ _ _

theorem record_eq (junk : Mem) (x : Person) :
    record junk x = fields x ++ read junk (sizeofStruct - 2) 2 := by
  have hsize : sizeofStruct = (fields x).length + 2 := by rw [fields_length]; rfl
  rw [record, perform_yjSettingStruct, hsize, read_add, read_write, Nat.zero_add]
  congr 1
  apply read_congr
  intro i hi _
  exact write_apply_after _ _ (by omega)

section Readers

variable (file : List UInt8) (frame : Mem) (past : Nat)

/-- Both readers print the same bytes of a file that begins with a whole record. -/
theorem yjReadFile_full (out : Mem) {bytes : List UInt8} (h : bytes.length = sizeofStruct) :
    yjReadFile (some (bytes ++ file)) true out frame past =
      some (yjPrintStruct frame past bytes) := by
  have hr := read_write out 0 bytes
  rw [h] at hr
  simp only [yjReadFile, Bool.true_eq_false, ↓reduceIte]
  rw [List.take_left' h, hr]

theorem read_mapped {bytes : List UInt8} (h : bytes.length = sizeofStruct) :
    read (mapped (bytes ++ file)) 0 sizeofStruct = bytes := by
  rw [← h, read_eq_iff]
  intro i hi
  rw [Nat.zero_add, mapped, List.getElem?_append_left hi, List.getElem?_eq_getElem hi]
  rfl

theorem yjReadMmap_eq {bytes : List UInt8} (h : bytes ≠ []) :
    yjReadMmap (some bytes) true frame past =
      some (yjPrintStruct frame past (read (mapped bytes) 0 sizeofStruct)) := by
  have hlen : bytes.length ≠ 0 := fun hz => h (List.length_eq_zero_iff.mp hz)
  simp only [yjReadMmap, hlen, Bool.true_eq_false, or_self, ↓reduceIte]

theorem yjReadMmap_full {bytes : List UInt8} (h : bytes.length = sizeofStruct) :
    yjReadMmap (some (bytes ++ file)) true frame past = some (yjPrintStruct frame past bytes) := by
  have hne : bytes ++ file ≠ [] := List.append_ne_nil_of_left_ne_nil
    (List.ne_nil_of_length_eq_add_one h) file
  rw [yjReadMmap_eq frame past hne, read_mapped file h]

end Readers

theorem read_write_middle (m : Mem) (as bs cs : List UInt8) :
    read (write m 0 (as ++ (bs ++ cs))) as.length bs.length = bs := by
  have hr := read_write (write m 0 as) as.length (bs ++ cs)
  rw [List.length_append, read_add] at hr
  rw [write_append, Nat.zero_add]
  exact (List.append_inj hr (read_length _ _ _)).1

/-- What a record should be printed as. -/
def Person.cut (x : Person) : Printed :=
  ⟨x.name.take (sizeofName - 1), x.age.toInt, x.hobby.take (sizeofHobby - 1)⟩

/-- The text of each field and the NUL behind it lie inside the field. -/
structure Printed.Inside (p : Printed) : Prop where
  name : p.name.length < sizeofName
  hobby : p.hobby.length < sizeofHobby

theorem Person.cut_inside (x : Person) : x.cut.Inside :=
  ⟨(List.length_take_le _ _).trans_lt (by decide), (List.length_take_le _ _).trans_lt (by decide)⟩

section Fields

variable (x : Person) (junk frame : Mem)

theorem record_split : record junk x = padded x.name sizeofName ++ (intBytes x.age.toNat ++
    (padded x.hobby sizeofHobby ++ read junk (sizeofStruct - 2) 2)) := by
  rw [record_eq, fields, List.append_assoc, List.append_assoc]

theorem read_name :
    read (write frame 0 (record junk x)) 0 sizeofName = padded x.name sizeofName := by
  have h := read_write_middle frame [] (padded x.name sizeofName) (intBytes x.age.toNat ++
    (padded x.hobby sizeofHobby ++ read junk (sizeofStruct - 2) 2))
  rwa [List.nil_append, ← record_split, padded_length] at h

theorem read_age : read (write frame 0 (record junk x)) offsetAge 4 = intBytes x.age.toNat := by
  have h := read_write_middle frame (padded x.name sizeofName) (intBytes x.age.toNat)
    (padded x.hobby sizeofHobby ++ read junk (sizeofStruct - 2) 2)
  rw [← record_split, padded_length] at h
  exact h

theorem read_hobby : read (write frame 0 (record junk x)) offsetHobby sizeofHobby =
    padded x.hobby sizeofHobby := by
  have h := read_write_middle frame (padded x.name sizeofName ++ intBytes x.age.toNat)
    (padded x.hobby sizeofHobby) (read junk (sizeofStruct - 2) 2)
  rw [List.append_assoc, ← record_split, List.length_append, padded_length, padded_length] at h
  exact h

theorem print_record_iff (past : Nat) : yjPrintStruct frame past (record junk x) = x.cut ↔
    x.name.length < sizeofName ∧ x.hobby.length < sizeofHobby := by
  rw [yjPrintStruct, Person.cut, Printed.mk.injEq, read_age, intOfBytes_intBytes,
    BitVec.ofNat_toNat, BitVec.setWidth_eq, eq_self, true_and]
  apply and_congr
  · apply field_text_iff x.name_noNul (read_name x junk frame) _ (by decide)
    exact Nat.le_add_right_of_le (by decide)
  · apply field_text_iff x.hobby_noNul (read_hobby x junk frame) _ (by decide)
    exact Nat.le_add_right_of_le (by decide)

end Fields

/-- A reader prints the person, and looks at no byte behind a field for its text. -/
def Prints (x : Person) (reader : Option Printed) : Prop :=
  reader = some x.cut ∧ ∀ p ∈ reader, p.Inside

theorem prints_record_iff (x : Person) (junk frame : Mem) (past : Nat) :
    Prints x (some (yjPrintStruct frame past (record junk x))) ↔
      x.name.length < sizeofName ∧ x.hobby.length < sizeofHobby := by
  rw [← print_record_iff x junk frame past]
  refine ⟨fun h => ?_, fun h => ?_⟩
  · exact Option.some.inj h.1
  · rw [h]
    exact ⟨rfl, fun p hp => Option.some.inj hp ▸ x.cut_inside⟩

def written (x : Person) (junk : Mem) (file : List UInt8) : Created :=
  yjCreateFile true (some sizeofStruct) file (perform junk (yjSettingStruct x))

/-- A record that was written in full is printed by both readers. -/
structure RoundTrip (x : Person) (file : List UInt8) (junk out frame frame' : Mem)
    (past past' : Nat) : Prop where
  ret : (written x junk file).ret = 0
  yjReadFile : Prints x (yjReadFile (some (written x junk file).file) true out frame past)
  yjReadMmap : Prints x (yjReadMmap (some (written x junk file).file) true frame' past')

/-- The strings have to leave room for a terminator in their fields. -/
theorem round_trip_iff (x : Person) (file : List UInt8) (junk out frame frame' : Mem)
    (past past' : Nat) : RoundTrip x file junk out frame frame' past past' ↔
      x.name.length < sizeofName ∧ x.hobby.length < sizeofHobby := by
  have hlen := record_length junk x
  have hfile : (written x junk file).file = record junk x ++ file.drop sizeofStruct := by
    rw [← List.take_of_length_le hlen.le]
    rfl
  have hreadFile := prints_record_iff x junk frame past
  have hreadMmap := prints_record_iff x junk frame' past'
  rw [← yjReadFile_full (file.drop sizeofStruct) frame past out hlen, ← hfile] at hreadFile
  rw [← yjReadMmap_full (file.drop sizeofStruct) frame' past' hlen, ← hfile] at hreadMmap
  refine ⟨fun h => ?_, fun h => ?_⟩
  · exact hreadFile.mp h.yjReadFile
  · exact ⟨rfl, hreadFile.mpr h, hreadMmap.mpr h⟩

/-- A name of twenty letters goes on into the age. -/
theorem full_name_runs_on : ¬ ∀ (x : Person) (file : List UInt8) (junk out frame frame' : Mem)
    (past past' : Nat), RoundTrip x file junk out frame frame' past past' := by
  intro h
  have hp := (h ⟨List.replicate 20 120, 26, [], by decide, by decide⟩ [] (fun _ => 0) (fun _ => 0)
    (fun _ => 0) (fun _ => 0) 0 0).yjReadFile.1
  exact absurd hp (by decide)

/-- The structure that a reader prints ends its last text inside the bytes of the file. -/
def Terminated (bytes : List UInt8) : Prop :=
  ∃ i, offsetHobby ≤ i ∧ i < sizeofStruct ∧ bytes[i]? = some 0

theorem terminated_ne_nil {bytes : List UInt8} (h : Terminated bytes) : bytes ≠ [] := by
  obtain ⟨i, _, _, h0⟩ := h
  exact List.ne_nil_of_length_pos (Nat.zero_lt_of_lt (List.getElem?_eq_some_iff.mp h0).1)

section Copies

variable {bytes : List UInt8} {i : Nat}

theorem out_apply (out : Mem) (h : i < bytes.length) (hi : i < sizeofStruct) :
    write out 0 (bytes.take sizeofStruct) i = mapped bytes i := by
  have htake : i < (bytes.take sizeofStruct).length := by
    rw [List.length_take]
    omega
  have hw := write_apply_at out (bytes.take sizeofStruct) 0 i htake
  rw [Nat.zero_add] at hw
  rw [hw, mapped, List.getElem?_eq_getElem h, List.getElem_take]
  rfl

/-- The copy for the call of `yj_print_struct`. -/
theorem copy_apply (frame m : Mem) (h : i < sizeofStruct) :
    write frame 0 (read m 0 sizeofStruct) i = m i := by
  have hw := write_apply_at frame (read m 0 sizeofStruct) 0 i (by rwa [read_length])
  rwa [read_getElem, Nat.zero_add] at hw

theorem copy_behind (frame m : Mem) (h : sizeofStruct ≤ i) :
    write frame 0 (read m 0 sizeofStruct) i = frame i :=
  write_apply_after _ _ (by rwa [read_length, Nat.zero_add])

end Copies

/-- Copies of one structure up to a NUL behind its texts are printed alike. -/
theorem yjPrintStruct_congr {m m' : Mem} {i : Nat} (h : ∀ j ≤ i, m j = m' j)
    (hlo : offsetHobby ≤ i) (hhi : i < sizeofStruct) (h0 : m i = 0) (frame frame' : Mem)
    (past : Nat) : yjPrintStruct frame past (read m 0 sizeofStruct) =
      yjPrintStruct frame' past (read m' 0 sizeofStruct) := by
  have hcopy (j : Nat) (hj : j ≤ i) : write frame 0 (read m 0 sizeofStruct) j =
      write frame' 0 (read m' 0 sizeofStruct) j := by
    rw [copy_apply frame m (by omega), copy_apply frame' m' (by omega), h j hj]
  have hnul : write frame 0 (read m 0 sizeofStruct) i = 0 := by rw [copy_apply frame m hhi, h0]
  have hage : read (write frame 0 (read m 0 sizeofStruct)) offsetAge 4 =
      read (write frame' 0 (read m' 0 sizeofStruct)) offsetAge 4 := by
    apply read_congr
    intro j _ hj
    exact hcopy j (Nat.le_of_lt_succ (hj.trans_le (hlo.trans (Nat.le_succ i))))
  rw [yjPrintStruct, yjPrintStruct, hage, str_congr_nul (fun j _ hj => hcopy j hj) i.zero_le hnul,
    str_congr_nul (fun j _ hj => hcopy j hj) hlo hnul]

/-- Both readers print the same of a file that ends the last text. -/
theorem readers_agree {bytes : List UInt8} (h : Terminated bytes) (out frame frame' : Mem)
    (past : Nat) :
    yjReadFile (some bytes) true out frame past = yjReadMmap (some bytes) true frame' past := by
  have hne := terminated_ne_nil h
  obtain ⟨i, hlo, hhi, h0⟩ := h
  have hi : i < bytes.length := (List.getElem?_eq_some_iff.mp h0).1
  have hout (j : Nat) (hj : j ≤ i) : write out 0 (bytes.take sizeofStruct) j = mapped bytes j :=
    out_apply out (hj.trans_lt hi) (hj.trans_lt hhi)
  have hnul : write out 0 (bytes.take sizeofStruct) i = 0 := by
    rw [hout i le_rfl, mapped, h0]
    rfl
  rw [yjReadMmap_eq _ _ hne, ← yjPrintStruct_congr hout hlo hhi hnul frame frame' past]
  rfl

/-- Ones in place of what `read` does not store and behind the structure. -/
theorem copy_ne_zero {bytes : List UInt8} (h : ¬ Terminated bytes) {i : Nat}
    (hlo : offsetHobby ≤ i) (hhi : i ≤ sizeofStruct) :
    write (fun _ => 1) 0 (read (write (fun _ => 1) 0 (bytes.take sizeofStruct)) 0 sizeofStruct) i
      ≠ 0 := by
  obtain hcopy | rfl := hhi.lt_or_eq
  · rw [copy_apply _ _ hcopy]
    by_cases hlen : i < bytes.length
    · rw [out_apply _ hlen hcopy]
      intro h0
      rw [mapped, List.getElem?_eq_getElem hlen] at h0
      exact h ⟨i, hlo, hcopy, by rw [List.getElem?_eq_getElem hlen]; exact congrArg some h0⟩
    · rw [write_apply_after _ _ (by rw [List.length_take]; omega)]
      decide
  · rw [copy_behind _ _ le_rfl]
    decide

/-- Without the terminator `yj_read_file` goes on to bytes that are not those of the file, or to
bytes behind the copy of the structure. -/
theorem readers_differ {bytes : List UInt8} (h : ¬ Terminated bytes) :
    yjReadFile (some bytes) true (fun _ => 1) (fun _ => 1) 1 ≠
      yjReadMmap (some bytes) true (fun _ => 0) 1 := by
  intro heq
  by_cases hempty : bytes = []
  · subst hempty
    exact absurd heq (by decide)
  · rw [yjReadMmap_eq _ _ hempty] at heq
    have hhobby := congrArg Printed.hobby (Option.some.inj heq)
    have hlong : 33 ≤ (yjPrintStruct (fun _ => 1) 1 (read (write (fun _ => 1) 0
        (bytes.take sizeofStruct)) 0 sizeofStruct)).hobby.length := by
      apply le_str_length _ (by decide)
      intro i hi
      exact copy_ne_zero h (Nat.le_add_right _ _) (Nat.add_le_add_left (Nat.le_of_lt_succ hi) _)
    have hshort : (yjPrintStruct (fun _ => 0) 1
        (read (mapped bytes) 0 sizeofStruct)).hobby.length ≤ 32 := by
      apply str_length_le_nul
      exact copy_behind _ _ le_rfl
    rw [hhobby] at hlong
    omega

theorem yjReadFile_opened (canOpen canRead : Bool) (file : List UInt8) (out frame : Mem)
    (past : Nat) : yjReadFile (opened canOpen file) canRead out frame past =
      if canOpen && canRead then yjReadFile (some file) true out frame past else none := by
  cases canOpen <;> cases canRead <;> rfl

theorem yjReadMmap_opened (canOpen canMap : Bool) (file : List UInt8) (frame : Mem)
    (past : Nat) : yjReadMmap (opened canOpen file) canMap frame past =
      if canOpen && canMap then yjReadMmap (some file) true frame past else none := by
  cases canOpen <;> cases canMap <;> rfl

/-- The readers open the file in different modes, so one of them may fail alone. -/
theorem readers_agree_iff (file : List UInt8) (rdonly canRead rdwr canMap : Bool) :
    (∀ out frame frame' past, yjReadFile (opened rdonly file) canRead out frame past =
        yjReadMmap (opened rdwr file) canMap frame' past) ↔
      if rdonly && canRead then (rdwr && canMap) = true ∧ Terminated file
      else (rdwr && canMap) = false ∨ file = [] := by
  simp only [yjReadFile_opened, yjReadMmap_opened]
  cases rdonly && canRead with
  | true =>
    cases rdwr && canMap with
    | true =>
      refine ⟨fun h => ⟨rfl, ?_⟩, fun h out frame frame' past =>
        readers_agree h.2 out frame frame' past⟩
      by_contra hno
      exact readers_differ hno (h _ _ _ _)
    | false =>
      refine iff_of_false (fun h => ?_) (by simp)
      exact absurd (h (fun _ => 0) (fun _ => 0) (fun _ => 0) 0) (by simp [yjReadFile])
  | false =>
    cases rdwr && canMap with
    | true =>
      by_cases hempty : file = []
      · exact iff_of_true (fun _ _ _ _ => by simp [hempty, yjReadMmap]) (.inr hempty)
      · refine iff_of_false (fun h => ?_) (by simp [hempty])
        have hprinted := h (fun _ => 0) (fun _ => 0) (fun _ => 0) 0
        simp [yjReadMmap_eq _ _ hempty] at hprinted
    | false => exact iff_of_true (fun _ _ _ _ => rfl) (.inl rfl)

/-- Of an empty file one reader prints what was on the stack, and the other prints nothing. -/
theorem empty_file_read : ¬ ∀ (file : List UInt8) (out frame frame' : Mem) (past : Nat),
    yjReadFile (opened true file) true out frame past =
      yjReadMmap (opened true file) true frame' past := by
  intro h
  have heq := h [] (fun _ => 65) (fun _ => 0) (fun _ => 0) 0
  exact absurd heq (by decide)

end LinuxExamples.MmapRecord
