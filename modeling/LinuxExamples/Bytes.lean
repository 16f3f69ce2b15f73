import Mathlib

namespace LinuxExamples.Bytes

/-- Memory as seen from the first byte of a buffer. Offsets past the buffer's
size are the memory behind it, so a store out of bounds has its effect there. -/
abbrev Mem := Nat → UInt8

def write (m : Mem) (o : Nat) (bs : List UInt8) : Mem :=
  fun i => if i < o then m i else bs[i - o]?.getD (m i)

def read (m : Mem) : Nat → Nat → List UInt8
  | _, 0 => []
  | o, n + 1 => m o :: read m (o + 1) n

@[simp] theorem write_nil (m : Mem) (o : Nat) : write m o [] = m := by
  funext i
  simp [write]

theorem write_apply_before (m : Mem) (bs : List UInt8) {o i : Nat} (h : i < o) :
    write m o bs i = m i := by
  simp [write, h]

theorem write_apply_after (m : Mem) (bs : List UInt8) {o i : Nat} (h : o + bs.length ≤ i) :
    write m o bs i = m i := by
  have ho : ¬ i < o := by omega
  have hb : bs.length ≤ i - o := by omega
  simp [write, ho, List.getElem?_eq_none hb]

theorem write_apply_at (m : Mem) (bs : List UInt8) (o k : Nat) (h : k < bs.length) :
    write m o bs (o + k) = bs[k] := by
  simp [write, h]

theorem write_append (m : Mem) (o : Nat) (bs cs : List UInt8) :
    write m o (bs ++ cs) = write (write m o bs) (o + bs.length) cs := by
  funext i
  by_cases ho : i < o
  · simp [write, ho, Nat.lt_add_right bs.length ho]
  · by_cases hb : i - o < bs.length
    · have hi : i < o + bs.length := by omega
      simp [write, ho, hi, hb, List.getElem?_append_left]
    · have hi : ¬ i < o + bs.length := by omega
      have hs : i - o - bs.length = i - (o + bs.length) := by omega
      simp [write, ho, hi, List.getElem?_append_right (Nat.le_of_not_lt hb), hs,
        List.getElem?_eq_none (Nat.le_of_not_lt hb)]

theorem write_write (m : Mem) (o : Nat) (bs cs : List UInt8) (h : bs.length ≤ cs.length) :
    write (write m o bs) o cs = write m o cs := by
  funext i
  by_cases ho : i < o
  · simp [write, ho]
  · by_cases hc : i - o < cs.length
    · simp [write, ho, hc]
    · have hb : bs.length ≤ i - o := by omega
      simp [write, ho, List.getElem?_eq_none hb]

@[simp] theorem read_zero (m : Mem) (o : Nat) : read m o 0 = [] := rfl

theorem read_succ (m : Mem) (o n : Nat) : read m o (n + 1) = m o :: read m (o + 1) n := rfl

@[simp] theorem read_length (m : Mem) (o n : Nat) : (read m o n).length = n := by
  induction n generalizing o with
  | zero => rfl
  | succ n ih => simp [read_succ, ih]

theorem read_add (m : Mem) (o n k : Nat) :
    read m o (n + k) = read m o n ++ read m (o + n) k := by
  induction n generalizing o with
  | zero => simp
  | succ n ih =>
    rw [Nat.succ_add, read_succ, read_succ, ih, List.cons_append]
    congr 3
    omega

theorem read_getElem (m : Mem) (o n i : Nat) (h : i < (read m o n).length) :
    (read m o n)[i] = m (o + i) := by
  induction n generalizing o i with
  | zero => simp at h
  | succ n ih =>
    cases i with
    | zero => rfl
    | succ i =>
      have hi := ih (o + 1) i (by simpa [read_succ] using h)
      simpa [read_succ, Nat.add_assoc, Nat.add_comm 1 i] using hi

theorem read_eq_iff (m : Mem) (o : Nat) (bs : List UInt8) :
    read m o bs.length = bs ↔ ∀ i (h : i < bs.length), m (o + i) = bs[i] := by
  constructor
  · intro h i hi
    have hr := read_getElem m o bs.length i (by simpa using hi)
    rw [← hr]
    simp only [h]
  · intro h
    refine List.ext_getElem (by simp) fun i hr hi => ?_
    rw [read_getElem, h i hi]

theorem read_congr {m m' : Mem} {o n : Nat} (h : ∀ i, o ≤ i → i < o + n → m i = m' i) :
    read m o n = read m' o n := by
  refine List.ext_getElem (by simp) fun i hi _ => ?_
  rw [read_length] at hi
  rw [read_getElem, read_getElem, h (o + i) (by omega) (by omega)]

theorem read_eq_replicate {m : Mem} {o n : Nat} {c : UInt8} (h : ∀ i < n, m (o + i) = c) :
    read m o n = List.replicate n c := by
  refine List.ext_getElem (by simp) fun i hi _ => ?_
  rw [read_length] at hi
  rw [read_getElem, List.getElem_replicate, h i hi]

theorem read_eq_congr {m m' : Mem} {o n : Nat} (h : read m o n = read m' o n) {i : Nat}
    (hi : i < n) : m (o + i) = m' (o + i) := by
  have hl := read_getElem m o n i (by simpa using hi)
  have hr := read_getElem m' o n i (by simpa using hi)
  rw [← hl, ← hr]
  simp only [h]

theorem read_prefix {m : Mem} {o n : Nat} {p : List UInt8} (h : p <+: read m o n) :
    read m o p.length = p := by
  obtain ⟨k, hk⟩ := h
  have hlen := congrArg List.length hk
  rw [List.length_append, read_length] at hlen
  rw [← hlen, read_add] at hk
  exact (List.append_inj hk (read_length m o _).symm).1.symm

@[simp] theorem read_write (m : Mem) (o : Nat) (bs : List UInt8) :
    read (write m o bs) o bs.length = bs :=
  (read_eq_iff _ o bs).mpr fun i hi => write_apply_at m bs o i hi

theorem read_write_before (m : Mem) (bs : List UInt8) {o a n : Nat} (h : a + n ≤ o) :
    read (write m o bs) a n = read m a n :=
  read_congr fun _ _ hi => write_apply_before m bs (by omega)

theorem read_take (m : Mem) (o : Nat) {n k : Nat} (h : k ≤ n) :
    (read m o n).take k = read m o k := by
  obtain ⟨j, rfl⟩ := Nat.exists_eq_add_of_le h
  rw [read_add, List.take_left' (read_length m o k)]

theorem read_write_end (m : Mem) (n : Nat) (bs : List UInt8) :
    read (write m n bs) 0 (n + bs.length) = read m 0 n ++ bs := by
  have hb : 0 + n ≤ n := (Nat.zero_add n).le
  rw [read_add, read_write_before m bs hb, Nat.zero_add, read_write]

theorem write_read (m : Mem) (o n : Nat) : write m o (read m o n) = m := by
  funext i
  by_cases ho : i < o
  · exact write_apply_before m _ ho
  · by_cases hn : i < o + n
    · have hk : i - o < (read m o n).length := by rw [read_length]; omega
      have hi : o + (i - o) = i := by omega
      have h := write_apply_at m (read m o n) o (i - o) hk
      rwa [read_getElem, hi] at h
    · exact write_apply_after m _ (by rw [read_length]; omega)

/-- The size of a pointer under LP64, which is what `sizeof` of a `char *` gives. -/
def sizeofPointer : Nat := 8

def ascii (cs : List Char) : List UInt8 := cs.map fun c => UInt8.ofNat c.toNat

theorem ascii_noNul {cs : List Char} (h : ∀ c ∈ cs, 0 < c.toNat ∧ c.toNat < 256) :
    0 ∉ ascii cs := by
  intro h0
  obtain ⟨c, hc, hz⟩ := List.mem_map.mp h0
  obtain ⟨hpos, hlt⟩ := h c hc
  have hn := congrArg UInt8.toNat hz
  rw [UInt8.toNat_ofNat_of_lt' hlt] at hn
  exact hpos.ne' hn

/-- `m` holds the NUL-free string `s` with its terminator. -/
structure Holds (m : Mem) (s : List UInt8) : Prop where
  noNul : 0 ∉ s
  bytes : read m 0 s.length = s
  nul : m s.length = 0

/-- Whether a buffer of `n` bytes has a NUL in it after bytes are stored at its front. -/
theorem exists_nul_write {m : Mem} {bs : List UInt8} {n : Nat} (h : bs.length ≤ n) :
    (∃ i < n, write m 0 bs i = 0) ↔ 0 ∈ bs ∨ ∃ i, bs.length ≤ i ∧ i < n ∧ m i = 0 := by
  constructor
  · rintro ⟨i, hi, h0⟩
    by_cases hlen : i < bs.length
    · have ht := write_apply_at m bs 0 i hlen
      rw [Nat.zero_add, h0] at ht
      exact .inl (ht ▸ List.getElem_mem hlen)
    · rw [write_apply_after m bs (by omega)] at h0
      exact .inr ⟨i, by omega, hi, h0⟩
  · rintro (hmem | ⟨i, hlen, hi, h0⟩)
    · obtain ⟨i, hi, h0⟩ := List.mem_iff_getElem.mp hmem
      have ht := write_apply_at m bs 0 i hi
      rw [Nat.zero_add, h0] at ht
      exact ⟨i, hi.trans_le h, ht⟩
    · exact ⟨i, hi, by rw [write_apply_after m bs (by omega), h0]⟩

/-- What a reader of a C string sees that stops after `n` bytes at the latest. -/
def str (m : Mem) : Nat → Nat → List UInt8
  | _, 0 => []
  | o, n + 1 => if m o = 0 then [] else m o :: str m (o + 1) n

theorem str_eq (m : Mem) (o n : Nat) (s : List UInt8) (hs : 0 ∉ s) (hr : read m o s.length = s)
    (hn : s.length ≤ n) (h : s.length = n ∨ m (o + s.length) = 0) : str m o n = s := by
  induction s generalizing o n with
  | nil =>
    cases n with
    | zero => rfl
    | succ n => simpa [str] using h
  | cons c s ih =>
    cases n with
    | zero => simp at hn
    | succ n =>
      rw [List.length_cons, read_succ, List.cons.injEq] at hr
      have hc : c ≠ 0 := fun h0 => hs (by simp [h0])
      have ho : o + 1 + s.length = o + (s.length + 1) := by omega
      have ht := ih (o + 1) n (fun h0 => hs (by simp [h0])) hr.2 (by simpa using hn)
        (by rw [ho]; simpa using h)
      simp [str, hc, ht, hr.1]

theorem Holds.str_eq {m : Mem} {s : List UInt8} (h : Holds m s) {n : Nat} (hn : s.length ≤ n) :
    str m 0 n = s :=
  Bytes.str_eq m 0 n s h.noNul h.bytes hn (.inr (by rw [Nat.zero_add]; exact h.nul))

theorem str_eq_takeWhile (m : Mem) (o n : Nat) : str m o n = (read m o n).takeWhile (· ≠ 0) := by
  induction n generalizing o with
  | zero => rfl
  | succ n ih =>
    by_cases h : m o = 0 <;> simp [str, read_succ, h, ih]

theorem read_str (m : Mem) (o n : Nat) : read m o (str m o n).length = str m o n := by
  induction n generalizing o with
  | zero => rfl
  | succ n ih =>
    by_cases h : m o = 0
    · simp [str, h]
    · simp [str, h, read_succ, ih]

theorem decide_ne_zero {s : List UInt8} (hs : 0 ∉ s) : ∀ c ∈ s, decide (c ≠ 0) = true := by
  intro c hc
  rw [decide_eq_true_eq]
  rintro rfl
  exact hs hc

/-- The NUL-free bytes at a place begin the C string there. -/
theorem prefix_str {m : Mem} {o n : Nat} {p : List UInt8} (hp : 0 ∉ p)
    (hr : read m o p.length = p) (hn : p.length ≤ n) : p <+: str m o n := by
  obtain ⟨k, rfl⟩ := Nat.exists_eq_add_of_le hn
  rw [str_eq_takeWhile, read_add, hr, List.takeWhile_append_of_pos (decide_ne_zero hp)]
  exact List.prefix_append _ _

theorem str_terminated {m : Mem} {o n : Nat} {s : List UInt8} (hs : 0 ∉ s)
    (h : s ++ [0] <+: read m o n) : str m o n = s := by
  obtain ⟨k, hk⟩ := h
  rw [str_eq_takeWhile, ← hk, List.append_assoc,
    List.takeWhile_append_of_pos (decide_ne_zero hs)]
  exact List.append_nil s

/-- A C string that is shorter than what is looked at ends at a NUL. -/
theorem str_nul {m : Mem} {o n : Nat} (h : (str m o n).length < n) :
    m (o + (str m o n).length) = 0 := by
  induction n generalizing o with
  | zero => exact absurd h (Nat.not_lt_zero _)
  | succ n ih =>
    by_cases h0 : m o = 0
    · simp [str, h0]
    · simp only [str, h0, ↓reduceIte, List.length_cons, Nat.add_lt_add_iff_right] at h ⊢
      rw [← Nat.add_assoc, Nat.add_right_comm]
      exact ih h

theorem str_length_le (m : Mem) (o n : Nat) : (str m o n).length ≤ n := by
  rw [str_eq_takeWhile]
  exact (List.takeWhile_prefix _).length_le.trans (read_length m o n).le

theorem nul_notMem_str (m : Mem) (o n : Nat) : 0 ∉ str m o n := by
  rw [str_eq_takeWhile]
  intro h
  simpa using List.mem_takeWhile_imp h

/-- A C string ends at a NUL behind its start at the latest. -/
theorem str_length_le_nul {m : Mem} {o k : Nat} (h : m (o + k) = 0) (n : Nat) :
    (str m o n).length ≤ k := by
  by_contra hlen
  have hk : k < (str m o n).length := Nat.lt_of_not_le hlen
  have hr := (read_eq_iff m o _).mp (read_str m o n) k hk
  rw [h] at hr
  exact nul_notMem_str m o n (hr ▸ List.getElem_mem hk)

/-- Bytes without a NUL all belong to the C string that starts with them. -/
theorem le_str_length {m : Mem} {o k n : Nat} (h : ∀ i < k, m (o + i) ≠ 0) (hn : k ≤ n) :
    k ≤ (str m o n).length := by
  have hlen := read_length m o k
  have h0 : 0 ∉ read m o k := by
    intro hmem
    obtain ⟨i, hi, hz⟩ := List.mem_iff_getElem.mp hmem
    rw [read_getElem] at hz
    exact h i (hlen ▸ hi) hz
  have hp := prefix_str (n := n) h0 (by rw [hlen]) (by rwa [hlen])
  exact hlen ▸ hp.length_le

/-- Two memories with the same bytes up to a NUL have the same C string there. -/
theorem str_congr_nul {m m' : Mem} {o i : Nat} (h : ∀ j, o ≤ j → j ≤ i → m j = m' j)
    (ho : o ≤ i) (h0 : m i = 0) (n : Nat) : str m o n = str m' o n := by
  induction n generalizing o with
  | zero => rfl
  | succ n ih =>
    have heq := h o le_rfl ho
    by_cases hz : m o = 0
    · have hz' : m' o = 0 := heq ▸ hz
      simp only [str, hz, hz', ↓reduceIte]
    · have hne : o ≠ i := fun he => hz (he ▸ h0)
      have ht : str m (o + 1) n = str m' (o + 1) n :=
        ih (fun j hj hji => h j (by omega) hji) (by omega)
      simp only [str, ← heq, hz, ↓reduceIte, ht]

theorem Holds.str_take {m : Mem} {s : List UInt8} (h : Holds m s) (n : Nat) :
    str m 0 n = s.take n := by
  by_cases hn : s.length ≤ n
  · rw [h.str_eq hn, List.take_of_length_le hn]
  · have hl : (s.take n).length = n := by rw [List.length_take]; omega
    have hsplit : s.length = n + (s.length - n) := by omega
    have hb := h.bytes
    rw [hsplit, read_add] at hb
    have ht : read m 0 n = s.take n := by
      rw [← hb, List.take_left' (read_length m 0 n)]
    exact Bytes.str_eq m 0 n _ (fun h0 => h.noNul (List.mem_of_mem_take h0)) (by rw [hl, ht])
      hl.le (.inl hl)

theorem Holds.inj {m : Mem} {s t : List UInt8} (hs : Holds m s) (ht : Holds m t) : s = t := by
  have h := hs.str_eq (Nat.le_max_left s.length t.length)
  rwa [ht.str_eq (Nat.le_max_right s.length t.length), eq_comm] at h

def memset (m : Mem) (n : Nat) : Mem := write m 0 (List.replicate n 0)

theorem memset_apply (m : Mem) {n i : Nat} (h : i < n) : memset m n i = 0 := by
  have hi := write_apply_at m (List.replicate n 0) 0 i (by simpa using h)
  rwa [Nat.zero_add, List.getElem_replicate] at hi

/-- Received bytes over a cleared buffer read back as a C string. -/
theorem str_memset_write (m : Mem) {bs : List UInt8} {n : Nat} (h : bs.length ≤ n) :
    str (write (memset m n) 0 bs) 0 n = bs.takeWhile (· ≠ 0) := by
  obtain ⟨k, rfl⟩ := Nat.exists_eq_add_of_le h
  have hz : read (write (memset m (bs.length + k)) 0 bs) bs.length k = List.replicate k 0 :=
    read_eq_replicate fun i hi => by
      rw [write_apply_after _ _ (by omega), memset_apply _ (by omega)]
  rw [str_eq_takeWhile, read_add, read_write, Nat.zero_add, hz, List.takeWhile_append]
  split
  · rename_i hfull
    have hself : bs.takeWhile (· ≠ 0) = bs := (List.takeWhile_prefix _).eq_of_length hfull
    rw [List.takeWhile_replicate, hself]
    simp
  · rfl

def strcpy (m : Mem) (s : List UInt8) : Mem := write m 0 (s ++ [0])

/-- A string stored with its terminator is held, whatever else is stored behind it. -/
theorem holds_write (m : Mem) {s : List UInt8} (hs : 0 ∉ s) (zs : List UInt8) :
    Holds (write m 0 (s ++ 0 :: zs)) s := by
  have hr := read_write m 0 (s ++ 0 :: zs)
  rw [List.length_append, read_add, Nat.zero_add] at hr
  obtain ⟨hb, hz⟩ := List.append_inj hr (by simp)
  rw [List.length_cons, read_succ] at hz
  exact ⟨hs, hb, (List.cons.inj hz).1⟩

theorem strcpy_holds (m : Mem) {s : List UInt8} (hs : 0 ∉ s) : Holds (strcpy m s) s :=
  holds_write m hs []

theorem terminate_holds {m : Mem} {s : List UInt8} (hs : 0 ∉ s) (hr : read m 0 s.length = s) :
    Holds (write m s.length [0]) s := by
  refine ⟨hs, ?_, write_apply_at m [0] s.length 0 Nat.one_pos⟩
  rw [read_write_before m [0] (Nat.zero_add _).le, hr]

theorem strcpy_of_holds {m : Mem} {s : List UInt8} (h : Holds m s) : strcpy m s = m := by
  have hs : s ++ [0] = read m 0 (s.length + 1) := by
    rw [read_add, Nat.zero_add, h.bytes, read_succ, h.nul, read_zero]
  rw [strcpy, hs, write_read]

/-- Whether `strcmp(m + o, s)` is zero for a NUL-free `s`: the comparison goes
byte by byte, up to the first difference or the terminator. -/
def streq (m : Mem) : Nat → List UInt8 → Bool
  | o, [] => m o == 0
  | o, c :: s => m o == c && streq m (o + 1) s

theorem streq_iff (m : Mem) (o : Nat) (s : List UInt8) :
    streq m o s ↔ read m o (s.length + 1) = s ++ [0] := by
  induction s generalizing o with
  | nil => simp [streq, read_succ]
  | cons c s ih =>
    rw [List.length_cons, read_succ, List.cons_append, List.cons.injEq, ← ih (o + 1)]
    simp [streq]

theorem streq_iff_holds (m : Mem) {s : List UInt8} (hs : 0 ∉ s) : streq m 0 s ↔ Holds m s := by
  rw [streq_iff, read_add, Nat.zero_add, read_succ, read_zero]
  constructor
  · intro h
    obtain ⟨hb, hn⟩ := List.append_inj h (by simp)
    exact ⟨hs, hb, by simpa using hn⟩
  · intro h
    rw [h.bytes, h.nul]

/-- Whether `strncmp(m + o, s, n)` is zero for a NUL-free `s` of `n` bytes. -/
def strneq (m : Mem) : Nat → List UInt8 → Bool
  | _, [] => true
  | o, c :: s => m o == c && strneq m (o + 1) s

theorem strneq_iff (m : Mem) (o : Nat) (s : List UInt8) :
    strneq m o s ↔ read m o s.length = s := by
  induction s generalizing o with
  | nil => simp [strneq]
  | cons c s ih =>
    rw [List.length_cons, read_succ, List.cons.injEq, ← ih (o + 1)]
    simp [strneq]

theorem Holds.strneq_iff {m : Mem} {s q : List UInt8} (h : Holds m s) (hq : 0 ∉ q) :
    strneq m 0 q ↔ q <+: s := by
  rw [Bytes.strneq_iff]
  constructor
  · intro hr
    have hp := prefix_str hq hr (Nat.le_max_left q.length s.length)
    rwa [h.str_eq (Nat.le_max_right _ _)] at hp
  · intro hp
    rw [← h.bytes] at hp
    exact read_prefix hp

end LinuxExamples.Bytes
