import LinuxExamples.HelloWorld

namespace LinuxExamples.RequestBounds

open Bytes HelloWorld

/-- All stores stay inside `rBuffer`, and so do the readers of the C string in it. -/
def Bounded (BUFSIZ : Nat) (b : Mem) (s : List UInt8) : Prop :=
  let r := (serve BUFSIZ b s).reader
  (∀ i ∈ r.stores, i < BUFSIZ) ∧ ∃ i < BUFSIZ, r.rBuffer i = 0

variable {BUFSIZ : Nat} {b : Mem}

theorem plain_ne_zero {s : List UInt8} {c : UInt8} (h : c ∈ plain s) : c ≠ 0 := by
  have hc := List.mem_takeWhile_imp (List.mem_of_mem_filter h)
  simp at hc
  exact hc.2

theorem zero_mem_stored (s : List UInt8) : 0 ∈ stored s ↔ ending s = some 0 := by
  rw [stored_eq, List.mem_append]
  have hplain : 0 ∉ plain s := fun h => plain_ne_zero h rfl
  rw [or_iff_right hplain, last]
  cases ending s with
  | some c => simp [eq_comm]
  | none =>
    have hne : (0 : UInt8) ≠ CR := by decide
    by_cases hcr : s.getLast? = some CR <;> simp [hcr, hne]

theorem last_length_le (s : List UInt8) : (last s).length ≤ 1 := by
  rw [last]
  split
  · exact le_rfl
  · split <;> decide

theorem readRequest_before (s : List UInt8) (r : Reader) {i : Nat} (hi : i < r.temp) :
    (readRequest BUFSIZ s r).rBuffer i = r.rBuffer i := by
  have hstore (r : Reader) (c : UInt8) (hi : i < r.temp) : (r.store c).rBuffer i = r.rBuffer i :=
    write_apply_before _ _ hi
  induction s generalizing r with
  | nil => rfl
  | cons c s ih =>
    rw [readRequest]
    split
    · exact (ih (r.store c) hi).trans (hstore r c hi)
    · split
      · exact hstore r c hi
      · split
        · exact hstore r c hi
        · split
          · exact hstore r c hi
          · exact (ih { r.store c with temp := r.temp + 1, length := r.length + 1 }
              (Nat.lt_succ_of_lt hi)).trans (hstore r c hi)

/-- Plain bytes that fill the buffer leave no NUL in it. -/
theorem readRequest_full (s : List UInt8) (r : Reader) (hr : r.length = r.temp)
    (h : BUFSIZ ≤ r.temp + (plain s).length) {i : Nat} (hi : r.temp ≤ i) (hlt : i < BUFSIZ) :
    (readRequest BUFSIZ s r).rBuffer i ≠ 0 := by
  induction s generalizing r with
  | nil =>
    rw [plain_nil, List.length_nil] at h
    omega
  | cons c s ih =>
    by_cases hcr : c = CR
    · subst hcr
      rw [plain_cr] at h
      rw [readRequest, if_pos rfl]
      exact ih (r.store CR) hr h hi
    · by_cases hend : c = LF ∨ c = 0
      · rw [plain_end hend, List.length_nil] at h
        omega
      · rw [plain_cons hcr hend, List.length_cons] at h
        push Not at hend
        have hfull : (r.store c).length ≠ BUFSIZ := by
          simp only [Reader.store]
          omega
        rw [readRequest]
        simp only [hcr, hend, hfull, ↓reduceIte]
        obtain rfl | hi := Nat.eq_or_lt_of_le hi
        · rw [readRequest_before _ _ (Nat.lt_succ_self _)]
          have hc : (r.store c).rBuffer r.temp = c := write_apply_at _ [c] _ 0 Nat.one_pos
          exact hc.trans_ne hend.2
        · refine ih _ ?_ ?_ hi
          · simp only [Reader.store]
            omega
          · simp only [Reader.store]
            omega

theorem not_bounded_of_full {s : List UInt8} (h : BUFSIZ ≤ (plain s).length) :
    ¬ Bounded BUFSIZ b s := by
  rintro ⟨_, i, hi, h0⟩
  exact readRequest_full s ⟨b, 0, 0, []⟩ rfl (by simpa using h) (Nat.zero_le i) hi h0

/-- A connection keeps within `rBuffer` exactly when fewer than BUFSIZ plain bytes come before
the first newline or NUL, and that is a NUL or an old NUL stands behind the bytes stored. -/
theorem bounded_iff (BUFSIZ : Nat) (b : Mem) (s : List UInt8) :
    Bounded BUFSIZ b s ↔ (plain s).length < BUFSIZ ∧ (ending s = some 0 ∨
      ∃ i, (plain s ++ last s).length ≤ i ∧ i < BUFSIZ ∧ b i = 0) := by
  by_cases hfull : BUFSIZ ≤ (plain s).length
  · exact iff_of_false (not_bounded_of_full hfull) fun h => absurd h.1 (Nat.not_lt.mpr hfull)
  · have hlt := Nat.lt_of_not_le hfull
    have hlen : (stored s).length ≤ BUFSIZ := by
      rw [stored_eq, List.length_append]
      exact (Nat.add_le_add_left (last_length_le s) _).trans hlt
    have hstores : ∀ i ∈ (serve BUFSIZ b s).reader.stores, i < BUFSIZ := by
      intro i hi
      obtain h | h := readRequest_stores BUFSIZ s _ hi
      · cases h
      · exact (h.2.trans (Nat.zero_add _).le).trans_lt hlt
    rw [Bounded, serve_rBuffer BUFSIZ b hlt.le, exists_nul_write hlen, zero_mem_stored, stored_eq]
    exact ⟨fun h => ⟨hlt, h.2⟩, fun h => ⟨hstores, h.2⟩⟩

theorem plain_replicate {c : UInt8} (hcr : c ≠ CR) (h : ¬ (c = LF ∨ c = 0)) (n : Nat) :
    plain (List.replicate n c) = List.replicate n c := by
  induction n with
  | zero => rfl
  | succ n ih => rw [List.replicate_succ, plain_cons hcr h, ih]

/-- A stream of plain bytes that is longer than a buffer of zeros. -/
theorem long_stream_unbounded : ¬ ∀ (b : Mem) (s : List UInt8), Bounded 8192 b s := by
  intro h
  have hplain := plain_replicate (c := 120) (by decide) (by decide) 8193
  have hfull : 8192 ≤ (plain (List.replicate 8193 120)).length := by
    rw [hplain, List.length_replicate]
    decide
  exact not_bounded_of_full hfull (h (fun _ => 0) _)

end LinuxExamples.RequestBounds
