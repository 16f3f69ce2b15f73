import LinuxExamples.UdpClients

namespace LinuxExamples.UdpTyped

open Bytes UdpClients

/-- What a `read` of the input returns; at the end of the input there are no bytes. -/
structure Input (BUFSIZ : Nat) where
  bytes : List UInt8
  noNul : 0 ∉ bytes
  short : bytes.length < BUFSIZ

/-- A round of the client, to which its own datagram comes back as the reply. The
datagrams it has sent stay in `requests`. -/
def round (BUFSIZ : Nat) (c : Client) (input : Input BUFSIZ) : Option Client :=
  let c := { c with point := .original, sndBuff := write c.sndBuff 0 input.bytes }
  (echoClient BUFSIZ c).bind fun c => (echoClient BUFSIZ c).bind fun c =>
    (echoClient BUFSIZ { c with replies := [c.requests.getLastD []] }).bind fun c =>
      echoClient BUFSIZ c

def start (BUFSIZ : Nat) (stack : Mem) : Client :=
  ⟨.input, memset stack BUFSIZ, [], [], [], []⟩

def run (BUFSIZ : Nat) (stack : Mem) (inputs : List (Input BUFSIZ)) : Option Client :=
  inputs.foldlM (round BUFSIZ) (start BUFSIZ stack)

/-- A buffer that is zero behind the text in it. -/
structure Cleared (BUFSIZ : Nat) (m : Mem) (t : List UInt8) : Prop where
  noNul : 0 ∉ t
  short : t.length ≤ BUFSIZ
  bytes : read m 0 t.length = t
  zero : ∀ i, t.length ≤ i → i < BUFSIZ → m i = 0

/-- The text in the buffer once `c` is stored over the text `t`. -/
def overlay (t c : List UInt8) : List UInt8 := c ++ t.drop c.length

theorem overlay_length (t c : List UInt8) : (overlay t c).length = max c.length t.length := by
  rw [overlay, List.length_append, List.length_drop]
  omega

variable {BUFSIZ : Nat} {m : Mem} {t : List UInt8}

theorem Cleared.str_eq (h : Cleared BUFSIZ m t) : str m 0 BUFSIZ = t := by
  refine Bytes.str_eq m 0 BUFSIZ t h.noNul h.bytes h.short ?_
  obtain hlt | heq := h.short.lt_or_eq
  · exact .inr (h.zero _ (by omega) (by omega))
  · exact .inl heq

theorem Cleared.write (h : Cleared BUFSIZ m t) (input : Input BUFSIZ) :
    Cleared BUFSIZ (write m 0 input.bytes) (overlay t input.bytes) := by
  have hshort := h.short
  have hlt := input.short
  refine ⟨fun h0 => ?_, ?_, ?_, fun i hi hB => ?_⟩
  · obtain h0 | h0 := List.mem_append.mp h0
    · exact input.noNul h0
    · exact h.noNul (List.mem_of_mem_drop h0)
  · rw [overlay_length]
    omega
  · rw [overlay, List.length_append, read_add, read_write, Nat.zero_add]
    congr 1
    obtain hle | hle := Nat.le_total t.length input.bytes.length
    · simp [List.drop_eq_nil_of_le hle]
    · obtain ⟨k, hk⟩ := Nat.exists_eq_add_of_le hle
      have hb := h.bytes
      rw [hk, read_add, Nat.zero_add] at hb
      have hdrop : t.drop input.bytes.length = read m input.bytes.length k := by
        conv_lhs => rw [← hb]
        exact List.drop_left' (read_length _ _ _)
      rw [hdrop, read_length]
      exact read_congr fun i hi _ => write_apply_after m _ (by omega)
  · rw [overlay_length] at hi
    rw [write_apply_after _ _ (by omega)]
    exact h.zero i (by omega) hB

/-- A round sends the text in the buffer, and the reply leaves the buffer as it is. -/
theorem round_eq {c : Client} (h : Cleared BUFSIZ c.sndBuff t) (input : Input BUFSIZ) :
    ∃ c', round BUFSIZ c input = some c' ∧ Cleared BUFSIZ c'.sndBuff (overlay t input.bytes) ∧
      c'.requests = c.requests ++ [overlay t input.bytes] := by
  have hw := h.write input
  have hs := hw.str_eq
  have hb := hw.bytes
  have hself : Bytes.write (Bytes.write c.sndBuff 0 input.bytes) 0 (overlay t input.bytes) =
      Bytes.write c.sndBuff 0 input.bytes := by
    conv_lhs => rw [← hb, write_read]
  by_cases hempty : (overlay t input.bytes).length = 0
  · simp only [round, echoClient, text, Option.bind_some, hs, hempty, ↓reduceIte]
    exact ⟨_, rfl, hw, by rw [List.eq_nil_of_length_eq_zero hempty, read_zero]⟩
  · simp only [round, echoClient, text, Option.bind_some, hs, hb, List.getLastD_concat,
      List.take_length, hself, hempty, ↓reduceIte]
    exact ⟨_, rfl, hw, rfl⟩

/-- The texts in the buffer as the chunks are stored over the text `t`, one after another. -/
def texts : List UInt8 → List (List UInt8) → List (List UInt8)
  | _, [] => []
  | t, c :: cs => overlay t c :: texts (overlay t c) cs

theorem texts_length (t : List UInt8) (cs : List (List UInt8)) :
    (texts t cs).length = cs.length := by
  induction cs generalizing t with
  | nil => rfl
  | cons c cs ih => rw [texts, List.length_cons, List.length_cons, ih]

theorem overlay_eq_iff (t c : List UInt8) : overlay t c = c ↔ t.length ≤ c.length := by
  rw [overlay, List.append_right_eq_self, List.drop_eq_nil_iff]

/-- Each text is its chunk as long as no chunk is shorter than the text before it. -/
theorem texts_eq_iff (t : List UInt8) (cs : List (List UInt8)) :
    texts t cs = cs ↔ ((t :: cs).map List.length).IsChain (· ≤ ·) := by
  induction cs generalizing t with
  | nil => simp [texts]
  | cons c cs ih =>
    rw [texts, List.cons.injEq, overlay_eq_iff, List.map_cons, List.map_cons,
      List.isChain_cons_cons, ← List.map_cons, ← ih c]
    refine and_congr_right fun hle => ?_
    rw [(overlay_eq_iff t c).mpr hle]

/-- There is a text for each chunk, so a chunk that is left out shows in their number. -/
theorem texts_eq_filter_iff (cs : List (List UInt8)) :
    texts [] cs = cs.filter (· ≠ []) ↔
      (∀ c ∈ cs, c ≠ []) ∧ cs.Pairwise fun a b => a.length ≤ b.length := by
  have hpairwise : texts [] cs = cs ↔ cs.Pairwise fun a b => a.length ≤ b.length := by
    rw [texts_eq_iff, List.isChain_iff_pairwise, List.pairwise_map, List.pairwise_cons]
    exact and_iff_right fun c _ => Nat.zero_le _
  constructor
  · intro h
    have hlen := congrArg List.length h
    rw [texts_length, eq_comm, List.length_filter_eq_length_iff] at hlen
    rw [List.filter_eq_self.mpr hlen] at h
    exact ⟨fun c hc => of_decide_eq_true (hlen c hc), hpairwise.mp h⟩
  · rintro ⟨hne, hle⟩
    rw [List.filter_eq_self.mpr fun c hc => decide_eq_true (hne c hc)]
    exact hpairwise.mpr hle

theorem run_eq {c : Client} (h : Cleared BUFSIZ c.sndBuff t) (inputs : List (Input BUFSIZ)) :
    ∃ c', inputs.foldlM (round BUFSIZ) c = some c' ∧
      c'.requests = c.requests ++ texts t (inputs.map fun i => i.bytes) := by
  induction inputs generalizing c t with
  | nil => exact ⟨c, rfl, (List.append_nil _).symm⟩
  | cons input inputs ih =>
    obtain ⟨c₁, hround, hc₁, hreq₁⟩ := round_eq h input
    obtain ⟨c₂, hrun, hreq₂⟩ := ih hc₁
    refine ⟨c₂, ?_, ?_⟩
    · rw [List.foldlM_cons, hround]
      exact hrun
    · rw [hreq₂, hreq₁, List.append_assoc]
      rfl

theorem run_start (stack : Mem) (inputs : List (Input BUFSIZ)) {sent : List (List UInt8)} :
    (∃ c, run BUFSIZ stack inputs = some c ∧ c.requests = sent) ↔
      texts [] (inputs.map fun i => i.bytes) = sent := by
  have hstart : Cleared BUFSIZ (start BUFSIZ stack).sndBuff [] :=
    ⟨nofun, Nat.zero_le _, rfl, fun i _ hi => memset_apply stack hi⟩
  obtain ⟨c, hrun, hreq⟩ := run_eq hstart inputs
  constructor
  · rintro ⟨c', hrun', rfl⟩
    obtain rfl := Option.some.inj (hrun.symm.trans hrun')
    exact hreq.symm
  · intro h
    exact ⟨c, hrun, hreq.trans h⟩

/-- The client sends what was typed exactly when each read returns something and no chunk
is shorter than an earlier one. -/
theorem sent_typed_iff (BUFSIZ : Nat) (stack : Mem) (inputs : List (Input BUFSIZ)) :
    (∃ c, run BUFSIZ stack inputs = some c ∧
      c.requests = (inputs.map fun i => i.bytes).filter (· ≠ [])) ↔
      (∀ i ∈ inputs, i.bytes ≠ []) ∧
        inputs.Pairwise fun i j => i.bytes.length ≤ j.bytes.length := by
  rw [run_start, texts_eq_filter_iff, List.forall_mem_map, List.pairwise_map]

theorem shorter_line_appended : ¬ ∀ (stack : Mem) (inputs : List (Input 8192)),
    ∃ c, run 8192 stack inputs = some c ∧
      c.requests = (inputs.map fun i => i.bytes).filter (· ≠ []) := by
  intro h
  have hs := (run_start (fun _ => 0) _).mp
    (h (fun _ => 0) [⟨[97, 97], by decide, by decide⟩, ⟨[98], by decide, by decide⟩])
  revert hs
  decide

end LinuxExamples.UdpTyped
