import LinuxExamples.Bytes
import LinuxExamples.Ctype

namespace LinuxExamples.HelloWorld

open Bytes Ctype

def LF : UInt8 := 10

def CR : UInt8 := 13

def print : List UInt8 := ascii ['p', 'r', 'i', 'n', 't']

/-- The contents of the server's `buffer`, to which nothing is ever stored. -/
def helloWorld : List UInt8 := ascii ['h', 'e', 'l', 'l', 'o', ' ', 'w', 'o', 'r', 'l', 'd']

/-- The state of the reading loop: `temp` is the offset into `rBuffer` of the
pointer of that name, and `stores` lists every offset stored to, latest first. -/
structure Reader where
  rBuffer : Mem
  temp : Nat
  length : Nat
  stores : List Nat

def Reader.store (r : Reader) (c : UInt8) : Reader :=
  { r with rBuffer := write r.rBuffer r.temp [c], stores := r.temp :: r.stores }

/-- The reading loop on the bytes the client sends; behind the last of them
`read` returns 0 or fails, and both end the loop. -/
def readRequest (BUFSIZ : Nat) : List UInt8 → Reader → Reader
  | [], r => r
  | c :: s, r =>
    let r := r.store c
    if c = CR then readRequest BUFSIZ s r
    else if c = LF then r
    else if c = 0 then r
    else if r.length = BUFSIZ then r
    else readRequest BUFSIZ s { r with temp := r.temp + 1, length := r.length + 1 }

structure Served where
  reader : Reader
  reply : Option (List UInt8)

/-- One connection, from `accept` to `close`, on the buffer earlier ones left. -/
def serve (BUFSIZ : Nat) (rBuffer : Mem) (s : List UInt8) : Served :=
  let r := readRequest BUFSIZ s ⟨rBuffer, 0, 0, []⟩
  ⟨r, if streq r.rBuffer 0 print then some helloWorld else none⟩

/-- The global `rBuffer` after a list of connections; it starts out zero. -/
def history (BUFSIZ : Nat) (streams : List (List UInt8)) : Mem :=
  streams.foldl (fun b s => (serve BUFSIZ b s).reader.rBuffer) fun _ => 0

/-- What the loop leaves from `temp` on. A carriage return is overwritten by
the next byte, if there is one; a newline or NUL ends the loop and stays. -/
def stored : List UInt8 → List UInt8
  | [] => []
  | c :: s =>
    if c = CR then if stored s = [] then [CR] else stored s
    else if c = LF ∨ c = 0 then [c]
    else c :: stored s

/-- The bytes before the first newline or NUL. -/
def line (s : List UInt8) : List UInt8 := s.takeWhile fun c => c ≠ LF && c ≠ 0

/-- The bytes for which the loop moves on in the buffer. -/
def plain (s : List UInt8) : List UInt8 := (line s).filter (· ≠ CR)

def ending (s : List UInt8) : Option UInt8 := s.find? fun c => c = LF || c = 0

/-- What follows the plain bytes in the buffer: the newline or NUL that has ended the loop,
or a carriage return at the end of the stream. -/
def last (s : List UInt8) : List UInt8 :=
  match ending s with
  | some c => [c]
  | none => if s.getLast? = some CR then [CR] else []

theorem plain_nil : plain [] = [] := rfl

theorem plain_cr (s : List UInt8) : plain (CR :: s) = plain s := rfl

theorem plain_end {c : UInt8} (h : c = LF ∨ c = 0) (s : List UInt8) : plain (c :: s) = [] := by
  obtain rfl | rfl := h <;> rfl

theorem plain_cons {c : UInt8} (hcr : c ≠ CR) (h : ¬ (c = LF ∨ c = 0)) (s : List UInt8) :
    plain (c :: s) = c :: plain s := by
  push Not at h
  simp [plain, line, hcr, h]

theorem plain_length_le (s : List UInt8) : (plain s).length ≤ s.length :=
  (List.length_filter_le _ _).trans (List.takeWhile_prefix _).length_le

theorem readRequest_rBuffer (BUFSIZ : Nat) (s : List UInt8) (r : Reader)
    (h : r.length + (plain s).length ≤ BUFSIZ) :
    (readRequest BUFSIZ s r).rBuffer = write r.rBuffer r.temp (stored s) := by
  induction s generalizing r with
  | nil => simp [readRequest, stored]
  | cons c s ih =>
    by_cases hcr : c = CR
    · subst hcr
      rw [plain_cr] at h
      have ht := ih (r.store CR) h
      simp only [readRequest, ↓reduceIte, stored]
      rw [ht]
      by_cases hs : stored s = []
      · simp [hs, Reader.store]
      · have hl : 1 ≤ (stored s).length := List.length_pos_iff.mpr hs
        simp only [hs, ↓reduceIte, Reader.store]
        exact write_write _ _ _ _ hl
    · by_cases hend : c = LF ∨ c = 0
      · obtain rfl | rfl := hend <;> simp [readRequest, stored, Reader.store, hcr]
      · rw [plain_cons hcr hend, List.length_cons] at h
        have hfull : r.length ≠ BUFSIZ := by omega
        push Not at hend
        have ht := ih { r.store c with temp := r.temp + 1, length := r.length + 1 }
          (by simp only; omega)
        simp only [readRequest, Reader.store, hcr, hend, hfull, ↓reduceIte, stored, or_self] at ht ⊢
        have hsplit : c :: stored s = [c] ++ stored s := rfl
        rw [ht, hsplit, write_append, List.length_singleton]

theorem readRequest_stores (BUFSIZ : Nat) (s : List UInt8) (r : Reader) {i : Nat}
    (hi : i ∈ (readRequest BUFSIZ s r).stores) :
    i ∈ r.stores ∨ i < r.temp + s.length ∧ i ≤ r.temp + (plain s).length := by
  induction s generalizing r with
  | nil => exact .inl hi
  | cons c s ih =>
    have hstop : i ∈ (r.store c).stores →
        i ∈ r.stores ∨ i < r.temp + (c :: s).length ∧ i ≤ r.temp + (plain (c :: s)).length := by
      intro h
      obtain rfl | h := List.mem_cons.mp h
      · exact .inr ⟨by simp, Nat.le_add_right _ _⟩
      · exact .inl h
    simp only [readRequest] at hi
    split at hi
    · rename_i hcr
      subst hcr
      obtain h | h := ih _ hi
      · exact hstop h
      · rw [plain_cr, List.length_cons]
        exact .inr ⟨h.1.trans (Nat.lt_succ_self _), h.2⟩
    · rename_i hcr
      split at hi
      · exact hstop hi
      · split at hi
        · exact hstop hi
        · rename_i hlf hnul
          split at hi
          · exact hstop hi
          · obtain h | h := ih _ hi
            · exact hstop h
            · rw [plain_cons hcr (by tauto), List.length_cons, List.length_cons]
              simp only [Reader.store] at h
              exact .inr ⟨by omega, by omega⟩

theorem serve_rBuffer (BUFSIZ : Nat) (b : Mem) {s : List UInt8} (hs : (plain s).length ≤ BUFSIZ) :
    (serve BUFSIZ b s).reader.rBuffer = write b 0 (stored s) :=
  readRequest_rBuffer BUFSIZ s _ (by simpa using hs)

theorem serve_reply (BUFSIZ : Nat) (b : Mem) {s : List UInt8} (hs : s.length ≤ BUFSIZ) :
    (serve BUFSIZ b s).reply =
      if streq (write b 0 (stored s)) 0 print then some helloWorld else none := by
  rw [← serve_rBuffer BUFSIZ b ((plain_length_le s).trans hs)]
  rfl

theorem stored_eq_nil {s : List UInt8} : stored s = [] ↔ s = [] := by
  cases s with
  | nil => simp [stored]
  | cons c s =>
    simp only [stored]
    split
    · split <;> simp_all
    · split <;> simp

theorem stored_append {w : List UInt8} (hw : ∀ c ∈ w, c ≠ CR ∧ c ≠ LF ∧ c ≠ 0) (s : List UInt8) :
    stored (w ++ s) = w ++ stored s := by
  induction w with
  | nil => rfl
  | cons c w ih =>
    have hc := hw c (by simp)
    have ht := ih fun d hd => hw d (by simp [hd])
    simp [stored, hc, ht]

/-- The bytes of the stream alone settle the contents up to a terminator, or
make them differ from `print` early enough. -/
def Settled (s : List UInt8) : Prop :=
  0 ∈ s ∨ LF ∈ s ∨ s.getLast? = some CR ∨ ¬ s.filter (· ≠ CR) <+: print

theorem ending_none {s : List UInt8} : ending s = none ↔ 0 ∉ s ∧ LF ∉ s := by
  rw [ending, List.find?_eq_none]
  constructor
  · intro h
    exact ⟨fun h0 => h 0 h0 (by decide), fun hlf => h LF hlf (by decide)⟩
  · rintro ⟨h0, hlf⟩ c hc
    have hne : c ≠ LF ∧ c ≠ 0 := ⟨fun h => hlf (h ▸ hc), fun h => h0 (h ▸ hc)⟩
    simp [hne]

theorem line_eq_self {s : List UInt8} (h : ending s = none) : line s = s := by
  rw [ending, List.find?_eq_none] at h
  rw [line, List.takeWhile_eq_self_iff]
  intro c hc
  simpa using h c hc

theorem stored_eq (s : List UInt8) : stored s = plain s ++ last s := by
  induction s with
  | nil => rfl
  | cons c s ih =>
    by_cases hcr : c = CR
    · subst hcr
      by_cases hs : s = []
      · subst hs
        rfl
      · have hne : stored s ≠ [] := fun h => hs (stored_eq_nil.mp h)
        have hlast : last (CR :: s) = last s := by
          simp only [last, List.getLast?_cons_of_ne_nil hs]
          rfl
        rw [plain_cr, hlast, ← ih, stored, if_pos rfl, if_neg hne]
    · by_cases hend : c = LF ∨ c = 0
      · rw [plain_end hend, List.nil_append]
        simp [stored, last, ending, hcr, hend]
      · have hlast : last (c :: s) = last s := by
          have hskip : ending (c :: s) = ending s := by
            push Not at hend
            simp [ending, hend]
          rw [last, last, hskip]
          cases ending s with
          | some d => rfl
          | none =>
            by_cases hs : s = []
            · simp [hs, hcr]
            · simp [List.getLast?_cons_of_ne_nil hs]
        rw [plain_cons hcr hend, hlast, List.cons_append, ← ih]
        simp [stored, hcr, hend]

theorem stored_plain {s : List UInt8} (h0 : 0 ∉ s) (hlf : LF ∉ s) (hcr : s.getLast? ≠ some CR) :
    stored s = s.filter (· ≠ CR) := by
  have hend : ending s = none := ending_none.mpr ⟨h0, hlf⟩
  rw [stored_eq, plain, line_eq_self hend, last, hend]
  simp only [hcr, ↓reduceIte, List.append_nil]

theorem stored_control {s : List UInt8} (h : 0 ∈ s ∨ LF ∈ s ∨ s.getLast? = some CR) :
    ∃ c ∈ stored s, c = CR ∨ c = LF ∨ c = 0 := by
  have hlast : ∃ c ∈ last s, c = CR ∨ c = LF ∨ c = 0 := by
    cases hend : ending s with
    | some c =>
      have hc := List.find?_some hend
      exact ⟨c, by simp [last, hend], .inr (by simpa using hc)⟩
    | none =>
      obtain ⟨h0, hlf⟩ := ending_none.mp hend
      have hcr : s.getLast? = some CR := by simpa [h0, hlf] using h
      exact ⟨CR, by simp [last, hend, hcr], .inl rfl⟩
  obtain ⟨c, hc, hctl⟩ := hlast
  exact ⟨c, by rw [stored_eq]; exact List.mem_append_right _ hc, hctl⟩

theorem settled_iff (s : List UInt8) : Settled s ↔ ¬ stored s <+: print := by
  by_cases h : 0 ∈ s ∨ LF ∈ s ∨ s.getLast? = some CR
  · refine iff_of_true (by unfold Settled; tauto) fun hp => ?_
    obtain ⟨c, hc, hctl⟩ := stored_control h
    have hm : c ∈ print := hp.subset hc
    obtain rfl | rfl | rfl := hctl <;> exact absurd hm (by decide)
  · push Not at h
    simp [Settled, stored_plain h.1 h.2.1 h.2.2, h]

/-- The comparison depends on older bytes only past the end of what was written. -/
theorem streq_write_past {l w : List UInt8} (hl : ¬ l <+: w) (b b' : Mem)
    (h : streq (write b 0 l) 0 w) : streq (write b' 0 l) 0 w := by
  rw [streq_iff] at h ⊢
  rw [← h]
  by_cases hlen : l.length ≤ w.length
  · exfalso
    have hr := read_write b 0 l
    have hsplit : w.length + 1 = l.length + (w.length + 1 - l.length) := by omega
    rw [hsplit, read_add, hr] at h
    have hp : l <+: w ++ [0] := h ▸ List.prefix_append _ _
    exact hl (List.prefix_of_prefix_length_le hp (List.prefix_append _ _) hlen)
  · refine read_congr fun i _ hi => ?_
    have hi' : i < l.length := by omega
    have hb := write_apply_at b l 0 i hi'
    have hb' := write_apply_at b' l 0 i hi'
    rw [Nat.zero_add] at hb hb'
    rw [hb, hb']

theorem write_already {l w : List UInt8} (hl : l <+: w) {b : Mem}
    (hb : read b 0 w.length = w) : write b 0 l = b := by
  obtain ⟨k, rfl⟩ := hl
  rw [List.length_append, read_add] at hb
  have h := (List.append_inj hb (by simp)).1
  rw [← h, write_read]

/-- A stream that ends inside `print` is completed by an earlier client's bytes. -/
theorem reply_after (BUFSIZ : Nat) {s x : List UInt8} (hp : stored s <+: print)
    (hs : s.length ≤ BUFSIZ) (hx : stored (print ++ x) = print ++ x)
    (hlen : (print ++ x).length ≤ BUFSIZ) :
    (serve BUFSIZ (history BUFSIZ [print ++ x]) s).reply =
      if streq (write (fun _ => 0) 0 (print ++ x)) 0 print then some helloWorld else none := by
  have hb : history BUFSIZ [print ++ x] = write (fun _ => 0) 0 (print ++ x) := by
    simp only [history, List.foldl_cons, List.foldl_nil]
    rw [serve_rBuffer BUFSIZ _ ((plain_length_le _).trans hlen), hx]
  have hr := read_write (fun _ => 0) 0 (print ++ x)
  rw [List.length_append, read_add] at hr
  have hw := write_already hp (List.append_inj hr (by simp)).1
  rw [serve_reply BUFSIZ _ hs, hb, hw]

/-- The reply is a function of the current stream if and only if the stream
is settled; otherwise what earlier clients left in the buffer decides. -/
theorem reply_history_independent_iff (BUFSIZ : Nat) (hB : 256 ≤ BUFSIZ) (s : List UInt8)
    (hs : s.length < BUFSIZ) :
    (∀ h₁ h₂ : List (List UInt8), (∀ x ∈ h₁, x.length < BUFSIZ) → (∀ x ∈ h₂, x.length < BUFSIZ) →
      (serve BUFSIZ (history BUFSIZ h₁) s).reply = (serve BUFSIZ (history BUFSIZ h₂) s).reply) ↔
      Settled s := by
  rw [settled_iff]
  constructor
  · intro h hp
    have hl₁ : (print ++ [0]).length = 6 := rfl
    have hl₂ : (print ++ [120, 0]).length = 7 := rfl
    have he := h [print ++ [0]] [print ++ [120, 0]]
      (by simp only [List.mem_singleton, forall_eq]; omega)
      (by simp only [List.mem_singleton, forall_eq]; omega)
    rw [reply_after BUFSIZ hp hs.le (by decide) (by omega),
      reply_after BUFSIZ hp hs.le (by decide) (by omega)] at he
    exact absurd he (by decide)
  · intro hn h₁ h₂ _ _
    have hb := Bool.eq_iff_iff.mpr
      ⟨streq_write_past hn (history BUFSIZ h₁) (history BUFSIZ h₂),
        streq_write_past hn (history BUFSIZ h₂) (history BUFSIZ h₁)⟩
    rw [serve_reply BUFSIZ _ hs.le, serve_reply BUFSIZ _ hs.le, hb]

/-- The word with carriage returns in it, a terminator and more behind it. -/
def printCR : List UInt8 := ascii ['p', 'r', '\r', 'i', 'n', '\r', '\r', 't', '\n', '!']

/-- It is settled, so it gets the same reply after a client that asked and after two others. -/
theorem reply_history_independent_printCR :
    ((∀ h₁ h₂ : List (List UInt8), (∀ x ∈ h₁, x.length < 8192) → (∀ x ∈ h₂, x.length < 8192) →
      (serve 8192 (history 8192 h₁) printCR).reply = (serve 8192 (history 8192 h₂) printCR).reply) ↔
      Settled printCR) ∧ Settled printCR ∧
    (serve 8192 (history 8192 [print ++ [0]]) printCR).reply =
      (serve 8192 (history 8192 [[], ascii ['x', '\r', '\n']]) printCR).reply := by
  have h := reply_history_independent_iff 8192 (by decide) printCR (by decide)
  have hsettled : Settled printCR := .inr (.inl (by decide))
  exact ⟨h, hsettled, h.mpr hsettled _ _ (by decide) (by decide)⟩

/-- A client that sends nothing is greeted if and only if the last one asked. -/
theorem silent_client_reply : ¬ ∀ (s : List UInt8) (h₁ h₂ : List (List UInt8)), s.length < 8192 →
    (∀ x ∈ h₁, x.length < 8192) → (∀ x ∈ h₂, x.length < 8192) →
      (serve 8192 (history 8192 h₁) s).reply = (serve 8192 (history 8192 h₂) s).reply := by
  intro h
  have he := h [] [] [print ++ [0]] (by decide) (by decide) (by decide)
  exact absurd he (by decide)

/-- A word that `scanf("%s", buffer)` can store in the client's buffer; it ends before a
space. -/
structure Token (BUFSIZ : Nat) where
  bytes : List UInt8
  nonempty : bytes ≠ []
  short : bytes.length < BUFSIZ
  plain : ∀ c ∈ bytes, c ≠ 0 ∧ isspace c = false

/-- What the client writes for a typed word, whatever its buffer held before. -/
def request (BUFSIZ : Nat) (buffer : Mem) (w : Token BUFSIZ) : List UInt8 :=
  let buffer := strcpy buffer w.bytes
  read buffer 0 ((str buffer 0 BUFSIZ).length + 1)

theorem Token.noNul {BUFSIZ : Nat} (w : Token BUFSIZ) : 0 ∉ w.bytes :=
  fun h => (w.plain 0 h).1 rfl

theorem Token.stored {BUFSIZ : Nat} (w : Token BUFSIZ) :
    stored (w.bytes ++ [0]) = w.bytes ++ [0] := by
  refine stored_append (fun c hc => ?_) [0]
  obtain ⟨h0, hsp⟩ := w.plain c hc
  refine ⟨?_, ?_, h0⟩ <;> rintro rfl <;> revert hsp <;> decide

theorem request_eq (BUFSIZ : Nat) (buffer : Mem) (w : Token BUFSIZ) :
    request BUFSIZ buffer w = w.bytes ++ [0] := by
  have h := strcpy_holds buffer w.noNul
  simp only [request]
  rw [h.str_eq w.short.le, read_add, Nat.zero_add, h.bytes, read_succ, h.nul, read_zero]

/-- The repository's client is served its own word after any earlier clients. -/
theorem token_served (BUFSIZ : Nat) (clients : List (Mem × Token BUFSIZ)) (buffer : Mem)
    (w : Token BUFSIZ) :
    let served := serve BUFSIZ (history BUFSIZ (clients.map fun x => request BUFSIZ x.1 x.2))
      (request BUFSIZ buffer w)
    Holds served.reader.rBuffer w.bytes ∧ (∀ i ∈ served.reader.stores, i < BUFSIZ) ∧
      served.reply = if w.bytes = print then some helloWorld else none := by
  intro served
  have hw := w.short
  have hlen : (w.bytes ++ [0]).length ≤ BUFSIZ := by
    rw [List.length_append, List.length_singleton]
    omega
  have hb : Holds served.reader.rBuffer w.bytes := by
    simp only [served, request_eq]
    rw [serve_rBuffer BUFSIZ _ ((plain_length_le _).trans hlen), w.stored]
    exact strcpy_holds _ w.noNul
  have hprint : streq served.reader.rBuffer 0 print = decide (w.bytes = print) := by
    rw [Bool.eq_iff_iff, streq_iff_holds _ (by decide), decide_eq_true_iff]
    exact ⟨fun h => hb.inj h, fun h => h ▸ hb⟩
  refine ⟨hb, fun i hi => ?_, ?_⟩
  · simp only [served, request_eq] at hi
    obtain h | h := readRequest_stores BUFSIZ _ _ hi
    · cases h
    · exact h.1.trans_le (by simpa using hlen)
  · change (if streq served.reader.rBuffer 0 print then some helloWorld else none) = _
    rw [hprint]
    simp only [decide_eq_true_eq]

/-- A line of text that fits in the server's buffer, without its newline. -/
structure LineRequest (BUFSIZ : Nat) where
  bytes : List UInt8
  noNul : 0 ∉ bytes
  noNewline : LF ∉ bytes
  short : bytes.length < BUFSIZ

section LineRequest

variable {BUFSIZ : Nat} (l : LineRequest BUFSIZ) (rest : List UInt8)

theorem LineRequest.plain : plain (l.bytes ++ LF :: rest) = l.bytes.filter (· ≠ CR) := by
  have hline : line (l.bytes ++ LF :: rest) = l.bytes := by
    have hpos : ∀ c ∈ l.bytes, (c ≠ LF && c ≠ 0) = true := by
      intro c hc
      have hne : c ≠ LF ∧ c ≠ 0 := ⟨fun h => l.noNewline (h ▸ hc), fun h => l.noNul (h ▸ hc)⟩
      simp [hne]
    rw [line, List.takeWhile_append_of_pos hpos]
    exact List.append_nil _
  rw [HelloWorld.plain, hline]

theorem LineRequest.last : last (l.bytes ++ LF :: rest) = [LF] := by
  have hnone : ending l.bytes = none := ending_none.mpr ⟨l.noNul, l.noNewline⟩
  have hend : ending (l.bytes ++ LF :: rest) = some LF := by
    rw [ending] at hnone ⊢
    rw [List.find?_append, hnone]
    rfl
  rw [HelloWorld.last, hend]

/-- Bytes without a terminator differ from a word as soon as one of them is not in it. -/
theorem not_streq_write {w l : List UInt8} {c : UInt8} (h0 : 0 ∉ l) (hc : c ∈ l) (hw : c ∉ w)
    (b : Mem) : ¬ streq (write b 0 l) 0 w := by
  intro h
  rw [streq_iff] at h
  have hr := read_write b 0 l
  obtain hlen | hlen := Nat.le_total l.length (w.length + 1)
  · rw [← read_take _ 0 hlen, h] at hr
    obtain hm | hm := List.mem_append.mp (List.mem_of_mem_take (hr ▸ hc))
    · exact hw hm
    · obtain rfl := List.mem_singleton.mp hm
      exact h0 hc
  · have ht := read_take (write b 0 l) 0 hlen
    rw [hr, h] at ht
    have hm : (0 : UInt8) ∈ l.take (w.length + 1) := by
      rw [ht]
      exact List.mem_append_right _ (List.mem_singleton_self 0)
    exact h0 (List.mem_of_mem_take hm)

/-- The newline that ends the loop stays in the buffer, so the server never
takes a line for a request. -/
theorem line_not_served (b : Mem) : (serve BUFSIZ b (l.bytes ++ LF :: rest)).reply = none := by
  have hshort : (HelloWorld.plain (l.bytes ++ LF :: rest)).length ≤ BUFSIZ := by
    rw [l.plain]
    exact (List.length_filter_le _ _).trans l.short.le
  have hstored : stored (l.bytes ++ LF :: rest) = l.bytes.filter (· ≠ CR) ++ [LF] := by
    rw [stored_eq, l.plain, l.last]
  have h0 : 0 ∉ l.bytes.filter (· ≠ CR) ++ [LF] := by
    intro h
    obtain h | h := List.mem_append.mp h
    · exact l.noNul (List.mem_of_mem_filter h)
    · exact absurd h (by decide)
  have hne := not_streq_write h0 (List.mem_append_right _ (List.mem_singleton_self LF))
    (w := print) (by decide) b
  change (if streq (serve BUFSIZ b _).reader.rBuffer 0 print then _ else _) = _
  rw [serve_rBuffer BUFSIZ b hshort, hstored, if_neg hne]

/-- The server answers a line as it should unless the line is `print`. -/
theorem line_served_iff (b : Mem) :
    ((serve BUFSIZ b (l.bytes ++ LF :: rest)).reply = some helloWorld ↔
      l.bytes.filter (· ≠ CR) = print) ↔ l.bytes.filter (· ≠ CR) ≠ print := by
  rw [line_not_served]
  constructor
  · intro h hp
    cases h.mpr hp
  · intro hp
    exact iff_of_false nofun hp

end LineRequest

theorem print_line_unserved : ¬ ∀ (b : Mem) (l : LineRequest 8192) (rest : List UInt8),
    (∃ i < 8192, b i = 0) → ((serve 8192 b (l.bytes ++ LF :: rest)).reply = some helloWorld ↔
      l.bytes.filter (· ≠ CR) = print) := by
  intro h
  have hr := (h (fun _ => 0) ⟨print, by decide, by decide, by decide⟩ [] ⟨0, by decide, rfl⟩).mpr
    (by decide)
  exact absurd hr (by decide)

end LinuxExamples.HelloWorld
