import LinuxExamples.FileMonitor
import LinuxExamples.SharedMemory

namespace LinuxExamples.SenderBounds

open Bytes
open FileMonitor (Store MAX_BUF_LEN offsetMessage intBytes intOfBytes strncpy)
open SharedMemory (Api DataInfo PAGE_SIZE)

/-- Stores of single bytes, one behind the other. -/
def bytewise : Nat → List UInt8 → List Store
  | _, [] => []
  | o, c :: bs => (o, [c]) :: bytewise (o + 1) bs

def perform (m : Mem) (stores : List Store) : Mem := stores.foldl (fun m x => write m x.1 x.2) m

theorem perform_append (m : Mem) (xs ys : List Store) :
    perform m (xs ++ ys) = perform (perform m xs) ys :=
  List.foldl_append

theorem perform_bytewise (m : Mem) (o : Nat) (bs : List UInt8) :
    perform m (bytewise o bs) = write m o bs := by
  induction bs generalizing m o with
  | nil => exact (write_nil m o).symm
  | cons c bs ih =>
    have hsplit : c :: bs = [c] ++ bs := rfl
    rw [hsplit, write_append]
    exact ih (write m o [c]) (o + 1)

theorem bytewise_inside (o : Nat) (bs : List UInt8) {k : Nat} (h : o ≤ k) :
    (∀ x ∈ bytewise o bs, x.1 + x.2.length ≤ k) ↔ o + bs.length ≤ k := by
  induction bs generalizing o with
  | nil => simpa [bytewise] using h
  | cons c bs ih =>
    rw [bytewise, List.forall_mem_cons, List.length_singleton, List.length_cons]
    constructor
    · rintro ⟨hc, hbs⟩
      have hlen := (ih (o + 1) hc).mp hbs
      omega
    · intro hlen
      have hc : o + 1 ≤ k := by omega
      exact ⟨hc, (ih (o + 1) hc).mpr (by omega)⟩

/-- The bytes that `strncpy` stores. -/
def padded (s : List UInt8) (n : Nat) : List UInt8 :=
  s.take n ++ List.replicate (n - s.length) 0

theorem padded_length (s : List UInt8) (n : Nat) : (padded s n).length = n := by
  rw [padded, List.length_append, List.length_take, List.length_replicate]
  omega

theorem padded_full {s : List UInt8} {n : Nat} (h : n ≤ s.length) : padded s n = s.take n := by
  rw [padded, Nat.sub_eq_zero_of_le h, List.replicate_zero, List.append_nil]

/-- A string that is shorter than the field is terminated in it. -/
theorem padded_short {s : List UInt8} {n : Nat} (h : s.length < n) :
    ∃ zs, padded s n = s ++ 0 :: zs := by
  have hpos : n - s.length = n - s.length - 1 + 1 := by omega
  refine ⟨List.replicate (n - s.length - 1) 0, ?_⟩
  rw [padded, List.take_of_length_le h.le, hpos, List.replicate_succ, ← hpos]

theorem padded_getElem (s : List UInt8) {n i : Nat} (h : i < n) :
    (padded s n)[i]?.getD 0 = s[i]?.getD 0 := by
  by_cases hi : i < s.length
  · have htake : i < (s.take n).length := by
      rw [List.length_take]
      omega
    rw [padded, List.getElem?_append_left htake, List.getElem?_take_of_lt h]
  · have htake : (s.take n).length ≤ i := by
      rw [List.length_take]
      omega
    rw [padded, List.getElem?_append_right htake, List.getElem?_replicate,
      List.getElem?_eq_none (Nat.le_of_not_lt hi)]
    split <;> rfl

/-- A cleared field behind a copied string. -/
theorem read_strcpy_memset (m : Mem) (s : List UInt8) (n : Nat) :
    read (strcpy (memset m n) s) 0 n = padded s n := by
  have hread := (read_eq_iff (strcpy (memset m n) s) 0 (padded s n)).mpr fun i hi => ?_
  · rwa [padded_length] at hread
  · rw [padded_length] at hi
    have hget := padded_getElem s hi
    rw [List.getElem?_eq_getElem (by rwa [padded_length]), Option.getD_some] at hget
    rw [hget, Nat.zero_add]
    obtain hlt | rfl | hgt := Nat.lt_trichotomy i s.length
    · simp [strcpy, write, hlt, List.getElem?_append_left]
    · simp [strcpy, write]
    · have hmem : memset m n i = 0 := memset_apply m hi
      simp [strcpy, write, hmem, List.getElem?_eq_none hgt.le,
        List.getElem?_eq_none (show (s ++ [0]).length ≤ i by simpa using hgt)]

theorem bytewise_eq (o : Nat) (bs : List UInt8) :
    bytewise o bs = (List.range bs.length).map fun i => (o + i, [bs[i]?.getD 0]) := by
  induction bs generalizing o with
  | nil => rfl
  | cons c bs ih =>
    rw [bytewise, ih, List.length_cons, List.range_succ_eq_map, List.map_cons, List.map_map]
    congr 2
    funext i
    simp [Nat.add_assoc, Nat.add_comm 1 i]

theorem strncpy_eq (o : Nat) (s : List UInt8) (n : Nat) :
    strncpy o s n = bytewise o (padded s n) := by
  rw [bytewise_eq, padded_length, strncpy]
  apply List.map_congr_left
  intro i hi
  rw [padded_getElem s (List.mem_range.mp hi)]

/-- The stores of `strcpy`, the terminator last. -/
def strcpyStores (o : Nat) (s : List UInt8) : List Store := bytewise o (s ++ [0])

def posixSendMessage (message : List UInt8) : List Store :=
  (0, intBytes sizeofPointer) :: strcpyStores offsetMessage message

/-- The `memset` of the whole record. -/
def sysvGenInfo : List Store := bytewise 0 (List.replicate (offsetMessage + PAGE_SIZE) 0)

def sysSendMessage (message : List UInt8) : List Store :=
  sysvGenInfo ++ (0, intBytes sizeofPointer) :: strcpyStores offsetMessage message

def doSendData (message : List UInt8) : List Store :=
  (0, intBytes sizeofPointer) :: strncpy offsetMessage message MAX_BUF_LEN

theorem doSendData_eq (m : FileMonitor.Message) :
    FileMonitor.doSendData m = doSendData m.bytes := rfl

inductive Sender where
  | posix | sysv | file

/-- The stores of a sender to a mapped record, whose first byte has offset 0. -/
def Sender.send : Sender → List UInt8 → List Store
  | .posix => posixSendMessage
  | .sysv => sysSendMessage
  | .file => doSendData

def Sender.arraySize : Sender → Nat
  | .posix | .sysv => PAGE_SIZE
  | .file => MAX_BUF_LEN

/-- A message argument: any C string. -/
structure Message where
  bytes : List UInt8
  noNul : 0 ∉ bytes

/-- What a sender stores to the message array. -/
def Sender.copied : Sender → List UInt8 → List UInt8
  | .posix, s | .sysv, s => s ++ [0]
  | .file, s => padded s MAX_BUF_LEN

/-- The record to which a sender stores; the one of System V clears it before. -/
def Sender.fresh : Sender → Mem → Mem
  | .posix, m | .file, m => m
  | .sysv, m => write m 0 (List.replicate (offsetMessage + PAGE_SIZE) 0)

def message (m : Mem) : Mem := fun i => m (offsetMessage + i)

def size (m : Mem) : Int := intOfBytes (read m 0 offsetMessage)

theorem message_write (m : Mem) (bs : List UInt8) :
    message (write m offsetMessage bs) = write (message m) 0 bs := by
  funext i
  simp [message, write]

theorem message_write_before (m : Mem) {bs : List UInt8} (h : bs.length ≤ offsetMessage) :
    message (write m 0 bs) = message m := by
  funext i
  exact write_apply_after m bs (by omega)

theorem message_cleared (m : Mem) (n : Nat) :
    message (write m 0 (List.replicate (offsetMessage + n) 0)) = memset (message m) n := by
  have hfirst : 0 + (List.replicate offsetMessage (0 : UInt8)).length = offsetMessage := by
    rw [List.length_replicate, Nat.zero_add]
  rw [List.replicate_add, write_append, hfirst, message_write, memset,
    message_write_before m (List.length_replicate).le]

section Send

variable (sender : Sender) (s : List UInt8) (m : Mem)

theorem send_eq : perform m (sender.send s) =
    write (write (sender.fresh m) 0 (intBytes sizeofPointer)) offsetMessage (sender.copied s) := by
  cases sender with
  | posix => exact perform_bytewise _ _ _
  | sysv =>
    simp only [Sender.send, sysSendMessage, sysvGenInfo]
    rw [perform_append, perform_bytewise]
    exact perform_bytewise _ _ _
  | file =>
    simp only [Sender.send, doSendData, strncpy_eq]
    exact perform_bytewise _ _ _

theorem message_send :
    message (perform m (sender.send s)) = write (message (sender.fresh m)) 0 (sender.copied s) := by
  rw [send_eq, message_write, message_write_before _ (by decide)]

/-- Every sender stores the size of a pointer. -/
theorem size_send : size (perform m (sender.send s)) = sizeofPointer := by
  have hlen : (intBytes sizeofPointer).length = offsetMessage := rfl
  have hr := read_write (sender.fresh m) 0 (intBytes sizeofPointer)
  rw [hlen] at hr
  rw [size, send_eq, read_write_before _ _ (Nat.zero_add _).le, hr]
  decide

end Send

/-- A mapped record as the monitors of the shared memory see it. -/
def dataInfo (m : Mem) : DataInfo := ⟨size m, message m⟩

def Sender.ofApi : Api → Sender
  | .posix => .posix
  | .sysv => .sysv

theorem dataInfo_send (api : Api) (s : List UInt8) (m : Mem) :
    dataInfo (perform m ((Sender.ofApi api).send s)) =
      SharedMemory.sendMessage api s (dataInfo m) := by
  rw [dataInfo, size_send, message_send]
  cases api with
  | posix => rfl
  | sysv =>
    simp only [Sender.ofApi, Sender.fresh, message_cleared]
    rfl

/-- All stores stay inside the record, and so do the readers of its text. -/
structure Inside (sender : Sender) (s : List UInt8) (m : Mem) : Prop where
  stores : ∀ x ∈ sender.send s, x.1 + x.2.length ≤ offsetMessage + sender.arraySize
  nul : ∃ i < sender.arraySize, message (perform m (sender.send s)) i = 0

/-- Only what is copied to the message array can leave the record. -/
theorem stores_inside_iff (sender : Sender) (s : List UInt8) :
    (∀ x ∈ sender.send s, x.1 + x.2.length ≤ offsetMessage + sender.arraySize) ↔
      (sender.copied s).length ≤ sender.arraySize := by
  have hsize : 0 + (intBytes sizeofPointer).length ≤ offsetMessage + sender.arraySize :=
    Nat.le_add_right offsetMessage _
  have hcopied (bs : List UInt8) :
      (∀ x ∈ (0, intBytes sizeofPointer) :: bytewise offsetMessage bs,
        x.1 + x.2.length ≤ offsetMessage + sender.arraySize) ↔ bs.length ≤ sender.arraySize := by
    rw [List.forall_mem_cons, and_iff_right hsize,
      bytewise_inside _ _ (Nat.le_add_right _ _), Nat.add_le_add_iff_left]
  cases sender with
  | posix => exact hcopied _
  | sysv =>
    have hclear : ∀ x ∈ sysvGenInfo, x.1 + x.2.length ≤ offsetMessage + PAGE_SIZE := by
      apply (bytewise_inside 0 _ (Nat.zero_le _)).mpr
      rw [List.length_replicate, Nat.zero_add]
    rw [Sender.send, sysSendMessage, List.forall_mem_append]
    exact (and_iff_right hclear).trans (hcopied _)
  | file =>
    rw [Sender.send, doSendData, strncpy_eq]
    exact hcopied _

theorem copied_short {sender : Sender} {s : List UInt8} (h : s.length < sender.arraySize) :
    (sender.copied s).length ≤ sender.arraySize ∧ ∃ zs, sender.copied s = s ++ 0 :: zs := by
  cases sender with
  | posix | sysv => exact ⟨by simpa [Sender.copied] using h, [], rfl⟩
  | file => exact ⟨(padded_length s MAX_BUF_LEN).le, padded_short h⟩

/-- The boundary is the same for all senders: the terminator has to fit. -/
theorem inside_iff (sender : Sender) (s : Message) (m : Mem) :
    Inside sender s.bytes m ↔ s.bytes.length < sender.arraySize := by
  constructor
  · intro h
    have hcopied := (stores_inside_iff sender s.bytes).mp h.stores
    cases sender with
    | posix | sysv => simpa [Sender.copied] using hcopied
    | file =>
      by_contra hlong
      have hn := h.nul
      rw [message_send, exists_nul_write hcopied] at hn
      obtain h0 | ⟨i, hlo, hhi, _⟩ := hn
      · have hfull : padded s.bytes MAX_BUF_LEN = s.bytes.take MAX_BUF_LEN :=
          padded_full (Nat.le_of_not_lt hlong)
        rw [Sender.copied, hfull] at h0
        exact s.noNul (List.mem_of_mem_take h0)
      · rw [Sender.copied, padded_length] at hlo
        exact absurd hhi (Nat.not_lt.mpr hlo)
  · intro h
    obtain ⟨hlen, zs, hzs⟩ := copied_short h
    refine ⟨(stores_inside_iff sender s.bytes).mpr hlen, ?_⟩
    rw [message_send, exists_nul_write hlen, hzs]
    exact .inl (List.mem_append_right _ List.mem_cons_self)

theorem full_message_outside : ¬ ∀ (sender : Sender) (s : Message) (m : Mem),
    Inside sender s.bytes m := by
  intro h
  have hlong : ∀ c ∈ List.replicate 4096 (120 : UInt8), c ≠ 0 := by
    intro c hc
    rw [List.eq_of_mem_replicate hc]
    decide
  have hs := (h .posix ⟨List.replicate 4096 120, fun h0 => hlong 0 h0 rfl⟩ fun _ => 0).stores
  rw [stores_inside_iff, Sender.copied, List.length_append, List.length_replicate] at hs
  exact absurd hs (by decide)

/-- The stored pair agrees: the text is the message, and the size its length, where
`terminator` is 1 if that counts the terminator. -/
structure Agrees (sender : Sender) (s : List UInt8) (terminator : Nat) (m : Mem) : Prop where
  text : str (message (perform m (sender.send s))) 0 sender.arraySize = s
  size : size (perform m (sender.send s)) = s.length + terminator

/-- A sender with a message that leaves room for its terminator. -/
structure Sending where
  sender : Sender
  bytes : List UInt8
  noNul : 0 ∉ bytes
  short : bytes.length < sender.arraySize

theorem Sending.agrees_iff (x : Sending) (terminator : Nat) (m : Mem) :
    Agrees x.sender x.bytes terminator m ↔ x.bytes.length + terminator = sizeofPointer := by
  obtain ⟨_, zs, hzs⟩ := copied_short x.short
  have htext :
      str (message (perform m (x.sender.send x.bytes))) 0 x.sender.arraySize = x.bytes := by
    rw [message_send, hzs]
    exact (holds_write _ x.noNul zs).str_eq x.short.le
  have hsize : (sizeofPointer : Int) = x.bytes.length + terminator ↔
      x.bytes.length + terminator = sizeofPointer := by
    omega
  rw [← hsize, ← size_send x.sender x.bytes m]
  exact ⟨fun h => h.size, fun h => ⟨htext, h⟩⟩

/-- The stored size is a length of the messages only where all of them have 8 bytes,
or all of them 7. -/
theorem pairs_agree_iff (sent : Set Sending) :
    (∃ terminator ≤ 1, ∀ x ∈ sent, ∀ m, Agrees x.sender x.bytes terminator m) ↔
      (∀ x ∈ sent, x.bytes.length = sizeofPointer) ∨
        ∀ x ∈ sent, x.bytes.length + 1 = sizeofPointer := by
  simp only [Sending.agrees_iff, forall_const]
  constructor
  · rintro ⟨terminator, hle, h⟩
    obtain rfl | rfl := Nat.le_one_iff_eq_zero_or_eq_one.mp hle
    · exact .inl h
    · exact .inr h
  · rintro (h | h)
    · exact ⟨0, Nat.zero_le 1, h⟩
    · exact ⟨1, le_rfl, h⟩

theorem empty_message_disagrees :
    ¬ ∃ terminator ≤ 1, ∀ (x : Sending) (m : Mem), Agrees x.sender x.bytes terminator m := by
  rintro ⟨terminator, hle, h⟩
  have hsize := (h ⟨.posix, [], by decide, by decide⟩ fun _ => 0).size
  rw [size_send, sizeofPointer, List.length_nil] at hsize
  omega

end LinuxExamples.SenderBounds
