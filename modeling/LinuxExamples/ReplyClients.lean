import LinuxExamples.Bytes

namespace LinuxExamples.ReplyClients

open Bytes

def ID_LEN : Nat := 8

inductive Client
  | basic
  | helloWorld
  | ls
  | singleChatting

def Client.size (BUFSIZ : Nat) : Client → Nat
  | .basic => BUFSIZ
  | .helloWorld => BUFSIZ
  | .ls => BUFSIZ
  | .singleChatting => ID_LEN

/-- The bytes that a client's `read` asks for. -/
def Client.count (BUFSIZ : Nat) : Client → Nat
  | .basic => BUFSIZ
  | .helloWorld => BUFSIZ - 1
  | .ls => BUFSIZ - 1
  | .singleChatting => ID_LEN

def basicClient (rcvBuffer : Mem) : Option (List UInt8) → Option Mem
  | none => none
  | some bs =>
    let n := bs.length
    some (write (write rcvBuffer 0 bs) n [0])

/-- The clients that store no terminator behind the bytes they have read. -/
def unterminated (rcvBuffer : Mem) : Option (List UInt8) → Option Mem
  | none => none
  | some bs => some (write rcvBuffer 0 bs)

def helloWorldClient : Mem → Option (List UInt8) → Option Mem := unterminated

def lsClient : Mem → Option (List UInt8) → Option Mem := unterminated

def singleChattingClient : Mem → Option (List UInt8) → Option Mem := unterminated

/-- The buffer that a client passes to `printf`, or `none` when its `read` fails. -/
def Client.receive : Client → Mem → Option (List UInt8) → Option Mem
  | .basic => basicClient
  | .helloWorld => helloWorldClient
  | .ls => lsClient
  | .singleChatting => singleChattingClient

/-- The text `r` is printed, up to a NUL inside the buffer of `size` bytes. -/
def Prints (size : Nat) (r : List UInt8) : Option Mem → Prop
  | none => False
  | some m => str m 0 size = r ∧ r.length < size

/-- A reply that fits a client's buffer. The chat server writes exactly the bytes of an ID. -/
structure Reply (BUFSIZ : Nat) (c : Client) where
  text : List UInt8
  noNul : 0 ∉ text
  nonempty : text ≠ []
  fits : text.length ≤ c.size BUFSIZ
  whole : c = .singleChatting → text.length = ID_LEN

/-- The pieces in which a reply arrives at reads of at most `count` bytes. -/
structure Delivery (r : List UInt8) (count : Nat) where
  pieces : List (List UInt8)
  flatten : pieces.flatten = r
  nonempty : ∀ p ∈ pieces, p ≠ []
  short : ∀ p ∈ pieces, p.length ≤ count

def Delivery.first {r : List UInt8} {count : Nat} (d : Delivery r count) : List UInt8 :=
  d.pieces.headD []

/-- The bytes that were in the buffer behind the `first` ones complete the reply. -/
def Completes (rcvBuffer : Mem) (first r : List UInt8) : Prop :=
  read rcvBuffer first.length (r.length + 1 - first.length) = r.drop first.length ++ [0]

/-- When a client prints the reply `r`, given what its read returns first. -/
def Client.Meets (BUFSIZ : Nat) (rcvBuffer : Mem) (first r : List UInt8) : Client → Prop
  | .basic => first = r ∧ r.length < BUFSIZ
  | .helloWorld => r.length < BUFSIZ ∧ Completes rcvBuffer first r
  | .ls => r.length < BUFSIZ ∧ Completes rcvBuffer first r
  | .singleChatting => False

variable {BUFSIZ size count : Nat} {rcvBuffer m : Mem} {p r : List UInt8}

theorem Delivery.first_prefix (d : Delivery r count) : d.first <+: r := by
  obtain ⟨pieces, rfl, _, _⟩ := d
  cases pieces with
  | nil => exact List.prefix_rfl
  | cons p ps => exact List.prefix_append _ _

theorem prints_iff (hr : 0 ∉ r) : Prints size r (some m) ↔ r.length < size ∧ Holds m r := by
  constructor
  · rintro ⟨htext, hlt⟩
    rw [← htext] at hlt hr ⊢
    have hnul := str_nul hlt
    rw [Nat.zero_add] at hnul
    exact ⟨hlt, hr, read_str m 0 size, hnul⟩
  · rintro ⟨hlt, h⟩
    exact ⟨h.str_eq hlt.le, hlt⟩

theorem basicClient_iff (hr : 0 ∉ r) (hp : p <+: r) :
    Prints size r (basicClient rcvBuffer (some p)) ↔ p = r ∧ r.length < size := by
  have hp0 : 0 ∉ p := fun h0 => hr (hp.subset h0)
  have hm : Holds (write (write rcvBuffer 0 p) p.length [0]) p :=
    terminate_holds hp0 (read_write _ _ _)
  rw [basicClient, prints_iff hr, and_comm]
  constructor
  · rintro ⟨h, hlt⟩
    exact ⟨hm.inj h, hlt⟩
  · rintro ⟨rfl, hlt⟩
    exact ⟨hm, hlt⟩

theorem unterminated_iff (hr : 0 ∉ r) (hp : p <+: r) :
    Prints size r (unterminated rcvBuffer (some p)) ↔
      r.length < size ∧ Completes rcvBuffer p r := by
  obtain ⟨q, rfl⟩ := hp
  have hbehind : read (write rcvBuffer 0 p) p.length (q.length + 1) =
      read rcvBuffer p.length (q.length + 1) :=
    read_congr fun i hi _ => write_apply_after _ _ (by omega)
  have hk : (p ++ q).length + 1 = p.length + (q.length + 1) := by
    rw [List.length_append, Nat.add_assoc]
  rw [unterminated, prints_iff hr, ← streq_iff_holds _ hr, streq_iff, Completes]
  rw [hk, Nat.add_sub_cancel_left, read_add, read_write, List.drop_left, Nat.zero_add,
    List.append_assoc, List.append_cancel_left_eq, hbehind]

/-- A client prints the reply exactly when the bytes of its first read are the whole reply
and it terminates them, or when what its buffer held behind them is the rest of the reply. -/
theorem prints_reply_iff (BUFSIZ : Nat) (c : Client) (r : Reply BUFSIZ c)
    (d : Delivery r.text (c.count BUFSIZ)) (rcvBuffer : Mem) :
    Prints (c.size BUFSIZ) r.text (c.receive rcvBuffer (some d.first)) ↔
      c.Meets BUFSIZ rcvBuffer d.first r.text := by
  cases c with
  | basic => exact basicClient_iff r.noNul d.first_prefix
  | helloWorld => exact unterminated_iff r.noNul d.first_prefix
  | ls => exact unterminated_iff r.noNul d.first_prefix
  | singleChatting =>
    rw [Client.receive, singleChattingClient, unterminated_iff r.noNul d.first_prefix]
    have hlen := r.whole rfl
    simp [Client.Meets, Client.size, hlen]

def oneByte : Reply 8192 .helloWorld where
  text := ascii ['x']
  noNul := by decide
  nonempty := by decide
  fits := by decide
  whole h := by cases h

def oneRead : Delivery oneByte.text (Client.count 8192 .helloWorld) :=
  ⟨[ascii ['x']], rfl, by decide, by decide⟩

/-- Over a buffer that holds other bytes, a reply that arrives at once is printed with them. -/
theorem old_bytes_printed : ¬ Prints (Client.size 8192 .helloWorld) oneByte.text
    (Client.receive .helloWorld (fun _ => 1) (some oneRead.first)) := by
  rintro ⟨htext, hlt⟩
  have hnul := str_nul (htext ▸ hlt)
  rw [htext] at hnul
  exact absurd hnul (by decide)

end LinuxExamples.ReplyClients
