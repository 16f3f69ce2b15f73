import LinuxExamples.Bytes

namespace LinuxExamples.ChatServer

open Bytes

def ID_LEN : Nat := 8

def CHATTING_ROOM_NUM : Nat := 100

def SUCCESS : Int := 1

def FAIL : Int := -1

def character (rndVal : Nat) : UInt8 :=
  if rndVal < 10 then UInt8.ofNat (48 + rndVal)
  else if rndVal > 35 then UInt8.ofNat (rndVal + 61)
  else UInt8.ofNat (rndVal + 55)

/-- The loop of `createID` from index `i` on, with `left` indices to go. Each `sprintf`
writes a NUL behind its byte. -/
def createLoop (rand : Nat → Nat) : Nat → Nat → Mem → Nat × Mem
  | i, 0, buf => (i, buf)
  | i, left + 1, buf =>
    let rndVal := rand i % 26
    createLoop rand (i + 1) left (write buf i [character rndVal, 0])

/-- `srand` gets the time in seconds as an `unsigned`, and `rand seed i` is what the call
number `i` of `rand` returns after it. -/
def createID (rand : UInt32 → Nat → Nat) (time : Nat) (buf : Mem) (num : Nat) : Int × Mem :=
  let r := createLoop (rand (UInt32.ofNat time)) 0 num buf
  (if r.1 < num then FAIL else SUCCESS, r.2)

/-- The state of the server, with the lines of its DB file. -/
structure Server where
  randomID : Mem
  chatting_room_count : Nat
  Chatting_room : Mem
  db : List (Nat × List UInt8)

/-- `id` is the offset of the entry whose address is passed. -/
def storeID (s : Server) (id : Nat) (buf : Mem) (count : Nat) : Server :=
  { s with
    Chatting_room := write s.Chatting_room id (read buf 0 sizeofPointer)
    db := s.db ++ [(count, str buf 0 (ID_LEN + 1))] }

def addRoom (s : Server) : Server :=
  let count := s.chatting_room_count + 1
  storeID { s with chatting_room_count := count } 0 s.randomID count

/-- The parent's part of the menu-1 branch, and what it writes to the client. -/
def createRoom (rand : UInt32 → Nat → Nat) (s : Server) (time : Nat) :
    Server × Option (List UInt8) :=
  let r := createID rand time s.randomID ID_LEN
  let s := { s with randomID := r.2 }
  if r.1 = SUCCESS then (addRoom s, some (str s.randomID 0 (ID_LEN + 1))) else (s, none)

def createRooms (rand : UInt32 → Nat → Nat) : Server → List Nat → List (List UInt8)
  | _, [] => []
  | s, time :: times =>
    let r := createRoom rand s time
    r.2.toList ++ createRooms rand r.1 times

/-- The server at its start, when `randomID` is not set and `Chatting_room` is zero. -/
def start (randomID : Mem) : Server := ⟨randomID, 0, fun _ => 0, []⟩

/-- An ID, as `randomID` holds it when it is stored. -/
structure RoomID where
  buf : Mem
  id : List UInt8
  length : id.length = ID_LEN
  holds : Holds buf id

def addRooms (s : Server) (xs : List RoomID) : Server :=
  xs.foldl (fun s x => addRoom { s with randomID := x.buf }) s

/-- The fields of an entry behind its `id_value`. -/
inductive Field
  | pid
  | fds
  | next
  | before

/-- Under LP64, with `id_value` at offset 0 and padding behind it. -/
def Field.offset : Field → Nat
  | .pid => 4
  | .fds => 8
  | .next => 16
  | .before => 24

def Field.size : Field → Nat
  | .pid => 4
  | .fds => 8
  | .next => 8
  | .before => 8

def sizeofID : Nat := 32

def Server.field (s : Server) (i : Fin CHATTING_ROOM_NUM) (f : Field) : List UInt8 :=
  read s.Chatting_room (i * sizeofID + f.offset) f.size

def Server.id (s : Server) (i : Fin CHATTING_ROOM_NUM) : List UInt8 :=
  read s.Chatting_room (i * sizeofID) ID_LEN

def Readable (s : Server) (xs : List RoomID) : Prop :=
  ∃ place : Fin xs.length → Fin CHATTING_ROOM_NUM, Function.Injective place ∧
    ∀ i, s.id (place i) = xs[i].id

/-- No call that stores one of the IDs changes a field of an entry behind its `id_value`. -/
def FieldsKept (s : Server) (xs : List RoomID) : Prop :=
  ∀ ys x, ys ++ [x] <+: xs →
    ∀ i f, (addRooms s (ys ++ [x])).field i f = (addRooms s ys).field i f

/-- The table serves its purpose for the IDs stored from the start of the server on. -/
def Registry (randomID : Mem) (xs : List RoomID) : Prop :=
  Readable (addRooms (start randomID) xs) xs ∧ FieldsKept (start randomID) xs

theorem character_inj : ∀ a < 26, ∀ b < 26, character a = character b → a = b := by decide

theorem character_ne_zero : ∀ a < 26, 0 ≠ character a := by decide

def roomID (rand : UInt32 → Nat → Nat) (time : Nat) : List UInt8 :=
  (List.range' 0 ID_LEN).map fun i => character (rand (UInt32.ofNat time) i % 26)

variable {rand : UInt32 → Nat → Nat} {s : Server}

theorem createLoop_eq (rand : Nat → Nat) (i left : Nat) (buf : Mem) :
    createLoop rand i (left + 1) buf = (i + left + 1,
      write buf i ((List.range' i (left + 1)).map (fun j => character (rand j % 26)) ++ [0])) := by
  induction left generalizing i buf with
  | zero => rfl
  | succ left ih =>
    have hi : i + 1 + left + 1 = i + (left + 1) + 1 := by omega
    have hnul (c : UInt8) (cs : List UInt8) :
        write (write buf i [c, 0]) (i + 1) (cs ++ [0]) = write buf i (c :: cs ++ [0]) := by
      have hpair : write buf i [c, 0] = write (write buf i [c]) (i + 1) [0] :=
        write_append buf i [c] [0]
      have hall : write buf i (c :: cs ++ [0]) = write (write buf i [c]) (i + 1) (cs ++ [0]) :=
        write_append buf i [c] (cs ++ [0])
      have hle : [(0 : UInt8)].length ≤ (cs ++ [0]).length := by simp
      rw [hpair, hall, write_write _ _ _ _ hle]
    rw [createLoop, ih, hi, hnul]
    rfl

theorem createID_eq (time : Nat) (buf : Mem) :
    createID rand time buf ID_LEN = (SUCCESS, strcpy buf (roomID rand time)) := by
  rw [createID, ID_LEN, createLoop_eq]
  rfl

theorem roomID_noNul (time : Nat) : 0 ∉ roomID rand time := by
  intro h0
  obtain ⟨i, _, hi⟩ := List.mem_map.mp h0
  exact character_ne_zero _ (Nat.mod_lt _ (by decide)) hi.symm

theorem roomID_length (time : Nat) : (roomID rand time).length = ID_LEN := by
  simp [roomID]

/-- What `createID` leaves in `randomID`. -/
def created (rand : UInt32 → Nat → Nat) (time : Nat) (buf : Mem) : RoomID :=
  ⟨strcpy buf (roomID rand time), roomID rand time, roomID_length time,
    strcpy_holds buf (roomID_noNul time)⟩

theorem createRoom_eq (s : Server) (time : Nat) :
    createRoom rand s time =
      (addRooms s [created rand time s.randomID], some (roomID rand time)) := by
  have hid : str (strcpy s.randomID (roomID rand time)) 0 (ID_LEN + 1) = roomID rand time :=
    (strcpy_holds _ (roomID_noNul time)).str_eq (by rw [roomID_length]; omega)
  rw [createRoom, createID_eq]
  simp only [↓reduceIte, hid]
  rfl

theorem createRooms_eq (s : Server) (times : List Nat) :
    createRooms rand s times = times.map (roomID rand) := by
  induction times generalizing s with
  | nil => rfl
  | cons time times ih =>
    rw [createRooms, createRoom_eq, ih]
    rfl

theorem roomID_ne_iff (t u : Nat) : roomID rand t ≠ roomID rand u ↔
    ∃ i < ID_LEN, rand (UInt32.ofNat t) i % 26 ≠ rand (UInt32.ofNat u) i % 26 := by
  have hlt (n : Nat) : n % 26 < 26 := Nat.mod_lt n (by decide)
  rw [ne_eq, roomID, roomID, List.map_inj_left, not_forall]
  constructor
  · rintro ⟨i, hi⟩
    obtain ⟨hmem, hne⟩ := Classical.not_imp.mp hi
    refine ⟨i, by simpa using hmem, fun he => hne (congrArg character he)⟩
  · rintro ⟨i, hi, hne⟩
    exact ⟨i, Classical.not_imp.mpr ⟨by simpa using hi,
      fun he => hne (character_inj _ (hlt _) _ (hlt _) he)⟩⟩

/-- The IDs of all rooms are distinct exactly when any two of the seeds make the generator
differ, modulo 26, in one of the values that make up an ID. -/
theorem ids_unique_iff (rand : UInt32 → Nat → Nat) (s : Server) (times : List Nat) :
    (createRooms rand s times).Nodup ↔ times.Pairwise fun t u =>
      ∃ i < ID_LEN, rand (UInt32.ofNat t) i % 26 ≠ rand (UInt32.ofNat u) i % 26 := by
  rw [createRooms_eq, List.Nodup, List.pairwise_map]
  exact List.Pairwise.iff fun t u => roomID_ne_iff t u

/-- Two rooms created within one second, by a generator that yields zeros. -/
theorem same_second : ¬ ∀ (rand : UInt32 → Nat → Nat) (s : Server) (times : List Nat),
    times.Pairwise (· ≤ ·) → (createRooms rand s times).Nodup := by
  intro h
  have hids := h (fun _ _ => 0) (start fun _ => 0) [0, 0] (by decide)
  rw [createRooms_eq] at hids
  exact absurd hids (by decide)

theorem stored (s : Server) (x : RoomID) :
    (addRooms s [x]).Chatting_room = write s.Chatting_room 0 x.id := by
  have hid : read x.buf 0 sizeofPointer = x.id := by
    have hb := x.holds.bytes
    rwa [x.length] at hb
  change write s.Chatting_room 0 (read x.buf 0 sizeofPointer) = _
  rw [hid]

theorem stored_behind (s : Server) (xs : List RoomID) {i : Nat} (hi : ID_LEN ≤ i) :
    (addRooms s xs).Chatting_room i = s.Chatting_room i := by
  induction xs generalizing s with
  | nil => rfl
  | cons x xs ih =>
    have hx : 0 + x.id.length ≤ i := by rwa [x.length, Nat.zero_add]
    have hs := congrFun (stored s x) i
    rw [write_apply_after _ _ hx] at hs
    exact (ih _).trans hs

/-- The only field that a call changes is the `pid` of the first entry. -/
theorem stored_field (s : Server) (xs : List RoomID) {i : Fin CHATTING_ROOM_NUM} {f : Field}
    (h : i.val ≠ 0 ∨ f ≠ .pid) : (addRooms s xs).field i f = s.field i f := by
  have hbehind : ID_LEN ≤ i.val * sizeofID + f.offset := by
    obtain hi | hf := h
    · rw [ID_LEN, sizeofID]
      omega
    · cases f with
      | pid => exact absurd rfl hf
      | fds | next | before => exact Nat.le_add_left_of_le (by decide)
  exact read_congr fun j hj _ => stored_behind s xs (hbehind.trans hj)

theorem readable_place {randomID : Mem} {xs : List RoomID} {i : Fin CHATTING_ROOM_NUM}
    {x : RoomID} (h : (addRooms (start randomID) xs).id i = x.id) : i.val = 0 := by
  by_contra hi
  have hbehind : ID_LEN ≤ i.val * sizeofID := by
    rw [ID_LEN, sizeofID]
    omega
  have hzero := stored_behind (start randomID) xs hbehind
  apply x.holds.noNul
  rw [← h, Server.id, ID_LEN, read_succ, hzero]
  exact List.mem_cons_self

theorem readable_iff (randomID : Mem) (xs : List RoomID) :
    Readable (addRooms (start randomID) xs) xs ↔ xs.length ≤ 1 := by
  constructor
  · rintro ⟨place, hinj, hid⟩
    by_contra hlen
    have hplace (i : Fin xs.length) : (place i).val = 0 := readable_place (hid i)
    have heq : place ⟨0, by omega⟩ = place ⟨1, by omega⟩ :=
      Fin.ext ((hplace _).trans (hplace _).symm)
    exact absurd (hinj heq) (by simp)
  · intro hlen
    cases xs with
    | nil => exact ⟨nofun, nofun, nofun⟩
    | cons x xs =>
      obtain rfl : xs = [] := List.length_eq_zero_iff.mp (by simpa using hlen)
      have hone (i j : Fin [x].length) : i = j := @Subsingleton.elim (Fin 1) _ i j
      refine ⟨fun _ => ⟨0, by decide⟩, fun i j _ => hone i j, fun i => ?_⟩
      obtain rfl : i = ⟨0, Nat.one_pos⟩ := hone i _
      have hr := read_write (start randomID).Chatting_room 0 x.id
      rw [x.length] at hr
      rw [Server.id, stored, Nat.zero_mul, hr]
      rfl

theorem fieldsKept_iff (randomID : Mem) (xs : List RoomID) :
    FieldsKept (start randomID) xs ↔ xs = [] := by
  constructor
  · intro h
    cases xs with
    | nil => rfl
    | cons x xs =>
      exfalso
      have hlen : 4 < x.id.length := by rw [x.length, ID_LEN]; decide
      have hpid := h [] x (List.prefix_append [x] xs) ⟨0, by decide⟩ .pid
      have hbyte := read_eq_congr hpid (i := 0) (by decide)
      have hid := write_apply_at (start randomID).Chatting_room x.id 0 4 hlen
      rw [List.nil_append, stored] at hbyte
      apply x.holds.noNul
      rw [show (0 : UInt8) = x.id[4] from hbyte.symm.trans hid]
      exact List.getElem_mem hlen
  · rintro rfl ys x hp
    simp at hp

/-- Each ID goes to the first entry, over the ID before it, and is longer than the field it
goes to: it changes the `pid` of that entry. -/
theorem registry_iff (randomID : Mem) (xs : List RoomID) : Registry randomID xs ↔ xs = [] := by
  rw [Registry, readable_iff, fieldsKept_iff, and_iff_right_iff_imp]
  rintro rfl
  exact Nat.zero_le 1

def oneRoom : RoomID := created (fun _ _ => 0) 0 fun _ => 0

theorem oneRoom_unregistered : ¬ ∀ (randomID : Mem) (xs : List RoomID),
    xs.length ≤ CHATTING_ROOM_NUM → Registry randomID xs := by
  intro h
  have hkept := (h (fun _ => 0) [oneRoom] (by decide)).2
  rw [fieldsKept_iff] at hkept
  exact List.cons_ne_nil _ _ hkept

end LinuxExamples.ChatServer
