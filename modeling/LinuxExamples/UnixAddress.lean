import LinuxExamples.SenderBounds
import LinuxExamples.UnixSocket

namespace LinuxExamples.UnixAddress

open Bytes
open FileMonitor (Store strncpy)
open SenderBounds
open UnixSocket (ClientKernel ServerKernel SockType sunPath)

/-- The size of `filepath` in `main`. -/
def filepathSize : Nat := 1024

def sunPathSize : Nat := 108

/-- The stores of `setting_sock_filepath` to `out`, of which `sizeof` gives the size of a
pointer. -/
def settingSockFilepath (path : List UInt8) : List Store :=
  bytewise 0 (List.replicate sizeofPointer 0) ++ strcpyStores 0 path

/-- The stores of `strncpy(addr.sun_path, filepath, sizeof(addr.sun_path) - 1)`. -/
def setSunPath (filepath : Mem) : List Store :=
  strncpy 0 (str filepath 0 (sunPathSize - 1)) (sunPathSize - 1)

/-- What the stack holds at `filepath` and at `addr.sun_path` beforehand. -/
structure Frame where
  filepath : Mem
  sunPath : Mem

def Frame.copied (f : Frame) (path : List UInt8) : Mem :=
  perform f.filepath (settingSockFilepath path)

/-- `addr.sun_path` as it is given to `bind`, `connect` or `sendto`. -/
def Frame.address (f : Frame) (path : List UInt8) : Mem :=
  perform (memset f.sunPath sunPathSize) (setSunPath (f.copied path))

section Copies

variable (f : Frame) {path : List UInt8} (hpath : 0 ∉ path)

theorem copied_eq (path : List UInt8) :
    f.copied path = strcpy (write f.filepath 0 (List.replicate sizeofPointer 0)) path := by
  rw [Frame.copied, settingSockFilepath, perform_append, perform_bytewise]
  exact perform_bytewise _ _ _

include hpath

theorem setSunPath_eq :
    setSunPath (f.copied path) =
      bytewise 0 (padded (path.take (sunPathSize - 1)) (sunPathSize - 1)) := by
  have hholds := strcpy_holds (write f.filepath 0 (List.replicate sizeofPointer 0)) hpath
  rw [setSunPath, copied_eq, hholds.str_take, strncpy_eq]

theorem address_eq : f.address path = write (memset f.sunPath sunPathSize) 0
    (padded (path.take (sunPathSize - 1)) (sunPathSize - 1)) := by
  rw [Frame.address, setSunPath_eq f hpath, perform_bytewise]

end Copies

theorem padded_take (path : List UInt8) :
    padded (path.take (sunPathSize - 1)) (sunPathSize - 1) ++ [0] = sunPath path := by
  have hlen : (path.take (sunPathSize - 1)).length ≤ sunPathSize - 1 := List.length_take_le _ _
  have hpad : sunPathSize - (path.take (sunPathSize - 1)).length =
      sunPathSize - 1 - (path.take (sunPathSize - 1)).length + 1 := by
    unfold sunPathSize at hlen ⊢
    omega
  rw [padded, List.take_take, Nat.min_self, List.append_assoc, ← List.replicate_succ', ← hpad]
  rfl

/-- The two copies leave what the kernel is given. -/
theorem read_address (f : Frame) {path : List UInt8} (hpath : 0 ∉ path) :
    read (f.address path) 0 sunPathSize = sunPath path := by
  have hlen := padded_length (path.take (sunPathSize - 1)) (sunPathSize - 1)
  have hr := read_write (memset f.sunPath sunPathSize) 0
    (padded (path.take (sunPathSize - 1)) (sunPathSize - 1))
  have hlast : f.address path (sunPathSize - 1) = 0 := by
    rw [address_eq f hpath, write_apply_after _ _ (by rw [hlen]; decide)]
    exact memset_apply _ (by decide)
  have hsize : sunPathSize = sunPathSize - 1 + 1 := rfl
  rw [hlen, ← address_eq f hpath] at hr
  rw [← padded_take, hsize, read_add, hr, Nat.zero_add, read_succ, hlast, read_zero]
  rfl

theorem sunPath_split (path : List UInt8) : ∃ zs, sunPath path = path.take 107 ++ 0 :: zs := by
  have hlen : (path.take 107).length ≤ 107 := List.length_take_le _ _
  obtain ⟨zs, hzs⟩ := padded_short (Nat.lt_succ_of_le hlen)
  rw [padded, List.take_of_length_le (Nat.le_succ_of_le hlen)] at hzs
  exact ⟨zs, hzs⟩

theorem sunPath_inj {p q : List UInt8} (hp : 0 ∉ p) (hq : 0 ∉ q) :
    sunPath p = sunPath q ↔ p.take 107 = q.take 107 := by
  refine ⟨fun h => ?_, fun h => ?_⟩
  · obtain ⟨zs, hzs⟩ := sunPath_split p
    obtain ⟨ys, hys⟩ := sunPath_split q
    have hp0 : 0 ∉ p.take 107 := fun h0 => hp (List.mem_of_mem_take h0)
    have hq0 : 0 ∉ q.take 107 := fun h0 => hq (List.mem_of_mem_take h0)
    have hholds := holds_write (fun _ => 0) hp0 zs
    rw [← hzs, h, hys] at hholds
    exact hholds.inj (holds_write _ hq0 ys)
  · rw [sunPath, sunPath, h]

theorem doRecvData_addr {type : SockType} {path : List UInt8} {stack : Mem} {k : ServerKernel}
    {s : UnixSocket.ServerRun} (h : UnixSocket.doRecvData type path stack k = some s)
    (hsocket : k.socket = true) : s.addr = sunPath path := by
  simp only [UnixSocket.doRecvData, hsocket, Bool.true_eq_false, ↓reduceIte] at h
  split at h
  · cases h
    rfl
  · cases type with
    | sockStream =>
      obtain ⟨r, _, rfl⟩ := Option.map_eq_some_iff.mp h
      split <;> rfl
    | sockDgram =>
      cases hk : k.recvfrom <;> simp only [hk] at h <;> cases h <;> rfl
    | other =>
      cases h
      rfl

theorem doSendData_addr {type : SockType} {path : List UInt8} {message : Mem} {k : ClientKernel}
    {c : UnixSocket.ClientRun} (h : UnixSocket.doSendData type path message k = some c)
    (hsocket : k.socket = true) : c.addr = sunPath path := by
  simp only [UnixSocket.doSendData, hsocket, Bool.true_eq_false, ↓reduceIte] at h
  cases type with
  | sockStream =>
    dsimp only at h
    split at h
    · cases h
      rfl
    · obtain ⟨r, _, rfl⟩ := Option.map_eq_some_iff.mp h
      split <;> rfl
  | sockDgram =>
    dsimp only at h
    split at h <;> cases h <;> rfl
  | other =>
    cases h
    rfl

/-- An argument that fits in `filepath` with its terminator. -/
structure Path where
  bytes : List UInt8
  noNul : 0 ∉ bytes
  fits : bytes.length < filepathSize

/-- The copies of a path stay inside both arrays, and every server and client with a socket uses
the terminated address with the first 107 bytes of the path. -/
structure Addressed (f : Frame) (path : List UInt8) : Prop where
  filepath : ∀ x ∈ settingSockFilepath path, x.1 + x.2.length ≤ filepathSize
  sunPath : ∀ x ∈ setSunPath (f.copied path), x.1 + x.2.length ≤ sunPathSize
  nul : ∃ i < sunPathSize, f.address path i = 0
  text : str (f.address path) 0 sunPathSize = path.take 107
  bound : ∀ type stack k s, UnixSocket.doRecvData type path stack k = some s →
    k.socket = true → s.addr = read (f.address path) 0 sunPathSize
  used : ∀ type message k c, UnixSocket.doSendData type path message k = some c →
    k.socket = true → c.addr = read (f.address path) 0 sunPathSize

theorem Path.addressed (p : Path) (f : Frame) : Addressed f p.bytes := by
  have hfits := p.fits
  obtain ⟨zs, hzs⟩ := sunPath_split p.bytes
  have hread := read_address f p.noNul
  have haddress :
      f.address p.bytes = write (f.address p.bytes) 0 (p.bytes.take 107 ++ 0 :: zs) := by
    rw [← hzs, ← hread, write_read]
  have hholds : Holds (f.address p.bytes) (p.bytes.take 107) := by
    rw [haddress]
    exact holds_write _ (fun h0 => p.noNul (List.mem_of_mem_take h0)) zs
  have hlen : (p.bytes.take 107).length < sunPathSize :=
    (List.length_take_le _ _).trans_lt (by decide)
  refine ⟨?_, ?_, ⟨_, hlen, hholds.nul⟩, hholds.str_eq hlen.le, ?_, ?_⟩
  · rw [settingSockFilepath, strcpyStores, List.forall_mem_append]
    constructor
    · apply (bytewise_inside _ _ (Nat.zero_le _)).mpr
      rw [List.length_replicate]
      decide
    · apply (bytewise_inside _ _ (Nat.zero_le _)).mpr
      rw [List.length_append, List.length_singleton]
      omega
  · rw [setSunPath_eq f p.noNul]
    apply (bytewise_inside _ _ (Nat.zero_le _)).mpr
    rw [padded_length]
    decide
  · intro type stack k s h hsocket
    rw [doRecvData_addr h hsocket, hread]
  · intro type message k c h hsocket
    rw [doSendData_addr h hsocket, hread]

/-- A path is cut to 107 bytes, and nothing else about it is lost. -/
theorem addresses_eq_iff (p q : Path) (f g : Frame) :
    Addressed f p.bytes ∧ Addressed g q.bytes ∧
      (read (f.address p.bytes) 0 sunPathSize = read (g.address q.bytes) 0 sunPathSize ↔
        p.bytes.take 107 = q.bytes.take 107) := by
  refine ⟨p.addressed f, q.addressed g, ?_⟩
  rw [read_address f p.noNul, read_address g q.noNul, sunPath_inj p.noNul q.noNul]

theorem noNul_append_singleton {n : Nat} {c d : UInt8} (hc : c ≠ 0) (hd : d ≠ 0) :
    0 ∉ List.replicate n c ++ [d] := by
  rw [List.mem_append, List.mem_singleton]
  rintro (h | h)
  · exact hc (List.eq_of_mem_replicate h).symm
  · exact hd h.symm

/-- Two paths of 108 bytes that differ in the last one. -/
theorem long_paths_share_address : ¬ ∀ (p q : List UInt8) (f g : Frame), p ≠ [] → q ≠ [] →
    0 ∉ p → 0 ∉ q →
      (read (f.address p) 0 sunPathSize = read (g.address q) 0 sunPathSize ↔ p = q) := by
  intro h
  have hp := noNul_append_singleton (n := 107) (c := 120) (d := 97) (by decide) (by decide)
  have hq := noNul_append_singleton (n := 107) (c := 120) (d := 98) (by decide) (by decide)
  have heq := h _ _ ⟨fun _ => 0, fun _ => 0⟩ ⟨fun _ => 0, fun _ => 0⟩
    (List.concat_ne_nil _ _) (List.concat_ne_nil _ _) hp hq
  rw [read_address _ hp, read_address _ hq, sunPath_inj hp hq] at heq
  have hlen : (List.replicate 107 (120 : UInt8)).length = 107 := List.length_replicate
  rw [List.take_left' hlen, List.take_left' hlen] at heq
  exact absurd (List.append_cancel_left (heq.mp rfl)) (by decide)

end LinuxExamples.UnixAddress
