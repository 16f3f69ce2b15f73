import LinuxExamples.ChatServer
import LinuxExamples.Ctype
import LinuxExamples.SenderBounds

namespace LinuxExamples.RandomID

open Bytes ChatServer Ctype
open FileMonitor (Store)
open SenderBounds (perform)

/-- The stores of the `sprintf` calls of `createID` from index `i` on, with `left` indices to
go. -/
def sprintfs (rand : Nat → Nat) : Nat → Nat → List Store
  | _, 0 => []
  | i, left + 1 => (i, [character (rand i % 26), 0]) :: sprintfs rand (i + 1) left

theorem perform_sprintfs (rand : Nat → Nat) (i left : Nat) (buf : Mem) :
    perform buf (sprintfs rand i left) = (createLoop rand i left buf).2 := by
  induction left generalizing i buf with
  | zero => rfl
  | succ left ih => exact ih (i + 1) (write buf i [character (rand i % 26), 0])

/-- The last call stores its NUL two bytes behind its start. -/
theorem sprintfs_last (rand : Nat → Nat) (i left : Nat) :
    (i + left, [character (rand (i + left) % 26), 0]) ∈ sprintfs rand i (left + 1) := by
  induction left generalizing i with
  | zero => exact List.mem_cons_self
  | succ left ih =>
    have hi : i + (left + 1) = i + 1 + left := by omega
    rw [hi]
    exact List.mem_cons_of_mem _ (ih (i + 1))

theorem character_class : ∀ a < 26, isdigit (character a) ∨ isupper (character a) := by
  decide

/-- The ID that the results of `rand` give, one character for each. -/
def idOf (rand : Nat → Nat) (num : Nat) : List UInt8 :=
  (List.range num).map fun i => character (rand i % 26)

theorem idOf_class (rand : Nat → Nat) (num : Nat) : ∀ c ∈ idOf rand num, isdigit c ∨ isupper c := by
  intro c hc
  obtain ⟨i, _, rfl⟩ := List.mem_map.mp hc
  exact character_class _ (Nat.mod_lt _ (by decide))

theorem idOf_noNul (rand : Nat → Nat) (num : Nat) : 0 ∉ idOf rand num := by
  intro h
  exact absurd (idOf_class rand num 0 h) (by decide)

/-- `createID` reports a terminated ID of `num` digits and capital letters. -/
structure Creates (rand : UInt32 → Nat → Nat) (time : Nat) (buf : Mem) (num : Nat) : Prop where
  success : (createID rand time buf num).1 = SUCCESS
  holds : Holds (createID rand time buf num).2 (idOf (rand (UInt32.ofNat time)) num)
  length : (idOf (rand (UInt32.ofNat time)) num).length = num
  characters : ∀ c ∈ idOf (rand (UInt32.ofNat time)) num, isdigit c ∨ isupper c
  stores : perform buf (sprintfs (rand (UInt32.ofNat time)) 0 num) = (createID rand time buf num).2

theorem creates (rand : UInt32 → Nat → Nat) (time : Nat) (buf : Mem) {num : Nat} (h : 1 ≤ num) :
    Creates rand time buf num := by
  obtain ⟨left, rfl⟩ := Nat.exists_eq_add_of_le' h
  have hid : idOf (rand (UInt32.ofNat time)) (left + 1) =
      (List.range' 0 (left + 1)).map fun i => character (rand (UInt32.ofNat time) i % 26) := by
    rw [idOf, List.range_eq_range']
  refine ⟨?_, ?_, ?_, idOf_class _ _, perform_sprintfs _ _ _ _⟩
  · rw [createID, createLoop_eq, Nat.zero_add]
    exact if_neg (Nat.lt_irrefl _)
  · rw [createID, createLoop_eq, ← hid]
    exact holds_write buf (idOf_noNul _ _) []
  · rw [idOf, List.length_map, List.length_range]

/-- The stores of `createID` stay inside a buffer of `num` bytes. -/
def Inside (rand : UInt32 → Nat → Nat) (time num : Nat) : Prop :=
  ∀ x ∈ sprintfs (rand (UInt32.ofNat time)) 0 num, x.1 + x.2.length ≤ num

/-- The stores are those of the loop, and the last terminator goes behind the buffer. -/
theorem not_inside (rand : UInt32 → Nat → Nat) (time : Nat) {num : Nat} (h : 1 ≤ num) :
    ¬ Inside rand time num := by
  obtain ⟨left, rfl⟩ := Nat.exists_eq_add_of_le' h
  intro hin
  have hlast := hin _ (sprintfs_last _ 0 left)
  simp only [List.length_cons, List.length_nil] at hlast
  omega

/-- In every call all of it is right but the bounds. -/
theorem createID_overruns (rand : UInt32 → Nat → Nat) (time : Nat) (buf : Mem) (num : Nat)
    (h : 1 ≤ num) : Creates rand time buf num ∧ ¬ Inside rand time num :=
  ⟨creates rand time buf h, not_inside rand time h⟩

/-- The call of `main`. -/
theorem createID_overruns_main : 1 ≤ ID_LEN ∧
    (Creates (fun _ i => i) 0 (fun _ => 0) ID_LEN ∧ ¬ Inside (fun _ i => i) 0 ID_LEN) :=
  ⟨by decide, createID_overruns _ 0 _ ID_LEN (by decide)⟩

theorem randomID_overrun : ¬ ∀ (rand : UInt32 → Nat → Nat) (time num : Nat), 1 ≤ num →
    Inside rand time num := by
  intro h
  exact not_inside (fun _ _ => 0) 0 (by decide) (h _ _ ID_LEN (by decide))

end LinuxExamples.RandomID
