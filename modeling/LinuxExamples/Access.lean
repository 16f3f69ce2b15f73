import Mathlib

namespace LinuxExamples.Access

/-- Who makes a call. A privileged caller passes every check. -/
structure Caller where
  uid : Nat
  groups : List Nat
  privileged : Bool

/-- Owner, group and permission bits of an object. -/
structure Inode where
  owner : Nat
  group : Nat
  mode : Nat

inductive Want where
  | write | read

def Want.bit : Want → Nat
  | .write => 1
  | .read => 2

/-- Where the permission bits of the caller's class begin. -/
def Inode.shift (o : Inode) (c : Caller) : Nat :=
  if c.uid = o.owner then 6 else if o.group ∈ c.groups then 3 else 0

def Inode.grants (o : Inode) (c : Caller) (wants : List Want) : Bool :=
  c.privileged || wants.all fun w => o.mode.testBit (o.shift c + w.bit)

/-- The permission bits of a new object, less those in the creator's `umask`. -/
def masked (mode umask : Nat) : Nat := mode.ldiff umask

variable {o : Inode} {c : Caller}

theorem grants_mode_zero (h : o.mode = 0) (w : Want) : o.grants c [w] = c.privileged := by
  simp [Inode.grants, h]

/-- Where group and others may not write, only the owner and the privileged do. -/
theorem grants_write {mode umask : Nat} (ho : o.mode = masked mode umask)
    (hgroup : mode.testBit 4 = false) (hother : mode.testBit 1 = false) {wants : List Want}
    (hw : .write ∈ wants) (h : o.grants c wants) : c.privileged ∨ c.uid = o.owner := by
  by_cases hp : c.privileged
  · exact .inl hp
  · refine .inr ?_
    by_contra hu
    simp only [Inode.grants, hp, Bool.false_or, List.all_eq_true] at h
    have hbit := h .write hw
    rw [ho, masked, Nat.testBit_ldiff, Inode.shift, if_neg hu, Want.bit] at hbit
    split at hbit
    · simp [hgroup] at hbit
    · simp [hother] at hbit

end LinuxExamples.Access
