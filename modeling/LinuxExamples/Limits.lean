import Mathlib

namespace LinuxExamples.Limits

def INT_MAX : Nat := 2 ^ 31 - 1

/-- The greatest value of a POSIX semaphore. -/
def SEM_VALUE_MAX : Nat := INT_MAX

theorem toInt_le_INT_MAX (c : Int32) : c.toInt ≤ INT_MAX := Int32.toInt_le c

/-- An `int` that holds the low bits of a number is that number as long as it fits. -/
theorem toInt_ofInt_of_le {x : Int} (h : 0 ≤ x) (hle : x ≤ INT_MAX) :
    (Int32.ofInt x).toInt = x := by
  rw [INT_MAX] at hle
  apply Int32.toInt_ofInt_of_le <;> omega

/-- Adding one wraps at the greatest number. -/
theorem toInt_succ (c : Int32) :
    (c + 1).toInt = if c.toInt = INT_MAX then -2 ^ 31 else c.toInt + 1 := by
  have hlow : -2 ^ 31 ≤ c.toInt := Int32.le_toInt c
  have hhigh := toInt_le_INT_MAX c
  have hone : (1 : Int32).toInt = 1 := rfl
  rw [INT_MAX] at hhigh ⊢
  rw [Int32.toInt_add, hone, Int.bmod_eq_emod]
  split <;> split <;> omega

end LinuxExamples.Limits
