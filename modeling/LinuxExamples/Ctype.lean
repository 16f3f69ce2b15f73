import Mathlib.Data.UInt

namespace LinuxExamples.Ctype

/-- The character classes of `ctype.h` in the C locale. -/
def isspace (c : UInt8) : Bool := c == 32 || (9 ≤ c && c ≤ 13)

def isdigit (c : UInt8) : Bool := 48 ≤ c && c ≤ 57

def isupper (c : UInt8) : Bool := 65 ≤ c && c ≤ 90

theorem le_toNat_of_isdigit {c : UInt8} (h : isdigit c) : 48 ≤ c.toNat := by
  simp only [isdigit, Bool.and_eq_true, decide_eq_true_eq] at h
  exact UInt8.le_iff_toNat_le.mp h.1

theorem isspace_of_isdigit {c : UInt8} (h : isdigit c) : isspace c = false := by
  have hle := le_toNat_of_isdigit h
  have hne : c ≠ 32 := by
    rintro rfl
    exact absurd hle (by decide)
  have hlt : ¬ c ≤ 13 := fun hc => absurd (UInt8.le_iff_toNat_le.mp hc) (by simpa using by omega)
  simp [isspace, hne, hlt]

end LinuxExamples.Ctype
