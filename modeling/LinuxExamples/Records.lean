import LinuxExamples.Bytes

namespace LinuxExamples.Records

open Bytes

/-- A record of an integer and a character array without padding between them. -/
abbrev Record := Int × Mem

variable (n : Nat)

/-- Whether `memcmp` over two whole records with arrays of `n` bytes is not zero. -/
def memcmp (a b : Record) : Bool := a.1 != b.1 || read a.2 0 n != read b.2 0 n

def memcpy (dst src : Record) : Record := (src.1, write dst.2 0 (read src.2 0 n))

def cleared (r : Record) : Record := (0, memset r.2 n)

/-- The values of all bytes of a record. -/
def fields (r : Record) : Int × List UInt8 := (r.1, read r.2 0 n)

def zero : Int × List UInt8 := (0, List.replicate n 0)

theorem memcmp_iff (a b : Record) : memcmp n a b ↔ fields n a ≠ fields n b := by
  simp only [memcmp, fields, Bool.or_eq_true, bne_iff_ne, ne_eq, Prod.mk.injEq, not_and_or]

theorem memcmp_eq_false_iff (a b : Record) : memcmp n a b = false ↔ fields n a = fields n b := by
  rw [← Bool.not_eq_true, memcmp_iff, not_not]

theorem fields_memcpy (dst src : Record) : fields n (memcpy n dst src) = fields n src := by
  have h := read_write dst.2 0 (read src.2 0 n)
  rw [read_length] at h
  simp only [fields, memcpy, h]

theorem fields_cleared (r : Record) : fields n (cleared n r) = zero n := by
  have h := read_write r.2 0 (List.replicate n 0)
  rw [List.length_replicate] at h
  simp only [fields, cleared, memset, zero, h]

end LinuxExamples.Records
