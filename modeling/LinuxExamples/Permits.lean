import Mathlib

namespace LinuxExamples.Permits

/-- A counting semaphore together with the owners of the permits that are taken, one entry
for each permit. -/
structure Pool (ι : Type) where
  value : Nat
  held : List ι

inductive Act (ι : Type) where
  | take (p : ι) | give (p : ι) | set (v : Nat)

variable {ι : Type} [DecidableEq ι]

/-- Only `set` makes or destroys permits. -/
def step (s : Pool ι) : Act ι → Option (Pool ι)
  | .take p => if 0 < s.value then some ⟨s.value - 1, p :: s.held⟩ else none
  | .give p => if p ∈ s.held then some ⟨s.value + 1, s.held.erase p⟩ else none
  | .set v => some { s with value := v }

def Pool.permits (s : Pool ι) : Nat := s.value + s.held.length

theorem take_permits {s t : Pool ι} {p : ι} (h : step s (.take p) = some t) :
    t.permits = s.permits := by
  simp only [step] at h
  split at h
  · cases h
    simp only [Pool.permits, List.length_cons]
    omega
  · cases h

theorem give_permits {s t : Pool ι} {p : ι} (h : step s (.give p) = some t) :
    t.permits = s.permits := by
  simp only [step] at h
  split at h
  · rename_i hp
    cases h
    have hlen := List.length_erase_add_one hp
    simp only [Pool.permits]
    omega
  · cases h

theorem set_permits {s t : Pool ι} {v : Nat} (h : step s (.set v) = some t) :
    t.permits = v + s.held.length := by
  cases h
  rfl

end LinuxExamples.Permits
