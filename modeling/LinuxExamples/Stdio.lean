import Mathlib

namespace LinuxExamples.Stdio

/-- A file that several processes print to, each through a buffer of its own unless it is a
terminal. Every entry of the file has its writer. -/
structure Output (ι α : Type) where
  terminal : Bool
  file : List (ι × α)
  buffer : ι → List α

variable {ι α : Type} [DecidableEq ι]

/-- What one process has got into the file. -/
def linesOf (file : List (ι × α)) (p : ι) : List α := (file.filter fun x => x.1 = p).map Prod.snd

def Output.by_ (o : Output ι α) (p : ι) : List α := linesOf o.file p

def Output.write (o : Output ι α) (p : ι) (xs : List α) : Output ι α :=
  { o with file := o.file ++ xs.map (p, ·) }

/-- A line is written at once only to a terminal. -/
def Output.print (o : Output ι α) (p : ι) (x : α) : Output ι α :=
  if o.terminal then o.write p [x]
  else { o with buffer := Function.update o.buffer p (o.buffer p ++ [x]) }

/-- What a process leaves when it is killed or replaced by another program. -/
def Output.discard (o : Output ι α) (p : ι) : Output ι α :=
  { o with buffer := Function.update o.buffer p [] }

/-- A process `q` that `p` forks begins with a copy of its buffer. -/
def Output.fork (o : Output ι α) (p q : ι) : Output ι α :=
  { o with buffer := Function.update o.buffer q (o.buffer p) }

def Output.flush (o : Output ι α) (p : ι) : Output ι α := (o.write p (o.buffer p)).discard p

/-- A process has printed these lines and has flushed nothing. -/
def Output.Holds (o : Output ι α) (p : ι) (xs : List α) : Prop :=
  o.by_ p = (if o.terminal then xs else []) ∧ o.buffer p = if o.terminal then [] else xs

/-- Nothing of this process has changed. -/
structure Same (o o' : Output ι α) (p : ι) : Prop where
  terminal : o'.terminal = o.terminal
  by_ : o'.by_ p = o.by_ p
  buffer : o'.buffer p = o.buffer p

section Output

variable {o o' : Output ι α} {p q : ι}

theorem linesOf_append (file rest : List (ι × α)) (p : ι) :
    linesOf (file ++ rest) p = linesOf file p ++ linesOf rest p := by
  rw [linesOf, List.filter_append, List.map_append]
  rfl

theorem linesOf_map (xs : List α) (p q : ι) :
    linesOf (xs.map (p, ·)) q = if p = q then xs else [] := by
  by_cases hpq : p = q <;> simp [linesOf, hpq, List.filter_map, Function.comp_def]

/-- The writers of a file share the occurrences of a line. -/
theorem count_eq_sum [Fintype ι] [DecidableEq α] (file : List (ι × α)) (x : α) :
    (file.map Prod.snd).count x = ∑ p, (linesOf file p).count x := by
  induction file with
  | nil => exact Finset.sum_const_zero.symm
  | cons e file ih =>
    obtain ⟨q, y⟩ := e
    have hone (p : ι) : (linesOf [(q, y)] p).count x = if q = p then [y].count x else 0 := by
      rw [show [(q, y)] = [y].map (q, ·) from rfl, linesOf_map]
      split <;> rfl
    have hcons (p : ι) : (linesOf ((q, y) :: file) p).count x =
        (if q = p then [y].count x else 0) + (linesOf file p).count x := by
      rw [← hone, ← List.count_append, ← linesOf_append]
      rfl
    have hhead : (((q, y) :: file).map Prod.snd).count x =
        [y].count x + (file.map Prod.snd).count x := by
      rw [← List.count_append]
      rfl
    rw [hhead, ih, Finset.sum_congr rfl fun p _ => hcons p, Finset.sum_add_distrib,
      Finset.sum_ite_eq, if_pos (Finset.mem_univ q)]

theorem write_by (o : Output ι α) (p : ι) (xs : List α) (q : ι) :
    (o.write p xs).by_ q = o.by_ q ++ if p = q then xs else [] := by
  rw [← linesOf_map]
  exact linesOf_append _ _ _

theorem Same.refl (o : Output ι α) (p : ι) : Same o o p := ⟨rfl, rfl, rfl⟩

theorem Same.trans {o'' : Output ι α} (h : Same o o' p) (h' : Same o' o'' p) : Same o o'' p :=
  ⟨h'.terminal.trans h.terminal, h'.by_.trans h.by_, h'.buffer.trans h.buffer⟩

theorem same_write (h : q ≠ p) (xs : List α) : Same o (o.write q xs) p :=
  ⟨rfl, by rw [write_by, if_neg h, List.append_nil], rfl⟩

theorem same_discard (h : q ≠ p) : Same o (o.discard q) p :=
  ⟨rfl, rfl, Function.update_of_ne h.symm _ _⟩

theorem same_fork (r : ι) (h : q ≠ p) : Same o (o.fork r q) p :=
  ⟨rfl, rfl, Function.update_of_ne h.symm _ _⟩

theorem same_flush (h : q ≠ p) : Same o (o.flush q) p :=
  ⟨rfl, (same_write h _).by_, Function.update_of_ne h.symm _ _⟩

theorem same_print (h : q ≠ p) (x : α) : Same o (o.print q x) p := by
  unfold Output.print
  split
  · exact same_write h _
  · exact ⟨rfl, rfl, Function.update_of_ne h.symm _ _⟩

theorem print_file (o : Output ι α) (p : ι) (x : α) :
    (o.print p x).file = o.file ++ (if o.terminal then [x] else []).map (p, ·) := by
  unfold Output.print
  split
  · rfl
  · exact (List.append_nil _).symm

theorem Output.Holds.same {xs : List α} (h : o.Holds p xs) (hs : Same o o' p) : o'.Holds p xs := by
  unfold Output.Holds
  rw [hs.terminal, hs.by_, hs.buffer]
  exact h

theorem Output.Holds.print {xs : List α} (h : o.Holds p xs) (x : α) :
    (o.print p x).Holds p (xs ++ [x]) := by
  obtain ⟨hby, hbuffer⟩ := h
  unfold Output.print Output.Holds
  by_cases ht : o.terminal
  · have ht' : (o.write p [x]).terminal = true := ht
    simp only [ht, ht', ↓reduceIte] at hby hbuffer ⊢
    exact ⟨by rw [write_by, hby, if_pos rfl], hbuffer⟩
  · simp only [ht, Bool.false_eq_true, ↓reduceIte] at hby hbuffer ⊢
    exact ⟨hby, by rw [Function.update_self, hbuffer]⟩

theorem Output.Holds.discard_by {xs : List α} (h : o.Holds p xs) :
    (o.discard p).by_ p = if o.terminal then xs else [] := h.1

theorem Output.Holds.flush_by {xs : List α} (h : o.Holds p xs) : (o.flush p).by_ p = xs := by
  obtain ⟨hby, hbuffer⟩ := h
  have hall : (o.flush p).by_ p = o.by_ p ++ o.buffer p := by
    rw [Output.flush]
    exact (write_by o p _ p).trans (by rw [if_pos rfl])
  rw [hall, hby, hbuffer]
  split
  · exact List.append_nil xs
  · rfl

/-- Where all is from one writer, its lines are the file. -/
theorem file_eq {file : List (ι × α)} (h : ∀ q, q ≠ p → linesOf file q = []) :
    file = (linesOf file p).map (p, ·) := by
  have hall : ∀ x ∈ file, x.1 = p := by
    intro x hx
    by_contra hne
    have hmem : x.2 ∈ linesOf file x.1 :=
      List.mem_map.mpr ⟨x, List.mem_filter.mpr ⟨hx, by simp⟩, rfl⟩
    rw [h x.1 hne] at hmem
    cases hmem
  have hself : file.filter (fun x => x.1 = p) = file :=
    List.filter_eq_self.mpr fun x hx => decide_eq_true (hall x hx)
  rw [linesOf, hself, List.map_map]
  refine (List.map_id file).symm.trans (List.map_congr_left fun x hx => ?_)
  exact Prod.ext (hall x hx) rfl

end Output

end LinuxExamples.Stdio
