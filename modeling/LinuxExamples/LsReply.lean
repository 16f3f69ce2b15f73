import LinuxExamples.Bytes

namespace LinuxExamples.LsReply

open Bytes

/-- The text of `err_1`. -/
def err_1 : List UInt8 :=
  ascii ['D', 'i', 'r', 'e', 'c', 't', 'o', 'r', 'y', ' ', 'e', 'r', 'r', 'o', 'r']

def space : UInt8 := 32

def BUFSIZ : Nat := 8192

structure Dirent where
  dIno : Nat
  dName : List UInt8

/-- `rBuffer`, which is static and never written. -/
def rBuffer : Mem := fun _ => 0

/-- The writes to a connection, where `none` is an `opendir` that has failed. The reply is
sent unless the buffer holds `ls`. -/
def serve (rBuffer : Mem) (dp : Option (List Dirent)) : List (List UInt8) :=
  if streq rBuffer 0 (ascii ['l', 's']) then []
  else
    match dp with
    | none => [err_1]
    | some dirs => dirs.flatMap fun dir => if dir.dIno = 0 then [] else [dir.dName, [space]]

def reply (dp : Option (List Dirent)) : List UInt8 := (serve rBuffer dp).flatten

/-- The names that are listed. -/
def names (dirs : List Dirent) : List (List UInt8) :=
  (dirs.filter fun dir => dir.dIno ≠ 0).map Dirent.dName

/-- What stands before each space, as far as it was received. -/
def words (bs : List UInt8) : List (List UInt8) := (bs.splitOn space).dropLast

theorem words_cons (b : UInt8) (bs : List UInt8) :
    words (b :: bs) = if b = space then [] :: words bs else (words bs).modifyHead (b :: ·) := by
  rw [words, List.splitOn_cons_eq_if_modifyHead]
  by_cases hb : b = space
  · rw [if_pos (beq_iff_eq.mpr hb), if_pos hb]
    exact List.dropLast_cons_of_ne_nil (List.splitOn_ne_nil _ _)
  · rw [if_neg (mt beq_iff_eq.mp hb), if_neg hb]
    exact List.modifyHead_dropLast.symm

theorem words_length (bs : List UInt8) : (words bs).length = bs.count space := by
  induction bs with
  | nil => rfl
  | cons b bs ih =>
    rw [words_cons, List.count_cons]
    split
    · rename_i hb
      simp [hb, ih]
    · rename_i hb
      simp [hb, ih]

theorem words_word {w : List UInt8} (hw : space ∉ w) (bs : List UInt8) :
    words (w ++ space :: bs) = w :: words bs := by
  rw [words, List.splitOn_append_cons_self_of_not_mem hw]
  exact List.dropLast_cons_of_ne_nil (List.splitOn_ne_nil _ _)

/-- A text in which a space follows each name. -/
def spaced (ns : List (List UInt8)) : List UInt8 := (ns.map fun n => n ++ [space]).flatten

theorem spaced_cons (n : List UInt8) (ns : List (List UInt8)) :
    spaced (n :: ns) = n ++ space :: spaced ns := by
  simp [spaced]

theorem words_of_not_mem {bs : List UInt8} (h : space ∉ bs) : words bs = [] := by
  rw [← List.length_eq_zero_iff, words_length, List.count_eq_zero_of_not_mem h]

/-- The place `i` of the text is a space within a name. -/
inductive InName : List (List UInt8) → Nat → Prop
  | head (u v : List UInt8) (ns : List (List UInt8)) : InName ((u ++ space :: v) :: ns) u.length
  | tail (n : List UInt8) (ns : List (List UInt8)) (i : Nat) (h : InName ns i) :
      InName (n :: ns) (n.length + 1 + i)

theorem InName.of_mem {n : List UInt8} (h : space ∈ n) (ns : List (List UInt8)) :
    ∃ i < n.length, InName (n :: ns) i := by
  obtain ⟨u, v, rfl⟩ := List.append_of_mem h
  exact ⟨u.length, by simp, .head u v ns⟩

/-- Up to the first space within a name, the words are not the names. -/
theorem InName.breaks {ns : List (List UInt8)} {i : Nat} (h : InName ns i) :
    ∃ bs, bs <+: spaced ns ∧ bs.length ≤ i + 1 ∧ ¬ words bs <+: ns := by
  induction ns generalizing i with
  | nil => cases h
  | cons n ns ih =>
    by_cases hn : space ∈ n
    · obtain ⟨u, v, rfl, hu⟩ := List.eq_append_cons_of_mem hn
      refine ⟨u ++ [space], ⟨v ++ space :: spaced ns, by simp [spaced_cons]⟩, ?_, fun hp => ?_⟩
      · have hlen : u.length ≤ i := by
          generalize hx : u ++ space :: v = x at h
          cases h with
          | head u' v' =>
            by_contra hlt
            have hmem : space ∈ u := by
              have hget : (u ++ space :: v)[u'.length]? = some space := by simp [hx]
              rw [List.getElem?_append_left (by omega)] at hget
              exact List.mem_of_getElem? hget
            exact hu hmem
          | tail _ _ j hj =>
            rw [← hx, List.length_append]
            omega
        rw [List.length_append, List.length_singleton]
        omega
      · rw [words_word hu] at hp
        have hlen := congrArg List.length (List.cons_prefix_cons.mp hp).1
        simp at hlen
    · cases h with
      | head u v => exact absurd (List.mem_append_right _ List.mem_cons_self) hn
      | tail _ _ j hj =>
        obtain ⟨bs, hbs, hlen, hwords⟩ := ih hj
        refine ⟨n ++ space :: bs, ?_, ?_, fun hp => ?_⟩
        · rw [spaced_cons]
          exact (List.prefix_append_right_inj n).mpr (List.cons_prefix_cons.mpr ⟨rfl, hbs⟩)
        · rw [List.length_append, List.length_cons]
          omega
        · rw [words_word hn] at hp
          exact hwords (List.cons_prefix_cons.mp hp).2

theorem words_clean {ns : List (List UInt8)} {k : Nat} (h : ∀ i < k, ¬ InName ns i)
    {bs : List UInt8} (hbs : bs <+: spaced ns) (hlen : bs.length ≤ k) : words bs <+: ns := by
  induction ns generalizing k bs with
  | nil =>
    obtain rfl := List.prefix_nil.mp hbs
    exact List.nil_prefix
  | cons n ns ih =>
    rw [spaced_cons] at hbs
    obtain hshort | ⟨cs, rfl⟩ :=
      List.prefix_or_prefix_of_prefix hbs (List.prefix_append n (space :: spaced ns))
    · have hnot : space ∉ bs := by
        intro hmem
        obtain ⟨u, v, rfl⟩ := List.append_of_mem hmem
        obtain ⟨w, rfl⟩ := hshort
        rw [List.append_assoc, List.cons_append] at h
        refine h u.length ?_ (.head u (v ++ w) ns)
        rw [List.length_append, List.length_cons] at hlen
        omega
      rw [words_of_not_mem hnot]
      exact List.nil_prefix
    · have hn : space ∉ n := by
        intro hmem
        obtain ⟨i, hi, hin⟩ := InName.of_mem hmem ns
        rw [List.length_append] at hlen
        exact h i (by omega) hin
      rw [List.prefix_append_right_inj, List.prefix_cons_iff] at hbs
      obtain rfl | ⟨bs, rfl, hbs⟩ := hbs
      · rw [List.append_nil, words_of_not_mem hn]
        exact List.nil_prefix
      · rw [words_word hn]
        refine List.cons_prefix_cons.mpr ⟨rfl, ih (k := k - (n.length + 1)) ?_ hbs ?_⟩
        · intro i hi hin
          exact h _ (by omega) (.tail n ns i hin)
        · rw [List.length_append, List.length_cons] at hlen
          omega

theorem streq_rBuffer : streq rBuffer 0 (ascii ['l', 's']) = false := rfl

theorem reply_eq (dirs : List Dirent) : reply (some dirs) = spaced (names dirs) := by
  have hserve (dirs : List Dirent) :
      (dirs.flatMap fun dir => if dir.dIno = 0 then [] else [dir.dName, [space]]).flatten =
        spaced (names dirs) := by
    induction dirs with
    | nil => rfl
    | cons dir dirs ih =>
      rw [List.flatMap_cons, List.flatten_append, ih]
      by_cases hd : dir.dIno = 0
      · simp [hd, names]
      · simp [hd, names, spaced]
  rw [reply, serve, streq_rBuffer]
  exact hserve dirs

/-- The client makes one `read`, which returns some first part of the reply. Its words are
always names of the directory, in order, if and only if no name has a space in it that
is among the bytes that the client can receive. -/
theorem parts_read_iff (dirs : List Dirent) :
    (∀ bs, bs <+: reply (some dirs) → bs.length ≤ BUFSIZ - 1 → words bs <+: names dirs) ↔
      ∀ i < BUFSIZ - 1, ¬ InName (names dirs) i := by
  rw [reply_eq]
  constructor
  · intro h i hi hin
    obtain ⟨bs, hbs, hlen, hwords⟩ := hin.breaks
    exact hwords (h bs hbs (hlen.trans hi))
  · exact fun h bs hbs hlen => words_clean h hbs hlen

end LinuxExamples.LsReply
