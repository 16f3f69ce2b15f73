import LinuxExamples.Runs

namespace LinuxExamples.Mailbox

variable {α κ ι : Type}

/-- What a receiver asks a queue for: the messages it accepts, and the rank by which it
prefers one of these to another. -/
structure Request (α κ : Type) where
  accepts : α → Bool
  rank : α → κ

section Take

variable [LinearOrder κ]

/-- The first of the accepted messages of least rank, and the queue without it. -/
def take (r : Request α κ) : List α → Option (α × List α)
  | [] => none
  | x :: xs =>
    match take r xs with
    | none => if r.accepts x then some (x, xs) else none
    | some (y, ys) =>
      if r.accepts x ∧ r.rank x ≤ r.rank y then some (x, xs) else some (y, x :: ys)

/-- The message `y` is the one to take from between `before` and `after`. -/
structure Chosen (r : Request α κ) (y : α) (before after : List α) : Prop where
  accepts : r.accepts y
  before : ∀ z ∈ before, r.accepts z → r.rank y < r.rank z
  after : ∀ z ∈ after, r.accepts z → r.rank y ≤ r.rank z

variable {r : Request α κ} {x y : α} {xs ys : List α}

theorem take_eq_none_iff : take r xs = none ↔ ∀ x ∈ xs, ¬ r.accepts x := by
  induction xs with
  | nil => simp [take]
  | cons x xs ih =>
    rw [List.forall_mem_cons, ← ih, take]
    cases take r xs with
    | none => simp
    | some y =>
      dsimp only
      split <;> simp

theorem take_chosen (h : take r xs = some (y, ys)) :
    ∃ before after, xs = before ++ y :: after ∧ ys = before ++ after ∧ Chosen r y before after := by
  induction xs generalizing y ys with
  | nil => cases h
  | cons x xs ih =>
    rw [take] at h
    cases ht : take r xs with
    | none =>
      rw [ht] at h
      obtain ⟨ha, hy⟩ := Option.ite_none_right_eq_some.mp h
      cases hy
      refine ⟨[], _, rfl, rfl, ha, by simp, fun z hz hza => ?_⟩
      exact absurd hza (take_eq_none_iff.mp ht z hz)
    | some z =>
      obtain ⟨z, zs⟩ := z
      obtain ⟨before, after, rfl, rfl, hc⟩ := ih ht
      rw [ht] at h
      dsimp only at h
      split at h
      · rename_i hx
        cases h
        refine ⟨[], _, rfl, rfl, hx.1, by simp, fun w hw hwa => ?_⟩
        obtain hb | hm := List.mem_append.mp hw
        · exact hx.2.trans (hc.before w hb hwa).le
        · obtain rfl | hm := List.mem_cons.mp hm
          · exact hx.2
          · exact hx.2.trans (hc.after w hm hwa)
      · rename_i hx
        cases h
        refine ⟨x :: before, after, rfl, rfl, hc.accepts, fun w hw hwa => ?_, hc.after⟩
        obtain rfl | hb := List.mem_cons.mp hw
        · exact lt_of_not_ge fun hle => hx ⟨hwa, hle⟩
        · exact hc.before w hb hwa

theorem take_rank_le (h : take r xs = some (y, ys)) :
    ∀ z ∈ ys, r.accepts z → r.rank y ≤ r.rank z := by
  obtain ⟨before, after, _, rfl, hc⟩ := take_chosen h
  intro z hz ha
  obtain hb | hm := List.mem_append.mp hz
  · exact (hc.before z hb ha).le
  · exact hc.after z hm ha

theorem take_perm (h : take r xs = some (y, ys)) : xs.Perm (y :: ys) := by
  obtain ⟨before, after, rfl, rfl, _⟩ := take_chosen h
  exact List.perm_middle

end Take

section Lanes

variable [DecidableEq ι] (key : α → ι)

/-- The messages of one key, in the order of the queue. -/
def lane (k : ι) (xs : List α) : List α := xs.filter fun x => key x = k

theorem lane_append (k : ι) (xs ys : List α) :
    lane key k (xs ++ ys) = lane key k xs ++ lane key k ys :=
  List.filter_append xs ys

theorem lane_self (x : α) : lane key (key x) [x] = [x] := by simp [lane]

theorem lane_other {k : ι} {x : α} (h : k ≠ key x) : lane key k [x] = [] := by
  simp [lane, h.symm]

/-- A request that does not tell messages of one key apart. -/
def Respects [LinearOrder κ] (r : Request α κ) : Prop :=
  ∀ x y, key x = key y → r.accepts x → r.accepts y ∧ r.rank x = r.rank y

/-- What is taken is the head of its lane. -/
theorem take_lane [LinearOrder κ] {r : Request α κ} (hr : Respects key r) {xs ys : List α} {y : α}
    (h : take r xs = some (y, ys)) (k : ι) : lane key k xs = lane key k [y] ++ lane key k ys := by
  obtain ⟨before, after, rfl, rfl, hc⟩ := take_chosen h
  have hsplit : before ++ y :: after = before ++ ([y] ++ after) := rfl
  rw [hsplit, lane_append, lane_append, lane_append, ← List.append_assoc, ← List.append_assoc]
  congr 1
  by_cases hk : k = key y
  · have hnone : lane key k before = [] := by
      refine List.filter_eq_nil_iff.mpr fun z hz hzk => ?_
      have hzy : key y = key z := hk ▸ (of_decide_eq_true hzk).symm
      obtain ⟨ha, hrank⟩ := hr y z hzy hc.accepts
      exact absurd hrank (hc.before z hz ha).ne
    rw [hnone, List.nil_append, List.append_nil]
  · rw [lane_other key hk, List.nil_append, List.append_nil]

/-- What receives of one request have taken from a queue that nobody else used. -/
structure Drained [LinearOrder κ] (r : Request α κ) (queue taken rest : List α) : Prop where
  accepted : ∀ x ∈ taken, r.accepts x
  sorted : taken.Pairwise fun x y => r.rank x ≤ r.rank y
  least : ∀ x ∈ taken, ∀ z ∈ rest, r.accepts z → r.rank x ≤ r.rank z
  lanes : ∀ k, lane key k queue = lane key k taken ++ lane key k rest

theorem Drained.refl [LinearOrder κ] (r : Request α κ) (queue : List α) :
    Drained key r queue [] queue :=
  ⟨by simp, .nil, by simp, fun _ => rfl⟩

theorem Drained.take [LinearOrder κ] {r : Request α κ} (hr : Respects key r)
    {queue taken rest rest' : List α} {y : α} (h : Drained key r queue taken rest)
    (hy : take r rest = some (y, rest')) : Drained key r queue (taken ++ [y]) rest' := by
  have hperm := take_perm hy
  have hya : r.accepts y := by
    obtain ⟨before, after, _, _, hc⟩ := take_chosen hy
    exact hc.accepts
  refine ⟨fun x hx => ?_, ?_, fun x hx z hz ha => ?_, fun k => ?_⟩
  · obtain hx | hx := List.mem_append.mp hx
    · exact h.accepted x hx
    · exact List.mem_singleton.mp hx ▸ hya
  · refine List.pairwise_append.mpr ⟨h.sorted, List.pairwise_singleton _ y, fun x hx z hz => ?_⟩
    obtain rfl := List.mem_singleton.mp hz
    exact h.least x hx z (hperm.mem_iff.mpr List.mem_cons_self) hya
  · obtain hx | hx := List.mem_append.mp hx
    · exact h.least x hx z (hperm.mem_iff.mpr (List.mem_cons_of_mem _ hz)) ha
    · obtain rfl := List.mem_singleton.mp hx
      exact take_rank_le hy z hz ha
  · rw [h.lanes k, take_lane key hr hy, lane_append, List.append_assoc]

/-- One FIFO queue for each key, with all that was ever put in and taken out. -/
structure Lanes (α ι : Type) where
  sent : ι → List α
  queued : ι → List α
  received : ι → List α

inductive Act (α ι : Type) where
  | push (x : α) | pop (k : ι)

def step (s : Lanes α ι) : Act α ι → Option (Lanes α ι)
  | .push x =>
    some { s with
      sent := Function.update s.sent (key x) (s.sent (key x) ++ [x])
      queued := Function.update s.queued (key x) (s.queued (key x) ++ [x]) }
  | .pop k =>
    match s.queued k with
    | [] => none
    | x :: xs =>
      some { s with
        queued := Function.update s.queued k xs
        received := Function.update s.received k (s.received k ++ [x]) }

/-- Nothing is lost, doubled or overtaken. -/
def Kept (s : Lanes α ι) : Prop := ∀ k, s.sent k = s.received k ++ s.queued k

theorem step_kept {s t : Lanes α ι} {a : Act α ι} (hs : Kept s) (h : step key s a = some t) :
    Kept t := by
  intro k
  cases a with
  | push x =>
    cases h
    by_cases hk : k = key x
    · subst hk
      simp [hs (key x)]
    · simp [hk, hs k]
  | pop l =>
    simp only [step] at h
    split at h
    · cases h
    · rename_i x xs hq
      cases h
      by_cases hk : k = l
      · subst hk
        simp [hs k, hq]
      · simp [hk, hs k]

theorem reaches_kept {s t : Lanes α ι} (h : Runs.Reaches (step key) Runs.free s t) (hs : Kept s) :
    Kept t :=
  h.invariant hs fun _ _ _ hi _ ht => step_kept key hi ht

/-- A single queue with its logs, as the family of its lanes. -/
def lanes (sent queue received : List α) : Lanes α ι where
  sent k := lane key k sent
  queued k := lane key k queue
  received k := lane key k received

theorem lanes_push (sent queue received : List α) (x : α) :
    step key (lanes key sent queue received) (.push x) =
      some (lanes key (sent ++ [x]) (queue ++ [x]) received) := by
  have hlane (xs : List α) : Function.update (fun k => lane key k xs) (key x)
      (lane key (key x) xs ++ [x]) = fun k => lane key k (xs ++ [x]) := by
    funext k
    by_cases hk : k = key x
    · subst hk
      rw [Function.update_self, lane_append, lane_self]
    · rw [Function.update_of_ne hk, lane_append, lane_other key hk, List.append_nil]
  simp only [step, lanes, hlane]

theorem lanes_take [LinearOrder κ] {r : Request α κ} (hr : Respects key r) {queue rest : List α}
    {y : α} (h : take r queue = some (y, rest)) (sent received : List α) :
    step key (lanes key sent queue received) (.pop (key y)) =
      some (lanes key sent rest (received ++ [y])) := by
  have hself : lane key (key y) queue = y :: lane key (key y) rest := by
    rw [take_lane key hr h, lane_self, List.singleton_append]
  have hq : Function.update (fun k => lane key k queue) (key y) (lane key (key y) rest) =
      fun k => lane key k rest := by
    funext k
    by_cases hk : k = key y
    · subst hk
      rw [Function.update_self]
    · rw [Function.update_of_ne hk, take_lane key hr h, lane_other key hk, List.nil_append]
  have hl : Function.update (fun k => lane key k received) (key y)
      (lane key (key y) received ++ [y]) = fun k => lane key k (received ++ [y]) := by
    funext k
    by_cases hk : k = key y
    · subst hk
      rw [Function.update_self, lane_append, lane_self]
    · rw [Function.update_of_ne hk, lane_append, lane_other key hk, List.append_nil]
  simp only [step, lanes, hself, hq, hl]

/-- When nothing is lost in any lane, nothing is lost at all. -/
theorem Kept.perm [DecidableEq α] {sent queue received : List α}
    (h : Kept (lanes key sent queue received)) : sent.Perm (received ++ queue) := by
  refine List.perm_iff_count.mpr fun x => ?_
  have hx (xs : List α) : xs.count x = (lane key (key x) xs).count x :=
    (List.count_filter (by simp)).symm
  have hk : lane key (key x) sent = lane key (key x) received ++ lane key (key x) queue := h (key x)
  rw [hx sent, hk, List.count_append, ← hx, ← hx, List.count_append]

end Lanes

/-- The senders so far are different processes that have ended. -/
structure Signed (ended : ι → Prop) (senders : List ι) : Prop where
  ended : ∀ p ∈ senders, ended p
  once : senders.Nodup

section Signed

variable {ended ended' : ι → Prop} {senders : List ι} {p : ι}

theorem Signed.mono (h : Signed ended senders) (hkeep : ∀ p, ended p → ended' p) :
    Signed ended' senders :=
  ⟨fun p hp => hkeep p (h.ended p hp), h.once⟩

theorem Signed.push (h : Signed ended senders) (hkeep : ∀ p, ended p → ended' p) (hp : ¬ ended p)
    (hp' : ended' p) : Signed ended' (senders ++ [p]) := by
  refine ⟨fun q hq => ?_, List.nodup_append.mpr ⟨h.once, List.nodup_singleton p, ?_⟩⟩
  · obtain hq | hq := List.mem_append.mp hq
    · exact hkeep q (h.ended q hq)
    · exact List.mem_singleton.mp hq ▸ hp'
  · intro q hq r hr hqr
    exact hp (List.mem_singleton.mp hr ▸ hqr ▸ h.ended q hq)

theorem Signed.perm (h : Signed ended senders) {senders' : List ι} (hp : senders.Perm senders') :
    Signed ended senders' :=
  ⟨fun p hq => h.ended p (hp.mem_iff.mpr hq), hp.nodup_iff.mp h.once⟩

end Signed

end LinuxExamples.Mailbox
