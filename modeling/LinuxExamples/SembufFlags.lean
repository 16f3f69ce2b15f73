import LinuxExamples.SysvSemaphore

namespace LinuxExamples.SembufFlags

open SysvSemaphore

def IPC_NOWAIT : UInt16 := 0x800

def SEM_UNDO : UInt16 := 0x1000

structure Sembuf where
  semNum : Nat
  semOp : Int
  semFlg : UInt16

def Sembuf.has (b : Sembuf) (flag : UInt16) : Bool := b.semFlg &&& flag != 0

/-- The argument that the commands give to `semop`. The local variable `buf` has any
contents before, and its flags stay what they were. -/
def operation (semOp : Int) (buf : Sembuf) (semIndex : Int) : Sembuf :=
  { buf with semNum := semNum semIndex, semOp := semOp }

def sysvSemGet (buf : Sembuf) (semIndex : Int) : Sembuf := operation SEM_SYSV_GET buf semIndex

def sysvSemRelease (buf : Sembuf) (semIndex : Int) : Sembuf :=
  operation SEM_SYSV_RELEASE buf semIndex

def sysvSemWait (buf : Sembuf) (semIndex : Int) : Sembuf := operation SEM_SYSV_WAIT buf semIndex

def Sembuf.call (b : Sembuf) : Call := .semop b.semNum b.semOp

/-- `semop` with flags: with `IPC_NOWAIT` it fails instead of blocking. -/
def semop (val : Values) (b : Sembuf) : Outcome :=
  match kernel val b.call with
  | .blocks => if b.has IPC_NOWAIT then .fails else .blocks
  | o => o

/-- What the other processes do: the values that they leave, one after the other, while the
command waits, what they make of the values until it exits, and whether they set the semaphore
until then, which drops what would be undone. -/
structure Others where
  waiting : List Values
  exit : Values → Values
  reset : Bool

/-- The values behind a call that waits until it is granted. -/
def awaken (c : Call) : List Values → Option Values
  | [] => none
  | val :: vals =>
    match kernel val c with
    | .granted val' => some val'
    | _ => awaken c vals

/-- `SEM_UNDO` takes the operation back as far as the value stays in its range. -/
def undo (b : Sembuf) (val : Values) : Values :=
  val.set b.semNum (min SEMVMX (val b.semNum - b.semOp).toNat) (Nat.min_le_left _ _)

/-- The values once the process, granted its operation, has exited. -/
def exited (b : Sembuf) (o : Others) (val : Values) : Values :=
  if b.has SEM_UNDO && !o.reset then undo b (o.exit val) else o.exit val

/-- The values once the calling process has exited; it may wait for ever. -/
def afterExit (val : Values) (b : Sembuf) (o : Others) : Option Values :=
  match semop val b with
  | .granted val' => some (exited b o val')
  | .fails => some (o.exit val)
  | .blocks => (awaken b.call o.waiting).map (exited b o)

/-- With no flag set, `semop` is the call of `SysvSemaphore.kernel`. -/
theorem semop_noFlags (val : Values) {b : Sembuf} (h : b.semFlg = 0) :
    semop val b = kernel val b.call := by
  rw [semop]
  split
  · rename_i hb
    simp [Sembuf.has, h, hb]
  · rfl

theorem sysvMain_call (buf : Sembuf) (i : Int) :
    sysvMain (.get i) = [(sysvSemGet buf i).call] ∧
    sysvMain (.release i) = [(sysvSemRelease buf i).call] ∧
    sysvMain (.wait0 i) = [(sysvSemWait buf i).call] :=
  ⟨rfl, rfl, rfl⟩

/-- The outcomes are the same, and so are the values whatever the others do. -/
structure SameRun (val : Values) (b₁ b₂ : Sembuf) : Prop where
  outcome : semop val b₁ = semop val b₂
  values : ∀ o, afterExit val b₁ o = afterExit val b₂ o

def Agree (flag : UInt16) (b₁ b₂ : Sembuf) : Prop := b₁.has flag = b₂.has flag

section Runs

variable {val val' : Values} {i semOp : Int} {b₁ b₂ : Sembuf}

theorem operation_call (b : Sembuf) : (operation semOp b i).call = .semop (semNum i) semOp := rfl

theorem operation_has (b : Sembuf) (flag : UInt16) :
    (operation semOp b i).has flag = b.has flag := rfl

theorem exited_agree (h : Agree SEM_UNDO b₁ b₂) (o : Others) :
    exited (operation semOp b₁ i) o = exited (operation semOp b₂ i) o := by
  funext v
  rw [Agree] at h
  simp only [exited, operation_has, h]
  rfl

/-- When the others do nothing more, it shows whether the operation is undone. -/
theorem exited_differ (h : ¬ Agree SEM_UNDO b₁ b₂) (hundo : undo (operation semOp b₁ i) val ≠ val)
    (vals : List Values) : exited (operation semOp b₁ i) ⟨vals, id, false⟩ val ≠
      exited (operation semOp b₂ i) ⟨vals, id, false⟩ val := by
  have hundo' : val ≠ undo (operation semOp b₂ i) val := hundo.symm
  rw [Agree] at h
  by_cases h₁ : b₁.has SEM_UNDO = true
  · have h₂ : b₂.has SEM_UNDO = false := by simpa [h₁] using h
    simpa [exited, operation_has, h₁, h₂] using hundo
  · rw [Bool.not_eq_true] at h₁
    have h₂ : b₂.has SEM_UNDO = true := by simpa [h₁] using h
    simpa [exited, operation_has, h₁, h₂] using hundo'

/-- An operation that changes nothing has nothing to undo. -/
theorem exited_wait (b : Sembuf) (o : Others) :
    exited (operation SEM_SYSV_WAIT b i) o = o.exit := by
  have hundo (v : Values) : undo (operation SEM_SYSV_WAIT b i) v = v := by
    ext n
    by_cases hn : n = semNum i
    · subst hn
      have hle := v.le (semNum i)
      simp [undo, operation, SEM_SYSV_WAIT, hle]
    · exact Values.set_of_ne hn _ _ _
  funext v
  simp [exited, hundo]

theorem sameRun_fails (h : kernel val (.semop (semNum i) semOp) = .fails) :
    SameRun val (operation semOp b₁ i) (operation semOp b₂ i) := by
  have hs (b : Sembuf) : semop val (operation semOp b i) = .fails := by
    simp only [semop, operation_call, h]
  exact ⟨by rw [hs, hs], fun o => by simp only [afterExit, hs]⟩

theorem sameRun_granted (h : kernel val (.semop (semNum i) semOp) = .granted val') :
    SameRun val (operation semOp b₁ i) (operation semOp b₂ i) ↔
      ∀ o, exited (operation semOp b₁ i) o val' = exited (operation semOp b₂ i) o val' := by
  have hs (b : Sembuf) : semop val (operation semOp b i) = .granted val' := by
    simp only [semop, operation_call, h]
  have hvalues (o : Others) : afterExit val (operation semOp b₁ i) o =
      afterExit val (operation semOp b₂ i) o ↔
        exited (operation semOp b₁ i) o val' = exited (operation semOp b₂ i) o val' := by
    simp only [afterExit, hs, Option.some.injEq]
  exact ⟨fun hrun o => (hvalues o).mp (hrun.values o),
    fun hall => ⟨by rw [hs, hs], fun o => (hvalues o).mpr (hall o)⟩⟩

/-- An operation that has to wait fails at once or is granted later, if it is. -/
theorem sameRun_blocks (h : kernel val (.semop (semNum i) semOp) = .blocks) :
    SameRun val (operation semOp b₁ i) (operation semOp b₂ i) ↔ Agree IPC_NOWAIT b₁ b₂ ∧
      (b₁.has IPC_NOWAIT = true ∨ ∀ o,
        (awaken (.semop (semNum i) semOp) o.waiting).map (exited (operation semOp b₁ i) o) =
          (awaken (.semop (semNum i) semOp) o.waiting).map (exited (operation semOp b₂ i) o)) := by
  have hs (b : Sembuf) : semop val (operation semOp b i) =
      if b.has IPC_NOWAIT then .fails else .blocks := by
    simp only [semop, operation_call, h, operation_has]
    rfl
  have hsame : semop val (operation semOp b₁ i) = semop val (operation semOp b₂ i) ↔
      Agree IPC_NOWAIT b₁ b₂ := by
    rw [hs, hs, Agree]
    cases b₁.has IPC_NOWAIT <;> cases b₂.has IPC_NOWAIT <;> simp
  constructor
  · intro hrun
    have hagree := hsame.mp hrun.outcome
    refine ⟨hagree, or_iff_not_imp_left.mpr fun hw o => ?_⟩
    have hvalues := hrun.values o
    rw [Agree] at hagree
    simpa [afterExit, hs, hw, ← hagree, operation_call] using hvalues
  · rintro ⟨hagree, hw⟩
    refine ⟨hsame.mpr hagree, fun o => ?_⟩
    rw [Agree] at hagree
    cases hb : b₁.has IPC_NOWAIT with
    | true => simp [afterExit, hs, hb, ← hagree]
    | false =>
      have hvalues := hw.resolve_left (by simp [hb]) o
      simpa [afterExit, hs, hb, ← hagree, operation_call] using hvalues

/-- A granted operation that changes a value shows after the exit whether it is undone. -/
theorem sameRun_granted_iff (h : kernel val (.semop (semNum i) semOp) = .granted val')
    (hundo : undo (operation semOp b₁ i) val' ≠ val') :
    SameRun val (operation semOp b₁ i) (operation semOp b₂ i) ↔ Agree SEM_UNDO b₁ b₂ := by
  rw [sameRun_granted h]
  constructor
  · intro hall
    by_contra hagree
    exact exited_differ hagree hundo [] (hall _)
  · exact fun hagree o => congrFun (exited_agree hagree o) val'

/-- So does one that has to wait, when it is granted later. -/
theorem sameRun_blocks_iff {later : Values}
    (h : kernel val (.semop (semNum i) semOp) = .blocks)
    (hlater : kernel later (.semop (semNum i) semOp) = .granted val')
    (hundo : undo (operation semOp b₁ i) val' ≠ val') :
    SameRun val (operation semOp b₁ i) (operation semOp b₂ i) ↔
      Agree IPC_NOWAIT b₁ b₂ ∧ (b₁.has IPC_NOWAIT = true ∨ Agree SEM_UNDO b₁ b₂) := by
  rw [sameRun_blocks h]
  refine and_congr_right' (or_congr_right ⟨fun hall => ?_, fun hagree o => ?_⟩)
  · by_contra hagree
    have hone := hall ⟨[later], id, false⟩
    simp only [awaken, hlater, Option.map_some, Option.some.injEq] at hone
    exact exited_differ hagree hundo [later] hone
  · rw [exited_agree hagree]

end Runs

/-- An index outside of the set makes every operation fail, so what decides is what
happens inside of it. -/
theorem operation_same_iff {val : Values} {i semOp : Int} {b₁ b₂ : Sembuf} {p : Prop}
    (h : semNum i < SEM_NUM →
      (SameRun val (operation semOp b₁ i) (operation semOp b₂ i) ↔ p)) :
    SameRun val (operation semOp b₁ i) (operation semOp b₂ i) ↔ SEM_NUM ≤ semNum i ∨ p := by
  obtain hout | hin := le_or_gt SEM_NUM (semNum i)
  · exact iff_of_true (sameRun_fails (if_neg (Nat.not_lt.mpr hout))) (.inl hout)
  · rw [or_iff_right (Nat.not_le.mpr hin)]
    exact h hin

section Commands

variable (val : Values) (i : Int) (b₁ b₂ : Sembuf)

/-- What a granted get and release leave is not what was there before. -/
theorem undo_get_ne (hfree : 0 < val (semNum i)) (h : val (semNum i) - 1 ≤ SEMVMX) :
    undo (sysvSemGet b₁ i) (val.set (semNum i) (val (semNum i) - 1) h) ≠
      val.set (semNum i) (val (semNum i) - 1) h := by
  intro he
  have hle := val.le (semNum i)
  have hn := congrArg (fun v : Values => v (semNum i)) he
  simp only [undo, sysvSemGet, operation, SEM_SYSV_GET, Values.set_self] at hn
  omega

theorem undo_release_ne (h : val (semNum i) + 1 ≤ SEMVMX) :
    undo (sysvSemRelease b₁ i) (val.set (semNum i) (val (semNum i) + 1) h) ≠
      val.set (semNum i) (val (semNum i) + 1) h := by
  intro he
  have hn := congrArg (fun v : Values => v (semNum i)) he
  simp only [undo, sysvSemRelease, operation, SEM_SYSV_RELEASE, Values.set_self] at hn
  omega

theorem sysvSemGet_same_iff :
    SameRun val (sysvSemGet b₁ i) (sysvSemGet b₂ i) ↔ SEM_NUM ≤ semNum i ∨
      if 0 < val (semNum i) then Agree SEM_UNDO b₁ b₂
      else Agree IPC_NOWAIT b₁ b₂ ∧ (b₁.has IPC_NOWAIT = true ∨ Agree SEM_UNDO b₁ b₂) := by
  apply operation_same_iff
  intro hin
  by_cases hfree : 0 < val (semNum i)
  · rw [if_pos hfree]
    exact sameRun_granted_iff ((kernel_get hin).trans (if_pos hfree))
      (undo_get_ne val i b₁ hfree _)
  · have hone : 0 < Values.zero.set (semNum i) 1 (by decide) (semNum i) := by simp
    rw [if_neg hfree]
    exact sameRun_blocks_iff ((kernel_get hin).trans (if_neg hfree))
      ((kernel_get hin).trans (if_pos hone)) (undo_get_ne _ i b₁ hone _)

theorem sysvSemRelease_same_iff :
    SameRun val (sysvSemRelease b₁ i) (sysvSemRelease b₂ i) ↔
      SEM_NUM ≤ semNum i ∨ val (semNum i) = SEMVMX ∨ Agree SEM_UNDO b₁ b₂ := by
  apply operation_same_iff
  intro hin
  by_cases hroom : val (semNum i) < SEMVMX
  · rw [or_iff_right hroom.ne]
    exact sameRun_granted_iff ((kernel_release hin).trans (dif_pos hroom))
      (undo_release_ne val i b₁ hroom)
  · have hfull : val (semNum i) = SEMVMX := le_antisymm (val.le _) (not_lt.mp hroom)
    exact iff_of_true (sameRun_fails ((kernel_release hin).trans (dif_neg hroom))) (.inl hfull)

theorem sysvSemWait_same_iff :
    SameRun val (sysvSemWait b₁ i) (sysvSemWait b₂ i) ↔
      SEM_NUM ≤ semNum i ∨ val (semNum i) = 0 ∨ Agree IPC_NOWAIT b₁ b₂ := by
  apply operation_same_iff
  intro hin
  by_cases hzero : val (semNum i) = 0
  · have hsame : SameRun val (sysvSemWait b₁ i) (sysvSemWait b₂ i) :=
      (sameRun_granted ((kernel_wait hin).trans (if_pos hzero))).mpr fun o => by
        rw [exited_wait, exited_wait]
    exact iff_of_true hsame (.inl hzero)
  · rw [or_iff_right hzero, sameRun_blocks ((kernel_wait hin).trans (if_neg hzero))]
    refine and_iff_left (.inr fun o => ?_)
    rw [exited_wait, exited_wait]

/-- What the uninitialised flags decide: whether a command that has to wait fails, and
whether one that is granted, at once or later, is taken back when the process exits. -/
theorem sameRun_iff :
    (SameRun val (sysvSemGet b₁ i) (sysvSemGet b₂ i) ↔ SEM_NUM ≤ semNum i ∨
      if 0 < val (semNum i) then Agree SEM_UNDO b₁ b₂
      else Agree IPC_NOWAIT b₁ b₂ ∧ (b₁.has IPC_NOWAIT = true ∨ Agree SEM_UNDO b₁ b₂)) ∧
    (SameRun val (sysvSemRelease b₁ i) (sysvSemRelease b₂ i) ↔
      SEM_NUM ≤ semNum i ∨ val (semNum i) = SEMVMX ∨ Agree SEM_UNDO b₁ b₂) ∧
    (SameRun val (sysvSemWait b₁ i) (sysvSemWait b₂ i) ↔
      SEM_NUM ≤ semNum i ∨ val (semNum i) = 0 ∨ Agree IPC_NOWAIT b₁ b₂) :=
  ⟨sysvSemGet_same_iff val i b₁ b₂, sysvSemRelease_same_iff val i b₁ b₂,
    sysvSemWait_same_iff val i b₁ b₂⟩

end Commands

theorem flags_decide : ¬ ∀ (val : Values) (i : Int) (b₁ b₂ : Sembuf),
    SameRun val (sysvSemGet b₁ i) (sysvSemGet b₂ i) ∧
    SameRun val (sysvSemRelease b₁ i) (sysvSemRelease b₂ i) ∧
    SameRun val (sysvSemWait b₁ i) (sysvSemWait b₂ i) := by
  intro h
  have ho := (h .zero 0 ⟨0, 0, 0⟩ ⟨0, 0, IPC_NOWAIT⟩).1.outcome
  have hb : semop .zero (sysvSemGet ⟨0, 0, 0⟩ 0) = .blocks := rfl
  have hf : semop .zero (sysvSemGet ⟨0, 0, IPC_NOWAIT⟩ 0) = .fails := rfl
  rw [hb, hf] at ho
  cases ho

end LinuxExamples.SembufFlags
