import C906Firmware.Interaction.Run
import C906Firmware.Model.Kernel

/-!
# Two kinds of critical sections

A task may nest sections of two kinds: one keeps `mstatus.MIE` in flags held by the caller and
restores it, the other counts in `uxCriticalNesting` and sets `MIE` whenever the count falls to
zero. The second does not look at what the first has saved: a kernel section that is opened
inside a save section, and in no other kernel section, switches the interrupts on when it is
left (`excludes_iff`).
-/

namespace C906Firmware

open Interaction

/-- A well-bracketed sequence of sections. `wide` says whether the flags of a save section are
kept in full or in the 32 bits of libmetal. -/
inductive Sections
  | done
  | save (wide : Bool) (body rest : Sections)
  | critical (body rest : Sections)
  deriving DecidableEq, Repr

namespace Sections

/-- The code of a sequence of sections. -/
def code : Sections → Code Unit
  | done => pure ()
  | save true body rest => do
    let flags ← xportInterruptDisable
    access .sectionOpen
    body.code
    access .sectionClose
    xportInterruptEnable flags
    rest.code
  | save false body rest => do
    let flags ← sysIrqSaveDisable
    access .sectionOpen
    body.code
    access .sectionClose
    sysIrqRestoreEnable flags
    rest.code
  | critical body rest => do
    taskEnterCritical
    access .sectionOpen
    body.code
    access .sectionClose
    taskExitCritical
    rest.code

/-- No kernel section is opened inside a save section and outside of all kernel sections;
`saved` and `nested` say what the sequence stands in. -/
def Composes (saved nested : Bool) : Sections → Prop
  | done => True
  | save _ body rest => body.Composes true nested ∧ rest.Composes saved nested
  | critical body rest =>
    (saved = true → nested = true) ∧ body.Composes saved true ∧ rest.Composes saved nested

/-- Inside a kernel section everything composes. -/
theorem composes_nested (ss : Sections) (saved : Bool) : ss.Composes saved true := by
  induction ss generalizing saved with
  | done => trivial
  | save wide body rest ihBody ihRest => exact ⟨ihBody true, ihRest saved⟩
  | critical body rest ihBody ihRest => exact ⟨fun _ => rfl, ihBody saved, ihRest saved⟩

end Sections

/-- The processor and the task: `mstatus`, the private variables, and the number of sections
that are open. -/
structure TaskState where
  mstatus : BitVec 64
  vars : Var → ℕ
  opened : ℕ

namespace TaskState

/-- What each access does to the state. -/
def exec : (o : Op) → Unit → TaskState → Ret o × TaskState
  | .clearMie, _, k => ((), { k with mstatus := k.mstatus &&& ~~~SR_MIE })
  | .setMie, _, k => ((), { k with mstatus := k.mstatus ||| SR_MIE })
  | .readClearMie, _, k => (k.mstatus, { k with mstatus := k.mstatus &&& ~~~SR_MIE })
  | .setMstatus bits, _, k => ((), { k with mstatus := k.mstatus ||| bits })
  | .get v, _, k => (k.vars v, k)
  | .set v n, _, k => ((), { k with vars := Function.update k.vars v n })
  | .sectionOpen, _, k => ((), { k with opened := k.opened + 1 })
  | .sectionClose, _, k => ((), { k with opened := k.opened - 1 })
  | o, _, k => ((default : Answer).at o, k)

/-- `mstatus.MIE` is set. -/
def Enabled (k : TaskState) : Prop := k.mstatus &&& SR_MIE ≠ 0

instance (k : TaskState) : Decidable k.Enabled := inferInstanceAs (Decidable (_ ≠ _))

/-- The state in a kernel section that has just been entered. -/
def entered (k : TaskState) : TaskState where
  mstatus := k.mstatus &&& ~~~SR_MIE
  vars := Function.update k.vars .criticalNesting (k.vars .criticalNesting + 1)
  opened := k.opened + 1

/-- A task in no section, with interrupts as in `mstatus`. -/
def outside (mstatus : BitVec 64) (vars : Var → ℕ) : TaskState :=
  ⟨mstatus, Function.update vars .criticalNesting 0, 0⟩

theorem outside_nesting (mstatus : BitVec 64) (vars : Var → ℕ) :
    (outside mstatus vars).vars .criticalNesting = 0 := by
  simp [outside]

/-- Interrupts are disabled wherever a section is open, and everywhere if they were disabled to
begin with; when all sections are closed they are as they were. -/
def Excludes (k : TaskState) (ss : Sections) : Prop :=
  Along exec () (fun k' => 0 < k'.opened ∨ ¬k.Enabled → ¬k'.Enabled) ss.code
    (fun _ k' => k'.Enabled ↔ k.Enabled) k

/-! ### The bits of `mstatus` -/

/-- Clearing the bit where it is clear. -/
private theorem clear_of_disabled {m : BitVec 64} (h : m &&& SR_MIE = 0) :
    m &&& ~~~SR_MIE = m := by
  ext i hi
  have hbit := congrArg (fun m : BitVec 64 => m[i]) h
  simp only [BitVec.getElem_and, BitVec.getElem_not] at hbit ⊢
  grind

private theorem clear_disabled (m : BitVec 64) : (m &&& ~~~SR_MIE) &&& SR_MIE = 0 := by
  ext i hi
  simp only [BitVec.getElem_and, BitVec.getElem_not]
  grind

private theorem clear_restore (m : BitVec 64) : (m &&& ~~~SR_MIE) ||| (m &&& SR_MIE) = m := by
  ext i hi
  simp only [BitVec.getElem_and, BitVec.getElem_or, BitVec.getElem_not]
  grind

/-- Interrupts that are not off are on. -/
private theorem mie_of_enabled {m : BitVec 64} (h : m &&& SR_MIE ≠ 0) : m &&& SR_MIE = SR_MIE := by
  have hbit : SR_MIE = BitVec.twoPow 64 3 := by decide
  rw [hbit, BitVec.and_twoPow] at h ⊢
  grind

private theorem setMie_enabled (m : BitVec 64) : (m ||| SR_MIE) &&& SR_MIE ≠ 0 := by
  have hbit : (m ||| SR_MIE) &&& SR_MIE = SR_MIE := by
    ext i hi
    simp only [BitVec.getElem_and, BitVec.getElem_or]
    grind
  rw [hbit]
  decide

/-- The 32 bits of the flags that libmetal keeps include `MIE`. -/
private theorem word_and_mie (m : BitVec 64) :
    (m.setWidth 32).setWidth 64 &&& SR_MIE = m &&& SR_MIE := by
  have hbit : SR_MIE = BitVec.twoPow 64 3 := by decide
  simp [hbit, BitVec.and_twoPow]

/-! ### Sections with interrupts disabled -/

section Along

variable {P : TaskState → Prop} {Q : Unit → TaskState → Prop} {k : TaskState} {q : Code Unit}

/-- A save section of either width: the flags are those of `mstatus` at its start. -/
private theorem along_save (wide : Bool) (body rest : Sections) :
    Along exec () P ((Sections.save wide body rest).code >>= fun _ => q) Q k ↔
      P k ∧ P { k with mstatus := k.mstatus &&& ~~~SR_MIE } ∧
        Along exec () P (body.code >>= fun _ => Prog.act .sectionClose fun _ =>
          Prog.act (.setMstatus (k.mstatus &&& SR_MIE)) fun _ => rest.code >>= fun _ => q) Q
          { k with mstatus := k.mstatus &&& ~~~SR_MIE, opened := k.opened + 1 } := by
  cases wide with
  | true =>
    simp only [Sections.code, xportInterruptDisable, xportInterruptEnable, Prog.perform_bind,
      Prog.act_bind, bind_assoc, along_act, exec]
  | false =>
    simp only [Sections.code, sysIrqSaveDisable, sysIrqRestoreEnable, xportInterruptDisable,
      xportInterruptEnable, Prog.perform_bind, Prog.act_bind, Prog.pure_eq_ret, Prog.ret_bind,
      bind_assoc, along_act, exec]
    generalize hflags : (k.mstatus.setWidth 32).setWidth 64 &&& SR_MIE = flags
    obtain rfl : flags = k.mstatus &&& SR_MIE := by rw [← hflags, word_and_mie]
    exact Iff.rfl

/-- A kernel section. -/
private theorem along_critical (body rest : Sections) :
    Along exec () P ((Sections.critical body rest).code >>= fun _ => q) Q k ↔
      P k ∧ P { k with mstatus := k.mstatus &&& ~~~SR_MIE } ∧
        P { k.entered with opened := k.opened } ∧
          Along exec () P (body.code >>= fun _ => Prog.act .sectionClose fun _ =>
            taskExitCritical >>= fun _ => rest.code >>= fun _ => q) Q k.entered := by
  simp only [Sections.code, taskEnterCritical, get, set, Prog.perform_bind, Prog.act_bind,
    bind_assoc, along_act, exec, entered]
  tauto

/-- The end of a kernel section: interrupts are enabled if it was the outermost. -/
private theorem along_exitCritical (hk : k.mstatus &&& SR_MIE = 0) (r : Code Unit) :
    Along exec () P (Prog.act .sectionClose fun _ => taskExitCritical >>= fun _ => r) Q
        k.entered ↔
      P k.entered ∧ P { k.entered with opened := k.opened } ∧ P k ∧
        if k.vars .criticalNesting = 0 then
          P k ∧ Along exec () P r Q { k with mstatus := k.mstatus ||| SR_MIE }
        else Along exec () P r Q k := by
  have hrestored : Function.update (Function.update k.vars .criticalNesting
      (k.vars .criticalNesting + 1)) .criticalNesting (k.vars .criticalNesting) = k.vars := by
    rw [Function.update_idem, Function.update_eq_self]
  simp only [taskExitCritical, get, set, Prog.perform_bind, Prog.act_bind, along_act, exec,
    entered, Function.update_self, Nat.succ_pos, if_true, Nat.add_sub_cancel, hrestored,
    clear_of_disabled hk]
  change P _ ∧ P _ ∧ P _ ∧ P k ∧ Along exec () P ((if k.vars .criticalNesting = 0 then
    access .setMie else pure ()) >>= fun _ => r) Q k ↔ _
  by_cases hzero : k.vars .criticalNesting = 0
  · rw [if_pos hzero, if_pos hzero]
    simp only [Prog.perform_bind, along_act, exec]
    tauto
  · rw [if_neg hzero, if_neg hzero]
    simp only [Prog.pure_eq_ret, Prog.ret_bind]
    tauto

/-- From a state with interrupts disabled, `P` asking for just that: a sequence of sections is
fine exactly if it composes, and leaves the state as it was. -/
private theorem along_disabled (ss : Sections) (hk : k.mstatus &&& SR_MIE = 0)
    (hP : ∀ k', k.opened ≤ k'.opened → (P k' ↔ k'.mstatus &&& SR_MIE = 0)) :
    Along exec () P (ss.code >>= fun _ => q) Q k ↔
      ss.Composes true (decide (0 < k.vars .criticalNesting)) ∧ Along exec () P q Q k := by
  induction ss generalizing k q with
  | done => simp [Sections.code, Sections.Composes]
  | save wide body rest ihBody ihRest =>
    have hnow : P k := (hP k le_rfl).mpr hk
    have hopen : ({ k with mstatus := k.mstatus &&& ~~~SR_MIE, opened := k.opened + 1 } :
        TaskState).mstatus &&& SR_MIE = 0 := clear_disabled _
    rw [along_save, ihBody hopen fun k' hk' => hP k' (by simp only at hk'; omega)]
    have hin : P { k with opened := k.opened + 1 } := (hP _ (Nat.le_succ _)).mpr hk
    have hor : k.mstatus ||| 0 = k.mstatus := BitVec.or_zero
    simp only [along_act, exec, clear_of_disabled hk, hk, hor, Nat.add_sub_cancel]
    rw [ihRest hk hP]
    simp only [Sections.Composes]
    tauto
  | critical body rest ihBody ihRest =>
    have hnow : P k := (hP k le_rfl).mpr hk
    rw [along_critical]
    have hopen : (k.entered).mstatus &&& SR_MIE = 0 := clear_disabled _
    rw [ihBody hopen fun k' hk' => hP k' (by simp only [entered] at hk'; omega),
      along_exitCritical hk]
    have hin : ∀ k' : TaskState, k'.mstatus &&& SR_MIE = 0 → k.opened ≤ k'.opened → P k' :=
      fun k' h h' => (hP k' h').mpr h
    have hbody : body.Composes true (decide (0 < k.entered.vars .criticalNesting)) := by
      have hnested : decide (0 < k.entered.vars .criticalNesting) = true := by simp [entered]
      rw [hnested]
      exact Sections.composes_nested body true
    have hopened : P k.entered := hin _ hopen (Nat.le_succ _)
    have hleft : P { k.entered with opened := k.opened } := hin _ hopen le_rfl
    have hcleared : P { k with mstatus := k.mstatus &&& ~~~SR_MIE } :=
      hin _ (clear_disabled _) le_rfl
    simp only [hnow, hcleared, hleft, hbody, hopened, true_and]
    by_cases hzero : k.vars .criticalNesting = 0
    · -- the outermost kernel section: interrupts are enabled in the middle of the save section
      have hset : ¬P { k with mstatus := k.mstatus ||| SR_MIE } := fun h =>
        setMie_enabled k.mstatus ((hP { k with mstatus := k.mstatus ||| SR_MIE } le_rfl).mp h)
      have hfirst : ¬Along exec () P (rest.code >>= fun _ => q) Q
          { k with mstatus := k.mstatus ||| SR_MIE } := fun h => hset h.head
      simp [hfirst, Sections.Composes, hzero]
    · rw [if_neg hzero, ihRest hk hP]
      have hpos : decide (0 < k.vars .criticalNesting) = true :=
        decide_eq_true (Nat.pos_of_ne_zero hzero)
      simp only [Sections.Composes, hpos, imp_self, true_and, Sections.composes_nested]

/-- A sequence of sections from a state with interrupts enabled and no section open. -/
private theorem along_enabled (ss : Sections) (hk : k.mstatus &&& SR_MIE ≠ 0)
    (hopened : k.opened = 0) (hnesting : k.vars .criticalNesting = 0)
    (hP : ∀ k', P k' ↔ (0 < k'.opened → k'.mstatus &&& SR_MIE = 0)) :
    Along exec () P (ss.code >>= fun _ => q) Q k ↔
      ss.Composes false false ∧ Along exec () P q Q k := by
  have hclosed : ∀ m vars, P ⟨m, vars, 0⟩ := fun m vars => (hP _).mpr fun h => absurd h (by simp)
  have hopen : ∀ m vars, P ⟨m &&& ~~~SR_MIE, vars, 1⟩ := fun m vars =>
    (hP _).mpr fun _ => clear_disabled m
  have hin : ∀ k' : TaskState, 1 ≤ k'.opened → (P k' ↔ k'.mstatus &&& SR_MIE = 0) :=
    fun k' h => by rw [hP, imp_iff_right (by omega : 0 < k'.opened)]
  obtain ⟨m, vars, n⟩ := k
  simp only at hk hopened hnesting
  subst hopened
  have hmie : m &&& ~~~SR_MIE ||| SR_MIE = m := by
    conv_rhs => rw [← clear_restore m, mie_of_enabled hk]
  induction ss generalizing q with
  | done => simp [Sections.code, Sections.Composes]
  | save wide body rest ihBody ihRest =>
    rw [along_save, along_disabled body (clear_disabled m) hin]
    simp only [along_act, exec, clear_restore, hclosed, hopen, true_and, ihRest, hnesting,
      Sections.Composes, Nat.lt_irrefl, decide_false, Nat.zero_add, and_assoc]
  -- The outermost kernel section ends by enabling interrupts, which are on outside as well.
  | critical body rest ihBody ihRest =>
    rw [along_critical, along_disabled body (clear_disabled m) hin]
    have hentered : entered ⟨m, vars, 0⟩ = entered ⟨m &&& ~~~SR_MIE, vars, 0⟩ := by
      simp only [entered, clear_of_disabled (clear_disabled m)]
    have hbody : body.Composes true
        (decide (0 < (entered ⟨m, vars, 0⟩).vars .criticalNesting)) := by
      have hnested : decide (0 < (entered ⟨m, vars, 0⟩).vars .criticalNesting) = true := by
        simp [entered]
      rw [hnested]
      exact Sections.composes_nested body true
    rw [and_iff_right hbody, hentered, along_exitCritical (clear_disabled m)]
    simp only [if_pos hnesting, hmie, ihRest, hclosed, true_and]
    simp [entered, hopen, Sections.Composes, Sections.composes_nested]

end Along

/-- Sections of the two kinds exclude interrupts and leave them as they were exactly if no
kernel section stands in a save section outside of all other kernel sections; a task that
starts with interrupts disabled counts as in a save section. -/
theorem excludes_iff (mstatus : BitVec 64) (vars : Var → ℕ) (ss : Sections) :
    Excludes (outside mstatus vars) ss ↔ ss.Composes (decide (mstatus &&& SR_MIE = 0)) false := by
  have hcode : ss.code = ss.code >>= fun _ => pure () := bind_pure_unit.symm
  unfold Excludes
  rw [hcode]
  by_cases hmie : mstatus &&& SR_MIE = 0
  · have hdisabled : ¬(outside mstatus vars).Enabled := not_not.mpr hmie
    have hP : ∀ k' : TaskState, (0 < k'.opened ∨ ¬(outside mstatus vars).Enabled → ¬k'.Enabled) ↔
        k'.mstatus &&& SR_MIE = 0 := fun k' => by
      rw [imp_iff_right (Or.inr hdisabled)]
      exact not_not
    rw [along_disabled ss hmie fun k' _ => hP k', Prog.pure_eq_ret, along_ret, hP, outside_nesting,
      decide_eq_true hmie]
    exact and_iff_left ⟨hmie, Iff.rfl⟩
  · have henabled : (outside mstatus vars).Enabled := hmie
    have hP : ∀ k' : TaskState, (0 < k'.opened ∨ ¬(outside mstatus vars).Enabled → ¬k'.Enabled) ↔
        (0 < k'.opened → k'.mstatus &&& SR_MIE = 0) := fun k' => by
      rw [or_iff_left (not_not.mpr henabled), Enabled, not_not]
    rw [along_enabled ss hmie rfl (outside_nesting mstatus vars) hP, Prog.pure_eq_ret,
      along_ret, hP,
      decide_eq_false hmie]
    exact and_iff_left ⟨fun h => absurd h (Nat.lt_irrefl 0), Iff.rfl⟩

/-- A kernel section in a save section: `vTaskExitCritical` enables interrupts while the save
section is still open. -/
theorem critical_opens_save :
    ¬Excludes (outside SR_MIE fun _ => 0) (.save true (.critical .done .done) .done) := by
  intro h
  -- the state after the `csrs` of `vTaskExitCritical`
  obtain ⟨-, -, -, -, -, -, -, -, -, -, -, hset, -⟩ := h
  exact hset (Or.inl (by decide)) (by decide)

end TaskState

end C906Firmware
