import C906Firmware.Interaction.Run
import C906Firmware.Model.Irq

/-!
# What the registration calls do

The memory and the interrupt controller of `Model.Irq` as a state (`IrqState`), and the effect
of each function, run by itself, as one update of that state (`total_function`). An interrupt
number owns a **line**: its entry of the table, its priority, and one bit in each of two bitmaps
that pack 32 numbers into a word. A call changes the line of its own number and no other
(`line_effect`).
-/

namespace C906Firmware

open Interaction

namespace Irq

/-- What the environment decides: which source a claim finds pending, what a handler does next,
and whether an interrupt is taken. -/
structure IrqAnswer where
  source : ℕ := 0
  step : HandlerStep := .done
  taken : Bool := false
  deriving DecidableEq, Repr, Inhabited

/-- `irq_table`, `plic_irq_rec`, the interrupt controller, and the two enables of external
interrupts. -/
structure IrqState where
  handler : ℕ → ℕ
  param : ℕ → ℕ
  name : ℕ → Option String
  /-- The parameter of the call that stored the handler. -/
  given : ℕ → ℕ
  /-- `plic_irq_rec` -/
  irqRec : ℕ → Word
  priority : ℕ → Word
  enable : ℕ → Word
  threshold : Word
  /-- `c906_plic_regs` is set. -/
  regs : Bool
  present : Bool
  meie : Bool
  mie : Bool
  inService : ℕ → Bool

/-- The bit of an interrupt number in a bitmap. -/
def bit (words : ℕ → Word) (n : ℕ) : Bool := (words (n / 32)).getLsbD (n % 32)

namespace IrqState

/-- The record, the table and the priorities are zero, and `plic_init` has not run. -/
def boot (enable : ℕ → Word) (threshold : Word) (meie mie : Bool) (inService : ℕ → Bool) :
    IrqState where
  handler := fun _ => 0
  param := fun _ => 0
  name := fun _ => none
  given := fun _ => 0
  irqRec := fun _ => 0
  priority := fun _ => 0
  enable := enable
  threshold := threshold
  regs := false
  present := false
  meie := meie
  mie := mie
  inService := inService

/-- What each access does to the state. A claim returns a source that is enabled and not in
service; a completion is ignored if the source is not enabled. -/
def exec : (o : IrqOp) → IrqAnswer → IrqState → IrqRet o × IrqState
  | .loadHandler n, _, k => (k.handler n, k)
  | .storeHandler n h p, _, k =>
    ((), { k with
      handler := Function.update k.handler n h
      given := Function.update k.given n p })
  | .loadParam n, _, k => (k.param n, k)
  | .storeParam n p, _, k => ((), { k with param := Function.update k.param n p })
  | .loadName n, _, k => (k.name n, k)
  | .storeName n s, _, k => ((), { k with name := Function.update k.name n s })
  | .loadRec w _, _, k => (k.irqRec w, k)
  | .storeRec w v, _, k => ((), { k with irqRec := Function.update k.irqRec w v })
  | .writePriority n v, _, k => ((), { k with priority := Function.update k.priority n v })
  | .writeThreshold v, _, k => ((), { k with threshold := v })
  | .readEnable w, _, k => (k.enable w, k)
  | .writeEnable w v, _, k => ((), { k with enable := Function.update k.enable w v })
  | .claim, x, k =>
    if x.source ≠ 0 ∧ bit k.enable x.source = true ∧ k.inService x.source = false then
      (x.source, { k with inService := Function.update k.inService x.source true })
    else
      (0, k)
  | .complete n, _, k =>
    ((), if bit k.enable n = true then
      { k with inService := Function.update k.inService n false } else k)
  | .getRegs, _, k => (k.regs, k)
  | .setRegs, _, k => ((), { k with regs := true })
  | .getPresent, _, k => (k.present, k)
  | .setPresent, _, k => ((), { k with present := true })
  | .clearMeie, _, k => ((), { k with meie := false })
  | .setMeie, _, k => ((), { k with meie := true })
  | .setMie, _, k => ((), { k with mie := true })
  | .handlerStep, x, k => (x.step, k)
  | .interrupt, x, k => (x.taken, k)
  | .log _, _, k => ((), k)
  | .dispatch _ _ _, _, k => ((), k)
  | .callEnter _, _, k => ((), k)
  | .callReturn _ _, _, k => ((), k)

end IrqState

/-! ### Bits of a bitmap -/

/-- A word with the bit of a number set or cleared. -/
def setBit (word : Word) (n : ℕ) (b : Bool) : Word :=
  if b then word ||| irqMask n else word &&& ~~~irqMask n

/-- A bitmap with the bit of a number set or cleared. -/
def setWord (words : ℕ → Word) (n : ℕ) (b : Bool) : ℕ → Word :=
  Function.update words (n / 32) (setBit (words (n / 32)) n b)

theorem getLsbD_irqMask (n i : ℕ) :
    (irqMask n).getLsbD i = decide (n % 32 = i) := by
  rw [irqMask, show (1 : Word) = 1#32 from rfl, ← BitVec.twoPow_eq, BitVec.getLsbD_twoPow]
  simp [Nat.mod_lt n (by decide : 0 < 32)]

/-- Setting or clearing a bit changes that bit only. -/
theorem getLsbD_setBit (word : Word) (n : ℕ) (b : Bool) {i : ℕ} (hi : i < 32) :
    (setBit word n b).getLsbD i = if n % 32 = i then b else word.getLsbD i := by
  cases b with
  | true =>
    rw [setBit, if_pos rfl, BitVec.getLsbD_or, getLsbD_irqMask n i]
    split <;> simp [*]
  | false =>
    rw [setBit, if_neg (by decide), BitVec.getLsbD_and, BitVec.getLsbD_not, getLsbD_irqMask n i]
    split <;> simp [*]

theorem bit_setWord (words : ℕ → Word) (n i : ℕ) (b : Bool) :
    bit (setWord words n b) i = if i = n then b else bit words i := by
  have hi : i % 32 < 32 := Nat.mod_lt i (by decide)
  by_cases hword : i / 32 = n / 32
  · rw [bit, setWord, hword, Function.update_self, getLsbD_setBit _ n b hi, bit, hword]
    have hsame : n % 32 = i % 32 ↔ i = n := by omega
    simp only [hsame]
  · have hne : i ≠ n := fun h => hword (by rw [h])
    rw [bit, setWord, Function.update_of_ne hword, if_neg hne, bit]

/-- The test of the source: the bit is clear. -/
theorem and_irqMask_eq_zero (word : Word) (n : ℕ) :
    word &&& irqMask n = 0 ↔ word.getLsbD (n % 32) = false := by
  have hi : n % 32 < 32 := Nat.mod_lt n (by decide)
  constructor
  · intro h
    have hbit := congrArg (fun v : Word => v.getLsbD (n % 32)) h
    rw [BitVec.getLsbD_and, getLsbD_irqMask, decide_eq_true (Eq.refl (n % 32)),
      Bool.and_true] at hbit
    exact hbit.trans BitVec.getLsbD_zero
  · intro h
    apply BitVec.eq_of_getLsbD_eq
    intro i hi'
    by_cases hne : n % 32 = i
    · subst hne
      simp [h]
    · simp [getLsbD_irqMask n i, hne]

/-- Writing a bit that is as it should be changes nothing. -/
theorem setBit_of_eq {word : Word} {n : ℕ} {b : Bool} (h : word.getLsbD (n % 32) = b) :
    setBit word n b = word := by
  apply BitVec.eq_of_getLsbD_eq
  intro i hi
  rw [getLsbD_setBit word n b hi]
  split
  · next hne => rw [← hne, h]
  · rfl

/-- Two bitmaps with the same bits are the same. -/
theorem words_ext {words words' : ℕ → Word} (h : ∀ i, bit words i = bit words' i) :
    words = words' := by
  funext w
  apply BitVec.eq_of_getLsbD_eq
  intro i hi
  have hi' := h (32 * w + i)
  rw [bit, bit] at hi'
  have hdiv : (32 * w + i) / 32 = w := by omega
  have hmod : (32 * w + i) % 32 = i := by omega
  rwa [hdiv, hmod] at hi'

/-! ### The effect of a call -/

namespace IrqState

/-- What `plic_irq_toggle` does. -/
def toggle (k : IrqState) (n : ℕ) (b : Bool) : IrqState :=
  { k with
    priority := Function.update k.priority n (if b then 1 else 0)
    enable := if k.present then setWord k.enable n b else k.enable }

/-- What `record_irq_enable` and `record_irq_disable` do. -/
def record (k : IrqState) (n : ℕ) (b : Bool) : IrqState :=
  { k with irqRec := setWord k.irqRec n b }

/-- What the stores into an entry of the table do. -/
def store (k : IrqState) (n h p : ℕ) (s : Option String) : IrqState :=
  { k with
    handler := Function.update k.handler n h
    param := Function.update k.param n p
    name := Function.update k.name n s
    given := Function.update k.given n p }

/-- What `irq_request` does to the two enables. -/
def allow (k : IrqState) : IrqState := { k with meie := true, mie := true }

end IrqState

/-- The call is not rejected. -/
def IrqCall.Succeeds : IrqCall → Prop
  | request n h _ _ => n < NR_IRQS.toNat ∧ h ≠ 0
  | free n => n < NR_IRQS.toNat
  | enable _ => True
  | disable _ => True

instance : DecidablePred IrqCall.Succeeds
  | .request _ _ _ _ => inferInstanceAs (Decidable (_ ∧ _))
  | .free _ => inferInstanceAs (Decidable (_ < _))
  | .enable _ => isTrue trivial
  | .disable _ => isTrue trivial

/-- The call leaves its source switched on. -/
def IrqCall.SwitchesOn : IrqCall → Prop
  | request _ _ _ _ => True
  | free _ => False
  | enable _ => True
  | disable _ => False

instance : DecidablePred IrqCall.SwitchesOn
  | .request _ _ _ _ => isTrue trivial
  | .free _ => isFalse id
  | .enable _ => isTrue trivial
  | .disable _ => isFalse id

/-- What a successful call does. -/
def IrqCall.effect : IrqCall → IrqState → IrqState
  | request n h p s, k =>
    (((k.store n h p (some (s.getD "anon"))).allow).toggle n true).record n true
  | free n, k => (((k.toggle n false).record n false).store n 0 0 none)
  | enable n, k => (k.toggle n true).record n true
  | disable n, k => (k.toggle n false).record n false

/-- What a call does. -/
def IrqCall.apply (c : IrqCall) (k : IrqState) : IrqState := if c.Succeeds then c.effect k else k

section Total

/-- `plic_toggle` changes the enable word of the line. -/
theorem total_plicToggle (n : ℕ) (b : Bool) (k : IrqState) :
    Total IrqState.exec (plicToggle n b)
      (fun _ k' => k' = { k with enable := setWord k.enable n b }) k := by
  intro x
  cases b with
  | true => exact fun _ => rfl
  | false => exact fun _ => rfl

/-- `plic_irq_toggle` changes the priority besides. -/
theorem total_plicIrqToggle (n : ℕ) (b : Bool) (k : IrqState) :
    Total IrqState.exec (plicIrqToggle n b) (fun _ k' => k' = k.toggle n b) k := by
  simp only [plicIrqToggle, Prog.perform_bind, total_act, total_ite]
  refine fun _ _ => ⟨fun (hpresent : k.present = true) => ?_,
    fun (hpresent : ¬k.present = true) => ?_⟩
  · refine (total_plicToggle n b _).mono fun _ k' hk' => hk'.trans ?_
    rw [IrqState.toggle, if_pos hpresent]
    rfl
  · rw [Prog.pure_eq_ret, total_ret, IrqState.toggle, if_neg hpresent]
    rfl

theorem total_recordIrqEnable (n : ℕ) (k : IrqState) :
    Total IrqState.exec (recordIrqEnable n) (fun _ k' => k' = k.record n true) k := by
  simp only [recordIrqEnable, Prog.perform_bind, total_act, total_ite]
  refine fun _ => ⟨fun _ _ _ => rfl, fun (hbit : ¬k.irqRec (n / 32) &&& irqMask n = 0) => ?_⟩
  rw [and_irqMask_eq_zero, Bool.not_eq_false] at hbit
  rw [Prog.pure_eq_ret, total_ret, IrqState.record, setWord, setBit_of_eq hbit,
    Function.update_eq_self]
  rfl

/-- `record_irq_disable` clears the bit in the record. -/
theorem total_recordIrqDisable (n : ℕ) (k : IrqState) :
    Total IrqState.exec (recordIrqDisable n) (fun _ k' => k' = k.record n false) k := by
  simp only [recordIrqDisable, Prog.perform_bind, total_act, total_ite]
  refine fun _ => ⟨fun _ _ _ => rfl, fun (hbit : ¬k.irqRec (n / 32) &&& irqMask n ≠ 0) => ?_⟩
  rw [not_not, and_irqMask_eq_zero] at hbit
  rw [Prog.pure_eq_ret, total_ret, IrqState.record, setWord, setBit_of_eq hbit,
    Function.update_eq_self]
  rfl

/-- The two halves of an enable or a disable. -/
theorem total_toggle_record {α : Type} {n : ℕ} {b : Bool} {k : IrqState} {record : IrqCode Unit}
    (hrecord : ∀ k, Total IrqState.exec record (fun _ k' => k' = k.record n b) k)
    {f : IrqCode α} {Q : α → IrqState → Prop}
    (h : Total IrqState.exec f Q ((k.toggle n b).record n b)) :
    Total IrqState.exec (plicIrqToggle n b >>= fun _ => record >>= fun _ => f) Q k := by
  refine Total.bind ((total_plicIrqToggle n b _).mono fun _ k' hk' => ?_)
  refine Total.bind ((hrecord k').mono fun _ k'' hk'' => ?_)
  rwa [hk'', hk']

/-- Each entry point, run by itself, returns 0 or -1 and does what its effect says. -/
theorem total_function (c : IrqCall) (k : IrqState) :
    Total IrqState.exec c.function
      (fun ret k' => ret = (if c.Succeeds then 0 else -1) ∧ k' = c.apply k) k := by
  cases c with
  | request n h p s =>
    by_cases hc : (IrqCall.request n h p s).Succeeds
    · have hguard : ¬(NR_IRQS.toNat ≤ n ∨ h = 0) := by
        rw [not_or, not_le]
        exact hc
      simp only [IrqCall.function, irqRequest, if_neg hguard, Prog.perform_bind, total_act,
        IrqState.exec]
      intro _ _ _ _ _
      refine total_toggle_record (total_recordIrqEnable n) ?_
      intro _ _
      rw [IrqCall.apply, if_pos hc, if_pos hc]
      exact ⟨rfl, rfl⟩
    · have hguard : NR_IRQS.toNat ≤ n ∨ h = 0 := by
        by_contra hn
        rw [not_or, not_le] at hn
        exact hc hn
      simp only [IrqCall.function, irqRequest, if_pos hguard, Prog.pure_eq_ret, total_ret]
      rw [IrqCall.apply, if_neg hc, if_neg hc]
      exact ⟨rfl, rfl⟩
  | free n =>
    by_cases hc : (IrqCall.free n).Succeeds
    · simp only [IrqCall.function, irqFree, if_neg (not_le.mpr hc)]
      refine total_toggle_record (total_recordIrqDisable n) ?_
      intro _ _ _ _
      rw [IrqCall.apply, if_pos hc, if_pos hc]
      exact ⟨rfl, rfl⟩
    · simp only [IrqCall.function, irqFree, if_pos (not_lt.mp hc), Prog.pure_eq_ret, total_ret]
      rw [IrqCall.apply, if_neg hc, if_neg hc]
      exact ⟨rfl, rfl⟩
  | enable n => exact total_toggle_record (total_recordIrqEnable n) ⟨rfl, rfl⟩
  | disable n => exact total_toggle_record (total_recordIrqDisable n) ⟨rfl, rfl⟩

/-- The accesses of the entry points themselves. -/
def Plain : IrqOp → Prop
  | .claim | .complete _ | .dispatch _ _ _ | .handlerStep | .interrupt => False
  | .callEnter _ | .callReturn _ _ => False
  | _ => True

theorem only_plicIrqToggle (n : ℕ) (b : Bool) : (plicIrqToggle n b).Only Plain :=
  ⟨trivial, fun _ => ⟨trivial, fun _ => Prog.Only.ite
    ⟨trivial, fun _ => Prog.Only.ite ⟨trivial, fun _ => trivial⟩ ⟨trivial, fun _ => trivial⟩⟩
    trivial⟩⟩

theorem only_recordIrqEnable (n : ℕ) : (recordIrqEnable n).Only Plain :=
  ⟨trivial, fun _ => Prog.Only.ite ⟨trivial, fun _ => ⟨trivial, fun _ => trivial⟩⟩ trivial⟩

theorem only_recordIrqDisable (n : ℕ) : (recordIrqDisable n).Only Plain :=
  ⟨trivial, fun _ => Prog.Only.ite ⟨trivial, fun _ => ⟨trivial, fun _ => trivial⟩⟩ trivial⟩

theorem only_function (c : IrqCall) : c.function.Only Plain := by
  cases c with
  | request n h p s =>
    refine Prog.Only.ite trivial ⟨trivial, fun _ => ⟨trivial, fun _ => ⟨trivial, fun _ =>
      ⟨trivial, fun _ => ⟨trivial, fun _ => ?_⟩⟩⟩⟩⟩
    exact (only_plicIrqToggle n true).bind fun _ => (only_recordIrqEnable n).bind fun _ =>
      ⟨trivial, fun _ => ⟨trivial, fun _ => trivial⟩⟩
  | free n =>
    refine Prog.Only.ite trivial ((only_plicIrqToggle n false).bind fun _ =>
      (only_recordIrqDisable n).bind fun _ => ?_)
    exact ⟨trivial, fun _ => ⟨trivial, fun _ => ⟨trivial, fun _ => ⟨trivial, fun _ => trivial⟩⟩⟩⟩
  | enable n =>
    exact (only_plicIrqToggle n true).bind fun _ => (only_recordIrqEnable n).bind fun _ => trivial
  | disable n =>
    exact (only_plicIrqToggle n false).bind fun _ => (only_recordIrqDisable n).bind fun _ => trivial

end Total

/-! ### Lines -/

/-- What an interrupt number owns. -/
@[ext]
structure Line where
  handler : ℕ
  param : ℕ
  name : Option String
  given : ℕ
  recorded : Bool
  enabled : Bool
  priority : Word
  deriving DecidableEq

/-- The line of an interrupt number. -/
def IrqState.line (k : IrqState) (i : ℕ) : Line where
  handler := k.handler i
  param := k.param i
  name := k.name i
  given := k.given i
  recorded := bit k.irqRec i
  enabled := bit k.enable i
  priority := k.priority i

/-- A line that has been switched on or off. -/
def Line.switch (present : Bool) (l : Line) (b : Bool) : Line :=
  { l with
    recorded := b
    enabled := if present then b else l.enabled
    priority := if b then 1 else 0 }

/-- What the stores into an entry of the table do to its line. -/
def Line.store (l : Line) (h p : ℕ) (s : Option String) : Line :=
  { l with handler := h, param := p, name := s, given := p }

/-- What a successful call does to the line of its number. -/
def IrqCall.lineEffect (present : Bool) : IrqCall → Line → Line
  | request _ h p s, l => (l.store h p (some (s.getD "anon"))).switch present true
  | free _, l => (l.switch present false).store 0 0 none
  | enable _, l => l.switch present true
  | disable _, l => l.switch present false

/-- A successful call sets the three switches of its line together. -/
theorem lineEffect_switches (c : IrqCall) (l : Line) :
    (c.lineEffect true l).recorded = decide c.SwitchesOn ∧
      (c.lineEffect true l).enabled = decide c.SwitchesOn ∧
        (c.lineEffect true l).priority = if c.SwitchesOn then 1 else 0 := by
  cases c <;> exact ⟨rfl, rfl, rfl⟩

/-- What a call does to the line of its number. -/
def IrqCall.onLine (present : Bool) (c : IrqCall) (l : Line) : Line :=
  if c.Succeeds then c.lineEffect present l else l

namespace IrqState

/-- A handler is stored at its line only. -/
theorem line_store (k : IrqState) (n h p : ℕ) (s : Option String) (i : ℕ) :
    (k.store n h p s).line i = if i = n then (k.line i).store h p s else k.line i := by
  by_cases hi : i = n
  · subst hi
    simp [line, store, Line.store]
  · simp [line, store, hi]

/-- A line is switched in both bitmaps, and the others are as they were. -/
theorem line_toggle_record (k : IrqState) (n : ℕ) (b : Bool) (i : ℕ) :
    ((k.toggle n b).record n b).line i =
      if i = n then (k.line i).switch k.present b else k.line i := by
  by_cases hi : i = n
  · subst hi
    cases hpresent : k.present <;> simp [line, toggle, record, Line.switch, bit_setWord, hpresent]
  · cases hpresent : k.present <;> simp [line, toggle, record, bit_setWord, hpresent, hi]

end IrqState

/-- A call changes the line of its own number and no other. -/
theorem line_apply (c : IrqCall) (k : IrqState) (i : ℕ) :
    (c.apply k).line i = if i = c.irqNo then c.onLine k.present (k.line i) else k.line i := by
  unfold IrqCall.apply IrqCall.onLine
  by_cases hc : c.Succeeds
  · rw [if_pos hc, if_pos hc]
    cases c with
    | request n h p s =>
      rw [IrqCall.effect, IrqState.line_toggle_record]
      have hallow : ∀ k : IrqState, k.allow.line i = k.line i := fun _ => rfl
      rw [hallow, IrqState.line_store]
      by_cases hi : i = n <;>
        simp [hi, IrqCall.irqNo, IrqCall.lineEffect, IrqState.allow, IrqState.store]
    | free n =>
      rw [IrqCall.effect, IrqState.line_store, IrqState.line_toggle_record]
      by_cases hi : i = n <;> simp [hi, IrqCall.irqNo, IrqCall.lineEffect]
    | enable n => exact IrqState.line_toggle_record k n true i
    | disable n => exact IrqState.line_toggle_record k n false i
  · rw [if_neg hc, if_neg hc, ite_self]

/-- A call from its beginning to its return. -/
theorem total_code (c : IrqCall) (k : IrqState) :
    Total IrqState.exec c.code (fun _ k' => k' = c.apply k) k := by
  rw [IrqCall.code, Prog.perform_bind, total_act]
  intro _
  refine Total.bind ((total_function c k).mono ?_)
  rintro ret k' ⟨-, hk'⟩ _
  exact hk'

/-- What a call leaves alone altogether. -/
theorem apply_frame (c : IrqCall) (k : IrqState) :
    (c.apply k).present = k.present ∧ (c.apply k).regs = k.regs ∧
      (c.apply k).inService = k.inService := by
  unfold IrqCall.apply
  split
  · cases c <;> exact ⟨rfl, rfl, rfl⟩
  · exact ⟨rfl, rfl, rfl⟩

/-- The lines determine the table and the bitmaps. -/
theorem lines_ext {k k' : IrqState} (h : ∀ i, k.line i = k'.line i) :
    k.handler = k'.handler ∧ k.param = k'.param ∧ k.name = k'.name ∧ k.irqRec = k'.irqRec ∧
      k.enable = k'.enable ∧ k.priority = k'.priority :=
  ⟨funext fun i => congrArg Line.handler (h i), funext fun i => congrArg Line.param (h i),
    funext fun i => congrArg Line.name (h i),
    words_ext fun i => congrArg Line.recorded (h i),
    words_ext fun i => congrArg Line.enabled (h i), funext fun i => congrArg Line.priority (h i)⟩

end Irq

end C906Firmware
