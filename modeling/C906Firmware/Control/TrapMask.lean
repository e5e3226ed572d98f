import C906Firmware.Control.State

/-!
# Interrupts during an external-interrupt trap

`C906_Default_IRQHandler` is entered with `mstatus.MIE` clear, out of a task with critical
nesting 0. The receive callback of the virtqueue takes the device lock, whose kernel call
leaves its critical section by `vTaskExitCritical`, and that sets `MIE` in the middle of the
trap. So `MIE` stays clear for the whole trap if no word the trap reads notifies the receive
queue (`masked_throughout`); the words that do are those with the queue's notification id, 0
and `RSC_NOTIFY_ID_ANY`.
-/

namespace C906Firmware

open Interaction

namespace Control

/-- The state at the entry of the trap: `MIE` is clear and the critical nesting is 0; all the
rest is as `k` has it. -/
def trapEntry (k : Control) : Control :=
  { k with mie := false, inIsr := true, vars := Function.update k.vars .criticalNesting 0 }

/-- The processor in the trap. -/
def trap : Machine Ret Control Answer Empty Empty Empty := .alone exec

/-- No word read from the FIFO notifies the receive queue. -/
def SparesRvq (s : Config Ret Control) : Act Answer Empty Empty Empty → Prop
  | .run x => s.next = some (.readFifo .data) → ¬s.k.wiring.Notifies .rvq x.word
  | _ => True

instance (s : Config Ret Control) : ∀ a : Act Answer Empty Empty Empty, Decidable (SparesRvq s a)
  | .run _ => inferInstanceAs (Decidable (_ → _))
  | .env e => e.elim
  | .call c => c.elim
  | .irq h => h.elim

/-- What `SparesRvq` grants. -/
private def spareGrant : Grant Op Control Answer Empty Empty Empty where
  access o x k := o = .readFifo .data → ¬k.wiring.Notifies .rvq x.word

/-- `MIE` is clear, the wiring is `w`, and the word in hand, if any, spares the receive
queue. -/
private structure Masked (w : Wiring) (d : Option Word) (k : Control) : Prop where
  mie : k.mie = false
  wired : k.wiring = w
  spares : ∀ d' ∈ d, ¬w.Notifies .rvq d'

/-- The contract of the trap. -/
private abbrev trapContract : Contract Ret Control Answer :=
  trap.contract (fun k => k.mie = false) (fun _ _ => True) spareGrant.access

/-- Writing a variable that is not part of the wiring. -/
theorem wiring_set {k : Control} {v : Var} (hv : v ≠ .lockCount)
    (hid : ∀ q, v ≠ .notifyId q) (hcb : ∀ q, v ≠ .vqCallback q) (n : ℕ) (x : Answer) :
    (exec (.set v n) x k).2.wiring = k.wiring := by
  rw [exec_set hv]
  simp only [wiring, Function.update_of_ne (Ne.symm (hid _)),
    Function.update_of_ne (Ne.symm (hcb _))]

/-- The accesses of the mailbox driver and the handler's own leave `MIE` and the wiring as
they are. -/
theorem exec_driver {k : Control} {o : Op} (ho : MailboxOp o) (x : Answer) :
    (exec o x k).2.mie = k.mie ∧ (exec o x k).2.wiring = k.wiring := by
  cases o with
  | set v n =>
    have hv : v ≠ .lockCount := by
      rintro rfl
      simp [MailboxOp, DriverVar] at ho
    refine ⟨by rw [exec_set hv], wiring_set hv ?_ ?_ n x⟩
    · rintro q rfl
      simp [MailboxOp, DriverVar] at ho
    · rintro q rfl
      simp [MailboxOp, DriverVar] at ho
  | clearMie => exact ho.elim
  | setMie => exact ho.elim
  | irqRequest => exact ho.elim
  | listZero l => exact ho.elim
  | listInit l => exact ho.elim
  | listAdd l => exact ho.elim
  | listDel l => exact ho.elim
  | _ => exact ⟨rfl, rfl⟩

private theorem trap_pollFrame (w : Wiring) (fuel : ℕ) :
    PollFrame trapContract (Masked w) none some (msgboxRx fuel) where
  inv := fun _ _ h => h.mie
  ok := fun _ _ _ => trivial
  exec := by
    intro d o x k ho hk
    obtain ⟨hmie, hw⟩ := exec_driver (k := k) ho x
    exact ⟨hmie.trans hk.mie, hw.trans hk.wired, hk.spares⟩
  data_ok := fun _ => trivial
  data := by
    intro x k hk hx
    refine ⟨hk.mie, hk.wired, fun d hd => ?_⟩
    cases hd
    exact hk.wired ▸ hx rfl
  deliver := by
    intro d k hk
    refine outline_deliver (fun _ _ h => h.mie) (fun _ _ _ => trivial) ?_
      (fun _ hk => ⟨hk.mie, hk.wired, fun _ h => by cases h⟩) d (fun k hk => ?_) hk
    · intro i o x k ho hk
      obtain ⟨hmie, hw⟩ := exec_driver (k := k) ho x
      exact ⟨hmie.trans hk.mie, hw.trans hk.wired, hk.spares⟩
    · have hrun := outline_msgboxRx (C := trapContract) (F := Masked w) (i := some d) (w := w) rfl
        (fun _ h => h.mie) (fun _ _ _ _ => trivial) (fun _ _ => trivial) (fun _ h => h.wired) fuel d
        (fun _ h hn => absurd hn (h.spares d rfl)) hk
      exact hrun.mono fun _ k hk => ⟨hk.mie, hk.wired, fun _ h => by cases h⟩

/-- An access that does not change the interrupt enable bit nor the wiring. -/
private theorem act_masked {α : Type} {w : Wiring} {o : Op} {f : Ret o → Code α}
    {Q : α → Control → Prop} {k : Control} (hk : Masked w none k)
    (ho : ∀ x k, (Control.exec o x k).2.mie = k.mie ∧ (Control.exec o x k).2.wiring = k.wiring)
    (hf : ∀ r k, Masked w none k → Outline trapContract (Masked w) (f r) Q k) :
    Outline trapContract (Masked w) (.act o f) Q k := by
  refine Outline.act none hk (fun _ h => h.mie) (fun _ _ => trivial) fun k x hk _ => hf _ _ ?_
  obtain ⟨hmie, hw⟩ := ho x k
  exact ⟨hmie.trans hk.mie, hw.trans hk.wired, hk.spares⟩

private theorem ret_masked {α : Type} {w : Wiring} {a : α} {k : Control}
    (hk : Masked w none k) :
    Outline trapContract (Masked w) (.ret a) (fun _ => Masked w none) k :=
  Outline.ret none hk (fun _ h => h.mie) fun _ h => h

/-- One round of `plic_handle_irq`, whatever the source. -/
private theorem outline_plicRound (w : Wiring) (fuel : ℕ) {k : Control} (hk : Masked w none k) :
    Outline trapContract (Masked w) (plicHandleIrqRound fuel) (fun _ => Masked w none) k := by
  simp only [plicHandleIrqRound, Prog.perform_bind]
  refine act_masked hk (fun _ _ => ⟨rfl, rfl⟩) fun irq k hk => ?_
  split
  · exact ret_masked hk
  · refine Outline.bind (Outline.mono (Q := fun _ => Masked w none) ?_ fun _ k hk => ret_masked hk)
    unfold genericHandleIrq
    split
    · split
      · have hbody := (trap_pollFrame w fuel).irqHandler fuel hk
        refine Outline.bind (hbody.mono fun _ k hk => ?_)
        exact act_masked hk (fun _ _ => ⟨rfl, rfl⟩) fun _ k hk => ret_masked hk
      · exact act_masked hk (fun _ _ => ⟨rfl, rfl⟩) fun _ k hk => ret_masked hk
    · exact ret_masked hk

/-- The trap handler keeps `MIE` clear. -/
private theorem outline_trap (w : Wiring) (fuel : ℕ) {k : Control} (hk : Masked w none k) :
    Outline trapContract (Masked w) (c906DefaultIrqHandler fuel) (fun _ => Masked w none) k := by
  have hset : ∀ (n : ℕ) (x : Answer) (k : Control),
      (Control.exec (.set .interruptNesting n) x k).2.mie = k.mie ∧
        (Control.exec (.set .interruptNesting n) x k).2.wiring = k.wiring := fun n x k =>
    ⟨rfl, wiring_set (by simp) (by simp) (by simp) n x⟩
  simp only [c906DefaultIrqHandler, plicHandleIrq, get, set, Prog.perform_bind, bind_assoc,
    Prog.act_bind]
  refine act_masked hk (fun _ _ => ⟨rfl, rfl⟩) fun n k hk => ?_
  refine act_masked hk (hset _) fun _ k hk => ?_
  refine act_masked hk (fun _ _ => ⟨rfl, rfl⟩) fun _ k hk => ?_
  have hloop := Triple.iterate (C := trapContract) (F := Masked w)
    (f := fun _ : Unit => plicHandleIrqRound fuel) (I := fun _ => Masked w none)
    (Q := fun _ => Masked w none)
    (fun _ k hk => Outline.stop none hk fun _ h => h.mie)
    (fun _ k hk => ret_masked hk)
    (fun _ k hk => (outline_plicRound w fuel hk).mono fun r k hk => by cases r <;> exact hk)
    fuel ()
  refine Outline.bind ((hloop k hk).mono fun _ k hk => ?_)
  refine act_masked hk (fun _ _ => ⟨rfl, rfl⟩) fun _ k hk => ?_
  refine act_masked hk (fun _ _ => ⟨rfl, rfl⟩) fun n k hk => ?_
  exact act_masked hk (hset _) fun _ k hk => ret_masked hk

/-- **`MIE` is clear for the whole trap if no word of it notifies the receive queue**, whatever
was interrupted, whatever the other words and the rings hold, and whichever interrupts are
claimed. -/
theorem masked_throughout (fuel : ℕ) (k : Control) (as : List (Act Answer Empty Empty Empty))
    (has : EachStep trap.step SparesRvq ⟨c906DefaultIrqHandler fuel, none, trapEntry k⟩ as) :
    Throughout trap.step (fun s => s.k.mie = false)
      ⟨c906DefaultIrqHandler fuel, none, trapEntry k⟩ as := by
  have hgrant : EachStep trap.step (spareGrant.Allows trap)
      ⟨c906DefaultIrqHandler fuel, none, trapEntry k⟩ as := by
    refine has.mono fun s a ha => ?_
    cases a with
    | run x => exact fun o ho hq => ha (hq ▸ ho)
    | env e => exact e.elim
    | call c => exact c.elim
    | irq h => exact h.elim
  have hv : Verified trap (fun k => k.mie = false) (fun _ _ => True) spareGrant
      (Masked (trapEntry k).wiring) (Masked (trapEntry k).wiring)
      (Masked (trapEntry k).wiring none) :=
    ⟨fun e => e.elim, fun c => c.elim, fun h => h.elim⟩
  have hstart : Masked (trapEntry k).wiring none (trapEntry k) :=
    ⟨rfl, rfl, fun _ h => by cases h⟩
  exact (hv.throughout (outline_trap _ fuel hstart) hgrant).mono fun _ h => h.1

/-- The answers of a trap in which the message box is claimed and one word is read. -/
def trapAnswers (data : Word) : List Answer :=
  [default, default, default, { word := RISCV_MBOX_CPUX }, { word := 1 }, { word := data }]

/-- A kick of the send queue: the trap runs to its end with `MIE` clear. -/
theorem masked_throughout_svq :
    Throughout trap.step (fun s => s.k.mie = false)
      ⟨c906DefaultIrqHandler 3, none, trapEntry ready⟩
      ((trapAnswers 1).map .run ++ List.replicate 50 (.run default)) :=
  masked_throughout 3 ready _ (by decide +kernel)

/-- A kick of the receive queue: leaving the kernel's critical section sets `MIE` in the
trap. -/
theorem unmasked_in_trap :
    ¬∀ (fuel : ℕ) (k : Control) (as : List (Act Answer Empty Empty Empty)),
      Throughout trap.step (fun s => s.k.mie = false)
        ⟨c906DefaultIrqHandler fuel, none, trapEntry k⟩ as := by
  intro h
  have hend := (h 3 ready ((trapAnswers 2).map .run ++ List.replicate 23 (.run default))).last
  exact absurd hend (by decide +kernel)

end Control

end C906Firmware
