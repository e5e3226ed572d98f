import C906Firmware.Interaction.Outline
import C906Firmware.Model.Mailbox

/-!
# What `msgbox_poll` keeps

The driver around the receive callback touches nothing but its registers and counters. An
assertion that such accesses keep, and that the callback restores for every word it is
called with, is kept by `msgbox_poll` and by `msgbox_irq_handler` (`PollFrame.poll`,
`PollFrame.irqHandler`), whatever the words are.
-/

namespace C906Firmware

open Interaction

/-- The variables the mailbox driver writes. -/
def DriverVar (v : Var) : Prop :=
  v = .rxCount ∨ v = .lastData ∨ v = .lastVqid ∨ v = .repeats ∨ v = .irqCount

/-- The accesses of the mailbox driver, but for the read of a word that is kept. -/
def MailboxOp : Op → Prop
  | .readl .rxIrqStatus | .writel .rxIrqStatus _ | .readFifo .quirk | .rxCb _ => True
  | .notifyGiveFromIsr | .yieldFromIsr => True
  | .get v => v = .rxCb ∨ v = .taskHandle ∨ DriverVar v
  | .set v _ => DriverVar v
  | _ => False

/-- The accesses of `msgbox_poll` are the driver's own, reads of words and those of the
callback. -/
theorem only_poll {S : Op → Prop} {rx_cb : Word → Code Unit} (hS : ∀ o, MailboxOp o → S o)
    (hdata : S (.readFifo .data)) (hcb : ∀ d, (rx_cb d).Only S) (fuel : ℕ) :
    (msgboxPoll rx_cb fuel).Only S := by
  have hround : ∀ drained, (msgboxPollRound rx_cb drained).Only S := by
    intro drained
    simp only [msgboxPollRound, regBitsGet, Prog.perform_bind, Prog.act_bind, Prog.pure_eq_ret,
      Prog.ret_bind]
    refine ⟨hS _ trivial, fun pend => Prog.Only.ite ?_ ⟨hdata, fun d => ?_⟩⟩
    · exact ⟨hS _ trivial, fun _ => trivial⟩
    refine Prog.Only.bind ⟨hS _ trivial, fun _ => ⟨hS _ trivial, fun _ => trivial⟩⟩ fun _ => ?_
    have hcount : (msgboxCount d).Only MailboxOp := by
      simp [msgboxCount, MailboxOp, DriverVar]
    refine (hcount.mono hS).bind fun _ => Prog.Only.bind ?_ fun _ => trivial
    refine ⟨hS _ (by simp [MailboxOp]), fun cb => Prog.Only.ite ?_ trivial⟩
    exact ⟨hS _ trivial, fun _ => hcb d⟩
  have hlog : ∀ drained, (msgboxPollLog drained).Only MailboxOp := by
    simp [msgboxPollLog, msgboxPending, regBitsGet, MailboxOp, DriverVar]
  exact (Prog.Only.iterate hround fuel 0).bind fun drained => (hlog drained).mono hS

/-- The assertion `quiet` holds around the delivery, and `held d` from the read of the word `d`
to its delivery. -/
structure PollFrame {K A ι : Type} (C : Contract Ret K A) (F : ι → K → Prop) (quiet : ι)
    (held : Word → ι) (rx_cb : Word → Code Unit) : Prop where
  inv : ∀ i k, F i k → C.inv k
  ok : ∀ o k, MailboxOp o → C.ok o k
  exec : ∀ i o x k, MailboxOp o → F i k → F i (C.exec o x k).2
  data_ok : ∀ k, C.ok (.readFifo .data) k
  data : ∀ x k, F quiet k → C.cond (.readFifo .data) x k →
    F (held (C.exec (.readFifo .data) x k).1) (C.exec (.readFifo .data) x k).2
  deliver : ∀ d k, F (held d) k → Outline C F (msgboxDeliver rx_cb d) (fun _ => F quiet) k

section Deliver

variable {K A ι : Type} {C : Contract Ret K A} {F : ι → K → Prop} {quiet held : ι}
  {rx_cb : Word → Code Unit} {k : K}

/-- The delivery of a word, with a callback installed or not. -/
theorem outline_deliver (hinv : ∀ i k, F i k → C.inv k) (hok : ∀ o k, MailboxOp o → C.ok o k)
    (hexec : ∀ i o x k, MailboxOp o → F i k → F i (C.exec o x k).2)
    (hdrop : ∀ k, F held k → F quiet k) (d : Word)
    (hcb : ∀ k, F held k → Outline C F (rx_cb d) (fun _ => F quiet) k) (hk : F held k) :
    Outline C F (msgboxDeliver rx_cb d) (fun _ => F quiet) k := by
  simp only [msgboxDeliver, get, Prog.perform_bind]
  refine Outline.act held hk (hinv _) (fun k _ => hok _ k (by simp [MailboxOp, DriverVar]))
    fun k x hk _ => ?_
  have hk := hexec held (.get .rxCb) x k (by simp [MailboxOp, DriverVar]) hk
  split
  · refine Outline.act held hk (hinv _) (fun k _ => hok _ k (by simp [MailboxOp]))
      fun k x hk _ => ?_
    exact hcb _ (hexec held (.rxCb d) x k (by simp [MailboxOp]) hk)
  · exact Outline.ret quiet (hdrop _ hk) (hinv _) fun _ hk => hk

end Deliver

namespace PollFrame

variable {K A ι α : Type} {C : Contract Ret K A} {F : ι → K → Prop} {quiet : ι}
  {held : Word → ι} {rx_cb : Word → Code Unit} {k : K}

/-- The driver's own accesses keep every assertion. -/
theorem only (h : PollFrame C F quiet held rx_cb) (i : ι) {p : Code α} (hp : p.Only MailboxOp)
    (hk : F i k) : Outline C F p (fun _ => F i) k :=
  Outline.of_only i (h.inv i) (fun o k ho _ => h.ok o k ho)
    (fun o x k ho hk _ => h.exec i o x k ho hk) hp hk

/-- One of the driver's own accesses, and then the rest. -/
theorem act (h : PollFrame C F quiet held rx_cb) (i : ι) {o : Op} (ho : MailboxOp o)
    {f : Ret o → Code α} {Q : α → K → Prop} (hk : F i k)
    (hf : ∀ r k, F i k → Outline C F (f r) Q k) : Outline C F (.act o f) Q k :=
  Outline.act i hk (h.inv i) (fun k _ => h.ok o k ho) fun k x hk _ =>
    hf _ _ (h.exec i o x k ho hk)

/-- One round of the loop of `msgbox_poll`. -/
theorem poll_round (h : PollFrame C F quiet held rx_cb) (drained : ℕ) (hk : F quiet k) :
    Outline C F (msgboxPollRound rx_cb drained) (fun _ => F quiet) k := by
  simp only [msgboxPollRound, regBitsGet, Prog.perform_bind, Prog.act_bind, Prog.pure_eq_ret,
    Prog.ret_bind]
  refine h.act quiet (by simp [MailboxOp]) hk fun pend k hk => ?_
  split
  · exact h.only quiet (by simp [MailboxOp]) hk
  · refine Outline.act quiet hk (h.inv _) (fun k _ => h.data_ok k) fun k x hk hx => ?_
    have hk' := h.data x k hk hx
    generalize (C.exec (.readFifo .data) x k).1 = d at hk' ⊢
    refine Outline.bind ((h.only (held d) (by simp [regBitsSet, MailboxOp]) hk').mono ?_)
    intro _ k hk
    refine Outline.bind ((h.only (held d) (by simp [msgboxCount, MailboxOp, DriverVar]) hk).mono ?_)
    intro _ k hk
    refine Outline.bind ((h.deliver d k hk).mono fun _ k hk => ?_)
    exact Outline.ret quiet hk (h.inv _) fun _ hk => hk

/-- `msgbox_poll` keeps the assertion. -/
theorem poll (h : PollFrame C F quiet held rx_cb) (fuel : ℕ) (hk : F quiet k) :
    Outline C F (msgboxPoll rx_cb fuel) (fun _ => F quiet) k := by
  have hloop := Triple.iterate (C := C) (F := F) (f := msgboxPollRound rx_cb)
    (I := fun _ => F quiet) (Q := fun _ => F quiet)
    (fun _ k hk => Outline.stop quiet hk (h.inv _))
    (fun _ k hk => Outline.ret quiet hk (h.inv _) fun _ hk => hk)
    (fun drained k hk => (h.poll_round drained hk).mono fun r k hk => by cases r <;> exact hk)
    fuel 0
  refine Outline.bind ((hloop k hk).mono fun drained k hk => ?_)
  exact h.only quiet (by simp [msgboxPollLog, msgboxPending, regBitsGet, MailboxOp, DriverVar]) hk

/-- `msgbox_irq_handler` keeps the assertion. -/
theorem irqHandler (h : PollFrame C F quiet held rx_cb) (fuel : ℕ) (hk : F quiet k) :
    Outline C F (msgboxIrqHandler rx_cb fuel) (fun _ => F quiet) k := by
  have hround : ∀ loops k, F quiet k →
      Outline C F (msgboxIrqRound rx_cb fuel loops) (fun _ => F quiet) k := by
    intro loops k hk
    refine Outline.bind ((h.poll fuel hk).mono fun _ k hk => ?_)
    exact h.only quiet (by simp [msgboxPending, regBitsGet, MailboxOp]) hk
  have hloop := Triple.iterate (C := C) (F := F) (f := msgboxIrqRound rx_cb fuel)
    (I := fun _ => F quiet) (Q := fun _ => F quiet)
    (fun _ k hk => Outline.stop quiet hk (h.inv _))
    (fun _ k hk => Outline.ret quiet hk (h.inv _) fun _ hk => hk)
    (fun loops k hk => (hround loops k hk).mono fun r k hk => by cases r <;> exact hk)
    32 0
  refine Outline.bind ((hloop k hk).mono fun _ k hk => ?_)
  exact h.only quiet (by simp [msgboxIrqTail, msgboxPending, regBitsGet, MailboxOp, DriverVar]) hk

end PollFrame

end C906Firmware
