import C906Firmware.Model.Rpmsg

/-!
# From the interrupt to the virtqueues

The path of a mailbox word: the external-interrupt trap, the interrupt controller, the
mailbox driver, `msgbox_rx`, and the notification of every virtqueue the word names. The
polling task enters the same path at `msgbox_poll`.
-/

namespace C906Firmware

open Interaction

/-- `RSC_NOTIFY_ID_ANY` -/
def RSC_NOTIFY_ID_ANY : ℕ := 0xFFFFFFFF

/-- `RISCV_MBOX_CPUX` -/
def RISCV_MBOX_CPUX : Word := 146

/-- `NR_IRQS` -/
def NR_IRQS : Word := 198

/-- `vq->callback`: `rpmsg_virtio_tx_callback` does nothing. -/
def vqCallback (fuel : ℕ) : Vq → Code Unit
  | .svq => pure ()
  | .rvq => rpmsgVirtioRxCallback fuel

/-- `virtqueue_notification` -/
def virtqueueNotification (fuel : ℕ) (q : Vq) : Code Unit := do
  let callback ← get (.vqCallback q)
  if callback ≠ 0 then
    vqCallback fuel q

/-- The body of the loop of `rproc_virtio_notified`. -/
def rprocVirtioNotifiedVring (fuel : ℕ) (data : Word) (q : Vq) : Code Unit := do
  let notifyid ← get (.notifyId q)
  if notifyid = data.toNat ∨ data.toNat = 0 ∨ data.toNat = RSC_NOTIFY_ID_ANY then
    virtqueueNotification fuel q

/-- `rproc_virtio_notified` -/
def rprocVirtioNotified (fuel : ℕ) (data : Word) : Code Unit :=
  Prog.forEach (rprocVirtioNotifiedVring fuel data) [.svq, .rvq]

/-- `remoteproc_get_notification`; the list of virtio devices has at most one element. -/
def remoteprocGetNotification (fuel : ℕ) (data : Word) : Code Unit := do
  let devices ← access (.walk .vdevs)
  if devices ≠ 0 then
    rprocVirtioNotified fuel data

/-- `msgbox_rx` -/
def msgboxRx (fuel : ℕ) (data : Word) : Code Unit := remoteprocGetNotification fuel data

/-- `platform_poll` -/
def platformPoll (fuel : ℕ) : Code Unit := msgboxPoll (msgboxRx fuel) fuel

/-- `msgbox_irq_handler` with the callback the platform installs. -/
def platformIrqHandler (fuel : ℕ) : Code Unit := msgboxIrqHandler (msgboxRx fuel) fuel

/-- `generic_handle_irq`; the message box is the only source with a handler. -/
def genericHandleIrq (fuel : ℕ) (irq : Word) : Code Unit := do
  if irq < NR_IRQS then
    if irq = RISCV_MBOX_CPUX then
      platformIrqHandler fuel
    access (.writel .plicClaim irq)

/-- One round of the loop of `plic_handle_irq`. -/
def plicHandleIrqRound (fuel : ℕ) : Code (Unit ⊕ Unit) := do
  let irq ← access (.readl .plicClaim)
  if irq = 0 then
    pure (.inr ())
  else
    genericHandleIrq fuel irq
    pure (.inl ())

/-- `plic_handle_irq` -/
def plicHandleIrq (fuel : ℕ) : Code Unit := do
  access .clearMeie
  Prog.iterate (fun _ => plicHandleIrqRound fuel) fuel ()
  access .setMeie

/-- `C906_Default_IRQHandler` -/
def c906DefaultIrqHandler (fuel : ℕ) : Code Unit := do
  let n ← get .interruptNesting
  set .interruptNesting ((n + 1) % 2 ^ 32)
  plicHandleIrq fuel
  let n ← get .interruptNesting
  set .interruptNesting ((n + 2 ^ 32 - 1) % 2 ^ 32)

end C906Firmware
