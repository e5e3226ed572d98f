import C906Firmware.Model.Access

/-!
# The message box driver

`msgbox_poll`, `msgbox_irq_handler` and `msgbox_send` of `ipi.c`, access by access, for the
one message box of the firmware (`local_id = MSGBOX_RV_ID`, `remote_id = MSGBOX_ARM_ID`,
channel 0, so both shifts are 0). `platform_poll` and the `main_task` loop add nothing but
the call of `msgbox_poll`.

The unbounded loop of `msgbox_poll` takes a bound on its rounds (`fuel`), and what the
receive callback runs is a parameter.
-/

namespace C906Firmware

open Interaction

/-- `RD_IRQ_PEND_MASK` -/
def RD_IRQ_PEND_MASK : Word := 0x1

/-- `RD_IRQ_PEND_SHIFT(0)` -/
def RD_IRQ_PEND_SHIFT : ℕ := 0

/-- `MSG_NUM_MASK` -/
def MSG_NUM_MASK : Word := 0xF

/-- `MSG_NUM_SHIFT` -/
def MSG_NUM_SHIFT : ℕ := 0

/-- `mb->fifo_depth` -/
def fifoDepth : Word := 8

/-- A register whose bits under `mask` are those of `b` and whose other bits are those
of `x`. -/
def withField (x mask b : Word) : Word := (x &&& ~~~mask) ||| (b &&& mask)

@[simp]
theorem field_withField (x mask b : Word) : (withField x mask b >>> 0) &&& mask = b &&& mask := by
  ext i hi
  simp only [withField, BitVec.ushiftRight_zero, BitVec.getElem_and, BitVec.getElem_or,
    BitVec.getElem_not]
  cases mask[i] <;> simp

/-- `reg_bits_set`: a read of the register, then a write. -/
def regBitsSet (r : Reg) (mask : Word) (shift : ℕ) : Code Unit := do
  let v ← access (.readl r)
  access (.writel r (v ||| (mask <<< shift)))

/-- `reg_bits_clear` -/
def regBitsClear (r : Reg) (mask : Word) (shift : ℕ) : Code Unit := do
  let v ← access (.readl r)
  access (.writel r (v &&& ~~~(mask <<< shift)))

/-- `reg_bits_get` -/
def regBitsGet (r : Reg) (mask : Word) (shift : ℕ) : Code Word := do
  let v ← access (.readl r)
  pure ((v >>> shift) &&& mask)

/-- `msgbox_pending` -/
def msgboxPending : Code Word :=
  regBitsGet .rxIrqStatus RD_IRQ_PEND_MASK RD_IRQ_PEND_SHIFT

/-- The `if (data != 0)` block of `msgbox_poll`, without the local counter `drained`. -/
def msgboxCount (data : Word) : Code Unit := do
  if data ≠ 0 then
    set .lastData data.toNat
    let rxCount ← get .rxCount
    set .rxCount ((rxCount + 1) % 2 ^ 32)
    let lastVqid ← get .lastVqid
    if data.toNat ≠ lastVqid then
      set .lastVqid data.toNat
      set .repeats 0
    else
      let repeats ← get .repeats
      set .repeats ((repeats + 1) % 2 ^ 32)

/-- The `if (mb->rx_cb)` statement of `msgbox_poll`. -/
def msgboxDeliver (rx_cb : Word → Code Unit) (data : Word) : Code Unit := do
  let cb ← get .rxCb
  if cb ≠ 0 then
    access (.rxCb data)
    rx_cb data

/-- One round of the `do … while (pend)` loop of `msgbox_poll`; the loop state is `drained`.
The round that finds nothing pending leaves the loop by `break`. -/
def msgboxPollRound (rx_cb : Word → Code Unit) (drained : ℕ) : Code (ℕ ⊕ ℕ) := do
  let pend ← regBitsGet .rxIrqStatus RD_IRQ_PEND_MASK RD_IRQ_PEND_SHIFT
  if pend = 0 then
    -- HW quirk: read once even without pending
    let _ ← access (.readFifo .quirk)
    pure (.inr drained)
  else
    let data ← access (.readFifo .data)
    regBitsSet .rxIrqStatus RD_IRQ_PEND_MASK RD_IRQ_PEND_SHIFT
    msgboxCount data
    msgboxDeliver rx_cb data
    pure (.inl (if data ≠ 0 then (drained + 1) % 2 ^ 32 else drained))

/-- What `msgbox_poll` does after its loop: a log line whose arguments are read. -/
def msgboxPollLog (drained : ℕ) : Code Unit := do
  if drained ≠ 0 then
    let _ ← get .lastData
    let _ ← get .rxCount
    let _ ← msgboxPending

/-- `msgbox_poll` -/
def msgboxPoll (rx_cb : Word → Code Unit) (fuel : ℕ) : Code Unit := do
  let drained ← Prog.iterate (msgboxPollRound rx_cb) fuel 0
  msgboxPollLog drained

/-- One round of the `do … while` loop of `msgbox_irq_handler`; the loop state is `loops`. -/
def msgboxIrqRound (rx_cb : Word → Code Unit) (fuel loops : ℕ) : Code (ℕ ⊕ ℕ) := do
  msgboxPoll rx_cb fuel
  let pend ← msgboxPending
  pure (if pend ≠ 0 ∧ loops + 1 < 32 then .inl (loops + 1) else .inr (loops + 1))

/-- The counter, the log line and the task notification that end `msgbox_irq_handler`. -/
def msgboxIrqTail : Code Unit := do
  let n ← get .irqCount
  set .irqCount ((n + 1) % 2 ^ 32)
  let irqCount ← get .irqCount
  let _ ← get .rxCount
  let _ ← get .lastData
  if irqCount < 8 ∨ irqCount &&& 0x3F = 0 then
    let _ ← msgboxPending
  let task ← get .taskHandle
  if task ≠ 0 then
    access .notifyGiveFromIsr
    access .yieldFromIsr

/-- `msgbox_irq_handler` -/
def msgboxIrqHandler (rx_cb : Word → Code Unit) (fuel : ℕ) : Code Unit := do
  let _ ← Prog.iterate (msgboxIrqRound rx_cb fuel) 32 0
  msgboxIrqTail

/-- The `do … while (--retry)` loop of `msgbox_send` with `retry` rounds left; the result is
the value `retry` has after the loop. -/
def msgboxSendWait : ℕ → Code ℕ
  | 0 => pure 0
  | retry + 1 => do
    let msgNum ← regBitsGet .txMsgStatus MSG_NUM_MASK MSG_NUM_SHIFT
    if msgNum < fifoDepth then
      pure (retry + 1)
    else
      access (.udelay 1)
      msgboxSendWait retry

/-- `msgbox_send` -/
def msgboxSend (data : Word) : Code ℤ := do
  let retry ← msgboxSendWait 5000
  if retry = 0 then
    pure (-1)
  else
    access (.writel .txFifo data)
    pure 0

/-- A call of `msgbox_send`, with its begin and its return. -/
def msgboxSendCall (data : Word) : Code Unit := do
  access (.sendEnter data)
  let ret ← msgboxSend data
  access (.sendReturn ret)

end C906Firmware
