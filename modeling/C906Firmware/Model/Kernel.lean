import C906Firmware.Model.Access

/-!
# The kernel calls under the RPMsg code

`vTaskEnterCritical` and `vTaskExitCritical` with the scheduler running, and the mutex of
`metal_mutex_acquire` and `metal_mutex_release`, which is a FreeRTOS mutex: a queue of length 1
whose count is the semaphore's value. A task that finds the count zero waits in the kernel and
tries again; `fuel` bounds the tries.

The other mechanism saves and restores: `xport_interrupt_disable` and `xport_interrupt_enable`,
and their form in libmetal, where the flags are 32 bits wide.
-/

namespace C906Firmware

open Interaction

/-- `vTaskEnterCritical` -/
def taskEnterCritical : Code Unit := do
  access .clearMie
  let nesting ← get .criticalNesting
  set .criticalNesting (nesting + 1)

/-- `vTaskExitCritical` -/
def taskExitCritical : Code Unit := do
  let nesting ← get .criticalNesting
  if 0 < nesting then
    set .criticalNesting (nesting - 1)
    let nesting ← get .criticalNesting
    if nesting = 0 then
      access .setMie

/-- `SR_MIE` -/
def SR_MIE : BitVec 64 := 8

/-- `xport_interrupt_disable`: `arch_local_irq_save` -/
def xportInterruptDisable : Code (BitVec 64) := access .readClearMie

/-- `xport_interrupt_enable`: `arch_local_irq_restore` -/
def xportInterruptEnable (flags : BitVec 64) : Code Unit := access (.setMstatus (flags &&& SR_MIE))

/-- `sys_irq_save_disable` -/
def sysIrqSaveDisable : Code (BitVec 32) := do
  let flags ← xportInterruptDisable
  pure (flags.setWidth 32)

/-- `sys_irq_restore_enable` -/
def sysIrqRestoreEnable (flags : BitVec 32) : Code Unit :=
  xportInterruptEnable (flags.setWidth 64)

/-- One round of the loop of `xQueueSemaphoreTake` with an unlimited block time. -/
def semaphoreTakeRound : Code (Unit ⊕ Unit) := do
  taskEnterCritical
  let count ← get .lockCount
  if 0 < count then
    set .lockCount (count - 1)
    taskExitCritical
    pure (.inr ())
  else
    taskExitCritical
    access .block
    pure (.inl ())

/-- `xSemaphoreTake` with `portMAX_DELAY` -/
def semaphoreTake (fuel : ℕ) : Code Unit :=
  Prog.iterate (fun _ => semaphoreTakeRound) fuel ()

/-- `xSemaphoreGive` -/
def semaphoreGive : Code Unit := do
  taskEnterCritical
  let count ← get .lockCount
  if count < 1 then
    set .lockCount (count + 1)
  taskExitCritical

/-- `metal_mutex_acquire(&rdev->lock)` -/
def metalMutexAcquire (fuel : ℕ) : Code Unit := do
  semaphoreTake fuel
  set .lockIslock 1

/-- `metal_mutex_release(&rdev->lock)` -/
def metalMutexRelease : Code Unit := do
  semaphoreGive
  set .lockIslock 0

end C906Firmware
