import Mathlib.Data.BitVec

/-!
# The system tick

`timer.c`, the timer branch of `risc_v_trap_handler` in `portASM.S`, and how `tasks.c` counts
ticks, those that come while the scheduler is suspended included. The compare register is 64 bits
wide and the C code writes it in two halves; `TIME` reads the machine timer modulo `2 ^ 64`.
-/

namespace C906Firmware

/-- `TICK_DELTA`, which is also `uxTimerIncrementsForOneTick`: `configCPU_CLOCK_HZ` over
`configTICK_RATE_HZ`. -/
def TICK_DELTA : ℕ := 24000000 / 1000

/-- The machine timer, its compare register, and the variables of the tick. -/
structure Timer where
  /-- The machine timer. -/
  mtime : ℕ
  mtimecmp : BitVec 64
  /-- The timer bit of `mie`. -/
  mtie : Bool
  ullNextTime : BitVec 64
  xTickCount : BitVec 64
  xPendedTicks : BitVec 64
  uxSchedulerSuspended : ℕ
  /-- The number of timer traps so far. -/
  traps : ℕ
  deriving DecidableEq, Repr

namespace Timer

/-- `riscv_get_cycles` -/
def riscvGetCycles (k : Timer) : BitVec 64 := BitVec.ofNat 64 k.mtime

/-- `writel_relaxed` to the lower half of the compare register. -/
def writeCompareLow (k : Timer) (v : BitVec 32) : Timer :=
  { k with mtimecmp := k.mtimecmp.extractLsb' 32 32 ++ v }

/-- `writel_relaxed` to the upper half of the compare register. -/
def writeCompareHigh (k : Timer) (v : BitVec 32) : Timer :=
  { k with mtimecmp := v ++ k.mtimecmp.extractLsb' 0 32 }

/-- The two writes of a new compare value. -/
def writeCompare (k : Timer) (next : BitVec 64) : Timer :=
  (k.writeCompareLow (next.setWidth 32)).writeCompareHigh ((next >>> 32).setWidth 32)

/-- `riscv_system_tick_init`, after `clic_driver_init` has set the address of the register. -/
def riscvSystemTickInit (k : Timer) : Timer :=
  let nextCompare := k.riscvGetCycles + BitVec.ofNat 64 TICK_DELTA
  let k := { k with ullNextTime := nextCompare + BitVec.ofNat 64 TICK_DELTA, mtie := true }
  k.writeCompare nextCompare

/-- The timer branch of `risc_v_trap_handler` up to its call of the handler. -/
def timerBranch (k : Timer) : Timer :=
  { k with
    mtimecmp := k.ullNextTime
    ullNextTime := k.ullNextTime + BitVec.ofNat 64 TICK_DELTA
    traps := k.traps + 1 }

/-- `riscv_timer_interrupt` -/
def riscvTimerInterrupt (k : Timer) : Timer :=
  let nextCompare := k.riscvGetCycles + BitVec.ofNat 64 TICK_DELTA
  let k := { k with mtie := false }
  let k := k.writeCompare nextCompare
  { k with mtie := true }

/-- `xTaskIncrementTick`, as far as it counts. -/
def xTaskIncrementTick (k : Timer) : Timer :=
  if k.uxSchedulerSuspended = 0 then
    { k with xTickCount := k.xTickCount + 1 }
  else
    { k with xPendedTicks := k.xPendedTicks + 1 }

/-- `vTaskSuspendAll` -/
def vTaskSuspendAll (k : Timer) : Timer :=
  { k with uxSchedulerSuspended := k.uxSchedulerSuspended + 1 }

/-- `xTaskResumeAll`, as far as it counts: the pended ticks are unwound. -/
def xTaskResumeAll (k : Timer) : Timer :=
  if k.uxSchedulerSuspended = 1 then
    { k with
      uxSchedulerSuspended := 0
      xTickCount := k.xTickCount + k.xPendedTicks
      xPendedTicks := 0 }
  else
    { k with uxSchedulerSuspended := k.uxSchedulerSuspended - 1 }

/-- The ticks counted so far. -/
def ticks (k : Timer) : BitVec 64 := k.xTickCount + k.xPendedTicks

/-- Time passes. -/
def advance (k : Timer) (n : ℕ) : Timer := { k with mtime := k.mtime + n }

/-- The timer interrupt is pending and enabled. -/
def Pending (k : Timer) : Prop := k.mtie = true ∧ k.mtimecmp ≤ k.riscvGetCycles

instance (k : Timer) : Decidable k.Pending := inferInstanceAs (Decidable (_ ∧ _))

/-- A timer trap: `latency` passes before the handler reads the time. -/
def trap (k : Timer) (latency : ℕ) : Timer :=
  ((k.timerBranch.advance latency).riscvTimerInterrupt).xTaskIncrementTick

end Timer

end C906Firmware
