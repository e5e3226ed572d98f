import C906Firmware.Model.Platform

/-!
# Interrupt registration and dispatch

`arch/riscv/irq.c` and `hal/sources/plic.c`: the handler table `irq_table`, the bitmap
`plic_irq_rec`, the priorities and enable words of the PLIC, and the loop that claims and
completes interrupts. Every load and store is one access `IrqOp`.

An interrupt number is a natural number; no PLIC has more than 1024 sources, where
`unsigned int` and `int` agree. `irq_enable` and `irq_disable` check no bound, and a number with
no word in `plic_irq_rec` takes them outside that array, where C says nothing; here the bitmaps
go on without end, and `plicIrqRecWords` says where the array stops. A function pointer, and the
parameter a handler is called with, is a number too, and 0 is the null pointer. What a registered
handler does is a parameter of the dispatcher (`body`).
-/

namespace C906Firmware

open Interaction

namespace Irq

/-- A call of one of the four entry points. -/
inductive IrqCall
  | request (irqNo handler param : ℕ) (name : Option String)
  | free (irqNo : ℕ)
  | enable (irqNo : ℕ)
  | disable (irqNo : ℕ)
  deriving DecidableEq, Repr

/-- The interrupt number a call is about. -/
def IrqCall.irqNo : IrqCall → ℕ
  | request n _ _ _ => n
  | free n => n
  | enable n => n
  | disable n => n

/-- What a load of a word of `plic_irq_rec` is for: the test of the bit, or its update. -/
inductive LoadUse
  | test
  | update
  deriving DecidableEq, Repr

/-- What a handler does next. -/
inductive HandlerStep
  | call (c : IrqCall)
  | done
  deriving DecidableEq, Repr

/-- One access. -/
inductive IrqOp
  | loadHandler (n : ℕ)
  /-- `param` is the parameter given in the same call, which a later access stores. -/
  | storeHandler (n handler param : ℕ)
  | loadParam (n : ℕ)
  | storeParam (n param : ℕ)
  | loadName (n : ℕ)
  | storeName (n : ℕ) (name : Option String)
  | loadRec (w : ℕ) (u : LoadUse)
  | storeRec (w : ℕ) (v : Word)
  | writePriority (n : ℕ) (v : Word)
  | writeThreshold (v : Word)
  | readEnable (w : ℕ)
  | writeEnable (w : ℕ) (v : Word)
  /-- Read the claim register. -/
  | claim
  /-- Write the claim register. -/
  | complete (n : ℕ)
  /-- Read `c906_plic_regs`, which is set or null. -/
  | getRegs
  | setRegs
  | getPresent
  | setPresent
  | clearMeie
  | setMeie
  | setMie
  | log (text : String)
  /-- The call `entry->handler(entry->param)` as such; the handler's own accesses follow. -/
  | dispatch (n handler param : ℕ)
  /-- The handler decides what it does next. -/
  | handlerStep
  /-- Whether an external interrupt is taken at this point, before the next access. -/
  | interrupt
  /-- A call of an entry point begins. -/
  | callEnter (c : IrqCall)
  /-- A call of an entry point returns. -/
  | callReturn (c : IrqCall) (ret : ℤ)

/-- The answer an access gives. -/
@[reducible]
def IrqRet : IrqOp → Type
  | .loadHandler _ => ℕ
  | .loadParam _ => ℕ
  | .loadName _ => Option String
  | .loadRec _ _ => Word
  | .readEnable _ => Word
  | .claim => ℕ
  | .getRegs => Bool
  | .getPresent => Bool
  | .handlerStep => HandlerStep
  | .interrupt => Bool
  | _ => Unit

/-- A piece of the interrupt code. -/
abbrev IrqCode (α : Type) := Prog IrqRet α

/-- Make one access. -/
abbrev access (o : IrqOp) : IrqCode (IrqRet o) := Prog.perform o

/-- The length of the array `plic_irq_rec`. -/
def plicIrqRecWords : ℕ := (NR_IRQS.toNat + 1 + 32) >>> 5

/-- `1u << (irq_no % 32)` -/
def irqMask (irqNo : ℕ) : Word := (1 : Word) <<< (irqNo % 32)

/-- `plic_toggle` -/
def plicToggle (hwirq : ℕ) (enable : Bool) : IrqCode Unit := do
  let word ← access (.readEnable (hwirq / 32))
  if enable then
    access (.writeEnable (hwirq / 32) (word ||| irqMask hwirq))
  else
    access (.writeEnable (hwirq / 32) (word &&& ~~~irqMask hwirq))

/-- `plic_irq_toggle` -/
def plicIrqToggle (hwirq : ℕ) (enable : Bool) : IrqCode Unit := do
  access (.writePriority hwirq (if enable then 1 else 0))
  let present ← access .getPresent
  if present = true then
    plicToggle hwirq enable

/-- `plic_irq_enable` -/
def plicIrqEnable (hwirq : ℕ) : IrqCode Unit := plicIrqToggle hwirq true

/-- `plic_irq_disable` -/
def plicIrqDisable (hwirq : ℕ) : IrqCode Unit := plicIrqToggle hwirq false

/-- `plic_irq_eoi` -/
def plicIrqEoi (hwirq : ℕ) : IrqCode Unit := access (.complete hwirq)

/-- `plic_init` -/
def plicInit : IrqCode Unit := do
  let regs ← access .getRegs
  if regs = true then
    pure ()
  else
    access .setRegs
    let present ← access .getPresent
    if present = true then
      access (.writeThreshold 0xffffffff)
    else
      access .setPresent
      access (.writeThreshold 0)
    Prog.forEach (fun hwirq => plicToggle hwirq false) (List.range' 1 NR_IRQS.toNat)

/-- `record_irq_enable` -/
def recordIrqEnable (irqNo : ℕ) : IrqCode Unit := do
  let word ← access (.loadRec (irqNo / 32) .test)
  if word &&& irqMask irqNo = 0 then
    let word ← access (.loadRec (irqNo / 32) .update)
    access (.storeRec (irqNo / 32) (word ||| irqMask irqNo))

/-- `record_irq_disable` -/
def recordIrqDisable (irqNo : ℕ) : IrqCode Unit := do
  let word ← access (.loadRec (irqNo / 32) .test)
  if word &&& irqMask irqNo ≠ 0 then
    let word ← access (.loadRec (irqNo / 32) .update)
    access (.storeRec (irqNo / 32) (word &&& ~~~irqMask irqNo))

/-- `irq_request` -/
def irqRequest (irqNo handler param : ℕ) (name : Option String) : IrqCode ℤ := do
  if NR_IRQS.toNat ≤ irqNo ∨ handler = 0 then
    pure (-1)
  else
    access (.storeHandler irqNo handler param)
    access (.storeParam irqNo param)
    access (.storeName irqNo (some (name.getD "anon")))
    access .setMeie
    access .setMie
    plicIrqEnable irqNo
    recordIrqEnable irqNo
    let name ← access (.loadName irqNo)
    let shown := name.getD "(null)"
    access (.log s!"irq {irqNo} ({shown}) registered and enabled")
    pure 0

/-- `irq_free`; the `memset` clears the entry in the order of its fields. -/
def irqFree (irqNo : ℕ) : IrqCode ℤ := do
  if NR_IRQS.toNat ≤ irqNo then
    pure (-1)
  else
    plicIrqDisable irqNo
    recordIrqDisable irqNo
    access (.storeHandler irqNo 0 0)
    access (.storeParam irqNo 0)
    access (.storeName irqNo none)
    access (.log s!"irq {irqNo} freed")
    pure 0

/-- `irq_enable` -/
def irqEnable (irqNo : ℕ) : IrqCode ℤ := do
  plicIrqEnable irqNo
  recordIrqEnable irqNo
  pure 0

/-- `irq_disable` -/
def irqDisable (irqNo : ℕ) : IrqCode ℤ := do
  plicIrqDisable irqNo
  recordIrqDisable irqNo
  pure 0

/-- The function a call runs. -/
def IrqCall.function : IrqCall → IrqCode ℤ
  | request irqNo handler param name => irqRequest irqNo handler param name
  | free irqNo => irqFree irqNo
  | enable irqNo => irqEnable irqNo
  | disable irqNo => irqDisable irqNo

/-- A call, from its beginning to its return. -/
def IrqCall.code (c : IrqCall) : IrqCode Unit := do
  access (.callEnter c)
  let ret ← c.function
  access (.callReturn c ret)

/-- `generic_handle_irq` -/
def genericHandleIrq (body : ℕ → ℕ → IrqCode Unit) (irq : ℕ) : IrqCode ℤ := do
  if NR_IRQS.toNat ≤ irq then
    access (.log s!"spurious IRQ {irq} (>= NR_IRQS)")
    pure (-1)
  else
    let handler ← access (.loadHandler irq)
    if handler ≠ 0 then
      let handler ← access (.loadHandler irq)
      let param ← access (.loadParam irq)
      access (.dispatch irq handler param)
      body handler param
    else
      access (.log s!"unhandled IRQ {irq}")
    plicIrqEoi irq
    pure 0

/-- One round of the loop of `plic_handle_irq`. -/
def plicHandleIrqRound (body : ℕ → ℕ → IrqCode Unit) : IrqCode (Unit ⊕ Unit) := do
  let irq ← access .claim
  if irq = 0 then
    pure (.inr ())
  else
    let _ ← genericHandleIrq body irq
    pure (.inl ())

/-- `plic_handle_irq` -/
def plicHandleIrq (body : ℕ → ℕ → IrqCode Unit) (fuel : ℕ) : IrqCode Unit := do
  let regs ← access .getRegs
  let present ← access .getPresent
  if regs = false ∨ present = false then
    .stop
  else
    access .clearMeie
    Prog.iterate (fun _ => plicHandleIrqRound body) fuel ()
    access .setMeie

end Irq

end C906Firmware
