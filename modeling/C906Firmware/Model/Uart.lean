import C906Firmware.Model.Access

/-!
# The UART driver and the console

`uart.c` and `_write_r` of `syscalls.c`, access by access, for the UART of the console. Offset 0
is the divisor latch low byte while `LCR.DLAB` is set and the transmit holding register
otherwise; `HALT.LCRUP` is cleared by the hardware, and what the status registers read is the
hardware's decision too. Divisions are accesses of their own, since the processor has a result
for a division by zero and the language has none.
-/

namespace C906Firmware

open Interaction

/-- `UART_THR` -/
def UART_THR : ℕ := 0x00

/-- `UART_DLL` -/
def UART_DLL : ℕ := 0x00

/-- `UART_DLH`, the offset of `UART_IER` too. -/
def UART_DLH : ℕ := 0x04

/-- `UART_FCR` -/
def UART_FCR : ℕ := 0x08

/-- `UART_LCR` -/
def UART_LCR : ℕ := 0x0c

/-- `UART_LSR` -/
def UART_LSR : ℕ := 0x14

/-- `UART_HALT` -/
def UART_HALT : ℕ := 0xA4

/-- `UART_LCR_DLAB` -/
def UART_LCR_DLAB : Byte := 0x80

/-- `UART_LCR_EPAR` -/
def UART_LCR_EPAR : Byte := 0x10

/-- `UART_LCR_PARITY` -/
def UART_LCR_PARITY : Byte := 0x08

/-- `UART_LCR_STOP` -/
def UART_LCR_STOP : Byte := 0x04

/-- `UART_FCR_FIFO_EN | UART_FCR_RXFIFO_RST | UART_FCR_TXFIFO_RST | UART_FCR_RXTRG_1_2 |
UART_FCR_TXTRG_1_2` -/
def uartFifoConfig : Byte := 0x01 ||| 0x02 ||| 0x04 ||| (0x2 <<< 6) ||| (0x2 <<< 4)

/-- `UART_HALT_HTX` -/
def UART_HALT_HTX : Byte := 0x01

/-- `UART_HALT_FORCECFG` -/
def UART_HALT_FORCECFG : Byte := 0x02

/-- `UART_HALT_LCRUP` -/
def UART_HALT_LCRUP : Byte := 0x04

/-- `UART_LSR_THRE` -/
def UART_LSR_THRE : Byte := 0x20

/-- `UART_TIMEOUT_US` -/
def UART_TIMEOUT_US : ℕ := 100000

/-- `ENOSYS` -/
def ENOSYS : ℕ := 88

/-! ### Accesses and the device -/

/-- One access of the driver. -/
inductive UartOp
  | readb (offset : ℕ)
  | writeb (offset : ℕ) (v : Byte)
  | udelay (us : ℕ)
  /-- Divide 32-bit values (`divuw`). -/
  | divuw (n d : Word)
  deriving DecidableEq, Repr

/-- The answer an access gives. -/
@[reducible]
def UartRet : UartOp → Type
  | .readb _ => Byte
  | .divuw _ _ => Word
  | _ => Unit

/-- A piece of the driver. -/
abbrev UartCode (α : Type) := Prog UartRet α

/-- The registers that hold what has been written to them, and the bytes put into the transmit
holding register so far. -/
@[ext]
structure Uart where
  lcr : Byte
  halt : Byte
  dll : Byte
  dlh : Byte
  ier : Byte
  fcr : Byte
  sent : List Byte
  deriving DecidableEq, Repr

/-- What the hardware decides at an access. -/
structure Response where
  /-- The update of `LCR` is completed before the access. -/
  lcrup : Bool
  /-- What a status register, or a receive register, reads. -/
  status : Byte
  deriving DecidableEq, Repr

namespace Uart

/-- `LCR.DLAB` is set. -/
def latchOpen (u : Uart) : Prop := u.lcr &&& UART_LCR_DLAB ≠ 0

instance (u : Uart) : Decidable u.latchOpen := inferInstanceAs (Decidable (_ ≠ _))

/-- `HALT.HTX` is set. -/
def halted (u : Uart) : Prop := u.halt &&& UART_HALT_HTX ≠ 0

instance (u : Uart) : Decidable u.halted := inferInstanceAs (Decidable (_ ≠ _))

/-- The divisor in the latch. -/
def divisor (u : Uart) : ℕ := u.dlh.toNat * 256 + u.dll.toNat

/-- The hardware completes the update of `LCR`, if it does. -/
def settle (u : Uart) (x : Response) : Uart :=
  if x.lcrup then { u with halt := u.halt &&& ~~~UART_HALT_LCRUP } else u

/-- What a read gives. -/
def read (u : Uart) (x : Response) (offset : ℕ) : Byte :=
  if offset = UART_LCR then u.lcr
  else if offset = UART_HALT then u.halt
  else if offset = UART_DLL ∧ u.latchOpen then u.dll
  else if offset = UART_DLH then (if u.latchOpen then u.dlh else u.ier)
  else x.status

/-- What a write does. -/
def write (u : Uart) (offset : ℕ) (v : Byte) : Uart :=
  if offset = UART_THR then
    if u.latchOpen then { u with dll := v } else { u with sent := u.sent ++ [v] }
  else if offset = UART_DLH then
    if u.latchOpen then { u with dlh := v } else { u with ier := v }
  else if offset = UART_FCR then { u with fcr := v }
  else if offset = UART_LCR then { u with lcr := v }
  else if offset = UART_HALT then { u with halt := v }
  else u

/-- The answer and the effect of an access. -/
def exec : (o : UartOp) → Response → Uart → UartRet o × Uart
  | .readb offset, x, u => ((u.settle x).read x offset, u.settle x)
  | .writeb offset v, x, u => ((), (u.settle x).write offset v)
  | .udelay _, x, u => ((), u.settle x)
  | .divuw n d, x, u => (n.smtUDiv d, u.settle x)

end Uart

/-! ### The driver -/

/-- `readb` -/
abbrev readb (offset : ℕ) : UartCode Byte := Prog.perform (UartOp.readb offset)

/-- `writeb` -/
abbrev writeb (v : Byte) (offset : ℕ) : UartCode Unit := Prog.perform (UartOp.writeb offset v)

/-- `uart_error_t` -/
inductive UartError
  | ok
  | error
  | param
  | timeout
  deriving DecidableEq, Repr

/-- The value of an error code. -/
def UartError.toInt : UartError → ℤ
  | .ok => 0
  | .error => -1
  | .param => -2
  | .timeout => -3

/-- The polling loops: read a register until `done`, with `timeout` rounds left; the result is
false if they have been used up. -/
def uartPoll (offset : ℕ) (done : Byte → Bool) : ℕ → UartCode Bool
  | 0 => do
    let v ← readb offset
    pure (done v)
  | timeout + 1 => do
    let v ← readb offset
    if done v then
      pure true
    else do
      Prog.perform (UartOp.udelay 1)
      uartPoll offset done timeout

/-- `uart_set_baudrate` -/
def uartSetBaudrate (uartClk baudrate : Word) : UartCode UartError :=
  if baudrate = 0 then
    pure .param
  else do
    let lcr ← readb UART_LCR
    let quot ← Prog.perform (UartOp.divuw (uartClk + 8 * baudrate) (16 * baudrate))
    let dlh : Byte := (quot >>> 8).setWidth 8
    let dll : Byte := (quot &&& 0xff).setWidth 8
    writeb (UART_HALT_HTX ||| UART_HALT_FORCECFG) UART_HALT
    writeb (lcr ||| UART_LCR_DLAB) UART_LCR
    writeb dlh UART_DLH
    writeb dll UART_DLL
    writeb (UART_HALT_HTX ||| UART_HALT_FORCECFG ||| UART_HALT_LCRUP) UART_HALT
    let done ← uartPoll UART_HALT (fun v => v &&& UART_HALT_LCRUP = 0) UART_TIMEOUT_US
    if done then do
      writeb lcr UART_LCR
      writeb UART_HALT_FORCECFG UART_HALT
      pure .ok
    else
      pure .timeout

/-- The value `uart_set_format` writes to `LCR`. -/
def uartFormat (dataBits stopBits parity : Byte) : Byte :=
  let lcr : Byte := if dataBits = 5 then 0x0 else if dataBits = 6 then 0x1
    else if dataBits = 7 then 0x2 else 0x3
  let lcr := if stopBits = 2 then lcr ||| UART_LCR_STOP else lcr &&& ~~~UART_LCR_STOP
  if parity = 1 then (lcr ||| UART_LCR_PARITY) &&& ~~~UART_LCR_EPAR
  else if parity = 2 then lcr ||| (UART_LCR_PARITY ||| UART_LCR_EPAR)
  else lcr &&& ~~~UART_LCR_PARITY

/-- `uart_set_format` -/
def uartSetFormat (dataBits stopBits parity : Byte) : UartCode UartError := do
  writeb (uartFormat dataBits stopBits parity) UART_LCR
  pure .ok

/-- `uart_enable_fifo` -/
def uartEnableFifo : UartCode UartError := do
  writeb uartFifoConfig UART_FCR
  let _ ← readb UART_FCR
  pure .ok

/-- `uart_config_t`, without the base address. -/
structure UartConfig where
  uartClk : Word
  baudrate : Word
  dataBits : Byte
  stopBits : Byte
  parity : Byte
  deriving DecidableEq, Repr

/-- `uart_init`; `none` is the null pointer. -/
def uartInit : Option UartConfig → UartCode UartError
  | none => pure .param
  | some config => do
    let status ← uartSetFormat config.dataBits config.stopBits config.parity
    if status ≠ .ok then
      pure .error
    else do
      let status ← uartSetBaudrate config.uartClk config.baudrate
      if status ≠ .ok then
        pure .error
      else do
        let status ← uartEnableFifo
        if status ≠ .ok then pure .error else pure .ok

/-- `uart_send_byte` -/
def uartSendByte (ch : Byte) : UartCode UartError := do
  let done ← uartPoll UART_LSR (fun v => v &&& UART_LSR_THRE ≠ 0) UART_TIMEOUT_US
  if done then do
    writeb ch UART_THR
    pure .ok
  else
    pure .timeout

/-- The loop of `uart_send`. -/
def uartSendLoop (sent : ℕ) : List Byte → UartCode ℕ
  | [] => pure sent
  | b :: rest => do
    let status ← uartSendByte b
    if status = .ok then uartSendLoop (sent + 1) rest else pure sent

/-- `uart_send`, for lengths an `int` can count; `none` is the null pointer. -/
def uartSend : Option (List Byte) → UartCode ℤ
  | none => pure UartError.param.toInt
  | some [] => pure UartError.param.toInt
  | some data => do
    let sent ← uartSendLoop 0 data
    pure sent

/-! ### The console -/

/-- The body of the loop of `_write_r`; what `uart_send_byte` returns is not used. -/
def writeChar (b : Byte) : UartCode Unit :=
  if b = 0x0A then do
    let _ ← uartSendByte 0x0D
    let _ ← uartSendByte b
  else do
    let _ ← uartSendByte b

/-- `_write_r`, for lengths an `int` can count; an error is the value left in `_errno`. -/
def writeR (fd : ℤ) (buf : List Byte) : UartCode (Except ℕ ℤ) :=
  if fd < 3 then do
    Prog.forEach writeChar buf
    pure (.ok buf.length)
  else
    pure (.error ENOSYS)

end C906Firmware
