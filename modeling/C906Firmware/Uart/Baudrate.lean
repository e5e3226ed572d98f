import C906Firmware.Uart.Sending

/-!
# Setting the baud rate

`uart_set_baudrate` opens the divisor latch and halts the transmitter, writes the divisor, and
waits for the hardware to complete the update of `LCR`; only then does it undo both. If the
update does not come in time it gives up with the latch open and the transmitter halted, and
`uart_init` with it (`failsUsable_iff`).
-/

namespace C906Firmware

open Interaction

namespace Uart

variable {u : Uart} {xs : ℕ → Response}

/-! ### Registers -/

section Registers

variable (x : Response)

/-- Whether the transmitter is halted does not depend on the update of the divisor. -/
theorem halted_settle : (u.settle x).halted ↔ u.halted := by
  unfold settle
  split
  · have hbit : u.halt &&& ~~~UART_HALT_LCRUP &&& UART_HALT_HTX = u.halt &&& UART_HALT_HTX := by
      rw [BitVec.and_assoc]
      rfl
    simp only [halted, hbit]
  · rfl

theorem write_lcr (v : Byte) : u.write UART_LCR v = { u with lcr := v } := rfl

theorem write_halt (v : Byte) : u.write UART_HALT v = { u with halt := v } := rfl

/-- With the latch open the high byte of the divisor is written instead of the interrupts. -/
theorem write_dlh (h : u.latchOpen) (v : Byte) : u.write UART_DLH v = { u with dlh := v } :=
  if_pos h

/-- With the latch open the low byte of the divisor is written instead of data. -/
theorem write_dll (h : u.latchOpen) (v : Byte) : u.write UART_DLL v = { u with dll := v } :=
  if_pos h

theorem latchOpen_or (lcr : Byte) : (lcr ||| UART_LCR_DLAB) &&& UART_LCR_DLAB ≠ 0 := by
  intro h
  have hbit := congrArg (fun v : Byte => v.getLsbD 7) h
  simp [UART_LCR_DLAB] at hbit

/-- The registers but `HALT`, which is all the hardware touches by itself. -/
def still (u : Uart) : Uart := { u with halt := 0 }

theorem still_settle : (u.settle x).still = u.still := by
  unfold settle
  split <;> rfl

/-- A write beside the halt register does the same whatever that register holds. -/
theorem still_write (offset : ℕ) (v : Byte) (hoffset : offset ≠ UART_HALT) :
    (u.write offset v).still = u.still.write offset v := by
  have hlatch : u.still.latchOpen = u.latchOpen := rfl
  simp only [write, hlatch, hoffset, if_false]
  split_ifs <;> rfl

theorem still_write_halt (v : Byte) : (u.write UART_HALT v).still = u.still := rfl

/-- A write to the halt register replaces what it holds. -/
theorem write_halt_still (v : Byte) : u.write UART_HALT v = u.still.write UART_HALT v := rfl

end Registers

/-! ### The wait for the update -/

/-- The hardware completes the update of `LCR` in time, if the first poll is access `n`. -/
def Updated (n : ℕ) (xs : ℕ → Response) : Prop :=
  ∃ i ≤ 2 * UART_TIMEOUT_US, (xs (i + n)).lcrup = true

/-- The test of the polling loop of `uart_set_baudrate`. -/
private abbrev lcrupClear (v : Byte) : Bool := v &&& UART_HALT_LCRUP = 0

/-- `HALT` while the update is pending. -/
private abbrev haltPending : Byte := UART_HALT_HTX ||| UART_HALT_FORCECFG ||| UART_HALT_LCRUP

/-- `HALT` after the update. -/
private abbrev haltUpdated : Byte := UART_HALT_HTX ||| UART_HALT_FORCECFG

/-- The hardware takes the update over. -/
theorem settle_of_lcrup {x : Response} (hx : x.lcrup = true) :
    u.settle x = { u with halt := u.halt &&& ~~~UART_HALT_LCRUP } := if_pos hx

theorem settle_of_not {x : Response} (hx : x.lcrup = false) : u.settle x = u :=
  if_neg (by simp [hx])

theorem read_halt (x : Response) : u.read x UART_HALT = u.halt := rfl

/-- One round that finds the update completed is the last. -/
theorem poll_done {timeout : ℕ} (h : (u.settle (xs 0)).halt = haltUpdated) :
    (uartPoll UART_HALT lcrupClear timeout).run exec u xs = some (true, u.settle (xs 0)) := by
  have hclear : lcrupClear haltUpdated = true := by decide
  rcases timeout with - | timeout
  · simp only [uartPoll, Prog.perform_bind, Prog.run, exec, read_halt, h, hclear,
      Prog.pure_eq_ret]
  · simp only [uartPoll, Prog.perform_bind, Prog.run, exec, read_halt, h, hclear,
      Prog.pure_eq_ret, if_true]

/-- One round that does not is followed by another, two accesses later. -/
theorem poll_again {timeout : ℕ} (hhalt : u.halt = haltPending) (h : (xs 0).lcrup = false) :
    (uartPoll UART_HALT lcrupClear (timeout + 1)).run exec u xs =
      (uartPoll UART_HALT lcrupClear timeout).run exec (u.settle (xs 1)) fun i => xs (i + 2) := by
  have hpending : lcrupClear haltPending = false := by decide
  simp only [uartPoll, Prog.perform_bind, Prog.run, exec, settle_of_not h, read_halt, hhalt,
    hpending, Bool.false_eq_true, if_false, Nat.zero_add]

/-- What is left in the halt register when the update has been taken over. -/
theorem pending_updated : haltPending &&& ~~~UART_HALT_LCRUP = haltUpdated := by decide

theorem updated_updated : haltUpdated &&& ~~~UART_HALT_LCRUP = haltUpdated := by decide

/-- After the update the loop ends at once. -/
theorem poll_updated {timeout : ℕ} (hhalt : u.halt = haltUpdated) :
    (uartPoll UART_HALT lcrupClear timeout).run exec u xs = some (true, u) := by
  have hsettle : u.settle (xs 0) = u := by
    rcases hx : (xs 0).lcrup
    · exact settle_of_not hx
    · rw [settle_of_lcrup hx, hhalt, updated_updated, ← hhalt]
  have hdone : (uartPoll UART_HALT lcrupClear timeout).run exec u xs =
      some (true, u.settle (xs 0)) := poll_done (by rw [hsettle, hhalt])
  rwa [hsettle] at hdone

/-- The loop ends with the update, if it comes in time. -/
theorem poll_pending {timeout : ℕ} (hhalt : u.halt = haltPending)
    (h : ∃ i ≤ 2 * timeout, (xs i).lcrup = true) :
    (uartPoll UART_HALT lcrupClear timeout).run exec u xs =
      some (true, { u with halt := haltUpdated }) := by
  have hsettle : ∀ x : Response, x.lcrup = true →
      u.settle x = { u with halt := haltUpdated } := by
    intro x hx
    rw [settle_of_lcrup hx, hhalt, pending_updated]
  induction timeout generalizing xs with
  | zero =>
    obtain ⟨i, hi, hx⟩ := h
    obtain rfl : i = 0 := by omega
    rw [poll_done (by rw [hsettle _ hx]), hsettle _ hx]
  | succ timeout ih =>
    rcases hx : (xs 0).lcrup
    · rw [poll_again hhalt hx]
      rcases hx' : (xs 1).lcrup
      · rw [settle_of_not hx']
        obtain ⟨i, hi, hlcrup⟩ := h
        obtain ⟨i, rfl⟩ : ∃ n, i = n + 2 := by
          rcases i with - | - | i
          · rw [hx] at hlcrup
            cases hlcrup
          · rw [hx'] at hlcrup
            cases hlcrup
          · exact ⟨i, rfl⟩
        exact ih ⟨i, by omega, hlcrup⟩
      · rw [hsettle _ hx']
        exact poll_updated rfl
    · rw [poll_done (by rw [hsettle _ hx]), hsettle _ hx]

/-- The loop gives up if it does not. -/
theorem poll_gives_up {timeout : ℕ} (hhalt : u.halt = haltPending)
    (h : ∀ i ≤ 2 * timeout, (xs i).lcrup = false) :
    (uartPoll UART_HALT lcrupClear timeout).run exec u xs = some (false, u) := by
  induction timeout generalizing xs with
  | zero =>
    have hpending : lcrupClear haltPending = false := by decide
    simp only [uartPoll, Prog.perform_bind, Prog.run, exec, settle_of_not (h 0 le_rfl),
      read_halt, hhalt, hpending, Prog.pure_eq_ret]
  | succ timeout ih =>
    rw [poll_again hhalt (h 0 (Nat.zero_le _)), settle_of_not (h 1 (by omega))]
    exact ih fun i hi => h (i + 2) (by omega)

/-! ### What `uart_set_baudrate` does -/

/-- The quotient it computes, in 32 bits. -/
def quotient (uartClk baudrate : Word) : Word :=
  (uartClk + 8 * baudrate).smtUDiv (16 * baudrate)

/-- The divisor latch with the lower 16 bits of a quotient. -/
def latch (u : Uart) (quot : Word) : Uart :=
  { u with dlh := (quot >>> 8).setWidth 8, dll := (quot &&& 0xff).setWidth 8 }

section SetBaudrate

variable {uartClk baudrate : Word}

/-- A baudrate of zero is refused before any access. -/
theorem setBaudrate_param : (uartSetBaudrate uartClk 0).run exec u xs = some (.param, u) := rfl

/-- Up to the wait: the latch is open and holds the divisor, and the transmitter is halted. -/
theorem setBaudrate_opens (hbaud : baudrate ≠ 0) :
    (uartSetBaudrate uartClk baudrate).run exec u xs =
      (uartPoll UART_HALT lcrupClear UART_TIMEOUT_US >>= fun done =>
        if done then do
          writeb u.lcr UART_LCR
          writeb UART_HALT_FORCECFG UART_HALT
          pure .ok
        else
          pure .timeout).run exec
        { u.latch (quotient uartClk baudrate) with
          lcr := u.lcr ||| UART_LCR_DLAB, halt := haltPending } fun i => xs (i + 7) := by
  have hlcr : (u.settle (xs 0)).read (xs 0) UART_LCR = u.lcr := by
    have hstill := congrArg Uart.lcr (still_settle (u := u) (xs 0))
    exact hstill
  rw [uartSetBaudrate, if_neg hbaud]
  simp only [Prog.perform_bind, Prog.run, exec]
  rw [hlcr, write_halt_still]
  have hopen : ({ u.still with lcr := u.lcr ||| UART_LCR_DLAB } : Uart).latchOpen :=
    latchOpen_or u.lcr
  simp only [still_settle, still_write UART_DLL _ (by decide),
    still_write UART_DLH _ (by decide), still_write UART_LCR _ (by decide), still_write_halt]
  rw [write_lcr, write_dlh hopen, write_dll (by exact hopen), write_halt]
  rfl

/-- With the update taken over in time the new divisor is in effect. -/
theorem setBaudrate_updated (hbaud : baudrate ≠ 0) (h : Updated 7 xs) :
    (uartSetBaudrate uartClk baudrate).run exec u xs =
      some (.ok, { u.latch (quotient uartClk baudrate) with halt := UART_HALT_FORCECFG }) := by
  rw [setBaudrate_opens hbaud, Prog.run_bind_of_run (poll_pending rfl h), if_pos rfl]
  simp only [Prog.perform_bind, Prog.run, exec, Prog.pure_eq_ret]
  rw [write_halt_still]
  simp only [still_settle, still_write UART_LCR _ (by decide)]
  rfl

/-- Otherwise the function returns with the latch open and the transmitter halted. -/
theorem setBaudrate_timeout (hbaud : baudrate ≠ 0) (h : ¬Updated 7 xs) :
    (uartSetBaudrate uartClk baudrate).run exec u xs =
      some (.timeout, { u.latch (quotient uartClk baudrate) with
        lcr := u.lcr ||| UART_LCR_DLAB, halt := haltPending }) := by
  have hnever : ∀ i ≤ 2 * UART_TIMEOUT_US, (xs (i + 7)).lcrup = false := by
    intro i hi
    by_contra hx
    exact h ⟨i, hi, Bool.eq_true_of_not_eq_false hx⟩
  rw [setBaudrate_opens hbaud, Prog.run_bind_of_run (poll_gives_up rfl hnever)]
  rfl

end SetBaudrate

/-! ### After a failure -/

/-- The UART can be used: the divisor latch is closed, the transmitter is not halted, and every
byte for which `uart_send_byte` reports `UART_OK` is put into the transmit holding register and
not into the latch. -/
structure Usable (u : Uart) : Prop where
  closed : ¬u.latchOpen
  running : ¬u.halted
  honest : ∀ bytes xs, ∃ accepted u', (sendEach bytes).run exec u xs = some (accepted, u') ∧
    u'.sent = u.sent ++ accepted ∧ u'.dll = u.dll

theorem usable_iff : Usable u ↔ ¬u.latchOpen ∧ ¬u.halted := by
  refine ⟨fun h => ⟨h.closed, h.running⟩, fun ⟨hclosed, hrunning⟩ => ⟨hclosed, hrunning, ?_⟩⟩
  intro bytes xs
  obtain ⟨accepted, u', h⟩ := sendEach_run hclosed bytes xs
  have hdll := congrArg Uart.dll h.sent
  exact ⟨accepted, u', h.run, congrArg Uart.sent h.sent, hdll⟩

/-- The call comes to an end, and leaves the UART usable if it fails. -/
def FailsUsable (p : UartCode UartError) (u : Uart) (xs : ℕ → Response) : Prop :=
  ∃ r u', p.run exec u xs = some (r, u') ∧ (r ≠ .ok → Usable u')

/-- The property is about the result, where the result is known. -/
theorem failsUsable_of_run {p : UartCode UartError} {r : UartError} {u' : Uart}
    (hrun : p.run exec u xs = some (r, u')) :
    FailsUsable p u xs ↔ r = .ok ∨ Usable u' := by
  constructor
  · rintro ⟨r', v, hrun', h⟩
    obtain ⟨rfl, rfl⟩ := Prod.mk.inj (Option.some.inj (hrun.symm.trans hrun'))
    by_cases hr : r = .ok
    · exact .inl hr
    · exact .inr (h hr)
  · intro h
    exact ⟨r, u', hrun, h.resolve_left⟩

/-- A `uart_set_baudrate` that has timed out leaves the latch open. -/
theorem latchOpen_not_usable {v : Uart} (h : v.lcr = u.lcr ||| UART_LCR_DLAB) : ¬Usable v := by
  intro hv
  have hopen := latchOpen_or u.lcr
  rw [← h] at hopen
  exact hv.closed hopen

/-- `uart_set_baudrate` fails with a usable UART, if it fails, exactly where it refuses the baudrate
or the update comes in time. -/
theorem setBaudrate_failsUsable_iff (hclosed : ¬u.latchOpen) (hrunning : ¬u.halted)
    (uartClk baudrate : Word) (xs : ℕ → Response) :
    FailsUsable (uartSetBaudrate uartClk baudrate) u xs ↔ baudrate = 0 ∨ Updated 7 xs := by
  by_cases hbaud : baudrate = 0
  · subst hbaud
    rw [failsUsable_of_run setBaudrate_param]
    exact iff_of_true (.inr (usable_iff.2 ⟨hclosed, hrunning⟩)) (.inl rfl)
  by_cases h : Updated 7 xs
  · rw [failsUsable_of_run (setBaudrate_updated hbaud h)]
    exact iff_of_true (.inl rfl) (.inr h)
  · rw [failsUsable_of_run (setBaudrate_timeout hbaud h)]
    refine iff_of_false ?_ (not_or_intro hbaud h)
    exact not_or_intro (by simp) (latchOpen_not_usable (u := u) rfl)

/-- The data format has no bit of the divisor latch. -/
theorem uartFormat_closed (dataBits stopBits parity : Byte) :
    uartFormat dataBits stopBits parity &&& UART_LCR_DLAB = 0 := by
  unfold uartFormat
  split_ifs <;> rfl

/-- `uart_init` is `uart_set_baudrate` with the data format, and the FIFOs after it. -/
theorem init_run (config : UartConfig) {r : UartError} {u' : Uart}
    (hrun : (uartSetBaudrate config.uartClk config.baudrate).run exec
      ((u.settle (xs 0)).write UART_LCR
        (uartFormat config.dataBits config.stopBits config.parity))
      (fun i => xs (i + 1)) = some (r, u')) :
    (r = .ok → ∃ v, (uartInit (some config)).run exec u xs = some (.ok, v)) ∧
      (r ≠ .ok → (uartInit (some config)).run exec u xs = some (.error, u')) := by
  have hinit : (uartInit (some config)).run exec u xs =
      (uartSetBaudrate config.uartClk config.baudrate >>= fun status =>
        if status ≠ .ok then
          pure .error
        else do
          let status ← uartEnableFifo
          if status ≠ .ok then pure .error else pure .ok).run exec
        ((u.settle (xs 0)).write UART_LCR
          (uartFormat config.dataBits config.stopBits config.parity))
        fun i => xs (i + 1) := rfl
  rw [hinit, Prog.run_bind_of_run hrun]
  constructor
  · rintro rfl
    exact ⟨_, rfl⟩
  · intro hr
    rw [if_pos hr]
    rfl

/-- `uart_set_baudrate` returns. -/
theorem setBaudrate_ends (uartClk baudrate : Word) (u : Uart) (xs : ℕ → Response) :
    ∃ r u', (uartSetBaudrate uartClk baudrate).run exec u xs = some (r, u') := by
  by_cases hbaud : baudrate = 0
  · subst hbaud
    exact ⟨_, _, setBaudrate_param⟩
  by_cases h : Updated 7 xs
  · exact ⟨_, _, setBaudrate_updated hbaud h⟩
  · exact ⟨_, _, setBaudrate_timeout hbaud h⟩

/-- `uart_init` leaves the UART usable when the `uart_set_baudrate` in it does. -/
theorem init_failsUsable_iff (config : UartConfig) :
    FailsUsable (uartInit (some config)) u xs ↔
      FailsUsable (uartSetBaudrate config.uartClk config.baudrate)
        ((u.settle (xs 0)).write UART_LCR
          (uartFormat config.dataBits config.stopBits config.parity)) fun i => xs (i + 1) := by
  obtain ⟨r, u', hrun⟩ := setBaudrate_ends config.uartClk config.baudrate
    ((u.settle (xs 0)).write UART_LCR
      (uartFormat config.dataBits config.stopBits config.parity)) fun i => xs (i + 1)
  rw [failsUsable_of_run hrun]
  obtain ⟨hok, hfail⟩ := init_run config hrun
  by_cases hr : r = .ok
  · obtain ⟨v, hinit⟩ := hok hr
    rw [failsUsable_of_run hinit]
    exact iff_of_true (.inl rfl) (.inl hr)
  · rw [failsUsable_of_run (hfail hr)]
    simp [hr]

/-- A failed `uart_set_baudrate` or `uart_init` leaves the UART usable if and only if there was
no rate to set, or the hardware completes the update of `LCR` in time. -/
theorem failsUsable_iff (hclosed : ¬u.latchOpen) (hrunning : ¬u.halted)
    (uartClk baudrate : Word) (config : Option UartConfig) (xs : ℕ → Response) :
    (FailsUsable (uartSetBaudrate uartClk baudrate) u xs ↔ baudrate = 0 ∨ Updated 7 xs) ∧
      (FailsUsable (uartInit config) u xs ↔
        ∀ c ∈ config, c.baudrate = 0 ∨ Updated 8 xs) := by
  refine ⟨setBaudrate_failsUsable_iff hclosed hrunning uartClk baudrate xs, ?_⟩
  rcases config with - | c
  · have hnull : (uartInit none).run exec u xs = some (.param, u) := rfl
    rw [failsUsable_of_run hnull]
    exact iff_of_true (.inr (usable_iff.2 ⟨hclosed, hrunning⟩)) (by simp)
  · have hclosed' : ¬((u.settle (xs 0)).write UART_LCR
        (uartFormat c.dataBits c.stopBits c.parity)).latchOpen :=
      not_not_intro (uartFormat_closed _ _ _)
    have hrunning' : ¬((u.settle (xs 0)).write UART_LCR
        (uartFormat c.dataBits c.stopBits c.parity)).halted := mt (halted_settle (xs 0)).1 hrunning
    rw [init_failsUsable_iff, setBaudrate_failsUsable_iff hclosed' hrunning']
    simp only [Option.mem_some_iff, forall_eq']
    rfl

/-- The registers after a reset. -/
def reset : Uart := ⟨0, 0, 0, 0, 0, 0, []⟩

theorem failsUsable_iff_reset :
    (FailsUsable (uartSetBaudrate 24000000 115200) reset (fun _ => ⟨true, 0⟩) ↔
        (115200 : Word) = 0 ∨ Updated 7 fun _ => ⟨true, 0⟩) ∧
      (FailsUsable (uartInit (some ⟨24000000, 115200, 8, 1, 0⟩)) reset (fun _ => ⟨true, 0⟩) ↔
        ∀ c ∈ (some ⟨24000000, 115200, 8, 1, 0⟩ : Option UartConfig),
          c.baudrate = 0 ∨ Updated 8 fun _ => ⟨true, 0⟩) :=
  failsUsable_iff (by decide) (by decide) 24000000 115200 _ _

/-- Where the update is never completed, the latch stays open. -/
theorem timeout_leaves_latch_open :
    ¬FailsUsable (uartSetBaudrate 24000000 115200) reset fun _ => ⟨false, 0⟩ := by
  have hnever : ¬Updated 7 fun _ => ⟨false, 0⟩ := by
    rintro ⟨i, -, h⟩
    cases h
  have hbaud : (115200 : Word) ≠ 0 := by decide
  rw [failsUsable_of_run (setBaudrate_timeout hbaud hnever)]
  exact not_or_intro (by simp) (latchOpen_not_usable (u := reset) rfl)

end Uart

end C906Firmware
