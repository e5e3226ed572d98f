import C906Firmware.Uart.Baudrate
import Mathlib.Algebra.Order.Round
import Mathlib.Data.Rat.Floor
import Mathlib.Tactic.FieldSimp
import Mathlib.Tactic.Positivity

/-!
# The divisor

`uart_set_baudrate` computes `(uart_clk + 8 * baudrate) / (16 * baudrate)` in 32 bits and latches
the lower 16 bits of the quotient, with no check of the range. `divisorRight_iff` says for which
clocks and rates that is the clock over 16 times the rate, rounded to the nearest integer.
-/

namespace C906Firmware

open Interaction

namespace Uart

/-- The divisor for a clock and a rate: the quotient, rounded to the nearest integer (halves
up). -/
def exactDivisor (uartClk baudrate : Word) : ℤ :=
  round ((uartClk.toNat : ℚ) / (16 * baudrate.toNat))

/-- The access is not a division by zero. -/
def Divides : UartOp → Prop
  | .divuw _ d => d ≠ 0
  | _ => True

/-- `uart_set_baudrate` never divides by zero, latches the exact divisor whenever it returns
`UART_OK`, and refuses divisors of 0 or more than 16 bits. -/
structure DivisorRight (uartClk baudrate : Word) : Prop where
  divides : (uartSetBaudrate uartClk baudrate).Only Divides
  right : ∀ u xs u', (uartSetBaudrate uartClk baudrate).run exec u xs = some (.ok, u') →
    1 ≤ u'.divisor ∧ (u'.divisor : ℤ) = exactDivisor uartClk baudrate
  refused : ∀ u xs r u', (uartSetBaudrate uartClk baudrate).run exec u xs = some (r, u') →
    exactDivisor uartClk baudrate = 0 ∨ 2 ^ 16 ≤ exactDivisor uartClk baudrate → r ≠ .ok

/-- The exact divisor is 1 to 65535, and either nothing wraps at 32 bits, or both the dividend
and the divisor of the division wrap and the quotient is 1 all the same. -/
def InRange (clk baud : ℕ) : Prop :=
  8 * baud ≤ clk ∧ clk + 8 * baud < 2 ^ 20 * baud ∧
    (baud < 2 ^ 28 ∧ clk + 8 * baud < 2 ^ 32 ∨
      2 ^ 28 < baud ∧ (clk + 8 * baud - 2 ^ 32) / (16 * baud - 2 ^ 32) % 2 ^ 16 = 1)

instance (clk baud : ℕ) : Decidable (InRange clk baud) :=
  inferInstanceAs (Decidable (_ ∧ _))

variable {uartClk baudrate : Word} {u : Uart} {xs : ℕ → Response}

/-! ### The arithmetic -/

/-- Rounding to the nearest is adding half the divisor and rounding down. -/
theorem exactDivisor_eq (hbaud : baudrate ≠ 0) : exactDivisor uartClk baudrate =
    ((uartClk.toNat + 8 * baudrate.toNat) / (16 * baudrate.toNat) : ℕ) := by
  have hpos : 0 < baudrate.toNat := Nat.pos_of_ne_zero fun h => hbaud (BitVec.eq_of_toNat_eq h)
  have hq : (0 : ℚ) < baudrate.toNat := by exact_mod_cast hpos
  have hhalf : (uartClk.toNat : ℚ) / (16 * baudrate.toNat) + 1 / 2 =
      ((uartClk.toNat + 8 * baudrate.toNat : ℕ) : ℚ) / ((16 * baudrate.toNat : ℕ) : ℚ) := by
    push_cast
    field_simp
    ring
  rw [exactDivisor, round_eq, hhalf]
  exact Rat.floor_natCast_div_natCast _ _

theorem divisor_latch (u : Uart) (quot : Word) :
    (u.latch quot).divisor = quot.toNat % 2 ^ 16 := by
  have hmask : (quot &&& 0xff).toNat = quot.toNat % 2 ^ 8 := by
    rw [BitVec.toNat_and]
    exact Nat.and_two_pow_sub_one_eq_mod quot.toNat 8
  have hdlh : ((quot >>> 8).setWidth 8).toNat = quot.toNat / 2 ^ 8 % 2 ^ 8 := by
    rw [BitVec.toNat_setWidth, BitVec.toNat_ushiftRight, Nat.shiftRight_eq_div_pow]
  simp only [divisor, latch, hdlh, BitVec.toNat_setWidth, hmask]
  omega

theorem toNat_quotient (h : 16 * baudrate ≠ 0) : (quotient uartClk baudrate).toNat =
    (uartClk.toNat + 8 * baudrate.toNat) % 2 ^ 32 / (16 * baudrate.toNat % 2 ^ 32) := by
  have hsum : (uartClk + 8 * baudrate).toNat = (uartClk.toNat + 8 * baudrate.toNat) % 2 ^ 32 := by
    simp
  have hmul : (16 * baudrate).toNat = 16 * baudrate.toNat % 2 ^ 32 := by simp
  rw [quotient, BitVec.smtUDiv_eq, if_neg (by exact h), BitVec.toNat_udiv, hsum, hmul]

/-- When the quotient in 32 bits, cut to 16, is the exact one. -/
theorem inRange_iff {clk baud : ℕ} (hclk : clk < 2 ^ 32) (hbaud : 0 < baud) :
    InRange clk baud ↔ 16 * baud % 2 ^ 32 ≠ 0 ∧
      1 ≤ (clk + 8 * baud) / (16 * baud) ∧ (clk + 8 * baud) / (16 * baud) < 2 ^ 16 ∧
      (clk + 8 * baud) % 2 ^ 32 / (16 * baud % 2 ^ 32) % 2 ^ 16 =
        (clk + 8 * baud) / (16 * baud) := by
  have hden : 0 < 16 * baud := by omega
  have hone : 1 ≤ (clk + 8 * baud) / (16 * baud) ↔ 8 * baud ≤ clk := by
    rw [Nat.le_div_iff_mul_le hden]
    omega
  have hfits : (clk + 8 * baud) / (16 * baud) < 2 ^ 16 ↔ clk + 8 * baud < 2 ^ 20 * baud := by
    rw [Nat.div_lt_iff_lt_mul hden]
    omega
  rw [hone, hfits, InRange]
  constructor
  · rintro ⟨hle, hlt, hwrap⟩
    refine ⟨?_, hle, hlt, ?_⟩
    · omega
    · rcases hwrap with ⟨hbaud', hsum⟩ | ⟨hbaud', hq⟩
      · rw [Nat.mod_eq_of_lt hsum, Nat.mod_eq_of_lt (a := 16 * baud) (by omega)]
        exact Nat.mod_eq_of_lt (hfits.2 hlt)
      · have hexact : (clk + 8 * baud) / (16 * baud) = 1 :=
          Nat.div_eq_of_lt_le (by omega) (by omega)
        have hsum : (clk + 8 * baud) % 2 ^ 32 = clk + 8 * baud - 2 ^ 32 := by omega
        have hmul : 16 * baud % 2 ^ 32 = 16 * baud - 2 ^ 32 := by omega
        rw [hsum, hmul, hexact, hq]
  · rintro ⟨hne, hle, hlt, hq⟩
    refine ⟨hle, hlt, ?_⟩
    rcases lt_trichotomy baud (2 ^ 28) with hbaud' | rfl | hbaud'
    · left
      refine ⟨hbaud', ?_⟩
      by_contra hsum
      -- the dividend has wrapped and is less than the divisor
      have hzero : (clk + 8 * baud) % 2 ^ 32 / (16 * baud % 2 ^ 32) = 0 := by
        rw [Nat.mod_eq_of_lt (a := 16 * baud) (by omega)]
        exact Nat.div_eq_of_lt (by omega)
      rw [hzero, Nat.zero_mod] at hq
      have hpos := hone.2 hle
      omega
    · exact absurd rfl hne
    · right
      have hexact : (clk + 8 * baud) / (16 * baud) = 1 :=
        Nat.div_eq_of_lt_le (by omega) (by omega)
      have hsum : (clk + 8 * baud) % 2 ^ 32 = clk + 8 * baud - 2 ^ 32 := by omega
      have hmul : 16 * baud % 2 ^ 32 = 16 * baud - 2 ^ 32 := by omega
      rw [hsum, hmul, hexact] at hq
      exact ⟨hbaud', hq⟩

/-! ### The latched divisor -/

theorem only_poll (offset : ℕ) (done : Byte → Bool) (timeout : ℕ) :
    (uartPoll offset done timeout).Only Divides := by
  induction timeout with
  | zero => exact ⟨trivial, fun _ => trivial⟩
  | succ timeout ih =>
    refine ⟨trivial, fun v => ?_⟩
    exact Prog.Only.ite trivial ⟨trivial, fun _ => ih⟩

/-- The one division is by `16 * baudrate`. -/
theorem divides_iff (hbaud : baudrate ≠ 0) :
    (uartSetBaudrate uartClk baudrate).Only Divides ↔ 16 * baudrate ≠ 0 := by
  rw [uartSetBaudrate, if_neg hbaud]
  constructor
  · rintro ⟨-, h⟩
    exact (h 0).1
  · intro h
    refine ⟨trivial, fun lcr => ⟨h, fun quot => ⟨trivial, fun _ => ⟨trivial, fun _ =>
      ⟨trivial, fun _ => ⟨trivial, fun _ => ⟨trivial, fun _ => ?_⟩⟩⟩⟩⟩⟩⟩
    refine (only_poll _ _ _).bind fun done => ?_
    exact Prog.Only.ite ⟨trivial, fun _ => ⟨trivial, fun _ => trivial⟩⟩ trivial

/-- A call that returns `UART_OK` leaves the lower 16 bits of the quotient in the latch. -/
theorem divisor_of_ok (hbaud : baudrate ≠ 0) {u' : Uart}
    (hrun : (uartSetBaudrate uartClk baudrate).run exec u xs = some (.ok, u')) :
    u'.divisor = (quotient uartClk baudrate).toNat % 2 ^ 16 := by
  by_cases h : Updated 7 xs
  · obtain ⟨-, rfl⟩ := Prod.mk.inj (Option.some.inj (hrun.symm.trans (setBaudrate_updated hbaud h)))
    exact divisor_latch u _
  · obtain ⟨hok, -⟩ := Prod.mk.inj (Option.some.inj (hrun.symm.trans (setBaudrate_timeout hbaud h)))
    cases hok

/-- The divisor is right or refused if and only if the clock and the rate are in range. -/
theorem divisorRight_iff (hbaud : baudrate ≠ 0) :
    DivisorRight uartClk baudrate ↔ InRange uartClk.toNat baudrate.toNat := by
  have hpos : 0 < baudrate.toNat := Nat.pos_of_ne_zero fun h => hbaud (BitVec.eq_of_toNat_eq h)
  have hmul : 16 * baudrate ≠ 0 ↔ 16 * baudrate.toNat % 2 ^ 32 ≠ 0 := by
    rw [Ne, ← BitVec.toNat_inj]
    simp
  rw [inRange_iff uartClk.isLt hpos, ← hmul]
  constructor
  · intro h
    have hne := (divides_iff hbaud).1 h.divides
    -- the hardware may complete the update at once
    have hrun : (uartSetBaudrate uartClk baudrate).run exec reset (fun _ => ⟨true, 0⟩) = _ :=
      setBaudrate_updated hbaud ⟨0, Nat.zero_le _, rfl⟩
    obtain ⟨hone, hexact⟩ := h.right _ _ _ hrun
    have hfits := mt (h.refused _ _ _ _ hrun) (by simp)
    rw [divisor_of_ok hbaud hrun, toNat_quotient hne] at hone hexact
    rw [exactDivisor_eq hbaud] at hexact hfits
    have hexact' := Int.natCast_inj.1 hexact
    refine ⟨hne, hexact' ▸ hone, ?_, hexact'⟩
    by_contra hlarge
    exact hfits (.inr (by exact_mod_cast Nat.le_of_not_lt hlarge))
  · rintro ⟨hne, hone, hfits, hq⟩
    refine ⟨(divides_iff hbaud).2 hne, fun u xs u' hrun => ?_, fun u xs r u' hrun hrefuse => ?_⟩
    · rw [divisor_of_ok hbaud hrun, toNat_quotient hne, hq, exactDivisor_eq hbaud]
      exact ⟨hone, rfl⟩
    · rw [exactDivisor_eq hbaud] at hrefuse
      rcases hrefuse with hzero | hlarge
      · have hzero' : (uartClk.toNat + 8 * baudrate.toNat) / (16 * baudrate.toNat) = 0 := by
          exact_mod_cast hzero
        omega
      · have hlarge' : 2 ^ 16 ≤ (uartClk.toNat + 8 * baudrate.toNat) / (16 * baudrate.toNat) := by
          exact_mod_cast hlarge
        omega

/-- The clock and the rate of the console. -/
theorem divisorRight_iff_console :
    DivisorRight 24000000 115200 ↔ InRange (24000000 : Word).toNat (115200 : Word).toNat :=
  divisorRight_iff (by decide)

/-- At 24 MHz, a rate of 4 MBd gets the divisor 0. -/
theorem zero_divisor_latched : ¬DivisorRight 24000000 4000000 := by
  intro h
  have hbaud : (4000000 : Word) ≠ 0 := by decide
  have hrun : (uartSetBaudrate 24000000 4000000).run exec reset (fun _ => ⟨true, 0⟩) = _ :=
    setBaudrate_updated hbaud ⟨0, Nat.zero_le _, rfl⟩
  have hone := (h.right _ _ _ hrun).1
  rw [divisor_of_ok hbaud hrun] at hone
  exact absurd hone (by decide)

end Uart

end C906Firmware
