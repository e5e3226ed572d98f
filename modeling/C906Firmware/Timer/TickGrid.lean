import C906Firmware.Interaction.Schedule
import C906Firmware.Model.Timer

/-!
# The grid of the system tick

`riscv_system_tick_init` programs the first compare value `T0` and `ullNextTime` holds the grid
`T0 + k * TICK_DELTA`, which the timer branch of `risc_v_trap_handler` writes to the compare
register. `riscv_timer_interrupt`, called right after it, overwrites the register with the
current time plus `TICK_DELTA`: every latency moves the grid (`onSchedule_iff`).
-/

namespace C906Firmware

open Interaction

namespace Timer

/-- What can happen: time passes, a timer trap is taken if one is pending, the scheduler is
suspended and resumed. -/
inductive Act
  | wait (n : ℕ)
  | trap (latency : ℕ)
  | suspend
  | resume
  deriving DecidableEq, Repr

/-- One action. -/
def step (k : Timer) : Act → Timer
  | .wait n => k.advance n
  | .trap latency => if k.Pending then k.trap latency else k
  | .suspend => k.vTaskSuspendAll
  | .resume => k.xTaskResumeAll

/-- The timer after its initialisation. -/
def boot (k₀ : Timer) : Timer := { k₀.riscvSystemTickInit with traps := 0 }

/-- The `k`-th value of the grid that starts at `first`. -/
def grid (first k : ℕ) : BitVec 64 := BitVec.ofNat 64 (first + k * TICK_DELTA)

/-- After `k` traps the compare register holds the `k`-th value of the grid and `ullNextTime`
the next one, `k` ticks have been counted, and when no trap is pending the ticks have caught
up with the time (as long as the machine timer has not wrapped). -/
structure OnSchedule (first : ℕ) (counted : BitVec 64) (k : Timer) : Prop where
  compare : k.mtimecmp = grid first k.traps
  next : k.ullNextTime = grid first (k.traps + 1)
  counts : k.ticks = counted + BitVec.ofNat 64 k.traps
  caughtUp : k.mtime + TICK_DELTA < 2 ^ 64 → first ≤ k.mtime → ¬k.Pending →
    k.traps = (k.mtime - first) / TICK_DELTA + 1

/-- The handler of a trap that is taken reads the time at the compare value in force. -/
def Punctual (first : ℕ) (k : Timer) : Act → Prop
  | .trap latency => k.Pending → BitVec.ofNat 64 (k.mtime + latency) = grid first k.traps
  | _ => True

/-! ### What a trap leaves -/

@[simp]
theorem writeCompare_mtimecmp (k : Timer) (next : BitVec 64) :
    (k.writeCompare next).mtimecmp = next := by
  simp only [writeCompare, writeCompareLow, writeCompareHigh]
  ext i hi
  simp only [BitVec.getElem_append, BitVec.getElem_extractLsb', BitVec.getElem_setWidth]
  grind

theorem grid_succ (first k : ℕ) :
    grid first (k + 1) = grid first k + BitVec.ofNat 64 TICK_DELTA := by
  rw [grid, grid, ← BitVec.ofNat_add, Nat.succ_mul, Nat.add_assoc]

/-- A trap leaves the time its handler has read, plus `TICK_DELTA`, in the register. -/
theorem trap_mtimecmp (k : Timer) (latency : ℕ) :
    (k.trap latency).mtimecmp =
      BitVec.ofNat 64 (k.mtime + latency) + BitVec.ofNat 64 TICK_DELTA := by
  have hwrite := writeCompare_mtimecmp { k.timerBranch.advance latency with mtie := false }
    (BitVec.ofNat 64 (k.mtime + latency) + BitVec.ofNat 64 TICK_DELTA)
  simp only [trap, xTaskIncrementTick]
  split <;> exact hwrite

theorem trap_ticks (k : Timer) (latency : ℕ) : (k.trap latency).ticks = k.ticks + 1 := by
  simp only [trap, xTaskIncrementTick]
  split
  · exact add_right_comm k.xTickCount 1 k.xPendedTicks
  · exact (add_assoc k.xTickCount k.xPendedTicks 1).symm

/-- The other fields after a trap. -/
theorem trap_rest (k : Timer) (latency : ℕ) :
    (k.trap latency).mtime = k.mtime + latency ∧ (k.trap latency).traps = k.traps + 1 ∧
      (k.trap latency).mtie = true ∧
      (k.trap latency).ullNextTime = k.ullNextTime + BitVec.ofNat 64 TICK_DELTA := by
  simp only [trap, xTaskIncrementTick]
  split <;> exact ⟨rfl, rfl, rfl, rfl⟩

/-! ### Punctual runs -/

/-- What punctual runs keep: the grid, and that every trap counted so far was due. -/
private structure Due (first : ℕ) (counted : BitVec 64) (k : Timer) : Prop where
  compare : k.mtimecmp = grid first k.traps
  next : k.ullNextTime = grid first (k.traps + 1)
  counts : k.ticks = counted + BitVec.ofNat 64 k.traps
  mtie : k.mtie = true
  started : first ≤ k.mtime + TICK_DELTA
  due : k.mtime + TICK_DELTA < 2 ^ 64 → first + k.traps * TICK_DELTA ≤ k.mtime + TICK_DELTA

/-- Before the machine timer wraps, a trap is pending exactly from the grid value on. -/
private theorem Due.pending_iff {first : ℕ} {counted : BitVec 64} {k : Timer}
    (h : Due first counted k) (hwrap : k.mtime + TICK_DELTA < 2 ^ 64) :
    k.Pending ↔ first + k.traps * TICK_DELTA ≤ k.mtime := by
  have hdue := h.due hwrap
  have hgrid : (grid first k.traps).toNat = first + k.traps * TICK_DELTA :=
    Nat.mod_eq_of_lt (by omega)
  have hcycles : k.riscvGetCycles.toNat = k.mtime := Nat.mod_eq_of_lt (by omega)
  simp only [Pending, h.mtie, true_and, h.compare, BitVec.le_def, hgrid, hcycles]

/-- A comparison that is due has counted every point of the grid so far. -/
private theorem Due.onSchedule {first : ℕ} {counted : BitVec 64} {k : Timer}
    (h : Due first counted k) : OnSchedule first counted k := by
  refine ⟨h.compare, h.next, h.counts, fun hwrap hfirst hnot => ?_⟩
  rw [h.pending_iff hwrap, not_le] at hnot
  have hdue := h.due hwrap
  -- the last trap was due, the next one is not
  have hpos : 0 < k.traps := by
    rcases Nat.eq_zero_or_pos k.traps with h0 | h0
    · rw [h0] at hnot
      omega
    · exact h0
  obtain ⟨n, hn⟩ : ∃ n, k.traps = n + 1 := ⟨k.traps - 1, by omega⟩
  rw [hn] at hnot hdue ⊢
  have hlow : n * TICK_DELTA ≤ k.mtime - first := by
    rw [Nat.succ_mul] at hdue
    omega
  have hhigh : k.mtime - first < (n + 1) * TICK_DELTA := by omega
  rw [Nat.div_eq_of_lt_le hlow hhigh]

/-- A punctual step keeps what is due. -/
private theorem Due.step {first : ℕ} {counted : BitVec 64} {k : Timer} (h : Due first counted k)
    {a : Act} (ha : Punctual first k a) : Due first counted (k.step a) := by
  cases a with
  | wait n =>
    have hmtime : (k.step (.wait n)).mtime = k.mtime + n := rfl
    have htraps : (k.step (.wait n)).traps = k.traps := rfl
    refine ⟨h.compare, h.next, h.counts, h.mtie, ?_, fun hwrap => ?_⟩
    · have := h.started
      omega
    · rw [hmtime] at hwrap
      rw [hmtime, htraps]
      have := h.due (by omega)
      omega
  | suspend => exact ⟨h.compare, h.next, h.counts, h.mtie, h.started, h.due⟩
  | resume =>
    simp only [Timer.step, xTaskResumeAll]
    split
    · refine ⟨h.compare, h.next, ?_, h.mtie, h.started, h.due⟩
      have hcounts := h.counts
      simp only [ticks] at hcounts ⊢
      exact (add_zero _).trans hcounts
    · exact ⟨h.compare, h.next, h.counts, h.mtie, h.started, h.due⟩
  | trap latency =>
    by_cases hp : k.Pending
    · simp only [Timer.step, if_pos hp]
      obtain ⟨hmtime, htraps, hmtie, hnext⟩ := trap_rest k latency
      refine ⟨?_, ?_, ?_, hmtie, ?_, fun hwrap => ?_⟩
      · rw [trap_mtimecmp, htraps, grid_succ, ha hp]
      · rw [hnext, htraps, grid_succ, h.next]
      · rw [trap_ticks, htraps, h.counts, BitVec.ofNat_add, BitVec.add_assoc]
        rfl
      · have := h.started
        omega
      · rw [hmtime] at hwrap
        rw [hmtime, htraps, Nat.succ_mul]
        have := (h.pending_iff (by omega)).mp hp
        omega
    · simp only [Timer.step, if_neg hp]
      exact h

/-- After the boot the first comparison is due. -/
private theorem boot_due (k₀ : Timer) : Due (k₀.mtime + TICK_DELTA) k₀.ticks k₀.boot := by
  have hmtime : k₀.boot.mtime = k₀.mtime := rfl
  have htraps : k₀.boot.traps = 0 := rfl
  have hcompare : k₀.boot.mtimecmp =
      BitVec.ofNat 64 k₀.mtime + BitVec.ofNat 64 TICK_DELTA := by
    simp only [boot, riscvSystemTickInit, writeCompare_mtimecmp, riscvGetCycles]
  have hnext : k₀.boot.ullNextTime =
      BitVec.ofNat 64 k₀.mtime + BitVec.ofNat 64 TICK_DELTA + BitVec.ofNat 64 TICK_DELTA := by
    simp only [boot, riscvSystemTickInit, writeCompare, writeCompareLow, writeCompareHigh,
      riscvGetCycles]
  have hgrid : grid (k₀.mtime + TICK_DELTA) 0 =
      BitVec.ofNat 64 k₀.mtime + BitVec.ofNat 64 TICK_DELTA := by
    rw [grid, Nat.zero_mul, Nat.add_zero, BitVec.ofNat_add]
  refine ⟨?_, ?_, ?_, rfl, ?_, fun _ => ?_⟩
  · rw [hcompare, htraps, hgrid]
  · rw [hnext, htraps, grid_succ, hgrid]
  · exact (BitVec.add_zero _).symm
  · rw [hmtime]
  · rw [hmtime, htraps]
    omega

/-- **The tick stays on its grid exactly if every handler reads the time at the compare value
in force**, for every sequence of service times and latencies. -/
theorem onSchedule_iff (k₀ : Timer) (as : List Act) :
    Throughout step (OnSchedule (k₀.mtime + TICK_DELTA) k₀.ticks) k₀.boot as ↔
      EachStep step (Punctual (k₀.mtime + TICK_DELTA)) k₀.boot as := by
  refine ⟨fun h => eachStep_of_throughout (fun k a hk hk' => ?_) h, fun h =>
    throughout_of_eachStep (fun _ => Due.onSchedule) (fun _ _ hk ha => hk.step ha)
      (boot_due k₀) h⟩
  cases a with
  | trap latency =>
    intro hp
    have hcompare := hk'.compare
    simp only [step, if_pos hp] at hcompare
    rw [trap_mtimecmp, (trap_rest k latency).2.1, grid_succ] at hcompare
    exact add_right_cancel hcompare
  | wait n => trivial
  | suspend => trivial
  | resume => trivial

/-- One tick late: the trap is served as it becomes due, and its handler reads the time one
cycle later. -/
theorem tick_drifts :
    ¬∀ (k₀ : Timer) (as : List Act),
      Throughout step (OnSchedule (k₀.mtime + TICK_DELTA) k₀.ticks) k₀.boot as := by
  intro h
  have hrun := h ⟨0, 0, false, 0, 0, 0, 0, 0⟩ [.wait TICK_DELTA, .trap 1]
  exact absurd hrun.last.compare (by decide)

end Timer

end C906Firmware
