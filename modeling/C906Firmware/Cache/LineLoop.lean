import C906Firmware.Interaction.Run
import C906Firmware.Model.Cache

/-!
# The loop over the lines of a range

Ranges that end before the last line of the address space are walked as the list of their lines
(`lineLoop_eq_forEach`), which are the aligned addresses from the line of the start to the end
(`mem_cacheLines`). Where the range ends inside the last line the counter wraps to 0 and stays
below the end, so that the loop never ends (`lineLoop_never_ends`).
-/

namespace C906Firmware.Hal

open Interaction

theorem lineStart_eq (i : Addr) : lineStart i = (i >>> 6) <<< 6 := by
  ext j hj
  have hmask : (BitVec.ofNat 64 (L1_CACHE_BYTES - 1))[j] = decide (j < 6) :=
    Nat.testBit_two_pow_sub_one 6 j
  rw [lineStart, BitVec.getElem_and, BitVec.getElem_not, hmask, BitVec.getElem_shiftLeft]
  by_cases h : j < 6
  · simp [h]
  · have hback : 6 + (j - 6) = j := by omega
    simp [h, hj, hback]

theorem toNat_lineStart (i : Addr) :
    (lineStart i).toNat = i.toNat - i.toNat % L1_CACHE_BYTES := by
  have hi := i.isLt
  rw [lineStart_eq, BitVec.toNat_shiftLeft, BitVec.toNat_ushiftRight, Nat.shiftLeft_eq,
    Nat.shiftRight_eq_div_pow]
  simp only [L1_CACHE_BYTES]
  omega

/-- The lines of a range. -/
theorem mem_cacheLines {start stop j : ℕ} : j ∈ cacheLines start stop ↔
    j % L1_CACHE_BYTES = 0 ∧ start - start % L1_CACHE_BYTES ≤ j ∧ j < stop := by
  simp only [cacheLines, L1_CACHE_BYTES, List.mem_map, List.mem_range]
  constructor
  · rintro ⟨n, hn, rfl⟩
    omega
  · rintro ⟨hmod, hle, hlt⟩
    exact ⟨(j - (start - start % 64)) / 64, by omega, by omega⟩

/-- The lines from an aligned address on. -/
def linesFrom (i stop : ℕ) : List ℕ :=
  (List.range ((stop - i + (L1_CACHE_BYTES - 1)) / L1_CACHE_BYTES)).map
    fun j => i + L1_CACHE_BYTES * j

theorem linesFrom_of_le {i stop : ℕ} (h : stop ≤ i) : linesFrom i stop = [] := by
  have hzero : (stop - i + (L1_CACHE_BYTES - 1)) / L1_CACHE_BYTES = 0 := by
    simp only [L1_CACHE_BYTES]
    omega
  rw [linesFrom, hzero]
  rfl

/-- Before the end there is a line, and those behind it. -/
theorem linesFrom_of_lt {i stop : ℕ} (h : i < stop) :
    linesFrom i stop = i :: linesFrom (i + L1_CACHE_BYTES) stop := by
  have hsucc : (stop - i + (L1_CACHE_BYTES - 1)) / L1_CACHE_BYTES =
      (stop - (i + L1_CACHE_BYTES) + (L1_CACHE_BYTES - 1)) / L1_CACHE_BYTES + 1 := by
    simp only [L1_CACHE_BYTES]
    omega
  rw [linesFrom, hsucc, List.range_succ_eq_map, List.map_cons, List.map_map, Nat.mul_zero,
    Nat.add_zero]
  refine congrArg (i :: ·) (List.map_congr_left fun j _ => ?_)
  simp only [Function.comp, L1_CACHE_BYTES]
  omega

/-- The loop walks the lines, if its counter does not wrap. -/
theorem lineLoop_eq_forEach (op : ℕ → Code Unit) {stop : Addr}
    (hstop : stop.toNat ≤ 2 ^ 64 - L1_CACHE_BYTES) {fuel : ℕ} {i : Addr}
    (hfuel : stop.toNat - i.toNat < fuel) :
    lineLoop op stop fuel i = Prog.forEach op (linesFrom i.toNat stop.toNat) := by
  have hline : (BitVec.ofNat 64 L1_CACHE_BYTES).toNat = L1_CACHE_BYTES := rfl
  induction fuel generalizing i with
  | zero => omega
  | succ fuel ih =>
    by_cases hlt : i < stop
    · have hltNat : i.toNat < stop.toNat := hlt
      have hnext : (i + BitVec.ofNat 64 L1_CACHE_BYTES).toNat = i.toNat + L1_CACHE_BYTES := by
        rw [BitVec.toNat_add, hline, Nat.mod_eq_of_lt]
        simp only [L1_CACHE_BYTES] at hstop ⊢
        omega
      have hrest := ih (i := i + BitVec.ofNat 64 L1_CACHE_BYTES) (by
        rw [hnext]
        simp only [L1_CACHE_BYTES]
        omega)
      rw [hnext] at hrest
      rw [linesFrom_of_lt hltNat, Prog.forEach, ← hrest, lineLoop, Prog.iterate, if_pos hlt]
      rw [bind_assoc]
      rfl
    · have hle : stop.toNat ≤ i.toNat := Nat.le_of_not_lt hlt
      rw [linesFrom_of_le hle, lineLoop, Prog.iterate, if_neg hlt]
      rfl

/-- A range that ends inside the last line of the address space is walked for ever. -/
theorem lineLoop_never_ends {K A : Type} (exec : (o : Op) → A → K → Ret o × K)
    (op : ℕ → Code Unit) {stop : Addr} (hstop : 2 ^ 64 - L1_CACHE_BYTES < stop.toNat) (fuel : ℕ)
    {i : Addr} (hi : i.toNat % L1_CACHE_BYTES = 0) (k : K) (xs : ℕ → A) :
    (lineLoop op stop fuel i).run exec k xs = none := by
  induction fuel generalizing i k xs with
  | zero => rfl
  | succ fuel ih =>
    have hlt : i < stop := by
      have hbound := i.isLt
      rw [BitVec.lt_def]
      simp only [L1_CACHE_BYTES] at hi hstop
      omega
    have hnext : (i + BitVec.ofNat 64 L1_CACHE_BYTES).toNat % L1_CACHE_BYTES = 0 := by
      rw [BitVec.toNat_add]
      simp only [L1_CACHE_BYTES, BitVec.toNat_ofNat] at hi ⊢
      omega
    rw [lineLoop, Prog.iterate, if_pos hlt, bind_assoc, Option.eq_none_iff_forall_ne_some]
    intro r hrun
    obtain ⟨_, k', xs', -, hrun'⟩ := Prog.run_bind hrun
    have hnone := ih hnext k' xs'
    exact absurd (hnone.symm.trans hrun') (Option.some_ne_none r).symm

/-! ### The range operations -/

section Ranges

variable {start stop : Addr} {fuel : ℕ}

/-- A loop that does not come to the last line visits the lines of the range and ends. -/
theorem lineLoop_lineStart (op : ℕ → Code Unit) (hstop : stop.toNat ≤ 2 ^ 64 - L1_CACHE_BYTES)
    (hfuel : stop.toNat < fuel) :
    lineLoop op stop fuel (lineStart start) =
      Prog.forEach op (cacheLines start.toNat stop.toNat) := by
  rw [lineLoop_eq_forEach op hstop (by omega), toNat_lineStart]
  rfl

/-- The range operations are those on natural numbers. -/
theorem dcacheWriteBackRange_eq (hstop : stop.toNat ≤ 2 ^ 64 - L1_CACHE_BYTES)
    (hfuel : stop.toNat < fuel) :
    dcacheWriteBackRange fuel start stop =
      C906Firmware.dcacheWriteBackRange start.toNat stop.toNat :=
  lineLoop_lineStart _ hstop hfuel

/-- Clear of the last line, the loop of the source is the operation on a range of lines. -/
theorem dcacheInvalidateRange_eq (hstop : stop.toNat ≤ 2 ^ 64 - L1_CACHE_BYTES)
    (hfuel : stop.toNat < fuel) :
    dcacheInvalidateRange fuel start stop =
      C906Firmware.dcacheInvalidateRange start.toNat stop.toNat :=
  lineLoop_lineStart _ hstop hfuel

variable {K A : Type} (exec : (o : Op) → A → K → Ret o × K)

/-- A range that ends in the last line is never left. -/
theorem lineLoop_lineStart_never_ends (op : ℕ → Code Unit) (start : Addr)
    (hstop : 2 ^ 64 - L1_CACHE_BYTES < stop.toNat) (fuel : ℕ) (k : K) (xs : ℕ → A) :
    (lineLoop op stop fuel (lineStart start)).run exec k xs = none := by
  refine lineLoop_never_ends exec op hstop fuel ?_ k xs
  rw [toNat_lineStart]
  simp only [L1_CACHE_BYTES]
  omega

end Ranges

end C906Firmware.Hal
