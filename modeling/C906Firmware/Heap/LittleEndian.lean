import Mathlib.Algebra.Order.Ring.Nat
import Mathlib.Logic.Function.Basic
import Mathlib.Tactic.Ring

/-!
# Numbers in memory

Memory holds bytes, and `n` bytes in a row hold a number below `256 ^ n`, the lowest byte first:
`load` reads it and `put` writes it.
-/

namespace LittleEndian

variable {m m' : ℕ → BitVec 8} {a x n k v : ℕ}

/-- The number in the `n` bytes from `a` on. -/
def load (m : ℕ → BitVec 8) (a : ℕ) : ℕ → ℕ
  | 0 => 0
  | n + 1 => (m a).toNat + 256 * load m (a + 1) n

/-- Write `v` into the `n` bytes from `a` on. -/
def put (m : ℕ → BitVec 8) (a n v : ℕ) : ℕ → BitVec 8 := fun x =>
  if a ≤ x ∧ x < a + n then BitVec.ofNat 8 (v / 256 ^ (x - a)) else m x

theorem load_lt (m : ℕ → BitVec 8) (a n : ℕ) : load m a n < 256 ^ n := by
  induction n generalizing a with
  | zero => exact Nat.zero_lt_one
  | succ n ih =>
    have hbyte := (m a).isLt
    have hrest := ih (a + 1)
    rw [load, pow_succ']
    omega

/-- A number depends on its own bytes only. -/
theorem load_congr (h : ∀ i < n, m' (a + i) = m (a + i)) : load m' a n = load m a n := by
  induction n generalizing a with
  | zero => rfl
  | succ n ih =>
    have hfirst : m' a = m a := h 0 (Nat.succ_pos n)
    have hrest : load m' (a + 1) n = load m (a + 1) n := ih fun i hi => by
      have hnext := h (i + 1) (Nat.succ_lt_succ hi)
      rwa [Nat.add_right_comm, Nat.add_assoc]
    rw [load, load, hfirst, hrest]

/-- Bytes outside the range are as they were. -/
theorem put_of_not (h : ¬(a ≤ x ∧ x < a + n)) : put m a n v x = m x := if_neg h

/-- The bytes of the range are the digits of the number. -/
theorem put_of_mem (h : a ≤ x ∧ x < a + n) :
    put m a n v x = BitVec.ofNat 8 (v / 256 ^ (x - a)) := if_pos h

/-- All bytes after a store. -/
theorem put_eq (m : ℕ → BitVec 8) (a n v : ℕ) : put m a n v =
    fun x => if a ≤ x ∧ x < a + n then BitVec.ofNat 8 (v / 256 ^ (x - a)) else m x := rfl

/-- What is written is read. -/
theorem load_put (m : ℕ → BitVec 8) (a n v : ℕ) : load (put m a n v) a n = v % 256 ^ n := by
  induction n generalizing a v m with
  | zero => rw [load, pow_zero, Nat.mod_one]
  | succ n ih =>
    have hfirst : put m a (n + 1) v a = BitVec.ofNat 8 v := by
      rw [put, if_pos ⟨le_rfl, by omega⟩, Nat.sub_self, pow_zero, Nat.div_one]
    have hrest : load (put m a (n + 1) v) (a + 1) n = load (put m (a + 1) n (v / 256)) (a + 1) n :=
      load_congr fun i hi => by
        rw [put, put, if_pos ⟨by omega, by omega⟩, if_pos ⟨by omega, by omega⟩,
          Nat.div_div_eq_div_mul, ← pow_succ']
        congr 3
        omega
    have hsplit : v % 256 ^ (n + 1) = v % 256 + 256 * (v / 256 % 256 ^ n) := by
      rw [pow_succ', Nat.mod_mul]
    rw [load, hfirst, hrest, ih, BitVec.toNat_ofNat, hsplit]

/-- The bytes of a number are read as the number. -/
theorem load_of_bytes (h : ∀ i < n, m (a + i) = BitVec.ofNat 8 (v / 256 ^ i)) (hv : v < 256 ^ n) :
    load m a n = v := by
  rw [← Nat.mod_eq_of_lt hv, ← load_put m a n v]
  refine load_congr fun i hi => ?_
  rw [h i hi, put_of_mem ⟨Nat.le_add_right a i, by omega⟩, Nat.add_sub_cancel_left]

theorem load_put_of_lt (hv : v < 256 ^ n) : load (put m a n v) a n = v := by
  rw [load_put, Nat.mod_eq_of_lt hv]

/-- What is written elsewhere makes no difference. -/
theorem load_put_of_apart (h : x + k ≤ a ∨ a + n ≤ x) : load (put m a n v) x k = load m x k :=
  load_congr fun i hi => put_of_not (by omega)

-- From here on the lemmas say what there is to know.
attribute [irreducible] load put

end LittleEndian
