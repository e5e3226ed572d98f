import Mathlib.Data.Nat.ModEq
import Mathlib.Logic.Function.Basic

/-!
# Rings with running indices

A ring of `n` slots between two parties, with an index for each that counts modulo `2 ^ 16` and
never goes back. It holds a list (`Lane`): the indices agree exactly where the list is empty
(`Lane.nil_iff`), one party fills the slot at the back and then advances its index
(`Lane.fill`, `Lane.push`), the other takes from the front (`Lane.pop`).
-/

/-- The ring holds the items, from the slot of the index `front` to that of the index `back`. -/
def Lane {β : Type} (n : ℕ) (slots : ℕ → β) (front back : ℕ) (items : List β) : Prop :=
  ∃ k, front = k % 2 ^ 16 ∧ back = (k + items.length) % 2 ^ 16 ∧
    ∀ i b, items[i]? = some b → slots ((k + i) % n) = b

section

variable {β : Type} {n front back : ℕ} {slots : ℕ → β} {items : List β} {b : β}

/-- The slot of an index. -/
theorem mod_mod_of_dvd {n : ℕ} (hn : n ∣ 2 ^ 16) (k : ℕ) : k % 2 ^ 16 % n = k % n :=
  Nat.mod_mod_of_dvd k hn

namespace Lane

theorem empty (n : ℕ) (slots : ℕ → β) : Lane n slots 0 0 [] :=
  ⟨0, rfl, rfl, fun i b h => by simp at h⟩

/-- The indices tell whether there is something in the ring. -/
theorem nil_iff (h : Lane n slots front back items) (hlen : items.length < 2 ^ 16) :
    front = back ↔ items = [] := by
  obtain ⟨k, rfl, rfl, -⟩ := h
  rw [← List.length_eq_zero_iff]
  omega

/-- The indices tell how much there is in the ring. -/
theorem distance (h : Lane n slots front back items) (hlen : items.length < 2 ^ 16) :
    (back + 2 ^ 16 - front) % 2 ^ 16 = items.length := by
  obtain ⟨k, rfl, rfl, -⟩ := h
  omega

/-- The slot at the back is none of those that are held. -/
theorem fill (h : Lane n slots front back items) (hn : n ∣ 2 ^ 16) (hroom : items.length < n)
    (b : β) : Lane n (Function.update slots (back % n) b) front back items := by
  obtain ⟨k, hfront, hback, hslots⟩ := h
  refine ⟨k, hfront, hback, fun i b' hb' => ?_⟩
  rw [Function.update_of_ne, hslots i b' hb']
  rw [hback, mod_mod_of_dvd hn]
  intro heq
  have hi : i < items.length := (List.getElem?_eq_some_iff.mp hb').1
  have hmod : i ≡ items.length [MOD n] := Nat.ModEq.add_left_cancel' k heq
  have hlt := hmod.eq_of_lt_of_lt (hi.trans hroom) hroom
  omega

/-- What the slot at the back holds is added. -/
theorem push (h : Lane n slots front back items) (hn : n ∣ 2 ^ 16) (hb : slots (back % n) = b) :
    Lane n slots front ((back + 1) % 2 ^ 16) (items ++ [b]) := by
  obtain ⟨k, hfront, rfl, hslots⟩ := h
  rw [mod_mod_of_dvd hn] at hb
  refine ⟨k, hfront, ?_, fun i b' hb' => ?_⟩
  · rw [List.length_append, List.length_singleton, Nat.mod_add_mod, Nat.add_assoc]
  · by_cases hi : i < items.length
    · exact hslots i b' (by rwa [List.getElem?_append_left hi] at hb')
    · have hlt := (List.getElem?_eq_some_iff.mp hb').1
      rw [List.length_append, List.length_singleton] at hlt
      obtain rfl : i = items.length := by omega
      rw [List.getElem?_concat_length, Option.some_inj] at hb'
      rw [hb, hb']

/-- The item at the front is taken. -/
theorem pop (h : Lane n slots front back (b :: items)) (hn : n ∣ 2 ^ 16) :
    slots (front % n) = b ∧ Lane n slots ((front + 1) % 2 ^ 16) back items := by
  obtain ⟨k, rfl, rfl, hslots⟩ := h
  refine ⟨?_, k + 1, Nat.mod_add_mod k _ 1, ?_, fun i b' hb' => ?_⟩
  · rw [mod_mod_of_dvd hn]
    exact hslots 0 b rfl
  · rw [List.length_cons, Nat.add_right_comm, Nat.add_assoc]
  · rw [Nat.add_assoc, Nat.add_comm 1]
    exact hslots (i + 1) b' hb'

end Lane

end
