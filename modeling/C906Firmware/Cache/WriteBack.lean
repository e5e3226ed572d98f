import Mathlib.Logic.Function.Basic

/-!
# A write-back cache in front of a memory

Locations of a memory are grouped into **lines** by a function `line : Loc → Line`. A line the
cache holds has values of its own, which its processor sees in place of those of the memory
(`view`); they differ where the processor has stored since, or where somebody else has written
to the memory. Dropping a line shows the memory's values (`view_drop`), writing it back gives
the memory the values seen and changes no view (`view_writeBack`, `ram_writeBack`), and bringing
a line in, or storing with write-allocate, touches no other line's memory.

There is no dirty bit: of a line that agrees with the memory it makes no difference whether it
is written back.
-/

namespace WriteBack

/-- A memory, the lines its cache holds, and their values. -/
structure Cached (Loc Line V : Type) where
  ram : Loc → V
  held : Line → Bool
  data : Loc → V

namespace Cached

variable {Loc Line V : Type} (line : Loc → Line)

/-- The value the processor sees. -/
def view (s : Cached Loc Line V) (a : Loc) : V :=
  if s.held (line a) then s.data a else s.ram a

/-- Drop every line without writing it back. -/
def dropAll (s : Cached Loc Line V) : Cached Loc Line V :=
  { s with held := fun _ => false }

section Dropped

variable {line} {s : Cached Loc Line V} {a : Loc}

@[simp]
theorem ram_dropAll : s.dropAll.ram = s.ram := rfl

/-- With no line held, what is seen is what is in memory. -/
@[simp]
theorem view_dropAll : s.dropAll.view line a = s.ram a := rfl

end Dropped

/-! ### One line -/

variable [DecidableEq Line]

/-- Drop a line without writing it back. -/
def drop (l : Line) (s : Cached Loc Line V) : Cached Loc Line V :=
  { s with held := Function.update s.held l false }

/-- Write a line back and keep it. -/
def writeBack (l : Line) (s : Cached Loc Line V) : Cached Loc Line V :=
  { s with ram := fun a => if line a = l ∧ s.held l then s.data a else s.ram a }

/-- Bring a line in, unless it is held. -/
def fill (l : Line) (s : Cached Loc Line V) : Cached Loc Line V :=
  { s with
    held := Function.update s.held l true
    data := fun a => if line a = l then s.view line a else s.data a }

/-- Store a value: bring its line in and change it there. -/
def store [DecidableEq Loc] (a : Loc) (v : V) (s : Cached Loc Line V) : Cached Loc Line V :=
  { s.fill line (line a) with data := Function.update (s.fill line (line a)).data a v }

variable {line} {s : Cached Loc Line V} {l : Line} {a : Loc}

@[simp]
theorem ram_drop : (s.drop l).ram = s.ram := rfl

/-- Of a line that is dropped, what is seen is what is in memory. -/
theorem view_drop : (s.drop l).view line a = if line a = l then s.ram a else s.view line a := by
  by_cases h : line a = l
  · simp [view, drop, h]
  · simp [view, drop, h]

/-- Writing a line back loses no value. -/
@[simp]
theorem view_writeBack : (s.writeBack line l).view line a = s.view line a := by
  by_cases hheld : s.held (line a)
  · rw [view, view, if_pos hheld]
    exact if_pos hheld
  · have hnot : ¬(line a = l ∧ s.held l) := fun h => hheld (h.1 ▸ h.2)
    rw [view, view, if_neg hheld]
    exact (if_neg hheld).trans (if_neg hnot)

/-- The memory has the values of a line that has been written back. -/
theorem ram_writeBack :
    (s.writeBack line l).ram a = if line a = l then s.view line a else s.ram a := by
  by_cases h : line a = l
  · simp [writeBack, view, h]
  · simp [writeBack, h]

/-- Bringing a line in changes no value. -/
@[simp]
theorem view_fill : (s.fill line l).view line a = s.view line a := by
  by_cases h : line a = l
  · simp [view, fill, h]
  · simp [view, fill, h]

/-- A store changes the value at its location only. -/
theorem view_store [DecidableEq Loc] {v : V} {b : Loc} :
    (s.store line b v).view line a = if a = b then v else s.view line a := by
  by_cases hab : a = b
  · subst hab
    simp [view, store, fill]
  · have hfill : (s.store line b v).view line a = (s.fill line (line b)).view line a := by
      rw [view, view]
      exact if_congr Iff.rfl (Function.update_of_ne hab _ _) rfl
    rw [hfill, view_fill, if_neg hab]

/-! ### Several lines -/

variable (s)

theorem ram_foldl_drop (ls : List Line) : (ls.foldl (fun s l => s.drop l) s).ram = s.ram := by
  induction ls generalizing s with
  | nil => rfl
  | cons l ls ih => exact ih (s.drop l)

/-- Where lines have been dropped the memory shows. -/
theorem view_foldl_drop (ls : List Line) (a : Loc) :
    (ls.foldl (fun s l => s.drop l) s).view line a =
      if line a ∈ ls then s.ram a else s.view line a := by
  induction ls generalizing s with
  | nil => rfl
  | cons l ls ih =>
    rw [List.foldl_cons, ih, ram_drop, view_drop]
    by_cases hl : line a = l
    · simp [hl]
    · simp [hl]

/-- Writing lines back changes nothing that is seen. -/
theorem view_foldl_writeBack (ls : List Line) (a : Loc) :
    (ls.foldl (fun s l => s.writeBack line l) s).view line a = s.view line a := by
  induction ls generalizing s with
  | nil => rfl
  | cons l ls ih => rw [List.foldl_cons, ih, view_writeBack]

/-- The memory has the values of the lines that have been written back. -/
theorem ram_foldl_writeBack (ls : List Line) (a : Loc) :
    (ls.foldl (fun s l => s.writeBack line l) s).ram a =
      if line a ∈ ls then s.view line a else s.ram a := by
  induction ls generalizing s with
  | nil => rfl
  | cons l ls ih =>
    rw [List.foldl_cons, ih, view_writeBack, ram_writeBack]
    by_cases hl : line a = l
    · simp [hl]
    · simp [hl]

end Cached

end WriteBack
