import Mathlib.Data.List.Nodup
import Mathlib.Logic.Function.Basic

/-!
# Chains of links

Following links from one node leads over some nodes to another one (`Leads`). What is not on the
way makes no difference (`Leads.congr`), ways can be joined and split (`leads_append`), and the end
of a way can be turned elsewhere (`Leads.turn`).
-/

/-- The links lead from `x` over the nodes `ns` to `y`. -/
def Leads {N : Type} (next : N → N) : N → List N → N → Prop
  | x, [], y => x = y
  | x, n :: ns, y => x = n ∧ Leads next (next n) ns y

section

variable {N : Type} {next next' : N → N} {x y z n : N} {ns ms : List N}

theorem Leads.congr (h : Leads next x ns y) (hsame : ∀ n ∈ ns, next' n = next n) :
    Leads next' x ns y := by
  induction ns generalizing x with
  | nil => exact h
  | cons n ns ih =>
    refine ⟨h.1, ?_⟩
    rw [hsame n List.mem_cons_self]
    exact ih h.2 fun m hm => hsame m (List.mem_cons_of_mem n hm)

theorem leads_append :
    Leads next x (ns ++ ms) y ↔ ∃ z, Leads next x ns z ∧ Leads next z ms y := by
  induction ns generalizing x with
  | nil =>
    constructor
    · exact fun h => ⟨x, rfl, h⟩
    · rintro ⟨z, rfl, h⟩
      exact h
  | cons n ns ih =>
    rw [List.cons_append, Leads, ih]
    constructor
    · rintro ⟨hx, z, hfirst, hrest⟩
      exact ⟨z, ⟨hx, hfirst⟩, hrest⟩
    · rintro ⟨z, ⟨hx, hfirst⟩, hrest⟩
      exact ⟨hx, z, hfirst, hrest⟩

theorem leads_concat : Leads next x (ns ++ [n]) y ↔ Leads next x ns n ∧ next n = y := by
  rw [leads_append]
  constructor
  · rintro ⟨z, hfirst, rfl, hlast⟩
    exact ⟨hfirst, hlast⟩
  · rintro ⟨hfirst, hlast⟩
    exact ⟨n, hfirst, rfl, hlast⟩

/-- Where a way begins. -/
theorem Leads.headD (h : Leads next x ns y) : ns.headD y = x := by
  cases ns with
  | nil => exact h.symm
  | cons n ns => exact h.1.symm

/-- The end of a way is turned elsewhere. -/
theorem Leads.turn [DecidableEq N] (h : Leads next x (ns ++ [n]) y) (hn : n ∉ ns) (z : N) :
    Leads (Function.update next n z) x (ns ++ [n]) z := by
  rw [leads_concat] at h ⊢
  refine ⟨h.1.congr fun m hm => Function.update_of_ne ?_ _ _, Function.update_self _ _ _⟩
  rintro rfl
  exact hn hm

end
