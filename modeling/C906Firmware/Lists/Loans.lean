import Mathlib.Data.List.Perm.Lattice
import Mathlib.Data.List.Infix

/-!
# Things lent and given back

One party offers things to another, which takes them in the order of the offers, gives them back in
any order, and the first party collects them in the order in which they come back (`Loans.Step`).
Over a whole run (`Loans.Run`) nothing is lost and nothing is there twice: what was taken is the
front of what was offered (`Loans.Run.offers`), what was collected is the front of what was given
back (`Loans.Run.returns`), and what was given back was taken and is not held (`Loans.Run.takes`).
-/

/-- What is with whom. -/
structure Loans (α β : Type) where
  offered : List α
  held : List α
  returned : List (α × β)

/-- What the parties do. -/
inductive Deal (α β : Type)
  | offer (a : α)
  | take (a : α)
  | giveBack (a : α) (b : β)
  | collect (a : α) (b : β)

namespace Deal

variable {α β : Type}

def offered? : Deal α β → Option α
  | offer a => some a
  | _ => none

def taken? : Deal α β → Option α
  | take a => some a
  | _ => none

def returned? : Deal α β → Option (α × β)
  | giveBack a b => some (a, b)
  | _ => none

def collected? : Deal α β → Option (α × β)
  | collect a b => some (a, b)
  | _ => none

end Deal

namespace Loans

variable {α β : Type} [DecidableEq α] {l l' : Loans α β} {d : Deal α β} {ds : List (Deal α β)}

/-- Nothing has happened. -/
def empty (α β : Type) : Loans α β := ⟨[], [], []⟩

inductive Step : Loans α β → Deal α β → Loans α β → Prop
  | offer (l : Loans α β) (a : α) : Step l (.offer a) { l with offered := l.offered ++ [a] }
  | take (l : Loans α β) {a : α} {rest : List α} (h : l.offered = a :: rest) :
      Step l (.take a) { l with offered := rest, held := a :: l.held }
  | giveBack (l : Loans α β) {a : α} (h : a ∈ l.held) (b : β) : Step l (.giveBack a b)
      { l with held := l.held.erase a, returned := l.returned ++ [(a, b)] }
  | collect (l : Loans α β) {a : α} {b : β} {rest : List (α × β)}
      (h : l.returned = (a, b) :: rest) : Step l (.collect a b) { l with returned := rest }

/-- What the parties have done since nothing had happened. -/
inductive Run : Loans α β → List (Deal α β) → Prop
  | start : Run (empty α β) []
  | step {l l' : Loans α β} {ds : List (Deal α β)} {d : Deal α β} (h : Run l ds)
      (hstep : Step l d l') : Run l' (ds ++ [d])

/-- What was taken and what is still offered are what was offered, in order. -/
theorem Run.offers (h : Run l ds) :
    ds.filterMap Deal.offered? = ds.filterMap Deal.taken? ++ l.offered := by
  induction h with
  | start => rfl
  | step h hstep ih =>
    rw [List.filterMap_append, List.filterMap_append, ih]
    cases hstep with
    | offer a => simp [List.filterMap_cons, Deal.offered?, Deal.taken?]
    | take h => simp [List.filterMap_cons, Deal.offered?, Deal.taken?, h]
    | giveBack h b => simp [List.filterMap_cons, Deal.offered?, Deal.taken?]
    | collect h => simp [List.filterMap_cons, Deal.offered?, Deal.taken?]

/-- What was collected and what is still to be are what was given back, in order. -/
theorem Run.returns (h : Run l ds) :
    ds.filterMap Deal.returned? = ds.filterMap Deal.collected? ++ l.returned := by
  induction h with
  | start => rfl
  | step h hstep ih =>
    rw [List.filterMap_append, List.filterMap_append, ih]
    cases hstep with
    | offer a => simp [List.filterMap_cons, Deal.returned?, Deal.collected?]
    | take h => simp [List.filterMap_cons, Deal.returned?, Deal.collected?]
    | giveBack h b => simp [List.filterMap_cons, Deal.returned?, Deal.collected?]
    | collect h => simp [List.filterMap_cons, Deal.returned?, Deal.collected?, h]

/-- What was taken was given back or is held. -/
theorem Run.takes (h : Run l ds) : (ds.filterMap Deal.taken?).Perm
    (l.held ++ (ds.filterMap Deal.returned?).map Prod.fst) := by
  induction h with
  | start => exact List.Perm.refl _
  | step h hstep ih =>
    rw [List.filterMap_append, List.filterMap_append, List.map_append]
    cases hstep with
    | offer a => simpa [List.filterMap_cons, Deal.returned?, Deal.taken?] using ih
    | take h =>
      simp only [Deal.returned?, Deal.taken?, List.filterMap_cons, List.filterMap_nil, List.map_nil,
        List.append_nil, List.cons_append]
      exact (ih.append_right _).trans List.perm_append_comm
    | giveBack h b =>
      simp only [Deal.returned?, Deal.taken?, List.filterMap_cons, List.filterMap_nil,
        List.map_cons, List.map_nil, List.append_nil]
      refine ih.trans ?_
      rw [← List.append_assoc]
      refine (((List.perm_cons_erase h).append_right _).trans ?_)
      exact @List.perm_append_comm _ [_] _
    | collect h => simpa [List.filterMap_cons, Deal.returned?, Deal.taken?] using ih

/-- What was offered and not collected is with one of the parties. -/
theorem Run.outstanding (h : Run l ds) : (ds.filterMap Deal.offered?).length =
    (ds.filterMap Deal.collected?).length + l.offered.length + l.held.length +
      l.returned.length := by
  have hoffers := congrArg List.length h.offers
  have hreturns := congrArg List.length h.returns
  have htakes := h.takes.length_eq
  rw [List.length_append] at hoffers hreturns htakes
  rw [List.length_map] at htakes
  omega

end Loans
