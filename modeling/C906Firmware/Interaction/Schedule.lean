import Mathlib.Data.List.Basic

/-!
# Schedules

A transition system is a total step function `step : S → A → S`; a **schedule** is a finite
list of actions, and a run is what a schedule does from a start state. Two predicates read a
run: `Throughout P` says that every state of it, the first one included, satisfies `P`, and
`EachStep G` says that every action of it is taken from a state where `G` allows it.

The two are tied by the invariant rule (`throughout_of_eachStep`) and, for conditions that
are necessary as well as sufficient, by its converse (`eachStep_of_throughout`).
-/

namespace Interaction

variable {S A : Type} (step : S → A → S)

/-- The state a schedule ends in. -/
def runFrom (s : S) (as : List A) : S := as.foldl step s

/-- Every state of the run of `as` from `s` satisfies `P`. -/
def Throughout (P : S → Prop) : S → List A → Prop
  | s, [] => P s
  | s, a :: as => P s ∧ Throughout P (step s a) as

/-- Every action of the run of `as` from `s` is taken in a state where `G` allows it. -/
def EachStep (G : S → A → Prop) : S → List A → Prop
  | _, [] => True
  | s, a :: as => G s a ∧ EachStep G (step s a) as

variable {step} {P I : S → Prop} {G : S → A → Prop}

@[simp]
theorem runFrom_nil (s : S) : runFrom step s [] = s := rfl

@[simp]
theorem runFrom_cons (s : S) (a : A) (as : List A) :
    runFrom step s (a :: as) = runFrom step (step s a) as := rfl

@[simp]
theorem throughout_nil (s : S) : Throughout step P s [] ↔ P s := Iff.rfl

@[simp]
theorem throughout_cons (s : S) (a : A) (as : List A) :
    Throughout step P s (a :: as) ↔ P s ∧ Throughout step P (step s a) as := Iff.rfl

@[simp]
theorem eachStep_nil (s : S) : EachStep step G s [] := trivial

@[simp]
theorem eachStep_cons (s : S) (a : A) (as : List A) :
    EachStep step G s (a :: as) ↔ G s a ∧ EachStep step G (step s a) as := Iff.rfl

/-- A property that holds throughout a run holds in its first state. -/
theorem Throughout.head {s : S} {as : List A} (h : Throughout step P s as) : P s := by
  cases as with
  | nil => exact h
  | cons a as => exact h.1

/-- A property that holds throughout a run holds in its last state. -/
theorem Throughout.last {s : S} {as : List A} (h : Throughout step P s as) :
    P (runFrom step s as) := by
  induction as generalizing s with
  | nil => exact h
  | cons a as ih => exact ih h.2

/-- What holds throughout holds in a weaker form. -/
theorem Throughout.mono {Q : S → Prop} {s : S} {as : List A} (h : Throughout step P s as)
    (hPQ : ∀ s, P s → Q s) : Throughout step Q s as := by
  induction as generalizing s with
  | nil => exact hPQ s h
  | cons a as ih => exact ⟨hPQ s h.1, ih h.2⟩

/-- Two properties that hold throughout hold together. -/
theorem Throughout.and {Q : S → Prop} {s : S} {as : List A} (h : Throughout step P s as)
    (h' : Throughout step Q s as) : Throughout step (fun s => P s ∧ Q s) s as := by
  induction as generalizing s with
  | nil => exact ⟨h, h'⟩
  | cons a as ih => exact ⟨⟨h.1, h'.1⟩, ih h.2 h'.2⟩

/-- A weaker condition holds of each step. -/
theorem EachStep.mono {H : S → A → Prop} {s : S} {as : List A} (h : EachStep step G s as)
    (hGH : ∀ s a, G s a → H s a) : EachStep step H s as := by
  induction as generalizing s with
  | nil => trivial
  | cons a as ih => exact ⟨hGH s a h.1, ih h.2⟩

/-- No condition on the actions is no condition on the run. -/
theorem eachStep_true (s : S) (as : List A) : EachStep step (fun _ _ => True) s as := by
  induction as generalizing s with
  | nil => trivial
  | cons a as ih => exact ⟨trivial, ih _⟩

/-- **Invariant rule.** An invariant that holds at the start and is kept by every allowed
action holds throughout every run of allowed actions, and so does what it implies. -/
theorem throughout_of_eachStep (hP : ∀ s, I s → P s)
    (hstep : ∀ s a, I s → G s a → I (step s a)) {s : S} {as : List A} (hs : I s)
    (has : EachStep step G s as) : Throughout step P s as := by
  induction as generalizing s with
  | nil => exact hP s hs
  | cons a as ih => exact ⟨hP s hs, ih (hstep s a hs has.1) has.2⟩

/-- **Necessary conditions.** If a disallowed action always destroys `P`, a run in which `P`
holds throughout has taken no disallowed action. -/
theorem eachStep_of_throughout (hbad : ∀ s a, P s → P (step s a) → G s a) {s : S}
    {as : List A} (has : Throughout step P s as) : EachStep step G s as := by
  induction as generalizing s with
  | nil => trivial
  | cons a as ih => exact ⟨hbad s a has.1 has.2.head, ih has.2⟩

/-- `Throughout` decided by running the schedule. -/
instance decidableThroughout [DecidablePred P] :
    ∀ (s : S) (as : List A), Decidable (Throughout step P s as)
  | s, [] => inferInstanceAs (Decidable (P s))
  | s, a :: as =>
    have := decidableThroughout (step s a) as
    inferInstanceAs (Decidable (P s ∧ Throughout step P (step s a) as))

/-- `EachStep` decided by running the schedule. -/
instance decidableEachStep [∀ s a, Decidable (G s a)] :
    ∀ (s : S) (as : List A), Decidable (EachStep step G s as)
  | _, [] => isTrue trivial
  | s, a :: as =>
    have := decidableEachStep (step s a) as
    inferInstanceAs (Decidable (G s a ∧ EachStep step G (step s a) as))

end Interaction
