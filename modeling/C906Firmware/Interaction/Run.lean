import C906Firmware.Interaction.Outline

/-!
# Programs run by themselves

`Prog.run` runs a program to its result with nobody interfering; what the environment decides
at each access comes from a stream. A program that stops has no result.

Without interference every predicate of the state is an assertion: the family `Alone` is kept
by nothing but the state itself, and the rules of `Outline` for it are those of sequential
programs. `Yields.run` reads such an outline as a fact about runs.

`Ends` is for exhibiting runs: under an environment that always decides the same, the program
comes to an end. Its rules cut a long run into pieces that can be evaluated. `Along` also says
what holds of every state on the way. `Total` is the total-correctness reading: whatever the
environment decides, the program comes to an end, and there its postcondition holds.

A **ghost** is a second state beside the first that records what accesses have been made and
decides nothing (`withGhost`). What a program does to the first state it does with any ghost,
and accesses the ghost does not record leave it alone (`Total.withGhost`).
-/

namespace Interaction

variable {Op : Type} {Ret : Op → Type} {α β σ K A : Type}

/-- Run a program from a state, with the decisions of the environment. -/
def Prog.run (exec : (o : Op) → A → K → Ret o × K) : Prog Ret α → K → (ℕ → A) → Option (α × K)
  | .ret a, k, _ => some (a, k)
  | .stop, _, _ => none
  | .act o f, k, xs =>
    (f (exec o (xs 0) k).1).run exec (exec o (xs 0) k).2 fun i => xs (i + 1)

/-- A run of a sequence is a run of its first part and one of its second. -/
theorem Prog.run_bind {exec : (o : Op) → A → K → Ret o × K} {p : Prog Ret α}
    {f : α → Prog Ret β} {k : K} {xs : ℕ → A} {r : β × K}
    (hrun : (p >>= f).run exec k xs = some r) :
    ∃ a k' xs', p.run exec k xs = some (a, k') ∧ (f a).run exec k' xs' = some r := by
  induction p generalizing k xs with
  | ret a => exact ⟨a, k, xs, rfl, hrun⟩
  | stop => cases hrun
  | act o g ih => exact ih _ hrun

/-- The decisions that are left after a run. -/
def Prog.left (exec : (o : Op) → A → K → Ret o × K) : Prog Ret α → K → (ℕ → A) → ℕ → A
  | .ret _, _, xs => xs
  | .stop, _, xs => xs
  | .act o f, k, xs =>
    (f (exec o (xs 0) k).1).left exec (exec o (xs 0) k).2 fun i => xs (i + 1)

/-- The second part of a sequence runs with the decisions that are left. -/
theorem Prog.run_bind_of_run {exec : (o : Op) → A → K → Ret o × K} {p : Prog Ret α}
    {f : α → Prog Ret β} {k k' : K} {xs : ℕ → A} {a : α}
    (hrun : p.run exec k xs = some (a, k')) :
    (p >>= f).run exec k xs = (f a).run exec k' (p.left exec k xs) := by
  induction p generalizing k xs with
  | ret b =>
    obtain ⟨rfl, rfl⟩ := Prod.mk.inj (Option.some.inj hrun)
    rfl
  | stop => cases hrun
  | act o g ih => exact ih _ hrun

/-- What is left after a sequence is what its second part leaves. -/
theorem Prog.left_bind_of_run {exec : (o : Op) → A → K → Ret o × K} {p : Prog Ret α}
    {f : α → Prog Ret β} {k k' : K} {xs : ℕ → A} {a : α}
    (hrun : p.run exec k xs = some (a, k')) :
    (p >>= f).left exec k xs = (f a).left exec k' (p.left exec k xs) := by
  induction p generalizing k xs with
  | ret b =>
    obtain ⟨rfl, rfl⟩ := Prod.mk.inj (Option.some.inj hrun)
    rfl
  | stop => cases hrun
  | act o g ih => exact ih _ hrun

/-- `q` does what `p` does, and may go on where `p` stops. -/
def Prog.Below : Prog Ret α → Prog Ret α → Prop
  | .stop, _ => True
  | .ret a, q => q = .ret a
  | .act o f, q => ∃ g, q = .act o g ∧ ∀ r, (f r).Below (g r)

namespace Prog.Below

theorem refl (p : Prog Ret α) : p.Below p := by
  induction p with
  | ret a => rfl
  | stop => trivial
  | act o f ih => exact ⟨f, rfl, ih⟩

/-- A sequence is below one whose parts are above. -/
theorem bind {p q : Prog Ret α} {f g : α → Prog Ret β} (h : p.Below q)
    (hf : ∀ a, (f a).Below (g a)) : (p >>= f).Below (q >>= g) := by
  induction p generalizing q with
  | ret a =>
    obtain rfl := h
    exact hf a
  | stop => trivial
  | act o k ih =>
    obtain ⟨k', rfl, hk⟩ := h
    exact ⟨_, rfl, fun r => ih r (hk r)⟩

/-- Choices are compared branch by branch. -/
theorem ite {c : Prop} [Decidable c] {p q p' q' : Prog Ret α} (hp : p.Below p')
    (hq : q.Below q') : (if c then p else q).Below (if c then p' else q') := by
  split
  · exact hp
  · exact hq

/-- A loop with more rounds goes on where one with fewer stops. -/
theorem iterate {body : σ → Prog Ret (σ ⊕ β)} {fuel fuel' : ℕ} (h : fuel ≤ fuel') (s : σ) :
    (Prog.iterate body fuel s).Below (Prog.iterate body fuel' s) := by
  induction fuel generalizing fuel' s with
  | zero => trivial
  | succ fuel ih =>
    obtain ⟨fuel', rfl⟩ : ∃ n, fuel' = n + 1 := ⟨fuel' - 1, by omega⟩
    refine (refl (body s)).bind ?_
    rintro (s' | b)
    · exact ih (by omega) s'
    · rfl

/-- A program that goes on for longer has the runs of the one below it. -/
theorem run {exec : (o : Op) → A → K → Ret o × K} {p q : Prog Ret α} (h : p.Below q) {k : K}
    {xs : ℕ → A} {r : α × K} (hrun : p.run exec k xs = some r) : q.run exec k xs = some r := by
  induction p generalizing q k xs with
  | ret a =>
    obtain rfl := h
    exact hrun
  | stop => cases hrun
  | act o f ih =>
    obtain ⟨g, rfl, hg⟩ := h
    exact ih _ (hg _) hrun

end Prog.Below

/-- The family of assertions that only the unchanged state keeps. -/
def Alone (k₀ k : K) : Prop := k = k₀

theorem Keeps.alone {k k' : K} (h : Keeps Alone k k') : k' = k := h k rfl

namespace Outline

variable {C : Contract Ret K A} {Q : α → K → Prop} {k : K}

/-- The end of a program that runs by itself. -/
theorem alone_ret {a : α} (hinv : C.inv k) (h : Q a k) : Outline C Alone (.ret a) Q k := by
  intro k' hk
  rw [hk.alone]
  exact ⟨hinv, h⟩

/-- An access of a program that runs by itself. -/
theorem alone_act {o : Op} {f : Ret o → Prog Ret α} (hinv : C.inv k) (hok : C.ok o k)
    (h : ∀ x, Outline C Alone (f (C.exec o x k).1) Q (C.exec o x k).2) :
    Outline C Alone (.act o f) Q k := by
  intro k' hk
  rw [hk.alone]
  exact ⟨hinv, hok, fun x _ => h x⟩

end Outline

/-- The contract that asks for nothing. -/
def Contract.free (exec : (o : Op) → A → K → Ret o × K) : Contract Ret K A where
  exec := exec
  inv := fun _ => True
  ok := fun _ _ => True
  cond := fun _ _ _ => True

/-- From `k`, the program run by itself ends only in states and results satisfying `Q`. -/
def Yields (exec : (o : Op) → A → K → Ret o × K) (p : Prog Ret α) (Q : α → K → Prop) (k : K) :
    Prop :=
  Outline (Contract.free exec) Alone p Q k

namespace Yields

variable {exec : (o : Op) → A → K → Ret o × K} {p : Prog Ret α} {Q R : α → K → Prop} {k : K}

theorem ret {a : α} (h : Q a k) : Yields exec (.ret a) Q k := Outline.alone_ret trivial h

theorem stop : Yields exec (.stop : Prog Ret α) Q k := fun _ _ => trivial

/-- One access, whatever the answer, and then the rest. -/
theorem act {o : Op} {f : Ret o → Prog Ret α}
    (h : ∀ x, Yields exec (f (exec o x k).1) Q (exec o x k).2) : Yields exec (.act o f) Q k :=
  Outline.alone_act trivial trivial h

theorem mono (h : Yields exec p Q k) (hQ : ∀ a k, Q a k → R a k) : Yields exec p R k :=
  Outline.mono h hQ

theorem bind {f : α → Prog Ret β} {Q : β → K → Prop}
    (h : Yields exec p (fun a => Yields exec (f a) Q) k) : Yields exec (p >>= f) Q k :=
  Outline.bind h

/-- The rule for a choice. -/
theorem ite {c : Prop} [Decidable c] {p q : Prog Ret α} (hp : c → Yields exec p Q k)
    (hq : ¬c → Yields exec q Q k) : Yields exec (if c then p else q) Q k := by
  split
  · next h => exact hp h
  · next h => exact hq h

/-- The loop rule, for a loop without a state. -/
theorem iterate {P : K → Prop} {body : Prog Ret (Unit ⊕ Unit)}
    (hbody : ∀ k, P k → Yields exec body (fun _ => P) k) (hk : P k) (fuel : ℕ) :
    Yields exec (.iterate (fun _ => body) fuel ()) (fun _ => P) k := by
  refine Triple.iterate (I := fun _ => P) (fun _ _ _ => stop) (fun _ _ h => ret h)
    (fun _ k h => ?_) fuel () k hk
  refine (hbody k h).mono fun r k' h => ?_
  cases r <;> exact h

/-- A program keeps what its accesses keep. -/
theorem of_only {S : Op → Prop} {P : K → Prop} (hexec : ∀ o x k, S o → P k → P (exec o x k).2)
    (hp : p.Only S) (hk : P k) : Yields exec p (fun _ => P) k := by
  induction p generalizing k with
  | ret a => exact Yields.ret hk
  | stop => exact Yields.stop
  | act o f ih => exact Yields.act fun x => ih _ (hp.2 _) (hexec o x k hp.1 hk)

/-- The result and the last state of a run satisfy the postcondition. -/
theorem run (h : Yields exec p Q k) {xs : ℕ → A} {a : α} {k' : K}
    (hrun : p.run exec k xs = some (a, k')) : Q a k' := by
  induction p generalizing k xs with
  | ret b =>
    obtain ⟨rfl, rfl⟩ := Prod.mk.inj (Option.some.inj hrun)
    exact (h k (Keeps.refl Alone k)).2
  | stop => cases hrun
  | act o f ih => exact ih _ (Outline.step h trivial) hrun

end Yields

/-- What the accesses keep under the decisions of a stream, a run keeps. -/
theorem Prog.run_keeps {exec : (o : Op) → A → K → Ret o × K} {P : K → Prop} {p : Prog Ret α}
    {k k' : K} {xs : ℕ → A} {a : α} (hexec : ∀ o i k, P k → P (exec o (xs i) k).2) (hk : P k)
    (hrun : p.run exec k xs = some (a, k')) : P k' := by
  induction p generalizing k xs with
  | ret b =>
    obtain ⟨-, rfl⟩ := Prod.mk.inj (Option.some.inj hrun)
    exact hk
  | stop => cases hrun
  | act o f ih => exact ih _ (fun o i k => hexec o (i + 1) k) (hexec o 0 k hk) hrun

/-- In the run with the decisions of a stream, `P` holds of each access and the state it is made
in, and `E` of the last state. -/
def Prog.Visits (exec : (o : Op) → A → K → Ret o × K) (P : Op → A → K → Prop) (E : K → Prop) :
    Prog Ret α → K → (ℕ → A) → Prop
  | .ret _, k, _ => E k
  | .stop, k, _ => E k
  | .act o f, k, xs => P o (xs 0) k ∧
      (f (exec o (xs 0) k).1).Visits exec P E (exec o (xs 0) k).2 fun i => xs (i + 1)

namespace Prog.Visits

variable {exec : (o : Op) → A → K → Ret o × K} {P P' : Op → A → K → Prop} {E E' : K → Prop}

theorem mono {p : Prog Ret α} {k : K} {xs : ℕ → A} (h : p.Visits exec P E k xs)
    (hP : ∀ o x k, P o x k → P' o x k) (hE : ∀ k, E k → E' k) : p.Visits exec P' E' k xs := by
  induction p generalizing k xs with
  | ret a => exact hE k h
  | stop => exact hE k h
  | act o f ih => exact ⟨hP o (xs 0) k h.1, ih _ h.2⟩

/-- A run can be checked. -/
instance decidable [∀ o x k, Decidable (P o x k)] [DecidablePred E] :
    (p : Prog Ret α) → (k : K) → (xs : ℕ → A) → Decidable (p.Visits exec P E k xs)
  | .ret _, k, _ => inferInstanceAs (Decidable (E k))
  | .stop, k, _ => inferInstanceAs (Decidable (E k))
  | .act o f, k, xs => @instDecidableAnd _ _ inferInstance
      (decidable (f (exec o (xs 0) k).1) (exec o (xs 0) k).2 fun i => xs (i + 1))

end Prog.Visits

/-- The state a program gets to if every decision of the environment is `x`. -/
def Prog.after (exec : (o : Op) → A → K → Ret o × K) (x : A) : Prog Ret α → K → K
  | .ret _, k => k
  | .stop, k => k
  | .act o f, k => (f (exec o x k).1).after exec x (exec o x k).2

/-- The program ends from `k`, with a result and a state satisfying `Q`, if every decision of
the environment is `x`. -/
def Ends (exec : (o : Op) → A → K → Ret o × K) (x : A) (p : Prog Ret α) (k : K)
    (Q : α → K → Prop) : Prop :=
  ∃ a k', p.run exec k (fun _ => x) = some (a, k') ∧ Q a k'

namespace Ends

variable {exec : (o : Op) → A → K → Ret o × K} {x : A} {p : Prog Ret α} {k : K}
  {Q : α → K → Prop}

theorem ret {a : α} (h : Q a k) : Ends exec x (.ret a) k Q := ⟨a, k, rfl, h⟩

/-- One access with the constant answer, and then the rest. -/
theorem act {o : Op} {f : Ret o → Prog Ret α}
    (h : Ends exec x (f (exec o x k).1) (exec o x k).2 Q) : Ends exec x (.act o f) k Q := h

/-- The rule of sequencing, for a constant answer. -/
theorem bind {f : α → Prog Ret β} {Q : β → K → Prop}
    (h : Ends exec x p k fun a k' => Ends exec x (f a) k' Q) : Ends exec x (p >>= f) k Q := by
  induction p generalizing k with
  | ret a =>
    obtain ⟨b, k', hrun, h⟩ := h
    obtain ⟨rfl, rfl⟩ := Prod.mk.inj (Option.some.inj hrun)
    exact h
  | stop =>
    obtain ⟨b, k', hrun, -⟩ := h
    cases hrun
  | act o g ih => exact ih _ h

/-- A piece that is evaluated, with its result. -/
theorem eval (a : α) (h : (p.run exec k fun _ => x).map Prod.fst = some a)
    (hQ : Q a (p.after exec x k)) : Ends exec x p k Q := by
  induction p generalizing k with
  | ret b =>
    obtain rfl := Option.some.inj h
    exact Ends.ret hQ
  | stop => cases h
  | act o f ih => exact Ends.act (ih _ h hQ)

end Ends

/-- Under an environment that always decides `x`, every state the program goes through from `k`
satisfies `P`, and it ends with a result and a state satisfying `Q`. -/
def Along (exec : (o : Op) → A → K → Ret o × K) (x : A) (P : K → Prop) :
    Prog Ret α → (α → K → Prop) → K → Prop
  | .ret a, Q, k => P k ∧ Q a k
  | .stop, _, _ => False
  | .act o f, Q, k => P k ∧ Along exec x P (f (exec o x k).1) Q (exec o x k).2

section Along

variable {exec : (o : Op) → A → K → Ret o × K} {x : A} {P : K → Prop} {Q : α → K → Prop} {k : K}

@[simp]
theorem along_ret (a : α) : Along exec x P (.ret a) Q k ↔ P k ∧ Q a k := Iff.rfl

@[simp]
theorem along_stop : ¬Along exec x P (.stop : Prog Ret α) Q k := id

@[simp]
theorem along_act (o : Op) (f : Ret o → Prog Ret α) : Along exec x P (.act o f) Q k ↔
    P k ∧ Along exec x P (f (exec o x k).1) Q (exec o x k).2 := Iff.rfl

theorem Along.head {p : Prog Ret α} (h : Along exec x P p Q k) : P k := by
  cases p with
  | ret a => exact h.1
  | stop => exact h.elim
  | act o f => exact h.1

end Along

/-- Whatever the environment decides, the program ends from `k`, with a result and a state
satisfying `Q`. -/
def Total (exec : (o : Op) → A → K → Ret o × K) : Prog Ret α → (α → K → Prop) → K → Prop
  | .ret a, Q, k => Q a k
  | .stop, _, _ => False
  | .act o f, Q, k => ∀ x, Total exec (f (exec o x k).1) Q (exec o x k).2

section Total

variable {exec : (o : Op) → A → K → Ret o × K} {Q R : α → K → Prop} {k : K}

@[simp]
theorem total_ret (a : α) : Total exec (.ret a) Q k ↔ Q a k := Iff.rfl

/-- One access, whatever the answer. -/
@[simp]
theorem total_act (o : Op) (f : Ret o → Prog Ret α) :
    Total exec (.act o f) Q k ↔ ∀ x, Total exec (f (exec o x k).1) Q (exec o x k).2 := Iff.rfl

/-- Each branch ends where its condition holds. -/
@[simp]
theorem total_ite (c : Prop) [Decidable c] (p q : Prog Ret α) :
    Total exec (if c then p else q) Q k ↔ (c → Total exec p Q k) ∧ (¬c → Total exec q Q k) := by
  split <;> simp [*]

namespace Total

theorem mono {p : Prog Ret α} (h : Total exec p Q k) (hQ : ∀ a k, Q a k → R a k) :
    Total exec p R k := by
  induction p generalizing k with
  | ret a => exact hQ a k h
  | stop => exact h
  | act o f ih => exact fun x => ih _ (h x)

/-- The rule of sequencing. -/
theorem bind {p : Prog Ret α} {f : α → Prog Ret β} {Q : β → K → Prop}
    (h : Total exec p (fun a => Total exec (f a) Q) k) : Total exec (p >>= f) Q k := by
  induction p generalizing k with
  | ret a => exact h
  | stop => exact h.elim
  | act o g ih => exact fun x => ih _ (h x)

/-- The rule for a list, for an assertion of what is still to be done. -/
theorem forEach {P : List σ → K → Prop} {body : σ → Prog Ret Unit}
    (hbody : ∀ s ss k, P (s :: ss) k → Total exec (body s) (fun _ => P ss) k) {ss : List σ}
    (h : P ss k) : Total exec (.forEach body ss) (fun _ => P []) k := by
  induction ss generalizing k with
  | nil => exact h
  | cons s ss ih => exact bind ((hbody s ss k h).mono fun _ _ => ih)

/-- The effects of a list, one after the other. -/
theorem forEach_foldl {body : σ → Prog Ret Unit} {effect : K → σ → K}
    (hbody : ∀ s k, Total exec (body s) (fun _ k' => k' = effect k s) k) (ss : List σ) :
    Total exec (.forEach body ss) (fun _ k' => k' = ss.foldl effect k) k := by
  refine forEach (P := fun rest k' => rest.foldl effect k' = ss.foldl effect k)
    (fun s rest k' h => ?_) rfl
  refine (hbody s k').mono ?_
  rintro _ _ rfl
  exact h

/-- The rule for a loop, for an assertion of the loop state and a measure that falls. -/
theorem iterate {β : Type} {P : σ → K → Prop} {Q : β → K → Prop} (μ : σ → ℕ)
    {body : σ → Prog Ret (σ ⊕ β)}
    (hbody : ∀ s k, P s k → Total exec (body s) (fun r k' =>
      (∀ s', r = .inl s' → P s' k' ∧ μ s' < μ s) ∧ ∀ b, r = .inr b → Q b k') k)
    {fuel : ℕ} {s : σ} {k : K} (hfuel : μ s < fuel) (h : P s k) :
    Total exec (.iterate body fuel s) Q k := by
  induction fuel generalizing s k with
  | zero => exact absurd hfuel (Nat.not_lt_zero _)
  | succ fuel ih =>
    refine bind ((hbody s k h).mono ?_)
    rintro (s' | b) k' ⟨hnext, hdone⟩
    · obtain ⟨hP, hlt⟩ := hnext s' rfl
      exact ih (by omega) hP
    · exact hdone b rfl

/-- Every run comes to an end, in the postcondition. -/
theorem run {p : Prog Ret α} (h : Total exec p Q k) (xs : ℕ → A) :
    ∃ a k', p.run exec k xs = some (a, k') ∧ Q a k' := by
  induction p generalizing k xs with
  | ret a => exact ⟨a, k, rfl, h⟩
  | stop => exact h.elim
  | act o f ih => exact ih _ (h (xs 0)) fun i => xs (i + 1)

/-- What a program always ends in is what every run ends in, also of a program that stops
earlier. -/
theorem of_run {p q : Prog Ret α} (h : Total exec q Q k) (hbelow : p.Below q) {xs : ℕ → A}
    {a : α} {k' : K} (hrun : p.run exec k xs = some (a, k')) : Q a k' := by
  obtain ⟨b, k₂, hrun', hQ⟩ := h.run xs
  have heq := (hbelow.run hrun).symm.trans hrun'
  obtain ⟨rfl, rfl⟩ := Prod.mk.inj (Option.some.inj heq)
  exact hQ

/-- A program that always ends in its postcondition has an outline in every contract that its
accesses meet. -/
theorem outline {C : Contract Ret K A} {S : Op → Prop} {p : Prog Ret α}
    (h : Total C.exec p Q k) (hp : p.Only S) {P : K → Prop} (hk : P k)
    (hexec : ∀ o x k, S o → P k → P (C.exec o x k).2) (hinv : ∀ k, P k → C.inv k)
    (hok : ∀ o k, S o → P k → C.ok o k) :
    Outline C Alone p (fun a k' => Q a k' ∧ P k') k := by
  induction p generalizing k with
  | ret a => exact Outline.alone_ret (hinv k hk) ⟨h, hk⟩
  | stop => exact h.elim
  | act o f ih =>
    exact Outline.alone_act (hinv k hk) (hok o k hp.1 hk) fun x =>
      ih _ (h x) (hp.2 _) (hexec o x k hp.1 hk)

end Total

end Total

/-- The accesses of `exec`, recorded in a ghost. -/
def withGhost {G : Type} (exec : (o : Op) → A → K → Ret o × K) (note : Op → A → K → G → G) :
    (o : Op) → A → K × G → Ret o × (K × G) :=
  fun o x s => ((exec o x s.1).1, (exec o x s.1).2, note o x s.1 s.2)

/-- Accesses the ghost does not record leave it alone. -/
theorem Total.withGhost {G : Type} {exec : (o : Op) → A → K → Ret o × K}
    {note : Op → A → K → G → G} {S : Op → Prop} {g : G} (hS : ∀ o x k, S o → note o x k g = g)
    {p : Prog Ret α} (hp : p.Only S) {Q : α → K → Prop} {k : K} (h : Total exec p Q k) :
    Total (withGhost exec note) p (fun a s => Q a s.1 ∧ s.2 = g) (k, g) := by
  induction p generalizing k with
  | ret a => exact ⟨h, rfl⟩
  | stop => exact h.elim
  | act o f ih =>
    intro x
    have hnext := ih _ (hp.2 _) (h x)
    simp only [Interaction.withGhost, hS o x k hp.1]
    exact hnext

end Interaction
