import Mathlib.Data.Set.Basic

/-!
# Programs over an access signature

A program is a finite tree of **accesses**: every node performs one operation `o` and
continues with the answer, of type `Ret o`, that the environment gives. The tree fixes which
accesses are made and in which order, and nothing else: what an access does to a state is said
separately, so that one program text can be run over several states, and another context can
be let in between any two of its accesses.

`stop` is the end of a program that never continues: a failed assertion that spins, or the
bound of an unbounded loop (`iterate`). A loop of a source program is `iterate fuel`; every
finite behaviour of the unbounded loop is a behaviour of `iterate fuel` for some `fuel`, so
a statement about all `fuel` is a statement about all finite behaviours.
-/

namespace Interaction

variable {Op : Type} {Ret : Op → Type} {α β γ σ : Type}

/-- Programs that make accesses `o : Op`, are answered in `Ret o`, and return an `α`. -/
inductive Prog (Ret : Op → Type) (α : Type) : Type
  /-- The program is finished with a result. -/
  | ret (a : α) : Prog Ret α
  /-- The program never continues. -/
  | stop : Prog Ret α
  /-- One access, and what follows for each answer. -/
  | act (o : Op) (k : Ret o → Prog Ret α) : Prog Ret α

namespace Prog

/-- Sequencing: run `p`, then `f` on its result. -/
protected def bind : Prog Ret α → (α → Prog Ret β) → Prog Ret β
  | ret a, f => f a
  | stop, _ => stop
  | act o k, f => act o fun r => (k r).bind f

instance : Monad (Prog Ret) where
  pure := ret
  bind := Prog.bind

@[simp]
theorem pure_eq_ret (a : α) : (pure a : Prog Ret α) = ret a := rfl

/-- A result is handed on. -/
@[simp]
theorem ret_bind (a : α) (f : α → Prog Ret β) : (ret a : Prog Ret α) >>= f = f a := rfl

/-- Nothing follows a program that does not continue. -/
@[simp]
theorem stop_bind (f : α → Prog Ret β) : (stop : Prog Ret α) >>= f = stop := rfl

/-- What follows an access goes under it. -/
@[simp]
theorem act_bind (o : Op) (k : Ret o → Prog Ret α) (f : α → Prog Ret β) :
    act o k >>= f = act o fun r => k r >>= f := rfl

theorem bind_ret (p : Prog Ret α) : p >>= ret = p := by
  induction p with
  | ret a => rfl
  | stop => rfl
  | act o k ih =>
    rw [act_bind]
    exact congrArg (act o) (funext fun r => ih r)

/-- Sequencing is associative. -/
theorem bind_bind (p : Prog Ret α) (f : α → Prog Ret β) (g : β → Prog Ret γ) :
    p >>= f >>= g = p >>= fun a => f a >>= g := by
  induction p with
  | ret a => rfl
  | stop => rfl
  | act o k ih =>
    simp only [act_bind]
    exact congrArg (act o) (funext fun r => ih r)

/-- Sequencing is associative and `pure` is its unit. -/
instance : LawfulMonad (Prog Ret) :=
  LawfulMonad.mk' (Prog Ret) bind_ret (fun _ _ => rfl) bind_bind

/-- The program that makes one access and returns its answer. -/
def perform (o : Op) : Prog Ret (Ret o) := act o ret

/-- One access, and what follows for its answer. -/
@[simp]
theorem perform_bind (o : Op) (f : Ret o → Prog Ret β) :
    perform o >>= f = act o f := rfl

/-- A loop, cut off after `fuel` rounds: a round of `body` either asks for another round with
a new loop state or leaves the loop with a result. -/
def iterate (body : σ → Prog Ret (σ ⊕ β)) : ℕ → σ → Prog Ret β
  | 0, _ => stop
  | fuel + 1, s => body s >>= fun
    | .inl s' => iterate body fuel s'
    | .inr b => ret b

/-- Run `body` for each element of a list, in order. -/
def forEach (body : σ → Prog Ret Unit) : List σ → Prog Ret Unit
  | [] => ret ()
  | s :: rest => body s >>= fun _ => forEach body rest

/-- Every access the program can make satisfies `S`. -/
def Only (S : Op → Prop) : Prog Ret α → Prop
  | ret _ => True
  | stop => True
  | act o k => S o ∧ ∀ r, (k r).Only S

@[simp]
theorem only_ret {S : Op → Prop} (a : α) : (ret a : Prog Ret α).Only S := trivial

@[simp]
theorem only_stop {S : Op → Prop} : (stop : Prog Ret α).Only S := trivial

/-- The accesses of a program are its first and those of what follows. -/
@[simp]
theorem only_act {S : Op → Prop} (o : Op) (k : Ret o → Prog Ret α) :
    (act o k).Only S ↔ S o ∧ ∀ r, (k r).Only S := Iff.rfl

@[simp]
theorem only_perform {S : Op → Prop} (o : Op) : (perform o : Prog Ret _).Only S ↔ S o := by
  simp [perform]

/-- Each branch counts where its condition holds. -/
@[simp]
theorem only_ite {S : Op → Prop} (c : Prop) [Decidable c] (p q : Prog Ret α) :
    (if c then p else q).Only S ↔ (c → p.Only S) ∧ (¬c → q.Only S) := by
  split <;> simp [*]

/-- A weaker condition on the accesses. -/
theorem Only.mono {S T : Op → Prop} {p : Prog Ret α} (h : p.Only S) (hST : ∀ o, S o → T o) :
    p.Only T := by
  induction p with
  | ret a => trivial
  | stop => trivial
  | act o k ih => exact ⟨hST o h.1, fun r => ih r (h.2 r)⟩

/-- A sequence makes the accesses of its parts. -/
theorem Only.bind {S : Op → Prop} {p : Prog Ret α} {f : α → Prog Ret β} (h : p.Only S)
    (hf : ∀ a, (f a).Only S) : (p >>= f).Only S := by
  induction p with
  | ret a => exact hf a
  | stop => trivial
  | act o k ih => exact ⟨h.1, fun r => ih r (h.2 r)⟩

/-- A choice makes the accesses of one branch. -/
theorem Only.ite {S : Op → Prop} {c : Prop} [Decidable c] {p q : Prog Ret α} (hp : p.Only S)
    (hq : q.Only S) : (if c then p else q).Only S := by
  split
  · exact hp
  · exact hq

/-- A loop makes the accesses of its rounds, whatever their number. -/
theorem Only.iterate {S : Op → Prop} {body : σ → Prog Ret (σ ⊕ β)}
    (h : ∀ s, (body s).Only S) (fuel : ℕ) : ∀ s, (iterate body fuel s).Only S := by
  induction fuel with
  | zero => exact fun _ => trivial
  | succ fuel ih =>
    intro s
    refine (h s).bind ?_
    rintro (s' | b)
    · exact ih s'
    · trivial

/-- A loop over a list makes the accesses of its rounds. -/
theorem Only.forEach {S : Op → Prop} {body : σ → Prog Ret Unit} {ss : List σ}
    (h : ∀ s, (body s).Only S) : (forEach body ss).Only S := by
  induction ss with
  | nil => trivial
  | cons s ss ih => exact (h s).bind fun _ => ih

/-- The access a program makes next, if it makes one. -/
def next : Prog Ret α → Option Op
  | ret _ => none
  | stop => none
  | act o _ => some o

end Prog

end Interaction
