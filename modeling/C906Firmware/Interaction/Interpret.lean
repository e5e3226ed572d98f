import C906Firmware.Interaction.Prog

/-!
# Interpreting one signature in another

Two models of one piece of a system may differ in what counts as an access. An interpretation
answers each access of the first by a program over the second (`Prog.interpret`); it goes through
sequencing and loops, so that the two models can be compared function by function.
-/

namespace Interaction

variable {Op Op' : Type} {Ret : Op → Type} {Ret' : Op' → Type} {α β σ : Type}

namespace Prog

/-- The program with each access replaced by a program that answers it. -/
def interpret (e : (o : Op) → Prog Ret' (Ret o)) : Prog Ret α → Prog Ret' α
  | ret a => ret a
  | stop => stop
  | act o k => e o >>= fun r => (k r).interpret e

variable (e : (o : Op) → Prog Ret' (Ret o))

@[simp]
theorem interpret_ret (a : α) : (ret a : Prog Ret α).interpret e = ret a := rfl

@[simp]
theorem interpret_stop : (stop : Prog Ret α).interpret e = stop := rfl

@[simp]
theorem interpret_act (o : Op) (k : Ret o → Prog Ret α) :
    (act o k).interpret e = e o >>= fun r => (k r).interpret e := rfl

/-- Interpretation goes through sequencing. -/
@[simp]
theorem interpret_bind (p : Prog Ret α) (f : α → Prog Ret β) :
    (p >>= f).interpret e = p.interpret e >>= fun a => (f a).interpret e := by
  induction p with
  | ret a => rfl
  | stop => rfl
  | act o k ih =>
    simp only [act_bind, interpret_act, bind_bind]
    exact congrArg (e o >>= ·) (funext fun r => ih r)

/-- Interpretation goes through a loop. -/
theorem interpret_iterate (body : σ → Prog Ret (σ ⊕ β)) (fuel : ℕ) (s : σ) :
    (iterate body fuel s).interpret e = iterate (fun s => (body s).interpret e) fuel s := by
  induction fuel generalizing s with
  | zero => rfl
  | succ fuel ih =>
    simp only [iterate, interpret_bind]
    refine congrArg ((body s).interpret e >>= ·) (funext fun r => ?_)
    cases r with
    | inl s' => exact ih s'
    | inr b => rfl

end Prog

end Interaction
