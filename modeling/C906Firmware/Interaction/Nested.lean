import C906Firmware.Interaction.Run

/-!
# Interrupts that nest

`p.interruptible between` runs `between` before each access of `p` and at its end: where `between`
serves the interrupts that are taken at that point, and is itself made of interruptible programs,
these are the runs of a handler that may be interrupted, its interrupts interrupted in turn.

An outline of `p` under interference that keeps a family of assertions is an outline of these
runs, if `between` is such an interference (`Outline.interruptible`). The outline itself says
nothing about how deep the interrupts nest.
-/

namespace Interaction

variable {Op : Type} {Ret : Op → Type} {α K A ι : Type}

/-- `p` with `between` before each of its accesses and at its end. -/
def Prog.interruptible : Prog Ret α → Prog Ret Unit → Prog Ret α
  | .ret a, between => between >>= fun _ => .ret a
  | .stop, _ => .stop
  | .act o f, between => between >>= fun _ => .act o fun r => (f r).interruptible between

/-- **Soundness.** What the outline says of the end holds at the end of the interrupted run. The
invariant of the contract is what `between` may rely on. -/
theorem Outline.interruptible {C : Contract Ret K A} {F : ι → K → Prop} {between : Prog Ret Unit}
    (hcond : ∀ o x k, C.cond o x k)
    (hbetween : ∀ k, C.inv k → Yields C.exec between (fun _ k' => Keeps F k k') k)
    {p : Prog Ret α} {Q : α → K → Prop} {k : K} (h : Outline C F p Q k) :
    Yields C.exec (p.interruptible between) Q k := by
  induction p generalizing k with
  | ret a => exact Yields.bind ((hbetween k h.inv).mono fun _ k' hk' => Yields.ret (h k' hk').2)
  | stop => exact Yields.stop
  | act o f ih =>
    refine Yields.bind ((hbetween k h.inv).mono fun _ k' hk' => Yields.act fun x => ?_)
    exact ih _ ((h k' hk').2.2 x (hcond o x k'))

end Interaction
