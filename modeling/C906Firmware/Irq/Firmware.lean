import C906Firmware.Interaction.Interpret
import C906Firmware.Model.Irq

/-!
# The dispatcher of the firmware

`Model/Irq.lean` has the dispatcher for any handler table, `Model/Platform.lean` the one of the
firmware, in which the message box is the only source with a handler. The second is the first with
its accesses answered from that table: the same claims, handlers and completions in the same order
(`Irq.interpret_genericHandleIrq`, `Irq.interpret_plicHandleIrq`).
-/

namespace C906Firmware

open Interaction

namespace Irq

/-- The answers of the firmware: the message box has a handler, which is called with a parameter
that it does not use; the PLIC is there; and log lines leave no trace. -/
def answered (fuel : ℕ) : (o : IrqOp) → Code (IrqRet o)
  | .loadHandler n => pure (if n = RISCV_MBOX_CPUX.toNat then 1 else 0)
  | .loadParam _ => pure 0
  | .loadName _ => pure none
  | .loadRec _ _ => pure 0
  | .readEnable _ => pure 0
  | .claim => do
    let irq ← C906Firmware.access (.readl .plicClaim)
    pure irq.toNat
  | .complete n => C906Firmware.access (.writel .plicClaim (BitVec.ofNat 32 n))
  | .getRegs => pure true
  | .getPresent => pure true
  | .clearMeie => C906Firmware.access .clearMeie
  | .setMeie => C906Firmware.access .setMeie
  | .setMie => C906Firmware.access .setMie
  | .dispatch _ _ _ => platformIrqHandler fuel
  | .handlerStep => pure .done
  | .interrupt => pure false
  | .storeHandler _ _ _ | .storeParam _ _ | .storeName _ _ | .storeRec _ _ | .writePriority _ _
  | .writeThreshold _ | .writeEnable _ _ | .setRegs | .setPresent | .log _ | .callEnter _
  | .callReturn _ _ => pure ()

/-- The handler's own accesses are those that `dispatch` stands for. -/
def inDispatch (_ _ : ℕ) : IrqCode Unit := pure ()

/-- **`generic_handle_irq`** of the firmware is the general one, but for the result, which the
firmware does not use. -/
theorem interpret_genericHandleIrq (fuel : ℕ) (irq : Word) :
    (genericHandleIrq inDispatch irq.toNat).interpret (answered fuel) =
      C906Firmware.genericHandleIrq fuel irq >>= fun _ =>
        pure (if irq < NR_IRQS then 0 else -1) := by
  have hlt : NR_IRQS.toNat ≤ irq.toNat ↔ ¬irq < NR_IRQS := by
    rw [BitVec.lt_def, Nat.not_lt]
  have hmbox : irq.toNat = RISCV_MBOX_CPUX.toNat ↔ irq = RISCV_MBOX_CPUX := BitVec.toNat_inj
  rw [genericHandleIrq, C906Firmware.genericHandleIrq]
  by_cases hin : irq < NR_IRQS
  · by_cases heq : irq = RISCV_MBOX_CPUX
    · subst heq
      simp [hlt, hin, plicIrqEoi, access, Prog.perform, answered, inDispatch]
      rfl
    · simp [hlt, hin, hmbox, heq, plicIrqEoi, access, Prog.perform, answered]
  · simp [hlt, hin, access, Prog.perform, answered]

/-- **`plic_handle_irq`** of the firmware is the general one. -/
theorem interpret_plicHandleIrq (fuel : ℕ) :
    (plicHandleIrq inDispatch fuel).interpret (answered fuel) =
      C906Firmware.plicHandleIrq fuel := by
  have hround : (plicHandleIrqRound inDispatch).interpret (answered fuel) =
      C906Firmware.plicHandleIrqRound fuel := by
    simp only [plicHandleIrqRound, C906Firmware.plicHandleIrqRound, access, Prog.perform_bind,
      Prog.interpret_act, answered, Prog.pure_eq_ret, Prog.act_bind, Prog.ret_bind]
    refine congrArg (Prog.act _) (funext fun irq => ?_)
    by_cases hzero : irq = 0
    · simp [hzero]
    · have hnat : irq.toNat ≠ 0 := fun h => hzero (BitVec.eq_of_toNat_eq h)
      simp only [hnat, hzero, if_false, Prog.interpret_bind, interpret_genericHandleIrq,
        bind_assoc]
      rfl
  simp [plicHandleIrq, C906Firmware.plicHandleIrq, access, Prog.perform, answered,
    Prog.interpret_iterate, hround]

end Irq

end C906Firmware
