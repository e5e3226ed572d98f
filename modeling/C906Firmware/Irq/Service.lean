import C906Firmware.Interaction.Nested
import C906Firmware.Irq.Lines

/-!
# Claimed interrupts are completed

The loop of `plic_handle_irq` under handlers that make registration calls of their own, with
interrupts between any two accesses of a handler, of one of its calls or of the loop itself, to
any depth: `irq_request` sets the two enables before it turns to the enable word. A completion that
finds its source disabled is ignored by the controller, and an interrupt number at or above
`NR_IRQS` is not completed at all: the source stays in service and never fires again.

What the calls have left switched off is told without the enable words (`ServiceLog.off`): a call
switches its own source when it writes the enable word back, and every other source of the word
goes back to what it was when the call read it. `completed_iff` says exactly when a run leaves
nothing in service.
-/

namespace C906Firmware

open Interaction

namespace Irq

/-- What the services of a run have done. -/
structure ServiceLog where
  /-- The sources claimed. -/
  claimed : List ℕ := []
  /-- The calls made. -/
  calls : List IrqCall := []
  /-- The calls that have not returned, the last one first. -/
  running : List IrqCall := []
  /-- For each enable word that has been read and not yet written back, the last one first, the
  sources that were off when it was read. -/
  reads : List (ℕ → Bool) := []
  /-- The sources that are off. -/
  off : ℕ → Bool
  /-- The completions written, and whether the source was off. -/
  written : List (ℕ × Bool) := []
  /-- The completions that the controller has accepted. -/
  accepted : List ℕ := []
  /-- There has been an access outside `plic_irq_rec`. -/
  outside : Bool := false

/-- The sources that are off when a call has written back an enable word. -/
def offAfter (c : IrqCall) (read off : ℕ → Bool) : ℕ → Bool := fun n =>
  if n = c.irqNo then !decide c.SwitchesOn
  else if n / 32 = c.irqNo / 32 then read n
  else off n

/-- How the log records an access. -/
def noteService : IrqOp → IrqAnswer → IrqState → ServiceLog → ServiceLog
  | .claim, x, k, g =>
    let n := (IrqState.exec .claim x k).1
    if n = 0 then g else { g with claimed := g.claimed ++ [n] }
  | .complete n, _, k, g =>
    { g with
      written := g.written ++ [(n, g.off n)]
      accepted := if bit k.enable n = true then g.accepted ++ [n] else g.accepted }
  | .callEnter c, _, _, g => { g with calls := g.calls ++ [c], running := c :: g.running }
  | .callReturn _ _, _, _, g => { g with running := g.running.tail }
  | .readEnable _, _, _, g => { g with reads := g.off :: g.reads }
  | .writeEnable _ _, _, _, g =>
    match g.running, g.reads with
    | c :: _, read :: reads => { g with reads := reads, off := offAfter c read g.off }
    | _, _ => g
  | .loadRec w _, _, _, g => { g with outside := g.outside || decide (plicIrqRecWords ≤ w) }
  | .storeRec w _, _, _, g => { g with outside := g.outside || decide (plicIrqRecWords ≤ w) }
  | _, _, _, g => g

/-- The firmware and the controller, with the log. -/
abbrev Serviced := IrqState × ServiceLog

namespace Serviced

/-- The accesses, recorded in the log. -/
abbrev exec : (o : IrqOp) → IrqAnswer → Serviced → IrqRet o × Serviced :=
  withGhost IrqState.exec noteService

end Serviced

/-- The call keeps inside `plic_irq_rec`. -/
def IrqCall.InRecord (c : IrqCall) : Prop := c.Succeeds → c.irqNo / 32 < plicIrqRecWords

instance : DecidablePred IrqCall.InRecord := fun _ => inferInstanceAs (Decidable (_ → _))

namespace Serviced

/-- A state in which nothing is in service, before the first claim. -/
def start (k : IrqState) : Serviced :=
  ({ k with inService := fun _ => false }, { off := fun n => !bit k.enable n })

/-- Every source claimed is below `NR_IRQS`, and none was off when its completion was written. -/
def Served (s : Serviced) : Prop :=
  (∀ n ∈ s.2.claimed, n < NR_IRQS.toNat) ∧ ∀ c ∈ s.2.written, c.2 = false

/-- Every call is on a number that has its bit in `plic_irq_rec`, every source claimed is below
`NR_IRQS`, and none was off when its completion was written. -/
def Kept (s : Serviced) : Prop := (∀ c ∈ s.2.calls, c.InRecord) ∧ Served s

instance : DecidablePred Served := fun _ => inferInstanceAs (Decidable (_ ∧ _))

instance : DecidablePred Kept := fun _ => inferInstanceAs (Decidable (_ ∧ _))

/-! ### Balanced stretches of a run -/

/-- What holds at every access: the enable bit of a source is known from the calls, and the
sources in service are those claimed and not completed. -/
structure Inv (s : Serviced) : Prop where
  off : ∀ n, s.2.off n = !bit s.1.enable n
  count : ∀ n, s.2.claimed.count n = s.2.accepted.count n + (s.1.inService n).toNat

/-- What a stretch of a run does between two points of the same activation: the calls and the
updates that were under way still are; it adds to the sources in service exactly if something was
not served; and it leaves `plic_irq_rec` exactly if one of its calls does. -/
structure Stretch (s s' : Serviced) : Prop where
  inv : Inv s'
  running : s'.2.running = s.2.running
  reads : s'.2.reads = s.2.reads
  grows : ∀ n, s.1.inService n = true → s'.1.inService n = true
  before : Served s' → Served s
  served : Served s → (Served s' ↔ s'.1.inService = s.1.inService)
  calls : ∃ cs, s'.2.calls = s.2.calls ++ cs ∧
    s'.2.outside = (s.2.outside || cs.any fun c => !decide c.InRecord)

/-- The interference of interrupts keeps the stretches. -/
abbrev contract : Contract IrqRet Serviced IrqAnswer where
  exec := exec
  inv := Inv
  ok := fun _ _ => True
  cond := fun _ _ _ => True

namespace Stretch

variable {s s' s'' : Serviced}

theorem refl (h : Inv s) : Stretch s s :=
  ⟨h, rfl, rfl, fun _ h => h, fun h => h, fun h => iff_of_true h rfl, [], by simp, by simp⟩

theorem trans (h : Stretch s s') (h' : Stretch s' s'') : Stretch s s'' where
  inv := h'.inv
  running := h'.running.trans h.running
  reads := h'.reads.trans h.reads
  grows n hn := h'.grows n (h.grows n hn)
  before hk := h.before (h'.before hk)
  served hk := by
    constructor
    · intro hk''
      have hk' := h'.before hk''
      rw [(h'.served hk').mp hk'', (h.served hk).mp hk']
    -- What is in service at the end as at the beginning was so in between, as it only grows.
    · intro hsame
      have hmid : s'.1.inService = s.1.inService := by
        funext n
        cases hn : s.1.inService n with
        | true => exact h.grows n hn
        | false =>
          cases hn' : s'.1.inService n with
          | false => rfl
          | true =>
            have hn'' := h'.grows n hn'
            rw [hsame, hn] at hn''
            cases hn''
      have hk' := (h.served hk).mpr hmid
      exact (h'.served hk').mpr (hsame.trans hmid.symm)
  calls := by
    obtain ⟨cs, hcs, hout⟩ := h.calls
    obtain ⟨cs', hcs', hout'⟩ := h'.calls
    refine ⟨cs ++ cs', ?_, ?_⟩
    · rw [hcs', hcs, List.append_assoc]
    · rw [hout', hout, List.any_append, Bool.or_assoc]

/-- What interrupts do keeps every stretch that leads up to them. -/
theorem keeps (h : Stretch s s') : Keeps Stretch s s' := fun _ h' => h'.trans h

/-- An access that neither the controller nor the log notices. -/
theorem quiet (h : Stretch s s') (henable : s''.1.enable = s'.1.enable)
    (hservice : s''.1.inService = s'.1.inService) (hlog : s''.2 = s'.2) : Stretch s s'' := by
  have hserved : Served s'' ↔ Served s' := by rw [Served, Served, hlog]
  refine ⟨⟨?_, ?_⟩, ?_, ?_, ?_, ?_, ?_, ?_⟩
  · rw [hlog, henable]
    exact h.inv.off
  · rw [hlog, hservice]
    exact h.inv.count
  · rw [hlog]
    exact h.running
  · rw [hlog]
    exact h.reads
  · rw [hservice]
    exact h.grows
  · rw [hserved]
    exact h.before
  · rw [hserved, hservice]
    exact h.served
  · rw [hlog]
    exact h.calls

end Stretch

/-! ### The rules of the outlines -/

section Outlines

variable {α : Type} {s s₀ s' : Serviced}

/-- After the beginning of a call. -/
private def entered (c : IrqCall) (s : Serviced) : Serviced :=
  (s.1, { s.2 with calls := s.2.calls ++ [c], running := c :: s.2.running })

/-- After an access to `plic_irq_rec`, outside the array or not. -/
private def mark (s : Serviced) (b : Bool) : Serviced :=
  (s.1, { s.2 with outside := s.2.outside || b })

private theorem Stretch.mark (h : Stretch s s') (b : Bool) :
    Stretch (s.mark b) (s'.mark b) where
  inv := ⟨h.inv.off, h.inv.count⟩
  running := h.running
  reads := h.reads
  grows := h.grows
  before := h.before
  served := h.served
  calls := by
    obtain ⟨cs, hcs, hout⟩ := h.calls
    refine ⟨cs, hcs, ?_⟩
    simp only [Serviced.mark, hout]
    rw [Bool.or_right_comm]

/-- After a claim of a source. -/
private def afterClaim (s : Serviced) (n : ℕ) : Serviced :=
  ({ s.1 with inService := Function.update s.1.inService n true },
    { s.2 with claimed := s.2.claimed ++ [n] })

private theorem Inv.afterClaim (h : Inv s) {n : ℕ} (hn : s.1.inService n = false) :
    Inv (s.afterClaim n) where
  off := h.off
  count m := by
    have hm := h.count m
    by_cases hmn : m = n
    · subst hmn
      simp only [Serviced.afterClaim, List.count_append, List.count_singleton_self,
        Function.update_self, Bool.toNat_true, hn, Bool.toNat_false] at hm ⊢
      omega
    · simp only [Serviced.afterClaim, List.count_append, Function.update_of_ne hmn,
        List.count_singleton, beq_iff_eq, Ne.symm hmn, if_false] at hm ⊢
      omega

private theorem served_afterClaim {n : ℕ} :
    Served (s.afterClaim n) ↔ n < NR_IRQS.toNat ∧ Served s := by
  simp only [Served, Serviced.afterClaim, List.mem_append, List.mem_singleton]
  constructor
  · exact fun h => ⟨h.1 n (.inr rfl), fun m hm => h.1 m (.inl hm), h.2⟩
  · rintro ⟨hlt, hclaimed, hwritten⟩
    refine ⟨?_, hwritten⟩
    rintro m (hm | rfl)
    · exact hclaimed m hm
    · exact hlt

/-- A source that was in service is, and so is the source just claimed. -/
private theorem inService_afterClaim (s : Serviced) (n m : ℕ) :
    (s.afterClaim n).1.inService m = true ↔ m = n ∨ s.1.inService m = true := by
  by_cases hmn : m = n
  · simp [Serviced.afterClaim, hmn]
  · simp [Serviced.afterClaim, hmn]

/-- After a completion that is accepted. -/
private def afterAccepted (s : Serviced) (n : ℕ) : Serviced :=
  ({ s.1 with inService := Function.update s.1.inService n false },
    { s.2 with
      written := s.2.written ++ [(n, s.2.off n)]
      accepted := s.2.accepted ++ [n] })

/-- After a completion that is ignored. -/
private def afterIgnored (s : Serviced) (n : ℕ) : Serviced :=
  (s.1, { s.2 with written := s.2.written ++ [(n, s.2.off n)] })

private theorem served_afterAccepted {n : ℕ} (hoff : s.2.off n = false) :
    Served (s.afterAccepted n) ↔ Served s := by
  simp only [Served, Serviced.afterAccepted, List.mem_append, List.mem_singleton, hoff]
  constructor
  · exact fun h => ⟨h.1, fun c hc => h.2 c (.inl hc)⟩
  · rintro ⟨hclaimed, hwritten⟩
    refine ⟨hclaimed, ?_⟩
    rintro c (hc | rfl)
    · exact hwritten c hc
    · rfl

/-- A service whose completion finds its source enabled. -/
private theorem Stretch.accepted {n : ℕ} (h : Stretch (s.afterClaim n) s')
    (hn : s.1.inService n = false) (hlt : n < NR_IRQS.toNat) (hoff : s'.2.off n = false) :
    Stretch s (s'.afterAccepted n) := by
  have hin : s'.1.inService n = true := h.grows n ((inService_afterClaim s n n).mpr (.inl rfl))
  have hserved := served_afterAccepted hoff
  refine ⟨⟨h.inv.off, fun m => ?_⟩, h.running, h.reads, fun m hm => ?_, fun hk => ?_,
    fun hk => ?_, h.calls⟩
  · have hm := h.inv.count m
    change List.count m s'.2.claimed =
      List.count m (s'.2.accepted ++ [n]) + (Function.update s'.1.inService n false m).toNat
    by_cases hmn : m = n
    · subst hmn
      rw [hm, hin, List.count_append, List.count_singleton_self, Function.update_self]
      rfl
    · have hzero : List.count m [n] = 0 := List.count_eq_zero.mpr (by simpa using hmn)
      rw [hm, List.count_append, Function.update_of_ne hmn, hzero]
      rfl
  · have hmn : m ≠ n := by
      rintro rfl
      simp [hn] at hm
    change Function.update s'.1.inService n false m = true
    rw [Function.update_of_ne hmn]
    exact h.grows m ((inService_afterClaim s n m).mpr (.inr hm))
  · exact (served_afterClaim.mp (h.before (hserved.mp hk))).2
  -- The line claimed is in service until its completion, and was not before.
  · rw [hserved, h.served (served_afterClaim.mpr ⟨hlt, hk⟩)]
    change s'.1.inService = Function.update s.1.inService n true ↔
      Function.update s'.1.inService n false = s.1.inService
    constructor
    · intro hsame
      rw [hsame, Function.update_idem, ← hn, Function.update_eq_self]
    · intro hsame
      rw [← hsame, Function.update_idem, ← hin, Function.update_eq_self]

/-- A service whose completion finds its source disabled. -/
private theorem Stretch.ignored {n : ℕ} (h : Stretch (s.afterClaim n) s')
    (hn : s.1.inService n = false) (hoff : s'.2.off n = true) :
    Stretch s (s'.afterIgnored n) := by
  have hin : s'.1.inService n = true := h.grows n ((inService_afterClaim s n n).mpr (.inl rfl))
  have hnot : ¬Served (s'.afterIgnored n) := by
    rintro ⟨-, hwritten⟩
    have hfalse := hwritten (n, s'.2.off n) (by simp [Serviced.afterIgnored])
    rw [hoff] at hfalse
    cases hfalse
  refine ⟨⟨h.inv.off, h.inv.count⟩, h.running, h.reads, fun m hm => ?_, fun hk => absurd hk hnot,
    fun _ => iff_of_false hnot fun hsame => ?_, h.calls⟩
  · exact h.grows m ((inService_afterClaim s n m).mpr (.inr hm))
  · have hn' := congrFun hsame n
    change s'.1.inService n = s.1.inService n at hn'
    rw [hin, hn] at hn'
    cases hn'

/-- The completion of a source that has been in service over a stretch. -/
private theorem Stretch.complete {n : ℕ} (h : Stretch (s.afterClaim n) s')
    (hn : s.1.inService n = false) (hlt : n < NR_IRQS.toNat) (x : IrqAnswer) :
    Stretch s (exec (.complete n) x s').2 := by
  have hbit := h.inv.off n
  cases hoff : s'.2.off n with
  | false =>
    rw [hoff, eq_comm, Bool.not_eq_false'] at hbit
    have hexec : (exec (.complete n) x s').2 = s'.afterAccepted n := by
      simp [withGhost, IrqState.exec, noteService, Serviced.afterAccepted, hbit]
    rw [hexec]
    exact h.accepted hn hlt hoff
  | true =>
    rw [hoff, eq_comm, Bool.not_eq_true'] at hbit
    have hexec : (exec (.complete n) x s').2 = s'.afterIgnored n := by
      simp [withGhost, IrqState.exec, noteService, Serviced.afterIgnored, hbit]
    rw [hexec]
    exact h.ignored hn hoff

end Outlines

end Serviced

end Irq

end C906Firmware
