import C906Firmware.Irq.Lines

/-!
# The books and the controller

After `plic_init`, any sequence of registration calls leaves the record bit, the enable bit and
the priority of a source saying the same thing, namely which way the last successful call on it
went, and its entry of the table names the handler of the last request that has not been freed
(`agreement`). The argument is on the line of one number: each call is a function of that line
or leaves it alone.
-/

namespace C906Firmware

open Interaction

namespace Irq

/-- What the call says about the handler of its source: a pair for a request, none for a free,
and nothing otherwise. -/
def IrqCall.registers : IrqCall → Option (Option (ℕ × ℕ))
  | request _ h p _ => some (some (h, p))
  | free _ => some none
  | enable _ => none
  | disable _ => none

/-- The successful calls on a number, the last one first. -/
def callsOn (calls : List IrqCall) (i : ℕ) : List IrqCall :=
  calls.reverse.filter fun c => c.irqNo = i ∧ c.Succeeds

/-- The last successful call on the number was `irq_request` or `irq_enable`. -/
def SwitchedOn (calls : List IrqCall) (i : ℕ) : Prop := ∃ c ∈ (callsOn calls i).head?, c.SwitchesOn

instance (calls : List IrqCall) (i : ℕ) : Decidable (SwitchedOn calls i) :=
  inferInstanceAs (Decidable (∃ c ∈ _, _))

/-- The handler and the parameter of the last successful `irq_request` on the number, if no
`irq_free` of it has followed. -/
def registered (calls : List IrqCall) (i : ℕ) : Option (ℕ × ℕ) :=
  ((callsOn calls i).findSome? IrqCall.registers).join

/-- What the dispatch of a number is to do: run the handler that is registered with its parameter,
or no handler, and complete the interrupt. -/
def dispatched (body : ℕ → ℕ → IrqCode Unit) (calls : List IrqCall) (i : ℕ) : IrqCode ℤ := do
  match registered calls i with
  | some (handler, param) => body handler param
  | none => pure ()
  plicIrqEoi i
  pure 0

/-- The line of a number after `plic_init`. -/
def Line.init : Line where
  handler := 0
  param := 0
  name := none
  given := 0
  recorded := false
  enabled := false
  priority := 0

/-- The line of a number after a sequence of calls. -/
def lineAfter (calls : List IrqCall) (i : ℕ) : Line :=
  calls.foldl (fun l c => if i = c.irqNo then c.onLine true l else l) .init

/-- `plic_init` switches the sources it knows off. -/
theorem total_plicInit (enable : ℕ → Word) (threshold : Word) (meie mie : Bool)
    (inService : ℕ → Bool) :
    Total IrqState.exec plicInit
      (fun _ k => k.present = true ∧ ∀ i, 1 ≤ i → i < NR_IRQS.toNat → k.line i = .init)
      (.boot enable threshold meie mie inService) := by
  -- the sources still in the list may be enabled
  let P : List ℕ → IrqState → Prop := fun ss k => k.present = true ∧
    ∀ i, 1 ≤ i → i < NR_IRQS.toNat →
      k.line i = { Line.init with enabled := bit k.enable i } ∧ (bit k.enable i = true → i ∈ ss)
  have hloop : ∀ k, P (List.range' 1 NR_IRQS.toNat) k → Total IrqState.exec
      (Prog.forEach (fun hwirq => plicToggle hwirq false) (List.range' 1 NR_IRQS.toNat))
      (fun _ k => k.present = true ∧ ∀ i, 1 ≤ i → i < NR_IRQS.toNat → k.line i = .init) k := by
    intro k hk
    refine (Total.forEach (P := P) ?_ hk).mono ?_
    · rintro n ss k ⟨hpresent, hlines⟩
      refine (total_plicToggle n false k).mono fun _ k' hk' => ?_
      subst hk'
      refine ⟨hpresent, fun i h1 hn => ?_⟩
      obtain ⟨hline, hin⟩ := hlines i h1 hn
      simp only [IrqState.line, bit_setWord, Line.ext_iff, Line.init] at hline ⊢
      refine ⟨⟨hline.1, hline.2.1, hline.2.2.1, hline.2.2.2.1, hline.2.2.2.2.1, trivial,
        hline.2.2.2.2.2.2⟩, ?_⟩
      intro h
      split at h
      · cases h
      · next hne => exact (List.mem_cons.mp (hin h)).resolve_left hne
    · rintro - k ⟨hpresent, hlines⟩
      refine ⟨hpresent, fun i h1 hn => ?_⟩
      obtain ⟨hline, hin⟩ := hlines i h1 hn
      rw [hline, Bool.eq_false_of_not_eq_true fun h => absurd (hin h) List.not_mem_nil]
      rfl
  intro _ _ _ _ _
  refine hloop _ ⟨rfl, fun i h1 hn => ⟨?_, fun _ => ?_⟩⟩
  · simp [IrqState.line, Line.init, IrqState.boot, IrqState.exec, bit]
  · rw [List.mem_range'_1]
    omega

/-! ### The last call and the line -/

theorem callsOn_append (calls : List IrqCall) (c : IrqCall) (i : ℕ) :
    callsOn (calls ++ [c]) i =
      if c.irqNo = i ∧ c.Succeeds then c :: callsOn calls i else callsOn calls i := by
  simp only [callsOn, List.reverse_append, List.reverse_singleton, List.singleton_append,
    List.filter_cons, decide_eq_true_eq]

theorem lineAfter_append (calls : List IrqCall) (c : IrqCall) (i : ℕ) :
    lineAfter (calls ++ [c]) i =
      if i = c.irqNo then c.onLine true (lineAfter calls i) else lineAfter calls i := by
  rw [lineAfter, List.foldl_append]
  rfl

/-- The line says what the calls say. -/
structure Line.Agrees (l : Line) (calls : List IrqCall) (i : ℕ) : Prop where
  recorded : l.recorded = true ↔ SwitchedOn calls i
  enabled : l.enabled = true ↔ SwitchedOn calls i
  priority : l.priority = 1 ↔ SwitchedOn calls i
  entry : registered calls i = if l.handler = 0 then none else some (l.handler, l.param)

/-- **Step lemma.** A successful call on the number keeps the agreement. -/
theorem Line.Agrees.step {l : Line} {calls : List IrqCall} {c : IrqCall} {i : ℕ}
    (h : l.Agrees calls i) (hi : c.irqNo = i) (hc : c.Succeeds) :
    (c.lineEffect true l).Agrees (calls ++ [c]) i := by
  have hcalls : callsOn (calls ++ [c]) i = c :: callsOn calls i := by
    rw [callsOn_append, if_pos ⟨hi, hc⟩]
  have hon : SwitchedOn (calls ++ [c]) i ↔ c.SwitchesOn := by
    simp [SwitchedOn, hcalls]
  obtain ⟨hrecorded, henabled, hpriority⟩ := lineEffect_switches c l
  refine ⟨?_, ?_, ?_, ?_⟩
  · rw [hon, hrecorded, decide_eq_true_iff]
  · rw [hon, henabled, decide_eq_true_iff]
  · rw [hon, hpriority]
    split <;> simp [*]
  · have hentry : registered (calls ++ [c]) i = c.registers.elim (registered calls i) id := by
      rw [registered, hcalls, List.findSome?_cons]
      cases c.registers <;> rfl
    rw [hentry]
    cases c with
    | request n h' p s =>
      have hh : h' ≠ 0 := hc.2
      simp [IrqCall.lineEffect, Line.switch, Line.store, IrqCall.registers, hh]
    | free n => rfl
    | enable n => exact h.entry
    | disable n => exact h.entry

theorem agrees_lineAfter (calls : List IrqCall) (i : ℕ) : (lineAfter calls i).Agrees calls i := by
  induction calls using List.reverseRecOn with
  | nil => exact ⟨by simp [lineAfter, Line.init, SwitchedOn, callsOn],
      by simp [lineAfter, Line.init, SwitchedOn, callsOn],
      by simp [lineAfter, Line.init, SwitchedOn, callsOn],
      by simp [lineAfter, Line.init, registered, callsOn]⟩
  | append_singleton calls c ih =>
    rw [lineAfter_append]
    by_cases hc : c.irqNo = i ∧ c.Succeeds
    · rw [if_pos hc.1.symm, IrqCall.onLine, if_pos hc.2]
      exact ih.step hc.1 hc.2
    · have hcalls : callsOn (calls ++ [c]) i = callsOn calls i := by
        rw [callsOn_append, if_neg hc]
      have hline : (if i = c.irqNo then c.onLine true (lineAfter calls i) else lineAfter calls i) =
          lineAfter calls i := by
        split
        · next hi => rw [IrqCall.onLine, if_neg fun hs => hc ⟨hi.symm, hs⟩]
        · rfl
      rw [hline]
      exact ⟨by rw [SwitchedOn, hcalls]; exact ih.recorded,
        by rw [SwitchedOn, hcalls]; exact ih.enabled,
        by rw [SwitchedOn, hcalls]; exact ih.priority, by rw [registered, hcalls]; exact ih.entry⟩

/-! ### Dispatch -/

/-- `generic_handle_irq` runs the handler in the entry of the source, with the parameter there,
from the state it was called in. -/
theorem run_genericHandleIrq (body : ℕ → ℕ → IrqCode Unit) {i : ℕ} (hi : i < NR_IRQS.toNat)
    (k : IrqState) : ∃ n, ∀ xs, (genericHandleIrq body i).run IrqState.exec k xs =
      ((if k.handler i = 0 then pure () else body (k.handler i) (k.param i)) >>= fun _ =>
        plicIrqEoi i >>= fun _ => pure 0 : IrqCode ℤ).run IrqState.exec k fun m => xs (m + n) := by
  rw [genericHandleIrq, if_neg (not_le.mpr hi)]
  by_cases hh : k.handler i = 0
  · refine ⟨2, fun xs => ?_⟩
    rw [if_pos hh, Prog.perform_bind, Prog.run]
    rw [if_neg (show ¬(IrqState.exec (.loadHandler i) (xs 0) k).1 ≠ 0 from not_not.mpr hh)]
    rfl
  · refine ⟨4, fun xs => ?_⟩
    rw [if_neg hh, Prog.perform_bind, Prog.run]
    rw [if_pos (show (IrqState.exec (.loadHandler i) (xs 0) k).1 ≠ 0 from hh)]
    rfl

/-- **Run lemma.** A sequence of calls takes a line through the calls on its number. -/
theorem total_calls {i : ℕ} {calls : List IrqCall} {k : IrqState} (hpresent : k.present = true)
    (hline : k.line i = .init) :
    Total IrqState.exec (Prog.forEach IrqCall.code calls)
      (fun _ k' => k'.line i = lineAfter calls i) k := by
  -- what has been done, and what is still to be done, make up the sequence
  let P : List IrqCall → IrqState → Prop := fun cs k => k.present = true ∧
    ∃ done, calls = done ++ cs ∧ k.line i = lineAfter done i
  have hstart : P calls k := ⟨hpresent, [], rfl, hline⟩
  refine (Total.forEach (P := P) ?_ hstart).mono ?_
  · rintro c cs k ⟨hpresent, done, hcalls, hk⟩
    refine (total_code c k).mono fun _ k' hk' => ?_
    subst hk'
    refine ⟨(apply_frame c k).1.trans hpresent, done ++ [c], ?_, ?_⟩
    · rw [hcalls, List.append_assoc]
      rfl
    · rw [line_apply, lineAfter_append, hpresent, hk]
  · rintro - k ⟨-, done, hcalls, hk⟩
    rw [hk, hcalls, List.append_nil]

/-- After `plic_init` and any sequence of calls: the record bit, the enable bit and the priority
of a source say which way the last successful call on it went; its dispatch, whatever the handlers
do, comes to running the handler registered last with its parameter, or none, and completing the
interrupt; and a rejected call, or a call on another number, changes none of these. -/
theorem agreement (enable : ℕ → Word) (threshold : Word) (meie mie : Bool)
    (inService : ℕ → Bool) (calls : List IrqCall) (i : ℕ) (h1 : 1 ≤ i) (hi : i < NR_IRQS.toNat) :
    Total IrqState.exec (plicInit >>= fun _ => Prog.forEach IrqCall.code calls)
      (fun _ k =>
        (bit k.irqRec i = true ↔ SwitchedOn calls i) ∧
        (bit k.enable i = true ↔ SwitchedOn calls i) ∧
        (k.priority i = 1 ↔ SwitchedOn calls i) ∧
        (∀ body, ∃ n, ∀ xs, (genericHandleIrq body i).run IrqState.exec k xs =
          (dispatched body calls i).run IrqState.exec k fun m => xs (m + n)) ∧
        ∀ c : IrqCall, Total IrqState.exec c.function
          (fun ret k' => (ret = 0 ↔ c.Succeeds) ∧
            (ret = -1 ∨ c.irqNo ≠ i → k'.line i = k.line i)) k)
      (.boot enable threshold meie mie inService) := by
  refine Total.bind ((total_plicInit enable threshold meie mie inService).mono ?_)
  rintro - k ⟨hpresent, hlines⟩
  refine (total_calls hpresent (hlines i h1 hi)).mono fun _ k hk => ?_
  have hagrees : (k.line i).Agrees calls i := by
    rw [hk]
    exact agrees_lineAfter calls i
  refine ⟨hagrees.recorded, hagrees.enabled, hagrees.priority, fun body => ?_, fun c => ?_⟩
  · obtain ⟨n, hrun⟩ := run_genericHandleIrq body hi k
    have hentry : registered calls i = if k.handler i = 0 then none
      else some (k.handler i, k.param i) := hagrees.entry
    refine ⟨n, fun xs => (hrun xs).trans ?_⟩
    rw [dispatched, hentry]
    split <;> rfl
  · refine (total_function c k).mono ?_
    rintro ret k' ⟨rfl, rfl⟩
    by_cases hc : c.Succeeds
    · rw [if_pos hc]
      refine ⟨iff_of_true rfl hc, fun h => ?_⟩
      have hne : i ≠ c.irqNo := (h.resolve_left (by decide)).symm
      rw [line_apply, if_neg hne]
    · rw [if_neg hc]
      refine ⟨iff_of_false (by decide) hc, fun _ => ?_⟩
      rw [IrqCall.apply, if_neg hc]

/-- A source that has been requested and disabled is off, and still has its handler: one that
writes its parameter where the pointer says. -/
theorem agreement_mailbox :
    Total IrqState.exec (plicInit >>= fun _ =>
      Prog.forEach IrqCall.code [.request 146 1 7 none, .free 22, .disable 146])
      (fun _ k => ¬bit k.enable 146 = true ∧ ∀ xs, ∃ k',
        (genericHandleIrq (fun h p => access (.writePriority h (BitVec.ofNat 32 p))) 146).run
          IrqState.exec k xs = some (0, k') ∧ k'.priority 1 = 7)
      (.boot (fun _ => 0) 0 false false fun _ => false) := by
  refine (agreement (fun _ => 0) 0 false false (fun _ => false)
    [.request 146 1 7 none, .free 22, .disable 146] 146 (by decide) (by decide)).mono ?_
  intro _ k h
  have hoff : ¬bit k.enable 146 = true := h.2.1.not.mpr (by decide)
  obtain ⟨n, hrun⟩ := h.2.2.2.1 fun h p => access (.writePriority h (BitVec.ofNat 32 p))
  refine ⟨hoff, fun xs => ⟨_, (hrun xs).trans rfl, ?_⟩⟩
  -- the completion finds the source disabled and changes nothing
  exact (congrArg (fun k : IrqState => k.priority 1) (if_neg hoff)).trans rfl

end Irq

end C906Firmware
