import C906Firmware.Mailbox.RxChannel

/-!
# The proof outline of `msgbox_poll`

`msgbox_poll` and `msgbox_irq_handler` over the receive channel, for any callback that leaves
the channel alone. `PollContract` is what a contract has to provide: the outline is then the
same for the task alone, for the task preempted by the handler, and for the handler
(`PollContract.poll`, `PollContract.irqHandler`).
-/

namespace C906Firmware

open Interaction

namespace RxChannel

/-- What the outline of `msgbox_poll` needs of a contract: the channel's meaning of accesses,
nothing that the assertions do not give, and, where words may not be lost or may be taken by
another context, the conditions that exclude it. -/
structure PollContract (C : Contract Ret RxChannel Answer) (c strict preempted : Bool) :
    Prop where
  exec : C.exec = RxChannel.exec
  inv : ∀ p k, At c strict preempted p k → C.inv k
  ok : ∀ o k, C.ok o k
  quirk : ∀ x k, C.cond (.readFifo .quirk) x k → strict = true → k.nonempty = false
  data : ∀ x k, C.cond (.readFifo .data) x k → preempted = true → k.inIsr = c →
    k.nonempty = true

namespace PollContract

variable {C : Contract Ret RxChannel Answer} {c strict preempted : Bool}
variable {α : Type} {Q : α → RxChannel → Prop} {k : RxChannel}

/-- An access that does not concern the channel, at any point. -/
theorem foreign (hC : PollContract C c strict preempted) (p : Point) {o : Op}
    (ho : Foreign o) {f : Ret o → Code α} (hk : At c strict preempted p k)
    (hf : ∀ r k, At c strict preempted p k → Outline C (At c strict preempted) (f r) Q k) :
    Outline C (At c strict preempted) (.act o f) Q k := by
  refine Outline.act p hk (hC.inv p) (fun k _ => hC.ok o k) fun k x hk _ => ?_
  refine hf _ _ ?_
  rw [hC.exec]
  exact hk.foreign ho x

/-- A program that does not concern the channel, at any point. -/
theorem only_foreign (hC : PollContract C c strict preempted) (p : Point) {q : Code α}
    (hq : q.Only Foreign) (hk : At c strict preempted p k) :
    Outline C (At c strict preempted) q (fun _ => At c strict preempted p) k := by
  refine Outline.of_only p (hC.inv p) (fun o k _ _ => hC.ok o k) (fun o x k ho hk _ => ?_) hq hk
  rw [hC.exec]
  exact hk.foreign ho x

/-- The end of a piece of code, at any point. -/
theorem ret (hC : PollContract C c strict preempted) (p : Point) {a : α}
    (hk : At c strict preempted p k) (hQ : ∀ k, At c strict preempted p k → Q a k) :
    Outline C (At c strict preempted) (.ret a) Q k :=
  Outline.ret p hk (hC.inv p) hQ

/-- The read of the pending bit. -/
theorem pending (hC : PollContract C c strict preempted) {f : Word → Code α}
    (hk : k.Quiet c strict)
    (h0 : ∀ k, Quiet k c strict → Outline C (At c strict preempted) (f 0) Q k)
    (h1 : ∀ k, At c strict preempted .pending k → Outline C (At c strict preempted) (f 1) Q k) :
    Outline C (At c strict preempted) (msgboxPending >>= f) Q k := by
  simp only [msgboxPending, regBitsGet, Prog.perform_bind, Prog.act_bind, Prog.pure_eq_ret,
    Prog.ret_bind]
  refine Outline.act .quiet hk (hC.inv .quiet) (fun k _ => hC.ok _ k) fun k x hk _ => ?_
  rw [hC.exec]
  simp only [RxChannel.exec, RD_IRQ_PEND_SHIFT, field_withField]
  cases hne : k.nonempty with
  | false => exact h0 k hk
  | true => exact h1 k ⟨hk, fun _ => hne⟩

/-- The counters of a word: the word stays held and is counted if it is not zero. -/
theorem count (hC : PollContract C c strict preempted) {n v : ℕ} {d : Word}
    (hk : k.Holding c strict n d v false) :
    Outline C (At c strict preempted) (msgboxCount d)
      (fun _ k => ∃ v, k.Holding c strict n d v (decide (d ≠ 0))) k := by
  by_cases hd : d = 0
  · simp only [msgboxCount, hd, ne_eq, not_true_eq_false, if_false]
    refine hC.ret (.holding n 0 v false) (hd ▸ hk) fun k hk => ⟨v, ?_⟩
    simpa using (show k.Holding c strict n 0 v false from hk)
  · simp only [msgboxCount, hd, ne_eq, not_false_eq_true, if_true, decide_true, set, get,
      Prog.perform_bind]
    refine hC.foreign (.holding n d v false) (by simp [Foreign]) hk fun _ k hk => ?_
    refine Outline.act (.holding n d v false) hk (hC.inv _) (fun k _ => hC.ok _ k)
      fun k x hk _ => ?_
    -- the value loaded is the one the assertion names, so the store adds one to it
    rw [hC.exec]
    simp only [RxChannel.exec]
    rw [show k.vars .rxCount = v from hk.count]
    refine Outline.act (.holding n d v false) hk (hC.inv _) (fun k _ => hC.ok _ k)
      fun k x hk _ => ?_
    rw [hC.exec]
    have hk' := hk.count_store x
    refine (hC.only_foreign (.holding n d _ true) ?_ hk').mono fun _ k hk => ⟨_, hk⟩
    simp [Foreign]

/-- The call of `rx_cb`, with a callback that leaves the channel alone. -/
theorem deliver (hC : PollContract C c strict preempted) {rx_cb : Word → Code Unit}
    (hcb : ∀ d, (rx_cb d).Only Foreign) {n v : ℕ} {d : Word}
    (hk : k.Holding c strict n d v (decide (d ≠ 0))) :
    Outline C (At c strict preempted) (msgboxDeliver rx_cb d)
      (fun _ k => k.Quiet c strict) k := by
  simp only [msgboxDeliver, get, Prog.perform_bind]
  refine Outline.act (.holding n d v _) hk (hC.inv _) (fun k _ => hC.ok _ k) fun k x hk _ => ?_
  rw [hC.exec]
  simp only [RxChannel.exec, hk.callback, ne_eq, not_false_eq_true, if_true]
  refine Outline.act (.holding n d v _) hk (hC.inv _) (fun k _ => hC.ok _ k) fun k x hk _ => ?_
  rw [hC.exec]
  exact hC.only_foreign .quiet (hcb d) (hk.deliver x)

/-- One round of the loop of `msgbox_poll`. -/
theorem poll_round (hC : PollContract C c strict preempted) {rx_cb : Word → Code Unit}
    (hcb : ∀ d, (rx_cb d).Only Foreign) (drained : ℕ) (hk : k.Quiet c strict) :
    Outline C (At c strict preempted) (msgboxPollRound rx_cb drained)
      (fun _ k => k.Quiet c strict) k := by
  refine hC.pending hk (fun k hk => ?_) fun k hk => ?_
  · -- nothing was pending when the status was read; a word may have come since
    simp only [if_true, Prog.perform_bind]
    refine Outline.act .quiet hk (hC.inv _) (fun k _ => hC.ok _ k) fun k x hk hx => ?_
    rw [hC.exec]
    exact hC.ret .quiet (hk.quirk x fun hs => hC.quirk x k hx hs) fun _ h => h
  · simp only [show ¬(1 : Word) = 0 by decide, if_false, Prog.perform_bind]
    refine Outline.act .pending hk (hC.inv _) (fun k _ => hC.ok _ k) fun k x hk hx => ?_
    rw [hC.exec]
    have hne : k.nonempty = true := by
      cases hp : preempted with
      | false => exact hk.2 hp
      | true => exact hC.data x k hx hp hk.1.context
    have hk' := hk.1.read x hne
    generalize (RxChannel.exec (.readFifo .data) x k).1 = d at hk' ⊢
    refine Outline.bind ((hC.only_foreign (.holding _ d _ false) ?_ hk').mono fun _ k hk => ?_)
    · simp [regBitsSet, Foreign]
    refine Outline.bind ((hC.count hk).mono ?_)
    rintro - k ⟨v, hk⟩
    refine Outline.bind ((hC.deliver hcb hk).mono fun _ k hk => ?_)
    exact hC.ret .quiet hk fun _ h => h

/-- **Outline of `msgbox_poll`**, for any bound on its loop. -/
theorem poll (hC : PollContract C c strict preempted) {rx_cb : Word → Code Unit}
    (hcb : ∀ d, (rx_cb d).Only Foreign) (fuel : ℕ) (hk : k.Quiet c strict) :
    Outline C (At c strict preempted) (msgboxPoll rx_cb fuel) (fun _ k => k.Quiet c strict) k := by
  have hloop := Triple.iterate (C := C) (F := At c strict preempted)
    (f := msgboxPollRound rx_cb) (I := fun _ k => Quiet k c strict)
    (Q := fun _ k => Quiet k c strict)
    (fun _ k hk => Outline.stop .quiet hk (hC.inv _))
    (fun _ k hk => hC.ret .quiet hk fun _ h => h)
    (fun drained k hk => (hC.poll_round hcb drained hk).mono fun r k hk => by cases r <;> exact hk)
    fuel 0
  refine Outline.bind ((hloop k hk).mono fun drained k hk => ?_)
  refine hC.only_foreign .quiet ?_ hk
  simp [msgboxPollLog, msgboxPending, regBitsGet, Foreign]

/-- **Outline of `msgbox_irq_handler`**. -/
theorem irqHandler (hC : PollContract C c strict preempted) {rx_cb : Word → Code Unit}
    (hcb : ∀ d, (rx_cb d).Only Foreign) (fuel : ℕ) (hk : k.Quiet c strict) :
    Outline C (At c strict preempted) (msgboxIrqHandler rx_cb fuel)
      (fun _ k => k.Quiet c strict) k := by
  have hround : ∀ loops k, Quiet k c strict →
      Outline C (At c strict preempted) (msgboxIrqRound rx_cb fuel loops)
        (fun _ k => k.Quiet c strict) k := by
    intro loops k hk
    refine Outline.bind ((hC.poll hcb fuel hk).mono fun _ k hk => ?_)
    exact hC.pending hk (fun k hk => hC.ret .quiet hk fun _ h => h)
      fun k hk => hC.ret .quiet hk.1 fun _ h => h
  have hloop := Triple.iterate (C := C) (F := At c strict preempted)
    (f := msgboxIrqRound rx_cb fuel) (I := fun _ k => Quiet k c strict)
    (Q := fun _ k => Quiet k c strict)
    (fun _ k hk => Outline.stop .quiet hk (hC.inv _))
    (fun _ k hk => hC.ret .quiet hk fun _ h => h)
    (fun loops k hk => (hround loops k hk).mono fun r k hk => by cases r <;> exact hk)
    32 0
  refine Outline.bind ((hloop k hk).mono fun _ k hk => ?_)
  refine hC.only_foreign .quiet ?_ hk
  simp [msgboxIrqTail, msgboxPending, regBitsGet, Foreign]

end PollContract

end RxChannel

end C906Firmware
