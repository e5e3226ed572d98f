import C906Firmware.Mailbox.Lossless

/-!
# The polling task preempted by the mailbox interrupt

The task runs `msgbox_poll` while the interrupt, which may be taken whenever the FIFO is not
empty, runs `msgbox_irq_handler` to completion between any two of its accesses. The two share
the FIFO and the counters without exclusion, and two windows are open:

* between the task's read of the pending bit and its read of the FIFO the handler may take the
  last word, and the task then passes on whatever an empty FIFO reads as;
* between the task's read of a word and its call of `rx_cb` the handler may pass on a later
  word, and may be counted over.

Outside of these windows (`WindowsClosed`) deliveries are genuine, in the order of arrival, and
counted (`inArrivalOrder_of_windowsClosed`).
-/

namespace C906Firmware

open Interaction

namespace RxChannel

/-- The task preempted by the handler. An interrupt carries the bound of the handler's
loops. -/
def taskPreempted (cb : RxCallback) : Machine Ret RxChannel Answer Word DrainCall ℕ where
  exec := exec
  env := push
  call := DrainCall.code cb
  handler := msgboxIrqHandler cb.run
  takes := fun k => !k.inIsr && k.nonempty
  enter := fun k => { k with inIsr := true }
  leave := fun k => { k with inIsr := false }

/-- Every call of `rx_cb` passed on a word that had been popped, each word once and in the
order of the pushes, and when nothing runs `rx_count` is the number of non-zero words passed
on (modulo the width of the counter). -/
def FaithfulDelivery (s : Config Ret RxChannel) : Prop :=
  s.k.InArrivalOrder ∧ (s.Idle → s.k.vars .rxCount = s.k.nonzeroCalls % 2 ^ 32)

/-- The two windows stay closed: no interrupt is taken while the task holds a word it has not
passed to `rx_cb`, and the task's read of a word finds the FIFO not empty. -/
def WindowsClosed (s : Config Ret RxChannel) : Act Answer Word DrainCall ℕ → Prop
  | .run _ => s.next = some (.readFifo .data) → s.k.inIsr = false → s.k.nonempty = true
  | .irq _ => s.bg = none → s.k.inIsr = false → s.k.nonempty = true → s.k.held false = none
  | _ => True

instance (s : Config Ret RxChannel) :
    ∀ a : Act Answer Word DrainCall ℕ, Decidable (WindowsClosed s a)
  | .run _ => inferInstanceAs (Decidable (_ → _ → _))
  | .irq _ => inferInstanceAs (Decidable (_ → _ → _ → _))
  | .env _ => isTrue trivial
  | .call _ => isTrue trivial

/-- What `WindowsClosed` grants. -/
private def windowGrant : Grant Op RxChannel Answer Word DrainCall ℕ where
  access o _ k := o = .readFifo .data → k.inIsr = false → k.nonempty = true
  irq _ k := k.held false = none

/-- Some assertion of the task or of the handler holds. -/
private def Somewhere (k : RxChannel) : Prop :=
  (∃ p, At false false true p k) ∨ ∃ p, At true false false p k

/-- Wherever the two are, the words have been delivered in the order of arrival. -/
private theorem At.inArrivalOrder {c preempted : Bool} {p : Point} {k : RxChannel}
    (h : At c false preempted p k) : k.InArrivalOrder := by
  have hledger {n : ℕ} (hl : Ledger k.pushed k.calls false n) (hn : n ≤ k.popped) :
      k.InArrivalOrder :=
    ⟨fun s hs => (hl.genuine s hs).imp fun m hm => ⟨by omega, hm.2⟩, hl.ordered⟩
  cases p with
  | quiet => exact hledger h.ledger le_rfl
  | pending => exact hledger h.1.ledger le_rfl
  | holding n d v counted => exact hledger h.ledger (by rw [h.popped]; omega)

/-- It is known which of the two is running. -/
private theorem At.context {c strict preempted : Bool} {p : Point} {k : RxChannel}
    (h : At c strict preempted p k) : k.inIsr = c := by
  cases p with
  | quiet => exact Quiet.context h
  | pending => exact Quiet.context h.1
  | holding n d v counted => exact Holding.context h

/-- Where no word is held, the assertion is that of the ends of the polls. -/
private theorem At.quiet_of_held {c strict preempted : Bool} {p : Point} {k : RxChannel}
    (h : At c strict preempted p k) (hk : k.held c = none) : k.Quiet c strict := by
  cases p with
  | quiet => exact h
  | pending => exact h.1
  | holding n d v counted => simp [Holding.held h] at hk

private theorem task_contract (cb : RxCallback) :
    PollContract ((taskPreempted cb).contract Somewhere (fun _ _ => True) windowGrant.access)
      false false true where
  exec := rfl
  inv := fun p _ h => .inl ⟨p, h⟩
  ok := fun _ _ => trivial
  quirk := fun _ _ _ h => absurd h (by simp)
  data := fun _ _ h _ hc => h rfl hc

private theorem handler_contract (cb : RxCallback) :
    PollContract ((taskPreempted cb).contract Somewhere (fun _ _ => True) windowGrant.access)
      true false false where
  exec := rfl
  inv := fun p _ h => .inr ⟨p, h⟩
  ok := fun _ _ => trivial
  quirk := fun _ _ _ h => absurd h (by simp)
  data := fun _ _ _ h _ => absurd h (by simp)

private theorem taskPreempted_verified (cb : RxCallback) :
    Verified (taskPreempted cb) Somewhere (fun _ _ => True) windowGrant
      (At false false true) (At true false false) (fun k => Quiet k false false) where
  env := fun w _ _ _ => ⟨fun _ h => At.push h w, fun _ h => At.push h w⟩
  call := by
    intro c k hk _
    cases c with
    | poll fuel => exact (task_contract cb).poll cb.foreign fuel hk
    | irqHandler fuel => exact (task_contract cb).irqHandler cb.foreign fuel hk
  handler := by
    intro fuel k hk ht (hheld : k.held false = none)
    simp only [taskPreempted, Bool.and_eq_true, Bool.not_eq_true'] at ht
    have hq : k.Quiet false false := by
      rcases hk with ⟨p, hp⟩ | ⟨p, hp⟩
      · exact hp.quiet_of_held hheld
      · exact absurd (hp.context.symm.trans ht.1) (by simp)
    have henter : ({ k with inIsr := true } : RxChannel).Quiet true false :=
      ⟨rfl, hq.held, hq.ledger, hq.callback, hq.count⟩
    refine ((handler_contract cb).irqHandler cb.foreign fuel henter).mono fun _ k' hk' p hp => ?_
    have hleave : ({ k' with inIsr := false } : RxChannel).Quiet false false :=
      ⟨rfl, hk'.held, hk'.ledger, hk'.callback, hk'.count⟩
    cases p with
    | quiet => exact hleave
    | pending => exact ⟨hleave, fun h => absurd h (by simp)⟩
    | holding n d v counted => simp [Holding.held hp] at hheld

/-- **Outside of the two windows every delivery is faithful.** For every callback, every
sequence of pushes, and every nesting of handler runs into the calls of the task. -/
theorem faithfulDelivery_of_windowsClosed (cb : RxCallback)
    (as : List (Act Answer Word DrainCall ℕ))
    (has : EachStep (taskPreempted cb).step WindowsClosed (.start init) as) :
    Throughout (taskPreempted cb).step FaithfulDelivery (.start init) as := by
  have hgrant : EachStep (taskPreempted cb).step (windowGrant.Allows (taskPreempted cb))
      (.start init) as := by
    refine has.mono fun s a ha => ?_
    cases a with
    | run x => exact fun o ho hq hc => ha (hq ▸ ho) hc
    | env w => trivial
    | call c => exact fun _ => trivial
    | irq h =>
      intro hbg ht
      simp only [taskPreempted, Bool.and_eq_true, Bool.not_eq_true'] at ht
      exact ha hbg ht.1 ht.2
  have hstart := (task_contract cb).ret (Q := fun _ k => Quiet k false false) (a := ())
    .quiet (init_quiet false) fun _ h => h
  have hinv := (taskPreempted_verified cb).throughout hstart hgrant
  have hidle := (taskPreempted_verified cb).throughout_idle hstart hgrant
  refine (hinv.and hidle).mono fun s hs => ?_
  obtain ⟨⟨⟨p, hp⟩ | ⟨p, hp⟩, -⟩, hq⟩ := hs
  · exact ⟨hp.inArrivalOrder, fun h => (hq h).count⟩
  · exact ⟨hp.inArrivalOrder, fun h => (hq h).count⟩

/-- A run with a nested interrupt in which the windows stay closed: the handler takes the word
the task has seen pending, and another word is pushed before the task reads. -/
theorem faithfulDelivery_refilled :
    Throughout (taskPreempted ⟨fun _ => pure (), fun _ => trivial⟩).step FaithfulDelivery
      (.start init)
      ([.env 7, .call (.poll 3), .run default, .irq 2] ++ List.replicate 26 (.run default) ++
        [.env 8] ++ List.replicate 20 (.run default)) :=
  faithfulDelivery_of_windowsClosed _ _ (by decide)

/-- The handler takes the word that the task has seen pending, and the task passes on what the
empty FIFO reads as. -/
theorem phantom_delivery :
    ¬∀ (cb : RxCallback) (as : List (Act Answer Word DrainCall ℕ)),
      Throughout (taskPreempted cb).step FaithfulDelivery (.start init) as := by
  intro h
  have hend := (h ⟨fun _ => pure (), fun _ => trivial⟩
    ([.env 7, .call (.poll 3), .run default, .irq 2] ++ List.replicate 26 (.run default) ++
      List.replicate 12 (.run { word := 9 }))).last.1
  obtain ⟨n, -, hn, -⟩ := hend.genuine ⟨none, 9⟩ (by decide)
  cases hn

end RxChannel

end C906Firmware
