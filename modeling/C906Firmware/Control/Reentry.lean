import C906Firmware.Control.LockPath

/-!
# The interrupt handler and the device lock

The task creates the echo endpoint and polls, with interrupts enabled outside of the kernel's
critical sections; the mailbox interrupt may be taken between any two of its accesses and runs
`msgbox_irq_handler` to completion. If it is taken while the task holds the device lock, and a
word the handler drains notifies the receive queue, the handler asks for the lock and waits for
the task it has interrupted. `safe_throughout` says that this is the only way to fail: if no
such word is drained while the task holds the lock, no lock is asked for that the interrupted
task holds, and no virtqueue is entered that is in use.
-/

namespace C906Firmware

open Interaction

namespace Control

/-- What the task runs with interrupts enabled. -/
inductive TaskCall
  | createEpt
  | poll
  deriving DecidableEq, Repr

/-- The task and the mailbox interrupt on one processor. -/
def core (fuel : ℕ) : Machine Ret Control Answer Empty TaskCall Unit where
  exec := exec
  env := Empty.elim
  call
    | .createEpt => rpmsgCreateEpt fuel >>= fun _ => pure ()
    | .poll => platformPoll fuel
  handler := fun _ => platformIrqHandler fuel
  takes k := k.mie && !k.inIsr
  enter k := { k with mie := false, inIsr := true }
  leave k := { k with mie := true, inIsr := false }

/-- The access made next, if any, is safe. -/
def NoReentry (s : Config Ret Control) : Prop := ∀ o ∈ s.next, SafeAccess o s.k

instance : DecidablePred NoReentry := fun s =>
  inferInstanceAs (Decidable (∀ o ∈ s.next, SafeAccess o s.k))

/-- A word that the handler reads while the task holds the lock does not notify the receive
queue. -/
def SparesHolder (s : Config Ret Control) : Act Answer Empty TaskCall Unit → Prop
  | .run x => s.next = some (.readFifo .data) → s.k.inIsr = true → s.k.holder = some false →
      ¬s.k.wiring.Notifies .rvq x.word
  | _ => True

instance (s : Config Ret Control) :
    ∀ a : Act Answer Empty TaskCall Unit, Decidable (SparesHolder s a)
  | .run _ => inferInstanceAs (Decidable (_ → _ → _ → _))
  | .env e => e.elim
  | .call _ => isTrue trivial
  | .irq _ => isTrue trivial

/-- What `SparesHolder` grants. -/
private def holderGrant : Grant Op Control Answer Empty TaskCall Unit where
  access o x k := o = .readFifo .data → k.inIsr = true → k.holder = some false →
    ¬k.wiring.Notifies .rvq x.word

/-- What holds of every state of a run: some lock view, in one of the two contexts. -/
private def Disciplined (w : Wiring) (k : Control) : Prop := ∃ c i, Locked c w i k

private abbrev coreContract (fuel : ℕ) (w : Wiring) : Contract Ret Control Answer :=
  (core fuel).contract (Disciplined w) SafeAccess holderGrant.access

private theorem core_lockContract (fuel : ℕ) (c : Bool) (w : Wiring) :
    LockContract (coreContract fuel w) c w where
  exec := rfl
  inv := fun i _ hk => ⟨c, i, hk⟩
  ok := fun _ _ h => h

theorem MailboxOp.harmless {o : Op} (ho : MailboxOp o) : Harmless o := by
  cases o with
  | get v => rcases ho with rfl | rfl | rfl | rfl | rfl | rfl | rfl <;> simp [Harmless]
  | set v n => rcases ho with rfl | rfl | rfl | rfl | rfl <;> simp [Harmless]
  | listZero l => exact ho.elim
  | listInit l => exact ho.elim
  | listAdd l => exact ho.elim
  | listDel l => exact ho.elim
  | _ => trivial

section Poll

variable {C : Contract Ret Control Answer} {c : Bool} {w : Wiring}

/-- The driver's own accesses keep every assertion about the lock. -/
theorem LockContract.mailboxOp (hC : LockContract C c w) (i : LockView × Option Word) (o : Op)
    (x : Answer) (k : Control) (ho : MailboxOp o) (hk : Locked c w i k) :
    Locked c w i (C.exec o x k).2 := by
  rw [hC.exec]
  exact hk.harmless (MailboxOp.harmless ho) x

/-- With the lock free, the poll may run the receive callback for every word. -/
theorem LockContract.pollFrame_free (hC : LockContract C c w) (fuel : ℕ) :
    PollFrame C (Locked c w) (.free, none) (fun _ => (.free, none)) (msgboxRx fuel) where
  inv := hC.inv
  ok := fun o k ho => hC.ok o k ((MailboxOp.harmless ho).safe k)
  exec := hC.mailboxOp
  data_ok := fun k => hC.ok _ k trivial
  data := fun x k hk _ => by
    rw [hC.exec]
    exact hk.harmless (o := .readFifo .data) trivial x
  deliver := fun d k hk => by
    refine outline_deliver hC.inv (fun o k ho => hC.ok o k ((MailboxOp.harmless ho).safe k))
      hC.mailboxOp (fun _ hk => hk) d (fun k hk => ?_) hk
    exact outline_msgboxRx hC.exec (hC.inv _)
      (fun v k _ hv => hC.ok _ k (by rcases hv with ⟨q, rfl | rfl⟩ <;> trivial))
      (fun k _ => hC.ok _ k trivial) (fun _ hk => hk.wired) fuel d
      (fun k hk _ => hC.rxCallback fuel k hk) hk

/-- With the lock held by the task, the handler's poll runs no callback if its words spare the
receive queue. -/
theorem LockContract.pollFrame_held (hC : LockContract C c w) (fuel : ℕ) (v : LockView)
    (hcond : ∀ x k, Locked c w (v, none) k → C.cond (.readFifo .data) x k →
      ¬w.Notifies .rvq x.word) :
    PollFrame C (Locked c w) (v, none) (fun d => (v, some d)) (msgboxRx fuel) where
  inv := hC.inv
  ok := fun o k ho => hC.ok o k ((MailboxOp.harmless ho).safe k)
  exec := hC.mailboxOp
  data_ok := fun k => hC.ok _ k trivial
  data := fun x k hk hx => by
    rw [hC.exec]
    refine ⟨hk.context, hk.wired, hk.view, hk.valid, fun d hd => ?_⟩
    cases hd
    exact hcond x k hk hx
  deliver := fun d k hk => by
    have hdrop : ∀ k, Locked c w (v, some d) k → Locked c w (v, none) k :=
      fun _ hk => ⟨hk.context, hk.wired, hk.view, hk.valid, nofun⟩
    refine outline_deliver hC.inv (fun o k ho => hC.ok o k ((MailboxOp.harmless ho).safe k))
      hC.mailboxOp hdrop d (fun k hk => ?_) hk
    have hrun := outline_msgboxRx (F := Locked c w) hC.exec (hC.inv (v, some d))
      (fun v k _ hv => hC.ok _ k (by rcases hv with ⟨q, rfl | rfl⟩ <;> trivial))
      (fun k _ => hC.ok _ k trivial) (fun _ hk => hk.wired) fuel d
      (fun k hk hn => absurd hn (hk.spares d rfl)) hk
    exact hrun.mono fun _ k hk => hdrop k hk

end Poll

/-- The handler gives the lock view back as it found it. -/
private theorem outline_handler (fuel : ℕ) (w : Wiring) {v : LockView} {k : Control}
    (hk : Locked true w (v, none) k) (hv : v = .free ∨ v.holder = some false) :
    Outline (coreContract fuel w) (Locked true w) (platformIrqHandler fuel)
      (fun _ => Locked true w (v, none)) k := by
  have hC := core_lockContract fuel true w
  rcases hv with rfl | hheld
  · exact (hC.pollFrame_free fuel).irqHandler fuel hk
  · refine (hC.pollFrame_held fuel v fun x k hk hx => ?_).irqHandler fuel hk
    have hholder : k.holder = some false := (congrArg LockView.holder hk.view).trans hheld
    exact hk.wired ▸ hx rfl hk.context hholder

private theorem core_verified (fuel : ℕ) (w : Wiring) :
    Verified (core fuel) (Disciplined w) SafeAccess holderGrant (Locked false w) (Locked true w)
      (Locked false w (.free, none)) where
  env := fun e => e.elim
  call := by
    intro c k hk _
    have hC := core_lockContract fuel false w
    cases c with
    | createEpt => exact ((hC.createEpt fuel).bind fun _ => hC.ret _) k hk
    | poll => exact (hC.pollFrame_free fuel).poll fuel hk
  handler := by
    rintro - k ⟨c, i, hk⟩ htakes -
    have hisr : k.inIsr = false := by
      simp only [core, Bool.and_eq_true, Bool.not_eq_true'] at htakes
      exact htakes.2
    obtain rfl : c = false := hk.context.symm.trans hisr
    have hv : k.lockView = .free ∨ k.lockView.holder = some false := by
      rw [hk.view]
      exact hk.valid.resolve_left (by simp)
    have henter : Locked true w (k.lockView, none) ((core fuel).enter k) :=
      ⟨rfl, hk.wired, rfl, .inl rfl, nofun⟩
    refine (outline_handler fuel w henter hv).mono fun _ k' hk' j hj => ?_
    exact ⟨rfl, hk'.wired, hk'.view.trans hj.view, hj.valid, hj.spares⟩

/-- **The handler never asks for the lock while the task holds it, and no virtqueue in use is
entered**, along every schedule in which the words that the handler reads while the task holds
the lock do not notify the receive queue: whatever the other words and the rings hold. -/
theorem safe_throughout (fuel : ℕ) (k : Control) (htask : k.inIsr = false)
    (hfree : k.lockView = .free) (as : List (Act Answer Empty TaskCall Unit))
    (has : EachStep (core fuel).step SparesHolder (.start k) as) :
    Throughout (core fuel).step NoReentry (.start k) as := by
  have hgrant : EachStep (core fuel).step (holderGrant.Allows (core fuel)) (.start k) as := by
    refine has.mono fun s a ha => ?_
    cases a with
    | run x => exact fun o ho hq => ha (hq ▸ ho)
    | env e => exact e.elim
    | call c => exact fun _ => trivial
    | irq h => exact fun _ _ => trivial
  have hstart : Locked false k.wiring (.free, none) k :=
    ⟨htask, rfl, hfree, .inr (.inl rfl), nofun⟩
  have hret := (core_lockContract fuel false k.wiring).ret () k hstart
  exact ((core_verified fuel k.wiring).throughout hret hgrant).mono fun _ h => h.2

/-- The task holds the lock in `rpmsg_create_ept` when a kick of the send queue arrives: the
handler runs to its end and the task goes on. -/
theorem safe_throughout_svq :
    Throughout (core 3).step NoReentry (.start ready)
      (.call .createEpt :: List.replicate 9 (.run default) ++
        [.irq (), .run { word := 1 }, .run { word := 1 }] ++
        List.replicate 50 (.run default)) :=
  safe_throughout 3 ready rfl (LockView.ext rfl rfl rfl) _ (by decide +kernel)

/-- The task holds the lock in `rpmsg_create_ept` when a kick of the receive queue arrives:
the handler asks for the lock. -/
theorem handler_asks_for_held_lock :
    ¬∀ (fuel : ℕ) (k : Control), k.inIsr = false → k.lockView = .free →
      ∀ as : List (Act Answer Empty TaskCall Unit),
        Throughout (core fuel).step NoReentry (.start k) as := by
  intro h
  have hend := (h 3 ready rfl (LockView.ext rfl rfl rfl)
    (.call .createEpt :: List.replicate 9 (.run default) ++
      [.irq (), .run { word := 1 }, .run { word := 2 }] ++
      List.replicate 17 (.run default))).last
  exact absurd hend (by decide +kernel)

end Control

end C906Firmware
