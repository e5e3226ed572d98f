import C906Firmware.Interaction.Preempt
import C906Firmware.Mailbox.PollFrame
import C906Firmware.Model.Platform

/-!
# Control state

What decides where the firmware's code goes and whether it may be interrupted: the interrupt
enable bits, the private variables, the holder of the device lock, and the two lists the
callback chain walks. What is read from registers and from shared memory is left to the
environment (`Answer`), so a statement about all schedules is one about every sequence of
mailbox words and every content of the rings.

`Wiring` is what `msgbox_rx` finds out about a word: which virtio device, vrings and callbacks
there are. `outline_msgboxRx` reduces `msgbox_rx` to the receive callback of the virtqueue, for
the words that notify it, and to nothing for the others.
-/

namespace C906Firmware

open Interaction

/-- The control state. -/
structure Control where
  /-- `mstatus.MIE` -/
  mie : Bool
  /-- The mailbox interrupt has been requested. -/
  irqOn : Bool
  inIsr : Bool
  /-- Who has taken the device lock: the task (`false`) or the handler (`true`). -/
  holder : Option Bool
  /-- The number of nodes of a list, if its head has been initialised. -/
  lists : ListHead → Option ℕ
  vars : Var → ℕ

namespace Control

/-- What each access does to the control state. -/
def exec : (o : Op) → Answer → Control → Ret o × Control
  | .clearMie, _, k => ((), { k with mie := false })
  | .setMie, _, k => ((), { k with mie := true })
  | .irqRequest, _, k => ((), { k with irqOn := true, mie := true })
  | .get v, _, k => (k.vars v, k)
  | .set .lockCount n, _, k =>
    ((), { k with
      holder := if n = 0 then some k.inIsr else none
      vars := Function.update k.vars .lockCount n })
  | .set v n, _, k => ((), { k with vars := Function.update k.vars v n })
  | .walk l, x, k => ((k.lists l).getD x.nat, k)
  | .listZero l, _, k => ((), { k with lists := Function.update k.lists l none })
  | .listInit l, _, k => ((), { k with lists := Function.update k.lists l (some 0) })
  | .listAdd l, _, k =>
    ((), { k with lists := Function.update k.lists l ((k.lists l).map (· + 1)) })
  | .listDel l, _, k =>
    ((), { k with lists := Function.update k.lists l ((k.lists l).map (· - 1)) })
  | o, x, k => (x.at o, k)

variable {k : Control}

@[simp]
theorem exec_get (v : Var) (x : Answer) : exec (.get v) x k = (k.vars v, k) := rfl

@[simp]
theorem exec_walk (l : ListHead) (x : Answer) :
    exec (.walk l) x k = ((k.lists l).getD x.nat, k) := rfl

/-- A write to a variable other than the lock's count. -/
theorem exec_set {v : Var} (hv : v ≠ .lockCount) (n : ℕ) (x : Answer) :
    exec (.set v n) x k = ((), { k with vars := Function.update k.vars v n }) := by
  cases v <;> first | rfl | exact absurd rfl hv

/-- The firmware after initialisation: a virtio device with notification ids 1 and 2, the
callbacks of its virtqueues, and the device lock free. -/
def ready : Control where
  mie := true
  irqOn := true
  inIsr := false
  holder := none
  lists := fun _ => some 1
  vars := fun
    | .rxCb | .lockCount | .vqCallback _ | .vqRing _ _ | .vqShmIo _ => 1
    | .eptRdev .echo | .notifyId .svq => 1
    | .notifyId .rvq => 2
    | .eptDest _ => RPMSG_ADDR_ANY
    | _ => 0

/-! ### The way of a word to the virtqueues -/

/-- What decides which callbacks a word reaches: the number of virtio devices (of no meaning
before the list is initialised), and the notification ids and callbacks of the two vrings. -/
structure Wiring where
  devices : Option ℕ
  notifyId : Vq → ℕ
  callback : Vq → ℕ

/-- The wiring of a state. -/
def wiring (k : Control) : Wiring where
  devices := k.lists .vdevs
  notifyId := fun q => k.vars (.notifyId q)
  callback := fun q => k.vars (.vqCallback q)

/-- The word makes `rproc_virtio_notified` call the callback of the virtqueue. -/
def Wiring.Notifies (w : Wiring) (q : Vq) (data : Word) : Prop :=
  w.devices ≠ some 0 ∧ w.callback q ≠ 0 ∧
    (w.notifyId q = data.toNat ∨ data.toNat = 0 ∨ data.toNat = RSC_NOTIFY_ID_ANY)

instance (w : Wiring) (q : Vq) (data : Word) : Decidable (w.Notifies q data) :=
  inferInstanceAs (Decidable (_ ∧ _ ∧ _))

section Notification

variable {ι : Type} {C : Contract Ret Control Answer} {F : ι → Control → Prop} {i : ι}
  {w : Wiring}

/-- One vring of `rproc_virtio_notified`: its callback runs if the word notifies it. -/
private theorem outline_notifiedVring (hexec : C.exec = exec) (hinv : ∀ k, F i k → C.inv k)
    (hok : ∀ v k, F i k → (∃ q, v = .notifyId q ∨ v = .vqCallback q) → C.ok (.get v) k)
    (hw : ∀ k, F i k → k.wiring = w) (hdev : w.devices ≠ some 0) (fuel : ℕ) (data : Word) (q : Vq)
    (hcb : ∀ k, F i k → w.Notifies q data → Outline C F (vqCallback fuel q) (fun _ => F i) k)
    {k : Control} (hk : F i k) :
    Outline C F (rprocVirtioNotifiedVring fuel data q) (fun _ => F i) k := by
  simp only [rprocVirtioNotifiedVring, virtqueueNotification, get, Prog.perform_bind]
  refine Outline.act i hk hinv (fun k hk => hok _ k hk ⟨q, .inl rfl⟩) fun k x hk _ => ?_
  rw [hexec]
  have hid : k.vars (.notifyId q) = w.notifyId q := congrFun (congrArg Wiring.notifyId (hw k hk)) q
  simp only [exec_get, hid]
  split
  · next hmatch =>
    refine Outline.act i hk hinv (fun k hk => hok _ k hk ⟨q, .inr rfl⟩) fun k x hk _ => ?_
    rw [hexec]
    have hc : k.vars (.vqCallback q) = w.callback q :=
      congrFun (congrArg Wiring.callback (hw k hk)) q
    simp only [exec_get, hc]
    split
    · next hne => exact hcb k hk ⟨hdev, hne, hmatch⟩
    · exact Outline.ret i hk hinv fun _ h => h
  · exact Outline.ret i hk hinv fun _ h => h

/-- **`msgbox_rx`** keeps an assertion that fixes the wiring, if the receive callback keeps it
for the words that notify the receive queue. -/
theorem outline_msgboxRx (hexec : C.exec = exec) (hinv : ∀ k, F i k → C.inv k)
    (hok : ∀ v k, F i k → (∃ q, v = .notifyId q ∨ v = .vqCallback q) → C.ok (.get v) k)
    (hwalk : ∀ k, F i k → C.ok (.walk .vdevs) k)
    (hw : ∀ k, F i k → k.wiring = w) (fuel : ℕ) (data : Word)
    (hrx : ∀ k, F i k → w.Notifies .rvq data →
      Outline C F (rpmsgVirtioRxCallback fuel) (fun _ => F i) k)
    {k : Control} (hk : F i k) :
    Outline C F (msgboxRx fuel data) (fun _ => F i) k := by
  simp only [msgboxRx, remoteprocGetNotification, Prog.perform_bind]
  refine Outline.act i hk hinv hwalk fun k x hk _ => ?_
  rw [hexec]
  have hdev : k.lists .vdevs = w.devices := congrArg Wiring.devices (hw k hk)
  simp only [exec_walk, hdev]
  split
  · next hne =>
    have hdev : w.devices ≠ some 0 := by
      rintro h
      exact hne (by rw [h]; rfl)
    have hret : ∀ k, F i k → Outline C F (.ret ()) (fun _ => F i) k :=
      fun k hk => Outline.ret i hk hinv fun _ h => h
    refine Triple.forEach hret (fun q _ k hk => ?_) k hk
    refine outline_notifiedVring hexec hinv hok hw hdev fuel data q (fun k hk hn => ?_) hk
    cases q with
    | svq => exact hret k hk
    | rvq => exact hrx k hk hn
  · exact Outline.ret i hk hinv fun _ h => h

end Notification

/-- What a round of the receive loop does after it has given the buffer back. -/
def rxRoundRest : Code (Buffer ⊕ Unit) := do
  let next ← virtqueueGetAvailableBuffer .rvq
  match next with
  | some b' => do
    metalMutexRelease
    pure (.inl b')
  | none => do
    virtqueueKick .rvq
    metalMutexRelease
    pure (.inr ())

end Control

end C906Firmware
