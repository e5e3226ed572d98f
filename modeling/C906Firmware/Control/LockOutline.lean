import C906Firmware.Control.State

/-!
# The discipline of the device lock

Every use of a virtqueue by the RPMsg code stands between the acquisition and the release of
`rdev->lock`, and no function holds the lock when it returns. `LockView` is what the
discipline is about: the count of the semaphore, its holder, and the use flags of the
virtqueues. The outlines of this file say that the code takes `LockView.free` to
`LockView.free`, in the task as well as in the handler.
-/

namespace C906Firmware

open Interaction

namespace Control

/-- The lock and the virtqueues' use flags. -/
@[ext]
structure LockView where
  count : ℕ
  holder : Option Bool
  inuse : Vq → ℕ

namespace LockView

/-- The lock is free and no virtqueue is in use. -/
def free : LockView := ⟨1, none, fun _ => 0⟩

/-- The context `c` holds the lock and no virtqueue is in use. -/
def held (c : Bool) : LockView := ⟨0, some c, fun _ => 0⟩

/-- The context `c` holds the lock and uses a virtqueue. -/
def busy (c : Bool) (q : Vq) : LockView := ⟨0, some c, Function.update (fun _ => 0) q 1⟩

theorem held_valid (c : Bool) : c = true ∨ held c = free ∨ (held c).holder = some false := by
  cases c <;> simp [held]

theorem busy_valid (c : Bool) (q : Vq) :
    c = true ∨ busy c q = free ∨ (busy c q).holder = some false := by
  cases c <;> simp [busy]

end LockView

/-- The lock view of a state. -/
def lockView (k : Control) : LockView :=
  ⟨k.vars .lockCount, k.holder, fun q => k.vars (.vqInuse q)⟩

/-- The assertions: the context is `c`, the wiring is `w`, the lock view is `v`, and the word
in hand, if any, spares the receive queue. The task's own view is free or one in which it holds
the lock. -/
structure Locked (c : Bool) (w : Wiring) (i : LockView × Option Word) (k : Control) : Prop where
  context : k.inIsr = c
  wired : k.wiring = w
  view : k.lockView = i.1
  valid : c = true ∨ i.1 = .free ∨ i.1.holder = some false
  spares : ∀ d ∈ i.2, ¬w.Notifies .rvq d

/-- The access touches neither the lock, nor the use flags, nor the wiring. -/
def Harmless : Op → Prop
  | .get v => v ≠ .lockCount ∧ ∀ q, v ≠ .vqInuse q
  | .set v _ => v ≠ .lockCount ∧ ∀ q, v ≠ .vqInuse q ∧ v ≠ .notifyId q ∧ v ≠ .vqCallback q
  | .listZero _ | .listInit _ | .listAdd _ | .listDel _ => False
  | _ => True

/-- An access is safe if the handler does not ask for a lock that the task holds, and no
virtqueue in use is entered. -/
def SafeAccess : Op → Control → Prop
  | .get .lockCount, k => k.inIsr = true → k.holder ≠ some false
  | .get (.vqInuse q), k => k.vars (.vqInuse q) = 0
  | _, _ => True

instance (k : Control) : ∀ o : Op, Decidable (SafeAccess o k) := by
  intro o
  unfold SafeAccess
  split <;> infer_instance

variable {c : Bool} {w : Wiring} {i : LockView × Option Word} {k : Control}

/-- A harmless access can be made in any state. -/
theorem Harmless.safe {o : Op} (ho : Harmless o) (k : Control) : SafeAccess o k := by
  unfold SafeAccess
  split
  · exact absurd rfl ho.1
  · exact absurd rfl (ho.2 _)
  · trivial

/-- A harmless access keeps what is known of the lock. -/
theorem Locked.harmless {o : Op} (ho : Harmless o) (x : Answer) (h : Locked c w i k) :
    Locked c w i (exec o x k).2 := by
  cases o with
  | set v n =>
    obtain ⟨hlock, hrest⟩ := ho
    rw [exec_set hlock]
    refine ⟨h.context, ?_, ?_, h.valid, h.spares⟩
    · rw [← h.wired]
      simp only [wiring, Function.update_of_ne (Ne.symm (hrest _).2.1),
        Function.update_of_ne (Ne.symm (hrest _).2.2)]
    · rw [← h.view]
      simp only [lockView, Function.update_of_ne (Ne.symm hlock),
        Function.update_of_ne (Ne.symm (hrest _).1)]
  | listZero l => exact ho.elim
  | listInit l => exact ho.elim
  | listAdd l => exact ho.elim
  | listDel l => exact ho.elim
  | _ => exact ⟨h.context, h.wired, h.view, h.valid, h.spares⟩

/-- A write of the lock's count. -/
theorem Locked.set_lockCount {v v' : LockView} (h : Locked c w (v, none) k) {n : ℕ} (x : Answer)
    (hv : v' = ⟨n, if n = 0 then some c else none, v.inuse⟩)
    (hvalid : c = true ∨ v' = .free ∨ v'.holder = some false) :
    Locked c w (v', none) (exec (.set .lockCount n) x k).2 := by
  obtain rfl : k.lockView = v := h.view
  refine ⟨h.context, h.wired, ?_, hvalid, nofun⟩
  rw [hv]
  simp [exec, lockView, h.context]

/-- A write of a use flag. -/
theorem Locked.set_vqInuse {v v' : LockView} (h : Locked c w (v, none) k) {q : Vq} {n : ℕ}
    (x : Answer) (hv : v' = { v with inuse := Function.update v.inuse q n })
    (hvalid : c = true ∨ v' = .free ∨ v'.holder = some false) :
    Locked c w (v', none) (exec (.set (.vqInuse q) n) x k).2 := by
  obtain rfl : k.lockView = v := h.view
  refine ⟨h.context, h.wired, ?_, hvalid, nofun⟩
  rw [exec_set (by simp), hv]
  ext q'
  · rfl
  · rfl
  · by_cases hq : q' = q
    · subst hq
      simp [lockView]
    · have hne : Var.vqInuse q' ≠ .vqInuse q := by simpa using hq
      simp only [lockView, Function.update_of_ne hne, Function.update_of_ne hq]

/-- What the outlines need of a contract. -/
structure LockContract (C : Contract Ret Control Answer) (c : Bool) (w : Wiring) : Prop where
  exec : C.exec = Control.exec
  inv : ∀ i k, Locked c w i k → C.inv k
  ok : ∀ o k, SafeAccess o k → C.ok o k

namespace LockContract

variable {C : Contract Ret Control Answer} {α β : Type}

/-- The code takes the lock view from `u` to `v`. -/
def Takes (C : Contract Ret Control Answer) (c : Bool) (w : Wiring) (u v : LockView)
    (p : Code α) : Prop :=
  ∀ k, Locked c w (u, none) k → Outline C (Locked c w) p (fun _ => Locked c w (v, none)) k

variable {u v t : LockView} {p : Code α} {f : α → Code β}

/-- Sequencing, from one use of the lock to the next. -/
theorem Takes.bind (h : Takes C c w u v p) (hf : ∀ a, Takes C c w v t (f a)) :
    Takes C c w u t (p >>= f) :=
  fun k hk => Outline.bind ((h k hk).mono fun a k hk => hf a k hk)

/-- Both branches use the lock in the same way. -/
theorem Takes.ite {q : Prop} [Decidable q] {p p' : Code α} (hp : Takes C c w u v p)
    (hp' : Takes C c w u v p') : Takes C c w u v (if q then p else p') := by
  split
  · exact hp
  · exact hp'

section Rules

variable (hC : LockContract C c w)
include hC

theorem ret (a : α) : Takes C c w u u (.ret a) :=
  fun _ hk => Outline.ret (u, none) hk (hC.inv _) fun _ h => h

theorem stop : Takes C c w u v (.stop : Code α) :=
  fun _ hk => Outline.stop (u, none) hk (hC.inv _)

/-- Harmless code keeps every view, also with a word in hand. -/
theorem only_harmless {i : LockView × Option Word} (hp : p.Only Harmless)
    (hk : Locked c w i k) : Outline C (Locked c w) p (fun _ => Locked c w i) k :=
  Outline.of_only i (hC.inv i) (fun o k ho _ => hC.ok o k (ho.safe k))
    (fun o x k ho hk _ => by rw [hC.exec]; exact hk.harmless ho x) hp hk

theorem only (hp : p.Only Harmless) : Takes C c w u u p :=
  fun _ hk => hC.only_harmless hp hk

/-- A harmless access, and then the rest. -/
theorem act {o : Op} (ho : Harmless o) {g : Ret o → Code α} (hg : ∀ r, Takes C c w u v (g r)) :
    Takes C c w u v (.act o g) := by
  intro k hk
  refine Outline.act (u, none) hk (hC.inv _) (fun k _ => hC.ok o k (ho.safe k)) ?_
  intro k x hk _
  rw [hC.exec]
  exact hg _ _ (hk.harmless ho x)

/-- Harmless code, and then the rest. -/
theorem only_bind {p : Code α} {f : α → Code β} (hp : p.Only Harmless)
    (hf : ∀ a, Takes C c w u v (f a)) : Takes C c w u v (p >>= f) :=
  (hC.only hp).bind hf

/-- The loop rule, for loops that keep the view. -/
theorem iterate {σ : Type} {g : σ → Code (σ ⊕ β)} (hg : ∀ s, Takes C c w u u (g s))
    (fuel : ℕ) (s : σ) : Takes C c w u u (.iterate g fuel s) :=
  Triple.iterate (I := fun _ => Locked c w (u, none)) (Q := fun _ => Locked c w (u, none))
    (fun _ k hk => hC.stop k hk) (fun b k hk => hC.ret b k hk)
    (fun s k hk => (hg s k hk).mono fun r k hk => by cases r <;> exact hk) fuel s

/-! ### The mutex -/

/-- One try to take the semaphore succeeds: the lock is free. -/
theorem semaphoreTakeRound {k : Control} (hk : Locked c w (.free, none) k) :
    Outline C (Locked c w) semaphoreTakeRound
      (fun r k => match r with
        | .inl _ => Locked c w (.free, none) k
        | .inr _ => Locked c w (.held c, none) k) k := by
  have henter : taskEnterCritical.Only Harmless := by simp [taskEnterCritical, Harmless]
  have hexit : taskExitCritical.Only Harmless := by simp [taskExitCritical, Harmless]
  refine Outline.bind ((hC.only_harmless henter hk).mono fun _ k hk => ?_)
  simp only [get, set, Prog.perform_bind]
  refine Outline.act (.free, none) hk (hC.inv _) (fun k hk => hC.ok _ k fun _ => ?_)
    fun k x hk _ => ?_
  · have hholder : k.holder = none := congrArg LockView.holder hk.view
    simp [hholder]
  have hcount : k.vars .lockCount = 1 := congrArg LockView.count hk.view
  rw [hC.exec]
  simp only [exec_get, hcount, Nat.zero_lt_one, if_true]
  refine Outline.act (.free, none) hk (hC.inv _) (fun k _ => hC.ok _ k trivial)
    fun k' x hk _ => ?_
  rw [hC.exec]
  have hheld : Locked c w (.held c, none) (Control.exec (.set .lockCount _) x k').2 :=
    hk.set_lockCount (n := k.vars .lockCount - 1) x
      (by simp [LockView.held, LockView.free, hcount]) (LockView.held_valid c)
  refine Outline.bind ((hC.only_harmless hexit hheld).mono fun _ k hk => ?_)
  exact Outline.ret (.held c, none) hk (hC.inv _) fun _ h => h

/-- Acquiring leads from a free lock to a held one. -/
theorem metalMutexAcquire (fuel : ℕ) :
    Takes C c w .free (.held c) (C906Firmware.metalMutexAcquire fuel) := by
  refine Takes.bind (v := .held c) ?_ fun _ => hC.only (by simp [Harmless])
  exact Triple.iterate (I := fun _ => Locked c w (.free, none))
    (Q := fun _ => Locked c w (.held c, none))
    (fun _ k hk => hC.stop k hk) (fun b k hk => hC.ret b k hk)
    (fun _ k hk => (hC.semaphoreTakeRound hk).mono fun r k hk => by cases r <;> exact hk) fuel ()

/-- Releasing leads from a held lock back to a free one. -/
theorem metalMutexRelease : Takes C c w (.held c) .free C906Firmware.metalMutexRelease := by
  have henter : taskEnterCritical.Only Harmless := by simp [taskEnterCritical, Harmless]
  have hexit : taskExitCritical.Only Harmless := by simp [taskExitCritical, Harmless]
  refine Takes.bind (v := .free) ?_ fun _ => hC.only (by simp [Harmless])
  refine Takes.bind (hC.only henter) fun _ k hk => ?_
  simp only [get, set, Prog.perform_bind]
  refine Outline.act (.held c, none) hk (hC.inv _)
    (fun k hk => hC.ok _ k fun hisr => ?_) fun k x hk _ => ?_
  · have hholder : k.holder = some c := congrArg LockView.holder hk.view
    have hc : c = true := hk.context.symm.trans hisr
    simp [hholder, hc]
  have hcount : k.vars .lockCount = 0 := congrArg LockView.count hk.view
  rw [hC.exec]
  simp only [exec_get, hcount, Nat.zero_lt_one, if_true]
  refine Outline.act (.held c, none) hk (hC.inv _) (fun k _ => hC.ok _ k trivial)
    fun k x hk _ => ?_
  rw [hC.exec]
  refine hC.only hexit _ (hk.set_lockCount x ?_ (.inr (.inl rfl)))
  simp [LockView.held, LockView.free, hcount]

/-! ### Virtqueues -/

/-- `VQUEUE_BUSY` finds the queue idle. -/
theorem vqueueBusy (q : Vq) : Takes C c w (.held c) (.busy c q) (C906Firmware.vqueueBusy q) := by
  intro k hk
  simp only [C906Firmware.vqueueBusy, get, set, Prog.perform_bind]
  refine Outline.act (.held c, none) hk (hC.inv _) (fun k hk => hC.ok _ k ?_)
    fun k x hk _ => ?_
  · exact congrFun (congrArg LockView.inuse hk.view) q
  have hidle : k.vars (.vqInuse q) = 0 := congrFun (congrArg LockView.inuse hk.view) q
  rw [hC.exec]
  simp only [exec_get, hidle, if_true]
  refine Outline.act (.held c, none) hk (hC.inv _) (fun k _ => hC.ok _ k trivial)
    fun k x hk _ => ?_
  rw [hC.exec]
  exact hC.ret _ _ (hk.set_vqInuse x rfl (LockView.busy_valid c q))

theorem vqueueIdle (q : Vq) : Takes C c w (.busy c q) (.held c) (C906Firmware.vqueueIdle q) := by
  intro k hk
  refine Outline.act (.busy c q, none) hk (hC.inv _) (fun k _ => hC.ok _ k trivial)
    fun k x hk _ => ?_
  rw [hC.exec]
  refine hC.ret _ _ (hk.set_vqInuse x ?_ (LockView.held_valid c))
  simp [LockView.busy, LockView.held]

end Rules

end LockContract

end Control

end C906Firmware
