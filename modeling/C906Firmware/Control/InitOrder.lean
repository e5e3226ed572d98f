import C906Firmware.Control.InitOutline

/-!
# Interrupts during initialisation

`msgbox_init` requests the mailbox interrupt before `remoteproc_init` has initialised the list
of virtio devices; `virtqueue_create` stores the receive callback before `vq_ring_init` sets the
pointers of the ring, so that the callback reads the index of the available ring through a null
pointer; and `rpmsg_init_vdev` sets the shared-memory regions of the virtqueues and initialises
the list of endpoints only after both. An interrupt in one of these windows runs the callback
chain on what is not there yet, if the peer and the host already send:
`initialised_throughout` says that nothing else goes wrong, in no interleaving of the
initialisation, with any of its early returns, and after it.
-/

namespace C906Firmware

open Interaction

namespace Control

/-- The task and the mailbox interrupt, which is taken once it has been requested. -/
def boot (fuel : ℕ) : Machine Ret Control Answer Empty Empty Unit where
  exec := exec
  env := Empty.elim
  call := Empty.elim
  handler := fun _ => platformIrqHandler fuel
  takes k := k.irqOn && k.mie && !k.inIsr
  enter k := { k with mie := false, inIsr := true }
  leave k := { k with mie := true, inIsr := false }

/-- The access made next, if any, finds what it uses initialised. -/
def UsesInitialised (s : Config Ret Control) : Prop := ∀ o ∈ s.next, Initialised o s.k

instance : DecidablePred UsesInitialised := fun s =>
  inferInstanceAs (Decidable (∀ o ∈ s.next, Initialised o s.k))

/-- The action, if it is an access, is timely. -/
def TimelyAct (s : Config Ret Control) : Act Answer Empty Empty Unit → Prop
  | .run x => ∀ o ∈ s.next, Timely o x s.k
  | _ => True

instance (s : Config Ret Control) : ∀ a : Act Answer Empty Empty Unit, Decidable (TimelyAct s a)
  | .run x => inferInstanceAs (Decidable (∀ o ∈ s.next, Timely o x s.k))
  | .env e => e.elim
  | .call c => c.elim
  | .irq _ => isTrue trivial

variable {C : Contract Ret Control Answer} {α : Type} {ψ : α → Setup → Prop}

namespace SetupContract

/-! ### The stages of the initialisation -/

/-- The interrupt has not been requested. -/
def Off (s : Setup) : Prop := s.irqOn = false

/-- There is no device, and the list of endpoints is not initialised. -/
def Bare (s : Setup) : Prop := ¬s.HasDevice ∧ s.lists .endpoints = none

/-- The list of devices is initialised and empty, and that of endpoints is not initialised. -/
def Listed (s : Setup) : Prop := s.lists .vdevs = some 0 ∧ s.lists .endpoints = none

theorem Listed.bare {s : Setup} (h : Listed s) : Bare s :=
  ⟨fun hdevice => hdevice (by rw [h.1]; rfl), h.2⟩

/-- The list of devices is initialised, that of endpoints is not, and of the ring pointers those
in `S` are set. -/
structure Pointers (S : List (Vq × VringPart)) (s : Setup) : Prop where
  vdevs : (s.lists .vdevs).isSome = true
  endpoints : s.lists .endpoints = none
  order : s.ring .rvq .avail ≠ 0 → s.ring .rvq .desc ≠ 0
  ring : ∀ i ∈ S, s.ring i.1 i.2 ≠ 0

theorem Pointers.ordered {S : List (Vq × VringPart)} {s : Setup} (h : Pointers S s) :
    s.Ordered where
  desc := fun _ _ => h.order
  endpoints := fun _ _ hsome => absurd hsome (by rw [h.endpoints]; simp)

/-- The list of devices is initialised, that of endpoints is not, and every ring is set. -/
structure Ringed (s : Setup) : Prop where
  vdevs : (s.lists .vdevs).isSome = true
  endpoints : s.lists .endpoints = none
  ring : ∀ q p, s.ring q p ≠ 0

theorem Ringed.ordered {s : Setup} (h : Ringed s) : s.Ordered where
  desc := fun _ _ _ => h.ring .rvq .desc
  endpoints := fun _ _ hsome => absurd hsome (by rw [h.endpoints]; simp)

section Task

variable (hC : SetupContract C false)
include hC

/-- A step that changes only what decides which word reaches which virtqueue, and then the
rest. -/
theorem wire {φ : Setup → Prop} {v : Var} {n : ℕ} {f : Unit → Code α}
    (hv : ∃ q, v = .notifyId q ∨ v = .vqCallback q)
    (hφ : ∀ s ids callbacks, φ s → φ { s with notifyId := ids, callback := callbacks })
    (hf : Leads C false φ (f ()) ψ) : Leads C false φ (.act (.set v n) f) ψ := by
  have hsetup : ∀ x k, ∃ ids callbacks, (Control.exec (.set v n) x k).2.setup =
      { k.setup with notifyId := ids, callback := callbacks } := by
    obtain ⟨q, rfl | rfl⟩ := hv <;>
      exact fun x k => ⟨_, _, by simp [Control.exec, setup]; exact ⟨rfl, rfl⟩⟩
  have hisr : ∀ x k, (Control.exec (.set v n) x k).2.inIsr = k.inIsr := by
    obtain ⟨q, rfl | rfl⟩ := hv <;> exact fun _ _ => rfl
  refine hC.change (χ := φ) (fun _ => trivial) hisr (fun x k hord hs => ?_) fun _ => hf
  obtain ⟨ids, callbacks, heq⟩ := hsetup x k
  rw [heq]
  exact ⟨⟨hord.desc, hord.endpoints⟩, hφ _ _ _ hs⟩

theorem platformClear : Leads C false Off platformClear fun _ s => Off s ∧ Bare s := by
  simp only [C906Firmware.platformClear, set, Prog.perform_bind]
  refine hC.change (χ := Off) (fun _ => trivial) (fun _ _ => rfl)
    (fun _ _ _ hs => ⟨.of_off hs, hs⟩) fun _ => ?_
  refine hC.plain_act ⟨id, fun _ => trivial⟩ fun _ => ?_
  refine hC.plain_act ⟨id, fun _ => trivial⟩ fun _ => ?_
  refine hC.plain_act ⟨id, fun _ => trivial⟩ fun _ => ?_
  refine hC.change (χ := fun s => Off s ∧ ¬s.HasDevice) (fun _ => trivial) (fun _ _ => rfl)
    (fun _ _ _ hs => ⟨.of_off hs, hs, fun h => h rfl⟩) fun _ => ?_
  refine hC.change (χ := fun s => Off s ∧ Bare s) (fun _ => trivial) (fun _ _ => rfl)
    (fun _ _ _ hs => ⟨.of_off hs.1, hs.1, hs.2, rfl⟩) fun _ => ?_
  exact hC.plain (by simp [Plain, KeepsSetup, SetupVar, Setup.Provides])

/-- The initial drain of `msgbox_init`: no callback is installed, so none is called. -/
theorem initialPoll (fuel : ℕ) :
    Leads C false (fun s => (Off s ∧ Bare s) ∧ s.rxCb = 0)
      (msgboxPoll (C906Firmware.msgboxRx fuel) fuel)
      fun _ s => (Off s ∧ Bare s) ∧ s.rxCb = 0 := by
  have hframe : PollFrame C (Staged false) (fun s => (Off s ∧ Bare s) ∧ s.rxCb = 0, none)
      (fun _ => (fun s => (Off s ∧ Bare s) ∧ s.rxCb = 0, none)) (C906Firmware.msgboxRx fuel) := {
    inv := hC.inv
    ok := fun o k ho => hC.ok o k ((MailboxOp.plain ho).2 _)
    exec := fun i o x k ho hk => by
      rw [hC.exec]
      exact hk.mailboxOp ho x
    data_ok := fun k => hC.ok _ k trivial
    data := fun x k hk _ => by
      rw [hC.exec]
      exact hk.keepsSetup (o := .readFifo .data) trivial x
    deliver := fun d k hk => by
      simp only [msgboxDeliver, get, Prog.perform_bind]
      refine Outline.act _ hk (hC.inv _) (fun k _ => hC.ok _ k trivial) fun k x hk _ => ?_
      rw [hC.exec]
      have hcb : k.vars .rxCb = 0 := hk.stage.2
      simp only [exec_get, hcb, ne_eq, not_true_eq_false, if_false]
      exact hC.ret (fun _ hs => hs) k hk }
  exact fun k hk => hframe.poll fuel hk

/-- The mailbox is initialised before there is anything to use. -/
theorem msgboxInit (fuel : ℕ) :
    Leads C false (fun s => Off s ∧ Bare s) (C906Firmware.msgboxInit fuel) fun _ => Bare := by
  have hbits : ∀ r mask shift, (regBitsSet r mask shift).Only Plain := fun _ _ _ => by
    simp [regBitsSet, Plain, KeepsSetup, Setup.Provides]
  have hclear : ∀ r mask shift, (regBitsClear r mask shift).Only Plain := fun _ _ _ => by
    simp [regBitsClear, Plain, KeepsSetup, Setup.Provides]
  simp only [C906Firmware.msgboxInit, get, set, Prog.perform_bind]
  refine hC.change (χ := fun s => Off s ∧ Bare s) (fun _ => trivial) (fun _ _ => rfl)
    (fun _ _ _ hs => ⟨.of_off hs.1, hs⟩) fun _ => ?_
  refine hC.plain_act ⟨id, fun _ => trivial⟩ fun _ => ?_
  refine hC.plain_act ⟨id, fun _ => trivial⟩ fun _ => ?_
  refine hC.plain_act ⟨id, fun _ => trivial⟩ fun _ => ?_
  refine hC.plain_bind (hbits _ _ _) fun _ => hC.plain_bind (hbits _ _ _) fun _ => ?_
  refine hC.plain_act ⟨trivial, fun _ => trivial⟩ fun savedCb => ?_
  refine hC.change (χ := fun s => (Off s ∧ Bare s) ∧ s.rxCb = 0) (fun _ => trivial)
    (fun _ _ => rfl) (fun _ k _ hs => ⟨.of_off hs.1, hs, rfl⟩) fun _ => ?_
  refine Triple.bind (hC.initialPoll fuel) fun _ => ?_
  refine hC.change (χ := fun s => Off s ∧ Bare s) (fun _ => trivial) (fun _ _ => rfl)
    (fun _ _ _ hs => ⟨.of_off hs.1.1, hs.1⟩) fun _ => ?_
  refine hC.plain_bind (hbits _ _ _) fun _ => hC.plain_bind (hclear _ _ _) fun _ => ?_
  refine hC.plain_bind (hclear _ _ _) fun _ => ?_
  -- the interrupt is on from here, with both lists still empty
  refine hC.change (χ := Bare) (fun _ => trivial) (fun _ _ => rfl)
    (fun _ _ _ hs => ⟨.of_noDevice hs.2.1, hs.2⟩) fun _ => ?_
  exact hC.plain (by simp [msgboxPending, regBitsGet, Plain, KeepsSetup, Setup.Provides])

theorem remoteprocInit : Leads C false Bare remoteprocInit fun _ => Listed := by
  refine hC.change (χ := Bare) (fun _ => trivial) (fun _ _ => rfl)
    (fun _ k _ hs => ⟨.of_noDevice fun h => h rfl, fun h => h rfl, hs.2⟩) fun _ => ?_
  exact hC.change (χ := Listed) (fun _ => trivial) (fun _ _ => rfl)
    (fun _ k _ hs => ⟨.of_noDevice fun h => h rfl, rfl, hs.2⟩) fun _ => hC.ret fun _ hs => hs

omit hC in
/-- The setup after a store to a pointer of a ring. -/
theorem setup_set_vqRing (q : Vq) (p : VringPart) (n : ℕ) (x : Answer) (k : Control) :
    (Control.exec (.set (.vqRing q p) n) x k).2.setup =
      { k.setup with ring := fun q' p' => if q' = q ∧ p' = p then n else k.setup.ring q' p' } := by
  simp [Control.exec, setup, Function.update_apply]

omit hC in
/-- The setup after a store to `vq->shm_io`. -/
theorem setup_set_vqShmIo (q : Vq) (n : ℕ) (x : Answer) (k : Control) :
    (Control.exec (.set (.vqShmIo q) n) x k).2.setup =
      { k.setup with shmIo := fun q' => if q' = q then n else k.setup.shmIo q' } := by
  simp [Control.exec, setup, Function.update_apply]

/-- A virtqueue of a device that is not in the list yet: its available ring is null. -/
theorem virtqueueAllocate (q : Vq) :
    Leads C false Listed (virtqueueAllocate q) fun b s =>
      Listed s ∧ (b = true → s.ring q .avail = 0) := by
  simp only [C906Firmware.virtqueueAllocate, set, Prog.perform_bind]
  refine hC.plain_act ⟨trivial, fun _ => trivial⟩ fun vqs => ?_
  split
  · exact hC.ret fun _ hs => ⟨hs, fun h => absurd h Bool.false_ne_true⟩
  refine hC.wire ⟨q, .inr rfl⟩ (fun _ _ _ hs => hs) ?_
  -- `memset` clears the ring
  refine hC.change (χ := Listed) (fun _ => trivial) (fun _ _ => rfl)
    (fun _ _ _ hs => ⟨.of_noDevice hs.bare.1, hs⟩) fun _ => ?_
  refine hC.change (χ := fun s => Listed s ∧ s.ring q .avail = 0) (fun _ => trivial)
    (fun _ _ => rfl) (fun x k _ hs => ?_) fun _ => ?_
  · rw [setup_set_vqRing]
    exact ⟨.of_noDevice hs.bare.1, hs, if_pos ⟨rfl, rfl⟩⟩
  refine hC.change (χ := fun s => Listed s ∧ s.ring q .avail = 0) (fun _ => trivial)
    (fun _ _ => rfl) (fun x k _ hs => ?_) fun _ => ?_
  · rw [setup_set_vqRing]
    exact ⟨.of_noDevice hs.1.bare.1, hs.1, (if_neg (by simp)).trans hs.2⟩
  refine hC.plain_act ⟨id, fun _ => trivial⟩ fun _ => ?_
  refine hC.change (χ := fun s => Listed s ∧ s.ring q .avail = 0) (fun _ => trivial)
    (fun _ _ => rfl) (fun x k _ hs => ?_) fun _ => ?_
  · rw [setup_set_vqShmIo]
    exact ⟨.of_noDevice hs.1.bare.1, hs⟩
  refine hC.plain_act ⟨id, fun _ => trivial⟩ fun _ => ?_
  refine hC.plain_act ⟨id, fun _ => trivial⟩ fun _ => ?_
  exact hC.ret fun _ hs => ⟨hs.1, fun _ => hs.2⟩

theorem createVdev (notifyid : ℕ) :
    Leads C false Listed (rprocVirtioCreateVdev notifyid) fun b s =>
      b = true → Listed s ∧ s.ring .rvq .avail = 0 := by
  simp only [rprocVirtioCreateVdev, set, Prog.perform_bind]
  refine hC.plain_act ⟨trivial, fun _ => trivial⟩ fun rpvdev => ?_
  split
  · exact hC.ret fun _ _ h => absurd h Bool.false_ne_true
  refine hC.plain_act ⟨trivial, fun _ => trivial⟩ fun vringsInfo => ?_
  split
  · exact hC.ret fun _ _ h => absurd h Bool.false_ne_true
  refine hC.wire ⟨.svq, .inl rfl⟩ (fun _ _ _ hs => hs) ?_
  refine Triple.bind (hC.virtqueueAllocate .svq) fun svq => ?_
  split
  · refine Triple.bind ((hC.virtqueueAllocate .rvq).conseq
      (fun _ hk => hk.weaken fun _ _ hs => hs.1) fun _ _ hk => hk) fun rvq => ?_
    split
    · next hrvq =>
      refine hC.plain_act ⟨id, fun _ => trivial⟩ fun _ => ?_
      exact hC.ret fun _ hs _ => ⟨hs.1, hs.2 hrvq⟩
    · exact hC.ret fun _ _ h => absurd h Bool.false_ne_true
  · exact hC.ret fun _ _ h => absurd h Bool.false_ne_true

/-- The loop over the vrings sets the notification ids of a device that is in the list. -/
theorem initVrings (qs : List Vq) :
    Leads C false (Pointers []) (remoteprocInitVrings qs) fun _ => Pointers [] := by
  induction qs with
  | nil => exact hC.ret fun _ hs => hs
  | cons q rest ih =>
    simp only [remoteprocInitVrings, set, Prog.perform_bind]
    refine hC.plain_act (plain_load rfl) fun notifyid => ?_
    refine hC.plain_act ⟨trivial, fun _ => trivial⟩ fun va => ?_
    split
    · exact hC.ret fun _ hs => hs
    · exact hC.wire ⟨q, .inl rfl⟩ (fun _ _ _ hs => ⟨hs.1, hs.2, hs.3, hs.4⟩) ih

/-- The device is created with its queues, whose pointers are cleared. -/
theorem createVirtio (fuel : ℕ) :
    Leads C false Listed (remoteprocCreateVirtio fuel) fun b s => b = true → Pointers [] s := by
  have hacquire : rprocLockAcquire.Only Plain :=
    plainOnly_enterCritical.bind fun _ => plainOnly_exitCritical
  have hrelease : rprocLockRelease.Only Plain :=
    plainOnly_enterCritical.bind fun _ => plainOnly_exitCritical
  have hwait : rprocVirtioWaitRound.Only Plain := (plainOnly_ioRead rfl _).bind fun _ => by
    simp [Plain, KeepsSetup, Setup.Provides]
  have hfail : ∀ {φ : Setup → Prop}, Leads C false φ
      (rprocLockRelease >>= fun _ => (pure false : Code Bool))
      fun b s => b = true → Pointers [] s :=
    hC.plain_bind hrelease fun _ => hC.ret fun _ _ h => absurd h Bool.false_ne_true
  simp only [remoteprocCreateVirtio, Prog.perform_bind]
  refine hC.plain_bind hacquire fun _ => ?_
  refine hC.plain_act ⟨trivial, fun _ => trivial⟩ fun rsc => ?_
  split
  · exact hfail
  refine hC.plain_act (plain_load rfl) fun notifyid => ?_
  refine hC.keeps_act trivial (fun s _ hs => by simp [Setup.Provides, hs.1]) fun _ => ?_
  refine Triple.bind (hC.createVdev notifyid) fun created => ?_
  split
  · next hcreated =>
    refine hC.plain_bind (Prog.Only.iterate (fun _ => hwait) fuel ()) fun _ => ?_
    -- the device is in the list from here, with the rings still null
    refine hC.change (χ := Pointers []) (fun _ => trivial) (fun _ _ => rfl)
      (fun _ k _ hs => ?_) fun _ => ?_
    · obtain ⟨hlisted, havail⟩ := hs hcreated
      have hlist : k.lists .vdevs = some 0 := hlisted.1
      have hpointers : Pointers [] (Control.exec (.listAdd .vdevs) default k).2.setup :=
        ⟨by simp [Control.exec, setup, hlist], hlisted.2, fun h => absurd havail h,
          List.forall_mem_nil _⟩
      exact ⟨hpointers.ordered, hpointers⟩
    refine Triple.bind (hC.initVrings _) fun mapped => ?_
    split
    · exact hC.plain_bind hrelease fun _ => hC.ret fun _ hs _ => hs
    · refine hC.change (χ := Pointers []) (fun _ => trivial) (fun _ _ => rfl)
        (fun _ k _ hs => ?_) fun _ => hfail
      have hpointers : Pointers [] (Control.exec (.listDel .vdevs) default k).2.setup :=
        ⟨by simpa [Control.exec, setup] using hs.1, hs.2, hs.3, List.forall_mem_nil _⟩
      exact ⟨hpointers.ordered, hpointers⟩
  · exact hfail

/-! ### The RPMsg device -/

/-- A pointer of a ring is set: that of the available ring of the receive queue only after that
of its descriptors. -/
theorem set_vqRing {S : List (Vq × VringPart)} {q : Vq} {p : VringPart} {n : ℕ}
    {f : Unit → Code α} (hn : n ≠ 0) (horder : p = .avail → (q, .desc) ∈ S)
    (hf : Leads C false (Pointers ((q, p) :: S)) (f ()) ψ) :
    Leads C false (Pointers S) (.act (.set (.vqRing q p) n) f) ψ := by
  refine hC.change (χ := Pointers ((q, p) :: S)) (fun _ => trivial) (fun _ _ => rfl)
    (fun x k _ hs => ?_) fun _ => hf
  rw [setup_set_vqRing]
  have hpointers : Pointers ((q, p) :: S) { k.setup with
      ring := fun q' p' => if q' = q ∧ p' = p then n else k.setup.ring q' p' } := by
    refine ⟨hs.vdevs, hs.endpoints, fun havail => ?_, fun i hi => ?_⟩
    · by_cases hdesc : Vq.rvq = q ∧ VringPart.desc = p
      · simpa [hdesc.1, hdesc.2] using hn
      · simp only [hdesc, if_false]
        by_cases hnew : Vq.rvq = q ∧ VringPart.avail = p
        · obtain ⟨rfl, rfl⟩ := hnew
          exact hs.ring _ (horder rfl)
        · simp only [hnew, if_false] at havail
          exact hs.order havail
    · by_cases hnew : i.1 = q ∧ i.2 = p
      · simpa [hnew.1, hnew.2] using hn
      · simp only [hnew, if_false]
        rcases List.mem_cons.mp hi with rfl | hi
        · exact absurd ⟨rfl, rfl⟩ hnew
        · exact hs.ring i hi
  exact ⟨hpointers.ordered, hpointers⟩

/-- `virtqueue_create` leaves the pointers of the ring set. -/
theorem virtqueueCreate (S : List (Vq × VringPart)) (q : Vq) :
    Leads C false (Pointers S) (virtqueueCreate q)
      fun _ => Pointers ((q, .used) :: (q, .avail) :: (q, .desc) :: S) := by
  simp only [C906Firmware.virtqueueCreate, vringInit, set, Prog.perform_bind]
  -- the callback is installed here
  refine hC.wire ⟨q, .inr rfl⟩ (fun _ _ _ hs => ⟨hs.1, hs.2, hs.3, hs.4⟩) ?_
  refine hC.set_vqRing (by cases q <;> decide) (fun h => absurd h (by decide)) ?_
  refine hC.set_vqRing (by cases q <;> decide) (fun _ => List.mem_cons_self) ?_
  exact hC.set_vqRing (by cases q <;> decide) (fun h => absurd h (by decide))
    (hC.ret fun _ hs => hs)

/-- `virtio_create_virtqueues` leaves every pointer of the rings set. -/
theorem createVirtqueues : Leads C false (Pointers []) virtioCreateVirtqueues fun _ => Ringed := by
  refine Triple.bind (hC.virtqueueCreate [] .svq) fun _ => ?_
  refine (hC.virtqueueCreate _ .rvq).conseq (fun _ hk => hk) fun _ _ hk => hk.weaken fun s _ hs =>
    ⟨hs.vdevs, hs.endpoints, fun q p => hs.ring (q, p) ?_⟩
  cases q <;> cases p <;> simp

/-- `rpmsg_init_vdev` leaves everything initialised. -/
theorem initVdev : Leads C false (Pointers []) rpmsgInitVdev fun _ => Setup.Ready := by
  have hset : ∀ status, (rprocVirtioSetStatus status).Only Plain := by
    intro status
    refine (plainOnly_ioWrite rfl _ _).bind fun _ => ?_
    exact ⟨⟨trivial, fun _ => trivial⟩, fun id => (plainOnly_send _).bind fun _ => trivial⟩
  have hwait : ∀ loops, (rpmsgVirtioWaitRemoteReady loops).Only Plain := by
    intro loops
    induction loops with
    | zero => trivial
    | succ loops ih =>
      have hagain : Prog.Only Plain (do
          if loops ≠ 0 then
            access (.udelay 10000)
            rpmsgVirtioWaitRemoteReady loops) :=
        Prog.Only.ite ⟨⟨trivial, fun _ => trivial⟩, fun _ => ih⟩ trivial
      refine (plainOnly_ioRead rfl _).bind fun status =>
        Prog.Only.ite ((hset 0).bind fun _ => hagain) ?_
      exact Prog.Only.ite hagain trivial
  have hfeatures : rprocVirtioGetFeatures.Only Plain :=
    (plainOnly_ioRead rfl _).bind fun _ => (plainOnly_ioRead rfl _).bind fun _ => trivial
  simp only [rpmsgInitVdev, get, set, Prog.perform_bind]
  refine hC.change (χ := Pointers []) (fun _ => trivial) (fun _ _ => rfl)
    (fun _ k _ hs => ?_) fun _ => ?_
  · have hpointers : Pointers [] (Control.exec (.listZero .endpoints) default k).2.setup :=
      ⟨hs.1, rfl, hs.3, List.forall_mem_nil _⟩
    exact ⟨hpointers.ordered, hpointers⟩
  refine hC.plain_act ⟨id, fun _ => trivial⟩ fun _ => ?_
  refine hC.plain_act ⟨id, fun _ => trivial⟩ fun _ => ?_
  -- Up to the virtqueues nothing of the setup changes, however long the host is waited for.
  refine hC.plain_bind
    (by simp [metalMutexInit, Plain, KeepsSetup, SetupVar, Setup.Provides]) fun _ => ?_
  refine hC.plain_bind (hwait _) fun _ => hC.plain_bind hfeatures fun features => ?_
  refine hC.plain_act ⟨id, fun _ => trivial⟩ fun _ => ?_
  refine Triple.bind hC.createVirtqueues fun _ => ?_
  refine Triple.bind (hC.keeps ((ringOnly_disableCb .svq).mono fun o ho =>
    ⟨ho.1, fun s hs => ho.2 s (hs.ring .svq)⟩)) fun _ => ?_
  refine hC.change (χ := fun s => Ringed s ∧ s.shmIo .svq ≠ 0) (fun _ => trivial)
    (fun _ _ => rfl) (fun x k _ hs => ?_) fun _ => ?_
  · rw [setup_set_vqShmIo]
    have hringed : Ringed { k.setup with
        shmIo := fun q' => if q' = .svq then 1 else k.setup.shmIo q' } := ⟨hs.1, hs.2, hs.3⟩
    exact ⟨hringed.ordered, hringed, by simp⟩
  refine hC.change (χ := fun s => Ringed s ∧ ∀ q, s.shmIo q ≠ 0) (fun _ => trivial)
    (fun _ _ => rfl) (fun x k _ hs => ?_) fun _ => ?_
  · rw [setup_set_vqShmIo]
    have hringed : Ringed { k.setup with
        shmIo := fun q' => if q' = .rvq then 1 else k.setup.shmIo q' } :=
      ⟨hs.1.1, hs.1.2, hs.1.3⟩
    refine ⟨hringed.ordered, hringed, ?_⟩
    rintro (- | -)
    · simpa using hs.2
    · simp
  refine hC.change (χ := Setup.Ready) (fun _ => trivial) (fun _ _ => rfl)
    (fun _ k _ hs => ?_) fun _ => ?_
  -- The list of endpoints comes last: from here on all is set.
  · have hready : (Control.exec (.listInit .endpoints) default k).2.setup.Ready := by
      refine ⟨?_, hs.1.ring, hs.2⟩
      rintro (- | -)
      · exact hs.1.vdevs
      · rfl
    exact ⟨hready.ordered, hready⟩
  refine hC.plain_act ⟨trivial, fun _ => trivial⟩ fun supportNs => ?_
  split
  · refine hC.plain_act ⟨id, fun _ => trivial⟩ fun _ => ?_
    refine hC.plain_act ⟨id, fun _ => trivial⟩ fun _ => ?_
    refine hC.change (χ := Setup.Ready) (fun _ => trivial) (fun _ _ => rfl)
      (fun _ k _ hs => ?_) fun _ => hC.ret fun _ hs => hs
    have hready : (Control.exec (.listAdd .endpoints) default k).2.setup.Ready := by
      refine ⟨?_, hs.ring, hs.shmIo⟩
      rintro (- | -)
      · exact hs.lists .vdevs
      · simpa [Control.exec, setup] using hs.lists .endpoints
    exact ⟨hready.ordered, hready⟩
  · exact hC.ret fun _ hs => hs

/-- `setup_rpmsg` leaves everything initialised unless it returns an error. -/
theorem setupRpmsg (fuel : ℕ) :
    Leads C false Listed (setupRpmsg fuel) fun r s => r = 0 → s.Ready := by
  have hlock : rprocLockAcquire.Only Plain :=
    plainOnly_enterCritical.bind fun _ => plainOnly_exitCritical
  simp only [C906Firmware.setupRpmsg, Prog.perform_bind]
  refine hC.plain_act ⟨trivial, fun _ => trivial⟩ fun rsc => ?_
  split
  · exact hC.ret fun _ _ h => absurd h (by decide)
  refine hC.plain_act ⟨trivial, fun _ => trivial⟩ fun ret => ?_
  split
  · next hne => exact hC.ret fun _ _ h => absurd h hne
  refine hC.plain_bind hlock fun _ => hC.plain_bind hlock fun _ => ?_
  refine hC.plain_bind hlock fun _ => hC.plain_bind hlock fun _ => ?_
  refine Triple.bind (hC.createVirtio fuel) fun created => ?_
  split
  · next hcreated =>
    refine hC.plain_act ⟨trivial, fun _ => trivial⟩ fun shmIo => ?_
    split
    · exact hC.ret fun _ _ h => absurd h (by decide)
    · refine Triple.bind (hC.initVdev.conseq
        (fun _ hk => hk.weaken fun _ _ hs => hs hcreated) fun _ _ hk => hk) fun _ => ?_
      exact (hC.ready (setupOnly_createEpt fuel) fun _ hs => hs).conseq (fun _ hk => hk)
        fun _ _ hk => hk.weaken fun _ _ hs _ => hs
  · exact hC.ret fun _ _ h => absurd h (by decide)

/-- The whole initialisation, from a clean start to a device that is ready. -/
theorem platformRprocInit (fuel : ℕ) :
    Leads C false Off (platformRprocInit fuel) fun r s => r = 0 → s.Ready :=
  Triple.bind hC.platformClear fun _ => Triple.bind (hC.msgboxInit fuel) fun _ =>
    Triple.bind hC.remoteprocInit fun _ => hC.setupRpmsg fuel

/-- **The task** makes no access too early. -/
theorem mainTask (fuel : ℕ) : Leads C false Off (mainTask fuel) fun _ _ => True := by
  have hpoll : (platformPoll fuel).Only KeepsSetup :=
    only_poll (fun _ ho => (MailboxOp.plain ho).1) trivial (setupOnly_msgboxRx fuel) fuel
  simp only [C906Firmware.mainTask, set, Prog.perform_bind]
  refine hC.plain_act ⟨id, fun _ => trivial⟩ fun _ => ?_
  refine Triple.bind (hC.platformRprocInit fuel) fun ret => ?_
  split
  · next hret =>
    have hround : (mainTaskRound fuel).Only KeepsSetup :=
      ⟨trivial, fun _ => hpoll.bind fun _ => trivial⟩
    exact (hC.ready (Prog.Only.iterate (fun _ => hround) fuel ()) fun _ hs => hs hret).conseq
      (fun _ hk => hk) fun _ _ hk => hk.weaken fun _ _ _ => trivial
  · exact hC.ret fun _ _ => trivial

end Task

end SetupContract

/-! ### Every interleaving -/

/-- What `TimelyAct` grants. -/
private def timelyGrant : Grant Op Control Answer Empty Empty Unit where
  access := Timely

private abbrev bootContract (fuel : ℕ) : Contract Ret Control Answer :=
  (boot fuel).contract (fun k => k.setup.Ordered) Initialised timelyGrant.access

private theorem boot_setupContract (fuel : ℕ) (c : Bool) :
    SetupContract (bootContract fuel) c where
  exec := rfl
  inv := fun _ _ hk => hk.ordered
  ok := fun _ _ h => h

/-- The handler, entered with the interrupt requested, keeps every stage. -/
private theorem outline_bootHandler (fuel : ℕ) {φ : Setup → Prop} (hφ : ∀ s, φ s → s.irqOn = true)
    {k : Control} (hk : Staged true (φ, none) k) :
    Outline (bootContract fuel) (Staged true) (platformIrqHandler fuel)
      (fun _ => Staged true (φ, none)) k := by
  have hC := boot_setupContract fuel true
  have hframe : PollFrame (bootContract fuel) (Staged true) (φ, none)
      (fun d => (fun s => φ s ∧ (s.lists .vdevs).isSome = true ∧
        (s.wiring.Notifies .rvq d → s.ring .rvq .avail ≠ 0), none)) (msgboxRx fuel) := {
    inv := hC.inv
    ok := fun o k ho => (MailboxOp.plain ho).2 _
    exec := fun i o x k ho hk => hk.mailboxOp ho x
    data_ok := fun _ => trivial
    data := fun x k hk hx =>
      .of_stage hk.context hk.ordered ⟨hk.stage, (hx hk.context).1, (hx hk.context).2⟩
    deliver := fun d k hk => by
      refine outline_deliver hC.inv (fun o k ho => (MailboxOp.plain ho).2 _)
        (fun i o x k ho hk => hk.mailboxOp ho x) (fun k hk => hk.weaken fun s _ hs => hs.1) d
        (fun k hk => ?_) hk
      have hrx := hC.msgboxRx (fun _ _ _ h => h)
        (fun s (hs : φ s ∧ (s.lists .vdevs).isSome = true ∧
          (s.wiring.Notifies .rvq d → s.ring .rvq .avail ≠ 0)) => ⟨hφ s hs.1, hs.2.1⟩)
        (fun s hs => hs.2.2) fuel
      exact (hrx k hk).mono fun _ k hk => hk.weaken fun s _ hs => hs.1 }
  exact hframe.irqHandler fuel hk

private theorem boot_verified (fuel : ℕ) :
    Verified (boot fuel) (fun k => k.setup.Ordered) Initialised timelyGrant (Staged false)
      (Staged true) (Staged false (fun _ => True, none)) where
  env := fun e => e.elim
  call := fun c => c.elim
  handler := by
    rintro - k hord htakes -
    simp only [boot, Bool.and_eq_true, Bool.not_eq_true'] at htakes
    have henter : Staged true (fun s => s = k.setup, none) ((boot fuel).enter k) :=
      .of_stage rfl hord rfl
    have hon : ∀ s, s = k.setup → s.irqOn = true := fun s hs => hs ▸ htakes.1.1
    refine (outline_bootHandler fuel hon henter).mono fun _ k' hk' i hi => ?_
    -- the handler leaves with the setup it was entered with
    have hsetup : ((boot fuel).leave k').setup = k.setup := hk'.stage
    refine ⟨rfl, hsetup ▸ hi.ordered, hsetup ▸ hi.stage, fun n hn => ?_⟩
    exact absurd (hi.own n hn).1 (by simp)

/-- **The callback chain never runs on what is not initialised**, along every schedule in which
nothing comes in too early: from the start of `main_task`, through every step of
`platform_rproc_init` and each of its early returns, and after it. -/
theorem initialised_throughout (fuel : ℕ) (k : Control) (htask : k.inIsr = false)
    (hoff : k.irqOn = false) (as : List (Act Answer Empty Empty Unit))
    (has : EachStep (boot fuel).step TimelyAct ⟨mainTask fuel, none, k⟩ as) :
    Throughout (boot fuel).step UsesInitialised ⟨mainTask fuel, none, k⟩ as := by
  have hgrant : EachStep (boot fuel).step (timelyGrant.Allows (boot fuel))
      ⟨mainTask fuel, none, k⟩ as := by
    refine has.mono fun s a ha => ?_
    cases a with
    | run x => exact ha
    | env e => exact e.elim
    | call c => exact c.elim
    | irq h => exact fun _ _ => trivial
  have hstart : Staged false (SetupContract.Off, none) k :=
    .of_stage htask (.of_off hoff) hoff
  have htaskOutline := (boot_setupContract fuel false).mainTask fuel k hstart
  exact ((boot_verified fuel).throughout htaskOutline hgrant).mono fun _ h => h.2

/-- The processor before `main_task`, with all variables zero. -/
def cold : Control where
  mie := true
  irqOn := false
  inIsr := false
  holder := none
  lists := fun _ => none
  vars := fun _ => 0

/-- An interrupt without a word right after `irq_request`, an initialisation that fails when
the resource table is mapped, and then an interrupt with a word. -/
theorem initialised_throughout_failed :
    Throughout (boot 3).step UsesInitialised ⟨mainTask 3, none, cold⟩
      (List.replicate 33 (.run default) ++ .irq () :: List.replicate 30 (.run default) ++
        [.irq (), .run { word := 1 }, .run { word := 1 }] ++ List.replicate 40 (.run default)) :=
  initialised_throughout 3 cold rfl rfl _ (by decide +kernel)

/-- A word that arrives right after `irq_request`: the callback walks the list of devices
before it is initialised. -/
theorem walk_before_init :
    ¬∀ (fuel : ℕ) (k : Control), k.inIsr = false → k.irqOn = false →
      ∀ as : List (Act Answer Empty Empty Unit),
        Throughout (boot fuel).step UsesInitialised ⟨mainTask fuel, none, k⟩ as := by
  intro h
  have hend := (h 3 cold rfl rfl
    (List.replicate 33 (.run default) ++
      [.irq (), .run { word := 1 }, .run { word := 1 }] ++ List.replicate 10 (.run default))).last
  exact absurd hend (by decide +kernel)

end Control

end C906Firmware
