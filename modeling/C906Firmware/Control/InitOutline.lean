import C906Firmware.Control.SetupFrame

/-!
# Outlines about the setup

Assertions that fix the stage of the initialisation and the rules for code that keeps a stage,
and the outline of the callback chain in the handler: it reaches the receive callback only with
a device, and then only with the available ring set (`SetupContract.msgboxRx`), takes a buffer
only when everything is initialised (`SetupContract.getRxBuffer`), and from then on any of its
accesses is fine.
-/

namespace C906Firmware

open Interaction

namespace Control

/-- What comes in at an access of the handler does not come too early: no word before the list
of devices is initialised, none that notifies the receive queue between its callback and its
available ring, no buffer in the receive ring before the queue has its region, and no buffer in
the shared memory before the list of endpoints is initialised. -/
def Timely (o : Op) (x : Answer) (k : Control) : Prop :=
  k.inIsr = true →
    match o with
    | .readFifo .data => (k.lists .vdevs).isSome = true ∧
        (k.wiring.Notifies .rvq x.word → k.vars (.vqRing .rvq .avail) ≠ 0)
    | .load (.availIdx .rvq) => x.nat ≠ k.vars (.vqAvailableIdx .rvq) → k.vars (.vqShmIo .rvq) ≠ 0
    | .load (.descAddr .rvq _) => InShm x.nat → (k.lists .endpoints).isSome = true
    | _ => True

instance (o : Op) (x : Answer) (k : Control) : Decidable (Timely o x k) := by
  unfold Timely
  split <;> infer_instance

/-! ### Assertions and rules -/

/-- The assertions: the context is `c`, the setup is ordered and at the stage `i.1`. The handler
may also know the index of the receive queue, which the task must not rely on. -/
structure Staged (c : Bool) (i : (Setup → Prop) × Option ℕ) (k : Control) : Prop where
  context : k.inIsr = c
  ordered : k.setup.Ordered
  stage : i.1 k.setup
  own : ∀ n ∈ i.2, c = true ∧ k.vars (.vqAvailableIdx .rvq) = n

/-- What the outlines need of a contract. -/
structure SetupContract (C : Contract Ret Control Answer) (c : Bool) : Prop where
  exec : C.exec = Control.exec
  inv : ∀ i k, Staged c i k → C.inv k
  ok : ∀ o k, Initialised o k → C.ok o k

/-- The code leads from the stage `φ` to the stages `ψ`. -/
abbrev Leads (C : Contract Ret Control Answer) (c : Bool) {α : Type} (φ : Setup → Prop)
    (p : Code α) (ψ : α → Setup → Prop) : Prop :=
  Triple C (Staged c) (Staged c (φ, none)) p fun a => Staged c (ψ a, none)

variable {C : Contract Ret Control Answer} {c : Bool} {α β : Type} {φ χ : Setup → Prop}
  {ψ : α → Setup → Prop} {k : Control}

/-- An assertion about the stage alone. -/
theorem Staged.of_stage (hcontext : k.inIsr = c) (hordered : k.setup.Ordered) (hφ : φ k.setup) :
    Staged c (φ, none) k :=
  ⟨hcontext, hordered, hφ, fun _ hn => absurd hn (Option.not_mem_none _)⟩

theorem Staged.weaken (h : Staged c (φ, none) k) (hφ : ∀ s, s.Ordered → φ s → χ s) :
    Staged c (χ, none) k :=
  .of_stage h.context h.ordered (hφ _ h.ordered h.stage)

theorem Staged.keepsSetup {o : Op} (ho : KeepsSetup o) (x : Answer) (h : Staged c (φ, none) k) :
    Staged c (φ, none) (exec o x k).2 := by
  obtain ⟨hsetup, hisr⟩ := ho.exec x k
  exact .of_stage (hisr.trans h.context) (hsetup ▸ h.ordered) (hsetup ▸ h.stage)

/-- The mailbox driver's own accesses keep every assertion about the setup. -/
theorem Staged.mailboxOp {i : (Setup → Prop) × Option ℕ} {o : Op} (ho : MailboxOp o) (x : Answer)
    (h : Staged c i k) : Staged c i (exec o x k).2 := by
  obtain ⟨hsetup, hisr⟩ := (MailboxOp.plain ho).1.exec x k
  refine ⟨hisr.trans h.context, hsetup ▸ h.ordered, hsetup ▸ h.stage, fun n hn => ?_⟩
  obtain ⟨hc, hown⟩ := h.own n hn
  refine ⟨hc, ?_⟩
  cases o with
  | set v n => rcases ho with rfl | rfl | rfl | rfl | rfl <;> simpa [exec_set] using hown
  | listZero l => exact ho.elim
  | listInit l => exact ho.elim
  | listAdd l => exact ho.elim
  | listDel l => exact ho.elim
  | irqRequest => exact ho.elim
  | _ => exact hown

namespace SetupContract

section Rules

variable (hC : SetupContract C c)
include hC

theorem ret {a : α} (h : ∀ s, φ s → ψ a s) : Leads C c φ (.ret a) ψ :=
  fun _ hk => Outline.ret (φ, none) hk (hC.inv _) fun _ hk => hk.weaken fun s _ => h s

theorem stop : Leads C c φ (.stop : Code α) ψ :=
  fun _ hk => Outline.stop (φ, none) hk (hC.inv _)

/-- Code that leaves the setup alone keeps the stage, if the stage provides what it uses. -/
theorem keeps {p : Code α} (hp : p.Only fun o => KeepsSetup o ∧ ∀ s, φ s → s.Provides o) :
    Leads C c φ p fun _ => φ := fun _ hk =>
  Outline.of_only (φ, none) (hC.inv _) (fun o k ho hk => hC.ok o k (ho.2 _ hk.stage))
    (fun o x k ho hk _ => by rw [hC.exec]; exact hk.keepsSetup ho.1 x) hp hk

/-- Plain code keeps every stage. -/
theorem plain {p : Code α} (hp : p.Only Plain) : Leads C c φ p fun _ => φ :=
  hC.keeps (hp.mono fun _ ho => ⟨ho.1, fun s _ => ho.2 s⟩)

/-- Once all is initialised, the callback chain may run. -/
theorem ready {p : Code α} (hp : p.Only KeepsSetup) (hφ : ∀ s, φ s → s.Ready) :
    Leads C c φ p fun _ => φ :=
  hC.keeps (hp.mono fun o ho => ⟨ho, fun s hs => (hφ s hs).provides o⟩)

/-- Plain code, and then the rest. -/
theorem plain_bind {p : Code α} {f : α → Code β} {ψ : β → Setup → Prop} (hp : p.Only Plain)
    (hf : ∀ a, Leads C c φ (f a) ψ) : Leads C c φ (p >>= f) ψ :=
  Triple.bind (hC.plain hp) hf

/-- An access that leaves the setup alone and finds what it uses, and then the rest. -/
theorem keeps_act {o : Op} {f : Ret o → Code α} (ho : KeepsSetup o)
    (hok : ∀ s, s.Ordered → φ s → s.Provides o) (hf : ∀ r, Leads C c φ (f r) ψ) :
    Leads C c φ (.act o f) ψ := by
  intro k hk
  refine Outline.act (φ, none) hk (hC.inv _) (fun k hk => hC.ok o k (hok _ hk.ordered hk.stage))
    fun k x hk _ => ?_
  rw [hC.exec]
  exact hf _ _ (hk.keepsSetup ho x)

/-- A plain access, and then the rest. -/
theorem plain_act {o : Op} {f : Ret o → Code α} (ho : Plain o)
    (hf : ∀ r, Leads C c φ (f r) ψ) : Leads C c φ (.act o f) ψ :=
  hC.keeps_act ho.1 (fun s _ _ => ho.2 s) hf

/-- Reading a variable of the setup, and then the rest, which knows its value. -/
theorem learn {v : Var} {g : Setup → ℕ} {f : ℕ → Code α} (hv : Plain (.get v))
    (hval : ∀ k : Control, k.vars v = g k.setup)
    (hf : ∀ n, Leads C c (fun s => φ s ∧ g s = n) (f n) ψ) :
    Leads C c φ (.act (.get v) f) ψ := by
  intro k hk
  refine Outline.act (φ, none) hk (hC.inv _) (fun k _ => hC.ok _ k (hv.2 _)) fun k x hk _ => ?_
  rw [hC.exec]
  exact hf _ _ (.of_stage hk.context hk.ordered ⟨hk.stage, (hval k).symm⟩)

/-- An access that changes the setup, and then the rest. -/
theorem change {o : Op} {f : Ret o → Code α} (hok : ∀ k, Initialised o k)
    (hexec : ∀ x k, (Control.exec o x k).2.inIsr = k.inIsr)
    (hφ : ∀ x k, k.setup.Ordered → φ k.setup →
      (Control.exec o x k).2.setup.Ordered ∧ χ (Control.exec o x k).2.setup)
    (hf : ∀ r, Leads C c χ (f r) ψ) : Leads C c φ (.act o f) ψ := by
  intro k hk
  refine Outline.act (φ, none) hk (hC.inv _) (fun k _ => hC.ok o k (hok k)) fun k x hk _ => ?_
  rw [hC.exec]
  obtain ⟨hord, hχ⟩ := hφ x k hk.ordered hk.stage
  exact hf _ _ (.of_stage ((hexec x k).trans hk.context) hord hχ)

end Rules

/-! ### The handler -/

section Handler

variable (hC : SetupContract C true) (hcond : ∀ o x k, C.cond o x k → Timely o x k)
include hC hcond

/-- The chain has reached the receive queue: the interrupt is on, there is a device, and the
available ring of the queue is set. -/
structure Reached (s : Setup) : Prop where
  irqOn : s.irqOn = true
  device : s.HasDevice
  avail : s.ring .rvq .avail ≠ 0

omit hC hcond in
theorem Reached.part {s : Setup} (h : Reached s) (hord : s.Ordered) {p : VringPart}
    (hp : p ≠ .used) : s.ring .rvq p ≠ 0 := by
  cases p with
  | desc => exact hord.desc h.irqOn h.device h.avail
  | avail => exact h.avail
  | used => exact absurd rfl hp

omit hC hcond in
/-- A device in the list: the list is initialised. -/
theorem Reached.vdevs {s : Setup} (h : Reached s) : (s.lists .vdevs).isSome = true := by
  have hdevice := h.device
  cases hlist : s.lists .vdevs with
  | none => exact absurd (by rw [hlist]; rfl) hdevice
  | some n => rfl

/-- The handler takes a buffer from the receive ring only when all is initialised. -/
theorem getRxBuffer (hφ : ∀ s, φ s → Reached s) :
    Leads C true φ (virtqueueGetAvailableBuffer .rvq)
      fun r s => φ s ∧ (r.isSome = true → s.Ready) := by
  -- the fields that are read lie in the descriptors and in the available ring
  have hload : ∀ {χ : Setup → Prop}, (∀ s, χ s → φ s) → ∀ {cell : Cell} {p : VringPart},
      cell.vringPart = some (.rvq, p) → p ≠ .used → ∀ s : Setup, s.Ordered → χ s →
        s.Provides (.load cell) := by
    rintro χ hχ cell p hcell hp s hord hs i hi
    obtain rfl : (Vq.rvq, p) = i := Option.some.inj (hcell.symm.trans hi)
    exact (hφ s (hχ s hs)).part hord hp
  refine hC.plain_bind (plainOnly_invalidate _ _) fun _ k hk => ?_
  simp only [get, set, Prog.perform_bind]
  refine Outline.act (φ, none) hk (hC.inv _) (fun k _ => hC.ok _ k trivial) fun k₀ x hk _ => ?_
  rw [hC.exec]
  have hown : Staged true (φ, some (k₀.vars (.vqAvailableIdx .rvq))) k₀ :=
    ⟨hk.context, hk.ordered, hk.stage, fun n hn => ⟨rfl, Option.some.inj hn⟩⟩
  simp only [exec_get]
  refine Outline.act _ hown (hC.inv _)
    (fun k hk => hC.ok _ k (hload (fun _ h => h) rfl (by decide) _ hk.ordered hk.stage))
    fun k x hk hx => ?_
  rw [hC.exec]
  by_cases hidx : k₀.vars (.vqAvailableIdx .rvq) = x.nat
  · have hstage : Staged true (φ, none) k := .of_stage hk.context hk.ordered hk.stage
    simp only [Control.exec, Answer.at, hidx, if_true, Prog.pure_eq_ret]
    exact hC.ret (fun s hs => ⟨hs, by simp⟩) k hstage
  have hshm : k.vars (.vqShmIo .rvq) ≠ 0 := by
    refine hcond _ x k hx hk.context ?_
    rw [(hk.own _ rfl).2]
    exact Ne.symm hidx
  have hstage : Staged true (fun s => φ s ∧ s.shmIo .rvq ≠ 0, none) k :=
    .of_stage hk.context hk.ordered ⟨hk.stage, hshm⟩
  simp only [Control.exec, Answer.at, hidx, if_false]
  refine hC.plain_bind (plainOnly_busy .rvq) (fun _ => ?_) k hstage
  refine hC.plain_act ⟨trivial, fun _ => trivial⟩ fun idx => ?_
  refine hC.plain_act ⟨id, fun _ => trivial⟩ fun _ => ?_
  refine hC.plain_bind (plainOnly_invalidate _ _) fun _ => ?_
  refine hC.keeps_act trivial (hload (fun _ h => h.1) rfl (by decide)) fun availIdx => ?_
  refine hC.plain_bind (plainOnly_invalidate _ _) fun _ k hk => ?_
  refine Outline.act _ hk (hC.inv _)
    (fun k hk => hC.ok _ k (hload (fun _ h => h.1) rfl (by decide) _ hk.ordered hk.stage))
    fun k x hk hx => ?_
  rw [hC.exec]
  -- a descriptor that points into the shared memory is there only when all is initialised
  have hready : InShm x.nat → k.setup.Ready := by
    intro hin
    have hreached := hφ _ hk.stage.1
    have hepts : (k.lists .endpoints).isSome = true := hcond _ x k hx hk.context hin
    obtain ⟨hring, hshmIo⟩ := hk.ordered.endpoints hreached.irqOn hreached.device hepts
    refine ⟨fun l => ?_, hring, hshmIo⟩
    cases l with
    | vdevs => exact hreached.vdevs
    | endpoints => exact hepts
  have hstage : Staged true
      (fun s => (φ s ∧ s.shmIo .rvq ≠ 0) ∧ (InShm x.nat → s.Ready), none) k :=
    .of_stage hk.context hk.ordered ⟨hk.stage, hready⟩
  simp only [Control.exec, Answer.at, virtqueuePhysToVirt, get, Prog.perform_bind,
    Prog.act_bind, Prog.pure_eq_ret, Prog.ret_bind]
  refine hC.keeps_act (o := .get (.vqShmIo .rvq)) trivial (fun s _ hs => hs.1.2) (fun _ => ?_) k
    hstage
  refine hC.keeps_act trivial (hload (fun _ h => h.1.1) rfl (by decide)) fun len => ?_
  refine hC.plain_bind (plainOnly_idle .rvq) fun _ => hC.ret fun s hs => ⟨hs.1.1, fun hsome => ?_⟩
  refine hs.2 ?_
  by_contra hout
  simp [hout] at hsome

/-- The receive callback in the handler. -/
theorem rxCallback (hφ : ∀ s, φ s → Reached s) (fuel : ℕ) :
    Leads C true φ (rpmsgVirtioRxCallback fuel) fun _ => φ := by
  refine hC.plain_bind (plainOnly_acquire fuel) fun _ => ?_
  refine Triple.bind (hC.getRxBuffer hcond hφ) fun buffer => ?_
  refine hC.plain_bind plainOnly_release fun _ => ?_
  cases buffer with
  | none => exact hC.ret fun s hs => hs.1
  | some b =>
    have hloop : (Prog.iterate (rpmsgVirtioRxRound fuel) fuel b).Only KeepsSetup :=
      Prog.Only.iterate (fun b => setupOnly_rxRound fuel b) fuel b
    exact (hC.ready hloop fun s hs => hs.2 rfl).conseq (fun _ hk => hk)
      fun _ _ hk => hk.weaken fun s _ hs => hs.1

/-- One vring of `rproc_virtio_notified` in the handler. -/
theorem notifiedVring {d : Word} (hon : ∀ s, φ s → s.irqOn = true)
    (hdevice : ∀ s, φ s → s.HasDevice)
    (havail : ∀ s, φ s → s.wiring.Notifies .rvq d → s.ring .rvq .avail ≠ 0) (fuel : ℕ) (q : Vq) :
    Leads C true φ (rprocVirtioNotifiedVring fuel d q) fun _ => φ := by
  simp only [rprocVirtioNotifiedVring, virtqueueNotification, get, Prog.perform_bind]
  refine hC.learn (g := fun s => s.notifyId q) ⟨trivial, fun _ => trivial⟩ (fun _ => rfl)
    fun notifyid => ?_
  split
  · next hmatch =>
    refine hC.learn (g := fun s => s.callback q) ⟨trivial, fun _ => trivial⟩ (fun _ => rfl)
      fun callback => ?_
    split
    · next hcallback =>
      cases q with
      | svq => exact hC.ret fun s hs => hs.1.1
      | rvq =>
        have hreached : ∀ s : Setup, (φ s ∧ s.notifyId .rvq = notifyid) ∧
            s.callback .rvq = callback → Reached s := by
          rintro s ⟨⟨hs, rfl⟩, rfl⟩
          have hdev : s.lists .vdevs ≠ some 0 := fun h => hdevice s hs (by rw [h]; rfl)
          exact ⟨hon s hs, hdevice s hs, havail s hs ⟨hdev, hcallback, hmatch⟩⟩
        exact (hC.rxCallback hcond hreached fuel).conseq (fun _ hk => hk)
          fun _ _ hk => hk.weaken fun s _ hs => hs.1.1
    · exact hC.ret fun s hs => hs.1.1
  · exact hC.ret fun s hs => hs.1

/-- `msgbox_rx` in the handler. -/
theorem msgboxRx {d : Word} (hφ : ∀ s, φ s → s.irqOn = true ∧ (s.lists .vdevs).isSome = true)
    (havail : ∀ s, φ s → s.wiring.Notifies .rvq d → s.ring .rvq .avail ≠ 0) (fuel : ℕ) :
    Leads C true φ (C906Firmware.msgboxRx fuel d) fun _ => φ := by
  intro k hk
  simp only [C906Firmware.msgboxRx, remoteprocGetNotification, Prog.perform_bind]
  refine Outline.act _ hk (hC.inv _) (fun k hk => hC.ok _ k (hφ _ hk.stage).2) fun k x hk _ => ?_
  rw [hC.exec]
  split
  · next hne =>
    have hdevice : k.setup.HasDevice := by
      have hsome := (hφ _ hk.stage).2
      obtain ⟨n, hn⟩ := Option.isSome_iff_exists.mp hsome
      have hlist : k.lists .vdevs = some n := hn
      rw [exec_walk, hlist] at hne
      simpa [Setup.HasDevice, setup, hlist] using hne
    have hstage : Staged true (fun s => φ s ∧ s.HasDevice, none) k :=
      .of_stage hk.context hk.ordered ⟨hk.stage, hdevice⟩
    have hvring := fun q => hC.notifiedVring (φ := fun s => φ s ∧ s.HasDevice) hcond
      (fun s hs => (hφ s hs.1).1) (fun s hs => hs.2) (fun s hs => havail s hs.1) fuel q
    have hloop : Leads C true (fun s => φ s ∧ s.HasDevice) (rprocVirtioNotified fuel d)
        fun _ s => φ s ∧ s.HasDevice :=
      Triple.forEach (hC.ret fun s hs => hs) fun q _ => hvring q
    exact (hloop k hstage).mono fun _ k hk => hk.weaken fun s _ hs => hs.1
  · exact hC.ret (fun s hs => hs) k hk

end Handler

end SetupContract

end Control

end C906Firmware
