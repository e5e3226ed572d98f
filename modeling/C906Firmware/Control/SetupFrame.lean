import C906Firmware.Control.State
import C906Firmware.Model.Footprint
import C906Firmware.Model.Init

/-!
# What the initialisation sets up

`Setup` is the part of the control state that the callback chain relies on: whether the
interrupt has been requested, the receive callback, the two lists, what decides which word
reaches which virtqueue, and of each virtqueue the pointers of its ring and its shared-memory
region. Nothing that runs in the callback chain changes it, and neither does endpoint creation
(`setupOnly_rxCallback`, `setupOnly_createEpt`); `rpmsg_init_vdev` sets the rings and the
regions before it initialises the list of endpoints (`Setup.Ordered`).
-/

namespace C906Firmware

open Interaction

namespace Control

/-- What the callback chain relies on. -/
structure Setup where
  irqOn : Bool
  rxCb : ℕ
  lists : ListHead → Option ℕ
  notifyId : Vq → ℕ
  callback : Vq → ℕ
  ring : Vq → VringPart → ℕ
  shmIo : Vq → ℕ

/-- The setup of a state. -/
def setup (k : Control) : Setup where
  irqOn := k.irqOn
  rxCb := k.vars .rxCb
  lists := k.lists
  notifyId := fun q => k.vars (.notifyId q)
  callback := fun q => k.vars (.vqCallback q)
  ring := fun q p => k.vars (.vqRing q p)
  shmIo := fun q => k.vars (.vqShmIo q)

namespace Setup

/-- What decides which callbacks a word reaches. -/
def wiring (s : Setup) : Wiring := ⟨s.lists .vdevs, s.notifyId, s.callback⟩

/-- There is a virtio device in the list. -/
def HasDevice (s : Setup) : Prop := (s.lists .vdevs).getD 0 ≠ 0

/-- What the access uses is there: a list is walked only when it has been initialised, a field
of a vring is reached only through a pointer that is set, and an address is translated only
through a virtqueue that has its region. -/
def Provides (s : Setup) : Op → Prop
  | .walk l => (s.lists l).isSome = true
  | .get (.vqShmIo q) => s.shmIo q ≠ 0
  | .load c | .store c _ => ∀ i ∈ c.vringPart, s.ring i.1 i.2 ≠ 0
  | _ => True

instance (s : Setup) : DecidablePred s.Provides := by
  intro o
  unfold Provides
  split <;> infer_instance

/-- The lists are initialised, and the virtqueues have their rings and regions. -/
structure Ready (s : Setup) : Prop where
  lists : ∀ l, (s.lists l).isSome = true
  ring : ∀ q p, s.ring q p ≠ 0
  shmIo : ∀ q, s.shmIo q ≠ 0

/-- Once the interrupt is on and there is a device, the available ring of the receive queue
comes after its descriptors, and the endpoints come after the rings and the regions. -/
structure Ordered (s : Setup) : Prop where
  desc : s.irqOn = true → s.HasDevice → s.ring .rvq .avail ≠ 0 → s.ring .rvq .desc ≠ 0
  endpoints : s.irqOn = true → s.HasDevice → (s.lists .endpoints).isSome = true →
    (∀ q p, s.ring q p ≠ 0) ∧ ∀ q, s.shmIo q ≠ 0

variable {s : Setup}

theorem Ready.ordered (h : s.Ready) : s.Ordered where
  desc := fun _ _ _ => h.ring .rvq .desc
  endpoints := fun _ _ _ => ⟨h.ring, h.shmIo⟩

theorem Ready.provides (h : s.Ready) (o : Op) : s.Provides o := by
  unfold Provides
  split
  · exact h.lists _
  · exact h.shmIo _
  · exact fun i _ => h.ring i.1 i.2
  · exact fun i _ => h.ring i.1 i.2
  · trivial

/-- Without a device the callback chain ends at the list of devices. -/
theorem Ordered.of_noDevice (h : ¬s.HasDevice) : s.Ordered where
  desc := fun _ hdevice => absurd hdevice h
  endpoints := fun _ hdevice => absurd hdevice h

/-- Before the interrupt is on there is no callback chain. -/
theorem Ordered.of_off (h : s.irqOn = false) : s.Ordered where
  desc := fun hon => absurd (h.symm.trans hon) Bool.false_ne_true
  endpoints := fun hon => absurd (h.symm.trans hon) Bool.false_ne_true

end Setup

/-- What the access uses is initialised. -/
def Initialised (o : Op) (k : Control) : Prop := k.setup.Provides o

instance (o : Op) (k : Control) : Decidable (Initialised o k) :=
  inferInstanceAs (Decidable (k.setup.Provides o))

/-- The variables of the setup. -/
def SetupVar : Var → Prop
  | .rxCb | .notifyId _ | .vqCallback _ | .vqRing _ _ | .vqShmIo _ => True
  | _ => False

/-- The access leaves the setup alone. -/
def KeepsSetup : Op → Prop
  | .set v _ => ¬SetupVar v
  | .irqRequest | .listZero _ | .listInit _ | .listAdd _ | .listDel _ => False
  | _ => True

/-- The access leaves the setup alone and needs none of it. -/
def Plain (o : Op) : Prop := KeepsSetup o ∧ ∀ s : Setup, s.Provides o

/-- The access leaves the setup alone and needs nothing of it but the ring of a virtqueue. -/
def RingPlain (q : Vq) (o : Op) : Prop :=
  KeepsSetup o ∧ ∀ s : Setup, (∀ p, s.ring q p ≠ 0) → s.Provides o

/-- An access that needs nothing needs no more than a ring. -/
theorem Plain.ringPlain {o : Op} (ho : Plain o) (q : Vq) : RingPlain q o :=
  ⟨ho.1, fun s _ => ho.2 s⟩

/-- The setup after an access that leaves it alone. -/
theorem KeepsSetup.exec {o : Op} (ho : KeepsSetup o) (x : Answer) (k : Control) :
    (Control.exec o x k).2.setup = k.setup ∧ (Control.exec o x k).2.inIsr = k.inIsr := by
  cases o with
  | set v n =>
    have hother : ∀ v', SetupVar v' → Function.update k.vars v n v' = k.vars v' :=
      fun v' hv' => Function.update_of_ne (by rintro rfl; exact ho hv') _ _
    have hsetup : ({ k with vars := Function.update k.vars v n } : Control).setup = k.setup := by
      simp only [setup, hother .rxCb trivial, hother (.notifyId _) trivial,
        hother (.vqCallback _) trivial, hother (.vqRing _ _) trivial,
        hother (.vqShmIo _) trivial]
    by_cases hv : v = .lockCount
    · subst hv
      exact ⟨hsetup, rfl⟩
    · rw [exec_set hv]
      exact ⟨hsetup, rfl⟩
  | irqRequest => exact ho.elim
  | listZero l => exact ho.elim
  | listInit l => exact ho.elim
  | listAdd l => exact ho.elim
  | listDel l => exact ho.elim
  | _ => exact ⟨rfl, rfl⟩

/-- Buffer bytes and cache lines have nothing to do with the setup. -/
theorem BufferOp.plain {o : Op} (ho : BufferOp o) : Plain o := by
  cases o <;> first | exact ho.elim | exact ⟨trivial, fun _ => trivial⟩

/-- Neither has the device lock. -/
theorem LockOp.plain {o : Op} (ho : LockOp o) : Plain o := by
  cases o with
  | get v => rcases ho with rfl | rfl | rfl <;> exact ⟨trivial, fun _ => trivial⟩
  | set v n => rcases ho with rfl | rfl | rfl <;> exact ⟨id, fun _ => trivial⟩
  | clearMie => exact ⟨trivial, fun _ => trivial⟩
  | setMie => exact ⟨trivial, fun _ => trivial⟩
  | block => exact ⟨trivial, fun _ => trivial⟩
  | _ => exact ho.elim

/-- Taking a buffer changes a virtqueue's index, which is not in the setup. -/
theorem TakeOp.keepsSetup {q : Vq} {o : Op} (ho : TakeOp q o) : KeepsSetup o := by
  cases o with
  | get v => trivial
  | set v n => rcases ho with rfl | rfl <;> exact id
  | load c => trivial
  | _ => exact ho.elim

/-- Waiting for a transmit buffer takes the lock, waits, and takes a buffer. -/
theorem TxOp.keepsSetup {o : Op} (ho : TxOp o) : KeepsSetup o := by
  rcases ho with h | h | h | ⟨us, rfl⟩ | rfl
  · exact (LockOp.plain h).1
  · exact (BufferOp.plain h).1
  · exact TakeOp.keepsSetup h
  · trivial
  · trivial

/-- The mailbox driver reads the receive callback and changes only its counters. -/
theorem MailboxOp.plain {o : Op} (ho : MailboxOp o) : Plain o := by
  cases o with
  | get v =>
    rcases ho with rfl | rfl | rfl | rfl | rfl | rfl | rfl <;> exact ⟨trivial, fun _ => trivial⟩
  | set v n => rcases ho with rfl | rfl | rfl | rfl | rfl <;> exact ⟨id, fun _ => trivial⟩
  | load c => exact ho.elim
  | store c n => exact ho.elim
  | irqRequest => exact ho.elim
  | listZero l => exact ho.elim
  | listInit l => exact ho.elim
  | listAdd l => exact ho.elim
  | listDel l => exact ho.elim
  | walk l => exact ho.elim
  | _ => exact ⟨trivial, fun _ => trivial⟩

/-! ### Plain code -/

section PlainOnly

theorem plainOnly_enterCritical : taskEnterCritical.Only Plain :=
  lockOnly_enterCritical.mono fun _ => LockOp.plain

theorem plainOnly_exitCritical : taskExitCritical.Only Plain :=
  lockOnly_exitCritical.mono fun _ => LockOp.plain

theorem plainOnly_acquire (fuel : ℕ) : (metalMutexAcquire fuel).Only Plain :=
  (lockOnly_acquire fuel).mono fun _ => LockOp.plain

theorem plainOnly_release : metalMutexRelease.Only Plain :=
  lockOnly_release.mono fun _ => LockOp.plain

/-- `VQUEUE_BUSY` and `VQUEUE_IDLE` set a flag that is not in the setup. -/
theorem plainOnly_busy (q : Vq) : (vqueueBusy q).Only Plain := by
  simp [vqueueBusy, Plain, KeepsSetup, SetupVar, Setup.Provides]

theorem plainOnly_idle (q : Vq) : (vqueueIdle q).Only Plain := by
  simp [vqueueIdle, Plain, KeepsSetup, SetupVar, Setup.Provides]

/-- Cache maintenance of a field goes by its address, not by its content. -/
theorem plainOnly_invalidate (c : Cell) (size : ℕ) : (vringInvalidate c size).Only Plain :=
  (bufferOnly_invalidate _ _).mono fun _ => BufferOp.plain

theorem plainOnly_flush (c : Cell) (size : ℕ) : (vringFlush c size).Only Plain :=
  (bufferOnly_flush _ _).mono fun _ => BufferOp.plain

/-- A field that is in no vring needs no ring. -/
theorem plain_load {c : Cell} (hc : c.vringPart = none) : Plain (.load c) := by
  simp [Plain, KeepsSetup, Setup.Provides, hc]

/-- A field that is in no vring: one of the resource table. -/
theorem plainOnly_ioRead {c : Cell} (hc : c.vringPart = none) (width : ℕ) :
    (shmemMetalIoRead c width).Only Plain :=
  (plainOnly_invalidate c width).bind fun _ => ⟨plain_load hc, fun _ => trivial⟩

theorem plainOnly_ioWrite {c : Cell} (hc : c.vringPart = none) (value width : ℕ) :
    (shmemMetalIoWrite c value width).Only Plain :=
  ⟨by simp [Plain, KeepsSetup, Setup.Provides, hc], fun _ => plainOnly_flush c width⟩

theorem plainOnly_load32 (a : ℕ) : (load32 a).Only Plain := by
  simp [load32, Plain, KeepsSetup, Setup.Provides]

/-- Sending a word uses registers only, for as many rounds as it waits. -/
theorem plainOnly_send (data : Word) : (msgboxSend data).Only Plain := by
  have hwait : ∀ retry, (msgboxSendWait retry).Only Plain := by
    intro retry
    induction retry with
    | zero => simp [msgboxSendWait]
    | succ retry ih =>
      simp [msgboxSendWait, regBitsGet, Plain, KeepsSetup, Setup.Provides, ih]
  exact (hwait 5000).bind fun _ => by simp [Plain, KeepsSetup, Setup.Provides]

/-- A notification reads its id, which is in the setup, and sends it. -/
theorem plainOnly_notify (q : Vq) : (vqRingNotify q).Only Plain := by
  simp only [vqRingNotify, rprocVirtioVirtqueueNotify, get, Prog.perform_bind, Prog.only_act]
  exact ⟨⟨trivial, fun _ => trivial⟩, fun id => (plainOnly_send _).bind fun _ => trivial⟩

end PlainOnly

/-! ### Code that needs the ring of a virtqueue -/

section RingOnly

variable {α : Type} {p : Code α}

/-- Code that needs nothing needs no more than a ring. -/
theorem PlainOnly.ringPlain (hp : p.Only Plain) (q : Vq) : p.Only (RingPlain q) :=
  hp.mono fun _ ho => ho.ringPlain q

/-- Reading a field of the ring, and then the rest. -/
theorem ringOnly_load {q : Vq} {part : VringPart} {c : Cell} {f : ℕ → Code α}
    (hc : c.vringPart = some (q, part)) (hf : ∀ n, (f n).Only (RingPlain q)) :
    (.act (Op.load c) f : Code α).Only (RingPlain q) := by
  refine ⟨⟨trivial, fun s hs i hi => ?_⟩, hf⟩
  obtain rfl : (q, part) = i := Option.some.inj (hc.symm.trans hi)
  exact hs part

/-- Writing a field of the ring, and then the rest. -/
theorem ringOnly_store {q : Vq} {part : VringPart} {c : Cell} {n : ℕ} {f : Unit → Code α}
    (hc : c.vringPart = some (q, part)) (hf : (f ()).Only (RingPlain q)) :
    (.act (Op.store c n) f : Code α).Only (RingPlain q) := by
  refine ⟨⟨trivial, fun s hs i hi => ?_⟩, fun _ => hf⟩
  obtain rfl : (q, part) = i := Option.some.inj (hc.symm.trans hi)
  exact hs part

/-- Giving a buffer back reads and writes the used ring. -/
theorem ringOnly_addConsumedBuffer (q : Vq) (headIdx len : ℕ) :
    (virtqueueAddConsumedBuffer q headIdx len).Only (RingPlain q) := by
  have hrest : Prog.Only Plain (do
      let queued ← get (.vqQueuedCnt q)
      set (.vqQueuedCnt q) ((queued + 1) % 2 ^ 16)
      vqueueIdle q
      pure true) := by
    simp [vqueueIdle, Plain, KeepsSetup, SetupVar, Setup.Provides]
  refine Prog.Only.ite trivial ((PlainOnly.ringPlain (plainOnly_busy q) q).bind fun _ => ?_)
  simp only [Prog.perform_bind]
  refine ringOnly_load rfl fun idx => ringOnly_store rfl (ringOnly_store rfl ?_)
  refine (PlainOnly.ringPlain (plainOnly_flush _ _) q).bind fun _ => ?_
  refine ringOnly_load rfl fun idx => ringOnly_store rfl ?_
  exact (PlainOnly.ringPlain (plainOnly_flush _ _) q).bind fun _ =>
    PlainOnly.ringPlain hrest q

/-- A kick reads the flags of the available ring. -/
theorem ringOnly_kick (q : Vq) : (virtqueueKick q).Only (RingPlain q) := by
  have hrest : (set (.vqQueuedCnt q) 0 >>= fun _ => vqueueIdle q).Only Plain := by
    simp [vqueueIdle, Plain, KeepsSetup, SetupVar, Setup.Provides]
  have hmust : (vqRingMustNotify q).Only (RingPlain q) := by
    refine (PlainOnly.ringPlain (plainOnly_invalidate _ _) q).bind fun _ => ?_
    simp only [Prog.perform_bind]
    exact ringOnly_load rfl fun _ => trivial
  refine (PlainOnly.ringPlain (plainOnly_busy q) q).bind fun _ => hmust.bind fun must => ?_
  refine Prog.Only.ite ?_ (PlainOnly.ringPlain hrest q)
  exact PlainOnly.ringPlain ((plainOnly_notify q).bind fun _ => hrest) q

/-- Switching notifications off reads and writes the flags of the used ring. -/
theorem ringOnly_disableCb (q : Vq) : (virtqueueDisableCb q).Only (RingPlain q) := by
  refine (PlainOnly.ringPlain (plainOnly_busy q) q).bind fun _ => ?_
  simp only [Prog.perform_bind]
  refine ringOnly_load rfl fun flags => ringOnly_store rfl ?_
  refine (PlainOnly.ringPlain (plainOnly_flush _ _) q).bind fun _ => ?_
  exact PlainOnly.ringPlain (plainOnly_idle q) q

end RingOnly

/-! ### The callback chain -/

section SetupOnly

variable {α : Type} {p : Code α}

/-- What plain code does not need it does not change either. -/
theorem PlainOnly.keepsSetup (hp : p.Only Plain) : p.Only KeepsSetup := hp.mono fun _ ho => ho.1

/-- What uses a ring does not change its pointers. -/
theorem RingOnly.keepsSetup {q : Vq} (hp : p.Only (RingPlain q)) : p.Only KeepsSetup :=
  hp.mono fun _ ho => ho.1

theorem setupOnly_blockWrite (ptr : ℕ) (src : Src) (len : ℕ) :
    (metalIoBlockWrite ptr src len).Only KeepsSetup :=
  (bufferOnly_blockWrite _ _ _).mono fun _ ho => (BufferOp.plain ho).1

theorem setupOnly_load32 (a : ℕ) : (load32 a).Only KeepsSetup :=
  PlainOnly.keepsSetup (plainOnly_load32 a)

theorem setupOnly_acquire (fuel : ℕ) : (metalMutexAcquire fuel).Only KeepsSetup :=
  PlainOnly.keepsSetup (plainOnly_acquire fuel)

theorem setupOnly_release : metalMutexRelease.Only KeepsSetup :=
  PlainOnly.keepsSetup plainOnly_release

/-- Taking a buffer uses the setup and leaves it alone. -/
theorem setupOnly_getAvailableBuffer (q : Vq) :
    (virtqueueGetAvailableBuffer q).Only KeepsSetup :=
  (takeOnly_getAvailableBuffer q).mono fun _ ho =>
    ho.elim (fun h => (BufferOp.plain h).1) TakeOp.keepsSetup

/-- Sending a buffer that has been filled leaves the setup alone: header, used ring and kick. -/
theorem setupOnly_sendNocopy (fuel src dst data len : ℕ) :
    (rpmsgVirtioSendOffchannelNocopy fuel src dst data len).Only KeepsSetup := by
  refine (setupOnly_load32 _).bind fun idx => ⟨trivial, fun sp => ?_⟩
  refine (setupOnly_blockWrite _ _ _).bind fun status => Prog.Only.ite trivial ?_
  refine (setupOnly_acquire fuel).bind fun _ => Prog.Only.bind ?_ fun buffLen => ?_
  · exact (PlainOnly.keepsSetup (plainOnly_invalidate _ _)).bind fun _ => by simp [KeepsSetup]
  refine (RingOnly.keepsSetup (ringOnly_addConsumedBuffer _ _ _)).bind fun ok => ?_
  refine Prog.Only.ite ?_ trivial
  refine (RingOnly.keepsSetup (ringOnly_kick .svq)).bind fun _ => ?_
  exact setupOnly_release.bind fun _ => trivial

/-- Sending a message leaves the setup alone, from the wait for a buffer on. -/
theorem setupOnly_sendOffchannelRaw (fuel : ℕ) (ept : Ept) (src dst : ℕ) (data : Src) (len : ℕ) :
    (rpmsgSendOffchannelRaw fuel ept src dst data len).Only KeepsSetup := by
  have hpayload : (rpmsgVirtioGetTxPayloadBuffer fuel).Only KeepsSetup :=
    (txOnly_getTxPayloadBuffer fuel).mono fun _ => TxOp.keepsSetup
  refine ⟨trivial, fun rdev => Prog.Only.ite trivial ?_⟩
  refine hpayload.bind fun buffer => ?_
  rcases buffer with - | ⟨payload, buffLen⟩
  · trivial
  · refine Prog.Only.ite trivial ((setupOnly_blockWrite _ _ _).bind fun status => ?_)
    exact Prog.Only.ite trivial (setupOnly_sendNocopy _ _ _ _ _)

/-- The search for an endpoint walks the list and compares. -/
theorem setupOnly_getEndpoint (name : Option (List Byte)) (addr dest : ℕ) :
    (rpmsgGetEndpoint name addr dest).Only KeepsSetup := by
  have hscan : ∀ epts, (rpmsgScanEndpoints name addr dest epts).Only KeepsSetup := by
    intro epts
    induction epts with
    | nil => simp [rpmsgScanEndpoints]
    | cons e rest ih => simp [rpmsgScanEndpoints, KeepsSetup, ih]
  exact ⟨trivial, fun _ => hscan _⟩

/-- The echo callback binds its endpoint at most, and sends. -/
theorem setupOnly_echoCb (fuel : ℕ) (ept : Ept) (data len src : ℕ) :
    (rpmsgEchoCb fuel ept data len src).Only KeepsSetup := by
  have hreply : Prog.Only KeepsSetup (do
      let _ ← get (.eptDest ept)
      Prog.forEach (fun i => do let _ ← access (.load8 (data + i))) (List.range (min len 32))
      let _ ← rpmsgSend fuel ept (.mem data) len
      pure RPMSG_SUCCESS) := by
    refine ⟨trivial, fun _ => (Prog.Only.forEach fun _ => by simp [KeepsSetup]).bind fun _ => ?_⟩
    refine Prog.Only.bind ⟨trivial, fun dst => ?_⟩ fun _ => trivial
    exact setupOnly_sendOffchannelRaw _ _ _ _ _ _
  refine ⟨trivial, fun dest => Prog.Only.ite ?_ hreply⟩
  exact ⟨by simp [KeepsSetup, SetupVar], fun _ => hreply⟩

/-- The name service callback reads the message and unbinds an endpoint at most. -/
theorem setupOnly_nsCallback (fuel data len : ℕ) :
    (rpmsgVirtioNsCallback fuel data len).Only KeepsSetup := by
  have hread : ∀ ptr dst len, (metalIoBlockRead ptr dst len).Only KeepsSetup :=
    fun _ _ _ => (bufferOnly_blockRead _ _ _).mono fun _ ho => (BufferOp.plain ho).1
  refine Prog.Only.ite trivial ⟨trivial, fun sp => (hread _ _ _).bind fun name => ?_⟩
  refine (setupOnly_load32 _).bind fun dest => (setupOnly_acquire fuel).bind fun _ => ?_
  refine (setupOnly_getEndpoint _ _ _).bind fun ept => (setupOnly_load32 _).bind fun flags => ?_
  have hrest : (metalMutexRelease >>= fun _ => (pure RPMSG_SUCCESS : Code ℤ)).Only KeepsSetup :=
    setupOnly_release.bind fun _ => trivial
  cases ept with
  | none => exact hrest
  | some e => exact ⟨by simp [KeepsSetup, SetupVar], fun _ => hrest⟩

/-- Handing a message to its endpoint leaves the setup alone, whichever endpoint it is. -/
theorem setupOnly_rxDispatch (fuel : ℕ) (b : Buffer) :
    (rpmsgVirtioRxDispatch fuel b).Only KeepsSetup := by
  refine ⟨trivial, fun _ => (setupOnly_acquire fuel).bind fun _ => ?_⟩
  refine (setupOnly_load32 _).bind fun dst => (setupOnly_getEndpoint _ _ _).bind fun ept => ?_
  refine setupOnly_release.bind fun _ => ?_
  cases ept with
  | none => trivial
  | some e =>
    have hcb : ∀ len src, (eptCb fuel e (locateData b.addr) len src).Only KeepsSetup := by
      intro len src
      cases e with
      | ns => exact setupOnly_nsCallback _ _ _
      | echo => exact setupOnly_echoCb _ _ _ _ _
    have hrest : Prog.Only KeepsSetup (do
        let len ← hdrLen b.addr
        let src ← hdrSrc b.addr
        let status ← eptCb fuel e (locateData b.addr) len src
        if status < 0 then
          Prog.stop) := by
      refine Prog.Only.bind ((setupOnly_load32 _).bind fun _ => trivial) fun len => ?_
      refine (setupOnly_load32 _).bind fun src => (hcb len src).bind fun status => ?_
      exact Prog.Only.ite trivial trivial
    refine ⟨trivial, fun dest => Prog.Only.ite ?_ hrest⟩
    exact (setupOnly_load32 _).bind fun src => ⟨by simp [KeepsSetup, SetupVar], fun _ => hrest⟩

/-- A round of the receive loop leaves the setup alone: it gives the buffer back and takes the
next. -/
theorem setupOnly_rxRound (fuel : ℕ) (b : Buffer) :
    (rpmsgVirtioRxRound fuel b).Only KeepsSetup := by
  have hrest : rxRoundRest.Only KeepsSetup := by
    refine (setupOnly_getAvailableBuffer .rvq).bind fun next => ?_
    cases next with
    | some b' => exact setupOnly_release.bind fun _ => trivial
    | none =>
      refine (RingOnly.keepsSetup (ringOnly_kick .rvq)).bind fun _ => ?_
      exact setupOnly_release.bind fun _ => trivial
  refine (setupOnly_rxDispatch fuel b).bind fun _ => (setupOnly_acquire fuel).bind fun _ => ?_
  refine (setupOnly_load32 _).bind fun reserved => Prog.Only.ite ?_ hrest
  exact (RingOnly.keepsSetup (ringOnly_addConsumedBuffer _ _ _)).bind fun _ => hrest

/-- The receive callback leaves the setup alone. -/
theorem setupOnly_rxCallback (fuel : ℕ) : (rpmsgVirtioRxCallback fuel).Only KeepsSetup := by
  refine (setupOnly_acquire fuel).bind fun _ => ?_
  refine (setupOnly_getAvailableBuffer .rvq).bind fun buffer => setupOnly_release.bind fun _ => ?_
  cases buffer with
  | none => trivial
  | some b => exact Prog.Only.iterate (fun b => setupOnly_rxRound fuel b) fuel b

/-- `msgbox_rx` reads which queues a word notifies, and leaves that alone. -/
theorem setupOnly_msgboxRx (fuel : ℕ) (data : Word) : (msgboxRx fuel data).Only KeepsSetup := by
  have hvring : ∀ q, (rprocVirtioNotifiedVring fuel data q).Only KeepsSetup := by
    intro q
    have hcb : (vqCallback fuel q).Only KeepsSetup := by
      cases q with
      | svq => trivial
      | rvq => exact setupOnly_rxCallback fuel
    refine ⟨trivial, fun notifyid => Prog.Only.ite ?_ trivial⟩
    exact ⟨trivial, fun callback => Prog.Only.ite hcb trivial⟩
  exact ⟨trivial, fun devices => Prog.Only.ite (Prog.Only.forEach hvring) trivial⟩

/-- Endpoint creation leaves the setup alone. -/
theorem setupOnly_createEpt (fuel : ℕ) : (rpmsgCreateEpt fuel).Only KeepsSetup := by
  have hns : (rpmsgSendNsMessage fuel .echo RPMSG_NS_CREATE).Only KeepsSetup :=
    ⟨trivial, fun sp => (setupOnly_sendOffchannelRaw _ _ _ _ _ _).bind fun _ => trivial⟩
  have hrest : ∀ status : ℤ, Prog.Only KeepsSetup (do
      if status ≠ 0 then
        rpmsgUnregisterEndpoint fuel .echo
      pure status) := by
    intro status
    refine Prog.Only.ite (Prog.Only.bind ?_ fun _ => trivial) trivial
    refine (setupOnly_acquire fuel).bind fun _ => ?_
    exact ⟨by simp [KeepsSetup, SetupVar], fun _ => setupOnly_release⟩
  refine (setupOnly_acquire fuel).bind fun _ => ⟨by simp [KeepsSetup, SetupVar], fun _ => ?_⟩
  refine ⟨by simp [KeepsSetup, SetupVar], fun _ => setupOnly_release.bind fun _ => ?_⟩
  refine ⟨trivial, fun supportNs => ⟨trivial, fun dest => ?_⟩⟩
  exact Prog.Only.ite (hns.bind hrest) (hrest RPMSG_SUCCESS)

end SetupOnly

end Control

end C906Firmware
