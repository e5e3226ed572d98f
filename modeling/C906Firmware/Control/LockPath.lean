import C906Firmware.Control.LockOutline

/-!
# The RPMsg code under the lock

The functions of the send path, of the receive path and of endpoint creation, in the order of
the source: those of the virtqueues run under the lock and keep it, the others take the lock
for their uses of the virtqueues and give it back.
-/

namespace C906Firmware

open Interaction

namespace Control

/-! ### Code that is harmless -/

/-- Accesses to buffers and cache lines neither touch the lock nor a busy flag. -/
theorem BufferOp.harmless {o : Op} (ho : BufferOp o) : Harmless o := by
  cases o <;> trivial

section HarmlessOnly

theorem harmlessOnly_invalidate (c : Cell) (size : ℕ) :
    (vringInvalidate c size).Only Harmless :=
  (bufferOnly_invalidate _ _).mono fun _ => BufferOp.harmless

theorem harmlessOnly_flush (c : Cell) (size : ℕ) : (vringFlush c size).Only Harmless :=
  (bufferOnly_flush _ _).mono fun _ => BufferOp.harmless

/-- Copying into a buffer takes no lock. -/
theorem harmlessOnly_blockWrite (ptr : ℕ) (src : Src) (len : ℕ) :
    (metalIoBlockWrite ptr src len).Only Harmless :=
  (bufferOnly_blockWrite _ _ _).mono fun _ => BufferOp.harmless

/-- Copying out of a buffer takes no lock. -/
theorem harmlessOnly_blockRead (ptr dst len : ℕ) :
    (metalIoBlockRead ptr dst len).Only Harmless :=
  (bufferOnly_blockRead _ _ _).mono fun _ => BufferOp.harmless

theorem harmlessOnly_load32 (a : ℕ) : (load32 a).Only Harmless := by
  simp [load32, Harmless]

theorem harmlessOnly_bufferLength (q : Vq) (idx : ℕ) :
    (virtqueueGetBufferLength q idx).Only Harmless :=
  (harmlessOnly_invalidate _ _).bind fun _ => by simp [Harmless]

/-- The wait of `msgbox_send` polls a register. -/
theorem harmlessOnly_sendWait (retry : ℕ) : (msgboxSendWait retry).Only Harmless := by
  induction retry with
  | zero => simp [msgboxSendWait]
  | succ retry ih => simp [msgboxSendWait, regBitsGet, Harmless, ih]

/-- A notification sends a word and takes no lock. -/
theorem harmlessOnly_notify (q : Vq) : (vqRingNotify q).Only Harmless := by
  simp only [vqRingNotify, rprocVirtioVirtqueueNotify, get, Prog.perform_bind, Prog.only_act]
  refine ⟨by simp [Harmless], fun id => ?_⟩
  refine Prog.Only.bind ?_ fun _ => by simp
  exact (harmlessOnly_sendWait 5000).bind fun _ => by simp [Harmless]

/-- The search for an endpoint takes no lock of its own: its callers hold it. -/
theorem harmlessOnly_scanEndpoints (name : Option (List Byte)) (addr dest : ℕ)
    (epts : List Ept) : (rpmsgScanEndpoints name addr dest epts).Only Harmless := by
  induction epts with
  | nil => simp [rpmsgScanEndpoints]
  | cons e rest ih => simp [rpmsgScanEndpoints, Harmless, ih]

theorem harmlessOnly_getEndpoint (name : Option (List Byte)) (addr dest : ℕ) :
    (rpmsgGetEndpoint name addr dest).Only Harmless := by
  simp only [rpmsgGetEndpoint, Prog.perform_bind, Prog.only_act]
  exact ⟨trivial, fun _ => harmlessOnly_scanEndpoints _ _ _ _⟩

end HarmlessOnly

namespace LockContract

variable {C : Contract Ret Control Answer} {c : Bool} {w : Wiring}

section Path

variable (hC : LockContract C c w)
include hC

/-! ### Virtqueues, under the lock -/

/-- A buffer is taken with the lock held, and the queue is busy in between. -/
theorem getAvailableBuffer (q : Vq) :
    Takes C c w (.held c) (.held c) (virtqueueGetAvailableBuffer q) := by
  refine hC.only_bind (harmlessOnly_invalidate _ _) fun _ => ?_
  refine hC.only_bind (by simp [Harmless]) fun mine => ?_
  refine hC.only_bind (by simp [Harmless]) fun theirs => ?_
  refine Takes.ite (hC.only (by simp)) ?_
  refine (hC.vqueueBusy q).bind fun _ => ?_
  refine hC.only_bind (by simp [Harmless]) fun idx => ?_
  refine hC.only_bind (by simp [Harmless]) fun _ => ?_
  refine hC.only_bind (harmlessOnly_invalidate _ _) fun _ => ?_
  refine hC.only_bind (by simp [Harmless]) fun availIdx => ?_
  refine hC.only_bind (harmlessOnly_invalidate _ _) fun _ => ?_
  refine hC.only_bind (by simp [Harmless]) fun phys => ?_
  refine hC.only_bind (by simp [virtqueuePhysToVirt, Harmless]) fun buffer => ?_
  refine hC.only_bind (by simp [Harmless]) fun len => ?_
  exact (hC.vqueueIdle q).bind fun _ => hC.ret _

/-- A buffer is given back with the lock held, and the queue is busy in between. -/
theorem addConsumedBuffer (q : Vq) (headIdx len : ℕ) :
    Takes C c w (.held c) (.held c) (virtqueueAddConsumedBuffer q headIdx len) := by
  refine Takes.ite (hC.only (by simp)) ?_
  refine (hC.vqueueBusy q).bind fun _ => ?_
  refine hC.only_bind (by simp [Harmless]) fun idx => ?_
  refine hC.only_bind (by simp [Harmless]) fun _ => ?_
  refine hC.only_bind (by simp [Harmless]) fun _ => ?_
  refine hC.only_bind (harmlessOnly_flush _ _) fun _ => ?_
  refine hC.only_bind (by simp [Harmless]) fun idx => ?_
  refine hC.only_bind (by simp [Harmless]) fun _ => ?_
  refine hC.only_bind (harmlessOnly_flush _ _) fun _ => ?_
  refine hC.only_bind (by simp [Harmless]) fun queued => ?_
  refine hC.only_bind (by simp [Harmless]) fun _ => ?_
  exact (hC.vqueueIdle q).bind fun _ => hC.ret _

/-- A queue is kicked with the lock held, and is busy in between. -/
theorem kick (q : Vq) : Takes C c w (.held c) (.held c) (virtqueueKick q) := by
  have hmust : (vqRingMustNotify q).Only Harmless :=
    (harmlessOnly_invalidate _ _).bind fun _ => by simp [Harmless]
  refine (hC.vqueueBusy q).bind fun _ => ?_
  refine hC.only_bind hmust fun must => ?_
  have hrest : Takes C c w (.busy c q) (.held c)
      (set (.vqQueuedCnt q) 0 >>= fun _ => C906Firmware.vqueueIdle q) :=
    hC.only_bind (by simp [Harmless]) fun _ => hC.vqueueIdle q
  exact Takes.ite (hC.only_bind (harmlessOnly_notify q) fun _ => hrest) hrest

/-! ### Sending -/

/-- An attempt to get a transmit buffer takes the lock and releases it. -/
theorem tryTxBuffer (fuel : ℕ) :
    Takes C c w .free .free (rpmsgVirtioTryTxBuffer fuel) := by
  refine (hC.metalMutexAcquire fuel).bind fun _ => ?_
  refine (hC.getAvailableBuffer .svq).bind fun _ => ?_
  exact hC.metalMutexRelease.bind fun _ => hC.ret _

/-- Each attempt of the wait takes and releases the lock, which is free while the task sleeps. -/
theorem waitTxBuffer (fuel tickCount : ℕ) :
    Takes C c w .free .free (rpmsgVirtioWaitTxBuffer fuel tickCount) := by
  induction tickCount with
  | zero => exact hC.tryTxBuffer fuel
  | succ tickCount ih =>
    refine (hC.tryTxBuffer fuel).bind fun buffer => ?_
    cases buffer with
    | some b => exact hC.ret _
    | none => exact hC.only_bind (by simp [Harmless]) fun _ => ih

theorem getTxPayloadBuffer (fuel : ℕ) :
    Takes C c w .free .free (rpmsgVirtioGetTxPayloadBuffer fuel) := by
  have hstatus : rprocVirtioGetStatus.Only Harmless :=
    ((bufferOnly_cacheInvalidate _ _).mono fun _ => BufferOp.harmless).bind fun _ => by
      simp [Harmless]
  refine hC.only_bind hstatus fun status => ?_
  refine Takes.ite (hC.ret _) ?_
  refine (hC.waitTxBuffer fuel _).bind fun buffer => ?_
  cases buffer with
  | none => exact hC.ret _
  | some b => exact hC.only_bind (by simp [setHdrReserved, Harmless]) fun _ => hC.ret _

/-- The header is written without the lock, and the buffer is given to the host with it. -/
theorem sendNocopy (fuel src dst data len : ℕ) :
    Takes C c w .free .free (rpmsgVirtioSendOffchannelNocopy fuel src dst data len) := by
  refine hC.only_bind (harmlessOnly_load32 _) fun idx => ?_
  refine hC.only_bind (by simp [Harmless]) fun sp => ?_
  refine hC.only_bind (harmlessOnly_blockWrite _ _ _) fun status => ?_
  refine Takes.ite hC.stop ?_
  refine (hC.metalMutexAcquire fuel).bind fun _ => ?_
  refine hC.only_bind (harmlessOnly_bufferLength _ _) fun buffLen => ?_
  refine (hC.addConsumedBuffer _ _ _).bind fun ok => ?_
  refine Takes.ite ?_ hC.stop
  refine (hC.kick .svq).bind fun _ => ?_
  exact hC.metalMutexRelease.bind fun _ => hC.ret _

theorem virtioSendRaw (fuel src dst : ℕ) (data : Src) (len : ℕ) :
    Takes C c w .free .free (rpmsgVirtioSendOffchannelRaw fuel src dst data len) := by
  refine (hC.getTxPayloadBuffer fuel).bind fun buffer => ?_
  rcases buffer with - | ⟨payload, buffLen⟩
  · exact hC.ret _
  · refine Takes.ite hC.stop ?_
    refine hC.only_bind (harmlessOnly_blockWrite _ _ _) fun status => ?_
    exact Takes.ite hC.stop (hC.sendNocopy _ _ _ _ _)

/-- A message is sent from a free lock to a free lock. -/
theorem sendOffchannelRaw (fuel : ℕ) (ept : Ept) (src dst : ℕ) (data : Src) (len : ℕ) :
    Takes C c w .free .free (rpmsgSendOffchannelRaw fuel ept src dst data len) := by
  refine hC.only_bind (by simp [Harmless]) fun rdev => ?_
  exact Takes.ite (hC.ret _) (hC.virtioSendRaw _ _ _ _ _)

theorem send (fuel : ℕ) (ept : Ept) (data : Src) (len : ℕ) :
    Takes C c w .free .free (rpmsgSend fuel ept data len) :=
  hC.only_bind (by simp [Harmless]) fun _ => hC.sendOffchannelRaw _ _ _ _ _ _

/-! ### Receiving -/

/-- The echo callback is called with the lock free, and answers. -/
theorem echoCb (fuel : ℕ) (ept : Ept) (data len src : ℕ) :
    Takes C c w .free .free (rpmsgEchoCb fuel ept data len src) := by
  refine hC.only_bind (by simp [Harmless]) fun dest => ?_
  have hreply : Takes C c w .free .free (do
      let _ ← get (.eptDest ept)
      Prog.forEach (fun i => do let _ ← access (.load8 (data + i))) (List.range (min len 32))
      let _ ← rpmsgSend fuel ept (.mem data) len
      pure RPMSG_SUCCESS) := by
    refine hC.only_bind (by simp [Harmless]) fun _ => ?_
    refine hC.only_bind (Prog.Only.forEach fun _ => by simp [Harmless]) fun _ => ?_
    exact (hC.send _ _ _ _).bind fun _ => hC.ret _
  exact Takes.ite (hC.only_bind (by simp [Harmless]) fun _ => hreply) hreply

/-- The name service callback takes the lock for the search and releases it. -/
theorem nsCallback (fuel data len : ℕ) :
    Takes C c w .free .free (rpmsgVirtioNsCallback fuel data len) := by
  refine Takes.ite (hC.ret _) ?_
  refine hC.only_bind (by simp [Harmless]) fun sp => ?_
  refine hC.only_bind (harmlessOnly_blockRead _ _ _) fun name => ?_
  refine hC.only_bind (harmlessOnly_load32 _) fun dest => ?_
  refine (hC.metalMutexAcquire fuel).bind fun _ => ?_
  refine hC.only_bind (harmlessOnly_getEndpoint _ _ _) fun ept => ?_
  refine hC.only_bind (harmlessOnly_load32 _) fun flags => ?_
  have hrest : Takes C c w (.held c) .free
      (C906Firmware.metalMutexRelease >>= fun _ => pure RPMSG_SUCCESS) :=
    hC.metalMutexRelease.bind fun _ => hC.ret _
  cases ept with
  | none => exact hrest
  | some e => exact hC.only_bind (by simp [Harmless]) fun _ => hrest

/-- Either callback leaves the lock as it was found. -/
theorem endpointCb (fuel : ℕ) (ept : Ept) (data len src : ℕ) :
    Takes C c w .free .free (eptCb fuel ept data len src) := by
  cases ept with
  | ns => exact hC.nsCallback _ _ _
  | echo => exact hC.echoCb _ _ _ _ _

/-- The endpoint is looked up with the lock held, and called with the lock free. -/
theorem rxDispatch (fuel : ℕ) (b : Buffer) :
    Takes C c w .free .free (rpmsgVirtioRxDispatch fuel b) := by
  refine hC.only_bind (by simp [setHdrReserved, Harmless]) fun _ => ?_
  refine (hC.metalMutexAcquire fuel).bind fun _ => ?_
  refine hC.only_bind (harmlessOnly_load32 _) fun dst => ?_
  refine hC.only_bind (harmlessOnly_getEndpoint _ _ _) fun ept => ?_
  refine hC.metalMutexRelease.bind fun _ => ?_
  cases ept with
  | none => exact hC.ret _
  | some e =>
    refine hC.only_bind (by simp [Harmless]) fun dest => ?_
    have hrest : Takes C c w .free .free (do
        let len ← hdrLen b.addr
        let src ← hdrSrc b.addr
        let status ← eptCb fuel e (locateData b.addr) len src
        if status < 0 then
          Prog.stop) := by
      refine hC.only_bind ((harmlessOnly_load32 _).bind fun _ => by simp) fun len => ?_
      refine hC.only_bind (harmlessOnly_load32 _) fun src => ?_
      refine (hC.endpointCb _ _ _ _ _).bind fun status => ?_
      exact Takes.ite hC.stop (hC.ret _)
    refine Takes.ite (hC.only_bind (harmlessOnly_load32 _) fun src => ?_) hrest
    exact hC.only_bind (by simp [Harmless]) fun _ => hrest

/-- A round of the receive loop takes the lock for the queue only. -/
theorem rxRound (fuel : ℕ) (b : Buffer) :
    Takes C c w .free .free (rpmsgVirtioRxRound fuel b) := by
  refine (hC.rxDispatch fuel b).bind fun _ => ?_
  refine (hC.metalMutexAcquire fuel).bind fun _ => ?_
  refine hC.only_bind (harmlessOnly_load32 _) fun reserved => ?_
  have hrest : Takes C c w (.held c) .free rxRoundRest := by
    refine (hC.getAvailableBuffer .rvq).bind fun next => ?_
    cases next with
    | some b' => exact hC.metalMutexRelease.bind fun _ => hC.ret _
    | none =>
      refine (hC.kick .rvq).bind fun _ => ?_
      exact hC.metalMutexRelease.bind fun _ => hC.ret _
  exact Takes.ite ((hC.addConsumedBuffer _ _ _).bind fun _ => hrest) hrest

/-- **The receive callback** takes the lock for each of its uses of the virtqueues and returns
with the lock free. -/
theorem rxCallback (fuel : ℕ) : Takes C c w .free .free (rpmsgVirtioRxCallback fuel) := by
  refine (hC.metalMutexAcquire fuel).bind fun _ => ?_
  refine (hC.getAvailableBuffer .rvq).bind fun buffer => ?_
  refine hC.metalMutexRelease.bind fun _ => ?_
  cases buffer with
  | none => exact hC.ret _
  | some b => exact hC.iterate (fun b => hC.rxRound fuel b) fuel b

/-! ### Creating the echo endpoint -/

/-- An announcement is a message like any other. -/
theorem sendNsMessage (fuel : ℕ) (ept : Ept) (flags : ℕ) :
    Takes C c w .free .free (rpmsgSendNsMessage fuel ept flags) := by
  refine hC.only_bind (by simp [Harmless]) fun sp => ?_
  exact (hC.sendOffchannelRaw _ _ _ _ _ _).bind fun _ => hC.ret _

/-- **Endpoint creation** returns with the lock free. -/
theorem createEpt (fuel : ℕ) : Takes C c w .free .free (rpmsgCreateEpt fuel) := by
  refine (hC.metalMutexAcquire fuel).bind fun _ => ?_
  refine hC.only_bind (by simp [Harmless]) fun _ => ?_
  refine hC.only_bind (by simp [Harmless]) fun _ => ?_
  refine hC.metalMutexRelease.bind fun _ => ?_
  refine hC.only_bind (by simp [Harmless]) fun supportNs => ?_
  refine hC.only_bind (by simp [Harmless]) fun dest => ?_
  have hrest : ∀ status : ℤ, Takes C c w .free .free (do
      if status ≠ 0 then
        rpmsgUnregisterEndpoint fuel .echo
      pure status) := by
    intro status
    refine Takes.ite ?_ (hC.ret _)
    refine Takes.bind (v := .free) ?_ fun _ => hC.ret _
    refine (hC.metalMutexAcquire fuel).bind fun _ => ?_
    exact hC.only_bind (by simp [Harmless]) fun _ => hC.metalMutexRelease
  exact Takes.ite ((hC.sendNsMessage _ _ _).bind hrest) ((hC.ret _).bind hrest)

end Path

end LockContract

end Control

end C906Firmware
