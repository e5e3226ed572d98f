import C906Firmware.Model.Mailbox
import C906Firmware.Model.SharedMemory

/-!
# Virtqueues of a remote device

The functions of `virtqueue.c` that a device with role `VIRTIO_DEV_SLAVE` runs, with
`VIRTIO_CACHED_VRINGS` and `VQUEUE_DEBUG` defined and without `VIRTIO_RING_F_EVENT_IDX` (the
device offers no feature but the name service). A kick goes through
`rproc_virtio_virtqueue_notify`, `remoteproc_virtio_notify` and `platform_rproc_notify` to
`msgbox_send`.
-/

namespace C906Firmware

open Interaction

/-- `VRING_AVAIL_F_NO_INTERRUPT` -/
def VRING_AVAIL_F_NO_INTERRUPT : ℕ := 1

/-- `VRING_USED_F_NO_NOTIFY` -/
def VRING_USED_F_NO_NOTIFY : ℕ := 1

/-- A buffer taken from a virtqueue: its address, the index of its descriptor, its length. -/
structure Buffer where
  addr : ℕ
  idx : ℕ
  len : ℕ
  deriving DecidableEq, Repr

/-- `VQUEUE_BUSY`; the assertion that fails on a queue in use does not return. -/
def vqueueBusy (q : Vq) : Code Unit := do
  let inuse ← get (.vqInuse q)
  if inuse = 0 then
    set (.vqInuse q) 1
  else
    Prog.stop

/-- `VQUEUE_IDLE` -/
def vqueueIdle (q : Vq) : Code Unit := set (.vqInuse q) 0

/-- `virtqueue_phys_to_virt`: the region is the one of the shared buffers, mapped one to one. -/
def virtqueuePhysToVirt (q : Vq) (phys : ℕ) : Code (Option ℕ) := do
  let _ ← get (.vqShmIo q)
  pure (if InShm phys then some phys else none)

/-- `virtqueue_get_available_buffer` -/
def virtqueueGetAvailableBuffer (q : Vq) : Code (Option Buffer) := do
  vringInvalidate (.availIdx q) 2
  let mine ← get (.vqAvailableIdx q)
  let theirs ← access (.load (.availIdx q))
  if mine = theirs then
    pure none
  else
    vqueueBusy q
    let idx ← get (.vqAvailableIdx q)
    set (.vqAvailableIdx q) ((idx + 1) % 2 ^ 16)
    let headIdx := idx &&& (VRING_NUM_BUFFS - 1)
    vringInvalidate (.availRing q headIdx) 2
    let availIdx ← access (.load (.availRing q headIdx))
    vringInvalidate (.descAddr q availIdx) 16
    let phys ← access (.load (.descAddr q availIdx))
    let buffer ← virtqueuePhysToVirt q phys
    let len ← access (.load (.descLen q availIdx))
    vqueueIdle q
    pure (buffer.map fun addr => ⟨addr, availIdx, len⟩)

/-- `virtqueue_add_consumed_buffer`; the result says whether the status is
`VQUEUE_SUCCESS`. -/
def virtqueueAddConsumedBuffer (q : Vq) (headIdx len : ℕ) : Code Bool :=
  if VRING_NUM_BUFFS < headIdx then
    pure false
  else do
    vqueueBusy q
    let idx ← access (.load (.usedIdx q))
    let usedIdx := idx &&& (VRING_NUM_BUFFS - 1)
    access (.store (.usedId q usedIdx) headIdx)
    access (.store (.usedLen q usedIdx) len)
    vringFlush (.usedId q usedIdx) 8
    let idx ← access (.load (.usedIdx q))
    access (.store (.usedIdx q) ((idx + 1) % 2 ^ 16))
    vringFlush (.usedIdx q) 2
    -- Keep pending count until virtqueue_notify().
    let queued ← get (.vqQueuedCnt q)
    set (.vqQueuedCnt q) ((queued + 1) % 2 ^ 16)
    vqueueIdle q
    pure true

/-- `virtqueue_get_buffer_length` -/
def virtqueueGetBufferLength (q : Vq) (idx : ℕ) : Code ℕ := do
  vringInvalidate (.descLen q idx) 4
  access (.load (.descLen q idx))

/-- `virtqueue_disable_cb` -/
def virtqueueDisableCb (q : Vq) : Code Unit := do
  vqueueBusy q
  let flags ← access (.load (.usedFlags q))
  access (.store (.usedFlags q) (flags ||| VRING_USED_F_NO_NOTIFY))
  vringFlush (.usedFlags q) 2
  vqueueIdle q

/-- `vq_ring_must_notify` -/
def vqRingMustNotify (q : Vq) : Code Bool := do
  vringInvalidate (.availFlags q) 2
  let flags ← access (.load (.availFlags q))
  pure (flags &&& VRING_AVAIL_F_NO_INTERRUPT = 0)

/-- `platform_rproc_notify` -/
def platformRprocNotify (id : ℕ) : Code ℤ := msgboxSend (BitVec.ofNat 32 id)

/-- `remoteproc_virtio_notify` -/
def remoteprocVirtioNotify (id : ℕ) : Code ℤ := platformRprocNotify id

/-- `rproc_virtio_virtqueue_notify`; the result of the hook is not used. -/
def rprocVirtioVirtqueueNotify (q : Vq) : Code Unit := do
  let notifyid ← get (.notifyId q)
  let _ ← remoteprocVirtioNotify notifyid

/-- `vq_ring_notify` -/
def vqRingNotify (q : Vq) : Code Unit := rprocVirtioVirtqueueNotify q

/-- `virtqueue_kick` -/
def virtqueueKick (q : Vq) : Code Unit := do
  vqueueBusy q
  let must ← vqRingMustNotify q
  if must then
    vqRingNotify q
  set (.vqQueuedCnt q) 0
  vqueueIdle q

end C906Firmware
