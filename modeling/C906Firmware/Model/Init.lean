import C906Firmware.Model.Platform

/-!
# Initialisation and the task

`main_task` with `platform_rproc_init`: the message box, the remote processor, the virtio
device and the RPMsg device, in the order of the source and with its early returns. The
mailbox interrupt is requested in `msgbox_init`, before the rest.

What never fails is left without its error branch: `metal_init` returns 0,
`platform_rproc_init_cb` returns its argument, `remoteproc_config` and `remoteproc_start` find
the states that `remoteproc_init` and `remoteproc_config` leave, and the parameter checks of
`virtqueue_create` pass for 128 descriptors. `rproc->lock` is taken by this sequence only, so
what is left of it are the kernel's critical sections.
-/

namespace C906Firmware

open Interaction

/-- `RD_IRQ_EN_MASK` -/
def RD_IRQ_EN_MASK : Word := 0x1

/-- `WR_IRQ_PEND_SHIFT(0)` and `WR_IRQ_EN_SHIFT(0)` -/
def WR_IRQ_SHIFT : ℕ := 1

/-- `VIRTIO_CONFIG_STATUS_NEEDS_RESET` -/
def VIRTIO_CONFIG_STATUS_NEEDS_RESET : ℕ := 0x40

/-- `1 << VIRTIO_RPMSG_F_NS` -/
def VIRTIO_RPMSG_F_NS : ℕ := 1

/-- `metal_mutex_init(&rdev->lock)` -/
def metalMutexInit : Code Unit := do
  set .lockCount 1
  set .lockIslock 0

/-- `metal_mutex_acquire(&rproc->lock)` -/
def rprocLockAcquire : Code Unit := do
  taskEnterCritical
  taskExitCritical

/-- `metal_mutex_release(&rproc->lock)` -/
def rprocLockRelease : Code Unit := do
  taskEnterCritical
  taskExitCritical

/-! ### The message box -/

/-- `msgbox_init` -/
def msgboxInit (fuel : ℕ) : Code Unit := do
  set .rxCb 1
  set .irqCount 0
  set .rxCount 0
  set .lastData 0
  -- Enable local RX IRQ for polling status
  regBitsSet .rxIrqEnable RD_IRQ_EN_MASK RD_IRQ_PEND_SHIFT
  -- Clear stale pending bits and drain any data
  regBitsSet .rxIrqStatus RD_IRQ_PEND_MASK RD_IRQ_PEND_SHIFT
  let savedCb ← get .rxCb
  set .rxCb 0
  msgboxPoll (msgboxRx fuel) fuel
  set .rxCb savedCb
  -- Ensure remote side write IRQ pending cleared
  regBitsSet .txIrqStatus 0x1 WR_IRQ_SHIFT
  regBitsClear .txIrqEnable 0x1 WR_IRQ_SHIFT
  regBitsClear .txThreshold 0x3 0
  access .irqRequest
  let _ ← msgboxPending

/-! ### The remote processor and the virtio device -/

/-- `remoteproc_init` -/
def remoteprocInit : Code Unit := do
  access (.listZero .vdevs)
  access (.listInit .vdevs)

/-- `virtqueue_allocate`; the result says whether there was memory. -/
def virtqueueAllocate (q : Vq) : Code Bool := do
  let vqs ← access (.outcome .allocate)
  if vqs = 0 then
    pure false
  else
    set (.vqCallback q) 0
    set (.vqRing q .desc) 0
    set (.vqRing q .avail) 0
    set (.vqRing q .used) 0
    set (.vqQueuedCnt q) 0
    set (.vqShmIo q) 0
    set (.vqAvailableIdx q) 0
    set (.vqInuse q) 0
    pure true

/-- `rproc_virtio_create_vdev`. The `memset` of the vring descriptions clears the first only. -/
def rprocVirtioCreateVdev (notifyid : ℕ) : Code Bool := do
  let rpvdev ← access (.outcome .allocate)
  if rpvdev = 0 then
    pure false
  else
    let vringsInfo ← access (.outcome .allocate)
    if vringsInfo = 0 then
      pure false
    else
      set (.notifyId .svq) 0
      let svq ← virtqueueAllocate .svq
      if svq then
        let rvq ← virtqueueAllocate .rvq
        if rvq then
          set .vdevNotifyId notifyid
          pure true
        else
          pure false
      else
        pure false

/-- One round of `rproc_virtio_wait_remote_ready`. -/
def rprocVirtioWaitRound : Code (Unit ⊕ Unit) := do
  let status ← rprocVirtioGetStatus
  if status &&& VIRTIO_CONFIG_STATUS_DRIVER_OK ≠ 0 then
    pure (.inr ())
  else
    access (.udelay 10000)
    pure (.inl ())

/-- The loop of `remoteproc_create_virtio` over the vrings; the result says whether all have
been mapped. -/
def remoteprocInitVrings : List Vq → Code Bool
  | [] => pure true
  | q :: rest => do
    let notifyid ← access (.load (.vringNotifyid q))
    let va ← access (.outcome .mmap)
    if va = 0 then
      pure false
    else
      set (.notifyId q) notifyid
      remoteprocInitVrings rest

/-- `remoteproc_create_virtio`; the result says whether there is a device. The list of devices
is empty before, as this is its only caller. -/
def remoteprocCreateVirtio (fuel : ℕ) : Code Bool := do
  rprocLockAcquire
  let rsc ← access (.outcome .findRsc)
  if rsc = 0 then
    rprocLockRelease
    pure false
  else
    let notifyid ← access (.load .vdevNotifyid)
    -- Check if the virtio device is already created
    let _ ← access (.walk .vdevs)
    let created ← rprocVirtioCreateVdev notifyid
    if created then
      Prog.iterate (fun _ => rprocVirtioWaitRound) fuel ()
      access (.listAdd .vdevs)
      let mapped ← remoteprocInitVrings [.svq, .rvq]
      if mapped then
        rprocLockRelease
        pure true
      else
        access (.listDel .vdevs)
        rprocLockRelease
        pure false
    else
      rprocLockRelease
      pure false

/-! ### The RPMsg device -/

/-- `rproc_virtio_set_status` -/
def rprocVirtioSetStatus (status : ℕ) : Code Unit := do
  shmemMetalIoWrite .vdevStatus status 1
  let notifyid ← get .vdevNotifyId
  let _ ← remoteprocVirtioNotify notifyid

/-- The loop of `rpmsg_virtio_wait_remote_ready` with `loops` rounds left. -/
def rpmsgVirtioWaitRemoteReady : ℕ → Code Unit
  | 0 => pure ()
  | loops + 1 => do
    let status ← rprocVirtioGetStatus
    if status &&& VIRTIO_CONFIG_STATUS_NEEDS_RESET ≠ 0 then
      rprocVirtioSetStatus 0
      if loops ≠ 0 then
        access (.udelay 10000)
        rpmsgVirtioWaitRemoteReady loops
    else if status &&& VIRTIO_CONFIG_STATUS_DRIVER_OK = 0 then
      if loops ≠ 0 then
        access (.udelay 10000)
        rpmsgVirtioWaitRemoteReady loops

/-- `rproc_virtio_get_features` -/
def rprocVirtioGetFeatures : Code ℕ := do
  let gfeatures ← shmemMetalIoRead .vdevGfeatures 4
  let dfeatures ← shmemMetalIoRead .vdevDfeatures 4
  pure (dfeatures &&& gfeatures)

/-- `vring_init`; the number of descriptors is the same constant everywhere. -/
def vringInit (q : Vq) : Code Unit := do
  set (.vqRing q .desc) (vringAddress q)
  set (.vqRing q .avail) (vringAvail q)
  set (.vqRing q .used) (vringUsed q)

/-- `virtqueue_create` -/
def virtqueueCreate (q : Vq) : Code Unit := do
  set (.vqCallback q) 1
  -- Initialize vring control block in virtqueue
  vringInit q

/-- `virtio_create_virtqueues`, with the callbacks of the remote role. -/
def virtioCreateVirtqueues : Code Unit := do
  virtqueueCreate .svq
  virtqueueCreate .rvq

/-- `rpmsg_init_vdev` -/
def rpmsgInitVdev : Code Unit := do
  access (.listZero .endpoints)
  set .supportNs 0
  set (.eptRdev .ns) 0
  metalMutexInit
  -- wait synchro with the master
  rpmsgVirtioWaitRemoteReady 501
  let features ← rprocVirtioGetFeatures
  set .supportNs (features &&& VIRTIO_RPMSG_F_NS)
  -- Create virtqueues for remote device
  virtioCreateVirtqueues
  virtqueueDisableCb .svq
  set (.vqShmIo .svq) 1
  set (.vqShmIo .rvq) 1
  -- Initialize channels and endpoints list
  access (.listInit .endpoints)
  let supportNs ← get .supportNs
  if supportNs ≠ 0 then
    set (.eptDest .ns) RPMSG_NS_EPT_ADDR
    set (.eptRdev .ns) 1
    access (.listAdd .endpoints)

/-! ### The platform -/

/-- `setup_rpmsg` -/
def setupRpmsg (fuel : ℕ) : Code ℤ := do
  let rsc ← access (.outcome .mmap)
  if rsc = 0 then
    pure (-1)
  else
    let ret ← access (.outcome .setRscTable)
    if toInt (ret % 2 ^ 32) ≠ 0 then
      pure (toInt (ret % 2 ^ 32))
    else
      -- remoteproc_config and remoteproc_start
      rprocLockAcquire
      rprocLockRelease
      rprocLockAcquire
      rprocLockRelease
      let created ← remoteprocCreateVirtio fuel
      if created then
        let shmIo ← access (.outcome .getIoWithDa)
        if shmIo = 0 then
          pure (-1)
        else
          rpmsgInitVdev
          rpmsgCreateEpt fuel
      else
        pure (-1)

/-- `memset(plat, 0, sizeof(*plat))` -/
def platformClear : Code Unit := do
  set .rxCb 0
  set .rxCount 0
  set .lastData 0
  set .irqCount 0
  access (.listZero .vdevs)
  access (.listZero .endpoints)
  set .supportNs 0
  set .lockIslock 0
  set (.eptDest .ns) 0
  set (.eptRdev .ns) 0
  set (.eptDest .echo) 0
  set (.eptRdev .echo) 0

/-- `platform_rproc_init` -/
def platformRprocInit (fuel : ℕ) : Code ℤ := do
  platformClear
  msgboxInit fuel
  remoteprocInit
  setupRpmsg fuel

/-- One round of the loop of `main_task`. -/
def mainTaskRound (fuel : ℕ) : Code (Unit ⊕ Unit) := do
  -- ulTaskNotifyTake
  access .block
  platformPoll fuel
  pure (.inl ())

/-- `main_task`; a task whose initialisation has failed halts. -/
def mainTask (fuel : ℕ) : Code Unit := do
  set .taskHandle 1
  let ret ← platformRprocInit fuel
  if ret = 0 then
    Prog.iterate (fun _ => mainTaskRound fuel) fuel ()

end C906Firmware
