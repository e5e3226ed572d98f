import C906Firmware.Model.Kernel
import C906Firmware.Model.Virtqueue

/-!
# RPMsg over virtio

`rpmsg.c` and `rpmsg_virtio.c` for a device with role `RPMSG_REMOTE`: looking up endpoints,
sending, the receive callback with its two endpoint callbacks (the name service and the echo
service of `platform.c`), and creating the echo endpoint with its announcement.

A message starts with a header of 16 bytes: source, destination, a reserved word in which the
firmware keeps the index of the descriptor, the length and flags. `fuel` bounds the waits for
the device lock and the rounds of the receive loop.
-/

namespace C906Firmware

open Interaction

/-- `RPMSG_ADDR_ANY` -/
def RPMSG_ADDR_ANY : ℕ := 0xFFFFFFFF

/-- `RPMSG_NS_EPT_ADDR` -/
def RPMSG_NS_EPT_ADDR : ℕ := 0x35

/-- `RPMSG_ERR_NO_BUFF` -/
def RPMSG_ERR_NO_BUFF : ℤ := -2002

/-- `RPMSG_ERR_PARAM` -/
def RPMSG_ERR_PARAM : ℤ := -2003

/-- `RPMSG_SUCCESS` -/
def RPMSG_SUCCESS : ℤ := 0

/-- `RPMSG_NAME_SIZE` -/
def RPMSG_NAME_SIZE : ℕ := 32

/-- `RPMSG_NS_CREATE` -/
def RPMSG_NS_CREATE : ℕ := 0

/-- `RPMSG_NS_DESTROY` -/
def RPMSG_NS_DESTROY : ℕ := 1

/-- `VIRTIO_CONFIG_STATUS_DRIVER_OK` -/
def VIRTIO_CONFIG_STATUS_DRIVER_OK : ℕ := 4

/-- `RPMSG_BUF_HELD` -/
def RPMSG_BUF_HELD : ℕ := 2 ^ 31

/-- `RPMSG_TICK_COUNT / RPMSG_TICKS_PER_INTERVAL` -/
def RPMSG_TICKS : ℕ := 15000

/-- `RPMSG_TICKS_PER_INTERVAL` -/
def RPMSG_TICKS_PER_INTERVAL : ℕ := 1000

/-- `sizeof(struct rpmsg_hdr)` -/
def RPMSG_HDR_SIZE : ℕ := 16

/-- `sizeof(struct rpmsg_ns_msg)` -/
def RPMSG_NS_MSG_SIZE : ℕ := 40

/-- `RPMSG_LOCATE_DATA` -/
def locateData (hdr : ℕ) : ℕ := hdr + RPMSG_HDR_SIZE

/-- `RPMSG_LOCATE_HDR` -/
def locateHdr (data : ℕ) : ℕ := data - RPMSG_HDR_SIZE

/-- The bytes of a `struct rpmsg_hdr`. -/
def rpmsgHdr (src dst reserved len flags : ℕ) : List Byte :=
  (Quad.ofNat src).bytes ++ (Quad.ofNat dst).bytes ++ (Quad.ofNat reserved).bytes ++
    (Quad.ofNat (len % 2 ^ 16 + 2 ^ 16 * flags)).bytes

/-- A 32-bit field of shared memory. -/
def load32 (a : ℕ) : Code ℕ := do
  let q ← access (.load32 a)
  pure q.toNat

/-- `hdr->src` -/
def hdrSrc (hdr : ℕ) : Code ℕ := load32 hdr

/-- `hdr->dst` -/
def hdrDst (hdr : ℕ) : Code ℕ := load32 (hdr + 4)

/-- `hdr->reserved` -/
def hdrReserved (hdr : ℕ) : Code ℕ := load32 (hdr + 8)

/-- `hdr->len`, the lower half of the last word of the header. -/
def hdrLen (hdr : ℕ) : Code ℕ := do
  let n ← load32 (hdr + 12)
  pure (n % 2 ^ 16)

/-- `hdr->reserved = idx` -/
def setHdrReserved (hdr idx : ℕ) : Code Unit := access (.store32 (hdr + 8) (Quad.ofNat idx))

/-- A value of type `uint32_t` read as an `int`. -/
def toInt (n : ℕ) : ℤ := if n < 2 ^ 31 then n else n - 2 ^ 32

/-! ### Endpoints -/

/-- `ept->addr` -/
def Ept.addr : Ept → ℕ
  | .ns => RPMSG_NS_EPT_ADDR
  | .echo => 0x400

/-- `ept->name`, up to the terminating zero. -/
def Ept.name : Ept → List Byte
  | .ns => [0x4E, 0x53]
  | .echo => [0x63, 0x39, 0x30, 0x36, 0x2D, 0x65, 0x63, 0x68, 0x6F]

/-- `strncmp(ept->name, name, RPMSG_NAME_SIZE) == 0` -/
def nameMatches (e : Ept) (name : List Byte) : Bool :=
  (name.take RPMSG_NAME_SIZE).takeWhile (· ≠ 0) = e.name

/-- The loop of `rpmsg_get_endpoint` over the endpoints that may be in the list. -/
def rpmsgScanEndpoints (name : Option (List Byte)) (addr dest : ℕ) :
    List Ept → Code (Option Ept)
  | [] => pure none
  | e :: rest => do
    let rdev ← get (.eptRdev e)
    if rdev = 0 then
      rpmsgScanEndpoints name addr dest rest
    else if addr ≠ RPMSG_ADDR_ANY ∧ e.addr = addr then
      pure (some e)
    else do
      let eptDest ← get (.eptDest e)
      if addr = e.addr ∧ dest = eptDest then
        pure (some e)
      else if name.all (fun n => !nameMatches e n) then
        rpmsgScanEndpoints name addr dest rest
      else if dest ≠ RPMSG_ADDR_ANY ∧ eptDest = dest then
        pure (some e)
      else if addr = RPMSG_ADDR_ANY ∧ eptDest = RPMSG_ADDR_ANY then
        pure (some e)
      else
        rpmsgScanEndpoints name addr dest rest

/-- `rpmsg_get_endpoint` -/
def rpmsgGetEndpoint (name : Option (List Byte)) (addr dest : ℕ) : Code (Option Ept) := do
  let _ ← access (.walk .endpoints)
  rpmsgScanEndpoints name addr dest [.ns, .echo]

/-- `rpmsg_get_ept_from_addr` -/
def rpmsgGetEptFromAddr (addr : ℕ) : Code (Option Ept) :=
  rpmsgGetEndpoint none addr RPMSG_ADDR_ANY

/-! ### Sending -/

/-- `rpmsg_virtio_get_tx_buffer`, under the device lock. -/
def rpmsgVirtioTryTxBuffer (fuel : ℕ) : Code (Option Buffer) := do
  metalMutexAcquire fuel
  let buffer ← virtqueueGetAvailableBuffer .svq
  metalMutexRelease
  pure buffer

/-- The loop of `rpmsg_virtio_get_tx_payload_buffer`, with `tick_count` as the argument. -/
def rpmsgVirtioWaitTxBuffer (fuel : ℕ) : ℕ → Code (Option Buffer)
  | 0 => rpmsgVirtioTryTxBuffer fuel
  | tickCount + 1 => do
    let buffer ← rpmsgVirtioTryTxBuffer fuel
    match buffer with
    | some b => pure (some b)
    | none => do
      access (.udelay RPMSG_TICKS_PER_INTERVAL)
      rpmsgVirtioWaitTxBuffer fuel tickCount

/-- `rpmsg_virtio_get_tx_payload_buffer` with `wait` set: the payload area and its length. -/
def rpmsgVirtioGetTxPayloadBuffer (fuel : ℕ) : Code (Option (ℕ × ℕ)) := do
  let status ← rprocVirtioGetStatus
  if status &&& VIRTIO_CONFIG_STATUS_DRIVER_OK = 0 then
    pure none
  else
    let buffer ← rpmsgVirtioWaitTxBuffer fuel RPMSG_TICKS
    match buffer with
    | none => pure none
    | some b => do
      setHdrReserved b.addr b.idx
      pure (some (locateData b.addr, (b.len + 2 ^ 32 - RPMSG_HDR_SIZE) % 2 ^ 32))

/-- `rpmsg_virtio_send_offchannel_nocopy` -/
def rpmsgVirtioSendOffchannelNocopy (fuel src dst data len : ℕ) : Code ℤ := do
  let hdr := locateHdr data
  let idx ← hdrReserved hdr
  let sp ← access .sp
  let status ← metalIoBlockWrite hdr (.priv sp (rpmsgHdr src dst 0 len 0)) RPMSG_HDR_SIZE
  if status ≠ RPMSG_HDR_SIZE then
    Prog.stop
  else
    metalMutexAcquire fuel
    let buffLen ← virtqueueGetBufferLength .svq (idx % 2 ^ 16)
    let ok ← virtqueueAddConsumedBuffer .svq (idx % 2 ^ 16) buffLen
    if ok then
      virtqueueKick .svq
      metalMutexRelease
      pure len
    else
      Prog.stop

/-- `rpmsg_virtio_send_offchannel_raw` with `wait` set. A descriptor shorter than the header
leaves a negative length, which the block writer does not survive. -/
def rpmsgVirtioSendOffchannelRaw (fuel src dst : ℕ) (data : Src) (len : ℕ) : Code ℤ := do
  let buffer ← rpmsgVirtioGetTxPayloadBuffer fuel
  match buffer with
  | none => pure RPMSG_ERR_NO_BUFF
  | some (payload, buffLen) =>
    let len : ℤ := if toInt buffLen < len then toInt buffLen else len
    if len < 0 then
      Prog.stop
    else do
      let status ← metalIoBlockWrite payload data len.toNat
      if status ≠ len then
        Prog.stop
      else
        rpmsgVirtioSendOffchannelNocopy fuel src dst payload len.toNat

/-- `rpmsg_send_offchannel_raw` -/
def rpmsgSendOffchannelRaw (fuel : ℕ) (ept : Ept) (src dst : ℕ) (data : Src) (len : ℕ) :
    Code ℤ := do
  let rdev ← get (.eptRdev ept)
  if rdev = 0 ∨ dst = RPMSG_ADDR_ANY then
    pure RPMSG_ERR_PARAM
  else
    rpmsgVirtioSendOffchannelRaw fuel src dst data len

/-- `rpmsg_send` -/
def rpmsgSend (fuel : ℕ) (ept : Ept) (data : Src) (len : ℕ) : Code ℤ := do
  let dst ← get (.eptDest ept)
  rpmsgSendOffchannelRaw fuel ept ept.addr dst data len

/-! ### Receiving -/

/-- `rpmsg_echo_cb` -/
def rpmsgEchoCb (fuel : ℕ) (ept : Ept) (data len src : ℕ) : Code ℤ := do
  let dest ← get (.eptDest ept)
  if dest = RPMSG_ADDR_ANY then
    set (.eptDest ept) src
  let _ ← get (.eptDest ept)
  -- the log line with up to 32 bytes of the payload
  Prog.forEach (fun i => do let _ ← access (.load8 (data + i))) (List.range (min len 32))
  let _ ← rpmsgSend fuel ept (.mem data) len
  pure RPMSG_SUCCESS

/-- `rpmsg_virtio_ns_callback`, for a device without `ns_bind_cb` and endpoints without
`ns_unbind_cb`. -/
def rpmsgVirtioNsCallback (fuel data len : ℕ) : Code ℤ := do
  if len ≠ RPMSG_NS_MSG_SIZE then
    pure RPMSG_SUCCESS
  else
    let sp ← access .sp
    let name ← metalIoBlockRead data sp RPMSG_NAME_SIZE
    let dest ← load32 (data + RPMSG_NAME_SIZE)
    metalMutexAcquire fuel
    let ept ← rpmsgGetEndpoint (some name) RPMSG_ADDR_ANY dest
    let flags ← load32 (data + RPMSG_NAME_SIZE + 4)
    match ept with
    | some e => set (.eptDest e) (if flags &&& RPMSG_NS_DESTROY ≠ 0 then RPMSG_ADDR_ANY else dest)
    | none => pure ()
    metalMutexRelease
    pure RPMSG_SUCCESS

/-- `ept->cb` -/
def eptCb (fuel : ℕ) (ept : Ept) (data len src : ℕ) : Code ℤ :=
  match ept with
  | .ns => rpmsgVirtioNsCallback fuel data len
  | .echo => rpmsgEchoCb fuel .echo data len src

/-- What the receive loop does with a buffer before it returns it: the lookup of the endpoint
and, if there is one, its callback. -/
def rpmsgVirtioRxDispatch (fuel : ℕ) (b : Buffer) : Code Unit := do
  setHdrReserved b.addr b.idx
  metalMutexAcquire fuel
  let dst ← hdrDst b.addr
  let ept ← rpmsgGetEptFromAddr dst
  metalMutexRelease
  match ept with
  | none => pure ()
  | some e => do
    let dest ← get (.eptDest e)
    if dest = RPMSG_ADDR_ANY then do
      -- First message received from the remote side, update channel destination address
      let src ← hdrSrc b.addr
      set (.eptDest e) src
    let len ← hdrLen b.addr
    let src ← hdrSrc b.addr
    let status ← eptCb fuel e (locateData b.addr) len src
    if status < 0 then
      Prog.stop

/-- One round of the receive loop, with a buffer; the next round has the next buffer. -/
def rpmsgVirtioRxRound (fuel : ℕ) (b : Buffer) : Code (Buffer ⊕ Unit) := do
  rpmsgVirtioRxDispatch fuel b
  metalMutexAcquire fuel
  let reserved ← hdrReserved b.addr
  if reserved &&& RPMSG_BUF_HELD = 0 then
    let _ ← virtqueueAddConsumedBuffer .rvq b.idx b.len
  let next ← virtqueueGetAvailableBuffer .rvq
  match next with
  | some b' => do
    metalMutexRelease
    pure (.inl b')
  | none => do
    -- tell peer we return some rx buffer
    virtqueueKick .rvq
    metalMutexRelease
    pure (.inr ())

/-- `rpmsg_virtio_rx_callback` -/
def rpmsgVirtioRxCallback (fuel : ℕ) : Code Unit := do
  metalMutexAcquire fuel
  let buffer ← virtqueueGetAvailableBuffer .rvq
  metalMutexRelease
  match buffer with
  | none => pure ()
  | some b => Prog.iterate (rpmsgVirtioRxRound fuel) fuel b

/-! ### Creating the echo endpoint -/

/-- The bytes of the announcement of an endpoint. -/
def rpmsgNsMsg (ept : Ept) (flags : ℕ) : List Byte :=
  ept.name ++ List.replicate (RPMSG_NAME_SIZE - ept.name.length) 0 ++
    (Quad.ofNat ept.addr).bytes ++ (Quad.ofNat flags).bytes

/-- `rpmsg_send_ns_message` -/
def rpmsgSendNsMessage (fuel : ℕ) (ept : Ept) (flags : ℕ) : Code ℤ := do
  let sp ← access .sp
  let ret ← rpmsgSendOffchannelRaw fuel ept ept.addr RPMSG_NS_EPT_ADDR
    (.priv sp (rpmsgNsMsg ept flags)) RPMSG_NS_MSG_SIZE
  pure (if ret < 0 then ret else RPMSG_SUCCESS)

/-- `rpmsg_unregister_endpoint` -/
def rpmsgUnregisterEndpoint (fuel : ℕ) (ept : Ept) : Code Unit := do
  metalMutexAcquire fuel
  set (.eptRdev ept) 0
  metalMutexRelease

/-- `rpmsg_create_ept(&plat->ept, rdev, "c906-echo", 0x400, RPMSG_ADDR_ANY, …)`; the address
is free, as no other endpoint takes one. -/
def rpmsgCreateEpt (fuel : ℕ) : Code ℤ := do
  metalMutexAcquire fuel
  set (.eptDest .echo) RPMSG_ADDR_ANY
  set (.eptRdev .echo) 1
  metalMutexRelease
  let supportNs ← get .supportNs
  let dest ← get (.eptDest .echo)
  let status ← if supportNs ≠ 0 ∧ dest = RPMSG_ADDR_ANY then
      rpmsgSendNsMessage fuel .echo RPMSG_NS_CREATE
    else
      pure RPMSG_SUCCESS
  if status ≠ 0 then
    rpmsgUnregisterEndpoint fuel .echo
  pure status

end C906Firmware
