import C906Firmware.Model.Virtqueue

/-!
# Both sides of a virtqueue

The functions of `virtqueue.c` for the side that makes buffers available (`VIRTIO_DEV_MASTER`) and
for the one that uses them (`VIRTIO_DEV_SLAVE`), over the ring that they share, with
`VQUEUE_DEBUG` defined: an assertion that fails does not return. The sides run at the same time, so
that a call that looks at an index of the other side, or advances its own, is two steps: up to
there and from there on. Calls of one side follow each other, and what is stored is seen in the
order of the stores.
-/

namespace C906Firmware

/-- `VQ_RING_DESC_CHAIN_END` -/
def VQ_RING_DESC_CHAIN_END : ℕ := 32768

/-- `VRING_DESC_F_NEXT` -/
def VRING_DESC_F_NEXT : ℕ := 1

/-- `VRING_DESC_F_WRITE` -/
def VRING_DESC_F_WRITE : ℕ := 2

/-- `VRING_DESC_F_INDIRECT` -/
def VRING_DESC_F_INDIRECT : ℕ := 4

/-- `VQUEUE_SUCCESS` -/
def VQUEUE_SUCCESS : ℤ := 0

/-- `ERROR_VRING_FULL` -/
def ERROR_VRING_FULL : ℤ := -3001

/-- `ERROR_VRING_ALIGN` -/
def ERROR_VRING_ALIGN : ℤ := -3006

/-- `ERROR_VRING_NO_BUFF` -/
def ERROR_VRING_NO_BUFF : ℤ := -3007

/-- `ERROR_VQUEUE_INVLD_PARAM` -/
def ERROR_VQUEUE_INVLD_PARAM : ℤ := -3008

/-- `a + b` in a `uint16_t` -/
def add16 (a b : ℕ) : ℕ := (a + b) % 2 ^ 16

/-- `a - b` in a `uint16_t` -/
def sub16 (a b : ℕ) : ℕ := (a + 2 ^ 16 - b) % 2 ^ 16

/-- `struct vring_desc` -/
structure VringDesc where
  addr : ℕ
  len : ℕ
  flags : ℕ
  next : ℕ

/-- `struct virtqueue_buf` -/
structure VirtqueueBuf where
  buf : ℕ
  len : ℕ
  deriving DecidableEq

/-- `struct vq_desc_extra` -/
structure VqDescExtra where
  cookie : ℕ
  ndescs : ℕ

/-- The memory of a ring. -/
structure Vring where
  desc : ℕ → VringDesc
  availFlags : ℕ
  availIdx : ℕ
  availRing : ℕ → ℕ
  usedEvent : ℕ
  usedFlags : ℕ
  usedIdx : ℕ
  /-- `id` and `len` -/
  usedRing : ℕ → ℕ × ℕ
  availEvent : ℕ

/-- `struct virtqueue` -/
structure Virtqueue where
  vqNentries : ℕ
  vqFreeCnt : ℕ
  vqQueuedCnt : ℕ
  vqDescHeadIdx : ℕ
  vqUsedConsIdx : ℕ
  vqAvailableIdx : ℕ
  vqInuse : Bool
  vqDescx : ℕ → VqDescExtra

/-- `role` of the device -/
inductive VirtioRole
  | master
  | slave
  deriving DecidableEq

namespace Virtqueue

/-- `VQUEUE_BUSY` -/
def busy (vq : Virtqueue) : Option Virtqueue :=
  if vq.vqInuse then none else some { vq with vqInuse := true }

/-- `VQUEUE_IDLE` -/
def idle (vq : Virtqueue) : Virtqueue := { vq with vqInuse := false }

/-! ### Setting up -/

def setNext (desc : ℕ → VringDesc) (i n : ℕ) : ℕ → VringDesc :=
  Function.update desc i { desc i with next := n }

/-- The free chain of `vq_ring_init` -/
def vqRingInit (size : ℕ) (desc : ℕ → VringDesc) : ℕ → VringDesc :=
  let desc := (List.range (size - 1)).foldl (fun desc i => setNext desc i (i + 1)) desc
  setNext desc (size - 1) VQ_RING_DESC_CHAIN_END

/-- `virtqueue_create` -/
def virtqueueCreate (role : VirtioRole) (numDescs : ℕ) (vq : Virtqueue) (r : Vring) :
    ℤ × Virtqueue × Vring :=
  if numDescs = 0 then (ERROR_VQUEUE_INVLD_PARAM, vq, r)
  else if numDescs &&& (numDescs - 1) ≠ 0 then (ERROR_VRING_ALIGN, vq, r)
  else
    (VQUEUE_SUCCESS, { vq with vqNentries := numDescs, vqFreeCnt := numDescs },
      if role = .master then { r with desc := vqRingInit numDescs r.desc } else r)

/-! ### Making buffers available -/

/-- The flags of the buffer `i` of a chain -/
def descFlags (readable needed i : ℕ) : ℕ :=
  (if i + 1 < needed then VRING_DESC_F_NEXT else 0) |||
    (if readable ≤ i then VRING_DESC_F_WRITE else 0)

/-- `vq_ring_add_buffer` -/
def vqRingAddBuffer (toPhys : ℕ → ℕ) (readable needed : ℕ) :
    List VirtqueueBuf → ℕ → ℕ → (ℕ → VringDesc) → Option (ℕ × (ℕ → VringDesc))
  | [], _, idx, desc => some (idx, desc)
  | b :: bufs, i, idx, desc =>
    if idx = VQ_RING_DESC_CHAIN_END then none
    else
      vqRingAddBuffer toPhys readable needed bufs (i + 1) (desc idx).next
        (Function.update desc idx
          ⟨toPhys b.buf, b.len, descFlags readable needed i, (desc idx).next⟩)

/-- `vq_ring_update_avail` up to the fence -/
def placeAvail (vq : Virtqueue) (descIdx : ℕ) (r : Vring) : Vring :=
  { r with
    availRing := Function.update r.availRing (r.availIdx &&& (vq.vqNentries - 1)) descIdx }

/-- `virtqueue_add_buffer` up to the fence in `vq_ring_update_avail` -/
def addBufferStart (toPhys : ℕ → ℕ) (bufs : List VirtqueueBuf) (readable writable cookie : ℕ)
    (vq : Virtqueue) (r : Vring) : Option (ℤ × Virtqueue × Vring) :=
  let needed := readable + writable
  if needed < 1 then vq.busy.map fun vq => (ERROR_VQUEUE_INVLD_PARAM, vq.idle, r)
  else if vq.vqFreeCnt = 0 then vq.busy.map fun vq => (ERROR_VRING_FULL, vq.idle, r)
  else
    vq.busy.bind fun vq =>
      let headIdx := vq.vqDescHeadIdx
      if cookie = 0 ∨ vq.vqNentries ≤ headIdx ∨ (vq.vqDescx headIdx).cookie ≠ 0 then none
      else
        (vqRingAddBuffer toPhys readable needed bufs 0 headIdx r.desc).bind fun (idx, desc) =>
          let vq := { vq with
            vqDescx := Function.update vq.vqDescx headIdx ⟨cookie, needed % 2 ^ 16⟩
            vqDescHeadIdx := idx
            vqFreeCnt := sub16 vq.vqFreeCnt (needed % 2 ^ 16) }
          if (vq.vqFreeCnt = 0 ∧ idx ≠ VQ_RING_DESC_CHAIN_END) ∨
              (vq.vqFreeCnt ≠ 0 ∧ vq.vqNentries ≤ idx) then none
          else some (VQUEUE_SUCCESS, vq, vq.placeAvail headIdx { r with desc := desc })

/-- `virtqueue_add_buffer` from the fence in `vq_ring_update_avail` on -/
def addBufferFinish (vq : Virtqueue) (r : Vring) : Virtqueue × Vring :=
  ({ vq with vqQueuedCnt := add16 vq.vqQueuedCnt 1 }.idle,
    { r with availIdx := add16 r.availIdx 1 })

/-! ### Getting buffers back -/

/-- The loop of `vq_ring_free_chain`: the last descriptor of the chain, and what is left of
`ndescs`. -/
def freeWalk (vq : Virtqueue) (desc : ℕ → VringDesc) : ℕ → ℕ → ℕ → Option (ℕ × ℕ)
  | 0, _, _ => none
  | fuel + 1, dp, ndescs =>
    if (desc dp).flags &&& VRING_DESC_F_NEXT ≠ 0 then
      if vq.vqNentries ≤ (desc dp).next then none
      else vq.freeWalk desc fuel (desc dp).next (sub16 ndescs 1)
    else some (dp, ndescs)

/-- `vq_ring_free_chain` -/
def vqRingFreeChain (vq : Virtqueue) (descIdx : ℕ) (r : Vring) : Option (Virtqueue × Vring) :=
  if vq.vqNentries ≤ descIdx then none
  else if vq.vqFreeCnt = 0 ∧ vq.vqDescHeadIdx ≠ VQ_RING_DESC_CHAIN_END then none
  else
    let dxp := vq.vqDescx descIdx
    let walk := if (r.desc descIdx).flags &&& VRING_DESC_F_INDIRECT = 0 then
      vq.freeWalk r.desc (vq.vqNentries + 1) descIdx (sub16 dxp.ndescs 1)
      else some (descIdx, sub16 dxp.ndescs 1)
    walk.bind fun (dp, ndescs) =>
      if ndescs ≠ 0 then none
      else some ({ vq with
          vqFreeCnt := add16 vq.vqFreeCnt dxp.ndescs
          vqDescx := Function.update vq.vqDescx descIdx { dxp with ndescs := ndescs }
          vqDescHeadIdx := descIdx },
        { r with desc := setNext r.desc dp vq.vqDescHeadIdx })

/-- `virtqueue_get_buffer` up to the reading of the ring: whether there is a buffer. -/
def getBufferStart (vq : Virtqueue) (r : Vring) : Option (Bool × Virtqueue) :=
  if vq.vqUsedConsIdx = r.usedIdx then some (false, vq)
  else vq.busy.map fun vq => (true, vq)

/-- `virtqueue_get_buffer` from there on: the cookie and the length. -/
def getBufferFinish (vq : Virtqueue) (r : Vring) : Option ((ℕ × ℕ) × Virtqueue × Vring) :=
  let usedIdx := vq.vqUsedConsIdx &&& (vq.vqNentries - 1)
  let vq := { vq with vqUsedConsIdx := add16 vq.vqUsedConsIdx 1 }
  let uep := r.usedRing usedIdx
  let descIdx := uep.1 % 2 ^ 16
  (vq.vqRingFreeChain descIdx r).map fun (vq, r) =>
    let dxp := vq.vqDescx descIdx
    ((dxp.cookie, uep.2),
      { vq with vqDescx := Function.update vq.vqDescx descIdx { dxp with cookie := 0 } }.idle, r)

/-! ### Using buffers -/

/-- `virtqueue_get_available_buffer` up to the reading of the ring: whether there is a buffer. -/
def getAvailableStart (vq : Virtqueue) (r : Vring) : Option (Bool × Virtqueue) :=
  if vq.vqAvailableIdx = r.availIdx then some (false, vq)
  else vq.busy.map fun vq => (true, vq)

/-- `virtqueue_get_available_buffer` from there on: the buffer, the index of its descriptor and its
length. -/
def getAvailableFinish (toVirt : ℕ → ℕ) (vq : Virtqueue) (r : Vring) :
    (ℕ × ℕ × ℕ) × Virtqueue :=
  let headIdx := vq.vqAvailableIdx &&& (vq.vqNentries - 1)
  let availIdx := r.availRing headIdx
  ((toVirt (r.desc availIdx).addr, availIdx, (r.desc availIdx).len),
    { vq with vqAvailableIdx := add16 vq.vqAvailableIdx 1 }.idle)

/-- `virtqueue_add_consumed_buffer` up to the fence -/
def addConsumedStart (headIdx len : ℕ) (vq : Virtqueue) (r : Vring) :
    Option (ℤ × Virtqueue × Vring) :=
  if vq.vqNentries < headIdx then some (ERROR_VRING_NO_BUFF, vq, r)
  else vq.busy.map fun vq =>
    (VQUEUE_SUCCESS, vq, { r with
      usedRing := Function.update r.usedRing (r.usedIdx &&& (vq.vqNentries - 1)) (headIdx, len) })

/-- `virtqueue_add_consumed_buffer` from the fence on -/
def addConsumedFinish (vq : Virtqueue) (r : Vring) : Virtqueue × Vring :=
  ({ vq with vqQueuedCnt := add16 vq.vqQueuedCnt 1 }.idle, { r with usedIdx := add16 r.usedIdx 1 })

/-! ### Notifications

`eventIdx` says whether `VIRTIO_RING_F_EVENT_IDX` is among the features. -/

/-- `vring_need_event` -/
def vringNeedEvent (eventIdx newIdx old : ℕ) : Bool :=
  sub16 newIdx (eventIdx + 1) < sub16 newIdx old

/-- `vq_ring_must_notify` -/
def vqRingMustNotify (eventIdx : Bool) (role : VirtioRole) (vq : Virtqueue) (r : Vring) : Bool :=
  match eventIdx, role with
  | true, .master => vringNeedEvent r.availEvent r.availIdx (sub16 r.availIdx vq.vqQueuedCnt)
  | true, .slave => vringNeedEvent r.usedEvent r.usedIdx (sub16 r.usedIdx vq.vqQueuedCnt)
  | false, .master => r.usedFlags &&& VRING_USED_F_NO_NOTIFY = 0
  | false, .slave => r.availFlags &&& VRING_AVAIL_F_NO_INTERRUPT = 0

/-- `virtqueue_kick`: whether the other side is notified. -/
def virtqueueKick (eventIdx : Bool) (role : VirtioRole) (vq : Virtqueue) (r : Vring) :
    Option (Bool × Virtqueue) :=
  vq.busy.map fun vq => (vq.vqRingMustNotify eventIdx role r, { vq with vqQueuedCnt := 0 }.idle)

/-- `vq_ring_enable_interrupt` up to the fence, as `virtqueue_enable_cb` calls it -/
def enableStart (eventIdx : Bool) (role : VirtioRole) (vq : Virtqueue) (r : Vring) : Vring :=
  match eventIdx, role with
  | true, .master => { r with usedEvent := vq.vqUsedConsIdx }
  | true, .slave => { r with availEvent := vq.vqAvailableIdx }
  | false, .master =>
    { r with availFlags := r.availFlags &&& (2 ^ 16 - 1 - VRING_AVAIL_F_NO_INTERRUPT) }
  | false, .slave =>
    { r with usedFlags := r.usedFlags &&& (2 ^ 16 - 1 - VRING_USED_F_NO_NOTIFY) }

/-- `virtqueue_nused` and `virtqueue_navail` -/
def pending (role : VirtioRole) (vq : Virtqueue) (r : Vring) : Option ℕ :=
  let n := match role with
    | .master => sub16 r.usedIdx vq.vqUsedConsIdx
    | .slave => sub16 r.availIdx vq.vqAvailableIdx
  if n ≤ vq.vqNentries then some n else none

/-- `vq_ring_enable_interrupt` from the fence on: whether there is something already. -/
def enableFinish (role : VirtioRole) (vq : Virtqueue) (r : Vring) : Option Bool :=
  (vq.pending role r).map fun n => decide (0 < n)

/-- `virtqueue_disable_cb` -/
def virtqueueDisableCb (eventIdx : Bool) (role : VirtioRole) (vq : Virtqueue) (r : Vring) :
    Option (Virtqueue × Vring) :=
  vq.busy.map fun vq => (vq.idle,
    match eventIdx, role with
    | true, .master => { r with usedEvent := sub16 vq.vqUsedConsIdx (vq.vqNentries + 1) }
    | true, .slave => { r with availEvent := sub16 vq.vqAvailableIdx (vq.vqNentries + 1) }
    | false, .master => { r with availFlags := r.availFlags ||| VRING_AVAIL_F_NO_INTERRUPT }
    | false, .slave => { r with usedFlags := r.usedFlags ||| VRING_USED_F_NO_NOTIFY })

end Virtqueue

end C906Firmware
