import C906Firmware.Interaction.Prog
import Mathlib.Data.BitVec

/-!
# The accesses of the firmware

The RPMsg path of the firmware touches four kinds of things, and each touch is one access
`Op`: registers of the mailbox and the interrupt controller, private memory (`Var`: globals,
statics and fields of structures only the C906 uses), memory shared with the host (ring
fields `Cell`, and single bytes and aligned words of the buffers), and the processor's own
interrupt and cache instructions.

Private memory and ring fields hold natural numbers; where the C type is narrower the code's
arithmetic carries its `% 2 ^ w`. A ring field is named by its place in a vring (`Cell`), and
the pointers of `vq_ring` are variables of their own, so that code which reaches a field before
they are set can be told (`Cell.vringPart`). A mailbox word is a `Word`, a byte of a shared buffer a
`Byte`, and an aligned 32-bit access moves the four bytes of a `Quad`.
-/

namespace C906Firmware

open Interaction

/-- A 32-bit register value or mailbox word. -/
abbrev Word := BitVec 32

/-- A byte of a shared buffer. -/
abbrev Byte := BitVec 8

/-- The four bytes of an aligned 32-bit access, lowest address first. -/
@[ext]
structure Quad where
  b0 : Byte
  b1 : Byte
  b2 : Byte
  b3 : Byte
  deriving DecidableEq, Repr, Inhabited

namespace Quad

/-- The little-endian value of four bytes. -/
def toNat (q : Quad) : ℕ :=
  q.b0.toNat + 2 ^ 8 * q.b1.toNat + 2 ^ 16 * q.b2.toNat + 2 ^ 24 * q.b3.toNat

/-- The four bytes of a 32-bit value. -/
def ofNat (n : ℕ) : Quad :=
  ⟨BitVec.ofNat 8 n, BitVec.ofNat 8 (n / 2 ^ 8), BitVec.ofNat 8 (n / 2 ^ 16),
    BitVec.ofNat 8 (n / 2 ^ 24)⟩

/-- The bytes in order of address. -/
def bytes (q : Quad) : List Byte := [q.b0, q.b1, q.b2, q.b3]

/-- Storing a 32-bit value and loading it back gives the value. -/
theorem toNat_ofNat {n : ℕ} (h : n < 2 ^ 32) : (ofNat n).toNat = n := by
  simp only [toNat, ofNat, BitVec.toNat_ofNat]
  omega

/-- Loading a word and storing it elsewhere copies its bytes. -/
@[simp]
theorem ofNat_toNat (q : Quad) : ofNat q.toNat = q := by
  have h0 := q.b0.isLt
  have h1 := q.b1.isLt
  have h2 := q.b2.isLt
  have h3 := q.b3.isLt
  ext1 <;> apply BitVec.eq_of_toNat_eq <;>
    simp only [toNat, ofNat, BitVec.toNat_ofNat] <;> omega

end Quad

/-- The registers of the message box, one for each address the firmware computes from
`base`, `local_n`, `remote_n` and `channel`, apart from the receive FIFO (`Op.readFifo`). -/
inductive Reg
  | rxIrqEnable
  | rxIrqStatus
  | txIrqEnable
  | txIrqStatus
  | txThreshold
  | txMsgStatus
  | txFifo
  /-- The claim and complete register of the interrupt controller. -/
  | plicClaim
  deriving DecidableEq, Repr

/-- What a read of the receive FIFO register is for: `data` is the read whose value is kept,
`quirk` the one whose value is discarded. -/
inductive FifoUse
  | data
  | quirk
  deriving DecidableEq, Repr

/-- The two virtqueues of the RPMsg device: the send queue (vring 0) and the receive queue
(vring 1). -/
inductive Vq
  | svq
  | rvq
  deriving DecidableEq, Repr

/-- The parts of a vring, each with a pointer in `vq->vq_ring`. -/
inductive VringPart
  | desc
  | avail
  | used
  deriving DecidableEq, Repr

/-- The endpoints of the RPMsg device: the name service and the one the platform creates. -/
inductive Ept
  | ns
  | echo
  deriving DecidableEq, Repr

/-- Private memory of the firmware. -/
inductive Var
  /-- `mb->rx_cb` (0 is the null pointer). -/
  | rxCb
  | rxCount
  | lastData
  | irqCount
  /-- The static `last_vqid` of `msgbox_poll`. -/
  | lastVqid
  /-- The static `repeat` of `msgbox_poll`. -/
  | repeats
  /-- `g_openamp_task_handle` (0 is the null pointer). -/
  | taskHandle
  /-- `ulPortInterruptNesting` -/
  | interruptNesting
  /-- `uxCriticalNesting` of the running task. -/
  | criticalNesting
  /-- `uxMessagesWaiting` of the semaphore behind `rdev->lock`. -/
  | lockCount
  | vqInuse (q : Vq)
  | vqAvailableIdx (q : Vq)
  | vqQueuedCnt (q : Vq)
  /-- `vq->callback` (0 is the null pointer). -/
  | vqCallback (q : Vq)
  /-- `vq->vq_ring.desc`, `vq->vq_ring.avail` and `vq->vq_ring.used` (0 is the null pointer). -/
  | vqRing (q : Vq) (p : VringPart)
  /-- `vq->shm_io` (0 is the null pointer). -/
  | vqShmIo (q : Vq)
  /-- `notifyid` of the vring of a virtqueue. -/
  | notifyId (q : Vq)
  /-- `ept->dest_addr` -/
  | eptDest (e : Ept)
  /-- `ept->rdev` (0 is the null pointer); non-null while the endpoint is in the list. -/
  | eptRdev (e : Ept)
  /-- `rdev->lock.islock` -/
  | lockIslock
  | supportNs
  /-- `vdev->notifyid` -/
  | vdevNotifyId
  deriving DecidableEq, Repr

/-- Fields of a vring, and those of the virtio device in the resource table. -/
inductive Cell
  | descAddr (q : Vq) (i : ℕ)
  | descLen (q : Vq) (i : ℕ)
  | availFlags (q : Vq)
  | availIdx (q : Vq)
  | availRing (q : Vq) (i : ℕ)
  | usedFlags (q : Vq)
  | usedIdx (q : Vq)
  | usedId (q : Vq) (i : ℕ)
  | usedLen (q : Vq) (i : ℕ)
  | vdevStatus
  | vdevDfeatures
  | vdevGfeatures
  | vdevNotifyid
  | vringNotifyid (q : Vq)
  deriving DecidableEq, Repr

/-- The pointer of a virtqueue through which its code reaches a field, if it is one of a
vring. -/
def Cell.vringPart : Cell → Option (Vq × VringPart)
  | .descAddr q _ | .descLen q _ => some (q, .desc)
  | .availFlags q | .availIdx q | .availRing q _ => some (q, .avail)
  | .usedFlags q | .usedIdx q | .usedId q _ | .usedLen q _ => some (q, .used)
  | _ => none

/-- Calls whose outcome decides the course of the initialisation and whose work is not
modelled: the heap, and the maps of the remote processor's memory. -/
inductive InitCall
  /-- `metal_allocate_memory`; 0 is the null pointer. -/
  | allocate
  /-- `remoteproc_mmap`; 0 is the null pointer. -/
  | mmap
  /-- `remoteproc_set_rsc_table`; 0 is success. -/
  | setRscTable
  /-- `find_rsc`; 0 if there is no such resource. -/
  | findRsc
  /-- `remoteproc_get_io_with_da`; 0 is the null pointer. -/
  | getIoWithDa
  deriving DecidableEq, Repr

/-- The lists the callback chain walks. -/
inductive ListHead
  /-- `rproc->vdevs` -/
  | vdevs
  /-- `rdev->endpoints` -/
  | endpoints
  deriving DecidableEq, Repr

/-- One access of the firmware. -/
inductive Op
  | readl (r : Reg)
  | writel (r : Reg) (v : Word)
  | readFifo (u : FifoUse)
  /-- The call `mb->rx_cb(mb->rx_priv, data)` as such; the callback's own accesses follow. -/
  | rxCb (data : Word)
  | udelay (us : ℕ)
  /-- A call of `msgbox_send` begins. -/
  | sendEnter (data : Word)
  /-- A call of `msgbox_send` returns. -/
  | sendReturn (ret : ℤ)
  | get (v : Var)
  | set (v : Var) (n : ℕ)
  /-- Clear `mstatus.MIE`. -/
  | clearMie
  /-- Set `mstatus.MIE`. -/
  | setMie
  /-- Clear `mie.MEIE`. -/
  | clearMeie
  /-- Set `mie.MEIE`. -/
  | setMeie
  /-- Read `mstatus` and clear its `MIE` (`csrrc`). -/
  | readClearMie
  /-- Set bits of `mstatus` (`csrs`). -/
  | setMstatus (bits : BitVec 64)
  /-- A critical section of either kind has been entered. -/
  | sectionOpen
  /-- A critical section of either kind is about to be left. -/
  | sectionClose
  /-- Wait for a semaphore in the kernel. -/
  | block
  | notifyGiveFromIsr
  | yieldFromIsr
  /-- Take the address of a local variable. -/
  | sp
  /-- Follow `head->next` of a list; the answer is the number of nodes found. -/
  | walk (l : ListHead)
  /-- Clear a list head: `memset` of the structure that holds it. -/
  | listZero (l : ListHead)
  /-- `metal_list_init` -/
  | listInit (l : ListHead)
  /-- `metal_list_add_tail` -/
  | listAdd (l : ListHead)
  /-- `metal_list_del` -/
  | listDel (l : ListHead)
  /-- `irq_request` of the mailbox interrupt, which also enables it. -/
  | irqRequest
  /-- A call of the initialisation and its result. -/
  | outcome (c : InitCall)
  | load (c : Cell)
  | store (c : Cell) (n : ℕ)
  | load8 (a : ℕ)
  | store8 (a : ℕ) (b : Byte)
  | load32 (a : ℕ)
  | store32 (a : ℕ) (q : Quad)
  /-- `dcache.cpa`: write the line of an address back and keep it. -/
  | cpa (a : ℕ)
  /-- `dcache.ipa`: drop the line of an address. -/
  | ipa (a : ℕ)
  /-- `dcache.iall`: drop every line. -/
  | iall

/-- The answer an access gives. -/
@[reducible]
def Ret : Op → Type
  | .readl _ => Word
  | .readFifo _ => Word
  | .get _ => ℕ
  | .sp => ℕ
  | .readClearMie => BitVec 64
  | .walk _ => ℕ
  | .outcome _ => ℕ
  | .load _ => ℕ
  | .load8 _ => Byte
  | .load32 _ => Quad
  | _ => Unit

/-- Whether an access reads the receive FIFO for the given use. -/
def Op.readsFifo (u : FifoUse) : Op → Bool
  | .readFifo u' => u' = u
  | _ => false

instance (o : Option Op) (u : FifoUse) : Decidable (o = some (.readFifo u)) :=
  decidable_of_iff (o.any (Op.readsFifo u) = true) (by
    rcases o with - | o
    · simp
    · cases o <;> simp [Op.readsFifo])

/-- A piece of firmware. -/
abbrev Code (α : Type) := Prog Ret α

/-- What the environment decides at an access whose answer the model leaves open. -/
structure Answer where
  word : Word := 0
  nat : ℕ := 0
  quad : Quad := ⟨0, 0, 0, 0⟩
  deriving DecidableEq, Repr, Inhabited

/-- The environment's answer to an access, for states that do not determine it. -/
def Answer.at (x : Answer) : (o : Op) → Ret o
  | .readl _ => x.word
  | .readFifo _ => x.word
  | .get _ => x.nat
  | .sp => x.nat
  | .readClearMie => BitVec.ofNat 64 x.nat
  | .walk _ => x.nat
  | .outcome _ => x.nat
  | .load _ => x.nat
  | .load8 _ => x.quad.b0
  | .load32 _ => x.quad
  | .writel _ _ | .rxCb _ | .udelay _ | .sendEnter _ | .sendReturn _ | .set _ _ | .clearMie
  | .setMie | .clearMeie | .setMeie | .setMstatus _ | .sectionOpen | .sectionClose | .block
  | .notifyGiveFromIsr | .yieldFromIsr | .store _ _ | .store8 _ _ | .store32 _ _ | .cpa _
  | .ipa _ | .iall | .listZero _ | .listInit _ | .listAdd _ | .listDel _ | .irqRequest => ()

/-- Make one access. -/
abbrev access (o : Op) : Code (Ret o) := Prog.perform o

/-- Read a private variable. -/
abbrev get (v : Var) : Code ℕ := Prog.perform (Op.get v)

/-- Write a private variable. -/
abbrev set (v : Var) (n : ℕ) : Code Unit := Prog.perform (Op.set v n)

end C906Firmware
