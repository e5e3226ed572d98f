import C906Firmware.Model.SharedMemory

/-!
# The heap of the C library

`_sbrk_r` of `syscalls.c`, between the addresses of `c906.ld`, and the memory the resource
table shares with the host. `__bss_end__` depends on what is linked (`Image`); the other
symbols are fixed.
-/

namespace C906Firmware

/-- `ORIGIN(RAM)` -/
def RAM_ORIGIN : ℕ := 0x41200000

/-- `LENGTH(RAM)` -/
def RAM_LENGTH : ℕ := 0x00300000

/-- `__MSP_STACK_LENGTH` -/
def MSP_STACK_LENGTH : ℕ := 0x100

/-- `__heap_end__` -/
def heapLimit : ℕ := RAM_ORIGIN + RAM_LENGTH - MSP_STACK_LENGTH

/-- A linked image: the end of its `.bss` lies in the memory and below the first vring. -/
structure Image where
  /-- `__bss_end__` -/
  bssEnd : ℕ
  inRam : RAM_ORIGIN ≤ bssEnd
  below : bssEnd < vringAddress .svq

/-- A range of memory. -/
structure Region where
  start : ℕ
  size : ℕ
  deriving DecidableEq, Repr

namespace Region

/-- The byte lies in the range. -/
def Has (r : Region) (a : ℕ) : Prop := r.start ≤ a ∧ a < r.start + r.size

instance (r : Region) (a : ℕ) : Decidable (r.Has a) := inferInstanceAs (Decidable (_ ∧ _))

/-- No byte lies in both ranges. -/
def Apart (r s : Region) : Prop := ∀ a, r.Has a → ¬s.Has a

end Region

/-- `vring_size` -/
def vringSize (num align : ℕ) : ℕ :=
  let size := num * 16 + (4 + num * 2 + 2) + align - 1
  size - size % align + (4 + num * 8 + 2)

/-- The vrings and the `rvdev_shm` carveout of the resource table. -/
def sharedRegions : List Region :=
  [⟨vringAddress .svq, vringSize VRING_NUM_BUFFS VRING_ALIGN⟩,
    ⟨vringAddress .rvq, vringSize VRING_NUM_BUFFS VRING_ALIGN⟩, ⟨SHMEM_PA, SHMEM_SIZE⟩]

/-- `ENOMEM` -/
def ENOMEM : ℕ := 12

/-- The static `heap_end` of `_sbrk_r` (0 is the null pointer) and `ptr->_errno`. -/
structure Heap where
  heapEnd : BitVec 64
  errno : ℕ
  deriving DecidableEq, Repr

/-- `_sbrk_r` for a non-negative increment, which is what `ptrdiff_t` has below `2 ^ 63`. -/
def sbrkR (img : Image) (k : Heap) (incr : Fin (2 ^ 63)) : BitVec 64 × Heap :=
  let k := if k.heapEnd = 0 then { k with heapEnd := BitVec.ofNat 64 img.bssEnd } else k
  let prevHeapEnd := k.heapEnd
  if k.heapEnd + BitVec.ofNat 64 incr > BitVec.ofNat 64 heapLimit then
    (-1, { k with errno := ENOMEM })
  else
    (prevHeapEnd, { k with heapEnd := k.heapEnd + BitVec.ofNat 64 incr })

end C906Firmware
