import C906Firmware.Model.Access

/-!
# Cache maintenance and the shared-memory region

The range operations of `cache.c` and `sys.c`, the fields of the two vrings at the addresses
`vring_init` gives them, and the block reader and writer of `shmem_ops.c` over the region of
the shared buffers (`rvdev_shm`, mapped one to one).
-/

namespace C906Firmware

open Interaction

/-! ### Cache maintenance -/

/-- `L1_CACHE_BYTES` -/
def L1_CACHE_BYTES : ℕ := 64

/-- The values of `i` in `for (i = start & ~(L1_CACHE_BYTES - 1); i < end; i += L1_CACHE_BYTES)`,
for ranges that do not wrap. -/
def cacheLines (start stop : ℕ) : List ℕ :=
  let first := start - start % L1_CACHE_BYTES
  (List.range ((stop - first + (L1_CACHE_BYTES - 1)) / L1_CACHE_BYTES)).map
    fun j => first + L1_CACHE_BYTES * j

/-- `DcacheWriteBackRange` -/
def dcacheWriteBackRange (start stop : ℕ) : Code Unit :=
  Prog.forEach (fun i => access (.cpa i)) (cacheLines start stop)

/-- `DcacheInvalidateRange` -/
def dcacheInvalidateRange (start stop : ℕ) : Code Unit :=
  Prog.forEach (fun i => access (.ipa i)) (cacheLines start stop)

/-- `metal_machine_cache_flush` -/
def metalCacheFlush (addr len : ℕ) : Code Unit :=
  if addr = 0 ∧ len = 0 then access .iall else dcacheWriteBackRange addr (addr + len)

/-- `metal_machine_cache_invalidate` -/
def metalCacheInvalidate (addr len : ℕ) : Code Unit :=
  if addr = 0 ∧ len = 0 then access .iall else dcacheInvalidateRange addr (addr + len)

/-! ### The vrings -/

/-- `VRING_NUM_BUFFS` -/
def VRING_NUM_BUFFS : ℕ := 128

/-- `VRING_ALIGN` -/
def VRING_ALIGN : ℕ := 64

/-- `VRING_TX_ADDRESS` (vring 0, the send queue) and `VRING_RX_ADDRESS` (vring 1). -/
def vringAddress : Vq → ℕ
  | .svq => 0x414AC000
  | .rvq => 0x414AE000

/-- `vr->avail` of `vring_init`: after `num` descriptors of 16 bytes. -/
def vringAvail (q : Vq) : ℕ := vringAddress q + VRING_NUM_BUFFS * 16

/-- `vr->used` of `vring_init`: after `avail->ring[num]` and the event index, aligned up. -/
def vringUsed (q : Vq) : ℕ :=
  let p := vringAvail q + 4 + 2 * VRING_NUM_BUFFS + 2 + VRING_ALIGN - 1
  p - p % VRING_ALIGN

/-- Where the entry of the virtio device in the resource table lies. The linker places the
table in the image; any address of its memory below the vrings would do. -/
def vdevRscAddress : ℕ := 0x41200000

/-- The address of a field. -/
def Cell.addr : Cell → ℕ
  | .descAddr q i => vringAddress q + 16 * i
  | .descLen q i => vringAddress q + 16 * i + 8
  | .availFlags q => vringAvail q
  | .availIdx q => vringAvail q + 2
  | .availRing q i => vringAvail q + 4 + 2 * i
  | .usedFlags q => vringUsed q
  | .usedIdx q => vringUsed q + 2
  | .usedId q i => vringUsed q + 4 + 8 * i
  | .usedLen q i => vringUsed q + 4 + 8 * i + 4
  | .vdevNotifyid => vdevRscAddress + 8
  | .vdevDfeatures => vdevRscAddress + 12
  | .vdevGfeatures => vdevRscAddress + 16
  | .vdevStatus => vdevRscAddress + 24
  | .vringNotifyid .svq => vdevRscAddress + 40
  | .vringNotifyid .rvq => vdevRscAddress + 60

/-- The used ring starts a cache line of its own, behind the available ring. -/
example (q : Vq) : vringUsed q = vringAddress q + 2368 ∧ vringUsed q % L1_CACHE_BYTES = 0 := by
  cases q <;> decide

/-- `VRING_INVALIDATE(x)` for a field `x` of the given size. -/
def vringInvalidate (c : Cell) (size : ℕ) : Code Unit := metalCacheInvalidate c.addr size

/-- `VRING_FLUSH(x)` for a field `x` of the given size. -/
def vringFlush (c : Cell) (size : ℕ) : Code Unit := metalCacheFlush c.addr size

/-! ### The region of the shared buffers -/

/-- `SHMEM_PA` -/
def SHMEM_PA : ℕ := 0x414B0000

/-- `SHMEM_SIZE` -/
def SHMEM_SIZE : ℕ := 0x40000

/-- `-ERANGE` -/
def ERANGE : ℤ := 34

/-- The address lies in the region of the shared buffers. -/
def InShm (a : ℕ) : Prop := SHMEM_PA ≤ a ∧ a < SHMEM_PA + SHMEM_SIZE

instance (a : ℕ) : Decidable (InShm a) := inferInstanceAs (Decidable (_ ∧ _))

/-- Where a block is copied from: shared memory, or private bytes at an address that matters
only modulo the word size. -/
inductive Src
  | mem (a : ℕ)
  | priv (a : ℕ) (bytes : List Byte)
  deriving Repr

/-- The address of a source. -/
def Src.addr : Src → ℕ
  | .mem a => a
  | .priv a _ => a

/-- `*(unsigned char *)(source + i)` -/
def Src.read8 (s : Src) (i : ℕ) : Code Byte :=
  match s with
  | .mem a => access (.load8 (a + i))
  | .priv _ bytes => pure (bytes.getD i 0)

/-- `*(unsigned int *)(source + i)` -/
def Src.read32 (s : Src) (i : ℕ) : Code Quad :=
  match s with
  | .mem a => access (.load32 (a + i))
  | .priv _ bytes =>
    pure ⟨bytes.getD i 0, bytes.getD (i + 1) 0, bytes.getD (i + 2) 0, bytes.getD (i + 3) 0⟩

/-- The first loop of `shmem_metal_io_block_write`: bytes, until both pointers are aligned. `i`
bytes are done and the argument is `len`; the result is `len` after the loop. -/
def blockWriteHead (ptr : ℕ) (src : Src) (i : ℕ) : ℕ → Code ℕ
  | 0 => pure 0
  | len + 1 =>
    if (ptr + i) % 4 ≠ 0 ∨ (src.addr + i) % 4 ≠ 0 then do
      let b ← src.read8 i
      access (.store8 (ptr + i) b)
      blockWriteHead ptr src (i + 1) len
    else
      pure (len + 1)

/-- The second loop: words. -/
def blockWriteWords (ptr : ℕ) (src : Src) (i : ℕ) : ℕ → Code ℕ
  | len + 4 => do
    let q ← src.read32 i
    access (.store32 (ptr + i) q)
    blockWriteWords ptr src (i + 4) len
  | len => pure len

/-- The third loop: the bytes that are left. -/
def blockWriteTail (ptr : ℕ) (src : Src) (i : ℕ) : ℕ → Code Unit
  | 0 => pure ()
  | len + 1 => do
    let b ← src.read8 i
    access (.store8 (ptr + i) b)
    blockWriteTail ptr src (i + 1) len

/-- `shmem_metal_io_block_write` -/
def shmemMetalIoBlockWrite (ptr : ℕ) (src : Src) (len : ℕ) : Code ℤ := do
  let len₁ ← blockWriteHead ptr src 0 len
  let len₂ ← blockWriteWords ptr src (len - len₁) len₁
  blockWriteTail ptr src (len - len₂) len₂
  metalCacheFlush ptr len
  pure len

/-- `metal_io_block_write` on the region of the shared buffers. -/
def metalIoBlockWrite (ptr : ℕ) (src : Src) (len : ℕ) : Code ℤ :=
  if InShm ptr then
    shmemMetalIoBlockWrite ptr src
      (if SHMEM_PA + SHMEM_SIZE < ptr + len then SHMEM_PA + SHMEM_SIZE - ptr else len)
  else
    pure (-ERANGE)

/-- The first loop of `shmem_metal_io_block_read`: bytes, until both pointers are aligned. The
bytes read so far are accumulated. -/
def blockReadHead (ptr dst : ℕ) (acc : List Byte) : ℕ → Code (List Byte × ℕ)
  | 0 => pure (acc, 0)
  | len + 1 =>
    if (dst + acc.length) % 4 ≠ 0 ∨ (ptr + acc.length) % 4 ≠ 0 then do
      let b ← access (.load8 (ptr + acc.length))
      blockReadHead ptr dst (acc ++ [b]) len
    else
      pure (acc, len + 1)

/-- The second loop: words. -/
def blockReadWords (ptr : ℕ) (acc : List Byte) : ℕ → Code (List Byte × ℕ)
  | len + 4 => do
    let q ← access (.load32 (ptr + acc.length))
    blockReadWords ptr (acc ++ q.bytes) len
  | len => pure (acc, len)

/-- The third loop: the bytes that are left. -/
def blockReadTail (ptr : ℕ) (acc : List Byte) : ℕ → Code (List Byte)
  | 0 => pure acc
  | len + 1 => do
    let b ← access (.load8 (ptr + acc.length))
    blockReadTail ptr (acc ++ [b]) len

/-- `shmem_metal_io_block_read` into a local array at `dst`; the result is the bytes read. -/
def shmemMetalIoBlockRead (ptr dst len : ℕ) : Code (List Byte) := do
  metalCacheInvalidate ptr len
  let (acc₁, len₁) ← blockReadHead ptr dst [] len
  let (acc₂, len₂) ← blockReadWords ptr acc₁ len₁
  blockReadTail ptr acc₂ len₂

/-- `metal_io_block_read` on the region of the shared buffers; nothing is read from outside. -/
def metalIoBlockRead (ptr dst len : ℕ) : Code (List Byte) :=
  if InShm ptr then
    shmemMetalIoBlockRead ptr dst
      (if SHMEM_PA + SHMEM_SIZE < ptr + len then SHMEM_PA + SHMEM_SIZE - ptr else len)
  else
    pure []

/-- `shmem_metal_io_read` of a field of the given size. -/
def shmemMetalIoRead (c : Cell) (width : ℕ) : Code ℕ := do
  metalCacheInvalidate c.addr width
  access (.load c)

/-- `shmem_metal_io_write` -/
def shmemMetalIoWrite (c : Cell) (value width : ℕ) : Code Unit := do
  access (.store c value)
  metalCacheFlush c.addr width

/-- `rproc_virtio_get_status` -/
def rprocVirtioGetStatus : Code ℕ := shmemMetalIoRead .vdevStatus 1

/-! ### Which accesses these are -/

/-- The accesses to the shared buffers and to the cache. -/
def BufferOp : Op → Prop
  | .load8 _ | .store8 _ _ | .load32 _ | .store32 _ _ | .cpa _ | .ipa _ | .iall => True
  | _ => False

section BufferOnly

/-- A flush makes cache operations, on the lines of the range or on all. -/
theorem bufferOnly_cacheFlush (addr len : ℕ) : (metalCacheFlush addr len).Only BufferOp := by
  unfold metalCacheFlush
  split
  · simp [BufferOp]
  · exact Prog.Only.forEach fun _ => by simp [BufferOp]

/-- An invalidation drops cache lines only. -/
theorem bufferOnly_cacheInvalidate (addr len : ℕ) :
    (metalCacheInvalidate addr len).Only BufferOp := by
  unfold metalCacheInvalidate
  split
  · simp [BufferOp]
  · exact Prog.Only.forEach fun _ => by simp [BufferOp]

/-- A byte of the source is loaded where it is shared and at hand where it is private. -/
theorem bufferOnly_read8 (s : Src) (i : ℕ) : (s.read8 i).Only BufferOp := by
  cases s <;> simp [Src.read8, BufferOp]

theorem bufferOnly_read32 (s : Src) (i : ℕ) : (s.read32 i).Only BufferOp := by
  cases s <;> simp [Src.read32, BufferOp]

/-- The bytes up to the first aligned word. -/
theorem bufferOnly_blockWriteHead (ptr : ℕ) (src : Src) (i len : ℕ) :
    (blockWriteHead ptr src i len).Only BufferOp := by
  induction len generalizing i with
  | zero => simp [blockWriteHead]
  | succ len ih =>
    unfold blockWriteHead
    split
    · refine (bufferOnly_read8 src i).bind fun b => ?_
      simp only [Prog.perform_bind, Prog.only_act]
      exact ⟨trivial, fun _ => ih (i + 1)⟩
    · simp

/-- The aligned words. -/
theorem bufferOnly_blockWriteWords (ptr : ℕ) (src : Src) (i len : ℕ) :
    (blockWriteWords ptr src i len).Only BufferOp := by
  induction i, len using blockWriteWords.induct with
  | case1 i len ih =>
    unfold blockWriteWords
    refine (bufferOnly_read32 src i).bind fun q => ?_
    simp only [Prog.perform_bind, Prog.only_act]
    exact ⟨trivial, fun _ => ih⟩
  | case2 i len hlen =>
    unfold blockWriteWords
    split
    · exact absurd rfl (hlen _)
    · simp

/-- The bytes after the last word. -/
theorem bufferOnly_blockWriteTail (ptr : ℕ) (src : Src) (i len : ℕ) :
    (blockWriteTail ptr src i len).Only BufferOp := by
  induction len generalizing i with
  | zero => simp [blockWriteTail]
  | succ len ih =>
    unfold blockWriteTail
    refine (bufferOnly_read8 src i).bind fun b => ?_
    simp only [Prog.perform_bind, Prog.only_act]
    exact ⟨trivial, fun _ => ih (i + 1)⟩

/-- A block is written by such accesses only, in three parts and a flush. -/
theorem bufferOnly_blockWrite (ptr : ℕ) (src : Src) (len : ℕ) :
    (metalIoBlockWrite ptr src len).Only BufferOp := by
  unfold metalIoBlockWrite
  split
  · refine (bufferOnly_blockWriteHead _ _ _ _).bind fun _ => ?_
    refine (bufferOnly_blockWriteWords _ _ _ _).bind fun _ => ?_
    refine (bufferOnly_blockWriteTail _ _ _ _).bind fun _ => ?_
    exact (bufferOnly_cacheFlush _ _).bind fun _ => by simp
  · simp

/-- Reading goes the same way: the bytes up to the first aligned word. -/
theorem bufferOnly_blockReadHead (ptr dst : ℕ) (acc : List Byte) (len : ℕ) :
    (blockReadHead ptr dst acc len).Only BufferOp := by
  induction len generalizing acc with
  | zero => simp [blockReadHead]
  | succ len ih =>
    unfold blockReadHead
    split
    · simp only [Prog.perform_bind, Prog.only_act]
      exact ⟨trivial, fun _ => ih _⟩
    · simp

theorem bufferOnly_blockReadWords (ptr : ℕ) (acc : List Byte) (len : ℕ) :
    (blockReadWords ptr acc len).Only BufferOp := by
  induction len using Nat.strong_induction_on generalizing acc with
  | h len ih =>
    unfold blockReadWords
    split
    · next len =>
      simp only [Prog.perform_bind, Prog.only_act]
      exact ⟨trivial, fun _ => ih len (by omega) _⟩
    · simp

theorem bufferOnly_blockReadTail (ptr : ℕ) (acc : List Byte) (len : ℕ) :
    (blockReadTail ptr acc len).Only BufferOp := by
  induction len generalizing acc with
  | zero => simp [blockReadTail]
  | succ len ih =>
    unfold blockReadTail
    simp only [Prog.perform_bind, Prog.only_act]
    exact ⟨trivial, fun _ => ih _⟩

/-- A block is read by such accesses only, after an invalidation. -/
theorem bufferOnly_blockRead (ptr dst len : ℕ) :
    (metalIoBlockRead ptr dst len).Only BufferOp := by
  unfold metalIoBlockRead
  split
  · refine (bufferOnly_cacheInvalidate _ _).bind fun _ => ?_
    refine (bufferOnly_blockReadHead _ _ _ _).bind fun _ => ?_
    refine (bufferOnly_blockReadWords _ _ _).bind fun _ => ?_
    exact bufferOnly_blockReadTail _ _ _
  · simp

/-- The maintenance of a ring field does not load or store it. -/
theorem bufferOnly_invalidate (c : Cell) (size : ℕ) : (vringInvalidate c size).Only BufferOp :=
  bufferOnly_cacheInvalidate _ _

theorem bufferOnly_flush (c : Cell) (size : ℕ) : (vringFlush c size).Only BufferOp :=
  bufferOnly_cacheFlush _ _

end BufferOnly

end C906Firmware
