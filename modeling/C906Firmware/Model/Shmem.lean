import C906Firmware.Model.Cache

/-!
# The operations of a shared-memory region

The reads and block operations that `shmem_sunxi_io_ops` installs, over a region of
`metal/io.h`. Each block operation has three loops, over a head of single bytes, a body of words
and a tail of bytes; they differ in what one step does and in the pointers that have to be
aligned. The length is a signed counter, and each loop is cut off after `fuel` rounds. An object
does not wrap around the address space, so the addresses in it are natural numbers.
-/

namespace C906Firmware

open Interaction

/-! ### The three loops -/

/-- A loop that does `n` bytes in each round; `s.1` bytes are done and `s.2` are left. -/
def countLoop (Go : ℕ × ℤ → Prop) [DecidablePred Go] (n : ℕ) (step : ℕ → Code Unit) :
    ℕ → ℕ × ℤ → Code (ℕ × ℤ) :=
  Prog.iterate fun s =>
    if Go s then do
      step s.1
      pure (.inl (s.1 + n, s.2 - n))
    else
      pure (.inr s)

/-- `while (len && misaligned)`, a byte in each round. -/
def blockHead (Misaligned : ℕ → Prop) [DecidablePred Misaligned] (byte : ℕ → Code Unit) :
    ℕ → ℕ × ℤ → Code (ℕ × ℤ) :=
  countLoop (fun s => s.2 ≠ 0 ∧ Misaligned s.1) 1 byte

/-- `for (; len >= (int)sizeof(int); len -= sizeof(int))`, a word in each round. -/
def blockWords (word : ℕ → Code Unit) : ℕ → ℕ × ℤ → Code (ℕ × ℤ) :=
  countLoop (fun s => s.2 ≥ 4) 4 word

/-- `for (; len != 0; len--)`, a byte in each round. -/
def blockTail (byte : ℕ → Code Unit) : ℕ → ℕ × ℤ → Code (ℕ × ℤ) :=
  countLoop (fun s => s.2 ≠ 0) 1 byte

/-- The three loops of a block operation, with what is done and left at their end. -/
def blockLoops (Misaligned : ℕ → Prop) [DecidablePred Misaligned] (byte word : ℕ → Code Unit)
    (fuel : ℕ) (len : ℤ) : Code (ℕ × ℤ) := do
  let s₁ ← blockHead Misaligned byte fuel (0, len)
  let s₂ ← blockWords word fuel s₁
  blockTail byte fuel s₂

/-- `*(unsigned char *)dest = *(const unsigned char *)source`, after `i` bytes. -/
def copyByte (dest source i : ℕ) : Code Unit := do
  let b ← access (.load8 (source + i))
  access (.store8 (dest + i) b)

/-- `*(unsigned int *)dest = *(const unsigned int *)source`, after `i` bytes. -/
def copyWord (dest source i : ℕ) : Code Unit := do
  let q ← access (.load32 (source + i))
  access (.store32 (dest + i) q)

/-! ### The operations -/

namespace MetalIoRegion

/-- An atomic load of `n` bytes, lowest address first. -/
def loadBytes (a : ℕ) : ℕ → Code ℕ
  | 0 => pure 0
  | n + 1 => do
    let b ← access (.load8 a)
    let rest ← loadBytes (a + 1) n
    pure (b.toNat + 2 ^ 8 * rest)

/-- `shmem_metal_io_read` -/
def shmemMetalIoRead (fuel : ℕ) (io : MetalIoRegion) (offset : Addr) (width : ℤ) : Code ℕ :=
  let ptr := metalIoVirt io offset
  if ptr = 0 then
    pure 0
  else do
    Hal.metalMachineCacheInvalidate fuel ptr (BitVec.ofInt 32 width)
    if width = 1 ∨ width = 2 ∨ width = 4 ∨ width = 8 then
      loadBytes ptr.toNat width.toNat
    else
      pure 0

/-- `shmem_metal_io_block_read` -/
def shmemMetalIoBlockRead (fuel : ℕ) (io : MetalIoRegion) (offset dst : Addr) (len : ℤ) :
    Code ℤ :=
  let ptr := metalIoVirt io offset
  if ptr = 0 then
    pure 0
  else do
    Hal.metalMachineCacheInvalidate fuel ptr (BitVec.ofInt 32 len)
    let _ ← blockLoops (fun i => (dst.toNat + i) % 4 ≠ 0 ∨ (ptr.toNat + i) % 4 ≠ 0)
      (copyByte dst.toNat ptr.toNat) (copyWord dst.toNat ptr.toNat) fuel len
    pure len

/-- `shmem_metal_io_block_write` -/
def shmemMetalIoBlockWrite (fuel : ℕ) (io : MetalIoRegion) (offset src : Addr) (len : ℤ) :
    Code ℤ :=
  let ptr := metalIoVirt io offset
  if ptr = 0 then
    pure 0
  else do
    let _ ← blockLoops (fun i => (ptr.toNat + i) % 4 ≠ 0 ∨ (src.toNat + i) % 4 ≠ 0)
      (copyByte ptr.toNat src.toNat) (copyWord ptr.toNat src.toNat) fuel len
    Hal.metalMachineCacheFlush fuel ptr (BitVec.ofInt 32 len)
    pure len

/-- The word `cint` of `shmem_metal_io_block_set`: `value` in each of its bytes. -/
def cint (value : Byte) : Word :=
  [1, 2, 3].foldl (fun cint i => cint ||| value.setWidth 32 <<< (8 * i)) (value.setWidth 32)

/-- `shmem_metal_io_block_set` -/
def shmemMetalIoBlockSet (fuel : ℕ) (io : MetalIoRegion) (offset : Addr) (value : Byte)
    (len : ℤ) : Code Unit :=
  let ptr := metalIoVirt io offset
  if ptr = 0 then
    pure ()
  else do
    let _ ← blockLoops (fun i => (ptr.toNat + i) % 4 ≠ 0)
      (fun i => access (.store8 (ptr.toNat + i) value))
      (fun i => access (.store32 (ptr.toNat + i) (Quad.ofNat (cint value).toNat))) fuel len
    Hal.metalMachineCacheFlush fuel ptr (BitVec.ofInt 32 len)

end MetalIoRegion

end C906Firmware
