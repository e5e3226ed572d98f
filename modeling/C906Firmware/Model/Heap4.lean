import C906Firmware.Heap.LittleEndian
import C906Firmware.Model.Heap

/-!
# The FreeRTOS heap

`heap_4.c`: blocks with a header in front of them, and the free ones in a list ordered by their
addresses. Addresses and sizes are 64 bits wide, 0 is the null pointer, and `configASSERT` is
empty. Each stretch with interrupts disabled is one step; `fuel` bounds the loops over the free
list.
-/

namespace C906Firmware

open LittleEndian

/-- `configTOTAL_HEAP_SIZE` -/
def configTOTAL_HEAP_SIZE : ℕ := 0x40000

/-- `portBYTE_ALIGNMENT` -/
def portBYTE_ALIGNMENT : ℕ := 16

/-- `portBYTE_ALIGNMENT_MASK` -/
def portBYTE_ALIGNMENT_MASK : ℕ := 0x000f

/-- `~portBYTE_ALIGNMENT_MASK` in a `size_t` -/
def alignedBits : ℕ := 2 ^ 64 - 1 - portBYTE_ALIGNMENT_MASK

/-- `xHeapStructSize`: a `BlockLink_t` is a pointer and a size. -/
def xHeapStructSize : ℕ := (8 + 8 + (portBYTE_ALIGNMENT - 1)) &&& alignedBits

/-- `heapMINIMUM_BLOCK_SIZE` -/
def heapMINIMUM_BLOCK_SIZE : ℕ := xHeapStructSize <<< 1

/-- `portMAX_DELAY` -/
def portMAX_DELAY : ℕ := 2 ^ 64 - 1

/-- `a + b` in a `size_t` -/
def sizeAdd (a b : ℕ) : ℕ := (a + b) % 2 ^ 64

/-- `a - b` in a `size_t` -/
def sizeSub (a b : ℕ) : ℕ := (a + 2 ^ 64 - b) % 2 ^ 64

/-- Where the linker has put `ucHeap` and `xStart`. -/
structure HeapLayout where
  ucHeap : ℕ
  xStart : ℕ
  ucHeap_inRam : RAM_ORIGIN ≤ ucHeap ∧ ucHeap + configTOTAL_HEAP_SIZE ≤ RAM_ORIGIN + RAM_LENGTH
  xStart_inRam : RAM_ORIGIN ≤ xStart ∧ xStart + 16 ≤ RAM_ORIGIN + RAM_LENGTH
  apart : xStart + 16 ≤ ucHeap ∨ ucHeap + configTOTAL_HEAP_SIZE ≤ xStart

namespace HeapLayout

/-- `pucAlignedHeap` of `prvHeapInit`. All addresses lie in the RAM, so nothing wraps. -/
def pucAlignedHeap (L : HeapLayout) : ℕ :=
  if L.ucHeap &&& portBYTE_ALIGNMENT_MASK ≠ 0 then
    (L.ucHeap + (portBYTE_ALIGNMENT - 1)) &&& alignedBits
  else L.ucHeap

/-- `xTotalHeapSize` of `prvHeapInit` -/
def xTotalHeapSize (L : HeapLayout) : ℕ := configTOTAL_HEAP_SIZE - (L.pucAlignedHeap - L.ucHeap)

/-- The address of the end marker. -/
def endMarker (L : HeapLayout) : ℕ :=
  (L.pucAlignedHeap + L.xTotalHeapSize - xHeapStructSize) &&& alignedBits

end HeapLayout

/-- The memory and the static variables of `heap_4.c`. -/
structure Heap4 where
  mem : ℕ → BitVec 8
  pxEnd : ℕ
  xFreeBytesRemaining : ℕ
  xMinimumEverFreeBytesRemaining : ℕ
  xNumberOfSuccessfulAllocations : ℕ
  xNumberOfSuccessfulFrees : ℕ
  xBlockAllocatedBit : ℕ

namespace Heap4

/-! ### Headers -/

/-- `pxNextFreeBlock` of the block at an address -/
def pxNextFreeBlock (s : Heap4) (b : ℕ) : ℕ := load s.mem b 8

/-- `xBlockSize` of the block at an address -/
def xBlockSize (s : Heap4) (b : ℕ) : ℕ := load s.mem (b + 8) 8

def setNext (s : Heap4) (b n : ℕ) : Heap4 := { s with mem := put s.mem b 8 n }

def setSize (s : Heap4) (b n : ℕ) : Heap4 := { s with mem := put s.mem (b + 8) 8 n }

/-! ### The free list -/

/-- The headers that `prvHeapInit` writes: of `xStart`, of `pxEnd` and of the first free block -/
def initHeaders (L : HeapLayout) (s : Heap4) : Heap4 :=
  let s := (s.setNext L.xStart L.pucAlignedHeap).setSize L.xStart 0
  let s := (s.setSize L.endMarker 0).setNext L.endMarker 0
  (s.setSize L.pucAlignedHeap (L.endMarker - L.pucAlignedHeap)).setNext L.pucAlignedHeap L.endMarker

/-- `prvHeapInit` -/
def prvHeapInit (L : HeapLayout) (s : Heap4) : Heap4 :=
  let s := s.initHeaders L
  { s with
    pxEnd := L.endMarker
    xMinimumEverFreeBytesRemaining := s.xBlockSize L.pucAlignedHeap
    xFreeBytesRemaining := s.xBlockSize L.pucAlignedHeap
    xBlockAllocatedBit := 1 <<< (8 * 8 - 1) }

/-- The loop of `prvInsertBlockIntoFreeList`: the last block before the one to be inserted. -/
def insertPoint (s : Heap4) (b : ℕ) : ℕ → ℕ → Option ℕ
  | 0, _ => none
  | fuel + 1, pxIterator =>
    if s.pxNextFreeBlock pxIterator < b then s.insertPoint b fuel (s.pxNextFreeBlock pxIterator)
    else some pxIterator

/-- The block to be inserted is joined with the one in front of it. -/
def joinFront (s : Heap4) (pxIterator b : ℕ) : ℕ × Heap4 :=
  if sizeAdd pxIterator (s.xBlockSize pxIterator) = b then
    (pxIterator, s.setSize pxIterator (sizeAdd (s.xBlockSize pxIterator) (s.xBlockSize b)))
  else (b, s)

/-- The block to be inserted is joined with the one behind it, and gets its link. -/
def joinBehind (s : Heap4) (pxIterator b : ℕ) : Heap4 :=
  if sizeAdd b (s.xBlockSize b) = s.pxNextFreeBlock pxIterator then
    if s.pxNextFreeBlock pxIterator ≠ s.pxEnd then
      -- Form one big block from the two blocks.
      let s := s.setSize b
        (sizeAdd (s.xBlockSize b) (s.xBlockSize (s.pxNextFreeBlock pxIterator)))
      s.setNext b (s.pxNextFreeBlock (s.pxNextFreeBlock pxIterator))
    else s.setNext b s.pxEnd
  else s.setNext b (s.pxNextFreeBlock pxIterator)

/-- `prvInsertBlockIntoFreeList` after its loop -/
def insertAfter (s : Heap4) (pxIterator b : ℕ) : Heap4 :=
  let (b, s) := s.joinFront pxIterator b
  let s := s.joinBehind pxIterator b
  if pxIterator ≠ b then s.setNext pxIterator b else s

/-- `prvInsertBlockIntoFreeList` -/
def prvInsertBlockIntoFreeList (L : HeapLayout) (fuel b : ℕ) (s : Heap4) : Option Heap4 :=
  (s.insertPoint b fuel L.xStart).map fun pxIterator => s.insertAfter pxIterator b

/-! ### Allocation -/

/-- What `__internal_malloc` makes of the wanted size: it is rounded up with room for a header, or
0 where there is no such size. -/
def wantedSize (xWantedSize : ℕ) : ℕ :=
  if 0 < xWantedSize ∧ xWantedSize < sizeAdd xWantedSize xHeapStructSize then
    let n := sizeAdd xWantedSize xHeapStructSize
    if n &&& portBYTE_ALIGNMENT_MASK ≠ 0 then
      let rounded := sizeAdd n (portBYTE_ALIGNMENT - (n &&& portBYTE_ALIGNMENT_MASK))
      if n < rounded then rounded else 0
    else n
  else 0

/-- The loop of `__internal_malloc`: the first block of adequate size or the end marker, with the
block before it. -/
def findBlock (s : Heap4) (xWantedSize : ℕ) : ℕ → ℕ → ℕ → Option (ℕ × ℕ)
  | 0, _, _ => none
  | fuel + 1, pxPreviousBlock, pxBlock =>
    if s.xBlockSize pxBlock < xWantedSize ∧ s.pxNextFreeBlock pxBlock ≠ 0 then
      s.findBlock xWantedSize fuel pxBlock (s.pxNextFreeBlock pxBlock)
    else some (pxPreviousBlock, pxBlock)

/-- What is more than wanted goes back into the list, if it is enough for a block. -/
def splitBlock (L : HeapLayout) (fuel pxBlock xWantedSize : ℕ) (s : Heap4) : Option Heap4 :=
  if heapMINIMUM_BLOCK_SIZE < sizeSub (s.xBlockSize pxBlock) xWantedSize then
    let pxNewBlockLink := sizeAdd pxBlock xWantedSize
    let s := s.setSize pxNewBlockLink (sizeSub (s.xBlockSize pxBlock) xWantedSize)
    let s := s.setSize pxBlock xWantedSize
    s.prvInsertBlockIntoFreeList L fuel pxNewBlockLink
  else some s

/-- The block is counted and marked as the application's. -/
def handOut (s : Heap4) (pxBlock : ℕ) : Heap4 :=
  let xFreeBytesRemaining := sizeSub s.xFreeBytesRemaining (s.xBlockSize pxBlock)
  let s := { s with
    xFreeBytesRemaining := xFreeBytesRemaining
    xMinimumEverFreeBytesRemaining :=
      if xFreeBytesRemaining < s.xMinimumEverFreeBytesRemaining then xFreeBytesRemaining
      else s.xMinimumEverFreeBytesRemaining }
  let s := s.setSize pxBlock (s.xBlockSize pxBlock ||| s.xBlockAllocatedBit)
  let s := s.setNext pxBlock 0
  { s with xNumberOfSuccessfulAllocations := sizeAdd s.xNumberOfSuccessfulAllocations 1 }

/-- The block that was found is taken out of the list, unless it is the end marker. -/
def takeBlock (L : HeapLayout) (fuel xWantedSize pxPreviousBlock pxBlock : ℕ) (s : Heap4) :
    Option (ℕ × Heap4) :=
  if pxBlock = s.pxEnd then some (0, s)
  else
    let pvReturn := sizeAdd (s.pxNextFreeBlock pxPreviousBlock) xHeapStructSize
    let s := s.setNext pxPreviousBlock (s.pxNextFreeBlock pxBlock)
    (s.splitBlock L fuel pxBlock xWantedSize).map fun s => (pvReturn, s.handOut pxBlock)

/-- `__internal_malloc` on a heap that is set up -/
def allocate (L : HeapLayout) (fuel xWantedSize : ℕ) (s : Heap4) : Option (ℕ × Heap4) :=
  if xWantedSize &&& s.xBlockAllocatedBit = 0 then
    if 0 < wantedSize xWantedSize ∧ wantedSize xWantedSize ≤ s.xFreeBytesRemaining then
      (s.findBlock (wantedSize xWantedSize) fuel L.xStart (s.pxNextFreeBlock L.xStart)).bind
        fun (pxPreviousBlock, pxBlock) =>
          s.takeBlock L fuel (wantedSize xWantedSize) pxPreviousBlock pxBlock
    else some (0, s)
  else some (0, s)

/-- `__internal_malloc` -/
def internalMalloc (L : HeapLayout) (fuel xWantedSize : ℕ) (s : Heap4) : Option (ℕ × Heap4) :=
  if s.pxEnd = 0 then (s.prvHeapInit L).allocate L fuel xWantedSize
  else s.allocate L fuel xWantedSize

/-! ### Release -/

/-- `__internal_free` up to the stretch with interrupts disabled: whether the block is the
application's, with the mark taken off it. -/
def freeCheck (s : Heap4) (pv : ℕ) : Option Heap4 :=
  let pxLink := sizeSub pv xHeapStructSize
  if s.xBlockSize pxLink &&& s.xBlockAllocatedBit ≠ 0 ∧ s.pxNextFreeBlock pxLink = 0 then
    some (s.setSize pxLink (s.xBlockSize pxLink &&& (2 ^ 64 - 1 - s.xBlockAllocatedBit)))
  else none

/-- `__internal_free` with interrupts disabled -/
def freeInsert (L : HeapLayout) (fuel pv : ℕ) (s : Heap4) : Option Heap4 :=
  let pxLink := sizeSub pv xHeapStructSize
  let s := { s with
    xFreeBytesRemaining := sizeAdd s.xFreeBytesRemaining (s.xBlockSize pxLink) }
  (s.prvInsertBlockIntoFreeList L fuel pxLink).map fun s =>
    { s with xNumberOfSuccessfulFrees := sizeAdd s.xNumberOfSuccessfulFrees 1 }

/-- `__internal_free` -/
def internalFree (L : HeapLayout) (fuel pv : ℕ) (s : Heap4) : Option Heap4 :=
  if pv = 0 then some s
  else
    match s.freeCheck pv with
    | some s => s.freeInsert L fuel pv
    | none => some s

/-! ### Statistics -/

/-- `HeapStats_t` -/
structure HeapStats where
  xAvailableHeapSpaceInBytes : ℕ
  xSizeOfLargestFreeBlockInBytes : ℕ
  xSizeOfSmallestFreeBlockInBytes : ℕ
  xNumberOfFreeBlocks : ℕ
  xMinimumEverFreeBytesRemaining : ℕ
  xNumberOfSuccessfulAllocations : ℕ
  xNumberOfSuccessfulFrees : ℕ
  deriving DecidableEq

/-- How a walk over the free list ends. -/
inductive Walk (α : Type)
  | counted (a : α)
  /-- The walk has come to the null pointer, which has no header. -/
  | nullPointer
  /-- The rounds are used up. -/
  | cutOff
  deriving DecidableEq

/-- What is made of what has been counted. -/
def Walk.map {α β : Type} (f : α → β) : Walk α → Walk β
  | counted a => counted (f a)
  | nullPointer => nullPointer
  | cutOff => cutOff

/-- The loop of `vPortGetHeapStats`: the number of blocks, the largest and the smallest size. It
ends at the end marker. -/
def countBlocks (s : Heap4) : ℕ → ℕ → ℕ × ℕ × ℕ → Walk (ℕ × ℕ × ℕ)
  | 0, _, _ => .cutOff
  | fuel + 1, pxBlock, (xBlocks, xMaxSize, xMinSize) =>
    if pxBlock = 0 then .nullPointer
    else
      let size := s.xBlockSize pxBlock
      let counted := (xBlocks + 1, if xMaxSize < size then size else xMaxSize,
        if size < xMinSize then size else xMinSize)
      if s.pxNextFreeBlock pxBlock ≠ s.pxEnd then
        s.countBlocks fuel (s.pxNextFreeBlock pxBlock) counted
      else .counted counted

/-- What `vPortGetHeapStats` reports after its loop. -/
def heapStats (s : Heap4) (counted : ℕ × ℕ × ℕ) : HeapStats where
  xAvailableHeapSpaceInBytes := s.xFreeBytesRemaining
  xSizeOfLargestFreeBlockInBytes := counted.2.1
  xSizeOfSmallestFreeBlockInBytes := counted.2.2
  xNumberOfFreeBlocks := counted.1
  xMinimumEverFreeBytesRemaining := s.xMinimumEverFreeBytesRemaining
  xNumberOfSuccessfulAllocations := s.xNumberOfSuccessfulAllocations
  xNumberOfSuccessfulFrees := s.xNumberOfSuccessfulFrees

/-- `vPortGetHeapStats` -/
def vPortGetHeapStats (L : HeapLayout) (fuel : ℕ) (s : Heap4) : Walk HeapStats :=
  let pxBlock := s.pxNextFreeBlock L.xStart
  if pxBlock ≠ 0 then (s.countBlocks fuel pxBlock (0, 0, portMAX_DELAY)).map s.heapStats
  else .counted (s.heapStats (0, 0, portMAX_DELAY))

/-! ### What is built on allocation

The leak hooks, which are called after the fact, are left out. -/

/-- `sizeof(void *)` -/
def POINTER_SIZE : ℕ := 8

/-- `(n + uintptr_size) & ~uintptr_size` -/
def pointerRound (n : ℕ) : ℕ := sizeAdd n (POINTER_SIZE - 1) &&& (2 ^ 64 - 1 - (POINTER_SIZE - 1))

/-- The pointer that `pvPortMallocAlign` makes of the one it has got. -/
def alignPtr (ptr align : ℕ) : ℕ :=
  if ptr &&& sizeSub align 1 = 0 then sizeAdd ptr align
  else sizeAdd ptr (sizeSub align 1) &&& (2 ^ 64 - 1 - sizeSub align 1)

/-- `pvPortMallocAlign` -/
def pvPortMallocAlign (L : HeapLayout) (fuel xWantedSize align : ℕ) (s : Heap4) :
    Option (ℕ × Heap4) :=
  let align := pointerRound align
  let align_size := sizeAdd (pointerRound xWantedSize) align
  (s.internalMalloc L fuel align_size).map fun (ptr, s) =>
    if ptr ≠ 0 then
      -- The real pointer stands in front of the aligned one.
      (alignPtr ptr align, { s with
        mem := put s.mem (sizeSub (alignPtr ptr align) POINTER_SIZE) 8 ptr })
    else (ptr, s)

/-- `vPortFreeAlign` -/
def vPortFreeAlign (L : HeapLayout) (fuel ptr : ℕ) (s : Heap4) : Option Heap4 :=
  s.internalFree L fuel (load s.mem (sizeSub ptr POINTER_SIZE) 8)

/-- How many bytes `pvPortRealloc` has `memcpy` copy from the old block. -/
def reallocLength (s : Heap4) (old newlen : ℕ) : ℕ :=
  let oldsize := sizeSub (s.xBlockSize (sizeSub old xHeapStructSize)) xHeapStructSize
  if oldsize < newlen then oldsize else newlen

/-- `pvPortRealloc`, with the `memcpy` of the C library -/
def pvPortRealloc (L : HeapLayout) (fuel : ℕ)
    (memcpy : (ℕ → BitVec 8) → ℕ → ℕ → ℕ → ℕ → BitVec 8) (old newlen : ℕ) (s : Heap4) :
    Option (ℕ × Heap4) :=
  if old = 0 then s.internalMalloc L fuel newlen
  else if newlen = 0 then (s.internalFree L fuel old).map fun s => (0, s)
  else
    (s.internalMalloc L fuel newlen).bind fun (result, s) =>
      if result = 0 then some (result, s)
      else
        let s := { s with mem := memcpy s.mem result old (s.reallocLength old newlen) }
        (s.internalFree L fuel old).map fun s => (result, s)

end Heap4

end C906Firmware
