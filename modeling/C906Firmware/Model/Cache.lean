import C906Firmware.Model.Region
import C906Firmware.Model.SharedMemory

/-!
# Cache maintenance in machine words

The range operations of `cache.c` and `sys.c` on 64-bit addresses, with a loop counter that can
wrap; each loop is cut off after `fuel` rounds. The instruction cache and the synchronising
instruction behind each loop concern no data and are left out. On ranges that end before the
last line of the address space the operations are those of `Model/SharedMemory`.
-/

namespace C906Firmware.Hal

open Interaction

/-- `i & ~(L1_CACHE_BYTES - 1)` -/
def lineStart (i : Addr) : Addr := i &&& ~~~BitVec.ofNat 64 (L1_CACHE_BYTES - 1)

/-- `for (; i < end; i += L1_CACHE_BYTES)` -/
def lineLoop (op : ℕ → Code Unit) (stop : Addr) : ℕ → Addr → Code Unit :=
  Prog.iterate fun i =>
    if i < stop then do
      op i.toNat
      pure (.inl (i + BitVec.ofNat 64 L1_CACHE_BYTES))
    else
      pure (.inr ())

/-- `DcacheWriteBackRange` -/
def dcacheWriteBackRange (fuel : ℕ) (start stop : Addr) : Code Unit :=
  lineLoop (fun i => access (.cpa i)) stop fuel (lineStart start)

/-- `DcacheInvalidateRange` -/
def dcacheInvalidateRange (fuel : ℕ) (start stop : Addr) : Code Unit :=
  lineLoop (fun i => access (.ipa i)) stop fuel (lineStart start)

/-- `InvalidateDataCache` -/
def invalidateDataCache : Code Unit := access .iall

/-- `AwosArchCleanFlushCache` -/
def awosArchCleanFlushCache : Code Unit := invalidateDataCache

/-- `AwosArchFlushCache` -/
def awosArchFlushCache : Code Unit := invalidateDataCache

/-- `metal_machine_cache_flush` -/
def metalMachineCacheFlush (fuel : ℕ) (addr : Addr) (len : BitVec 32) : Code Unit :=
  if addr = 0 ∧ len = 0 then awosArchCleanFlushCache
  else dcacheWriteBackRange fuel addr (addr + len.setWidth 64)

/-- `metal_machine_cache_invalidate` -/
def metalMachineCacheInvalidate (fuel : ℕ) (addr : Addr) (len : BitVec 32) : Code Unit :=
  if addr = 0 ∧ len = 0 then awosArchFlushCache
  else dcacheInvalidateRange fuel addr (addr + len.setWidth 64)

end C906Firmware.Hal
