import Mathlib.Data.BitVec

/-!
# I/O regions and the mappings of the platform

The address translation of `metal/io.h` and `io.c`, and the memory list of the remote
processor: `platform_rproc_mmap`, which registers a region, and `remoteproc_mmap`, which looks
one up first. Addresses, offsets and sizes are 64-bit words. The platform's regions have no
translation callbacks (`shmem_sunxi_io_ops`), and its `get_mem` is null; `metal_sys_io_mem_map`
does nothing. A pointer argument that may be null is an `Option`.

The lists are Lean lists here; `Model.Mappings` has the same functions over list nodes in memory,
and `total_remoteprocMmap` (`Remoteproc.Mapped`) shows that those do what these say.
-/

namespace C906Firmware

/-- An address, an offset or a size. -/
abbrev Addr := BitVec 64

/-- `METAL_BAD_PHYS` -/
def METAL_BAD_PHYS : Addr := -1

/-- `METAL_BAD_OFFSET` -/
def METAL_BAD_OFFSET : Addr := -1

/-- `METAL_BAD_VA` -/
def METAL_BAD_VA : Addr := -1

/-- `struct metal_io_region` -/
structure MetalIoRegion where
  virt : Addr
  /-- The table of physical addresses, by page. -/
  physmap : Addr → Addr
  size : Addr
  pageShift : Addr
  pageMask : Addr

/-- `metal_io_init` -/
def metalIoInit (virt : Addr) (physmap : Addr → Addr) (size : Addr) (pageShift : BitVec 32) :
    MetalIoRegion where
  virt := virt
  physmap := physmap
  size := size
  pageShift := pageShift.setWidth 64
  pageMask := if 64 ≤ pageShift.toNat then -1 else ((1 : Addr) <<< pageShift.toNat) - 1

/-- `metal_io_virt`; 0 is the null pointer. -/
def metalIoVirt (io : MetalIoRegion) (offset : Addr) : Addr :=
  if io.virt ≠ METAL_BAD_VA ∧ offset < io.size then io.virt + offset else 0

/-- `metal_io_virt_to_offset` -/
def metalIoVirtToOffset (io : MetalIoRegion) (virt : Addr) : Addr :=
  let offset := virt - io.virt
  if offset < io.size then offset else METAL_BAD_OFFSET

/-- `metal_io_phys` -/
def metalIoPhys (io : MetalIoRegion) (offset : Addr) : Addr :=
  let page := if 64 ≤ io.pageShift.toNat then 0 else offset >>> io.pageShift.toNat
  if offset < io.size then io.physmap page + (offset &&& io.pageMask) else METAL_BAD_PHYS

/-- The loop of `metal_io_phys_to_offset`, for at most `fuel` rounds. -/
def metalIoPhysToOffsetLoop (io : MetalIoRegion) (phys : Addr) : ℕ → Addr → Option Addr
  | 0, _ => none
  | fuel + 1, offset =>
    if metalIoPhys io offset = phys then some offset
    else
      let offset := offset + (io.pageMask + 1)
      if offset < io.size then metalIoPhysToOffsetLoop io phys fuel offset
      else some METAL_BAD_OFFSET

/-- `metal_io_phys_to_offset` -/
def metalIoPhysToOffset (fuel : ℕ) (io : MetalIoRegion) (phys : Addr) : Option Addr :=
  metalIoPhysToOffsetLoop io phys fuel
    (if io.pageMask = -1 then phys - io.physmap 0 else phys &&& io.pageMask)

/-- `metal_io_phys_to_virt` -/
def metalIoPhysToVirt (fuel : ℕ) (io : MetalIoRegion) (phys : Addr) : Option Addr :=
  (metalIoPhysToOffset fuel io phys).map (metalIoVirt io)

/-- `metal_io_virt_to_phys` -/
def metalIoVirtToPhys (io : MetalIoRegion) (virt : Addr) : Addr :=
  metalIoPhys io (metalIoVirtToOffset io virt)

/-- `struct remoteproc_mem` -/
structure RemoteprocMem where
  pa : Addr
  da : Addr
  size : Addr
  io : MetalIoRegion

/-- `remoteproc_patoda` -/
def remoteprocPatoda (mem : RemoteprocMem) (pa : Addr) : Addr := mem.da + pa - mem.pa

/-- `remoteproc_datopa` -/
def remoteprocDatopa (mem : RemoteprocMem) (da : Addr) : Addr := mem.pa + da - mem.da

/-- The memory matches in the loop of `remoteproc_get_mem`, for a search without a name or a
virtual address. -/
def RemoteprocMem.Matches (mem : RemoteprocMem) (pa da size : Addr) : Prop :=
  if pa ≠ METAL_BAD_PHYS then mem.pa ≤ pa ∧ pa + size ≤ mem.pa + mem.size
  else da ≠ METAL_BAD_PHYS ∧ mem.da ≤ da ∧ da + size ≤ mem.da + mem.size

instance (mem : RemoteprocMem) (pa da size : Addr) : Decidable (mem.Matches pa da size) :=
  inferInstanceAs (Decidable (ite _ _ _))

/-- `remoteproc_get_mem`, without a name or a virtual address, in the list `rproc->mems`. -/
def remoteprocGetMem (mems : List RemoteprocMem) (pa da size : Addr) : Option RemoteprocMem :=
  mems.find? fun mem => mem.Matches pa da size

/-- What a mapping returns (0 is the null pointer), and what it leaves in `*pa` and `*da`. -/
structure Mapping where
  va : Addr
  pa : Option Addr
  da : Option Addr
  deriving DecidableEq, Repr

/-- The memory `platform_rproc_mmap` registers: mapped one to one, as a single page. -/
def platformMem (lpa lda size : Addr) : RemoteprocMem where
  pa := lpa
  da := lda
  size := size
  io := metalIoInit lpa (fun _ => lpa) size (-1)

/-- `platform_rproc_mmap` with enough memory for an entry of the list. -/
def platformRprocMmap (mems : List RemoteprocMem) (pa da : Option Addr) (size : Addr) :
    Mapping × List RemoteprocMem :=
  let lpa := pa.getD METAL_BAD_PHYS
  let lda := da.getD METAL_BAD_PHYS
  if lpa = METAL_BAD_PHYS ∧ lda = METAL_BAD_PHYS then
    (⟨0, pa, da⟩, mems)
  else
    let lpa' := if lpa = METAL_BAD_PHYS then lda else lpa
    let lda' := if lda = METAL_BAD_PHYS then lpa' else lda
    (⟨lpa', pa.map fun _ => lpa', da.map fun _ => lda'⟩, mems ++ [platformMem lpa' lda' size])

/-- `remoteproc_mmap` -/
def remoteprocMmap (fuel : ℕ) (mems : List RemoteprocMem) (pa da : Option Addr) (size : Addr) :
    Option (Mapping × List RemoteprocMem) :=
  if pa = none ∧ da = none then
    some (⟨0, pa, da⟩, mems)
  else
    let lpa := pa.getD METAL_BAD_PHYS
    let lda := da.getD METAL_BAD_PHYS
    match remoteprocGetMem mems lpa lda size with
    | some mem =>
      let lda' := if lpa ≠ METAL_BAD_PHYS then remoteprocPatoda mem lpa else lda
      let lpa' := if lpa ≠ METAL_BAD_PHYS then lpa
        else if lda ≠ METAL_BAD_PHYS then remoteprocDatopa mem lda else lpa
      (metalIoPhysToVirt fuel mem.io lpa').map fun va =>
        (⟨va, pa.map fun _ => lpa', da.map fun _ => lda'⟩, mems)
    | none =>
      let (mapping, mems') := platformRprocMmap mems (some lpa) (some lda) size
      some (⟨mapping.va, pa.map fun _ => mapping.pa.getD lpa, da.map fun _ => mapping.da.getD lda⟩,
        mems')

end C906Firmware
