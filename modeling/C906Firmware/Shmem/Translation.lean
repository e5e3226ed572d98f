import C906Firmware.Model.Region

/-!
# Address translation over the platform's mappings

A region of the platform is one page, with a page mask of all ones, so that the search of
`metal_io_phys_to_offset` takes one round (`metalIoPhysToVirt_platformMem`). A look-up by an
address walks the memories in the order of their registration; with size 0 it also accepts the
address one past the end of a memory, and then misses a memory registered later that begins
there (`covers_apart_iff`).
-/

namespace C906Firmware

/-- The address lies in the range of the given start and size. -/
def InRange (start size a : Addr) : Prop :=
  start ≤ a ∧ a.toNat < start.toNat + size.toNat

instance (start size a : Addr) : Decidable (InRange start size a) :=
  inferInstanceAs (Decidable (_ ∧ _))

/-! ### One region -/

section Region

variable {pa da size : Addr}

/-- The offset of an address is below the size exactly if the address is in the range. -/
theorem sub_lt_iff (hend : pa.toNat + size.toNat < 2 ^ 64) (a : Addr) :
    a - pa < size ↔ InRange pa size a := by
  have ha := a.isLt
  have hpa := pa.isLt
  rw [InRange, BitVec.lt_def, BitVec.le_def, BitVec.toNat_sub]
  omega

theorem not_bad_lt (size : Addr) : ¬METAL_BAD_OFFSET < size := by
  have hbad : METAL_BAD_OFFSET.toNat = 2 ^ 64 - 1 := by decide
  have hsize := size.isLt
  rw [BitVec.lt_def, hbad]
  omega

theorem pageMask_platformMem : (platformMem pa da size).io.pageMask = -1 := by
  have hshift : 64 ≤ (-1 : BitVec 32).toNat := by decide
  rw [platformMem, metalIoInit, if_pos hshift]

/-- A region of the platform has one page: offsets are added to its physical address. -/
theorem metalIoPhys_platformMem (offset : Addr) :
    metalIoPhys (platformMem pa da size).io offset =
      if offset < size then pa + offset else METAL_BAD_PHYS := by
  have hall : offset &&& (platformMem pa da size).io.pageMask = offset := by
    rw [pageMask_platformMem]
    exact BitVec.and_allOnes
  rw [metalIoPhys, hall]
  rfl

/-- The search takes one round. -/
theorem metalIoPhysToOffset_platformMem (fuel : ℕ) (phys : Addr) :
    metalIoPhysToOffset (fuel + 1) (platformMem pa da size).io phys =
      some (if phys - pa < size ∨ phys = METAL_BAD_PHYS then phys - pa else METAL_BAD_OFFSET) := by
  have hloop : metalIoPhysToOffset (fuel + 1) (platformMem pa da size).io phys =
      metalIoPhysToOffsetLoop (platformMem pa da size).io phys (fuel + 1) (phys - pa) := rfl
  have hback : pa + (phys - pa) = phys := by
    rw [BitVec.add_comm, BitVec.sub_add_cancel]
  rw [hloop, metalIoPhysToOffsetLoop, metalIoPhys_platformMem, hback]
  by_cases hin : phys - pa < size
  · rw [if_pos hin, if_pos rfl, if_pos (Or.inl hin)]
  · -- the step of the loop is the mask plus one, which is 0
    have hstep : phys - pa + ((platformMem pa da size).io.pageMask + 1) = phys - pa := by
      have hzero : (-1 : Addr) + 1 = 0#64 := by decide
      rw [pageMask_platformMem, hzero, BitVec.add_zero]
    have hsize : ¬phys - pa < (platformMem pa da size).io.size := hin
    rw [if_neg hin, hstep, if_neg hsize]
    by_cases hbad : METAL_BAD_PHYS = phys
    · rw [if_pos hbad, if_pos (Or.inr hbad.symm)]
    · rw [if_neg hbad, if_neg fun h => h.elim hin fun h => hbad h.symm]

/-- The search finds the addresses of the region. -/
theorem metalIoPhysToVirt_platformMem (hpos : size ≠ 0)
    (hend : pa.toNat + size.toNat < 2 ^ 64) (fuel : ℕ) (phys : Addr) :
    metalIoPhysToVirt (fuel + 1) (platformMem pa da size).io phys =
      some (if InRange pa size phys then phys else 0) := by
  rw [metalIoPhysToVirt, metalIoPhysToOffset_platformMem, Option.map_some]
  by_cases hin : phys - pa < size
  · have hvirt : metalIoVirt (platformMem pa da size).io (phys - pa) = phys := by
      have hva : pa ≠ METAL_BAD_VA := by
        rintro rfl
        have hmax : METAL_BAD_VA.toNat = 2 ^ 64 - 1 := by decide
        have hsize : size.toNat ≠ 0 := fun h => hpos (BitVec.eq_of_toNat_eq h)
        omega
      rw [metalIoVirt]
      refine (if_pos ⟨hva, hin⟩).trans ?_
      exact (BitVec.add_comm pa (phys - pa)).trans (BitVec.sub_add_cancel phys pa)
    rw [if_pos (Or.inl hin), hvirt, if_pos ((sub_lt_iff hend phys).mp hin)]
  · have hout : ¬InRange pa size phys := fun h => hin ((sub_lt_iff hend phys).mpr h)
    have hmiss : metalIoVirt (platformMem pa da size).io (phys - pa) = 0 :=
      if_neg fun h => hin h.2
    have hbad : metalIoVirt (platformMem pa da size).io METAL_BAD_OFFSET = 0 :=
      if_neg fun h => not_bad_lt size h.2
    rw [if_neg hout]
    split
    · rw [hmiss]
    · rw [hbad]

/-- On the region the virtual address is the physical one. -/
theorem metalIoVirtToPhys_platformMem (hend : pa.toNat + size.toNat < 2 ^ 64) {virt : Addr}
    (hin : InRange pa size virt) :
    metalIoVirtToPhys (platformMem pa da size).io virt = virt := by
  have hlt : virt - pa < size := (sub_lt_iff hend virt).mpr hin
  have hoff : metalIoVirtToOffset (platformMem pa da size).io virt = virt - pa := if_pos hlt
  rw [metalIoVirtToPhys, hoff, metalIoPhys_platformMem, if_pos hlt, BitVec.add_comm,
    BitVec.sub_add_cancel]

end Region

/-! ### The registered memories -/

/-- The arguments of a call of `platform_rproc_mmap`. -/
structure Registration where
  pa : Option Addr
  da : Option Addr
  size : Addr

/-- The memory list after the registrations, if all of them succeed. -/
def register : List Registration → List RemoteprocMem → Option (List RemoteprocMem)
  | [], mems => some mems
  | r :: rs, mems =>
    let result := platformRprocMmap mems r.pa r.da r.size
    if result.1.va = 0 then none else register rs result.2

/-- The memory is one that `platform_rproc_mmap` registered with success. -/
def RemoteprocMem.Registered (mem : RemoteprocMem) : Prop :=
  mem = platformMem mem.pa mem.da mem.size ∧ mem.pa ≠ 0

/-- What has been registered stays registered, and the new region is. -/
theorem registered_of_platformRprocMmap {mems : List RemoteprocMem} {r : Registration}
    (hva : (platformRprocMmap mems r.pa r.da r.size).1.va ≠ 0)
    (hmems : ∀ mem ∈ mems, mem.Registered) :
    ∀ mem ∈ (platformRprocMmap mems r.pa r.da r.size).2, mem.Registered := by
  by_cases hnone : r.pa.getD METAL_BAD_PHYS = METAL_BAD_PHYS ∧
      r.da.getD METAL_BAD_PHYS = METAL_BAD_PHYS
  · rw [platformRprocMmap, if_pos hnone] at hva
    exact absurd rfl hva
  · rw [platformRprocMmap, if_neg hnone] at hva ⊢
    intro mem hmem
    rcases List.mem_append.mp hmem with hold | hnew
    · exact hmems mem hold
    · obtain rfl := List.mem_singleton.mp hnew
      exact ⟨rfl, hva⟩

/-- Each of several registrations makes a region known. -/
theorem registered_of_register {rs : List Registration} {mems mems' : List RemoteprocMem}
    (hreg : register rs mems = some mems') (hmems : ∀ mem ∈ mems, mem.Registered) :
    ∀ mem ∈ mems', mem.Registered := by
  induction rs generalizing mems with
  | nil =>
    rw [register, Option.some.injEq] at hreg
    exact hreg ▸ hmems
  | cons r rs ih =>
    by_cases hva : (platformRprocMmap mems r.pa r.da r.size).1.va = 0
    · rw [register, if_pos hva] at hreg
      cases hreg
    · rw [register, if_neg hva] at hreg
      exact ih hreg (registered_of_platformRprocMmap hva hmems)

/-- No address lies in both ranges. -/
def Apart (start size start' size' : Addr) : Prop :=
  ∀ a, ¬(InRange start size a ∧ InRange start' size' a)

/-- Sizes are positive, no range wraps, and the ranges are pairwise disjoint. -/
structure Layout (mems : List RemoteprocMem) : Prop where
  size_ne : ∀ mem ∈ mems, mem.size ≠ 0
  pa_end : ∀ mem ∈ mems, mem.pa.toNat + mem.size.toNat < 2 ^ 64
  da_end : ∀ mem ∈ mems, mem.da.toNat + mem.size.toNat < 2 ^ 64
  pa_apart : mems.Pairwise fun m n => Apart m.pa m.size n.pa n.size
  da_apart : mems.Pairwise fun m n => Apart m.da m.size n.da n.size

/-- Two non-empty ranges without a common address follow one another. -/
theorem Apart.ends {start size start' size' : Addr} (h : Apart start size start' size')
    (hsize : size ≠ 0) (hsize' : size' ≠ 0) :
    start.toNat + size.toNat ≤ start'.toNat ∨ start'.toNat + size'.toNat ≤ start.toNat := by
  have hpos : size.toNat ≠ 0 := fun h => hsize (BitVec.eq_of_toNat_eq h)
  have hpos' : size'.toNat ≠ 0 := fun h => hsize' (BitVec.eq_of_toNat_eq h)
  have hleft := h start
  have hright := h start'
  simp only [InRange, BitVec.le_def] at hleft hright
  omega

/-- A range that ends before the other starts is apart from it. -/
theorem apart_of_end_le {start size start' size' : Addr}
    (h : start.toNat + size.toNat ≤ start'.toNat) : Apart start size start' size' := by
  rintro a ⟨hleft, hright⟩
  have hlt := hleft.2
  have hle : start'.toNat ≤ a.toNat := hright.1
  omega

/-- Two regions in order make a layout. -/
theorem layout_pair {m n : RemoteprocMem} (hm : m.size ≠ 0) (hn : n.size ≠ 0)
    (hpa : m.pa.toNat + m.size.toNat ≤ n.pa.toNat) (hda : m.da.toNat + m.size.toNat ≤ n.da.toNat)
    (hpaEnd : n.pa.toNat + n.size.toNat < 2 ^ 64) (hdaEnd : n.da.toNat + n.size.toNat < 2 ^ 64) :
    Layout [m, n] where
  size_ne mem hmem := by
    rcases List.mem_pair.mp hmem with rfl | rfl
    exacts [hm, hn]
  pa_end mem hmem := by
    rcases List.mem_pair.mp hmem with rfl | rfl
    exacts [by omega, hpaEnd]
  da_end mem hmem := by
    rcases List.mem_pair.mp hmem with rfl | rfl
    exacts [by omega, hdaEnd]
  pa_apart := List.pairwise_pair.mpr (apart_of_end_le hpa)
  da_apart := List.pairwise_pair.mpr (apart_of_end_le hda)

/-! ### Looking up an address -/

/-- The comparison of `remoteproc_get_mem`. -/
def Covers (start len a size : Addr) : Prop :=
  start ≤ a ∧ a + size ≤ start + len

section Covers

variable {start len start' len' o size : Addr}

theorem toNat_add_of_lt {a b : Addr} (h : a.toNat + b.toNat < 2 ^ 64) :
    (a + b).toNat = a.toNat + b.toNat := by
  rw [BitVec.toNat_add, Nat.mod_eq_of_lt h]

/-- Without wrap-around a range is covered where its two ends are. -/
theorem covers_iff {a : Addr} (hend : start.toNat + len.toNat < 2 ^ 64)
    (ha : a.toNat + size.toNat < 2 ^ 64) :
    Covers start len a size ↔
      start.toNat ≤ a.toNat ∧ a.toNat + size.toNat ≤ start.toNat + len.toNat := by
  rw [Covers, BitVec.le_def, BitVec.le_def, toNat_add_of_lt hend, toNat_add_of_lt ha]

theorem covers_self (hend : start.toNat + len.toNat < 2 ^ 64) (ho : o < len)
    (hsize : o.toNat + size.toNat ≤ len.toNat) : Covers start len (start + o) size := by
  have hlt : o.toNat < len.toNat := ho
  have hadd : (start + o).toNat = start.toNat + o.toNat := toNat_add_of_lt (by omega)
  rw [covers_iff hend (by omega), hadd]
  omega

/-- Only an empty request at the start of a range is covered by another range, one that ends
there. -/
theorem covers_apart_iff (hapart : Apart start' len' start len) (hlen' : len' ≠ 0)
    (hend' : start'.toNat + len'.toNat < 2 ^ 64) (hend : start.toNat + len.toNat < 2 ^ 64)
    (ho : o < len) (hsize : o.toNat + size.toNat ≤ len.toNat) :
    Covers start' len' (start + o) size ↔ size = 0 ∧ o = 0 ∧ start' + len' = start := by
  have hlt : o.toNat < len.toNat := ho
  have hlen : len ≠ 0 := by
    rintro rfl
    exact absurd hlt (Nat.not_lt_zero _)
  have hadd : (start + o).toNat = start.toNat + o.toNat := toNat_add_of_lt (by omega)
  have hends := hapart.ends hlen' hlen
  have hpos' : len'.toNat ≠ 0 := fun h => hlen' (BitVec.eq_of_toNat_eq h)
  have hzero : (0 : Addr).toNat = 0 := rfl
  rw [covers_iff hend' (by omega), hadd, ← BitVec.toNat_inj, ← BitVec.toNat_inj,
    ← BitVec.toNat_inj, toNat_add_of_lt hend', hzero]
  omega

theorem inRange_self (hend : start.toNat + len.toNat < 2 ^ 64) (ho : o < len) :
    InRange start len (start + o) := by
  have hlt : o.toNat < len.toNat := ho
  have hadd : (start + o).toNat = start.toNat + o.toNat := toNat_add_of_lt (by omega)
  rw [InRange, BitVec.le_def, hadd]
  omega

/-- An address of a range that does not wrap is not the bad address. -/
theorem inRange_ne_bad (hend : start.toNat + len.toNat < 2 ^ 64) {a : Addr}
    (ha : InRange start len a) : a ≠ METAL_BAD_PHYS := by
  rintro rfl
  have hbad : METAL_BAD_PHYS.toNat = 2 ^ 64 - 1 := by decide
  have hlt := ha.2
  omega

end Covers

section Lookup

variable {mems pre post : List RemoteprocMem} {mem : RemoteprocMem} {pa da size : Addr}

theorem matches_of_pa (hpa : pa ≠ METAL_BAD_PHYS) :
    mem.Matches pa da size ↔ Covers mem.pa mem.size pa size := by
  rw [RemoteprocMem.Matches, if_pos hpa, Covers]

/-- Without a physical address the look-up goes by the device address. -/
theorem matches_of_da (hda : da ≠ METAL_BAD_PHYS) :
    mem.Matches METAL_BAD_PHYS da size ↔ Covers mem.da mem.size da size := by
  rw [RemoteprocMem.Matches, if_neg (not_not.mpr rfl), Covers]
  exact and_iff_right hda

/-- The first region that matches is found. -/
theorem remoteprocGetMem_of_first (post : List RemoteprocMem) (hmem : mem.Matches pa da size)
    (hpre : ∀ m ∈ pre, ¬m.Matches pa da size) :
    remoteprocGetMem (pre ++ mem :: post) pa da size = some mem := by
  have hnone : pre.find? (fun m => decide (m.Matches pa da size)) = none :=
    List.find?_eq_none.mpr fun m hm h => hpre m hm (of_decide_eq_true h)
  rw [remoteprocGetMem, List.find?_append, hnone, Option.none_or]
  exact List.find?_cons_of_pos (decide_eq_true hmem)

/-- An earlier region that matches is found before. -/
theorem remoteprocGetMem_of_mem (mem : RemoteprocMem) (post : List RemoteprocMem)
    {m : RemoteprocMem} (hm : m ∈ pre)
    (hmatch : m.Matches pa da size) :
    ∃ m ∈ pre, m.Matches pa da size ∧
      remoteprocGetMem (pre ++ mem :: post) pa da size = some m := by
  have hsome : (pre.find? fun m => decide (m.Matches pa da size)).isSome :=
    List.find?_isSome.mpr ⟨m, hm, decide_eq_true hmatch⟩
  obtain ⟨n, hn⟩ := Option.isSome_iff_exists.mp hsome
  have hmatches : n.Matches pa da size := by simpa using List.find?_some hn
  refine ⟨n, List.mem_of_find?_eq_some hn, hmatches, ?_⟩
  rw [remoteprocGetMem, List.find?_append, hn, Option.some_or]

/-- `remoteproc_mmap` by a physical address that a registered memory is found for. -/
theorem remoteprocMmap_of_pa {other : Option Addr} (hreg : mem.Registered)
    (hpos : mem.size ≠ 0) (hend : mem.pa.toNat + mem.size.toNat < 2 ^ 64)
    (hpa : pa ≠ METAL_BAD_PHYS)
    (hget : remoteprocGetMem mems pa (other.getD METAL_BAD_PHYS) size = some mem) (fuel : ℕ) :
    remoteprocMmap (fuel + 1) mems (some pa) other size =
      some (⟨if InRange mem.pa mem.size pa then pa else 0, some pa,
        other.map fun _ => remoteprocPatoda mem pa⟩, mems) := by
  have hne : ¬(some pa = none ∧ other = none) := fun h => absurd h.1 (Option.some_ne_none pa)
  have hvirt : metalIoPhysToVirt (fuel + 1) mem.io pa =
      some (if InRange mem.pa mem.size pa then pa else 0) := by
    rw [hreg.1]
    exact metalIoPhysToVirt_platformMem hpos hend fuel pa
  simp only [remoteprocMmap, if_neg hne, Option.getD_some, hget, if_pos hpa, hvirt,
    Option.map_some]

/-- `remoteproc_mmap` by a device address that a registered memory is found for. -/
theorem remoteprocMmap_of_da {other : Option Addr} (hreg : mem.Registered)
    (hpos : mem.size ≠ 0) (hend : mem.pa.toNat + mem.size.toNat < 2 ^ 64)
    (hdaEnd : mem.da.toNat + mem.size.toNat < 2 ^ 64) (hda : da ≠ METAL_BAD_PHYS)
    (hother : other.getD METAL_BAD_PHYS = METAL_BAD_PHYS)
    (hget : remoteprocGetMem mems METAL_BAD_PHYS da size = some mem) (fuel : ℕ) :
    remoteprocMmap (fuel + 1) mems other (some da) size =
      some (⟨if InRange mem.da mem.size da then remoteprocDatopa mem da else 0,
        other.map fun _ => remoteprocDatopa mem da, some da⟩, mems) := by
  have hne : ¬(other = none ∧ some da = none) := fun h => absurd h.2 (Option.some_ne_none da)
  have hbad : ¬METAL_BAD_PHYS ≠ METAL_BAD_PHYS := not_not.mpr rfl
  have hoff : remoteprocDatopa mem da - mem.pa = da - mem.da := by
    rw [remoteprocDatopa]
    bv_omega
  have hrange : InRange mem.pa mem.size (remoteprocDatopa mem da) ↔
      InRange mem.da mem.size da := by
    rw [← sub_lt_iff hend, ← sub_lt_iff hdaEnd, hoff]
  have hvirt : metalIoPhysToVirt (fuel + 1) mem.io (remoteprocDatopa mem da) =
      some (if InRange mem.da mem.size da then remoteprocDatopa mem da else 0) := by
    simp only [← hrange]
    rw [hreg.1]
    exact metalIoPhysToVirt_platformMem hpos hend fuel _
  simp only [remoteprocMmap, if_neg hne, hother, Option.getD_some, hget, if_neg hbad, if_pos hda,
    hvirt, Option.map_some]

end Lookup

/-! ### Consistency of the translations -/

/-- The translations at the offset `o` of a memory of the list, for a request of the given
size. An address argument that is null or bad is one the caller does not know. -/
structure Translates (mems : List RemoteprocMem) (mem : RemoteprocMem) (o size : Addr) :
    Prop where
  byDa : ∀ fuel other, other.getD METAL_BAD_PHYS = METAL_BAD_PHYS →
    remoteprocMmap (fuel + 1) mems other (some (mem.da + o)) size =
      some (⟨mem.pa + o, other.map fun _ => mem.pa + o, some (mem.da + o)⟩, mems)
  byPa : ∀ fuel other, other.getD METAL_BAD_PHYS = METAL_BAD_PHYS →
    remoteprocMmap (fuel + 1) mems (some (mem.pa + o)) other size =
      some (⟨mem.pa + o, some (mem.pa + o), other.map fun _ => mem.da + o⟩, mems)
  virt_of_phys : ∀ fuel phys, InRange mem.pa mem.size phys →
    (metalIoPhysToVirt (fuel + 1) mem.io phys).map (metalIoVirtToPhys mem.io) = some phys
  phys_of_virt : ∀ fuel virt, InRange mem.io.virt mem.io.size virt →
    metalIoPhysToVirt (fuel + 1) mem.io (metalIoVirtToPhys mem.io virt) = some virt
  /-- Any address: the search ends, inside the memory or with the null pointer. -/
  search : ∀ fuel phys, ∃ va, metalIoPhysToVirt (fuel + 1) mem.io phys = some va ∧
    (InRange mem.io.virt mem.io.size va ↔ InRange mem.pa mem.size phys) ∧
    (¬InRange mem.pa mem.size phys → va = 0)

section Translates

variable {mems pre post : List RemoteprocMem} {mem : RemoteprocMem} {o size : Addr}

/-- The translations of one memory do not depend on the list. -/
theorem translates_of_mmap (hreg : mem.Registered) (hpos : mem.size ≠ 0)
    (hend : mem.pa.toNat + mem.size.toNat < 2 ^ 64)
    (hda : ∀ fuel other, other.getD METAL_BAD_PHYS = METAL_BAD_PHYS →
      remoteprocMmap (fuel + 1) mems other (some (mem.da + o)) size =
        some (⟨mem.pa + o, other.map fun _ => mem.pa + o, some (mem.da + o)⟩, mems))
    (hpa : ∀ fuel other, other.getD METAL_BAD_PHYS = METAL_BAD_PHYS →
      remoteprocMmap (fuel + 1) mems (some (mem.pa + o)) other size =
        some (⟨mem.pa + o, some (mem.pa + o), other.map fun _ => mem.da + o⟩, mems)) :
    Translates mems mem o size := by
  have hio : mem.io = (platformMem mem.pa mem.da mem.size).io := congrArg RemoteprocMem.io hreg.1
  have hvirt : mem.io.virt = mem.pa := by rw [hio]; rfl
  have hsize : mem.io.size = mem.size := by rw [hio]; rfl
  -- Within a region translations add and subtract the same offset.
  have hphys : ∀ fuel phys, metalIoPhysToVirt (fuel + 1) mem.io phys =
      some (if InRange mem.pa mem.size phys then phys else 0) := by
    rw [hio]
    exact metalIoPhysToVirt_platformMem hpos hend
  have hback : ∀ virt, InRange mem.pa mem.size virt → metalIoVirtToPhys mem.io virt = virt := by
    rw [hio]
    exact fun virt => metalIoVirtToPhys_platformMem hend
  refine ⟨hda, hpa, ?_, ?_, ?_⟩
  · intro fuel phys hin
    rw [hphys, if_pos hin, Option.map_some, hback phys hin]
  · intro fuel virt hin
    rw [hvirt, hsize] at hin
    rw [hback virt hin, hphys, if_pos hin]
  · intro fuel phys
    refine ⟨_, hphys fuel phys, ?_, fun hout => if_neg hout⟩
    rw [hvirt, hsize]
    by_cases hin : InRange mem.pa mem.size phys
    · rw [if_pos hin]
    · -- the null pointer is in no region
      have hnull : ¬InRange mem.pa mem.size 0 := by
        intro h
        have hle : mem.pa.toNat ≤ 0 := h.1
        exact hreg.2 (BitVec.eq_of_toNat_eq (Nat.le_zero.mp hle))
      rw [if_neg hin]
      exact iff_of_false hnull hin

/-! The memories before `mem` in the list, and what a request for an address of `mem` finds. -/

variable (hreg : ∀ m ∈ pre ++ mem :: post, m.Registered)
  (hlayout : Layout (pre ++ mem :: post))

include hlayout

theorem Layout.pa_apart_earlier {m : RemoteprocMem} (hm : m ∈ pre) :
    Apart m.pa m.size mem.pa mem.size :=
  (List.pairwise_append.mp hlayout.pa_apart).2.2 m hm mem List.mem_cons_self

theorem Layout.da_apart_earlier {m : RemoteprocMem} (hm : m ∈ pre) :
    Apart m.da m.size mem.da mem.size :=
  (List.pairwise_append.mp hlayout.da_apart).2.2 m hm mem List.mem_cons_self

theorem Layout.pa_inRange (ho : o < mem.size) : InRange mem.pa mem.size (mem.pa + o) :=
  inRange_self (hlayout.pa_end mem List.mem_append_cons_self) ho

theorem Layout.da_inRange (ho : o < mem.size) : InRange mem.da mem.size (mem.da + o) :=
  inRange_self (hlayout.da_end mem List.mem_append_cons_self) ho

theorem Layout.pa_ne_bad (ho : o < mem.size) : mem.pa + o ≠ METAL_BAD_PHYS :=
  inRange_ne_bad (hlayout.pa_end mem List.mem_append_cons_self) (hlayout.pa_inRange ho)

theorem Layout.da_ne_bad (ho : o < mem.size) : mem.da + o ≠ METAL_BAD_PHYS :=
  inRange_ne_bad (hlayout.da_end mem List.mem_append_cons_self) (hlayout.da_inRange ho)

/-- By physical address an earlier region matches only where nothing is asked for right behind
it. -/
theorem Layout.pa_matches_earlier (ho : o < mem.size)
    (hsize : o.toNat + size.toNat ≤ mem.size.toNat) {m : RemoteprocMem} (hm : m ∈ pre)
    (da : Addr) :
    m.Matches (mem.pa + o) da size ↔ size = 0 ∧ o = 0 ∧ m.pa + m.size = mem.pa := by
  have hin : m ∈ pre ++ mem :: post := List.mem_append_left _ hm
  have hmem : mem ∈ pre ++ mem :: post := List.mem_append_cons_self
  rw [matches_of_pa (hlayout.pa_ne_bad ho)]
  exact covers_apart_iff (hlayout.pa_apart_earlier hm) (hlayout.size_ne m hin)
    (hlayout.pa_end m hin) (hlayout.pa_end mem hmem) ho hsize

/-- By device address an earlier region matches only where nothing is asked for right behind
it. -/
theorem Layout.da_matches_earlier (ho : o < mem.size)
    (hsize : o.toNat + size.toNat ≤ mem.size.toNat) {m : RemoteprocMem} (hm : m ∈ pre) :
    m.Matches METAL_BAD_PHYS (mem.da + o) size ↔
      size = 0 ∧ o = 0 ∧ m.da + m.size = mem.da := by
  have hin : m ∈ pre ++ mem :: post := List.mem_append_left _ hm
  have hmem : mem ∈ pre ++ mem :: post := List.mem_append_cons_self
  rw [matches_of_da (hlayout.da_ne_bad ho)]
  exact covers_apart_iff (hlayout.da_apart_earlier hm) (hlayout.size_ne m hin)
    (hlayout.da_end m hin) (hlayout.da_end mem hmem) ho hsize

include hreg

/-- A request that matches no earlier memory finds `mem`. -/
theorem remoteprocMmap_pa_of_first (ho : o < mem.size)
    (hsize : o.toNat + size.toNat ≤ mem.size.toNat) {other : Option Addr}
    (hother : other.getD METAL_BAD_PHYS = METAL_BAD_PHYS)
    (hfirst : ∀ m ∈ pre, ¬m.Matches (mem.pa + o) METAL_BAD_PHYS size) (fuel : ℕ) :
    remoteprocMmap (fuel + 1) (pre ++ mem :: post) (some (mem.pa + o)) other size =
      some (⟨mem.pa + o, some (mem.pa + o), other.map fun _ => mem.da + o⟩,
        pre ++ mem :: post) := by
  have hmem : mem ∈ pre ++ mem :: post := List.mem_append_cons_self
  have hend := hlayout.pa_end mem hmem
  have hmatch : mem.Matches (mem.pa + o) METAL_BAD_PHYS size :=
    (matches_of_pa (hlayout.pa_ne_bad ho)).mpr (covers_self hend ho hsize)
  have hget := remoteprocGetMem_of_first post hmatch hfirst
  have hda : remoteprocPatoda mem (mem.pa + o) = mem.da + o := by
    rw [remoteprocPatoda]
    bv_omega
  rw [← hother] at hget
  rw [remoteprocMmap_of_pa (hreg mem hmem) (hlayout.size_ne mem hmem) hend (hlayout.pa_ne_bad ho)
    hget, if_pos (hlayout.pa_inRange ho), hda]

/-- A device address is mapped to the same offset of its region. -/
theorem remoteprocMmap_da_of_first (ho : o < mem.size)
    (hsize : o.toNat + size.toNat ≤ mem.size.toNat) {other : Option Addr}
    (hother : other.getD METAL_BAD_PHYS = METAL_BAD_PHYS)
    (hfirst : ∀ m ∈ pre, ¬m.Matches METAL_BAD_PHYS (mem.da + o) size) (fuel : ℕ) :
    remoteprocMmap (fuel + 1) (pre ++ mem :: post) other (some (mem.da + o)) size =
      some (⟨mem.pa + o, other.map fun _ => mem.pa + o, some (mem.da + o)⟩,
        pre ++ mem :: post) := by
  have hmem : mem ∈ pre ++ mem :: post := List.mem_append_cons_self
  have hend := hlayout.da_end mem hmem
  have hmatch : mem.Matches METAL_BAD_PHYS (mem.da + o) size :=
    (matches_of_da (hlayout.da_ne_bad ho)).mpr (covers_self hend ho hsize)
  have hget := remoteprocGetMem_of_first post hmatch hfirst
  have hpa : remoteprocDatopa mem (mem.da + o) = mem.pa + o := by
    rw [remoteprocDatopa]
    bv_omega
  rw [remoteprocMmap_of_da (hreg mem hmem) (hlayout.size_ne mem hmem) (hlayout.pa_end mem hmem)
    hend (hlayout.da_ne_bad ho) hother hget, if_pos (hlayout.da_inRange ho), hpa]

/-- A request that matches an earlier memory gets the null pointer: no other memory contains an
address of `mem`. -/
theorem remoteprocMmap_pa_of_earlier (ho : o < mem.size) {m : RemoteprocMem} (hm : m ∈ pre)
    (hmatch : m.Matches (mem.pa + o) METAL_BAD_PHYS size) (fuel : ℕ) :
    ∃ mapping, remoteprocMmap (fuel + 1) (pre ++ mem :: post) (some (mem.pa + o)) none size =
      some (mapping, pre ++ mem :: post) ∧ mapping.va = 0 := by
  obtain ⟨n, hn, -, hget⟩ := remoteprocGetMem_of_mem mem post hm hmatch
  have hin : n ∈ pre ++ mem :: post := List.mem_append_left _ hn
  have hout : ¬InRange n.pa n.size (mem.pa + o) := fun h =>
    hlayout.pa_apart_earlier hn _ ⟨h, hlayout.pa_inRange ho⟩
  exact ⟨_, remoteprocMmap_of_pa (hreg n hin) (hlayout.size_ne n hin) (hlayout.pa_end n hin)
    (hlayout.pa_ne_bad ho) hget fuel, if_neg hout⟩

/-- Where the region before it is found, the address is past its end, and the result is null. -/
theorem remoteprocMmap_da_of_earlier (ho : o < mem.size) {m : RemoteprocMem} (hm : m ∈ pre)
    (hmatch : m.Matches METAL_BAD_PHYS (mem.da + o) size) (fuel : ℕ) :
    ∃ mapping, remoteprocMmap (fuel + 1) (pre ++ mem :: post) none (some (mem.da + o)) size =
      some (mapping, pre ++ mem :: post) ∧ mapping.va = 0 := by
  obtain ⟨n, hn, -, hget⟩ := remoteprocGetMem_of_mem mem post hm hmatch
  have hin : n ∈ pre ++ mem :: post := List.mem_append_left _ hn
  have hout : ¬InRange n.da n.size (mem.da + o) := fun h =>
    hlayout.da_apart_earlier hn _ ⟨h, hlayout.da_inRange ho⟩
  exact ⟨_, remoteprocMmap_of_da (hreg n hin) (hlayout.size_ne n hin) (hlayout.pa_end n hin)
    (hlayout.da_end n hin) (hlayout.da_ne_bad ho) rfl hget fuel, if_neg hout⟩

end Translates

/-- The translations are right exactly if the request is not an empty one at the start of a
memory that begins where an earlier one ends. -/
theorem translates_iff (rs : List Registration) (pre post : List RemoteprocMem)
    (mem : RemoteprocMem) (o size : Addr)
    (hrs : register rs [] = some (pre ++ mem :: post)) (hlayout : Layout (pre ++ mem :: post))
    (ho : o < mem.size) (hsize : o.toNat + size.toNat ≤ mem.size.toNat) :
    Translates (pre ++ mem :: post) mem o size ↔
      (size = 0 → o = 0 → ∀ m ∈ pre, m.pa + m.size ≠ mem.pa ∧ m.da + m.size ≠ mem.da) := by
  have hreg := registered_of_register hrs fun m hm => absurd hm List.not_mem_nil
  have hmem : mem ∈ pre ++ mem :: post := List.mem_append_cons_self
  -- the value the claim asks for is not the null pointer
  have hva : mem.pa + o ≠ 0 := by
    have hin := (hlayout.pa_inRange ho).1
    intro hzero
    rw [hzero, BitVec.le_def] at hin
    exact (hreg mem hmem).2 (BitVec.eq_of_toNat_eq (Nat.le_zero.mp hin))
  constructor
  · rintro htrans hzero ho' m hm
    constructor
    · intro hadj
      have hmatch := (hlayout.pa_matches_earlier ho hsize hm METAL_BAD_PHYS).mpr
        ⟨hzero, ho', hadj⟩
      obtain ⟨mapping, hmap, hnull⟩ := remoteprocMmap_pa_of_earlier hreg hlayout ho hm hmatch 0
      have heq := (htrans.byPa 0 none rfl).symm.trans hmap
      simp only [Option.some.injEq, Prod.mk.injEq, and_true] at heq
      exact hva (by rw [← hnull, ← heq])
    · intro hadj
      have hmatch := (hlayout.da_matches_earlier ho hsize hm).mpr ⟨hzero, ho', hadj⟩
      obtain ⟨mapping, hmap, hnull⟩ := remoteprocMmap_da_of_earlier hreg hlayout ho hm hmatch 0
      have heq := (htrans.byDa 0 none rfl).symm.trans hmap
      simp only [Option.some.injEq, Prod.mk.injEq, and_true] at heq
      exact hva (by rw [← hnull, ← heq])
  · intro hapart
    refine translates_of_mmap (hreg mem hmem) (hlayout.size_ne mem hmem)
      (hlayout.pa_end mem hmem) ?_ ?_
    · intro fuel other hother
      refine remoteprocMmap_da_of_first hreg hlayout ho hsize hother (fun m hm hmatch => ?_) fuel
      obtain ⟨hzero, ho', hadj⟩ := (hlayout.da_matches_earlier ho hsize hm).mp hmatch
      exact (hapart hzero ho' m hm).2 hadj
    · intro fuel other hother
      refine remoteprocMmap_pa_of_first hreg hlayout ho hsize hother (fun m hm hmatch => ?_) fuel
      obtain ⟨hzero, ho', hadj⟩ := (hlayout.pa_matches_earlier ho hsize hm METAL_BAD_PHYS).mp hmatch
      exact (hapart hzero ho' m hm).1 hadj

/-- Two adjacent memories, and a request of eight bytes in the second. -/
theorem translates_iff_adjacent :
    Translates [platformMem 0x1000 0x1000 0x1000, platformMem 0x2000 0x2000 0x1000]
      (platformMem 0x2000 0x2000 0x1000) 4 8 :=
  (translates_iff [⟨some 0x1000, some 0x1000, 0x1000⟩, ⟨none, some 0x2000, 0x1000⟩]
    [platformMem 0x1000 0x1000 0x1000] [] (platformMem 0x2000 0x2000 0x1000) 4 8 rfl
    (layout_pair (by decide) (by decide) (by decide) (by decide) (by decide) (by decide))
    (by decide) (by decide)).mpr fun hzero => absurd hzero (by decide)

/-- An empty request at the start of the second of two adjacent memories is answered with the
null pointer: the search stops at the first memory, whose end it is. -/
theorem empty_request_answered_null :
    register [⟨none, some 0x1000, 0x1000⟩, ⟨none, some 0x2000, 0x1000⟩] [] =
        some [platformMem 0x1000 0x1000 0x1000, platformMem 0x2000 0x2000 0x1000] ∧
      Layout [platformMem 0x1000 0x1000 0x1000, platformMem 0x2000 0x2000 0x1000] ∧
      ¬Translates [platformMem 0x1000 0x1000 0x1000, platformMem 0x2000 0x2000 0x1000]
        (platformMem 0x2000 0x2000 0x1000) 0 0 := by
  refine ⟨rfl, layout_pair (by decide) (by decide) (by decide) (by decide) (by decide)
    (by decide), fun htrans => ?_⟩
  have hnull : (remoteprocMmap 1 [platformMem 0x1000 0x1000 0x1000,
      platformMem 0x2000 0x2000 0x1000] none (some 0x2000) 0).map (·.1.va) = some 0 := by decide
  have hva := congrArg (Option.map (·.1.va)) (htrans.byDa 0 none rfl)
  exact absurd (hva.symm.trans hnull) (by decide)

end C906Firmware
