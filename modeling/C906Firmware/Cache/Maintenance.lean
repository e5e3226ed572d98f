import C906Firmware.Cache.WriteBack
import C906Firmware.Shmem.Blocks
import C906Firmware.Shmem.Translation

/-!
# What the maintenance of a range does to the bytes

The firmware's memory with its write-back cache of 64-byte lines. Maintenance works on whole
lines, those with a byte between the start of the range's first line and the end of the range
(`Touched`). An invalidation drops them (`Dropped`), and with them what has been stored to their
other bytes; a write-back cleans them (`Cleaned`) and loses nothing. The form for the whole
cache, which is documented as a flush, drops every line.
-/

namespace C906Firmware

open Interaction WriteBack

/-- The 64-byte line of an address. -/
def lineOf (a : ℕ) : ℕ := a / L1_CACHE_BYTES

/-- The memory with the data cache of the firmware in front of it. -/
abbrev DataCache := Cached ℕ ℕ Byte

namespace DataCache

/-- What an access does: the three cache instructions, and loads and stores, which bring their
line in. -/
def exec (o : Op) (x : Answer) (s : DataCache) : Ret o × DataCache :=
  match o with
  | .cpa a => ((), s.writeBack lineOf (lineOf a))
  | .ipa a => ((), s.drop (lineOf a))
  | .iall => ((), s.dropAll)
  | .load8 a => (s.view lineOf a, s.fill lineOf (lineOf a))
  | .store8 a b => ((), s.store lineOf a b)
  | .load32 a =>
    (⟨s.view lineOf a, s.view lineOf (a + 1), s.view lineOf (a + 2), s.view lineOf (a + 3)⟩,
      (s.fill lineOf (lineOf a)).fill lineOf (lineOf (a + 3)))
  | .store32 a q =>
    ((), (((s.store lineOf a q.b0).store lineOf (a + 1) q.b1).store lineOf (a + 2) q.b2).store
      lineOf (a + 3) q.b3)
  | o => (x.at o, s)

/-- The line of `a` is one of the lines of the range. -/
def Touched (start stop a : ℕ) : Prop :=
  start - start % L1_CACHE_BYTES ≤ a - a % L1_CACHE_BYTES ∧ a - a % L1_CACHE_BYTES < stop

theorem lineOf_mem_cacheLines {start stop a : ℕ} :
    lineOf a ∈ (cacheLines start stop).map lineOf ↔ Touched start stop a := by
  simp only [List.mem_map, Hal.mem_cacheLines, lineOf, Touched, L1_CACHE_BYTES]
  constructor
  · rintro ⟨j, ⟨hmod, hle, hlt⟩, hline⟩
    omega
  · rintro ⟨hle, hlt⟩
    exact ⟨a - a % 64, ⟨by omega, hle, hlt⟩, by omega⟩

/-- What the invalidation of a range leaves. -/
structure Dropped (start stop : ℕ) (s s' : DataCache) : Prop where
  ram : s'.ram = s.ram
  touched : ∀ a, Touched start stop a → s'.view lineOf a = s.ram a
  frame : ∀ a, ¬Touched start stop a → s'.view lineOf a = s.view lineOf a

/-- What the write-back of a range leaves. -/
structure Cleaned (start stop : ℕ) (s s' : DataCache) : Prop where
  touched : ∀ a, Touched start stop a → s'.ram a = s.view lineOf a
  view : ∀ a, s'.view lineOf a = s.view lineOf a

section Ranges

variable (start stop : ℕ) (s : DataCache)

theorem total_dropRange :
    Total exec (dcacheInvalidateRange start stop) (fun _ => Dropped start stop s) s := by
  have hone : ∀ i s, Total exec (access (.ipa i))
      (fun _ s' => s' = Cached.drop (lineOf i) s) s := fun i s _ => rfl
  refine (Total.forEach_foldl hone (cacheLines start stop)).mono ?_
  rintro _ _ rfl
  rw [← List.foldl_map (f := lineOf) (g := fun s l => Cached.drop l s)]
  refine ⟨Cached.ram_foldl_drop s _, fun a ha => ?_, fun a ha => ?_⟩
  · rw [Cached.view_foldl_drop, if_pos (lineOf_mem_cacheLines.mpr ha)]
  · rw [Cached.view_foldl_drop, if_neg fun h => ha (lineOf_mem_cacheLines.mp h)]

theorem total_cleanRange :
    Total exec (dcacheWriteBackRange start stop) (fun _ => Cleaned start stop s) s := by
  have hone : ∀ i s, Total exec (access (.cpa i))
      (fun _ s' => s' = Cached.writeBack lineOf (lineOf i) s) s := fun i s _ => rfl
  refine (Total.forEach_foldl hone (cacheLines start stop)).mono ?_
  rintro _ _ rfl
  rw [← List.foldl_map (f := lineOf) (g := fun s l => Cached.writeBack lineOf l s)]
  refine ⟨fun a ha => ?_, fun a => Cached.view_foldl_writeBack s _ a⟩
  rw [Cached.ram_foldl_writeBack, if_pos (lineOf_mem_cacheLines.mpr ha)]

end Ranges

/-! ### Invalidating -/

section Invalidate

variable {addr : Addr} {len : BitVec 32} {s s' : DataCache}

/-- The byte is one of the `len` bytes from `addr` on. -/
def OfBlock (addr : Addr) (len : BitVec 32) (a : Addr) : Prop := a - addr < len.setWidth 64

/-- The block does not end inside the last line of the address space. -/
def EndsBefore (addr : Addr) (len : BitVec 32) : Prop :=
  (addr + len.setWidth 64).toNat ≤ 2 ^ 64 - L1_CACHE_BYTES

instance : Decidable (EndsBefore addr len) := inferInstanceAs (Decidable (_ ≤ _))

/-- An invalidation drops the lines of its range and nothing else. -/
theorem total_invalidate (hrange : ¬(addr = 0 ∧ len = 0)) (hend : EndsBefore addr len) {fuel : ℕ}
    (hfuel : 2 ^ 64 ≤ fuel) :
    Total exec (Hal.metalMachineCacheInvalidate fuel addr len)
      (fun _ => Dropped addr.toNat (addr + len.setWidth 64).toNat s) s := by
  rw [Hal.metalMachineCacheInvalidate, if_neg hrange,
    Hal.dcacheInvalidateRange_eq hend ((BitVec.isLt _).trans_le hfuel)]
  exact total_dropRange _ _ s

/-- An invalidation that returns is of a range that ends before the last line: there the counter
wraps, and line after line is dropped for ever. -/
theorem endsBefore_of_run (hrange : ¬(addr = 0 ∧ len = 0)) {fuel : ℕ} {xs : ℕ → Answer}
    (hrun : (Hal.metalMachineCacheInvalidate fuel addr len).run exec s xs = some ((), s')) :
    EndsBefore addr len := by
  by_contra hend
  rw [Hal.metalMachineCacheInvalidate, if_neg hrange] at hrun
  have hnone := Hal.lineLoop_lineStart_never_ends exec (fun i => access (.ipa i)) addr
    (Nat.lt_of_not_le hend) fuel s xs
  exact absurd (hnone.symm.trans hrun) (Option.some_ne_none _).symm

/-- An invalidation that returns has dropped the lines of its range and nothing else. -/
theorem dropped_of_run (hrange : ¬(addr = 0 ∧ len = 0)) {fuel : ℕ} {xs : ℕ → Answer}
    (hrun : (Hal.metalMachineCacheInvalidate fuel addr len).run exec s xs = some ((), s')) :
    Dropped addr.toNat (addr + len.setWidth 64).toNat s s' := by
  have hend := endsBefore_of_run hrange hrun
  have hbelow : (Hal.metalMachineCacheInvalidate fuel addr len).Below
      (Hal.metalMachineCacheInvalidate (fuel + 2 ^ 64) addr len) := by
    rw [Hal.metalMachineCacheInvalidate, Hal.metalMachineCacheInvalidate, if_neg hrange,
      if_neg hrange]
    exact Prog.Below.iterate (Nat.le_add_right _ _) _
  exact (total_invalidate hrange hend (Nat.le_add_left _ _)).of_run hbelow hrun

/-- The processor sees the same bytes outside as before. -/
def Kept (s s' : DataCache) (Outside : Addr → Prop) : Prop :=
  ∀ a, Outside a → s'.view lineOf a.toNat = s.view lineOf a.toNat

/-- The bytes outside that share a line with the block agree with the memory: none of them has
been stored to and not been written back. -/
def NeighboursClean (s : DataCache) (addr : Addr) (len : BitVec 32) (Outside : Addr → Prop) :
    Prop :=
  ∀ a, Outside a → Touched addr.toNat (addr + len.setWidth 64).toNat a.toNat →
    s.view lineOf a.toNat = s.ram a.toNat

/-- The block ends before the last line of the address space, and the bytes outside that share a
line with it agree with the memory. -/
def ClearOf (s : DataCache) (addr : Addr) (len : BitVec 32) (Outside : Addr → Prop) : Prop :=
  EndsBefore addr len ∧ NeighboursClean s addr len Outside

/-- The code returns, whatever the environment decides, and the processor then sees the same bytes
outside as before. -/
def ReturnsKeeping {α : Type} (p : ℕ → Code α) (s : DataCache) (Outside : Addr → Prop) : Prop :=
  ∃ fuel, Total exec (p fuel) (fun _ s' => Kept s s' Outside) s

theorem Dropped.kept_iff (h : Dropped addr.toNat (addr + len.setWidth 64).toNat s s')
    {s'' : DataCache} {Outside : Addr → Prop} (hkept : Kept s' s'' Outside) :
    Kept s s'' Outside ↔ NeighboursClean s addr len Outside := by
  constructor
  · intro hall a ha htouched
    rw [← hall a ha, hkept a ha, h.touched a.toNat htouched]
  · intro hclean a ha
    rw [hkept a ha]
    by_cases htouched : Touched addr.toNat (addr + len.setWidth 64).toNat a.toNat
    · rw [h.touched a.toNat htouched, hclean a ha htouched]
    · exact h.frame a.toNat htouched

end Invalidate

/-! ### Reading -/

section Read

/-- A load of bytes changes no byte. -/
theorem total_loadBytes (n a : ℕ) (s : DataCache) :
    Total exec (MetalIoRegion.loadBytes a n)
      (fun _ s' => ∀ b, s'.view lineOf b = s.view lineOf b) s := by
  induction n generalizing a s with
  | zero => exact fun _ => rfl
  | succ n ih =>
    rw [MetalIoRegion.loadBytes, Prog.perform_bind]
    intro _
    refine Total.bind ((ih (a + 1) _).mono fun _ s' h b => ?_)
    exact (h b).trans Cached.view_fill

/-- Copying changes bytes of the destination only. -/
theorem total_copyLoops (Misaligned : ℕ → Prop) [DecidablePred Misaligned]
    (hmis : ∀ i, Misaligned (i + 4) → Misaligned i) (dest source len : ℕ) {fuel : ℕ}
    (hfuel : len < fuel) (s : DataCache) :
    Total exec (blockLoops Misaligned (copyByte dest source) (copyWord dest source) fuel len)
      (fun _ s' => ∀ a, ¬(dest ≤ a ∧ a < dest + len) → s'.view lineOf a = s.view lineOf a) s := by
  refine (total_blockLoops (I := fun _ s' => ∀ a, ¬(dest ≤ a ∧ a < dest + len) →
    Cached.view lineOf s' a = s.view lineOf a) ?_ ?_ hmis hfuel fun _ _ => rfl).mono
    fun _ _ h => h.2
  · intro i s' hi h _ _ a ha
    have hne : a ≠ dest + i := by omega
    exact (Cached.view_store.trans (if_neg hne)).trans (Cached.view_fill.trans (h a ha))
  · intro i s' hi _ h _ _ a ha
    have hne : ∀ j < 4, a ≠ dest + i + j := fun j hj => by omega
    refine (Cached.view_store.trans (if_neg (hne 3 (by omega)))).trans ?_
    refine (Cached.view_store.trans (if_neg (hne 2 (by omega)))).trans ?_
    refine (Cached.view_store.trans (if_neg (hne 1 (by omega)))).trans ?_
    refine (Cached.view_store.trans (if_neg (hne 0 (by omega)))).trans ?_
    exact Cached.view_fill.trans (Cached.view_fill.trans (h a ha))

variable {io : MetalIoRegion} {offset : Addr} {s : DataCache}

/-- A piece of code that begins with an invalidation and then changes nothing outside. -/
theorem returnsKeeping_iff {α : Type} {addr : Addr} {len : BitVec 32} {Outside : Addr → Prop}
    {rest : ℕ → Code α} (bound : ℕ) (hrange : ¬(addr = 0 ∧ len = 0))
    (hrest : ∀ fuel, bound ≤ fuel → ∀ s', Total exec (rest fuel)
      (fun _ s'' => Kept s' s'' Outside) s')
    (hbelow : ∀ fuel, (rest fuel).Below (rest (fuel + bound))) :
    ReturnsKeeping (fun fuel => Hal.metalMachineCacheInvalidate fuel addr len >>= fun _ =>
      rest fuel) s Outside ↔ ClearOf s addr len Outside := by
  constructor
  · rintro ⟨fuel, htotal⟩
    obtain ⟨_, s'', hrun, hkept⟩ := htotal.run fun _ => default
    obtain ⟨_, s', xs, hinvalidate, hafter⟩ := Prog.run_bind hrun
    have hsame : Kept s' s'' Outside :=
      (hrest (fuel + bound) (Nat.le_add_left _ _) s').of_run (hbelow fuel) hafter
    exact ⟨endsBefore_of_run hrange hinvalidate,
      ((dropped_of_run hrange hinvalidate).kept_iff hsame).mp hkept⟩
  · rintro ⟨hend, hclean⟩
    refine ⟨bound + 2 ^ 64, Total.bind ?_⟩
    refine (total_invalidate hrange hend (Nat.le_add_left _ _)).mono fun _ s' hs' => ?_
    exact (hrest _ (Nat.le_add_right _ _) s').mono fun _ _ hkept =>
      (hs'.kept_iff hkept).mpr hclean

/-- An access to a null pointer does nothing. -/
theorem returnsKeeping_ret {α : Type} {Outside : Addr → Prop} (a : α) :
    ReturnsKeeping (fun _ => pure a) s Outside := ⟨0, fun _ _ => rfl⟩

theorem read_kept_iff (width : ℤ) {Outside : Addr → Prop} :
    ReturnsKeeping (fun fuel => io.shmemMetalIoRead fuel offset width) s Outside ↔
      (metalIoVirt io offset ≠ 0 →
        ClearOf s (metalIoVirt io offset) (BitVec.ofInt 32 width) Outside) := by
  by_cases hptr : metalIoVirt io offset = 0
  · simp only [MetalIoRegion.shmemMetalIoRead, if_pos hptr]
    exact iff_of_true (returnsKeeping_ret 0) fun hne => absurd hptr hne
  · simp only [MetalIoRegion.shmemMetalIoRead, if_neg hptr]
    rw [returnsKeeping_iff 0 (fun h => hptr h.1) (fun _ _ s' => ?_)
      fun _ => Prog.Below.refl _]
    · exact ⟨fun h _ => h, fun h => h hptr⟩
    · split
      · exact (total_loadBytes _ _ s').mono fun _ _ h a _ => h a.toNat
      · exact fun _ _ => rfl

theorem blockRead_kept_iff (dst : Addr) (len : ℕ) {Outside : Addr → Prop}
    (hlocal : ∀ a, Outside a → ¬(dst.toNat ≤ a.toNat ∧ a.toNat < dst.toNat + len)) :
    ReturnsKeeping (fun fuel => io.shmemMetalIoBlockRead fuel offset dst len) s Outside ↔
      (metalIoVirt io offset ≠ 0 →
        ClearOf s (metalIoVirt io offset) (BitVec.ofInt 32 len) Outside) := by
  by_cases hptr : metalIoVirt io offset = 0
  · simp only [MetalIoRegion.shmemMetalIoBlockRead, if_pos hptr]
    exact iff_of_true (returnsKeeping_ret 0) fun hne => absurd hptr hne
  · simp only [MetalIoRegion.shmemMetalIoBlockRead, if_neg hptr]
    rw [returnsKeeping_iff (len + 1) (fun h => hptr h.1) (fun fuel hfuel s' => ?_)
      fun _ => (blockLoops_below (Nat.le_add_right _ _) _).bind fun _ => Prog.Below.refl _]
    · exact ⟨fun h _ => h, fun h => h hptr⟩
    · refine Total.bind ((total_copyLoops
        (fun i => (dst.toNat + i) % 4 ≠ 0 ∨ ((metalIoVirt io offset).toNat + i) % 4 ≠ 0)
        (fun i hi => by omega) dst.toNat (metalIoVirt io offset).toNat len hfuel s').mono ?_)
      exact fun _ s'' h a ha => h a.toNat (hlocal a ha)

end Read

/-- The firmware's invalidation, field read and block read return and leave what the processor
sees outside the block alone exactly if the block ends before the last line of the address space
and the bytes outside that share a line with it agree with the memory. -/
theorem invalidate_kept_iff (s : DataCache) :
    (∀ addr len, ¬(addr = 0 ∧ len = 0) →
      (ReturnsKeeping (fun fuel => Hal.metalMachineCacheInvalidate fuel addr len) s
          (fun a => ¬OfBlock addr len a) ↔
        ClearOf s addr len fun a => ¬OfBlock addr len a)) ∧
    (∀ (io : MetalIoRegion) offset (width : ℤ),
      (ReturnsKeeping (fun fuel => io.shmemMetalIoRead fuel offset width) s
          (fun a => ¬OfBlock (metalIoVirt io offset) (BitVec.ofInt 32 width) a) ↔
        (metalIoVirt io offset ≠ 0 →
          ClearOf s (metalIoVirt io offset) (BitVec.ofInt 32 width) fun a =>
            ¬OfBlock (metalIoVirt io offset) (BitVec.ofInt 32 width) a))) ∧
    ∀ (io : MetalIoRegion) offset (dst : Addr) (len : ℕ),
      (ReturnsKeeping (fun fuel => io.shmemMetalIoBlockRead fuel offset dst len) s
          (fun a => ¬OfBlock (metalIoVirt io offset) (BitVec.ofInt 32 len) a ∧
            ¬(dst.toNat ≤ a.toNat ∧ a.toNat < dst.toNat + len)) ↔
        (metalIoVirt io offset ≠ 0 →
          ClearOf s (metalIoVirt io offset) (BitVec.ofInt 32 len) fun a =>
            ¬OfBlock (metalIoVirt io offset) (BitVec.ofInt 32 len) a ∧
              ¬(dst.toNat ≤ a.toNat ∧ a.toNat < dst.toNat + len))) := by
  refine ⟨fun addr len hrange => ?_, fun io offset width => read_kept_iff width,
    fun io offset dst len => blockRead_kept_iff dst len fun a ha => ha.2⟩
  have hbind : (fun fuel => Hal.metalMachineCacheInvalidate fuel addr len >>= fun _ => pure ()) =
      fun fuel => Hal.metalMachineCacheInvalidate fuel addr len :=
    funext fun _ => Prog.bind_ret _
  rw [← hbind]
  exact returnsKeeping_iff 0 hrange (fun _ _ _ _ _ => rfl) fun _ => Prog.Below.refl _

/-- A cache that holds every line, with one line as the memory has it and stored bytes in all the
others. -/
def oneClean : DataCache where
  ram := fun _ => 0
  held := fun _ => true
  data := fun a => if lineOf a = lineOf 0x1000 then 0 else 1

/-- A block inside the clean line, with stored bytes on both sides of the line. -/
theorem invalidate_kept_iff_oneClean :
    ReturnsKeeping (fun fuel => Hal.metalMachineCacheInvalidate fuel 0x1008 16) oneClean
      fun a => ¬OfBlock 0x1008 16 a := by
  refine ((invalidate_kept_iff oneClean).1 0x1008 16 (by decide)).mpr ⟨by decide, fun a _ h => ?_⟩
  have hstop : ((0x1008 : Addr) + (16 : BitVec 32).setWidth 64).toNat = 0x1018 := rfl
  have hline : lineOf a.toNat = lineOf 0x1000 := by
    rw [Touched, hstop] at h
    simp only [lineOf, L1_CACHE_BYTES] at h ⊢
    have hstart : (0x1008 : Addr).toNat = 0x1008 := rfl
    omega
  exact if_pos hline

/-- Reading one byte drops a byte that has been stored beside it: the cache has ones, the memory
zeros. -/
theorem stored_neighbour_lost :
    ∃ v s', ((metalIoInit 0x41200000 (fun _ => 0x41200000) 0x1000 (-1)).shmemMetalIoRead 2 24 1).run
        exec ⟨fun _ => 0, fun _ => true, fun _ => 1⟩ (fun _ => default) = some (v, s') ∧
      ¬Kept ⟨fun _ => 0, fun _ => true, fun _ => 1⟩ s' fun a => ¬OfBlock 0x41200018 1 a := by
  refine ⟨_, _, rfl, fun hkept => ?_⟩
  have hout : ¬OfBlock 0x41200018 1 0x41200019 := by
    unfold OfBlock
    decide
  exact absurd (hkept 0x41200019 hout) (by decide)

/-! ### Flushing -/

/-- The bytes a flush is asked for: those of the range, or all of them. -/
def Requested (addr : Addr) (len : BitVec 32) (a : Addr) : Prop :=
  (addr = 0 ∧ len = 0) ∨ OfBlock addr len a

/-- The flush returns, the memory then has the requested bytes as the processor saw them, and
the processor sees every byte as before. -/
def Flushed (s : DataCache) (addr : Addr) (len : BitVec 32) : Prop :=
  ∃ fuel, Total exec (Hal.metalMachineCacheFlush fuel addr len) (fun _ s' =>
    (∀ a, Requested addr len a → s'.ram a.toNat = s.view lineOf a.toNat) ∧
      ∀ a : Addr, s'.view lineOf a.toNat = s.view lineOf a.toNat) s

section Flush

variable {s : DataCache} {addr : Addr} {len : BitVec 32}

/-- The whole-cache form drops every line: nothing is lost only if nothing was stored. -/
theorem flushed_all_iff :
    Flushed s 0 0 ↔ ∀ a : Addr, s.view lineOf a.toNat = s.ram a.toNat := by
  have hall : ∀ fuel, Hal.metalMachineCacheFlush fuel 0 0 = access .iall := fun fuel =>
    if_pos ⟨rfl, rfl⟩
  constructor
  · rintro ⟨fuel, htotal⟩ a
    rw [hall] at htotal
    exact ((htotal default).1 a (Or.inl ⟨rfl, rfl⟩)).symm
  · intro hclean
    refine ⟨0, ?_⟩
    rw [hall]
    exact fun _ => ⟨fun a _ => (hclean a).symm, fun a => (hclean a).symm⟩

/-- A flush of a range writes back the lines of all its bytes. -/
theorem flushed_of_end (hrange : ¬(addr = 0 ∧ len = 0))
    (hend : addr.toNat + len.toNat ≤ 2 ^ 64 - L1_CACHE_BYTES) : Flushed s addr len := by
  have hlen : (len.setWidth 64).toNat = len.toNat := BitVec.toNat_setWidth_of_le (by omega)
  have hstop : (addr + len.setWidth 64).toNat = addr.toNat + len.toNat := by
    rw [toNat_add_of_lt, hlen]
    rw [hlen]
    simp only [L1_CACHE_BYTES] at hend
    omega
  refine ⟨2 ^ 64, ?_⟩
  rw [Hal.metalMachineCacheFlush, if_neg hrange,
    Hal.dcacheWriteBackRange_eq (hstop ▸ hend) (BitVec.isLt _)]
  refine (total_cleanRange _ _ s).mono fun _ s' hs' => ⟨fun a ha => ?_, fun a => hs'.view _⟩
  have hblock : OfBlock addr len a := ha.resolve_left hrange
  have hin : InRange addr (len.setWidth 64) a := by
    refine (sub_lt_iff ?_ a).mp hblock
    rw [hlen]
    simp only [L1_CACHE_BYTES] at hend
    omega
  obtain ⟨hle, hlt⟩ := hin
  rw [BitVec.le_def] at hle
  rw [hlen] at hlt
  refine hs'.touched _ ?_
  rw [Touched, hstop]
  simp only [L1_CACHE_BYTES]
  omega

/-- A flush that ends inside the last line does not return. -/
theorem not_flushed_of_end (hwrap : addr.toNat + len.toNat < 2 ^ 64)
    (hend : 2 ^ 64 - L1_CACHE_BYTES < addr.toNat + len.toNat) : ¬Flushed s addr len := by
  have hlen : (len.setWidth 64).toNat = len.toNat := BitVec.toNat_setWidth_of_le (by omega)
  have hstop : (addr + len.setWidth 64).toNat = addr.toNat + len.toNat := by
    rw [toNat_add_of_lt, hlen]
    rw [hlen]
    exact hwrap
  have hrange : ¬(addr = 0 ∧ len = 0) := by
    rintro ⟨rfl, rfl⟩
    exact absurd hend (by decide)
  rintro ⟨fuel, htotal⟩
  obtain ⟨_, _, hrun, -⟩ := htotal.run fun _ => default
  rw [Hal.metalMachineCacheFlush, if_neg hrange] at hrun
  have hnone := Hal.lineLoop_lineStart_never_ends exec (fun i => access (.cpa i)) addr
    (hstop.symm ▸ hend) fuel s fun _ => default
  exact absurd (hnone.symm.trans hrun) (Option.some_ne_none _).symm

end Flush

/-- A flush does what it should, except that the whole-cache form needs a cache without stored
bytes, and that a range must not end inside the last line of the address space. -/
theorem flushed_iff (s : DataCache) (addr : Addr) (len : BitVec 32)
    (hwrap : addr.toNat + len.toNat < 2 ^ 64) :
    Flushed s addr len ↔
      (addr = 0 → len = 0 → ∀ a : Addr, s.view lineOf a.toNat = s.ram a.toNat) ∧
        addr.toNat + len.toNat ≤ 2 ^ 64 - L1_CACHE_BYTES := by
  by_cases hrange : addr = 0 ∧ len = 0
  · obtain ⟨rfl, rfl⟩ := hrange
    rw [flushed_all_iff]
    exact ⟨fun h => ⟨fun _ _ => h, by decide⟩, fun h => h.1 rfl rfl⟩
  · constructor
    · intro hflushed
      refine ⟨fun haddr hlen => absurd ⟨haddr, hlen⟩ hrange, ?_⟩
      by_contra hend
      exact not_flushed_of_end hwrap (Nat.lt_of_not_le hend) hflushed
    · rintro ⟨-, hend⟩
      exact flushed_of_end hrange hend

/-- A range of an odd length at an odd address, in a cache full of stored bytes. -/
theorem flushed_iff_odd : Flushed ⟨fun _ => 0, fun _ => true, fun _ => 1⟩ 0x414B0007 0x1F5 :=
  (flushed_iff ⟨fun _ => 0, fun _ => true, fun _ => 1⟩ 0x414B0007 0x1F5 (by decide)).mpr
    ⟨fun haddr => absurd haddr (by decide), by decide⟩

/-- The flush of the whole cache loses the stored bytes. -/
theorem whole_cache_flush_loses : ¬Flushed ⟨fun _ => 0, fun _ => true, fun _ => 1⟩ 0 0 := by
  rw [flushed_all_iff]
  exact fun hclean => absurd (hclean 0) (by decide)

end DataCache

end C906Firmware
