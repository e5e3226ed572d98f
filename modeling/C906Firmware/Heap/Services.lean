import C906Firmware.Heap.Sessions
import Mathlib.Order.Bounds.Basic

/-!
# What is built on the heap

The statistics count the free blocks, but only where there are any (`Session.Reachable.stats`).
Aligned memory is handed out with the real pointer in front of it, and is released through that
pointer (`Session.Reachable.malloc_align`, `Session.Reachable.free_align`). What `pvPortRealloc`
copies is not limited by the old block (`Session.Reachable.realloc`).
-/

namespace C906Firmware

open LittleEndian Span

namespace Heap4

variable {s : Heap4} {b : Span} {l : List Span} {e fuel k x y : ℕ}

/-! ### Statistics -/

/-- What one round counts. -/
def countOne (acc : ℕ × ℕ × ℕ) (b : Span) : ℕ × ℕ × ℕ :=
  (acc.1 + 1, if acc.2.1 < b.size then b.size else acc.2.1,
    if b.size < acc.2.2 then b.size else acc.2.2)

/-- The loop counts the blocks of the list. -/
theorem Linked.countBlocks (h : s.Linked e (b :: l)) (he : s.pxEnd = e)
    (hl : ∀ c ∈ b :: l, c.addr ≠ 0 ∧ c.addr ≠ e) (hfuel : l.length < fuel) (acc : ℕ × ℕ × ℕ) :
    s.countBlocks fuel b.addr acc = .counted ((b :: l).foldl countOne acc) := by
  induction l generalizing b fuel acc with
  | nil =>
    obtain ⟨fuel, rfl⟩ := Nat.exists_eq_add_one_of_ne_zero hfuel.ne'
    have hend : s.pxNextFreeBlock b.addr = e := h.2
    rw [Heap4.countBlocks, if_neg (hl b List.mem_cons_self).1, h.1, hend, he,
      if_neg (not_not.mpr rfl)]
    rfl
  | cons c l ih =>
    obtain ⟨fuel, rfl⟩ := Nat.exists_eq_add_one_of_ne_zero (Nat.zero_lt_of_lt hfuel).ne'
    obtain ⟨hsize, hnext, hrest⟩ := h
    have hl' := fun d hd => hl d (List.mem_cons_of_mem b hd)
    rw [Heap4.countBlocks, if_neg (hl b List.mem_cons_self).1, hsize, hnext, he,
      if_pos (hl' c List.mem_cons_self).2, List.foldl_cons]
    exact ih hrest hl' (Nat.lt_of_succ_lt_succ hfuel) _

/-- Where the list is empty the loop starts at the end marker and goes on to the null pointer. -/
theorem countBlocks_end (he : s.pxEnd = e) (hne : e ≠ 0) (hnext : s.pxNextFreeBlock e = 0)
    (fuel : ℕ) (acc : ℕ × ℕ × ℕ) : s.countBlocks (fuel + 2) e acc = .nullPointer := by
  rw [Heap4.countBlocks, if_neg hne, hnext, he, if_pos hne.symm, Heap4.countBlocks, if_pos rfl]

/-- The number, the largest size and the smallest size. -/
theorem foldl_countOne (l : List Span) (k x y : ℕ) :
    ∃ x' y', l.foldl countOne (k, x, y) = (k + l.length, x', y') ∧
      (x ≤ x' ∧ (∀ b ∈ l, b.size ≤ x') ∧ (x' = x ∨ ∃ b ∈ l, b.size = x')) ∧
      (y' ≤ y ∧ (∀ b ∈ l, y' ≤ b.size) ∧ (y' = y ∨ ∃ b ∈ l, b.size = y')) := by
  induction l generalizing k x y with
  | nil => exact ⟨x, y, rfl, by simp, by simp⟩
  | cons b l ih =>
    obtain ⟨x', y', heq, ⟨hx, hxle, hxeq⟩, hy, hyle, hyeq⟩ :=
      ih (k + 1) (if x < b.size then b.size else x) (if b.size < y then b.size else y)
    refine ⟨x', y', ?_, ⟨?_, ?_, ?_⟩, ?_, ?_, ?_⟩
    · rw [List.foldl_cons, countOne, heq, List.length_cons, Nat.add_assoc, Nat.add_comm 1]
    · split at hx <;> omega
    · refine List.forall_mem_cons.mpr ⟨?_, hxle⟩
      split at hx <;> omega
    · rcases hxeq with heq' | ⟨c, hc, heq'⟩
      · split at heq'
        · exact .inr ⟨b, List.mem_cons_self, heq'.symm⟩
        · exact .inl heq'
      · exact .inr ⟨c, List.mem_cons_of_mem b hc, heq'⟩
    · split at hy <;> omega
    · refine List.forall_mem_cons.mpr ⟨?_, hyle⟩
      split at hy <;> omega
    · rcases hyeq with heq' | ⟨c, hc, heq'⟩
      · split at heq'
        · exact .inr ⟨b, List.mem_cons_self, heq'.symm⟩
        · exact .inl heq'
      · exact .inr ⟨c, List.mem_cons_of_mem b hc, heq'⟩

end Heap4

namespace Session

variable {L : HeapLayout} {s s' : Session} {g : Lease} {fuel n k p : ℕ}

/-- The statistics are those of the free blocks, as long as there are any. Where all memory is
handed out the loop runs into the null pointer behind the end marker. -/
theorem Reachable.stats (h : Reachable L fuel s) (hfuel : Heap4.heapFuel ≤ fuel)
    (hinit : s.heap.pxEnd ≠ 0) :
    ((∀ a, ¬s.FreeAt L a) → ∀ fuel', 2 ≤ fuel' →
      s.heap.vPortGetHeapStats L fuel' = .nullPointer) ∧
    ((∃ a, s.FreeAt L a) → ∃ stats free, s.heap.vPortGetHeapStats L fuel = .counted stats ∧
      s.heap.Chain L.heapEnd L.xStart free ∧ stats.xNumberOfFreeBlocks = free.length ∧
      stats.xAvailableHeapSpaceInBytes = total free ∧
      IsGreatest {m | ∃ b ∈ free, b.size = m} stats.xSizeOfLargestFreeBlockInBytes ∧
      IsLeast {m | ∃ b ∈ free, b.size = m} stats.xSizeOfSmallestFreeBlockInBytes) := by
  obtain ⟨free, hinv⟩ := (h.sound hfuel).resolve_left fun hf => hinit hf.pxEnd
  have hchain := hinv.listed.chain
  have hpxEnd := hinv.listed.pxEnd
  rw [hpxEnd] at hinit
  have hfree : ∀ a, Inside free a ↔ s.FreeAt L a := hinv.inside
  constructor
  · intro hnone fuel' hfuel'
    obtain ⟨m, rfl⟩ := Nat.exists_eq_add_of_le' hfuel'
    have hnil : free = [] := by
      cases free with
      -- With no free byte the list is empty, and the walk starts at the end marker and leaves it.
      | nil => rfl
      | cons b l =>
        have hb := Separate.covers_addr hinv.listed.separate.head_pos
        exact absurd ((hfree b.addr).mp (inside_cons.mpr (.inl hb))) (hnone b.addr)
    subst hnil
    have hnext : s.heap.pxNextFreeBlock L.xStart = L.heapEnd := hchain
    rw [Heap4.vPortGetHeapStats, hnext]
    refine (if_pos hinit).trans ?_
    rw [Heap4.countBlocks_end hpxEnd hinit hinv.listed.endNext, Heap4.Walk.map]
  · rintro ⟨a, ha⟩
    cases free with
    | nil => exact absurd ((hfree a).mpr ha) inside_nil
    | cons b l =>
      have hl : ∀ c ∈ b :: l, c.addr ≠ 0 ∧ c.addr ≠ L.heapEnd := fun c hc => by
        have hplaced := hinv.listed.placed c hc
        have hfin := hplaced.fin_le
        have hsize := hplaced.le_size
        rw [fin] at hfin
        exact ⟨(L.heapStart_pos.trans_le hplaced.start_le).ne', by omega⟩
      have hlen := hinv.listed.length_lt.trans_le hfuel
      rw [List.length_cons] at hlen
      -- The walk starts at the first free block and ends at the end marker.
      have hlinked : s.heap.Linked L.heapEnd (b :: l) := hchain.2
      have hcount := hlinked.countBlocks hpxEnd hl (Nat.lt_of_succ_lt hlen) (0, 0, portMAX_DELAY)
      obtain ⟨x, y, hfold, ⟨-, hxle, hxeq⟩, hyle, hymin, hyeq⟩ :=
        Heap4.foldl_countOne (b :: l) 0 0 portMAX_DELAY
      have hbsize := (hinv.listed.placed b List.mem_cons_self).le_size
      have hblt := (Heap4.addr_lt_of_placed (hinv.listed.placed b List.mem_cons_self)).2
      refine ⟨s.heap.heapStats (0 + (b :: l).length, x, y), b :: l, ?_, hchain, ?_, ?_, ?_, ?_⟩
      · rw [Heap4.vPortGetHeapStats, hchain.1]
        exact (if_pos (hl b List.mem_cons_self).1).trans (by rw [hcount, hfold, Heap4.Walk.map])
      · exact Nat.zero_add _
      · exact hinv.remaining
      -- The largest size is the largest of the sizes or 0, which none of them is.
      · refine ⟨hxeq.resolve_left fun hzero => ?_, ?_⟩
        · have hb := hxle b List.mem_cons_self
          omega
        · rintro - ⟨c, hc, rfl⟩
          exact hxle c hc
      -- The smallest is the smallest of the sizes or the value at the start, which is larger than
      -- all.
      · refine ⟨hyeq.resolve_left fun hmax => ?_, ?_⟩
        · have hb := hymin b List.mem_cons_self
          rw [hmax, portMAX_DELAY] at hb
          omega
        · rintro - ⟨c, hc, rfl⟩
          exact hymin c hc

/-- One block is free, behind those in use and the one that is being released. -/
theorem stats_busy :
    ((∀ a, ¬busy.FreeAt sampleLayout a) → ∀ fuel', 2 ≤ fuel' →
      busy.heap.vPortGetHeapStats sampleLayout fuel' = .nullPointer) ∧
    ((∃ a, busy.FreeAt sampleLayout a) → ∃ stats free,
      busy.heap.vPortGetHeapStats sampleLayout Heap4.heapFuel = .counted stats ∧
      busy.heap.Chain sampleLayout.heapEnd sampleLayout.xStart free ∧
      stats.xNumberOfFreeBlocks = free.length ∧
      stats.xAvailableHeapSpaceInBytes = total free ∧
      IsGreatest {m | ∃ b ∈ free, b.size = m} stats.xSizeOfLargestFreeBlockInBytes ∧
      IsLeast {m | ∃ b ∈ free, b.size = m} stats.xSizeOfSmallestFreeBlockInBytes) :=
  Reachable.stats busy_reachable le_rfl (by decide +kernel)

/-! ### Alignment -/

theorem pointerRound_eq (hn : n + 7 < 2 ^ 64) : Heap4.pointerRound n = (n + 7) / 8 * 8 := by
  rw [Heap4.pointerRound, Heap4.POINTER_SIZE, sizeAdd_eq hn]
  exact and_not_mask (k := 3) hn (by decide)

/-- The pointer is the next multiple of the alignment, and not the one that was given. -/
theorem alignPtr_eq (hk : k < 64) (hp : p + 2 ^ k < 2 ^ 64) :
    Heap4.alignPtr p (2 ^ k) = (p / 2 ^ k + 1) * 2 ^ k := by
  have hpos : 0 < 2 ^ k := Nat.two_pow_pos k
  have hdiv := Nat.div_add_mod p (2 ^ k)
  have hone : sizeSub (2 ^ k) 1 = 2 ^ k - 1 := sizeSub_eq hpos (by omega)
  rw [Heap4.alignPtr, hone, Nat.and_two_pow_sub_one_eq_mod, Nat.add_mul, Nat.one_mul,
    Nat.mul_comm (p / 2 ^ k)]
  split
  · next hzero =>
    rw [sizeAdd_eq hp]
    omega
  · next hmod =>
    have hsum : p + (2 ^ k - 1) = (p % 2 ^ k - 1) + 2 ^ k * (p / 2 ^ k + 1) := by
      rw [Nat.mul_add]
      omega
    have hlow : p % 2 ^ k - 1 < 2 ^ k := by
      have hlt := Nat.mod_lt p hpos
      omega
    rw [sizeAdd_eq (by omega), and_not_mask (by omega) hk.le, hsum,
      Nat.add_mul_div_left _ _ hpos, Nat.div_eq_of_lt hlow, Nat.zero_add, Nat.add_mul, Nat.one_mul,
      Nat.mul_comm (p / 2 ^ k)]

/-- A call of `__internal_malloc` that hands out memory. -/
theorem Reachable.malloc_given (h : Reachable L fuel s) (hfuel : Heap4.heapFuel ≤ fuel)
    (hn : n < 2 ^ 64) : ∃ r, s.heap.internalMalloc L fuel n = some r ∧ (r.1 ≠ 0 → ∃ s' g,
      Reachable L fuel s' ∧ s'.heap = r.2 ∧ s'.live = g :: s.live ∧ s'.freeing = s.freeing ∧
        s'.written = (fun a => if g.Has a then none else s.written a) ∧
        g.ptr = r.1 ∧ g.len = n ∧ r.1 % 16 = 0) := by
  obtain ⟨s₀, free, r, free', -, hinv₀, hsome, hinv, hserved⟩ := (h.sound hfuel).malloc hn hfuel
  refine ⟨r, hsome, fun hr => ?_⟩
  have hstep : Reachable L fuel (s.given n r) :=
    h.step (u := .malloc _) hn (by rw [act, hsome, Option.map_some])
  obtain ⟨-, l₁, b, l₂, hfree, -, -, hret⟩ := hserved.served hr
  have hplaced := hinv₀.listed.placed b (by simp [hfree])
  have hback : sizeSub r.1 xHeapStructSize = b.addr := by
    rw [hret]
    exact Heap4.sizeSub_header b (Heap4.addr_lt_of_placed hplaced).1
  rw [given, if_neg hr] at hstep
  simp only [hback] at hstep
  refine ⟨_, ⟨b.addr, n, r.2.xBlockSize b.addr % 2 ^ 63⟩, hstep, rfl, rfl, rfl, rfl, ?_, rfl, ?_⟩
  · rw [hret, Lease.ptr, xHeapStructSize_eq]
  · have hmod := hplaced.addr_mod
    omega

/-- A user fills a part of what it has been given. -/
theorem Reachable.fill (h : Reachable L fuel s) (hg : g ∈ s.live) {a n : ℕ} (f : ℕ → BitVec 8)
    (hin : ∀ i < n, g.Has (a + i)) : Reachable L fuel { s with
      heap := { s.heap with mem := fun x => if a ≤ x ∧ x < a + n then f x else s.heap.mem x }
      written := fun x => if a ≤ x ∧ x < a + n then some (f x) else s.written x } := by
  induction n with
  | zero =>
    have hnot : ∀ x, ¬(a ≤ x ∧ x < a + 0) := fun x => by omega
    simp only [hnot, if_false]
    exact h
  | succ n ih =>
    have hlast := (ih fun i hi => hin i (Nat.lt_succ_of_lt hi)).step
      (u := .write (a + n) (f (a + n))) ⟨g, hg, hin n (Nat.lt_succ_self n)⟩ rfl
    have hsucc : ∀ {α : Type} (m : ℕ → α) (w : BitVec 8 → α),
        Function.update (fun x => if a ≤ x ∧ x < a + n then w (f x) else m x) (a + n)
          (w (f (a + n))) = fun x => if a ≤ x ∧ x < a + (n + 1) then w (f x) else m x := by
      intro α m w
      funext x
      by_cases hx : x = a + n
      · rw [hx, Function.update_self, if_pos ⟨Nat.le_add_right a n, by omega⟩]
      · rw [Function.update_of_ne hx]
        exact if_congr (by omega) rfl rfl
    have hmem := hsucc s.heap.mem id
    have hwritten := hsucc s.written some
    simp only [id] at hmem
    rw [← hmem, ← hwritten]
    exact hlast

/-- The pointer in front of aligned memory leads back to the block. -/
theorem Reachable.free_align (h : Reachable L fuel s) (hfuel : Heap4.heapFuel ≤ fuel)
    (hg : g ∈ s.live) (hlo : g.ptr + 8 ≤ p) (hhi : p ≤ g.ptr + g.len)
    (hkept : ∀ i < 8, s.written (p - 8 + i) = some (BitVec.ofNat 8 (g.ptr / 256 ^ i))) :
    s.heap.vPortFreeAlign L fuel p = s.heap.internalFree L fuel g.ptr := by
  obtain ⟨free, hinv⟩ := (h.sound hfuel).inv_of_live (mem_leases_of_live hg)
  have hlt := hinv.ptr_lt (mem_leases_of_live hg)
  have hback : sizeSub p Heap4.POINTER_SIZE = p - 8 :=
    sizeSub_eq ((Nat.le_add_left 8 g.ptr).trans hlo) (by omega)
  have hreal : load s.heap.mem (p - 8) 8 = g.ptr :=
    load_of_bytes (fun i hi => hinv.written g hg _ ⟨by omega, by omega⟩ _ (hkept i hi)) (by omega)
  rw [Heap4.vPortFreeAlign, hback, hreal]

/-- The memory behind aligned memory, and its pointer. -/
theorem pvPortMallocAlign_of_some {h : Heap4} {r : ℕ × Heap4} (hk : 3 ≤ k)
    (hn : n + 7 + 2 ^ k < 2 ^ 64)
    (hsome : h.internalMalloc L fuel ((n + 7) / 8 * 8 + 2 ^ k) = some r) :
    h.pvPortMallocAlign L fuel n (2 ^ k) = some (if r.1 ≠ 0 then
      (Heap4.alignPtr r.1 (2 ^ k), { r.2 with
        mem := LittleEndian.put r.2.mem (sizeSub (Heap4.alignPtr r.1 (2 ^ k)) 8) 8 r.1 })
      else r) := by
  obtain ⟨m, hm⟩ : 8 ∣ 2 ^ k := pow_dvd_pow 2 hk
  have halign : Heap4.pointerRound (2 ^ k) = 2 ^ k := by
    rw [pointerRound_eq (by omega)]
    omega
  have hlen : sizeAdd (Heap4.pointerRound n) (2 ^ k) = (n + 7) / 8 * 8 + 2 ^ k := by
    rw [pointerRound_eq (by omega), sizeAdd_eq (by omega)]
  rw [Heap4.pvPortMallocAlign]
  simp only [halign, hlen, hsome, Option.map_some, Heap4.POINTER_SIZE]

/-- The aligned pointer leaves room in front of it for the real one. -/
theorem alignPtr_room (hk : 3 ≤ k) (hk64 : k < 64) (hp : p + 2 ^ k < 2 ^ 64) (hmod : p % 8 = 0) :
    Heap4.alignPtr p (2 ^ k) % 2 ^ k = 0 ∧ p + 8 ≤ Heap4.alignPtr p (2 ^ k) ∧
      Heap4.alignPtr p (2 ^ k) ≤ p + 2 ^ k := by
  have hpos : 0 < 2 ^ k := Nat.two_pow_pos k
  obtain ⟨m, hm⟩ : 8 ∣ 2 ^ k := pow_dvd_pow 2 hk
  have hdiv := Nat.div_add_mod p (2 ^ k)
  have hlt := Nat.mod_lt p hpos
  have hdvd : 8 ∣ p % 2 ^ k := (Nat.dvd_mod_iff ⟨m, hm⟩).mpr (Nat.dvd_of_mod_eq_zero hmod)
  rw [alignPtr_eq hk64 hp, Nat.add_mul, Nat.one_mul, Nat.mul_comm (p / 2 ^ k)]
  refine ⟨by rw [Nat.add_mod_right, Nat.mul_mod_right], ?_, by omega⟩
  omega

/-- Aligned memory is a part of what has been allocated, and releasing it releases that, as long as
its user does not write in front of it. The sum that is asked for must not wrap: two to the 64 less
8 bytes at 16 would be served from a block of 32. -/
theorem Reachable.malloc_align (h : Reachable L fuel s) (hfuel : Heap4.heapFuel ≤ fuel)
    (hk : 3 ≤ k) (hn : n + 7 + 2 ^ k < 2 ^ 64) :
    ∃ r, s.heap.pvPortMallocAlign L fuel n (2 ^ k) = some r ∧ (r.1 ≠ 0 →
      ∃ s' g, Reachable L fuel s' ∧ s'.heap = r.2 ∧ s'.live = g :: s.live ∧
        s'.freeing = s.freeing ∧ r.1 % 2 ^ k = 0 ∧ g.ptr + 8 ≤ r.1 ∧ r.1 + n ≤ g.ptr + g.len ∧
        ∀ t, Reachable L fuel t → g ∈ t.live →
          (∀ i < 8, t.written (r.1 - 8 + i) = s'.written (r.1 - 8 + i)) →
          t.heap.vPortFreeAlign L fuel r.1 = t.heap.internalFree L fuel g.ptr) := by
  have hk64 : k < 64 := (Nat.pow_lt_pow_iff_right Nat.one_lt_two).mp
    (Nat.lt_of_le_of_lt (Nat.le_add_left _ _) hn)
  have hlt : (n + 7) / 8 * 8 + 2 ^ k < 2 ^ 64 := by omega
  obtain ⟨r, hsome, hgiven⟩ := h.malloc_given hfuel hlt
  refine ⟨_, pvPortMallocAlign_of_some hk hn hsome, ?_⟩
  by_cases hr : r.1 = 0
  · rw [if_neg (not_not.mpr hr)]
    exact fun hne => absurd hr hne
  · rw [if_pos hr]
    intro _
    -- The call has handed out a block, and its user writes the pointer into it.
    obtain ⟨s₁, g, hreach, hheap, hlive₁, hfreeing, -, hptr, hglen, hmod⟩ := hgiven hr
    have hg : g ∈ s₁.live := hlive₁ ▸ List.mem_cons_self
    obtain ⟨free, hinv⟩ := (hreach.sound hfuel).inv_of_live (mem_leases_of_live hg)
    have hend := hinv.ptr_lt (mem_leases_of_live hg)
    obtain ⟨haligned, hlo, hhi⟩ := alignPtr_room hk hk64 (p := r.1) (by omega) (by omega)
    rw [sizeSub_eq (by omega) (by omega)]
    have hput := hreach.fill hg (a := Heap4.alignPtr r.1 (2 ^ k) - 8) (n := 8)
      (fun x => BitVec.ofNat 8 (r.1 / 256 ^ (x - (Heap4.alignPtr r.1 (2 ^ k) - 8))))
      fun i hi => ⟨by omega, by omega⟩
    simp only [← put_eq s₁.heap.mem _ 8 r.1] at hput
    refine ⟨_, g, hput, by rw [hheap], hlive₁, hfreeing, haligned, by omega, by omega,
      fun t ht hlive hkept => ?_⟩
    refine ht.free_align hfuel hlive (by omega) (by omega) fun i hi => ?_
    rw [hkept i hi, hptr]
    exact (if_pos ⟨Nat.le_add_right _ i, Nat.add_lt_add_left hi _⟩).trans
      (by rw [Nat.add_sub_cancel_left])

/-- A hundred bytes at the start of a cache line, with other blocks in use. -/
theorem malloc_align_busy :
    ∃ r, busy.heap.pvPortMallocAlign sampleLayout Heap4.heapFuel 100 (2 ^ 6) = some r ∧
      (r.1 ≠ 0 → ∃ s' g, Reachable sampleLayout Heap4.heapFuel s' ∧ s'.heap = r.2 ∧
        s'.live = g :: busy.live ∧ s'.freeing = busy.freeing ∧ r.1 % 2 ^ 6 = 0 ∧
        g.ptr + 8 ≤ r.1 ∧ r.1 + 100 ≤ g.ptr + g.len ∧
        ∀ t, Reachable sampleLayout Heap4.heapFuel t → g ∈ t.live →
          (∀ i < 8, t.written (r.1 - 8 + i) = s'.written (r.1 - 8 + i)) →
          t.heap.vPortFreeAlign sampleLayout Heap4.heapFuel r.1 =
            t.heap.internalFree sampleLayout Heap4.heapFuel g.ptr) :=
  Reachable.malloc_align busy_reachable le_rfl (by decide) (by decide)

/-! ### Reallocation -/

/-- The mark is still in the size that `pvPortRealloc` takes for the length of the old block. -/
theorem Inv.realloc_length {free : List Span} (h : Inv L s free) (hg : g ∈ s.live)
    (hn : n < 2 ^ 63) : s.heap.reallocLength g.ptr n = n := by
  have hplaced := h.placed g (mem_leases_of_live hg)
  obtain ⟨haddr, hlt⟩ := Heap4.addr_lt_of_placed hplaced
  have hsize := hplaced.le_size
  have hback : sizeSub g.ptr xHeapStructSize = g.addr := Heap4.sizeSub_header g.span haddr
  simp only [Lease.span] at hlt hsize
  rw [Heap4.reallocLength, hback, (h.marked g hg).2, xHeapStructSize_eq,
    sizeSub_eq (by omega) (by omega)]
  exact if_neg (by omega)

/-- What `memcpy` promises: where two areas are apart, one is copied to the other. -/
def Copies (memcpy : (ℕ → BitVec 8) → ℕ → ℕ → ℕ → ℕ → BitVec 8) : Prop :=
  ∀ mem dst src n, (dst + n ≤ src ∨ src + n ≤ dst) → ∀ a, memcpy mem dst src n a =
    if dst ≤ a ∧ a < dst + n then mem (src + (a - dst)) else mem a

/-- A call of `__internal_free` that no other user comes into. -/
theorem Reachable.release (h : Reachable L fuel s) (hfuel : Heap4.heapFuel ≤ fuel)
    (hg : g ∈ s.live) : ∃ h', s.heap.internalFree L fuel g.ptr = some h' ∧
      Reachable L fuel { s with heap := h', live := s.live.erase g } := by
  have hsound := h.sound hfuel
  obtain ⟨s₁, hcheck, -⟩ := hsound.act hfuel (u := .freeCheck g) hg
  have hreach₁ := h.step (u := .freeCheck g) hg hcheck
  obtain ⟨h₁, hh₁, rfl⟩ := Option.map_eq_some_iff.mp hcheck
  have hmem : g ∈ g :: s.freeing := List.mem_cons_self
  obtain ⟨s₂, hinsert, -⟩ := (hreach₁.sound hfuel).act hfuel (u := .freeInsert g) hmem
  have hreach₂ := hreach₁.step (u := .freeInsert g) hmem hinsert
  obtain ⟨h₂, hh₂, rfl⟩ := Option.map_eq_some_iff.mp hinsert
  refine ⟨h₂, ?_, by simpa using hreach₂⟩
  have hne : g.ptr ≠ 0 := by
    rw [Lease.ptr, xHeapStructSize_eq]
    exact Nat.succ_ne_zero _
  rw [Heap4.internalFree, if_neg hne, hh₁]
  exact hh₂

/-- What `pvPortRealloc` does with the memory it gets. -/
theorem pvPortRealloc_of_some {h h' : Heap4} (memcpy : (ℕ → BitVec 8) → ℕ → ℕ → ℕ → ℕ → BitVec 8)
    (g : Lease) (hn : 0 < n) (hsome : h.internalMalloc L fuel n = some (p, h')) :
    h.pvPortRealloc L fuel memcpy g.ptr n = if p = 0 then some (p, h') else
      (Heap4.internalFree L fuel g.ptr
        { h' with mem := memcpy h'.mem p g.ptr (h'.reallocLength g.ptr n) }).map
          fun h => (p, h) := by
  have hne : g.ptr ≠ 0 := by
    rw [Lease.ptr, xHeapStructSize_eq]
    exact Nat.succ_ne_zero _
  rw [Heap4.pvPortRealloc, if_neg hne, if_neg hn.ne', hsome, Option.bind_some]

/-- A reallocation copies as many bytes as the new length says, whatever the old block holds. If
these are apart from the new block, as they are where the old block holds them, what the user has
written is kept. -/
theorem Reachable.realloc {memcpy : (ℕ → BitVec 8) → ℕ → ℕ → ℕ → ℕ → BitVec 8}
    (hcopy : Copies memcpy) (h : Reachable L fuel s) (hfuel : Heap4.heapFuel ≤ fuel)
    (hg : g ∈ s.live) (hn : 0 < n ∧ n < 2 ^ 63) :
    ∃ r, s.heap.internalMalloc L fuel n = some r ∧
      (r.1 = 0 → s.heap.pvPortRealloc L fuel memcpy g.ptr n = some r) ∧
      (r.1 ≠ 0 → r.2.reallocLength g.ptr n = n ∧
        s.heap.pvPortRealloc L fuel memcpy g.ptr n = (Heap4.internalFree L fuel g.ptr
          { r.2 with mem := memcpy r.2.mem r.1 g.ptr n }).map (fun h => (r.1, h)) ∧
        (n + 16 ≤ g.size → r.1 + n ≤ g.ptr ∨ g.ptr + n ≤ r.1) ∧
        (r.1 + n ≤ g.ptr ∨ g.ptr + n ≤ r.1 → ∃ s' g',
          s.heap.pvPortRealloc L fuel memcpy g.ptr n = some (r.1, s'.heap) ∧
          Reachable L fuel s' ∧ s'.live = g' :: s.live.erase g ∧ g'.ptr = r.1 ∧ g'.len = n ∧
          ∀ i < n, g.Has (g.ptr + i) → ∀ v, s.written (g.ptr + i) = some v →
            s'.heap.mem (r.1 + i) = v)) := by
  obtain ⟨⟨p, h₁⟩, hsome, hgiven⟩ := h.malloc_given hfuel (hn.2.trans (by decide))
  have hcall := pvPortRealloc_of_some memcpy g hn.1 hsome
  refine ⟨(p, h₁), hsome, fun hp => hcall.trans (if_pos hp), fun hp => ?_⟩
  obtain ⟨s₁, g', hreach, rfl, hlive, -, hwritten, hptr, hlen, -⟩ := hgiven hp
  have hg' : g' ∈ s₁.live := hlive ▸ List.mem_cons_self
  have hg₁ : g ∈ s₁.live := hlive ▸ List.mem_cons_of_mem g' hg
  obtain ⟨free, hinv⟩ := (hreach.sound hfuel).inv_of_live (mem_leases_of_live hg')
  -- The new block lies apart from the old one, which is still in use.
  have hapart : g'.span.Apart g.span := by
    have hpair := (List.pairwise_append.mp hinv.apart).1
    rw [hlive] at hpair
    exact (List.pairwise_cons.mp hpair).1 g hg
  have hroom := hinv.len_le g' (mem_leases_of_live hg')
  -- The owner bit makes the old size larger than any length: the comparison never cuts the copy.
  have hlength : s₁.heap.reallocLength g.ptr n = n := hinv.realloc_length hg₁ hn.2
  rw [if_neg hp, hlength] at hcall
  refine ⟨hlength, hcall, fun hsize => ?_, fun hdisjoint => ?_⟩
  · rw [← hptr, Lease.ptr, Lease.ptr, xHeapStructSize_eq]
    rcases hapart with hap | hap <;> simp only [Lease.span, fin] at hap <;> omega
  · -- The copy is what a user may write, and so is what follows.
    have hfill := hreach.fill hg' (a := p) (n := n) (fun x => s₁.heap.mem (g.ptr + (x - p)))
      fun i hi => ⟨by omega, by omega⟩
    obtain ⟨h₃, hfree, hreach₃⟩ := hfill.release hfuel (g := g) hg₁
    have hmem : memcpy s₁.heap.mem p g.ptr n =
        fun x => if p ≤ x ∧ x < p + n then s₁.heap.mem (g.ptr + (x - p)) else s₁.heap.mem x :=
      funext fun x => hcopy _ _ _ _ hdisjoint x
    have hdiff : g' ≠ g := fun heq => by
      have hpos := (hinv.placed g (mem_leases_of_live hg₁)).le_size
      rw [heq] at hapart
      rcases hapart with hap | hap <;> simp only [Lease.span, fin] at hap hpos <;> omega
    have hlive₃ : s₁.live.erase g = g' :: s.live.erase g := by
      rw [hlive, List.erase_cons_tail (by simpa using hdiff)]
    refine ⟨_, g', ?_, hreach₃, hlive₃, hptr, hlen, fun i hi hhas v hv => ?_⟩
    · rw [hcall, hmem, hfree, Option.map_some]
    -- What has been written to the old block was not written by the allocation.
    · have hold : s₁.written (g.ptr + i) = some v := by
        rw [hwritten]
        refine (if_neg fun hhas' => ?_).trans hv
        exact hapart.not_covers (hinv.has (mem_leases_of_live hg') hhas').2
          (hinv.has (mem_leases_of_live hg₁) hhas).2
      have hsame := hinv.written g hg₁ _ hhas v hold
      have hnew : g' ∈ s₁.live.erase g := hlive₃ ▸ List.mem_cons_self
      obtain ⟨free₃, hinv₃⟩ := (hreach₃.sound hfuel).inv_of_live (mem_leases_of_live hnew)
      refine hinv₃.written g' hnew _ ⟨by omega, by omega⟩ v ?_
      dsimp only
      rw [if_pos ⟨Nat.le_add_right p i, Nat.add_lt_add_left hi p⟩, Nat.add_sub_cancel_left, hsame]

/-- `memcpy`, byte by byte -/
def copyBytes (mem : ℕ → BitVec 8) (dst src n a : ℕ) : BitVec 8 :=
  if dst ≤ a ∧ a < dst + n then mem (src + (a - dst)) else mem a

/-- Thirty bytes instead of twenty-four, of which one has been written. -/
theorem realloc_busy :
    ∃ r, busy.heap.internalMalloc sampleLayout Heap4.heapFuel 30 = some r ∧
      (r.1 = 0 → busy.heap.pvPortRealloc sampleLayout Heap4.heapFuel copyBytes leaseB.ptr 30 =
        some r) ∧
      (r.1 ≠ 0 → r.2.reallocLength leaseB.ptr 30 = 30 ∧
        busy.heap.pvPortRealloc sampleLayout Heap4.heapFuel copyBytes leaseB.ptr 30 =
          (Heap4.internalFree sampleLayout Heap4.heapFuel leaseB.ptr
            { r.2 with mem := copyBytes r.2.mem r.1 leaseB.ptr 30 }).map (fun h => (r.1, h)) ∧
        (30 + 16 ≤ leaseB.size → r.1 + 30 ≤ leaseB.ptr ∨ leaseB.ptr + 30 ≤ r.1) ∧
        (r.1 + 30 ≤ leaseB.ptr ∨ leaseB.ptr + 30 ≤ r.1 → ∃ s' g',
          busy.heap.pvPortRealloc sampleLayout Heap4.heapFuel copyBytes leaseB.ptr 30 =
            some (r.1, s'.heap) ∧
          Reachable sampleLayout Heap4.heapFuel s' ∧
          s'.live = g' :: busy.live.erase leaseB ∧ g'.ptr = r.1 ∧ g'.len = 30 ∧
          ∀ i < 30, leaseB.Has (leaseB.ptr + i) →
            ∀ v, busy.written (leaseB.ptr + i) = some v → s'.heap.mem (r.1 + i) = v)) :=
  Reachable.realloc (fun _ _ _ _ _ _ => rfl) busy_reachable le_rfl
    (by rw [busy_live]; exact List.mem_cons_of_mem _ List.mem_cons_self) (by decide)

/-- Growing the only block there is, at the start of the heap: the new block follows the old one,
and what is copied reaches into it. -/
theorem Reachable.realloc_overlap (h : Reachable L fuel s) (hfuel : Heap4.heapFuel ≤ fuel)
    (hlive : s.live = [g]) (hfreeing : s.freeing = []) (haddr : g.addr = L.heapStart)
    (hgrow : g.size < n) (hroom : L.heapStart + g.size + roundUp n ≤ L.heapEnd) :
    ∃ h', s.heap.internalMalloc L fuel n = some (g.ptr + g.size, h') ∧
      ∀ memcpy, s.heap.pvPortRealloc L fuel memcpy g.ptr n =
        (Heap4.internalFree L fuel g.ptr
          { h' with mem := memcpy h'.mem (g.ptr + g.size) g.ptr n }).map
            fun h => (g.ptr + g.size, h) := by
  have hend := L.heapEnd_lt
  have hn : 0 < n ∧ n < 2 ^ 63 := ⟨Nat.zero_lt_of_lt hgrow, by rw [roundUp] at hroom; omega⟩
  have hg : g ∈ s.live := hlive ▸ List.mem_cons_self
  obtain ⟨free, hinv⟩ := (h.sound hfuel).inv_of_live (mem_leases_of_live hg)
  have hsize := (hinv.placed g (mem_leases_of_live hg)).le_size
  have hspans : s.spans = [g.span] := by
    rw [spans, leases, hlive, hfreeing]
    rfl
  -- Free is what lies behind the old block, which is at the start of the heap.
  have hfree : ∀ a, s.FreeAt L a ↔ L.heapStart + g.size ≤ a ∧ a < L.heapEnd := fun a => by
    rw [FreeAt, hspans, inside_cons, Covers, fin]
    simp only [Lease.span, inside_nil, haddr, or_false] at hsize ⊢
    omega
  have hleast : IsLeast {a | ∀ i < roundUp n, s.FreeAt L (a + i)} (L.heapStart + g.size) := by
    refine ⟨fun i hi => (hfree _).mpr (by omega), fun a ha => ?_⟩
    have hfirst := (hfree _).mp (ha 0 (by rw [roundUp]; omega))
    exact hfirst.1
  obtain ⟨⟨p, h₁⟩, free₁, hsome, hinv₁, hserved⟩ := hinv.allocate (hn.2.trans (by decide)) hfuel
  obtain ⟨hnull, hplace⟩ := hinv.first_room hn hserved
  have hp : p ≠ 0 := fun hp => hnull.mp hp ⟨_, hleast.1⟩
  -- The first fit starts right behind it.
  have hpeq : p = g.ptr + g.size := by
    have heq := (hplace hp).unique hleast
    have hpos := L.heapStart_pos
    rw [xHeapStructSize_eq] at heq
    rw [Lease.ptr, xHeapStructSize_eq, haddr]
    omega
  subst hpeq
  rw [← hinv.internalMalloc] at hsome
  refine ⟨h₁, hsome, fun memcpy => ?_⟩
  rw [given, if_neg hp] at hinv₁
  have hlength : h₁.reallocLength g.ptr n = n :=
    hinv₁.realloc_length (List.mem_cons_of_mem _ hg) hn.2
  rw [pvPortRealloc_of_some memcpy g hn.1 hsome, if_neg hp, hlength]

/-- A hundred bytes instead of one. -/
theorem realloc_overlap_opened :
    ∃ h', opened.heap.internalMalloc sampleLayout Heap4.heapFuel 100 =
        some (firstLease.ptr + firstLease.size, h') ∧
      ∀ memcpy, opened.heap.pvPortRealloc sampleLayout Heap4.heapFuel memcpy firstLease.ptr 100 =
        (Heap4.internalFree sampleLayout Heap4.heapFuel firstLease.ptr { h' with
          mem := memcpy h'.mem (firstLease.ptr + firstLease.size) firstLease.ptr 100 }).map
            fun h => (firstLease.ptr + firstLease.size, h) :=
  Reachable.realloc_overlap opened_reachable le_rfl opened_live opened_freeing (by decide +kernel)
    (by decide +kernel) (by decide +kernel)

end Session

end C906Firmware
