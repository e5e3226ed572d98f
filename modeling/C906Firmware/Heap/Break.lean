import C906Firmware.Interaction.Schedule
import C906Firmware.Model.Heap

/-!
# The break and the shared memory

`_sbrk_r` keeps the break below `__heap_end__`, the end of the RAM of the linker script. The
vrings and the shared buffers lie in that RAM, below `__heap_end__`: what the calls are given
tiles the memory from `__bss_end__` up to the break (`Tiled`), so the heap runs into the first
vring as soon as a call takes the break past it (`sound_iff`).
-/

namespace C906Firmware

open Interaction

/-- A call of `_sbrk_r`: its increment, the break before and after it, its result and the
`errno` it leaves. -/
structure SbrkCall where
  incr : ℕ
  before : ℕ
  ret : BitVec 64
  after : ℕ
  errno : ℕ
  deriving DecidableEq, Repr

/-- The call has failed. -/
def SbrkCall.Failed (c : SbrkCall) : Prop := c.ret = -1

instance (c : SbrkCall) : Decidable c.Failed := inferInstanceAs (Decidable (_ = _))

/-- The heap and the calls so far. -/
structure HeapRun where
  heap : Heap
  calls : List SbrkCall

namespace HeapRun

variable (img : Image)

/-- The current break; before the first call it is `__bss_end__`. -/
def brk (k : HeapRun) : ℕ :=
  if k.heap.heapEnd = 0 then img.bssEnd else k.heap.heapEnd.toNat

/-- A call with the given increment. -/
def step (k : HeapRun) (incr : Fin (2 ^ 63)) : HeapRun :=
  let (ret, heap) := sbrkR img k.heap incr
  let after := (⟨heap, k.calls⟩ : HeapRun).brk img
  ⟨heap, k.calls ++ [⟨incr, k.brk img, ret, after, heap.errno⟩]⟩

/-- No call has been made. -/
def start (errno : ℕ) : HeapRun := ⟨⟨0, errno⟩, []⟩

/-- The regions handed out. -/
def regions (k : HeapRun) : List Region :=
  k.calls.filterMap fun c => if c.Failed then none else some ⟨c.ret.toNat, c.incr⟩

/-- The heap is sound: the break stays in its bounds, a failing call leaves it and sets
`ENOMEM`, the regions handed out are disjoint and none of them overlaps the shared memory. -/
structure Sound (k : HeapRun) : Prop where
  lower : img.bssEnd ≤ k.brk img
  upper : k.brk img ≤ heapLimit
  failed : ∀ c ∈ k.calls, c.Failed → c.errno = ENOMEM ∧ c.after = c.before
  disjoint : k.regions.Pairwise Region.Apart
  apart : ∀ r ∈ k.regions, ∀ s ∈ sharedRegions, r.Apart s

/-- The increment is refused, or keeps the break below the first vring. -/
def KeepsBelow (k : HeapRun) (incr : Fin (2 ^ 63)) : Prop :=
  k.brk img + incr ≤ heapLimit → k.brk img + incr ≤ vringAddress .svq

/-- What every run keeps: what has been handed out tiles the memory up to the break. -/
private structure Tiled (k : HeapRun) : Prop where
  lower : img.bssEnd ≤ k.brk img
  upper : k.brk img ≤ heapLimit
  failed : ∀ c ∈ k.calls, c.Failed → c.errno = ENOMEM ∧ c.after = c.before
  disjoint : k.regions.Pairwise Region.Apart
  inside : ∀ r ∈ k.regions, ∀ a, r.Has a → a < k.brk img
  covers : ∀ a, img.bssEnd ≤ a → a < k.brk img → ∃ r ∈ k.regions, r.Has a

variable {img} {k : HeapRun}

private theorem start_tiled (errno : ℕ) : Tiled img (start errno) := by
  have hbrk : (start errno).brk img = img.bssEnd := rfl
  have hbelow := img.below
  have hlimit : vringAddress .svq < heapLimit := by decide
  refine ⟨le_of_eq hbrk.symm, ?_, ?_, List.Pairwise.nil, ?_, fun a hlo hhi => ?_⟩
  · omega
  · simp [start]
  · simp [start, regions]
  · omega

/-- `heap_end` once it is initialised. -/
private theorem brk_eq {h : Heap} {calls : List SbrkCall} (hne : h.heapEnd ≠ 0) :
    (⟨h, calls⟩ : HeapRun).brk img = h.heapEnd.toNat := if_neg hne

/-- What a call does: it is refused, or it hands out the memory from the break on. -/
private theorem step_cases (h : Tiled img k) (incr : Fin (2 ^ 63)) :
    (heapLimit < k.brk img + incr ∧ (k.step img incr).brk img = k.brk img ∧
      ∃ c : SbrkCall, c.Failed ∧ c.errno = ENOMEM ∧ c.after = c.before ∧
        (k.step img incr).calls = k.calls ++ [c]) ∨
    (k.brk img + incr ≤ heapLimit ∧ (k.step img incr).brk img = k.brk img + incr ∧
      ∃ c : SbrkCall, ¬c.Failed ∧ c.ret.toNat = k.brk img ∧ c.incr = incr ∧
        (k.step img incr).calls = k.calls ++ [c]) := by
  obtain ⟨e, he⟩ : ∃ e, e = if k.heap.heapEnd = 0 then BitVec.ofNat 64 img.bssEnd
      else k.heap.heapEnd := ⟨_, rfl⟩
  have hlimit : heapLimit = 0x414FFF00 := by decide
  have hlower := h.lower
  have hupper := h.upper
  have hram := img.inRam
  have hbelow : img.bssEnd < 0x414AC000 := img.below
  have hincr := incr.isLt
  -- the initialised `heap_end` is the break, which is not null
  have hbrk : e.toNat = k.brk img := by
    rw [he, brk]
    split
    · exact Nat.mod_eq_of_lt (by omega)
    · rfl
  have hpos : 0 < k.brk img := by
    have : (0 : ℕ) < RAM_ORIGIN := by decide
    omega
  have hne : e ≠ 0 := by
    rintro rfl
    exact absurd hbrk (by simpa using hpos.ne)
  have hsum : (e + BitVec.ofNat 64 incr).toNat = k.brk img + incr := by
    rw [BitVec.toNat_add, BitVec.toNat_ofNat, hbrk]
    omega
  have hlim : (BitVec.ofNat 64 heapLimit).toNat = heapLimit := by decide
  have hinit : (if k.heap.heapEnd = 0 then { k.heap with heapEnd := BitVec.ofNat 64 img.bssEnd }
      else k.heap) = { k.heap with heapEnd := e } := by
    rw [he]
    split <;> rfl
  by_cases hfail : heapLimit < k.brk img + incr
  · have hsbrk : sbrkR img k.heap incr = (-1, ⟨e, ENOMEM⟩) := by
      simp only [sbrkR, hinit]
      rw [if_pos (by rw [gt_iff_lt, BitVec.lt_def, hsum, hlim]; exact hfail)]
    have hafter : (⟨⟨e, ENOMEM⟩, k.calls⟩ : HeapRun).brk img = k.brk img :=
      (brk_eq hne).trans hbrk
    refine .inl ⟨hfail, ?_, ⟨incr, k.brk img, -1, k.brk img, ENOMEM⟩, rfl, rfl, rfl, ?_⟩
    · simp only [step, hsbrk]
      exact hafter
    · simp only [step, hsbrk, hafter]
  · have hsbrk : sbrkR img k.heap incr = (e, ⟨e + BitVec.ofNat 64 incr, k.heap.errno⟩) := by
      simp only [sbrkR, hinit]
      rw [if_neg (by rw [gt_iff_lt, BitVec.lt_def, hsum, hlim]; exact hfail)]
    have hne' : e + BitVec.ofNat 64 incr ≠ 0 := by
      intro h0
      rw [h0] at hsum
      simp at hsum
      omega
    have hret : e ≠ -1 := by
      rintro rfl
      have : (-1 : BitVec 64).toNat = 2 ^ 64 - 1 := by decide
      omega
    have hafter : (⟨⟨e + BitVec.ofNat 64 incr, k.heap.errno⟩, k.calls⟩ : HeapRun).brk img =
        k.brk img + incr := (brk_eq hne').trans hsum
    refine .inr ⟨not_lt.mp hfail, ?_,
      ⟨incr, k.brk img, e, k.brk img + incr, k.heap.errno⟩, hret, hbrk, rfl, ?_⟩
    · simp only [step, hsbrk]
      exact hafter
    · simp only [step, hsbrk, hafter]

private theorem Tiled.step (h : Tiled img k) (incr : Fin (2 ^ 63)) :
    Tiled img (k.step img incr) := by
  rcases step_cases h incr with ⟨-, hbrk, c, hc, herrno, hafter, hcalls⟩ |
    ⟨hle, hbrk, c, hc, hret, hincr, hcalls⟩
  · -- refused: nothing is handed out
    have hregions : (k.step img incr).regions = k.regions := by
      simp [regions, hcalls, List.filterMap_append, hc]
    refine ⟨hbrk ▸ h.lower, hbrk ▸ h.upper, ?_, hregions ▸ h.disjoint, ?_, ?_⟩
    · intro c' hc'
      rw [hcalls] at hc'
      rcases List.mem_append.mp hc' with hc' | hc'
      · exact h.failed c' hc'
      · rw [List.mem_singleton.mp hc']
        exact fun _ => ⟨herrno, hafter⟩
    · rw [hregions, hbrk]
      exact h.inside
    · rw [hregions, hbrk]
      exact h.covers
  · -- granted: the region from the break on
    have hregions : (k.step img incr).regions = k.regions ++ [⟨k.brk img, incr⟩] := by
      simp [regions, hcalls, List.filterMap_append, hc, hret, hincr]
    have hnew : ∀ a, (⟨k.brk img, incr⟩ : Region).Has a ↔
        k.brk img ≤ a ∧ a < k.brk img + incr := fun a => Iff.rfl
    refine ⟨?_, ?_, ?_, ?_, ?_, ?_⟩
    · rw [hbrk]
      exact h.lower.trans (Nat.le_add_right _ _)
    · rw [hbrk]
      exact hle
    · intro c' hc'
      rw [hcalls] at hc'
      rcases List.mem_append.mp hc' with hc' | hc'
      · exact h.failed c' hc'
      · rw [List.mem_singleton.mp hc']
        exact fun hfailed => absurd hfailed hc
    · rw [hregions, List.pairwise_append]
      refine ⟨h.disjoint, List.pairwise_singleton _ _, fun r hr s hs a ha hsa => ?_⟩
      rw [List.mem_singleton.mp hs, hnew] at hsa
      have := h.inside r hr a ha
      omega
    · rw [hregions, hbrk]
      intro r hr a ha
      rcases List.mem_append.mp hr with hr | hr
      · have := h.inside r hr a ha
        omega
      · rw [List.mem_singleton.mp hr, hnew] at ha
        omega
    · rw [hregions, hbrk]
      intro a hlo hhi
      rcases lt_or_ge a (k.brk img) with hlt | hge
      · obtain ⟨r, hr, ha⟩ := h.covers a hlo hlt
        exact ⟨r, List.mem_append_left _ hr, ha⟩
      · exact ⟨_, List.mem_append_right _ (List.mem_singleton_self _), (hnew a).mpr ⟨hge, hhi⟩⟩

/-- The heap is sound exactly if the break has not passed the start of the first vring. -/
private theorem Tiled.sound_iff_below (h : Tiled img k) :
    Sound img k ↔ k.brk img ≤ vringAddress .svq := by
  have hshared : ∀ s ∈ sharedRegions, ∀ a, s.Has a → vringAddress .svq ≤ a := by
    intro s hs a ha
    have hstart : ∀ s ∈ sharedRegions, vringAddress .svq ≤ s.start := by decide
    exact (hstart s hs).trans ha.1
  constructor
  · intro hk
    by_contra hpast
    -- the byte at the start of the first vring has been handed out
    obtain ⟨r, hr, ha⟩ := h.covers (vringAddress .svq) img.below.le (not_le.mp hpast)
    exact hk.apart r hr _ (List.mem_cons_self ..) _ ha (by decide)
  · intro hle
    refine ⟨h.lower, h.upper, h.failed, h.disjoint, fun r hr s hs a ha hsa => ?_⟩
    have hin := h.inside r hr a ha
    have hout := hshared s hs a hsa
    omega

/-- **The heap stays sound exactly if every call is refused or keeps the break below the first
vring**, for every image and every sequence of increments. -/
theorem sound_iff (img : Image) (errno : ℕ) (incrs : List (Fin (2 ^ 63))) :
    Throughout (step img) (Sound img) (start errno) incrs ↔
      EachStep (step img) (KeepsBelow img) (start errno) incrs := by
  have htiled : Throughout (step img) (Tiled img) (start errno) incrs :=
    throughout_of_eachStep (fun _ h => h) (fun _ incr h _ => h.step incr) (start_tiled errno)
      (eachStep_true _ _)
  constructor
  · intro h
    refine eachStep_of_throughout (P := fun k => Sound img k ∧ Tiled img k) ?_ (h.and htiled)
    rintro k incr ⟨-, hk⟩ ⟨hk', -⟩ hle
    have hbelow := ((hk.step incr).sound_iff_below).mp hk'
    rcases step_cases hk incr with ⟨hlt, -⟩ | ⟨-, hbrk, -⟩
    · omega
    · rwa [hbrk] at hbelow
  · intro h
    refine throughout_of_eachStep (I := fun k => Tiled img k ∧ k.brk img ≤ vringAddress .svq)
      (fun k hk => hk.1.sound_iff_below.mpr hk.2) ?_ ⟨start_tiled errno, img.below.le⟩ h
    rintro k incr ⟨hk, hbelow⟩ hkeeps
    refine ⟨hk.step incr, ?_⟩
    rcases step_cases hk incr with ⟨-, hbrk, -⟩ | ⟨hle, hbrk, -⟩
    · rw [hbrk]
      exact hbelow
    · rw [hbrk]
      exact hkeeps hle

/-- With `__bss_end__` right below the first vring, a single call for 64 bytes hands out its
first descriptors. -/
theorem heap_hands_out_vring :
    ¬∀ (img : Image) (errno : ℕ) (incrs : List (Fin (2 ^ 63))),
      Throughout (step img) (Sound img) (start errno) incrs := by
  intro h
  have hend := (h ⟨0x414ABFF0, by decide, by decide⟩ 0 [64]).last
  have hregion : (⟨0x414ABFF0, 64⟩ : Region) ∈
      (runFrom (step ⟨0x414ABFF0, by decide, by decide⟩) (start 0) [64]).regions := by decide
  exact hend.apart _ hregion _ (List.mem_cons_self ..) (vringAddress .svq) (by decide) (by decide)

end HeapRun

end C906Firmware
