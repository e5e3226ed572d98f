import C906Firmware.Heap.FreeList
import Mathlib.Data.Nat.Bitwise

/-!
# Allocation and release

What `__internal_malloc` and `__internal_free` do to the free list: allocation takes the first
block of adequate size out of it and puts back what is too much (`Listed.malloc`), and release
inserts a block (`Listed.freeInsert`).
-/

namespace C906Firmware

open LittleEndian Span

/-! ### Sizes and addresses -/

/-- The mask of the alignment takes the remainder. -/
theorem and_alignment_mask (x : ℕ) : x &&& portBYTE_ALIGNMENT_MASK = x % 16 :=
  Nat.and_two_pow_sub_one_eq_mod x 4

/-- The low bits are cleared. -/
theorem and_not_mask {x k : ℕ} (h : x < 2 ^ 64) (hk : k ≤ 64) :
    x &&& (2 ^ 64 - 1 - (2 ^ k - 1)) = x / 2 ^ k * 2 ^ k := by
  have hshift : x / 2 ^ k * 2 ^ k = (x >>> k) <<< k := by
    rw [Nat.shiftLeft_eq, Nat.shiftRight_eq_div_pow]
  have hbits : 2 ^ 64 - 1 - (2 ^ k - 1) = (2 ^ (64 - k) - 1) <<< k := by
    have hpow : 2 ^ (64 - k) * 2 ^ k = 2 ^ 64 := by rw [← pow_add, Nat.sub_add_cancel hk]
    have hpos : 0 < 2 ^ k := Nat.two_pow_pos k
    rw [Nat.shiftLeft_eq, Nat.sub_mul, hpow, Nat.one_mul]
    omega
  rw [hshift, hbits]
  refine Nat.eq_of_testBit_eq fun i => ?_
  rw [Nat.testBit_and, Nat.testBit_shiftLeft, Nat.testBit_shiftLeft, Nat.testBit_shiftRight,
    Nat.testBit_two_pow_sub_one]
  by_cases hi : k ≤ i
  · rw [Nat.add_sub_cancel' hi]
    by_cases hlt : i < 64
    · have hlow : i - k < 64 - k := by omega
      simp [hi, hlow]
    · have hzero : x.testBit i = false :=
        Nat.testBit_lt_two_pow (h.trans_le (Nat.pow_le_pow_right (by decide) (not_lt.mp hlt)))
      simp [hzero]
  · simp [hi]

theorem and_alignedBits {x : ℕ} (h : x < 2 ^ 64) : x &&& alignedBits = x / 16 * 16 :=
  and_not_mask (k := 4) h (by decide)

@[simp]
theorem xHeapStructSize_eq : xHeapStructSize = 16 := by decide

@[simp]
theorem heapMINIMUM_BLOCK_SIZE_eq : heapMINIMUM_BLOCK_SIZE = 32 := by decide

/-- The size of a block for `n` bytes. -/
def roundUp (n : ℕ) : ℕ := (n + 31) / 16 * 16

/-- The size that is asked for, with its header and rounding, where nothing wraps. -/
theorem wantedSize_eq {n : ℕ} (hn : 0 < n) (hlt : n < 2 ^ 63) : Heap4.wantedSize n = roundUp n := by
  have hsum : sizeAdd n xHeapStructSize = n + 16 := by
    rw [xHeapStructSize_eq]
    exact sizeAdd_eq (by omega)
  have hmore : sizeAdd (n + 16) (16 - (n + 16) % 16) = n + 16 + (16 - (n + 16) % 16) :=
    sizeAdd_eq (by omega)
  rw [Heap4.wantedSize, hsum, if_pos ⟨hn, by omega⟩]
  simp only [and_alignment_mask, portBYTE_ALIGNMENT, hmore, roundUp]
  split
  · rw [if_pos (by omega)]
    omega
  · omega

/-- The mark of a block that is the application's. -/
def allocatedBit : ℕ := 2 ^ 63

theorem and_allocatedBit {n : ℕ} (h : n < 2 ^ 63) : n &&& allocatedBit = 0 := by
  rw [allocatedBit, Nat.and_two_pow, Nat.testBit_lt_two_pow h]
  rfl

/-- A size of 2^63 or more has the top bit. -/
theorem and_allocatedBit_ne {n : ℕ} (h : 2 ^ 63 ≤ n) (hlt : n < 2 ^ 64) :
    n &&& allocatedBit ≠ 0 := by
  have hbit : n.testBit 63 = true := by
    rw [Nat.testBit_eq_decide_div_mod_eq, decide_eq_true_iff]
    omega
  rw [allocatedBit, Nat.and_two_pow, hbit]
  decide

/-- Marking a size adds the top bit. -/
theorem or_allocatedBit {n : ℕ} (h : n < 2 ^ 63) : n ||| allocatedBit = n + 2 ^ 63 := by
  have hor := Nat.two_pow_add_eq_or_of_lt h 1
  rw [Nat.mul_one] at hor
  rw [allocatedBit, Nat.or_comm, ← hor, Nat.add_comm]

/-- Clearing the mark gives the size back. -/
theorem unmark {n : ℕ} (h : n < 2 ^ 63) :
    (n + 2 ^ 63) &&& (2 ^ 64 - 1 - allocatedBit) = n := by
  have hmask : 2 ^ 64 - 1 - allocatedBit = 2 ^ 63 - 1 := by decide
  rw [hmask, Nat.and_two_pow_sub_one_eq_mod, Nat.add_mod_right, Nat.mod_eq_of_lt h]

namespace HeapLayout

/-- The address of the first block. -/
def heapStart (L : HeapLayout) : ℕ := (L.ucHeap + 15) / 16 * 16

/-- The address of the end marker. -/
def heapEnd (L : HeapLayout) : ℕ := (L.ucHeap + configTOTAL_HEAP_SIZE - 16) / 16 * 16

/-- The span is one a block can have. -/
structure Placed (L : HeapLayout) (b : Span) : Prop where
  start_le : L.heapStart ≤ b.addr
  fin_le : b.fin ≤ L.heapEnd
  addr_mod : b.addr % 16 = 0
  size_mod : b.size % 16 = 0
  le_size : 32 ≤ b.size

variable {L : HeapLayout} {b c : Span}

/-- The start of the heap is its array, rounded up. -/
theorem pucAlignedHeap_eq (L : HeapLayout) : L.pucAlignedHeap = L.heapStart := by
  have h := L.ucHeap_inRam.2
  rw [RAM_ORIGIN, RAM_LENGTH, configTOTAL_HEAP_SIZE] at h
  rw [pucAlignedHeap, and_alignment_mask, portBYTE_ALIGNMENT, and_alignedBits (by omega), heapStart]
  split <;> omega

theorem endMarker_eq (L : HeapLayout) : L.endMarker = L.heapEnd := by
  have h := L.ucHeap_inRam.2
  have hsum : L.heapStart + L.xTotalHeapSize - xHeapStructSize =
      L.ucHeap + configTOTAL_HEAP_SIZE - 16 := by
    rw [xTotalHeapSize, pucAlignedHeap_eq, heapStart, configTOTAL_HEAP_SIZE, xHeapStructSize_eq]
    omega
  rw [RAM_ORIGIN, RAM_LENGTH] at h
  rw [endMarker, pucAlignedHeap_eq, hsum, and_alignedBits (by omega), heapEnd]

theorem heapStart_pos (L : HeapLayout) : 0 < L.heapStart := by
  have h := L.ucHeap_inRam.1
  rw [RAM_ORIGIN] at h
  rw [heapStart]
  omega

theorem heapEnd_lt (L : HeapLayout) : L.heapEnd < 2 ^ 63 := by
  have h := L.ucHeap_inRam.2
  rw [RAM_ORIGIN, RAM_LENGTH, configTOTAL_HEAP_SIZE] at h
  rw [heapEnd, configTOTAL_HEAP_SIZE]
  omega

/-- There is a block to start with, and room for the end marker. -/
theorem heapStart_add_lt (L : HeapLayout) : L.heapStart + 32 < L.heapEnd := by
  rw [heapStart, heapEnd, configTOTAL_HEAP_SIZE]
  omega

theorem le_heapStart (L : HeapLayout) : L.ucHeap ≤ L.heapStart := by
  rw [heapStart]
  omega

/-- The end marker with its header lies in the array. -/
theorem heapEnd_le (L : HeapLayout) : L.heapEnd + 16 ≤ L.ucHeap + configTOTAL_HEAP_SIZE := by
  rw [heapEnd, configTOTAL_HEAP_SIZE]
  omega

/-- A span of the heap is apart from the list's start. -/
theorem Placed.apart_xStart (h : L.Placed b) : b.Apart ⟨L.xStart, 16⟩ := by
  have hlo := h.start_le
  have hhi := h.fin_le
  have hstart := L.le_heapStart
  have hend := L.heapEnd_le
  rcases L.apart with hap | hap
  · exact .inr (by rw [fin]; simp only; omega)
  · exact .inl (by simp only; omega)

/-- The two ends of the list are apart. -/
theorem clear_xStart_heapEnd (L : HeapLayout) : Heap4.Clear L.xStart L.heapEnd := by
  have hstart := L.heapStart_add_lt
  have hle := L.le_heapStart
  have hend := L.heapEnd_le
  rcases L.apart with hap | hap
  · exact .inl (by omega)
  · exact .inr (by omega)

/-- The start of the list is apart from every block. -/
theorem Placed.clear_xStart (h : L.Placed b) : Heap4.Clear L.xStart b.addr := by
  have hsize := h.le_size
  rcases h.apart_xStart with hap | hap
  · exact .inr (by rw [fin] at hap; simp only at hap; omega)
  · exact .inl hap

/-- Two blocks that touch are placed as one. -/
theorem Placed.joined (hb : L.Placed b) (hc : L.Placed c) (htouch : b.fin = c.addr) :
    L.Placed ⟨b.addr, b.size + c.size⟩ where
  start_le := hb.start_le
  fin_le := by
    have hfin := hc.fin_le
    simp only [fin] at hfin htouch ⊢
    omega
  addr_mod := hb.addr_mod
  size_mod := by rw [Nat.add_mod, hb.size_mod, hc.size_mod]
  le_size := hb.le_size.trans (Nat.le_add_right _ _)

end HeapLayout

namespace Heap4

variable {L : HeapLayout} {s s' : Heap4} {b c : Span} {l l₁ l₂ free : List Span}
  {x y p e n fuel : ℕ}

/-! ### The free list as a whole -/

/-- The free list consists of the blocks `free`. -/
structure Listed (L : HeapLayout) (s : Heap4) (free : List Span) : Prop where
  pxEnd : s.pxEnd = L.heapEnd
  bit : s.xBlockAllocatedBit = allocatedBit
  endNext : s.pxNextFreeBlock L.heapEnd = 0
  endSize : s.xBlockSize L.heapEnd = 0
  startSize : s.xBlockSize L.xStart = 0
  chain : s.Chain L.heapEnd L.xStart free
  separate : Separate free
  placed : ∀ b ∈ free, L.Placed b

theorem roomy_of_placed (h : ∀ b ∈ l, L.Placed b) : Roomy L.heapEnd l :=
  ⟨fun b hb => le_trans (by decide) (h b hb).le_size, fun b hb => (h b hb).fin_le⟩

/-- The headers of placed blocks that are separate do not overlap. -/
theorem clear_pairwise (hsep : Separate l) (h : ∀ b ∈ l, L.Placed b) :
    l.Pairwise fun b c => Clear b.addr c.addr :=
  hsep.gap.imp_of_mem fun hb _ hlt =>
    clear_of_fin_le (le_trans (by decide) (h _ hb).le_size) hlt.le

/-- How many times a loop over the free list goes round at most. -/
def heapFuel : ℕ := configTOTAL_HEAP_SIZE / heapMINIMUM_BLOCK_SIZE

/-- There are fewer blocks than the loops have rounds. -/
theorem Listed.length_lt (h : Listed L s free) : free.length < heapFuel := by
  have hsizes : 32 * free.length ≤ total free := by
    have hle := fun b hb => (h.placed b hb).le_size
    clear h
    induction free with
    | nil => exact le_rfl
    | cons b l ih =>
      have hfirst := hle b List.mem_cons_self
      have hrest := ih fun c hc => hle c (List.mem_cons_of_mem b hc)
      rw [List.length_cons, total_cons]
      omega
  have hin := h.separate.total_le (fun b hb => (h.placed b hb).start_le)
    (fun b hb => (h.placed b hb).fin_le) ((Nat.le_add_right _ 32).trans L.heapStart_add_lt.le)
  have hstart := L.le_heapStart
  have hend := L.heapEnd_le
  have hfuel : heapFuel = 8192 := by decide
  rw [configTOTAL_HEAP_SIZE] at hend
  omega

/-- The bytes that the free list takes up. -/
def Ours (L : HeapLayout) (free : List Span) (a : ℕ) : Prop :=
  Header L.xStart a ∨ Header L.heapEnd a ∨ Inside free a

/-- What is done elsewhere leaves the free list alone. -/
theorem Listed.unchanged {P : ℕ → Prop} (h : Listed L s free) (hchanged : Changed P s s')
    (hout : ∀ a, P a → ¬Ours L free a) : Listed L s' free where
  pxEnd := hchanged.pxEnd.trans h.pxEnd
  bit := by rw [hchanged.vars, h.bit]
  endNext := (hchanged.next fun a hlo hhi ha => hout a ha (.inr (.inl ⟨hlo, by omega⟩))).trans
    h.endNext
  endSize := (hchanged.size fun a hlo hhi ha => hout a ha (.inr (.inl ⟨by omega, hhi⟩))).trans
    h.endSize
  startSize := (hchanged.size fun a hlo hhi ha => hout a ha (.inl ⟨by omega, hhi⟩)).trans
    h.startSize
  chain := h.chain.unchanged hchanged (fun a hlo hhi ha => hout a ha (.inl ⟨hlo, by omega⟩))
    fun b hb a hlo hhi ha => hout a ha (.inr (.inr ⟨b, hb, hlo, by
      have hsize := (h.placed b hb).le_size
      rw [fin]
      omega⟩))
  separate := h.separate
  placed := h.placed

/-- Where the list's start and the end marker are, there is no block. -/
theorem not_inside_of_placed (hl : ∀ b ∈ l, L.Placed b) {a : ℕ}
    (ha : Header L.xStart a ∨ Header L.heapEnd a) : ¬Inside l a := by
  rintro ⟨b, hb, hcov⟩
  rcases ha with ha | ha
  · exact (hl b hb).apart_xStart.not_covers hcov ha
  · exact absurd (hcov.2.trans_le (hl b hb).fin_le) ha.1.not_gt

/-- `prvInsertBlockIntoFreeList` puts a block into the free list. -/
theorem Listed.insert (h : Listed L s free) (hb : L.Placed b) (hapart : ∀ c ∈ free, b.Apart c)
    (hsize : s.xBlockSize b.addr = b.size) (hfuel : heapFuel ≤ fuel) :
    ∃ s', s.prvInsertBlockIntoFreeList L fuel b.addr = some s' ∧
      Changed (Touched L.xStart (b :: free)) s s' ∧ Listed L s' (insertJoin b free) := by
  have hall : ∀ c ∈ b :: free, L.Placed c := List.forall_mem_cons.mpr ⟨hb, h.placed⟩
  have hne : sizeAdd L.xStart (s.xBlockSize L.xStart) ≠ b.addr := by
    have hram := L.xStart_inRam.2
    have hclear := hb.clear_xStart
    rw [RAM_ORIGIN, RAM_LENGTH] at hram
    rw [h.startSize, sizeAdd_eq (by omega)]
    exact hclear.ne
  obtain ⟨x, hpoint, hchanged, hchain⟩ := exists_insertAfter h.pxEnd
    (L.heapEnd_lt.trans (by decide)) (roomy_of_placed hall) h.separate hapart hsize
    (fun c hc => (hall c hc).apart_xStart) hne h.chain (h.length_lt.trans_le hfuel)
  have hend : ∀ a, Header L.heapEnd a → ¬Touched L.xStart (b :: free) a := by
    rintro a ⟨hlo, hhi⟩ (⟨hxlo, hxhi⟩ | hin)
    · rcases L.clear_xStart_heapEnd with hc | hc <;> omega
    · exact not_inside_of_placed hall (.inr ⟨hlo, hhi⟩) hin
  refine ⟨s.insertAfter x b.addr, by rw [prvInsertBlockIntoFreeList, hpoint]; rfl, hchanged, ?_⟩
  exact {
    pxEnd := hchanged.pxEnd.trans h.pxEnd
    bit := by rw [hchanged.vars, h.bit]
    endNext := (hchanged.next fun a hlo hhi => hend a ⟨hlo, by omega⟩).trans h.endNext
    endSize := (hchanged.size fun a hlo hhi => hend a ⟨by omega, hhi⟩).trans h.endSize
    startSize := (hchanged.size fun a hlo hhi => by
      rintro (⟨-, hxhi⟩ | hin)
      · omega
      · exact not_inside_of_placed hall (.inl ⟨by omega, hhi⟩) hin).trans h.startSize
    chain := hchain
    separate := h.separate.insertJoin (Nat.zero_lt_of_lt hb.le_size) hapart
    placed := forall_insertJoin (fun b c hb hc => hb.joined hc) hb h.placed }

/-! ### Taking a block out -/

/-- The last header of a list that starts at `p`. -/
def lastHeader (p : ℕ) : List Span → ℕ
  | [] => p
  | b :: l => lastHeader b.addr l

/-- The header before a block is the start of the list or that of a block. -/
theorem lastHeader_mem (p : ℕ) (l : List Span) :
    lastHeader p l = p ∨ ∃ b ∈ l, lastHeader p l = b.addr := by
  induction l generalizing p with
  | nil => exact .inl rfl
  | cons b l ih =>
    rcases ih b.addr with h | ⟨c, hc, h⟩
    · exact .inr ⟨b, List.mem_cons_self, h⟩
    · exact .inr ⟨c, List.mem_cons_of_mem b hc, h⟩

/-- The header found points to the block. -/
theorem Chain.next_lastHeader (h : s.Chain e p (l₁ ++ b :: l₂)) :
    s.pxNextFreeBlock (lastHeader p l₁) = b.addr := by
  induction l₁ generalizing p with
  | nil => exact h.1
  | cons c l ih => exact ih h.2.2

/-- The link of a header in a list leads to a block or to the end. -/
theorem Chain.next_ne_zero (h : s.Chain e p l) (he : e ≠ 0) (hl : ∀ b ∈ l, b.addr ≠ 0) :
    s.pxNextFreeBlock p ≠ 0 := by
  cases l with
  | nil => rwa [show s.pxNextFreeBlock p = e from h]
  | cons b l =>
    rw [h.1]
    exact hl b List.mem_cons_self

/-- The loop finds the first block of adequate size. -/
theorem Chain.findBlock (h : s.Chain e p (l₁ ++ b :: l₂)) (he : e ≠ 0)
    (hl : ∀ c ∈ l₁ ++ b :: l₂, c.addr ≠ 0) (hsmall : ∀ c ∈ l₁, c.size < n) (hlarge : n ≤ b.size)
    (hfuel : l₁.length < fuel) :
    s.findBlock n fuel p (s.pxNextFreeBlock p) = some (lastHeader p l₁, b.addr) := by
  induction l₁ generalizing p fuel with
  | nil =>
    obtain ⟨fuel, rfl⟩ := Nat.exists_eq_add_one_of_ne_zero hfuel.ne'
    rw [Heap4.findBlock, h.1, h.2.1, if_neg fun hlt => hlarge.not_gt hlt.1]
    rfl
  | cons c l ih =>
    obtain ⟨fuel, rfl⟩ := Nat.exists_eq_add_one_of_ne_zero (Nat.zero_lt_of_lt hfuel).ne'
    obtain ⟨hnext, hsize, hrest⟩ := h
    have hl' : ∀ d ∈ l ++ b :: l₂, d.addr ≠ 0 := fun d hd => hl d (List.mem_cons_of_mem c hd)
    rw [Heap4.findBlock, hnext, hsize,
      if_pos ⟨hsmall c List.mem_cons_self, hrest.next_ne_zero he hl'⟩]
    exact ih hrest hl' (fun d hd => hsmall d (List.mem_cons_of_mem c hd))
      (Nat.lt_of_succ_lt_succ hfuel)

/-- The loop ends at the end marker where no block is of adequate size. -/
theorem Chain.findBlock_none (h : s.Chain e p l) (he : e ≠ 0) (hend : s.pxNextFreeBlock e = 0)
    (hl : ∀ c ∈ l, c.addr ≠ 0) (hsmall : ∀ c ∈ l, c.size < n) (hfuel : l.length < fuel) :
    s.findBlock n fuel p (s.pxNextFreeBlock p) = some (lastHeader p l, e) := by
  induction l generalizing p fuel with
  | nil =>
    obtain ⟨fuel, rfl⟩ := Nat.exists_eq_add_one_of_ne_zero hfuel.ne'
    rw [Heap4.findBlock, show s.pxNextFreeBlock p = e from h, hend, if_neg fun hlt => hlt.2 rfl]
    rfl
  | cons c l ih =>
    obtain ⟨fuel, rfl⟩ := Nat.exists_eq_add_one_of_ne_zero (Nat.zero_lt_of_lt hfuel).ne'
    obtain ⟨hnext, hsize, hrest⟩ := h
    have hl' : ∀ d ∈ l, d.addr ≠ 0 := fun d hd => hl d (List.mem_cons_of_mem c hd)
    rw [Heap4.findBlock, hnext, hsize,
      if_pos ⟨hsmall c List.mem_cons_self, hrest.next_ne_zero he hl'⟩]
    exact ih hrest hl' (fun d hd => hsmall d (List.mem_cons_of_mem c hd))
      (Nat.lt_of_succ_lt_succ hfuel)

/-- A block is taken out of a list by linking the one in front of it to the one behind it. -/
theorem Chain.unlink (h : s.Chain e p (l₁ ++ b :: l₂))
    (hp : ∀ c ∈ l₁ ++ b :: l₂, Clear p c.addr)
    (hl : (l₁ ++ b :: l₂).Pairwise fun b c => Clear b.addr c.addr) :
    (s.setNext (lastHeader p l₁) (s.pxNextFreeBlock b.addr)).Chain e p (l₁ ++ l₂) := by
  induction l₁ generalizing p with
  | nil =>
    rw [List.nil_append] at h hp hl
    obtain ⟨-, -, hrest⟩ := h
    have hpb := hp b List.mem_cons_self
    have hkept : (s.setNext p (s.pxNextFreeBlock b.addr)).Chain e b.addr l₂ :=
      hrest.header_changed (.header_setNext s p _) hpb
        fun c hc => hp c (List.mem_cons_of_mem b hc)
    refine hkept.relink ?_
    rw [next_setNext (s.next_lt _), next_setNext_of_clear hpb.symm]
  | cons c l ih =>
    obtain ⟨hnext, hsize, hrest⟩ := h
    obtain ⟨hc, hl'⟩ := List.pairwise_cons.mp hl
    have hpq : Clear p (lastHeader c.addr l) := by
      rcases lastHeader_mem c.addr l with heq | ⟨d, hd, heq⟩ <;> rw [heq]
      · exact hp c List.mem_cons_self
      · exact hp d (List.mem_cons_of_mem c (List.mem_append_left _ hd))
    refine ⟨(next_setNext_of_clear hpq).trans hnext, ?_, ih hrest hc hl'⟩
    rw [lastHeader]
    rcases lastHeader_mem c.addr l with heq | ⟨d, hd, heq⟩ <;> rw [heq]
    · exact size_setNext_self.trans hsize
    · exact (size_setNext_of_clear (hc d (List.mem_append_left _ hd))).trans hsize

/-- The first block of adequate size. -/
theorem first_fit (l : List Span) (n : ℕ) : (∀ c ∈ l, c.size < n) ∨
    ∃ l₁ b l₂, l = l₁ ++ b :: l₂ ∧ (∀ c ∈ l₁, c.size < n) ∧ n ≤ b.size := by
  induction l with
  | nil => exact .inl (by simp)
  | cons c l ih =>
    by_cases hc : c.size < n
    · rcases ih with hall | ⟨l₁, b, l₂, rfl, hsmall, hlarge⟩
      · exact .inl (List.forall_mem_cons.mpr ⟨hc, hall⟩)
      · exact .inr ⟨c :: l₁, b, l₂, rfl, List.forall_mem_cons.mpr ⟨hc, hsmall⟩, hlarge⟩
    · exact .inr ⟨[], c, l, rfl, by simp, not_lt.mp hc⟩

/-- A block leaves the free list, and keeps its size. -/
theorem Listed.unlink (h : Listed L s (l₁ ++ b :: l₂)) :
    Listed L (s.setNext (lastHeader L.xStart l₁) (s.pxNextFreeBlock b.addr)) (l₁ ++ l₂) ∧
      (s.setNext (lastHeader L.xStart l₁) (s.pxNextFreeBlock b.addr)).xBlockSize b.addr = b.size ∧
      Changed (Touched L.xStart (l₁ ++ b :: l₂)) s
        (s.setNext (lastHeader L.xStart l₁) (s.pxNextFreeBlock b.addr)) := by
  have hsub : (l₁ ++ l₂).Sublist (l₁ ++ b :: l₂) := (List.sublist_cons_self b l₂).append_left l₁
  have hpairs := clear_pairwise h.separate h.placed
  have hstart : ∀ c ∈ l₁ ++ b :: l₂, Clear L.xStart c.addr :=
    fun c hc => (h.placed c hc).clear_xStart
  have hb : b ∈ l₁ ++ b :: l₂ := by simp
  have hend : ∀ c ∈ l₁ ++ b :: l₂, Clear c.addr L.heapEnd := fun c hc =>
    clear_of_fin_le (le_trans (by decide) (h.placed c hc).le_size) (h.placed c hc).fin_le
  -- The header that changes is the list's start or that of a block in front.
  have hlast := lastHeader_mem L.xStart l₁
  have hclear : Clear (lastHeader L.xStart l₁) L.heapEnd ∧
      Clear (lastHeader L.xStart l₁) b.addr := by
    rcases hlast with heq | ⟨c, hc, heq⟩ <;> rw [heq]
    · exact ⟨L.clear_xStart_heapEnd, hstart b hb⟩
    · exact ⟨hend c (List.mem_append_left _ hc),
        (List.pairwise_append.mp hpairs).2.2 c hc b List.mem_cons_self⟩
  refine ⟨?_, ?_, .setNext fun a hlo hhi => ?_⟩
  · exact {
      pxEnd := h.pxEnd
      bit := h.bit
      endNext := (next_setNext_of_clear hclear.1.symm).trans h.endNext
      endSize := (size_setNext_of_clear hclear.1.symm).trans h.endSize
      startSize := by
        rcases hlast with heq | ⟨c, hc, heq⟩ <;> rw [heq]
        · exact size_setNext_self.trans h.startSize
        · exact (size_setNext_of_clear (hstart c (List.mem_append_left _ hc))).trans h.startSize
      chain := h.chain.unlink hstart hpairs
      separate := h.separate.sublist hsub
      placed := fun c hc => h.placed c (hsub.subset hc) }
  · obtain ⟨-, hsize, -⟩ := chain_append.mp h.chain
    exact (size_setNext_of_clear hclear.2.symm).trans hsize
  · rcases hlast with heq | ⟨c, hc, heq⟩ <;> rw [heq] at hlo hhi
    · exact .inl ⟨hlo, hhi⟩
    · have hsize := (h.placed c (List.mem_append_left _ hc)).le_size
      exact .inr ⟨c, List.mem_append_left _ hc, hlo, by rw [fin]; omega⟩

/-- How much of a block of `size` bytes is handed out where `n` are wanted. -/
def takenSize (size n : ℕ) : ℕ := if heapMINIMUM_BLOCK_SIZE < size - n then n else size

theorem le_takenSize {size : ℕ} (h : n ≤ size) : n ≤ takenSize size n := by
  rw [takenSize]
  split
  exacts [le_rfl, h]

theorem takenSize_le {size : ℕ} (h : n ≤ size) : takenSize size n ≤ size := by
  rw [takenSize]
  split
  exacts [h, le_rfl]

/-- What is too much of a block goes back into the free list. -/
theorem Listed.splitBlock (h : Listed L s free) (hb : L.Placed b)
    (hapart : ∀ c ∈ free, b.Apart c) (hsize : s.xBlockSize b.addr = b.size) (hn : 32 ≤ n)
    (hmod : n % 16 = 0) (hle : n ≤ b.size) (hfuel : heapFuel ≤ fuel) :
    ∃ s' free', s.splitBlock L fuel b.addr n = some s' ∧ Listed L s' free' ∧
      s'.xBlockSize b.addr = takenSize b.size n ∧ Changed (Touched L.xStart (b :: free)) s s' ∧
      total free' + takenSize b.size n = total free + b.size ∧
      ∀ a, Inside free' a ↔ Inside free a ∨
        (b.Covers a ∧ ¬Covers ⟨b.addr, takenSize b.size n⟩ a) := by
  have hfin := hb.fin_le
  have hend := L.heapEnd_lt
  rw [fin] at hfin
  have hrest : sizeSub b.size n = b.size - n := sizeSub_eq hle (by omega)
  rw [Heap4.splitBlock, hsize, hrest]
  split
  · next hmore =>
    have htaken : takenSize b.size n = n := if_pos hmore
    rw [heapMINIMUM_BLOCK_SIZE_eq] at hmore
    rw [htaken, sizeAdd_eq (by omega)]
    -- Both headers lie in the block.
    have hchanged : Changed b.Covers s
        ((s.setSize (b.addr + n) (b.size - n)).setSize b.addr n) :=
      Changed.trans
        (.setSize fun a hlo hhi => ⟨by omega, by rw [fin]; omega⟩)
        (.setSize fun a hlo hhi => ⟨by omega, by rw [fin]; omega⟩)
    have hlisted := h.unchanged hchanged fun a ha hours => by
      rcases hours with hx | hx | hin
      · exact not_inside_of_placed (l := [b]) (by simpa using hb) (.inl hx) (by simpa using ha)
      · exact not_inside_of_placed (l := [b]) (by simpa using hb) (.inr hx) (by simpa using ha)
      · obtain ⟨c, hc, hcov⟩ := hin
        exact (hapart c hc).not_covers ha hcov
    have hclear : Clear (b.addr + n) b.addr := .inr (by omega)
    have hr : L.Placed ⟨b.addr + n, b.size - n⟩ := by
      have hstart := hb.start_le
      have haddr := hb.addr_mod
      have hbmod := hb.size_mod
      exact ⟨hstart.trans (Nat.le_add_right _ _), by simp only [fin]; omega, by simp only; omega,
        by simp only; omega, by simp only; omega⟩
    have hrapart : ∀ c ∈ free, Apart ⟨b.addr + n, b.size - n⟩ c := fun c hc => by
      have hbc := hapart c hc
      simp only [Apart, fin] at hbc ⊢
      omega
    obtain ⟨s', hinsert, htouched, hlisted'⟩ := hlisted.insert hr hrapart
      (by rw [size_setSize_of_clear hclear]; exact size_setSize (by omega)) hfuel
    refine ⟨s', insertJoin ⟨b.addr + n, b.size - n⟩ free, hinsert, hlisted', ?_, ?_, ?_,
      fun a => ?_⟩
    · refine (htouched.size fun a hlo hhi ha => ?_).trans (size_setSize (by omega))
      have hcov : b.Covers a := ⟨by omega, by rw [fin]; omega⟩
      rcases ha with ⟨hxlo, hxhi⟩ | hin
      · exact hb.apart_xStart.not_covers hcov ⟨hxlo, by simp only [fin]; omega⟩
      · rcases inside_cons.mp hin with hr | ⟨c, hc, hcov'⟩
        · exact absurd hr.1 (by simp only; omega)
        · exact (hapart c hc).not_covers hcov hcov'
    · refine (hchanged.mono fun a ha => .inr (inside_cons.mpr (.inl ha))).trans
        (htouched.mono fun a ha => ha.imp_right fun hin => ?_)
      rw [inside_cons] at hin ⊢
      exact hin.imp_left fun hr => ⟨(Nat.le_add_right _ _).trans hr.1, by
        have hhi := hr.2
        simp only [fin] at hhi ⊢
        omega⟩
    · rw [total_insertJoin]
      simp only
      omega
    · rw [inside_insertJoin, or_comm]
      refine or_congr Iff.rfl ?_
      simp only [Covers, fin]
      omega
  · next hless =>
    have htaken : takenSize b.size n = b.size := if_neg hless
    rw [htaken]
    refine ⟨s, free, rfl, h, hsize, .refl s, rfl, fun a => ?_⟩
    simp

/-! ### Handing out -/

/-- Only memory has changed, and of the counters what an allocation of `size` bytes changes. -/
structure Counted (size : ℕ) (s s' : Heap4) : Prop where
  remaining : s'.xFreeBytesRemaining = sizeSub s.xFreeBytesRemaining size
  minimum : s'.xMinimumEverFreeBytesRemaining =
    min s.xMinimumEverFreeBytesRemaining s'.xFreeBytesRemaining
  allocations : s'.xNumberOfSuccessfulAllocations = sizeAdd s.xNumberOfSuccessfulAllocations 1
  frees : s'.xNumberOfSuccessfulFrees = s.xNumberOfSuccessfulFrees

/-- The block `g` has been taken out of the free blocks and handed out. -/
structure Took (L : HeapLayout) (g : Span) (free free' : List Span) (s s' : Heap4) : Prop where
  listed : Listed L s' free'
  placed : L.Placed g
  covered : ∀ a, g.Covers a → Inside free a
  inside : ∀ a, Inside free' a ↔ Inside free a ∧ ¬g.Covers a
  total : total free' + g.size = total free
  next : s'.pxNextFreeBlock g.addr = 0
  size : s'.xBlockSize g.addr = g.size + 2 ^ 63
  mem : ∀ a, ¬Inside free a → ¬Header L.xStart a → s'.mem a = s.mem a
  counted : Counted g.size s s'

/-- Handing out a block marks its size and clears its pointer. -/
theorem handOut_mem (s : Heap4) (x : ℕ) : (s.handOut x).mem =
    ((s.setSize x (s.xBlockSize x ||| s.xBlockAllocatedBit)).setNext x 0).mem := by
  simp only [handOut, setSize, setNext, xBlockSize]

theorem counted_handOut (s : Heap4) (x : ℕ) : Counted (s.xBlockSize x) s (s.handOut x) where
  remaining := by simp only [handOut, setNext, setSize]
  minimum := by
    simp only [handOut, setNext, setSize]
    rw [min_comm, min_def]
    split <;> split <;> omega
  allocations := by simp only [handOut, setNext, setSize]
  frees := by simp only [handOut, setNext, setSize]

/-- The list looks at memory, the end marker and the mark. -/
theorem Listed.congr (h : Listed L s free) (hmem : s'.mem = s.mem) (hend : s'.pxEnd = s.pxEnd)
    (hbit : s'.xBlockAllocatedBit = s.xBlockAllocatedBit) : Listed L s' free := by
  have hnext : ∀ x, s'.pxNextFreeBlock x = s.pxNextFreeBlock x := fun x => by
    rw [pxNextFreeBlock, pxNextFreeBlock, hmem]
  have hsize : ∀ x, s'.xBlockSize x = s.xBlockSize x := fun x => by
    rw [xBlockSize, xBlockSize, hmem]
  exact {
    pxEnd := hend.trans h.pxEnd
    bit := hbit.trans h.bit
    endNext := (hnext _).trans h.endNext
    endSize := (hsize _).trans h.endSize
    startSize := (hsize _).trans h.startSize
    chain := h.chain.congr (hnext _) fun b _ => ⟨hnext _, hsize _⟩
    separate := h.separate
    placed := h.placed }

/-- The block is counted and marked. -/
theorem Listed.handOut (h : Listed L s free) (hb : L.Placed b)
    (hout : ∀ a, b.Covers a → ¬Inside free a) (hsize : s.xBlockSize b.addr = b.size) :
    Listed L (s.handOut b.addr) free ∧ (s.handOut b.addr).pxNextFreeBlock b.addr = 0 ∧
      (s.handOut b.addr).xBlockSize b.addr = b.size + 2 ^ 63 ∧
      (∀ a, ¬b.Covers a → (s.handOut b.addr).mem a = s.mem a) ∧
      Counted b.size s (s.handOut b.addr) := by
  have hle := hb.le_size
  have hlt : b.size < 2 ^ 63 := by
    have hfin := hb.fin_le
    have hend := L.heapEnd_lt
    rw [fin] at hfin
    omega
  -- The size has no top bit yet, and gets it.
  have hmark : s.xBlockSize b.addr ||| s.xBlockAllocatedBit = b.size + 2 ^ 63 := by
    rw [hsize, h.bit, or_allocatedBit hlt]
  have hchanged : Changed b.Covers s ((s.setSize b.addr (b.size + 2 ^ 63)).setNext b.addr 0) :=
    Changed.trans (.setSize fun a hlo hhi => ⟨by omega, by rw [fin]; omega⟩)
      (.setNext fun a hlo hhi => ⟨hlo, by rw [fin]; omega⟩)
  have hmem : (s.handOut b.addr).mem =
      ((s.setSize b.addr (b.size + 2 ^ 63)).setNext b.addr 0).mem := by
    rw [handOut_mem, hmark]
  have hlisted := h.unchanged hchanged fun a ha hours => by
    rcases hours with hx | hx | hin
    · exact not_inside_of_placed (l := [b]) (by simpa using hb) (.inl hx) (by simpa using ha)
    · exact not_inside_of_placed (l := [b]) (by simpa using hb) (.inr hx) (by simpa using ha)
    · exact hout a ha hin
  have hnext : ((s.setSize b.addr (b.size + 2 ^ 63)).setNext b.addr 0).pxNextFreeBlock b.addr =
      0 := next_setNext (by decide)
  have hmarked : ((s.setSize b.addr (b.size + 2 ^ 63)).setNext b.addr 0).xBlockSize b.addr =
      b.size + 2 ^ 63 := size_setNext_self.trans (size_setSize (by omega))
  refine ⟨hlisted.congr hmem ?_ ?_, ?_, ?_, fun a ha => ?_, hsize ▸ counted_handOut s b.addr⟩
  · simp only [Heap4.handOut, setNext, setSize]
  · simp only [Heap4.handOut, setNext, setSize]
  · rw [← hnext, pxNextFreeBlock, pxNextFreeBlock, hmem]
  · rw [← hmarked, xBlockSize, xBlockSize, hmem]
  · rw [hmem]
    exact hchanged.mem a ha

/-- Writing headers leaves the counters alone. -/
theorem Changed.counted {P : ℕ → Prop} {s₁ : Heap4} (h : Changed P s s₁)
    (h' : Counted n s₁ s') : Counted n s s' := by
  obtain ⟨hr, hm, ha, hf⟩ := h'
  constructor
  · rw [hr, h.vars]
  · rw [hm, h.vars]
  · rw [ha, h.vars]
  · rw [hf, h.vars]

/-- What is handed out of a block is one itself. -/
theorem placed_taken (hb : L.Placed b) (hn : 32 ≤ n) (hmod : n % 16 = 0) (hle : n ≤ b.size) :
    L.Placed ⟨b.addr, takenSize b.size n⟩ where
  start_le := hb.start_le
  fin_le := le_trans (Nat.add_le_add_left (takenSize_le hle) b.addr) hb.fin_le
  addr_mod := hb.addr_mod
  size_mod := by
    have hsize := hb.size_mod
    simp only [takenSize]
    split
    exacts [hmod, hsize]
  le_size := hn.trans (le_takenSize hle)

/-- An allocation hands out the beginning of the first block of adequate size, and nothing
where there is none. -/
theorem Listed.allocate (h : Listed L s free) (hfree : s.xFreeBytesRemaining = total free)
    (hn : n < 2 ^ 64) (hfuel : heapFuel ≤ fuel) :
    ((n = 0 ∨ 2 ^ 63 ≤ n ∨ ∀ b ∈ free, b.size < roundUp n) ∧
      s.allocate L fuel n = some (0, s)) ∨
    ∃ l₁ b l₂ free' s', (0 < n ∧ n < 2 ^ 63) ∧ free = l₁ ++ b :: l₂ ∧
      (∀ c ∈ l₁, c.size < roundUp n) ∧ roundUp n ≤ b.size ∧
      s.allocate L fuel n = some (b.addr + 16, s') ∧
      Took L ⟨b.addr, takenSize b.size (roundUp n)⟩ free free' s s' := by
  have he : L.heapEnd ≠ 0 := by
    have hstart := L.heapStart_add_lt
    omega
  have hne : ∀ b ∈ free, b.addr ≠ 0 := fun b hb =>
    (L.heapStart_pos.trans_le (h.placed b hb).start_le).ne'
  rw [Heap4.allocate, h.bit]
  by_cases hbig : 2 ^ 63 ≤ n
  · exact .inl ⟨.inr (.inl hbig), if_neg (and_allocatedBit_ne hbig hn)⟩
  rw [if_pos (and_allocatedBit (not_le.mp hbig))]
  rcases Nat.eq_zero_or_pos n with rfl | hpos
  · exact .inl ⟨.inl rfl, if_neg fun hw => absurd hw.1 (by decide)⟩
  have hlt := not_le.mp hbig
  have hround : 32 ≤ roundUp n ∧ roundUp n % 16 = 0 := by
    rw [roundUp]
    omega
  rw [wantedSize_eq hpos hlt]
  -- Either all free blocks are too small, or there is a first that is large enough.
  rcases first_fit free (roundUp n) with hsmall | ⟨l₁, b, l₂, rfl, hsmall, hlarge⟩
  · refine .inl ⟨.inr (.inr hsmall), ?_⟩
    split
    · have hfind := h.chain.findBlock_none he h.endNext hne hsmall (h.length_lt.trans_le hfuel)
      rw [hfind, Option.bind_some]
      dsimp only
      rw [takeBlock, if_pos h.pxEnd.symm]
    · rfl
  · right
    have hb : b ∈ l₁ ++ b :: l₂ := by simp
    have hplaced := h.placed b hb
    have hlen : l₁.length < fuel := by
      have hlen := h.length_lt.trans_le hfuel
      rw [List.length_append] at hlen
      omega
    -- The search stops at the first block that is large enough.
    have hfind := h.chain.findBlock he hne hsmall hlarge hlen
    have hbend : b.addr ≠ L.heapEnd := by
      have hfin := hplaced.fin_le
      have hsize := hplaced.le_size
      rw [fin] at hfin
      omega
    have hret : sizeAdd (s.pxNextFreeBlock (lastHeader L.xStart l₁)) xHeapStructSize =
        b.addr + 16 := by
      have hfin := hplaced.fin_le
      have hsize := hplaced.le_size
      have hend := L.heapEnd_lt
      rw [fin] at hfin
      rw [h.chain.next_lastHeader, xHeapStructSize_eq]
      exact sizeAdd_eq (by omega)
    have hroom : roundUp n ≤ s.xFreeBytesRemaining := hfree ▸ hlarge.trans (size_le_total hb)
    rw [if_pos ⟨by omega, hroom⟩, hfind, Option.bind_some]
    obtain ⟨hunlinked, hbsize, hchanged⟩ := h.unlink
    have hapart : ∀ c ∈ l₁ ++ l₂, b.Apart c := fun c hc => h.separate.apart_others hc
    -- What is left of it, if it is large enough for a block, goes back into the list.
    obtain ⟨s₂, free', hsplit, hlisted, hsize, hchanged₂, htotal, hinside⟩ :=
      hunlinked.splitBlock hplaced hapart hbsize hround.1 hround.2 hlarge hfuel
    have hresult : s.takeBlock L fuel (roundUp n) (lastHeader L.xStart l₁) b.addr =
        some (b.addr + 16, s₂.handOut b.addr) := by
      rw [takeBlock, if_neg (h.pxEnd ▸ hbend)]
      simp only [hret, hsplit, Option.map_some]
    refine ⟨l₁, b, l₂, free', s₂.handOut b.addr, ⟨hpos, hlt⟩, rfl, hsmall, hlarge, hresult, ?_⟩
    have hg := placed_taken hplaced hround.1 hround.2 hlarge
    have hgb : ∀ a, Covers ⟨b.addr, takenSize b.size (roundUp n)⟩ a → b.Covers a := fun a ha =>
      ⟨ha.1, ha.2.trans_le (Nat.add_le_add_left (takenSize_le hlarge) b.addr)⟩
    have hother : ∀ a, b.Covers a → ¬Inside (l₁ ++ l₂) a := by
      rintro a ha ⟨c, hc, hcov⟩
      exact (hapart c hc).not_covers ha hcov
    have hsplitIn : ∀ a, Inside (l₁ ++ b :: l₂) a ↔ b.Covers a ∨ Inside (l₁ ++ l₂) a := fun a => by
      rw [inside_append, inside_cons, inside_append, or_left_comm]
    -- Its header is marked last, and lies in no free block.
    obtain ⟨hlisted', hnext, hmarked, hmem, hcounted⟩ := hlisted.handOut hg
      (fun a ha hin => ((hinside a).mp hin).elim (hother a (hgb a ha)) fun hrest => hrest.2 ha)
      hsize
    exact {
      listed := hlisted'
      placed := hg
      covered := fun a ha => ⟨b, hb, hgb a ha⟩
      inside := fun a => by
        rw [hinside, hsplitIn, or_and_right, or_comm]
        refine or_congr Iff.rfl ⟨fun hin => ⟨hin, fun ha => hother a (hgb a ha) hin⟩, And.left⟩
      total := by
        rw [htotal, total_append, total_append, total_cons]
        omega
      next := hnext
      size := hmarked
      -- Nothing outside the free blocks and the start of the list has been written.
      mem := fun a ha hx => by
        have hout : ∀ l, (∀ a, Inside l a → Inside (l₁ ++ b :: l₂) a) → ¬Touched L.xStart l a :=
          fun l hl => by
            rintro (⟨hlo, hhi⟩ | hin)
            exacts [hx ⟨hlo, by omega⟩, ha (hl a hin)]
        rw [hmem a fun hcov => ha ⟨b, hb, hgb a hcov⟩,
          hchanged₂.mem a (hout _ fun a hin => (hsplitIn a).mpr (inside_cons.mp hin)),
          hchanged.mem a (hout _ fun a hin => hin)]
      counted := (hchanged.trans (hchanged₂.mono fun a ha => ha.imp_right fun hin =>
        (hsplitIn a).mpr (inside_cons.mp hin))).counted hcounted }

/-! ### The beginning -/

/-- The heap as one free block. -/
def wholeHeap (L : HeapLayout) : Span := ⟨L.heapStart, L.heapEnd - L.heapStart⟩

@[simp]
theorem wholeHeap_addr (L : HeapLayout) : (wholeHeap L).addr = L.heapStart := rfl

@[simp]
theorem wholeHeap_size (L : HeapLayout) : (wholeHeap L).size = L.heapEnd - L.heapStart := rfl

theorem placed_wholeHeap (L : HeapLayout) : L.Placed (wholeHeap L) := by
  have hlt := L.heapStart_add_lt
  refine ⟨le_rfl, ?_, ?_, ?_, ?_⟩ <;> simp only [wholeHeap, fin, HeapLayout.heapStart,
    HeapLayout.heapEnd] at hlt ⊢ <;> omega

/-- `prvHeapInit` makes the heap one free block. -/
theorem listed_prvHeapInit (L : HeapLayout) (s : Heap4) :
    Listed L (s.prvHeapInit L) [wholeHeap L] ∧
      (s.prvHeapInit L).xFreeBytesRemaining = total [wholeHeap L] ∧
      (s.prvHeapInit L).xMinimumEverFreeBytesRemaining = total [wholeHeap L] ∧
      (s.prvHeapInit L).xNumberOfSuccessfulAllocations = s.xNumberOfSuccessfulAllocations ∧
      (s.prvHeapInit L).xNumberOfSuccessfulFrees = s.xNumberOfSuccessfulFrees := by
  have hstart : Clear L.xStart L.heapStart := (placed_wholeHeap L).clear_xStart
  have hend := L.clear_xStart_heapEnd
  have hadd := L.heapStart_add_lt
  have hlt := L.heapEnd_lt
  have hfirst : Clear L.heapStart L.heapEnd := .inl (by omega)
  -- The headers are written one after another.
  have hheaders : s.initHeaders L = (((((s.setNext L.xStart L.heapStart).setSize L.xStart 0).setSize
      L.heapEnd 0).setNext L.heapEnd 0).setSize L.heapStart (L.heapEnd - L.heapStart)).setNext
        L.heapStart L.heapEnd := by
    rw [initHeaders, L.pucAlignedHeap_eq, L.endMarker_eq]
  have hnext : ∀ x, (s.prvHeapInit L).pxNextFreeBlock x = (s.initHeaders L).pxNextFreeBlock x :=
    fun x => by rw [pxNextFreeBlock, pxNextFreeBlock, prvHeapInit]
  have hsize : ∀ x, (s.prvHeapInit L).xBlockSize x = (s.initHeaders L).xBlockSize x :=
    fun x => by rw [xBlockSize, xBlockSize, prvHeapInit]
  rw [hheaders] at hnext hsize
  have hwhole : (s.prvHeapInit L).xBlockSize L.heapStart = L.heapEnd - L.heapStart := by
    rw [hsize, size_setNext_self, size_setSize (by omega)]
  have hfree : (s.prvHeapInit L).xFreeBytesRemaining = L.heapEnd - L.heapStart := by
    rw [← hwhole, hsize, ← hheaders, prvHeapInit, L.pucAlignedHeap_eq]
  have hmin : (s.prvHeapInit L).xMinimumEverFreeBytesRemaining = L.heapEnd - L.heapStart := by
    rw [← hwhole, hsize, ← hheaders, prvHeapInit, L.pucAlignedHeap_eq]
  have htotal : total [wholeHeap L] = L.heapEnd - L.heapStart := by simp
  have hbit : (s.prvHeapInit L).xBlockAllocatedBit = allocatedBit := by
    have hshift : 1 <<< (8 * 8 - 1) = allocatedBit := by decide
    rw [prvHeapInit, ← hshift]
  refine ⟨?_, by rw [hfree, htotal], by rw [hmin, htotal], ?_, ?_⟩
  · exact {
      pxEnd := by rw [prvHeapInit, L.endMarker_eq]
      bit := hbit
      endNext := by
        rw [hnext, next_setNext_of_clear hfirst.symm, next_setSize_of_clear hfirst.symm,
          next_setNext (by decide)]
      endSize := by
        rw [hsize, size_setNext_of_clear hfirst.symm, size_setSize_of_clear hfirst.symm,
          size_setNext_self, size_setSize (by decide)]
      startSize := by
        rw [hsize, size_setNext_of_clear hstart, size_setSize_of_clear hstart,
          size_setNext_of_clear hend, size_setSize_of_clear hend, size_setSize (by decide)]
      chain := by
        rw [Chain, Chain, wholeHeap_addr, wholeHeap_size, hnext, hnext]
        refine ⟨?_, hwhole, next_setNext (by omega)⟩
        rw [next_setNext_of_clear hstart, next_setSize_of_clear hstart,
          next_setNext_of_clear hend, next_setSize_of_clear hend, next_setSize_self,
          next_setNext (by omega)]
      separate := .cons (by rw [wholeHeap_size]; omega) (by simp) .nil
      placed := by simpa using placed_wholeHeap L }
  · rw [prvHeapInit]
    simp only [initHeaders, setNext_allocations, setSize_allocations]
  · rw [prvHeapInit]
    simp only [initHeaders, setNext_frees, setSize_frees]

/-! ### Taking back -/

/-- The header lies in front of the pointer that is handed out. -/
theorem sizeSub_header (b : Span) (hlt : b.addr + 16 < 2 ^ 64) :
    sizeSub (b.addr + 16) xHeapStructSize = b.addr := by
  rw [xHeapStructSize_eq, sizeSub_eq (Nat.le_add_left _ _) hlt, Nat.add_sub_cancel]

theorem addr_lt_of_placed (hb : L.Placed b) : b.addr + 16 < 2 ^ 64 ∧ b.size < 2 ^ 63 := by
  have hfin := hb.fin_le
  have hsize := hb.le_size
  have hend := L.heapEnd_lt
  rw [fin] at hfin
  omega

/-- The mark is taken off a block. -/
theorem freeCheck_marked (hbit : s.xBlockAllocatedBit = allocatedBit) (hb : L.Placed b)
    (hnext : s.pxNextFreeBlock b.addr = 0) (hsize : s.xBlockSize b.addr = b.size + 2 ^ 63) :
    ∃ s', s.freeCheck (b.addr + 16) = some s' ∧ Changed (Header b.addr) s s' ∧
      s'.xBlockSize b.addr = b.size := by
  obtain ⟨haddr, hlt⟩ := addr_lt_of_placed hb
  have hmarked : s.xBlockSize b.addr &&& allocatedBit ≠ 0 := by
    rw [hsize]
    exact and_allocatedBit_ne (Nat.le_add_left _ _) (by omega)
  have hunmarked : s.xBlockSize b.addr &&& (2 ^ 64 - 1 - allocatedBit) = b.size := by
    rw [hsize]
    exact unmark hlt
  refine ⟨s.setSize b.addr b.size, ?_, .header_setSize s _ _, size_setSize (by omega)⟩
  rw [freeCheck]
  simp only [sizeSub_header b haddr, hbit, hunmarked]
  exact if_pos ⟨hmarked, hnext⟩

/-- A block that is not marked is not taken back. -/
theorem freeCheck_unmarked (hbit : s.xBlockAllocatedBit = allocatedBit) (hb : L.Placed b)
    (hsize : s.xBlockSize b.addr < 2 ^ 63) : s.freeCheck (b.addr + 16) = none := by
  rw [freeCheck]
  simp only [sizeSub_header b (addr_lt_of_placed hb).1, hbit]
  exact if_neg fun h => h.1 (and_allocatedBit hsize)

/-- The block `b` has been put back among the free blocks. -/
structure Gave (L : HeapLayout) (b : Span) (free : List Span) (s s' : Heap4) : Prop where
  listed : Listed L s' (insertJoin b free)
  mem : ∀ a, ¬Inside (b :: free) a → ¬Header L.xStart a → s'.mem a = s.mem a
  remaining : s'.xFreeBytesRemaining = s.xFreeBytesRemaining + b.size
  minimum : s'.xMinimumEverFreeBytesRemaining = s.xMinimumEverFreeBytesRemaining
  allocations : s'.xNumberOfSuccessfulAllocations = s.xNumberOfSuccessfulAllocations
  frees : s'.xNumberOfSuccessfulFrees = sizeAdd s.xNumberOfSuccessfulFrees 1

/-- A block is put back among the free blocks. -/
theorem Listed.freeInsert (h : Listed L s free) (hb : L.Placed b) (hapart : ∀ c ∈ free, b.Apart c)
    (hsize : s.xBlockSize b.addr = b.size) (hsum : s.xFreeBytesRemaining + b.size < 2 ^ 64)
    (hfuel : heapFuel ≤ fuel) :
    ∃ s', s.freeInsert L fuel (b.addr + 16) = some s' ∧ Gave L b free s s' := by
  set s₁ : Heap4 := { s with xFreeBytesRemaining := s.xFreeBytesRemaining + b.size } with hs₁
  have h₁ : Listed L s₁ free := h.congr rfl rfl rfl
  obtain ⟨s₂, hinsert, hchanged, hlisted⟩ := h₁.insert hb hapart hsize hfuel
  refine ⟨{ s₂ with xNumberOfSuccessfulFrees := sizeAdd s₂.xNumberOfSuccessfulFrees 1 }, ?_, ?_⟩
  · rw [Heap4.freeInsert]
    simp only [sizeSub_header b (addr_lt_of_placed hb).1, hsize, sizeAdd_eq hsum]
    rw [← hs₁, hinsert, Option.map_some]
  · have hvars := hchanged.vars
    exact {
      listed := hlisted.congr rfl rfl rfl
      mem := fun a ha hx => hchanged.mem a fun ht =>
        ht.elim (fun hin => hx ⟨hin.1, by omega⟩) ha
      remaining := by rw [hvars]
      minimum := by rw [hvars]
      allocations := by rw [hvars]
      frees := by rw [hvars] }

end Heap4

end C906Firmware
