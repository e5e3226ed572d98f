import C906Firmware.Heap.Allocation
import Mathlib.Data.List.Perm.Lattice

/-!
# The heap among its users

Tasks and interrupt handlers allocate memory, write to what they have been given and release it, in
any order. Between the check of `__internal_free` and its stretch with interrupts disabled others
may run, so that a block that is being released is for a while neither in use nor free.

The blocks that are handed out and the free blocks make up the heap (`Session.Inv`), and the calls
keep it so (`Reachable.sound`). Then what is handed out is apart and stays as its user left it
(`Reachable.handed_out`), an allocation fails only where no room is (`Reachable.malloc_iff`), and
the free list depends on nothing but the blocks in use (`Reachable.free_list_eq`).
-/

namespace C906Firmware

open LittleEndian Span

/-- Memory that has been handed out: the address of its block, the bytes that were asked for, and
the size of the block. -/
structure Lease where
  addr : ℕ
  len : ℕ
  size : ℕ
deriving DecidableEq

namespace Lease

/-- The pointer that the user has. -/
def ptr (g : Lease) : ℕ := g.addr + xHeapStructSize

/-- The block, with its header. -/
def span (g : Lease) : Span := ⟨g.addr, g.size⟩

/-- The byte is one the user has asked for. -/
def Has (g : Lease) (a : ℕ) : Prop := g.ptr ≤ a ∧ a < g.ptr + g.len

instance (g : Lease) (a : ℕ) : Decidable (g.Has a) := inferInstanceAs (Decidable (_ ∧ _))

end Lease

/-- The heap with what is known of its users. -/
structure Session where
  heap : Heap4
  /-- In use. -/
  live : List Lease
  /-- Checked by `__internal_free`, and not yet in the free list. -/
  freeing : List Lease
  /-- What a user has written since the memory was handed out. -/
  written : ℕ → Option (BitVec 8)

/-- What a user does. -/
inductive UserAct
  /-- `__internal_malloc` -/
  | malloc (n : ℕ)
  /-- `__internal_free`, up to where interrupts are disabled. -/
  | freeCheck (g : Lease)
  /-- `__internal_free`, with interrupts disabled. -/
  | freeInsert (g : Lease)
  /-- The user writes a byte. -/
  | write (a : ℕ) (b : BitVec 8)

namespace Session

/-- The blocks that are not free. -/
def leases (s : Session) : List Lease := s.live ++ s.freeing

/-- What they take up. -/
def spans (s : Session) : List Span := s.leases.map Lease.span

/-- Memory is handed out to a user, or it is not. -/
def given (s : Session) (n : ℕ) (r : ℕ × Heap4) : Session :=
  if r.1 = 0 then { s with heap := r.2 }
  else
    let addr := sizeSub r.1 xHeapStructSize
    let g : Lease := ⟨addr, n, r.2.xBlockSize addr % 2 ^ 63⟩
    { s with
      heap := r.2
      live := g :: s.live
      written := fun a => if g.Has a then none else s.written a }

/-- What users keep to: they release what is in use, and write to what they have been given. -/
def Allowed (s : Session) : UserAct → Prop
  | .malloc n => n < 2 ^ 64
  | .freeCheck g => g ∈ s.live
  | .freeInsert g => g ∈ s.freeing
  | .write a _ => ∃ g ∈ s.live, g.Has a

instance (s : Session) : DecidablePred s.Allowed
  | .malloc n => inferInstanceAs (Decidable (n < 2 ^ 64))
  | .freeCheck g => inferInstanceAs (Decidable (g ∈ s.live))
  | .freeInsert g => inferInstanceAs (Decidable (g ∈ s.freeing))
  | .write a _ => inferInstanceAs (Decidable (∃ g ∈ s.live, g.Has a))

/-- What a user does to the heap. -/
def act (L : HeapLayout) (fuel : ℕ) (s : Session) : UserAct → Option Session
  | .malloc n => (s.heap.internalMalloc L fuel n).map (s.given n)
  | .freeCheck g => (s.heap.freeCheck g.ptr).map fun h =>
    { s with heap := h, live := s.live.erase g, freeing := g :: s.freeing }
  | .freeInsert g => (s.heap.freeInsert L fuel g.ptr).map fun h =>
    { s with heap := h, freeing := s.freeing.erase g }
  | .write a b => some { s with
      heap := { s.heap with mem := Function.update s.heap.mem a b }
      written := Function.update s.written a (some b) }

/-- Before the first allocation, with the static variables zero. -/
structure Fresh (L : HeapLayout) (s : Session) : Prop where
  live : s.live = []
  freeing : s.freeing = []
  pxEnd : s.heap.pxEnd = 0
  start : s.heap.pxNextFreeBlock L.xStart = 0
  allocations : s.heap.xNumberOfSuccessfulAllocations = 0
  frees : s.heap.xNumberOfSuccessfulFrees = 0

/-- The states of the heap that users can bring about. -/
inductive Reachable (L : HeapLayout) (fuel : ℕ) : Session → Prop
  | start {s : Session} (h : Fresh L s) : Reachable L fuel s
  | step {s s' : Session} {u : UserAct} (h : Reachable L fuel s) (hu : s.Allowed u)
      (hact : s.act L fuel u = some s') : Reachable L fuel s'

/-! ### The invariant -/

variable {L : HeapLayout} {s s' : Session} {free : List Span} {g : Lease} {fuel n : ℕ}

/-- Free blocks and blocks that are handed out make up the heap. -/
structure Inv (L : HeapLayout) (s : Session) (free : List Span) : Prop where
  listed : s.heap.Listed L free
  remaining : s.heap.xFreeBytesRemaining = total free
  minimum : s.heap.xMinimumEverFreeBytesRemaining ≤ total free
  inside : ∀ a, Inside free a ↔ (L.heapStart ≤ a ∧ a < L.heapEnd) ∧ ¬Inside s.spans a
  sum : total free + total s.spans = L.heapEnd - L.heapStart
  placed : ∀ g ∈ s.leases, L.Placed g.span
  len_le : ∀ g ∈ s.leases, g.len + 16 ≤ g.size
  apart : s.leases.Pairwise fun g g' => g.span.Apart g'.span
  marked : ∀ g ∈ s.live, s.heap.pxNextFreeBlock g.addr = 0 ∧
    s.heap.xBlockSize g.addr = g.size + 2 ^ 63
  unmarked : ∀ g ∈ s.freeing, s.heap.xBlockSize g.addr = g.size
  written : ∀ g ∈ s.live, ∀ a, g.Has a → ∀ b, s.written a = some b → s.heap.mem a = b
  counts : s.heap.xNumberOfSuccessfulAllocations =
    sizeAdd s.heap.xNumberOfSuccessfulFrees s.leases.length

theorem mem_leases_of_live (h : g ∈ s.live) : g ∈ s.leases := List.mem_append_left _ h

theorem mem_leases_of_freeing (h : g ∈ s.freeing) : g ∈ s.leases := List.mem_append_right _ h

/-- A byte is handed out where it lies in a lease. -/
theorem inside_spans {a : ℕ} : Inside s.spans a ↔ ∃ g ∈ s.leases, g.span.Covers a := by
  simp [Inside, spans]

theorem span_mem_spans (h : g ∈ s.leases) : g.span ∈ s.spans := List.mem_map_of_mem h

/-- A byte that a user has asked for lies in the block, behind the header. -/
theorem Inv.has (h : Inv L s free) (hg : g ∈ s.leases) {a : ℕ} (ha : g.Has a) :
    g.addr + 16 ≤ a ∧ g.span.Covers a := by
  have hlen := h.len_le g hg
  obtain ⟨hlo, hhi⟩ := ha
  rw [Lease.ptr, xHeapStructSize_eq] at hlo hhi
  exact ⟨hlo, by simp only [Lease.span]; omega, by simp only [Lease.span, fin]; omega⟩

/-- No byte of a lease is free. -/
theorem Inv.not_inside (h : Inv L s free) (hg : g ∈ s.leases) {a : ℕ} (ha : g.span.Covers a) :
    ¬Inside free a := fun hin =>
  ((h.inside a).mp hin).2 (inside_spans.mpr ⟨g, hg, ha⟩)

/-- No lease overlaps a free block. -/
theorem Inv.apart_free (h : Inv L s free) (hg : g ∈ s.leases) {c : Span} (hc : c ∈ free) :
    g.span.Apart c :=
  apart_of_not_covers (Nat.zero_lt_of_lt (h.placed g hg).le_size) (h.listed.separate.pos c hc)
    fun _ ha hca => h.not_inside hg ha ⟨c, hc, hca⟩

/-- A block that is handed out is left alone by what happens elsewhere. -/
theorem header_kept {h h' : Heap4} {b : Span} (hb : 16 ≤ b.size)
    (hmem : ∀ a, b.Covers a → h'.mem a = h.mem a) :
    h'.pxNextFreeBlock b.addr = h.pxNextFreeBlock b.addr ∧
      h'.xBlockSize b.addr = h.xBlockSize b.addr := by
  constructor
  · exact load_congr fun i hi => hmem _ ⟨Nat.le_add_right _ i, by rw [fin]; omega⟩
  · exact load_congr fun i hi => hmem _ ⟨by omega, by rw [fin]; omega⟩

/-- What is handed out is not the free list's. -/
theorem Inv.not_ours (h : Inv L s free) (hg : g ∈ s.leases) {a : ℕ} (ha : g.span.Covers a) :
    ¬Heap4.Ours L free a := by
  have hplaced : ∀ b ∈ [g.span], L.Placed b := by simpa using h.placed g hg
  have hin : Inside [g.span] a := by simpa using ha
  rintro (hx | hx | hfree)
  · exact Heap4.not_inside_of_placed hplaced (.inl hx) hin
  · exact Heap4.not_inside_of_placed hplaced (.inr hx) hin
  · exact h.not_inside hg ha hfree

theorem Inv.total_lt (h : Inv L s free) : total free + total s.spans < 2 ^ 63 := by
  rw [h.sum]
  exact (Nat.sub_le _ _).trans_lt L.heapEnd_lt

theorem sizeAdd_sizeAdd (a b c : ℕ) : sizeAdd (sizeAdd a b) c = sizeAdd a (b + c) := by
  rw [sizeAdd, sizeAdd, sizeAdd, Nat.mod_add_mod, Nat.add_assoc]

/-- A lease ends below the top bit. -/
theorem Inv.ptr_lt (h : Inv L s free) (hg : g ∈ s.leases) : g.ptr + g.len < 2 ^ 63 := by
  have hfin := (h.placed g hg).fin_le
  have hlen := h.len_le g hg
  have hend := L.heapEnd_lt
  simp only [Lease.span, fin] at hfin
  rw [Lease.ptr, xHeapStructSize_eq]
  omega

/-! ### Allocation -/

/-- The first allocation sets up the heap. -/
theorem Fresh.inv (h : Fresh L s) :
    Inv L { s with heap := s.heap.prvHeapInit L } [Heap4.wholeHeap L] := by
  obtain ⟨hlisted, hfree, hmin, hallocs, hfrees⟩ := Heap4.listed_prvHeapInit L s.heap
  have hlt := L.heapStart_add_lt
  have hnone : Session.leases { s with heap := s.heap.prvHeapInit L } = [] := by
    rw [leases]
    simp only [h.live, h.freeing, List.append_nil]
  have hspans : Session.spans { s with heap := s.heap.prvHeapInit L } = [] := by
    rw [spans, hnone]
    rfl
  exact {
    listed := hlisted
    remaining := hfree
    minimum := hmin.le
    inside := fun a => by
      rw [hspans, inside_cons, Covers, Heap4.wholeHeap_addr, fin, Heap4.wholeHeap_addr,
        Heap4.wholeHeap_size]
      simp only [inside_nil, or_false, not_false_eq_true, and_true]
      omega
    sum := by
      rw [hspans]
      simp
    placed := by simp [hnone]
    len_le := by simp [hnone]
    apart := by simp [hnone]
    marked := by simp [h.live]
    unmarked := by simp [h.freeing]
    written := by simp [h.live]
    counts := by
      rw [hnone, hallocs, hfrees, h.allocations, h.frees]
      rfl }

/-- A block is handed out. -/
theorem Inv.took (h : Inv L s free) {b : Span} {free' : List Span} {h' : Heap4}
    (ht : Heap4.Took L b free free' s.heap h') (hn : n + 16 ≤ b.size) :
    Inv L (s.given n (b.addr + 16, h')) free' := by
  obtain ⟨haddr, hlt⟩ := Heap4.addr_lt_of_placed ht.placed
  have htotal := h.total_lt
  set g : Lease := ⟨b.addr, n, b.size⟩ with hg
  have hgiven : s.given n (b.addr + 16, h') = { s with
      heap := h'
      live := g :: s.live
      written := fun a => if g.Has a then none else s.written a } := by
    rw [given, if_neg (Nat.succ_ne_zero _)]
    simp only [Heap4.sizeSub_header b haddr, ht.size, Nat.add_mod_right, Nat.mod_eq_of_lt hlt, hg]
  have hleases : (s.given n (b.addr + 16, h')).leases = g :: s.leases := by
    rw [hgiven]
    rfl
  have hspans : (s.given n (b.addr + 16, h')).spans = b :: s.spans := by
    rw [spans, hleases]
    rfl
  -- What is handed out already is not among the free bytes.
  have hkept : ∀ g' ∈ s.leases, ∀ a, g'.span.Covers a → h'.mem a = s.heap.mem a :=
    fun g' hg' a ha => ht.mem a (h.not_inside hg' ha) fun hx =>
      h.not_ours hg' ha (.inl hx)
  have hapart : ∀ g' ∈ s.leases, g.span.Apart g'.span := fun g' hg' =>
    apart_of_not_covers (Nat.zero_lt_of_lt ht.placed.le_size)
      (Nat.zero_lt_of_lt (h.placed g' hg').le_size)
      fun a ha hg'a => h.not_inside hg' hg'a (ht.covered a ha)
  have hheader : ∀ g' ∈ s.leases, h'.pxNextFreeBlock g'.addr = s.heap.pxNextFreeBlock g'.addr ∧
      h'.xBlockSize g'.addr = s.heap.xBlockSize g'.addr := fun g' hg' =>
    header_kept (le_trans (by decide) (h.placed g' hg').le_size) (hkept g' hg')
  have hremaining : h'.xFreeBytesRemaining = total free' := by
    have hsub := ht.total
    rw [ht.counted.remaining, h.remaining, sizeSub_eq (by omega) (by omega)]
    omega
  refine {
    listed := by rw [hgiven]; exact ht.listed
    remaining := by rw [hgiven]; exact hremaining
    minimum := ?_
    inside := fun a => ?_
    sum := ?_
    placed := ?_
    len_le := ?_
    apart := ?_
    marked := ?_
    unmarked := ?_
    written := ?_
    counts := ?_ }
  · rw [hgiven, ← hremaining]
    exact ht.counted.minimum.trans_le (min_le_right _ _)
  · rw [hspans, ht.inside, h.inside, inside_cons, not_or, and_assoc, and_comm (a := ¬Inside _ _)]
  · have hsum := h.sum
    have hsub := ht.total
    rw [hspans, total_cons]
    omega
  · rw [hleases]
    exact List.forall_mem_cons.mpr ⟨ht.placed, h.placed⟩
  · rw [hleases]
    exact List.forall_mem_cons.mpr ⟨hn, h.len_le⟩
  · rw [hleases]
    exact List.pairwise_cons.mpr ⟨hapart, h.apart⟩
  · rw [hgiven]
    refine List.forall_mem_cons.mpr ⟨⟨ht.next, ht.size⟩, fun g' hg' => ?_⟩
    obtain ⟨hnext, hsize⟩ := hheader g' (mem_leases_of_live hg')
    obtain ⟨hnext', hsize'⟩ := h.marked g' hg'
    exact ⟨hnext.trans hnext', hsize.trans hsize'⟩
  · rw [hgiven]
    exact fun g' hg' => (hheader g' (mem_leases_of_freeing hg')).2.trans (h.unmarked g' hg')
  · rw [hgiven]
    refine List.forall_mem_cons.mpr ⟨fun a ha v hv => ?_, fun g' hg' a ha v hv => ?_⟩ <;>
      dsimp only at hv ⊢
    · rw [if_pos ha] at hv
      cases hv
    · have hcov := (h.has (mem_leases_of_live hg') ha).2
      split at hv
      · cases hv
      · rw [hkept g' (mem_leases_of_live hg') a hcov]
        exact h.written g' hg' a ha v hv
  · rw [hleases, List.length_cons, hgiven, ht.counted.allocations, ht.counted.frees, h.counts,
      sizeAdd_sizeAdd]

/-- What an allocation does to the heap and its users. -/
structure Served (s : Session) (free : List Span) (n : ℕ) (r : ℕ × Heap4) : Prop where
  /-- Nothing is handed out, and nothing changes. -/
  refused : r.1 = 0 → r.2 = s.heap ∧
    (n = 0 ∨ 2 ^ 63 ≤ n ∨ ∀ b ∈ free, b.size < roundUp n)
  /-- The first block of adequate size is handed out. -/
  served : r.1 ≠ 0 → (0 < n ∧ n < 2 ^ 63) ∧ ∃ l₁ b l₂, free = l₁ ++ b :: l₂ ∧
    (∀ c ∈ l₁, c.size < roundUp n) ∧ roundUp n ≤ b.size ∧ r.1 = b.addr + 16

/-- An allocation keeps the invariant. -/
theorem Inv.allocate (h : Inv L s free) (hn : n < 2 ^ 64) (hfuel : Heap4.heapFuel ≤ fuel) :
    ∃ r free', s.heap.allocate L fuel n = some r ∧ Inv L (s.given n r) free' ∧
      Served s free n r := by
  rcases h.listed.allocate h.remaining hn hfuel with ⟨hwhy, hnone⟩ |
      ⟨l₁, b, l₂, free', h', hpos, hfree, hsmall, hlarge, hsome, ht⟩
  · exact ⟨(0, s.heap), free, hnone, h, fun _ => ⟨rfl, hwhy⟩, fun hne => absurd rfl hne⟩
  · refine ⟨(b.addr + 16, h'), free', hsome, ?_, fun h => absurd h (Nat.succ_ne_zero _), fun _ =>
      ⟨hpos, l₁, b, l₂, hfree, hsmall, hlarge, rfl⟩⟩
    have hround : n + 16 ≤ roundUp n := by
      rw [roundUp]
      omega
    have htook := h.took ht (hround.trans (Heap4.le_takenSize hlarge))
    exact htook

/-! ### Release -/

theorem Inv.nodup (h : Inv L s free) : s.leases.Nodup := by
  refine List.Pairwise.imp_of_mem (fun {g g'} hg _ hapart heq => ?_) h.apart
  subst heq
  have hsize := (h.placed g hg).le_size
  rcases hapart with hap | hap <;> simp only [fin, Lease.span] at hap hsize <;> omega

/-- Two blocks that are not the same are apart. -/
theorem Inv.apart_of_ne (h : Inv L s free) {g' : Lease} (hg : g ∈ s.leases) (hg' : g' ∈ s.leases)
    (hne : g ≠ g') : g.span.Apart g'.span :=
  have : Std.Symm fun g g' : Lease => g.span.Apart g'.span := ⟨fun _ _ h => h.symm⟩
  h.apart.forall hg hg' hne

/-- What happens inside of one block leaves the others alone. -/
theorem Inv.kept (h : Inv L s free) {P : ℕ → Prop} {h' : Heap4} (hg : g ∈ s.leases)
    (hin : ∀ a, P a → g.span.Covers a) (hchanged : Heap4.Changed P s.heap h') :
    h'.Listed L free ∧ ∀ g' ∈ s.leases, g' ≠ g → ∀ a, g'.span.Covers a →
      h'.mem a = s.heap.mem a :=
  ⟨h.listed.unchanged hchanged fun a ha => h.not_ours hg (hin a ha), fun _ hg' hne a ha =>
    hchanged.mem a fun hp => (h.apart_of_ne hg' hg hne).not_covers ha (hin a hp)⟩

theorem Inv.le_size (h : Inv L s free) (hg : g ∈ s.leases) : 16 ≤ g.span.size :=
  le_trans (by decide) (h.placed g hg).le_size

/-- A block that is in use passes the check of `__internal_free`. -/
theorem Inv.freeCheck (h : Inv L s free) (hg : g ∈ s.live) :
    ∃ h', s.heap.freeCheck g.ptr = some h' ∧ Inv L { s with
      heap := h', live := s.live.erase g, freeing := g :: s.freeing } free := by
  have hgs := mem_leases_of_live hg
  obtain ⟨hnext, hsize⟩ := h.marked g hg
  obtain ⟨h', hcheck, hchanged, hunmarked⟩ :=
    Heap4.freeCheck_marked h.listed.bit (h.placed g hgs) hnext hsize
  have hptr : g.ptr = g.span.addr + 16 := by
    rw [Lease.ptr, xHeapStructSize_eq]
    rfl
  refine ⟨h', by rw [hptr]; exact hcheck, ?_⟩
  -- Only the header of the block has changed, which belongs to no other lease.
  obtain ⟨hlisted, hkept⟩ := h.kept hgs (fun a => Heap4.header_sub (h.le_size hgs)) hchanged
  -- The lease moves from the live ones to those on their way back: the leases are the same.
  have hperm : (s.live.erase g ++ g :: s.freeing).Perm s.leases :=
    List.perm_middle.trans ((List.perm_cons_erase hg).symm.append_right s.freeing)
  have hmem : ∀ g', g' ∈ s.live.erase g ++ g :: s.freeing ↔ g' ∈ s.leases := fun _ => hperm.mem_iff
  have hlive : ∀ g' ∈ s.live.erase g, g' ∈ s.live ∧ g' ≠ g := fun g' hg' => by
    have hnodup := (List.nodup_append.mp h.nodup).1
    exact ((hnodup.mem_erase_iff).mp hg').symm
  have hvars := hchanged.vars
  exact {
    listed := hlisted
    remaining := by rw [hvars]; exact h.remaining
    minimum := by rw [hvars]; exact h.minimum
    inside := fun a => by
      rw [h.inside]
      refine and_congr_right' (not_congr ?_)
      rw [inside_spans, inside_spans]
      exact exists_congr fun g' => and_congr_left' (hmem g').symm
    sum := by rw [← h.sum]; exact congrArg _ (total_perm (hperm.map Lease.span))
    placed := fun g' hg' => h.placed g' ((hmem g').mp hg')
    len_le := fun g' hg' => h.len_le g' ((hmem g').mp hg')
    apart := (hperm.symm.pairwise_iff fun h => h.symm).mp h.apart
    marked := fun g' hg' => by
      obtain ⟨hin, hne⟩ := hlive g' hg'
      have hgs' := mem_leases_of_live hin
      obtain ⟨hnext', hsize'⟩ := header_kept (h.le_size hgs') (hkept g' hgs' hne)
      exact ⟨hnext'.trans (h.marked g' hin).1, hsize'.trans (h.marked g' hin).2⟩
    unmarked := List.forall_mem_cons.mpr ⟨hunmarked, fun g' hg' => by
      have hgs' := mem_leases_of_freeing hg'
      have hne : g' ≠ g := fun heq =>
        (List.nodup_append.mp h.nodup).2.2 g hg g' hg' heq.symm
      exact (header_kept (h.le_size hgs') (hkept g' hgs' hne)).2.trans (h.unmarked g' hg')⟩
    written := fun g' hg' a ha v hv => by
      obtain ⟨hin, hne⟩ := hlive g' hg'
      have hgs' := mem_leases_of_live hin
      exact (hkept g' hgs' hne a (h.has hgs' ha).2).trans (h.written g' hin a ha v hv)
    counts := by
      rw [hvars]
      exact h.counts.trans (congrArg _ hperm.length_eq.symm) }

/-- A block that has been checked is put back. -/
theorem Inv.freeInsert (h : Inv L s free) (hg : g ∈ s.freeing) (hfuel : Heap4.heapFuel ≤ fuel) :
    ∃ h', s.heap.freeInsert L fuel g.ptr = some h' ∧
      Inv L { s with heap := h', freeing := s.freeing.erase g } (insertJoin g.span free) := by
  have hgs := mem_leases_of_freeing hg
  have htotal := h.total_lt
  have hsize : g.size ≤ total s.spans := size_le_total (span_mem_spans hgs)
  -- Free and leased bytes together do not exceed the heap, so that the counter does not wrap.
  have hlt : s.heap.xFreeBytesRemaining + g.span.size < 2 ^ 64 := by
    rw [h.remaining]
    exact (Nat.add_le_add_left hsize _).trans_lt (htotal.trans (by decide))
  obtain ⟨h', hinsert, hgave⟩ := h.listed.freeInsert (h.placed g hgs)
    (fun c hc => h.apart_free hgs hc) (h.unmarked g hg) hlt hfuel
  have hptr : g.ptr = g.span.addr + 16 := by
    rw [Lease.ptr, xHeapStructSize_eq]
    rfl
  refine ⟨h', by rw [hptr]; exact hinsert, ?_⟩
  have hperm : (g :: (s.live ++ s.freeing.erase g)).Perm s.leases :=
    List.perm_middle.symm.trans ((List.perm_cons_erase hg).symm.append_left s.live)
  have hsub : ∀ g' ∈ s.live ++ s.freeing.erase g, g' ∈ s.leases ∧ g' ≠ g := fun g' hg' => by
    refine ⟨hperm.subset (List.mem_cons_of_mem g hg'), fun heq => ?_⟩
    exact (List.nodup_cons.mp (hperm.nodup_iff.mpr h.nodup)).1 (heq ▸ hg')
  -- Only the start of the list, free blocks and the block given back have been written.
  have hkept : ∀ g' ∈ s.live ++ s.freeing.erase g, ∀ a, g'.span.Covers a →
      h'.mem a = s.heap.mem a := fun g' hg' a ha => by
    obtain ⟨hin, hne⟩ := hsub g' hg'
    refine hgave.mem a ?_ fun hx => h.not_ours hin ha (.inl hx)
    rw [inside_cons, not_or]
    exact ⟨(h.apart_of_ne hin hgs hne).not_covers ha, h.not_inside hin ha⟩
  have hsum : total s.spans = g.size + total ((s.live ++ s.freeing.erase g).map Lease.span) := by
    rw [spans, ← total_perm (hperm.map Lease.span)]
    rfl
  refine {
    listed := hgave.listed
    remaining := ?_
    minimum := ?_
    inside := fun a => ?_
    sum := ?_
    placed := fun g' hg' => h.placed g' (hsub g' hg').1
    len_le := fun g' hg' => h.len_le g' (hsub g' hg').1
    apart := ?_
    marked := fun g' hg' => ?_
    unmarked := fun g' hg' => ?_
    written := fun g' hg' a ha v hv => ?_
    counts := ?_ }
  · rw [hgave.remaining, h.remaining, total_insertJoin, Nat.add_comm]
  · rw [hgave.minimum, total_insertJoin]
    exact h.minimum.trans (Nat.le_add_left _ _)
  -- Free are now the bytes that were, and those of the block.
  · rw [inside_insertJoin, h.inside, inside_spans, inside_spans]
    have hplaced := h.placed g hgs
    constructor
    · rintro (hcov | ⟨hrange, hnot⟩)
      · refine ⟨⟨hplaced.start_le.trans hcov.1, hcov.2.trans_le hplaced.fin_le⟩, ?_⟩
        rintro ⟨g', hg', hcov'⟩
        obtain ⟨hin, hne⟩ := hsub g' hg'
        exact (h.apart_of_ne hin hgs hne).not_covers hcov' hcov
      · exact ⟨hrange, fun ⟨g', hg', hcov'⟩ => hnot ⟨g', (hsub g' hg').1, hcov'⟩⟩
    · rintro ⟨hrange, hnot⟩
      by_cases hcov : g.span.Covers a
      · exact .inl hcov
      · refine .inr ⟨hrange, fun ⟨g', hg', hcov'⟩ => ?_⟩
        rcases List.mem_cons.mp (hperm.symm.subset hg') with rfl | hg'
        exacts [hcov hcov', hnot ⟨g', hg', hcov'⟩]
  · have hsum' := h.sum
    rw [total_insertJoin, spans, leases]
    simp only [Lease.span] at hsum ⊢
    omega
  · exact (List.pairwise_cons.mp ((hperm.symm.pairwise_iff fun h => h.symm).mp h.apart)).2
  · have hg'' : g' ∈ s.live ++ s.freeing.erase g := List.mem_append_left _ hg'
    obtain ⟨hnext, hsize⟩ := header_kept (h.le_size (hsub g' hg'').1) (hkept g' hg'')
    exact ⟨hnext.trans (h.marked g' hg').1, hsize.trans (h.marked g' hg').2⟩
  · have hg'' : g' ∈ s.live ++ s.freeing.erase g := List.mem_append_right _ hg'
    exact (header_kept (h.le_size (hsub g' hg'').1) (hkept g' hg'')).2.trans
      (h.unmarked g' (List.mem_of_mem_erase hg'))
  · have hg'' : g' ∈ s.live ++ s.freeing.erase g := List.mem_append_left _ hg'
    exact (hkept g' hg'' a (h.has (hsub g' hg'').1 ha).2).trans (h.written g' hg' a ha v hv)
  · have hlen := hperm.length_eq
    rw [List.length_cons] at hlen
    rw [hgave.allocations, hgave.frees, h.counts, ← hlen, sizeAdd_sizeAdd, Nat.add_comm 1]
    rfl

/-! ### Writing -/

/-- A user writes to what it has been given. -/
theorem Inv.write (h : Inv L s free) (hg : g ∈ s.live) {a : ℕ} (ha : g.Has a) (b : BitVec 8) :
    Inv L { s with
      heap := { s.heap with mem := Function.update s.heap.mem a b }
      written := Function.update s.written a (some b) } free := by
  have hgs := mem_leases_of_live hg
  obtain ⟨hbehind, hcov⟩ := h.has hgs ha
  have hchanged : Heap4.Changed (· = a) s.heap
      { s.heap with mem := Function.update s.heap.mem a b } :=
    ⟨rfl, fun x hx => Function.update_of_ne hx _ _⟩
  obtain ⟨hlisted, hkept⟩ := h.kept hgs (fun x (hx : x = a) => hx ▸ hcov) hchanged
  -- The byte lies behind the header of its own block.
  have hheader : ∀ g' ∈ s.leases,
      Heap4.pxNextFreeBlock { s.heap with mem := Function.update s.heap.mem a b } g'.addr =
        s.heap.pxNextFreeBlock g'.addr ∧
      Heap4.xBlockSize { s.heap with mem := Function.update s.heap.mem a b } g'.addr =
        s.heap.xBlockSize g'.addr := fun g' hg' => by
    by_cases heq : g' = g
    · subst heq
      exact ⟨hchanged.next fun x _ hx => by omega, hchanged.size fun x _ hx => by omega⟩
    · exact header_kept (h.le_size hg') (hkept g' hg' heq)
  refine {
    listed := hlisted
    remaining := h.remaining
    minimum := h.minimum
    inside := h.inside
    sum := h.sum
    placed := h.placed
    len_le := h.len_le
    apart := h.apart
    marked := fun g' hg' => ?_
    unmarked := fun g' hg' =>
      (hheader g' (mem_leases_of_freeing hg')).2.trans (h.unmarked g' hg')
    written := fun g' hg' x hx v hv => ?_
    counts := h.counts }
  · obtain ⟨hnext, hsize⟩ := hheader g' (mem_leases_of_live hg')
    exact ⟨hnext.trans (h.marked g' hg').1, hsize.trans (h.marked g' hg').2⟩
  · dsimp only at hv ⊢
    by_cases hxa : x = a
    · subst hxa
      rw [Function.update_self] at hv ⊢
      exact Option.some.inj hv
    · rw [Function.update_of_ne hxa] at hv ⊢
      exact h.written g' hg' x hx v hv

/-! ### Runs -/

/-- The heap is set up, and the invariant holds, or nothing has happened yet. -/
def Sound (L : HeapLayout) (s : Session) : Prop := Fresh L s ∨ ∃ free, Inv L s free

/-- Once the heap has been set up an allocation goes to the list at once. -/
theorem Inv.internalMalloc (h : Inv L s free) :
    s.heap.internalMalloc L fuel n = s.heap.allocate L fuel n := by
  have hlt := L.heapStart_add_lt
  rw [Heap4.internalMalloc, if_neg]
  rw [h.listed.pxEnd]
  omega

/-- An allocation, the first or a later one. -/
theorem Sound.malloc (h : Sound L s) (hn : n < 2 ^ 64) (hfuel : Heap4.heapFuel ≤ fuel) :
    ∃ s₀ free r free', s₀.spans = s.spans ∧ Inv L s₀ free ∧
      s.heap.internalMalloc L fuel n = some r ∧ Inv L (s.given n r) free' ∧
      Served s₀ free n r := by
  rcases h with hfresh | ⟨free, hinv⟩
  · obtain ⟨r, free', hsome, hgiven, hserved⟩ := hfresh.inv.allocate hn hfuel
    refine ⟨{ s with heap := s.heap.prvHeapInit L }, _, r, free', rfl, hfresh.inv, ?_, hgiven,
      hserved⟩
    rw [Heap4.internalMalloc, if_pos hfresh.pxEnd]
    exact hsome
  · obtain ⟨r, free', hsome, hgiven, hserved⟩ := hinv.allocate hn hfuel
    exact ⟨s, free, r, free', rfl, hinv, hinv.internalMalloc.trans hsome, hgiven, hserved⟩

/-- Where something is handed out the heap has been set up. -/
theorem Sound.inv_of_live (h : Sound L s) (hg : g ∈ s.leases) : ∃ free, Inv L s free := by
  rcases h with hfresh | hinv
  · rw [leases, hfresh.live, hfresh.freeing] at hg
    cases hg
  · exact hinv

/-- Every call ends, and keeps the heap sound. -/
theorem Sound.act (h : Sound L s) (hfuel : Heap4.heapFuel ≤ fuel) {u : UserAct}
    (hu : s.Allowed u) : ∃ s', s.act L fuel u = some s' ∧ Sound L s' := by
  cases u with
  | malloc n =>
    obtain ⟨-, -, r, free', -, -, hsome, hinv, -⟩ := h.malloc hu hfuel
    exact ⟨s.given n r, by rw [Session.act, hsome, Option.map_some], .inr ⟨free', hinv⟩⟩
  | freeCheck g =>
    obtain ⟨free, hinv⟩ := h.inv_of_live (mem_leases_of_live hu)
    obtain ⟨h', hcheck, hinv'⟩ := hinv.freeCheck hu
    exact ⟨_, by rw [Session.act, hcheck, Option.map_some], .inr ⟨free, hinv'⟩⟩
  | freeInsert g =>
    obtain ⟨free, hinv⟩ := h.inv_of_live (mem_leases_of_freeing hu)
    obtain ⟨h', hinsert, hinv'⟩ := hinv.freeInsert hu hfuel
    exact ⟨_, by rw [Session.act, hinsert, Option.map_some], .inr ⟨_, hinv'⟩⟩
  | write a b =>
    obtain ⟨g, hg, ha⟩ := hu
    obtain ⟨free, hinv⟩ := h.inv_of_live (mem_leases_of_live hg)
    exact ⟨_, rfl, .inr ⟨free, hinv.write hg ha b⟩⟩

/-- Every reachable state is sound, by the step lemmas above. -/
theorem Reachable.sound (h : Reachable L fuel s) (hfuel : Heap4.heapFuel ≤ fuel) : Sound L s := by
  induction h with
  | start h => exact .inl h
  | step _ hu hact ih =>
    obtain ⟨s₁, hact₁, hsound⟩ := ih.act hfuel hu
    rw [hact] at hact₁
    cases hact₁
    exact hsound

/-! ### A heap to look at -/

/-- A place for the heap in the RAM. -/
def sampleLayout : HeapLayout where
  ucHeap := 0x41300000
  xStart := 0x41200000
  ucHeap_inRam := by decide
  xStart_inRam := by decide
  apart := by decide

/-- The memory is zero and nobody has called. -/
def blank : Session where
  heap := {
    mem := fun _ => 0
    pxEnd := 0
    xFreeBytesRemaining := 0
    xMinimumEverFreeBytesRemaining := 0
    xNumberOfSuccessfulAllocations := 0
    xNumberOfSuccessfulFrees := 0
    xBlockAllocatedBit := 0 }
  live := []
  freeing := []
  written := fun _ => none

/-- Users do these things, one after the other, as far as they are allowed. -/
def acted (L : HeapLayout) (fuel : ℕ) (s : Session) (us : List UserAct) : Option Session :=
  us.foldlM (fun s u => if s.Allowed u then s.act L fuel u else none) s

/-- What users do one after the other leads to a reachable state. -/
theorem Reachable.acted (h : Reachable L fuel s) {us : List UserAct}
    (hacts : acted L fuel s us = some s') : Reachable L fuel s' := by
  induction us generalizing s with
  | nil =>
    cases hacts
    exact h
  | cons u us ih =>
    rw [Session.acted, List.foldlM_cons] at hacts
    obtain ⟨s₁, hact, hrest⟩ := Option.bind_eq_some_iff.mp hacts
    split at hact
    · next hu => exact ih (h.step hu hact) hrest
    · cases hact

theorem blank_fresh : Fresh sampleLayout blank :=
  ⟨rfl, rfl, rfl, by decide +kernel, rfl, rfl⟩

/-- One byte has been asked for. -/
def opened : Session :=
  (acted sampleLayout Heap4.heapFuel blank [.malloc 1]).get (by decide +kernel)

theorem opened_reachable : Reachable sampleLayout Heap4.heapFuel opened :=
  (Reachable.start blank_fresh).acted (Option.some_get _).symm

/-- The lease of `opened` -/
def firstLease : Lease := ⟨0x41300000, 1, 32⟩

theorem opened_live : opened.live = [firstLease] := by decide +kernel

theorem opened_freeing : opened.freeing = [] := by decide +kernel

/-- A lease of `busy` that is being released -/
def leaseA : Lease := ⟨0x41300000, 100, 128⟩

/-- A lease of `busy` with a byte written -/
def leaseB : Lease := ⟨0x41300080, 24, 48⟩

/-- The last lease of `busy` -/
def leaseC : Lease := ⟨0x413000B0, 5, 32⟩

/-- Three blocks have been handed out; in one of them a byte has been written, and the release of
another has been checked and not yet done. -/
def busy : Session :=
  (acted sampleLayout Heap4.heapFuel blank [.malloc 100, .malloc 24, .malloc 5,
    .write 0x41300090 0xAB, .freeCheck leaseA]).get (by decide +kernel)

/-- The state with two blocks in use and one on its way back is reachable. -/
theorem busy_reachable : Reachable sampleLayout Heap4.heapFuel busy :=
  (Reachable.start blank_fresh).acted (Option.some_get _).symm

theorem busy_live : busy.live = [leaseC, leaseB] := by decide +kernel

theorem busy_freeing : busy.freeing = [leaseA] := by decide +kernel

/-- The same blocks have been handed out for other numbers of bytes, and one behind them has been
released. -/
def busyOtherwise : Session :=
  (acted sampleLayout Heap4.heapFuel blank [.malloc 112, .malloc 32, .malloc 16, .malloc 1000,
    .freeCheck ⟨0x413000D0, 1000, 1024⟩, .freeInsert ⟨0x413000D0, 1000, 1024⟩]).get
    (by decide +kernel)

theorem busyOtherwise_reachable : Reachable sampleLayout Heap4.heapFuel busyOtherwise :=
  (Reachable.start blank_fresh).acted (Option.some_get _).symm

/-- Everything has been released, in another order than it was handed out. -/
def released : Session :=
  (acted sampleLayout Heap4.heapFuel busy [.freeCheck leaseC, .freeInsert leaseC,
    .freeInsert leaseA, .freeCheck leaseB, .freeInsert leaseB]).get (by decide +kernel)

theorem released_reachable : Reachable sampleLayout Heap4.heapFuel released :=
  busy_reachable.acted (Option.some_get _).symm

/-! ### What holds in every run -/

/-- In every run, whatever the order of the calls, each call ends, and what is handed out is
aligned, lies in the heap, is apart from all else that is handed out, and holds what its user wrote
last. -/
theorem Reachable.handed_out (h : Reachable L fuel s) (hfuel : Heap4.heapFuel ≤ fuel) :
    (∀ u, s.Allowed u → ∃ s', s.act L fuel u = some s') ∧
    (∀ g ∈ s.live, g.ptr % portBYTE_ALIGNMENT = 0 ∧ L.ucHeap ≤ g.ptr ∧
      g.ptr + g.len ≤ L.ucHeap + configTOTAL_HEAP_SIZE) ∧
    (s.live.Pairwise fun g g' => ∀ a, g.Has a → ¬g'.Has a) ∧
    ∀ g ∈ s.live, ∀ a, g.Has a → ∀ b, s.written a = some b → s.heap.mem a = b := by
  have hsound := h.sound hfuel
  refine ⟨fun u hu => (hsound.act hfuel hu).imp fun _ => And.left, ?_⟩
  rcases hsound with hfresh | ⟨free, hinv⟩
  · simp [hfresh.live]
  · refine ⟨fun g hg => ?_, ?_, hinv.written⟩
    · have hgs := mem_leases_of_live hg
      have hplaced := hinv.placed g hgs
      have hlen := hinv.len_le g hgs
      have hmod := hplaced.addr_mod
      have hlo := L.le_heapStart.trans hplaced.start_le
      have hhi := (Nat.add_le_add_right hplaced.fin_le 16).trans L.heapEnd_le
      simp only [Lease.span, fin] at hmod hlo hhi
      rw [Lease.ptr, xHeapStructSize_eq, portBYTE_ALIGNMENT]
      exact ⟨by omega, by omega, by omega⟩
    · refine (List.pairwise_append.mp hinv.apart).1.imp_of_mem fun hg hg' hap a ha ha' => ?_
      exact hap.not_covers (hinv.has (mem_leases_of_live hg) ha).2
        (hinv.has (mem_leases_of_live hg') ha').2

/-- Two blocks are in use, one of them with a byte written, while a third is being released. -/
theorem handed_out_busy : (∀ u, busy.Allowed u →
      ∃ s', busy.act sampleLayout Heap4.heapFuel u = some s') ∧
    (∀ g ∈ busy.live, g.ptr % portBYTE_ALIGNMENT = 0 ∧ sampleLayout.ucHeap ≤ g.ptr ∧
      g.ptr + g.len ≤ sampleLayout.ucHeap + configTOTAL_HEAP_SIZE) ∧
    (busy.live.Pairwise fun g g' => ∀ a, g.Has a → ¬g'.Has a) ∧
    ∀ g ∈ busy.live, ∀ a, g.Has a → ∀ b, busy.written a = some b → busy.heap.mem a = b :=
  Reachable.handed_out busy_reachable le_rfl

/-- The byte lies in the heap, and in no block that is handed out. -/
def FreeAt (L : HeapLayout) (s : Session) (a : ℕ) : Prop :=
  (L.heapStart ≤ a ∧ a < L.heapEnd) ∧ ¬Inside s.spans a

/-- What has room for a block lies in a free one. -/
theorem Inv.room (h : Inv L s free) {a r : ℕ} (hr : 0 < r) (ha : ∀ i < r, s.FreeAt L (a + i)) :
    ∃ b ∈ free, b.addr ≤ a ∧ a + r ≤ b.fin :=
  h.listed.separate.run hr fun i hi => (h.inside _).mpr (ha i hi)

/-- What is handed out is the first place with room. -/
theorem Inv.first_room (h : Inv L s free) {r : ℕ × Heap4} (hn : 0 < n ∧ n < 2 ^ 63)
    (hserved : Served s free n r) :
    (r.1 = 0 ↔ ¬∃ a, ∀ i < roundUp n, s.FreeAt L (a + i)) ∧
      (r.1 ≠ 0 → IsLeast {a | ∀ i < roundUp n, s.FreeAt L (a + i)} (r.1 - xHeapStructSize)) := by
  have hround : 0 < roundUp n := by
    rw [roundUp]
    omega
  by_cases hr : r.1 = 0
  · have hnone : ¬∃ a, ∀ i < roundUp n, s.FreeAt L (a + i) := by
      rintro ⟨a, ha⟩
      obtain ⟨b, hb, hlo, hhi⟩ := h.room hround ha
      rw [fin] at hhi
      rcases (hserved.refused hr).2 with hzero | hbig | hsmall
      · omega
      · omega
      · have hsize := hsmall b hb
        omega
    exact ⟨iff_of_true hr hnone, fun hne => absurd hr hne⟩
  · obtain ⟨-, l₁, b, l₂, rfl, hsmall, hlarge, hret⟩ := hserved.served hr
    have hleast : IsLeast {a | ∀ i < roundUp n, s.FreeAt L (a + i)} b.addr := by
      constructor
      · refine fun i hi => (h.inside _).mp ⟨b, by simp, Nat.le_add_right _ _, ?_⟩
        rw [fin]
        omega
      · intro a ha
        obtain ⟨c, hc, hlo, hhi⟩ := h.room hround ha
        have hsep := h.listed.separate
        rcases List.mem_append.mp hc with hc | hc
        · have hsize := hsmall c hc
          rw [fin] at hhi
          omega
        · rcases List.mem_cons.mp hc with rfl | hc
          · exact hlo
          · have hgap := (hsep.sublist (List.sublist_append_right l₁ _)).head_lt hc
            rw [fin] at hgap
            omega
    refine ⟨iff_of_false hr fun hnone => hnone ⟨b.addr, hleast.1⟩, fun _ => ?_⟩
    rw [hret, xHeapStructSize_eq, Nat.add_sub_cancel]
    exact hleast

/-- An allocation returns the null pointer exactly where there is no room for its block, and else
the first place where there is room. -/
theorem Reachable.malloc_iff (h : Reachable L fuel s) (hfuel : Heap4.heapFuel ≤ fuel)
    (hn : 0 < n ∧ n < 2 ^ 63) :
    ∃ r, s.heap.internalMalloc L fuel n = some r ∧
      (r.1 = 0 ↔ ¬∃ a, ∀ i < roundUp n, s.FreeAt L (a + i)) ∧
      (r.1 ≠ 0 → IsLeast {a | ∀ i < roundUp n, s.FreeAt L (a + i)} (r.1 - xHeapStructSize)) := by
  obtain ⟨s₀, free, r, -, hspans, hinv, hsome, -, hserved⟩ :=
    (h.sound hfuel).malloc (hn.2.trans (by decide)) hfuel
  have hfree : s₀.FreeAt L = s.FreeAt L := funext fun a => by rw [FreeAt, FreeAt, hspans]
  exact ⟨r, hsome, hfree ▸ hinv.first_room hn hserved⟩

/-- A hundred bytes are asked for while as many are being released. -/
theorem malloc_iff_busy : ∃ r, busy.heap.internalMalloc sampleLayout Heap4.heapFuel 100 =
    some r ∧ (r.1 = 0 ↔ ¬∃ a, ∀ i < roundUp 100, busy.FreeAt sampleLayout (a + i)) ∧
      (r.1 ≠ 0 → IsLeast {a | ∀ i < roundUp 100, busy.FreeAt sampleLayout (a + i)}
        (r.1 - xHeapStructSize)) :=
  Reachable.malloc_iff busy_reachable le_rfl (by decide)

/-- Where the same bytes are handed out the free list is the same, whatever calls have led there:
released blocks are joined wherever they touch. -/
theorem Reachable.free_list_eq (h : Reachable L fuel s) (h' : Reachable L fuel s')
    (hfuel : Heap4.heapFuel ≤ fuel) (hinit : s.heap.pxEnd ≠ 0) (hinit' : s'.heap.pxEnd ≠ 0)
    (hsame : ∀ a, Inside s.spans a ↔ Inside s'.spans a) :
    ∃ free, s.heap.Chain L.heapEnd L.xStart free ∧ s'.heap.Chain L.heapEnd L.xStart free := by
  obtain ⟨free, hinv⟩ := (h.sound hfuel).resolve_left fun hf => hinit hf.pxEnd
  obtain ⟨free', hinv'⟩ := (h'.sound hfuel).resolve_left fun hf => hinit' hf.pxEnd
  have heq : free = free' := hinv.listed.separate.ext hinv'.listed.separate fun a => by
    rw [hinv.inside, hinv'.inside, hsame]
  exact ⟨free, hinv.listed.chain, heq ▸ hinv'.listed.chain⟩

/-- Blocks of the same sizes serve for other numbers of bytes, and a block that has been released
has been joined with the rest. -/
theorem free_list_eq_busy : busy.live ≠ busyOtherwise.live ∧ ∃ free,
    busy.heap.Chain sampleLayout.heapEnd sampleLayout.xStart free ∧
      busyOtherwise.heap.Chain sampleLayout.heapEnd sampleLayout.xStart free := by
  have hlive : busyOtherwise.live =
      [⟨0x413000B0, 16, 32⟩, ⟨0x41300080, 32, 48⟩, ⟨0x41300000, 112, 128⟩] := by decide +kernel
  have hfreeing : busyOtherwise.freeing = [] := by decide +kernel
  refine ⟨by rw [hlive, busy_live]; decide, ?_⟩
  refine Reachable.free_list_eq busy_reachable busyOtherwise_reachable le_rfl (by decide +kernel)
    (by decide +kernel) fun a => ?_
  rw [spans, spans, leases, leases, hlive, hfreeing, busy_live, busy_freeing]
  rfl

/-- When everything has been released the heap is one free block again. -/
theorem Reachable.all_released (h : Reachable L fuel s) (hfuel : Heap4.heapFuel ≤ fuel)
    (hinit : s.heap.pxEnd ≠ 0) (hnone : s.leases = []) :
    s.heap.Chain L.heapEnd L.xStart [Heap4.wholeHeap L] ∧
      s.heap.xFreeBytesRemaining = L.heapEnd - L.heapStart := by
  obtain ⟨free, hinv⟩ := (h.sound hfuel).resolve_left fun hf => hinit hf.pxEnd
  have hlt := L.heapStart_add_lt
  have hsum := hinv.sum
  rw [spans, hnone, List.map_nil, total_nil, Nat.add_zero] at hsum
  have hwhole : free = [Heap4.wholeHeap L] :=
    hinv.listed.separate.eq_singleton (fun b hb => (hinv.listed.placed b hb).start_le)
      (fun b hb => (hinv.listed.placed b hb).fin_le) (by omega) (by omega)
  exact ⟨hwhole ▸ hinv.listed.chain, hinv.remaining.trans hsum⟩

/-- The three blocks have been joined with the rest. -/
theorem all_released_released :
    released.heap.Chain sampleLayout.heapEnd sampleLayout.xStart
        [Heap4.wholeHeap sampleLayout] ∧
      released.heap.xFreeBytesRemaining = sampleLayout.heapEnd - sampleLayout.heapStart :=
  Reachable.all_released released_reachable le_rfl (by decide +kernel) (by decide +kernel)

/-- The counters say what there is: the free bytes and the blocks that are handed out make up the
heap, and the allocations that were not released are these blocks. -/
theorem Reachable.accounts (h : Reachable L fuel s) (hfuel : Heap4.heapFuel ≤ fuel)
    (hinit : s.heap.pxEnd ≠ 0) :
    s.heap.xFreeBytesRemaining + (s.leases.map Lease.size).sum = L.heapEnd - L.heapStart ∧
      s.heap.xMinimumEverFreeBytesRemaining ≤ s.heap.xFreeBytesRemaining ∧
      s.heap.xNumberOfSuccessfulAllocations =
        sizeAdd s.heap.xNumberOfSuccessfulFrees s.leases.length := by
  obtain ⟨free, hinv⟩ := (h.sound hfuel).resolve_left fun hf => hinit hf.pxEnd
  have hsum := hinv.sum
  rw [total, total, spans, List.map_map, ← total, ← hinv.remaining] at hsum
  exact ⟨hsum, hinv.minimum.trans_eq hinv.remaining.symm, hinv.counts⟩

/-- The block that is being released still counts. -/
theorem accounts_busy :
    busy.heap.xFreeBytesRemaining + (busy.leases.map Lease.size).sum =
        sampleLayout.heapEnd - sampleLayout.heapStart ∧
      busy.heap.xMinimumEverFreeBytesRemaining ≤ busy.heap.xFreeBytesRemaining ∧
      busy.heap.xNumberOfSuccessfulAllocations =
        sizeAdd busy.heap.xNumberOfSuccessfulFrees busy.leases.length :=
  Reachable.accounts busy_reachable le_rfl (by decide +kernel)

end Session

end C906Firmware
