import C906Firmware.Heap.Spans
import C906Firmware.Model.Heap4

/-!
# The free list in memory

The free blocks are linked in the order of their addresses (`Heap4.Chain`), and inserting a block
puts its span where it belongs and joins it with what it touches
(`Heap4.exists_insertAfter`).
-/

namespace C906Firmware

open LittleEndian Span

/-- A sum that fits does not wrap. -/
theorem sizeAdd_eq {a b : ℕ} (h : a + b < 2 ^ 64) : sizeAdd a b = a + b := Nat.mod_eq_of_lt h

/-- A difference does not wrap around where the first is larger. -/
theorem sizeSub_eq {a b : ℕ} (hle : b ≤ a) (hlt : a < 2 ^ 64) : sizeSub a b = a - b := by
  rw [sizeSub]
  omega

namespace Heap4

variable {s s' : Heap4} {b c : Span} {l l' : List Span} {x y p q e n fuel : ℕ}

/-! ### Headers -/

/-- A pointer that is read has 64 bits. -/
theorem next_lt (s : Heap4) (x : ℕ) : s.pxNextFreeBlock x < 2 ^ 64 := load_lt _ _ _

/-- Reading a pointer back. -/
@[simp]
theorem next_setNext (h : n < 2 ^ 64) : (s.setNext x n).pxNextFreeBlock x = n := load_put_of_lt h

/-- Reading a size back. -/
@[simp]
theorem size_setSize (h : n < 2 ^ 64) : (s.setSize x n).xBlockSize x = n := load_put_of_lt h

@[simp]
theorem next_setSize_self : (s.setSize x n).pxNextFreeBlock x = s.pxNextFreeBlock x :=
  load_put_of_apart (.inl le_rfl)

@[simp]
theorem size_setNext_self : (s.setNext x n).xBlockSize x = s.xBlockSize x :=
  load_put_of_apart (.inr le_rfl)

@[simp]
theorem setNext_allocations : (s.setNext x n).xNumberOfSuccessfulAllocations =
    s.xNumberOfSuccessfulAllocations := rfl

@[simp]
theorem setSize_allocations : (s.setSize x n).xNumberOfSuccessfulAllocations =
    s.xNumberOfSuccessfulAllocations := rfl

@[simp]
theorem setNext_frees : (s.setNext x n).xNumberOfSuccessfulFrees = s.xNumberOfSuccessfulFrees :=
  rfl

@[simp]
theorem setSize_frees : (s.setSize x n).xNumberOfSuccessfulFrees = s.xNumberOfSuccessfulFrees :=
  rfl

/-- The headers at the addresses do not overlap. -/
def Clear (x y : ℕ) : Prop := x + 16 ≤ y ∨ y + 16 ≤ x

theorem Clear.symm (h : Clear x y) : Clear y x := Or.symm h

theorem Clear.ne (h : Clear x y) : x ≠ y := by
  rintro rfl
  rcases h with h | h <;> omega

/-- A pointer written to one header does not show in the pointer of one that is clear of it. -/
theorem next_setNext_of_clear (h : Clear x y) :
    (s.setNext y n).pxNextFreeBlock x = s.pxNextFreeBlock x :=
  load_put_of_apart (by rcases h with h | h <;> omega)

/-- A pointer written to one header does not show in the size of one that is clear of it. -/
theorem size_setNext_of_clear (h : Clear x y) : (s.setNext y n).xBlockSize x = s.xBlockSize x :=
  load_put_of_apart (by rcases h with h | h <;> omega)

/-- A size written to one header does not show in the pointer of one that is clear of it. -/
theorem next_setSize_of_clear (h : Clear x y) :
    (s.setSize y n).pxNextFreeBlock x = s.pxNextFreeBlock x :=
  load_put_of_apart (by rcases h with h | h <;> omega)

/-- A size written to one header does not show in the size of one that is clear of it. -/
theorem size_setSize_of_clear (h : Clear x y) : (s.setSize y n).xBlockSize x = s.xBlockSize x :=
  load_put_of_apart (by rcases h with h | h <;> omega)

/-! ### What a step leaves alone -/

/-- Only memory has changed, and only where `P` says. -/
structure Changed (P : ℕ → Prop) (s s' : Heap4) : Prop where
  vars : s' = { s with mem := s'.mem }
  mem : ∀ a, ¬P a → s'.mem a = s.mem a

namespace Changed

variable {P Q : ℕ → Prop} {s'' : Heap4}

theorem refl (s : Heap4) : Changed P s s := ⟨rfl, fun _ _ => rfl⟩

theorem trans (h : Changed P s s') (h' : Changed P s' s'') : Changed P s s'' where
  vars := by rw [h'.vars, h.vars]
  mem a ha := (h'.mem a ha).trans (h.mem a ha)

theorem mono (h : Changed P s s') (hsub : ∀ a, P a → Q a) : Changed Q s s' :=
  ⟨h.vars, fun a ha => h.mem a fun hp => ha (hsub a hp)⟩

/-- Writing a pointer changes its eight bytes. -/
theorem setNext (h : ∀ a, x ≤ a → a < x + 8 → P a) : Changed P s (s.setNext x n) :=
  ⟨rfl, fun a ha => put_of_not fun hin => ha (h a hin.1 hin.2)⟩

/-- Writing a size changes the eight bytes after those. -/
theorem setSize (h : ∀ a, x + 8 ≤ a → a < x + 16 → P a) : Changed P s (s.setSize x n) :=
  ⟨rfl, fun a ha => put_of_not fun hin => ha (h a hin.1 hin.2)⟩

/-- The end marker is not moved. -/
theorem pxEnd (h : Changed P s s') : s'.pxEnd = s.pxEnd := by rw [h.vars]

/-- A pointer outside what is changed is as it was. -/
theorem next (h : Changed P s s') (hx : ∀ a, x ≤ a → a < x + 8 → ¬P a) :
    s'.pxNextFreeBlock x = s.pxNextFreeBlock x :=
  load_congr fun i hi => h.mem _ (hx _ (Nat.le_add_right x i) (by omega))

/-- A size outside what is written is kept. -/
theorem size (h : Changed P s s') (hx : ∀ a, x + 8 ≤ a → a < x + 16 → ¬P a) :
    s'.xBlockSize x = s.xBlockSize x :=
  load_congr fun i hi => h.mem _ (hx _ (Nat.le_add_right _ i) (by omega))

end Changed

/-! ### Chains -/

/-- From the header at `p` on the list leads over the spans to the address `e`. -/
def Chain (s : Heap4) (e : ℕ) : ℕ → List Span → Prop
  | p, [] => s.pxNextFreeBlock p = e
  | p, b :: l => s.pxNextFreeBlock p = b.addr ∧ s.xBlockSize b.addr = b.size ∧ s.Chain e b.addr l

/-- A chain looks at the headers along it, and of the first one at the link only. -/
theorem Chain.congr (h : s.Chain e p l) (hnext : s'.pxNextFreeBlock p = s.pxNextFreeBlock p)
    (hheader : ∀ b ∈ l, s'.pxNextFreeBlock b.addr = s.pxNextFreeBlock b.addr ∧
      s'.xBlockSize b.addr = s.xBlockSize b.addr) : s'.Chain e p l := by
  induction l generalizing p with
  | nil => exact hnext.trans h
  | cons b l ih =>
    obtain ⟨hb, hsize, hl⟩ := h
    obtain ⟨hbnext, hbsize⟩ := hheader b List.mem_cons_self
    exact ⟨hnext.trans hb, hbsize.trans hsize,
      ih hl hbnext fun c hc => hheader c (List.mem_cons_of_mem b hc)⟩

/-- A chain starts with a link. -/
theorem Chain.relink (h : s.Chain e p l) (hnext : s.pxNextFreeBlock q = s.pxNextFreeBlock p) :
    s.Chain e q l := by
  cases l with
  | nil => exact hnext.trans h
  | cons b l => exact ⟨hnext.trans h.1, h.2⟩

/-- A chain through a block is one up to it and one from it on. -/
theorem chain_append : s.Chain e p (l ++ b :: l') ↔
    s.Chain b.addr p l ∧ s.xBlockSize b.addr = b.size ∧ s.Chain e b.addr l' := by
  induction l generalizing p with
  | nil => exact Iff.rfl
  | cons c l ih =>
    rw [List.cons_append, Chain, ih, Chain]
    simp only [and_assoc]

/-- A chain that is elsewhere is left alone. -/
theorem Chain.unchanged {P : ℕ → Prop} (h : s.Chain e p l) (hchanged : Changed P s s')
    (hp : ∀ a, p ≤ a → a < p + 8 → ¬P a)
    (hl : ∀ b ∈ l, ∀ a, b.addr ≤ a → a < b.addr + 16 → ¬P a) : s'.Chain e p l := by
  refine h.congr (hchanged.next hp) fun b hb => ⟨?_, ?_⟩
  · exact hchanged.next fun a hlo hhi => hl b hb a hlo (by omega)
  · exact hchanged.size fun a hlo hhi => hl b hb a (by omega) hhi

/-! ### Insertion -/

/-- The addresses of the header at `x`. -/
def Header (x a : ℕ) : Prop := x ≤ a ∧ a < x + 16

theorem Changed.header_setNext (s : Heap4) (x n : ℕ) : Changed (Header x) s (s.setNext x n) :=
  .setNext fun _ hlo hhi => ⟨hlo, by omega⟩

theorem Changed.header_setSize (s : Heap4) (x n : ℕ) : Changed (Header x) s (s.setSize x n) :=
  .setSize fun _ hlo hhi => ⟨by omega, hhi⟩

/-- A chain whose headers are clear of the one that changes. -/
theorem Chain.header_changed (h : s.Chain e p l) (hchanged : Changed (Header x) s s')
    (hp : Clear x p) (hl : ∀ b ∈ l, Clear x b.addr) : s'.Chain e p l := by
  refine h.unchanged hchanged (fun a hlo hhi hx => ?_) fun b hb a hlo hhi hx => ?_
  · obtain ⟨hxlo, hxhi⟩ := hx
    rcases hp with hp | hp <;> omega
  · obtain ⟨hxlo, hxhi⟩ := hx
    rcases hl b hb with hb | hb <;> omega

/-- The list of spans, without what leads to it. -/
def Linked (s : Heap4) (e : ℕ) : List Span → Prop
  | [] => True
  | b :: l => s.xBlockSize b.addr = b.size ∧ s.Chain e b.addr l

/-- A block gets its link, to the chain that starts where `x` points to. -/
theorem Chain.link (h : s.Chain e x l) (hchanged : Changed (Header b.addr) s s')
    (hsize : s'.xBlockSize b.addr = b.size) (hl : ∀ c ∈ l, Clear b.addr c.addr) :
    (s'.setNext b.addr (s.pxNextFreeBlock x)).Linked e (b :: l) := by
  have hlink : (s'.setNext b.addr (s.pxNextFreeBlock x)).pxNextFreeBlock b.addr =
      s.pxNextFreeBlock x := next_setNext (s.next_lt x)
  refine ⟨size_setNext_self.trans hsize, ?_⟩
  cases l with
  | nil => exact hlink.trans h
  | cons c l =>
    obtain ⟨hnext, hcsize, hrest⟩ := h
    have hboth := hchanged.trans (.header_setNext s' b.addr (s.pxNextFreeBlock x))
    have hc := hl c List.mem_cons_self
    refine ⟨hlink.trans hnext, ?_, ?_⟩
    · rw [hboth.size fun a hlo hhi hx => ?_, hcsize]
      obtain ⟨hxlo, hxhi⟩ := hx
      rcases hc with hc | hc <;> omega
    · exact hrest.header_changed hboth hc fun d hd => hl d (List.mem_cons_of_mem c hd)

/-- What leads to a list. -/
theorem Linked.prepend (h : s.Linked e (b :: l)) (hb : b.addr < 2 ^ 64)
    (hclear : ∀ c ∈ b :: l, Clear p c.addr) : (s.setNext p b.addr).Chain e p (b :: l) := by
  have hpb := hclear b List.mem_cons_self
  refine ⟨next_setNext hb, (size_setNext_of_clear hpb.symm).trans h.1, ?_⟩
  exact h.2.header_changed (.header_setNext s p b.addr) hpb
    fun c hc => hclear c (List.mem_cons_of_mem b hc)

/-- A block that ends where the next one begins takes it in. -/
theorem joinBehind_of_touch (htouch : sizeAdd y (s.xBlockSize y) = s.pxNextFreeBlock x)
    (hne : s.pxNextFreeBlock x ≠ s.pxEnd) : s.joinBehind x y =
      (s.setSize y (sizeAdd (s.xBlockSize y) (s.xBlockSize (s.pxNextFreeBlock x)))).setNext y
        ((s.setSize y (sizeAdd (s.xBlockSize y)
          (s.xBlockSize (s.pxNextFreeBlock x)))).pxNextFreeBlock
            ((s.setSize y (sizeAdd (s.xBlockSize y)
              (s.xBlockSize (s.pxNextFreeBlock x)))).pxNextFreeBlock x)) := by
  rw [joinBehind, if_pos htouch, if_pos hne]

/-- Otherwise it is linked to it. -/
theorem joinBehind_of_not (h : sizeAdd y (s.xBlockSize y) = s.pxNextFreeBlock x →
    s.pxNextFreeBlock x = s.pxEnd) : s.joinBehind x y = s.setNext y (s.pxNextFreeBlock x) := by
  rw [joinBehind]
  split
  · next htouch =>
    rw [if_neg (not_not.mpr (h htouch)), h htouch]
  · rfl

/-- What the blocks of a list have to be so that their headers do not get into each other's
way. -/
structure Roomy (e : ℕ) (l : List Span) : Prop where
  size : ∀ b ∈ l, 16 ≤ b.size
  fin_le : ∀ b ∈ l, b.fin ≤ e

theorem Roomy.tail (h : Roomy e (b :: l)) : Roomy e l :=
  ⟨fun c hc => h.size c (List.mem_cons_of_mem b hc),
    fun c hc => h.fin_le c (List.mem_cons_of_mem b hc)⟩

/-- Leaving a block out leaves more room. -/
theorem Roomy.erase_second (h : Roomy e (b :: c :: l)) : Roomy e (b :: l) := by
  constructor <;> intro d hd <;> rcases List.mem_cons.mp hd with rfl | hd
  · exact h.size d List.mem_cons_self
  · exact h.tail.tail.size d hd
  · exact h.fin_le d List.mem_cons_self
  · exact h.tail.tail.fin_le d hd

/-- The header of a block is clear of those of the blocks behind it. -/
theorem clear_of_fin_le (hsize : 16 ≤ b.size) (h : b.fin ≤ y) : Clear b.addr y := by
  rw [fin] at h
  exact .inl (by omega)

/-- The block gets its link, and is joined with the one behind it. -/
theorem chain_joinBehind (he : s.pxEnd = e) (hlt : e < 2 ^ 64) (hroom : Roomy e (b :: l))
    (hsep : Separate l) (hle : ∀ c ∈ l, b.fin ≤ c.addr) (hsize : s.xBlockSize b.addr = b.size)
    (hx : x = b.addr ∨ Clear x b.addr) (hchain : s.Chain e x l) :
    Changed (Header b.addr) s (s.joinBehind x b.addr) ∧
      (s.joinBehind x b.addr).Linked e (b.joinNext l) := by
  have hbfin := hroom.fin_le b List.mem_cons_self
  have hbsize := hroom.size b List.mem_cons_self
  have hadd : sizeAdd b.addr (s.xBlockSize b.addr) = b.fin := by
    rw [hsize]
    exact sizeAdd_eq (hbfin.trans_lt hlt)
  have hclear : ∀ c ∈ l, Clear b.addr c.addr := fun c hc => clear_of_fin_le hbsize (hle c hc)
  cases l with
  | nil =>
    -- The end marker is not joined.
    rw [joinBehind_of_not fun _ => hchain.trans he.symm]
    exact ⟨.header_setNext s _ _, hchain.link (.refl s) hsize hclear⟩
  | cons c l =>
    have hnext := hchain.1
    have hcfin := hroom.tail.fin_le c List.mem_cons_self
    have hcsize := hroom.tail.size c List.mem_cons_self
    rw [joinNext]
    split
    · next htouch =>
      have hne : s.pxNextFreeBlock x ≠ s.pxEnd := by
        rw [hnext, he]
        rw [fin] at hcfin
        omega
      have hsum : sizeAdd (s.xBlockSize b.addr) (s.xBlockSize (s.pxNextFreeBlock x)) =
          b.size + c.size := by
        rw [hnext, hsize, hchain.2.1]
        refine sizeAdd_eq ?_
        rw [fin] at htouch hcfin
        omega
      have hxnext : (s.setSize b.addr (b.size + c.size)).pxNextFreeBlock x = c.addr := by
        rcases hx with rfl | hx
        · rw [next_setSize_self, hnext]
        · rw [next_setSize_of_clear hx, hnext]
      have hcnext : (s.setSize b.addr (b.size + c.size)).pxNextFreeBlock c.addr =
          s.pxNextFreeBlock c.addr := next_setSize_of_clear (hclear c List.mem_cons_self).symm
      rw [joinBehind_of_touch (by rw [hadd, hnext, htouch]) hne, hsum, hxnext, hcnext]
      have hchanged := Changed.header_setSize s b.addr (b.size + c.size)
      refine ⟨hchanged.trans (.header_setNext _ _ _), ?_⟩
      have hsmall : b.size + c.size < 2 ^ 64 := by
        rw [fin] at htouch hcfin
        omega
      exact hchain.2.2.link (b := ⟨b.addr, b.size + c.size⟩) hchanged (size_setSize hsmall)
        fun d hd => hclear d (List.mem_cons_of_mem c hd)
    · next hne =>
      rw [joinBehind_of_not fun h => absurd (hadd.symm.trans (h.trans hnext)) hne]
      exact ⟨.header_setNext s _ _, hchain.link (.refl s) hsize hclear⟩

/-- The loop stops in front of the first block that does not come before. -/
theorem insertPoint_here (hchain : s.Chain e p l) (hl : ∀ c ∈ l, x ≤ c.addr) (he : x ≤ e)
    (hfuel : 0 < fuel) : s.insertPoint x fuel p = some p := by
  obtain ⟨fuel, rfl⟩ := Nat.exists_eq_add_one_of_ne_zero hfuel.ne'
  have hnext : ¬s.pxNextFreeBlock p < x := by
    cases l with
    | nil => exact (he.trans_eq hchain.symm).not_gt
    | cons c l => exact ((hl c List.mem_cons_self).trans_eq hchain.1.symm).not_gt
  rw [insertPoint, if_neg hnext]

/-- The addresses that an insertion behind the header at `p` changes. -/
def Touched (p : ℕ) (l : List Span) (a : ℕ) : Prop := (p ≤ a ∧ a < p + 8) ∨ Inside l a

/-- The header of a block lies in it. -/
theorem header_sub (hsize : 16 ≤ b.size) {a : ℕ} (ha : Header b.addr a) : b.Covers a := by
  obtain ⟨hlo, hhi⟩ := ha
  exact ⟨hlo, by rw [fin]; omega⟩

/-- A block that is not joined with the one in front of it. -/
theorem chain_insertAfter (he : s.pxEnd = e) (hlt : e < 2 ^ 64) (hroom : Roomy e (b :: l))
    (hsep : Separate l) (hle : ∀ c ∈ l, b.fin ≤ c.addr) (hsize : s.xBlockSize b.addr = b.size)
    (hp : ∀ c ∈ b :: l, c.Apart ⟨p, 16⟩) (hne : sizeAdd p (s.xBlockSize p) ≠ b.addr)
    (hchain : s.Chain e p l) :
    Changed (Touched p (b :: l)) s (s.insertAfter p b.addr) ∧
      (s.insertAfter p b.addr).Chain e p (b.joinNext l) := by
  have hbsize := hroom.size b List.mem_cons_self
  have hbfin := hroom.fin_le b List.mem_cons_self
  have hclear : ∀ c ∈ b :: l, Clear p c.addr := by
    intro c hc
    have hcsize := hroom.size c hc
    rcases hp c hc with h | h
    · rw [fin] at h
      exact .inr (by simp only at h; omega)
    · exact .inl h
  have hpb := hclear b List.mem_cons_self
  obtain ⟨hchanged, hlinked⟩ :=
    chain_joinBehind he hlt hroom hsep hle hsize (.inr hpb) hchain
  have hstep : s.insertAfter p b.addr = (s.joinBehind p b.addr).setNext p b.addr := by
    rw [insertAfter, joinFront, if_neg hne]
    exact if_pos hpb.ne
  rw [hstep]
  refine ⟨(hchanged.mono fun a ha => .inr (inside_cons.mpr (.inl (header_sub hbsize ha)))).trans
    (.setNext fun a hlo hhi => .inl ⟨hlo, hhi⟩), ?_⟩
  obtain ⟨n, l', hjoin⟩ := exists_joinNext b l
  rw [hjoin] at hlinked ⊢
  refine hlinked.prepend (by rw [fin] at hbfin; simp only; omega) fun c hc => ?_
  rw [← hjoin] at hc
  rcases mem_joinNext_addr hc with haddr | hl
  · rw [haddr]
    exact hpb
  · exact hclear c (List.mem_cons_of_mem b hl)

/-- A linked block, behind a header that points to it. -/
theorem Linked.after (h : s.Linked e (b.joinNext l)) (hp : s.pxNextFreeBlock p = b.addr) :
    s.Chain e p (b.joinNext l) := by
  obtain ⟨n, l', hjoin⟩ := exists_joinNext b l
  rw [hjoin] at h ⊢
  exact ⟨hp, h⟩

/-- A block that is joined with the one in front of it. -/
theorem chain_insertAfter_touch (he : s.pxEnd = e) (hlt : e < 2 ^ 64)
    (hroom : Roomy e (b :: c :: l)) (hsep : Separate (c :: l)) (htouch : c.fin = b.addr)
    (hle : ∀ d ∈ l, b.fin ≤ d.addr) (hsize : s.xBlockSize b.addr = b.size)
    (hcsize : s.xBlockSize c.addr = c.size) (hchain : s.Chain e c.addr l) :
    Changed (Header c.addr) s (s.insertAfter c.addr b.addr) ∧
      (s.insertAfter c.addr b.addr).Linked e (joinNext ⟨c.addr, c.size + b.size⟩ l) := by
  have hbfin := hroom.fin_le b List.mem_cons_self
  have hcroom := hroom.tail.size c List.mem_cons_self
  have hsum : c.addr + (c.size + b.size) ≤ e := by
    rw [fin] at hbfin htouch
    omega
  -- The block before it ends where it begins, and grows by its size.
  have hfront : s.joinFront c.addr b.addr = (c.addr, s.setSize c.addr (c.size + b.size)) := by
    have hadd : sizeAdd c.addr (s.xBlockSize c.addr) = b.addr := by
      rw [hcsize, ← htouch]
      exact sizeAdd_eq ((hroom.tail.fin_le c List.mem_cons_self).trans_lt hlt)
    rw [joinFront, if_pos hadd, hcsize, hsize, sizeAdd_eq (by omega)]
  have hstep : s.insertAfter c.addr b.addr =
      (s.setSize c.addr (c.size + b.size)).joinBehind c.addr c.addr := by
    rw [insertAfter, hfront]
    exact if_neg (not_not.mpr rfl)
  rw [hstep]
  have hset := Changed.header_setSize s c.addr (c.size + b.size)
  have hroom' : Roomy e (⟨c.addr, c.size + b.size⟩ :: l) := by
    constructor
    · intro d hd
      rcases List.mem_cons.mp hd with rfl | hd
      · exact hcroom.trans (Nat.le_add_right _ _)
      · exact hroom.tail.tail.size d hd
    · intro d hd
      rcases List.mem_cons.mp hd with rfl | hd
      · exact hsum
      · exact hroom.tail.tail.fin_le d hd
  -- The grown block may touch the next one in turn.
  have hjoined := chain_joinBehind (s := s.setSize c.addr (c.size + b.size))
    (b := ⟨c.addr, c.size + b.size⟩) (x := c.addr) he hlt hroom' hsep.tail (fun d hd => ?_)
    (size_setSize (by omega)) (.inl rfl) (hchain.congr next_setSize_self fun d hd => ?_)
  · exact ⟨hset.trans hjoined.1, hjoined.2⟩
  · have hd' := hle d hd
    rw [fin] at hd' htouch ⊢
    simp only
    omega
  · have hclear := (clear_of_fin_le hcroom (hsep.head_lt hd).le).symm
    exact ⟨next_setSize_of_clear hclear, size_setSize_of_clear hclear⟩

/-- The block is put where it belongs, and joined with what it touches. -/
theorem exists_insertAfter (he : s.pxEnd = e) (hlt : e < 2 ^ 64) (hroom : Roomy e (b :: l))
    (hsep : Separate l) (hapart : ∀ c ∈ l, b.Apart c) (hsize : s.xBlockSize b.addr = b.size)
    (hp : ∀ c ∈ b :: l, c.Apart ⟨p, 16⟩) (hne : sizeAdd p (s.xBlockSize p) ≠ b.addr)
    (hchain : s.Chain e p l) (hfuel : l.length < fuel) :
    ∃ x, s.insertPoint b.addr fuel p = some x ∧
      Changed (Touched p (b :: l)) s (s.insertAfter x b.addr) ∧
      (s.insertAfter x b.addr).Chain e p (insertJoin b l) := by
  have hbsize := hroom.size b List.mem_cons_self
  have hbfin := hroom.fin_le b List.mem_cons_self
  have hbe : b.addr ≤ e := (Nat.le_add_right _ _).trans hbfin
  induction l generalizing p fuel with
  | nil =>
    exact ⟨p, insertPoint_here hchain (by simp) hbe hfuel,
      chain_insertAfter he hlt hroom hsep (by simp) hsize hp hne hchain⟩
  | cons c l ih =>
    have hc := hapart c List.mem_cons_self
    have hcsize := hroom.tail.size c List.mem_cons_self
    rw [insertJoin]
    split
    · next hbefore =>
      -- The block comes before all others.
      have hle : ∀ d ∈ c :: l, b.fin ≤ d.addr := by
        have hfirst : b.fin ≤ c.addr := hc.resolve_right fun h => by
          rw [fin] at h
          omega
        intro d hd
        rcases List.mem_cons.mp hd with rfl | hd
        · exact hfirst
        · exact hfirst.trans ((Nat.le_add_right _ _).trans (hsep.head_lt hd).le)
      exact ⟨p, insertPoint_here hchain (fun d hd => (Nat.le_add_right _ _).trans (hle d hd)) hbe
        (Nat.zero_lt_of_lt hfuel), chain_insertAfter he hlt hroom hsep hle hsize hp hne hchain⟩
    · next hnot =>
      have hafter : c.fin ≤ b.addr := hc.resolve_left fun h => by
        rw [fin] at h
        omega
      have hstep : ∀ n, s.insertPoint b.addr (n + 1) p = s.insertPoint b.addr n c.addr := by
        intro n
        rw [insertPoint, hchain.1, if_pos]
        rw [fin] at hafter
        omega
      obtain ⟨n, rfl⟩ := Nat.exists_eq_add_one_of_ne_zero (Nat.zero_lt_of_lt hfuel).ne'
      have hpc := hp c (List.mem_cons_of_mem b List.mem_cons_self)
      rw [hstep]
      split
      · next htouch =>
        have hle : ∀ d ∈ l, b.fin ≤ d.addr := fun d hd =>
          (hapart d (List.mem_cons_of_mem c hd)).resolve_right fun h => by
            have hgap := hsep.head_lt hd
            rw [fin] at h
            omega
        obtain ⟨hchanged, hlinked⟩ := chain_insertAfter_touch he hlt hroom hsep htouch hle hsize
          hchain.2.1 hchain.2.2
        refine ⟨c.addr, insertPoint_here hchain.2.2 (fun d hd => ?_) hbe ?_, ?_, ?_⟩
        · exact htouch.symm.le.trans (hsep.head_lt hd).le
        · exact Nat.zero_lt_of_lt (Nat.lt_of_succ_lt_succ hfuel)
        · exact hchanged.mono fun a ha => .inr (inside_cons.mpr (.inr (inside_cons.mpr
            (.inl (header_sub hcsize ha)))))
        · refine hlinked.after ((hchanged.next fun a hlo hhi ha => ?_).trans hchain.1)
          obtain ⟨halo, hahi⟩ := ha
          rcases hpc with h | h <;> simp only [fin] at h <;> omega
      · next hgap =>
        have hpast : ∀ d ∈ b :: l, d.Apart ⟨c.addr, 16⟩ := fun d hd => .inr <| by
          have hcd : c.fin ≤ d.addr := by
            rcases List.mem_cons.mp hd with rfl | hd
            exacts [hafter, (hsep.head_lt hd).le]
          simp only [fin] at hcd ⊢
          omega
        have hcne : sizeAdd c.addr (s.xBlockSize c.addr) ≠ b.addr := by
          rw [hchain.2.1, sizeAdd_eq ((hroom.tail.fin_le c List.mem_cons_self).trans_lt hlt)]
          exact hgap
        obtain ⟨x, hpoint, hchanged, hlinked⟩ := ih hroom.erase_second hsep.tail
          (fun d hd => hapart d (List.mem_cons_of_mem c hd)) hpast hcne hchain.2.2
          (Nat.lt_of_succ_lt_succ hfuel)
        -- The header of `c` keeps its size, and what leads to it stays.
        have hcout : ∀ a, Header c.addr a → ¬Inside (b :: l) a := by
          intro a ha hin
          have hcov := header_sub hcsize ha
          rcases inside_cons.mp hin with hb | hl
          · exact hc.symm.not_covers hcov hb
          · exact absurd (hsep.fin_lt hl) hcov.2.not_gt
        refine ⟨x, hpoint, hchanged.mono fun a ha => .inr ?_, ?_, ?_, hlinked⟩
        · rcases ha with ⟨hlo, hhi⟩ | hin
          · exact inside_cons.mpr (.inr (inside_cons.mpr (.inl (header_sub hcsize
              ⟨hlo, by omega⟩))))
          · rw [inside_cons] at hin ⊢
            exact hin.imp_right fun h => inside_cons.mpr (.inr h)
        · refine (hchanged.next fun a hlo hhi ha => ?_).trans hchain.1
          rcases ha with ⟨halo, hahi⟩ | ⟨d, hd, hcov⟩
          · rcases hpc with h | h <;> simp only [fin] at h <;> omega
          · refine (hp d ?_).not_covers hcov ⟨hlo, by simp only [fin]; omega⟩
            rcases List.mem_cons.mp hd with rfl | hd
            exacts [List.mem_cons_self, List.mem_cons_of_mem b (List.mem_cons_of_mem c hd)]
        · refine (hchanged.size fun a hlo hhi ha => ?_).trans hchain.2.1
          rcases ha with ⟨halo, hahi⟩ | hin
          · omega
          · exact hcout a ⟨by omega, hhi⟩ hin

end Heap4

end C906Firmware
