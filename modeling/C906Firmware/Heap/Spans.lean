import Mathlib.Algebra.GroupWithZero.Nat
import Mathlib.Algebra.Order.BigOperators.Group.List
import Mathlib.Algebra.Order.Group.Nat
import Mathlib.Data.List.Pairwise

/-!
# Spans of addresses

A set of addresses written as a list of spans that are in order and do not even touch
(`Separate`). There is only one such list for a set (`Separate.ext`), a stretch of addresses that
is in the set lies in one of its spans (`Separate.run`), and a span is put into the list by joining
it with what it touches (`insertJoin`).
-/

/-- The addresses from `addr` on, `size` of them. -/
structure Span where
  addr : ℕ
  size : ℕ
deriving DecidableEq

namespace Span

variable {a : ℕ} {b c : Span} {l l' : List Span}

/-- The address after the last one. -/
def fin (b : Span) : ℕ := b.addr + b.size

/-- The address is in the span. -/
def Covers (b : Span) (a : ℕ) : Prop := b.addr ≤ a ∧ a < b.fin

/-- The spans have no address in common. -/
def Apart (b c : Span) : Prop := b.fin ≤ c.addr ∨ c.fin ≤ b.addr

theorem Apart.symm (h : b.Apart c) : c.Apart b := Or.symm h

/-- No address lies in two spans that are apart. -/
theorem Apart.not_covers (h : b.Apart c) (ha : b.Covers a) : ¬c.Covers a := by
  rintro ⟨hlo, hhi⟩
  obtain ⟨hlo', hhi'⟩ := ha
  rcases h with h | h <;> omega

/-- The address is in one of the spans. -/
def Inside (l : List Span) (a : ℕ) : Prop := ∃ b ∈ l, b.Covers a

@[simp]
theorem inside_nil : ¬Inside [] a := by rintro ⟨b, hb, -⟩; cases hb

/-- An address lies in a list of spans where it lies in the first or in the rest. -/
@[simp]
theorem inside_cons : Inside (b :: l) a ↔ b.Covers a ∨ Inside l a := by
  simp [Inside]

@[simp]
theorem inside_append : Inside (l ++ l') a ↔ Inside l a ∨ Inside l' a := by
  simp [Inside, or_and_right, exists_or]

/-- How many addresses there are in the spans. -/
def total (l : List Span) : ℕ := (l.map size).sum

@[simp]
theorem total_nil : total [] = 0 := rfl

@[simp]
theorem total_cons : total (b :: l) = b.size + total l := by simp [total]

/-- Sizes add up over lists. -/
@[simp]
theorem total_append : total (l ++ l') = total l + total l' := by simp [total]

/-- The sum does not depend on the order. -/
theorem total_perm (h : l.Perm l') : total l = total l' := (h.map size).sum_eq

/-- Each size is a part of the sum. -/
theorem size_le_total (h : b ∈ l) : b.size ≤ total l :=
  List.single_le_sum (fun _ _ => Nat.zero_le _) _ (List.mem_map_of_mem h)

/-! ### Separate spans -/

/-- The spans are in order, with a gap between any two, and none is empty. -/
structure Separate (l : List Span) : Prop where
  gap : l.Pairwise fun b c => b.fin < c.addr
  pos : ∀ b ∈ l, 0 < b.size

namespace Separate

theorem nil : Separate [] := ⟨List.Pairwise.nil, fun _ h => by cases h⟩

/-- A list is separate where its first span is not empty and ends before the others, and the rest
is separate. -/
theorem cons_iff : Separate (b :: l) ↔ (0 < b.size ∧ ∀ c ∈ l, b.fin < c.addr) ∧ Separate l := by
  constructor
  · intro h
    obtain ⟨hb, hl⟩ := List.pairwise_cons.mp h.gap
    exact ⟨⟨h.pos b List.mem_cons_self, hb⟩, hl, fun c hc => h.pos c (List.mem_cons_of_mem b hc)⟩
  · rintro ⟨⟨hpos, hb⟩, hl⟩
    refine ⟨List.pairwise_cons.mpr ⟨hb, hl.gap⟩, fun c hc => ?_⟩
    rcases List.mem_cons.mp hc with rfl | hc
    exacts [hpos, hl.pos c hc]

theorem tail (h : Separate (b :: l)) : Separate l := (cons_iff.mp h).2

/-- The first span ends before the others. -/
theorem head_lt (h : Separate (b :: l)) (hc : c ∈ l) : b.fin < c.addr := (cons_iff.mp h).1.2 c hc

theorem head_pos (h : Separate (b :: l)) : 0 < b.size := (cons_iff.mp h).1.1

theorem cons (hpos : 0 < b.size) (hlt : ∀ c ∈ l, b.fin < c.addr) (h : Separate l) :
    Separate (b :: l) := cons_iff.mpr ⟨⟨hpos, hlt⟩, h⟩

/-- Leaving spans out keeps the others separate. -/
theorem sublist (h : Separate l) (hsub : l'.Sublist l) : Separate l' :=
  ⟨h.gap.sublist hsub, fun b hb => h.pos b (hsub.subset hb)⟩

/-- What is in the other spans is beyond the first. -/
theorem fin_lt (h : Separate (b :: l)) (ha : Inside l a) : b.fin < a := by
  obtain ⟨c, hc, hlo, -⟩ := ha
  exact (h.head_lt hc).trans_le hlo

/-- The address after the first span is in none. -/
theorem not_inside_fin (h : Separate (b :: l)) : ¬Inside (b :: l) b.fin := by
  rw [inside_cons]
  rintro (⟨-, hlt⟩ | hin)
  · exact lt_irrefl _ hlt
  · exact lt_irrefl _ (h.fin_lt hin)

theorem covers_addr (hpos : 0 < b.size) : b.Covers b.addr :=
  ⟨le_rfl, Nat.lt_add_of_pos_right hpos⟩

/-- The first address of all is that of the first span. -/
theorem addr_le (h : Separate (b :: l)) (ha : Inside (b :: l) a) : b.addr ≤ a := by
  rw [inside_cons] at ha
  rcases ha with hb | hl
  · exact hb.1
  · exact (Nat.le_add_right b.addr b.size).trans (h.fin_lt hl).le

/-- Two first spans with the same addresses after them. -/
theorem fin_le (h : Separate (c :: l')) (haddr : b.addr = c.addr)
    (hsame : ∀ a, Inside (b :: l) a → Inside (c :: l') a) : b.fin ≤ c.fin := by
  by_contra hlt
  refine h.not_inside_fin (hsame _ (inside_cons.mpr (.inl ⟨?_, not_le.mp hlt⟩)))
  rw [haddr]
  exact Nat.le_add_right _ _

/-- There is one list for a set of addresses. -/
theorem ext (h : Separate l) (h' : Separate l') (hsame : ∀ a, Inside l a ↔ Inside l' a) :
    l = l' := by
  induction l generalizing l' with
  | nil =>
    cases l' with
    | nil => rfl
    | cons c l' =>
      exact absurd ((hsame c.addr).mpr (inside_cons.mpr (.inl (covers_addr h'.head_pos))))
        inside_nil
  | cons b l ih =>
    cases l' with
    | nil =>
      exact absurd ((hsame b.addr).mp (inside_cons.mpr (.inl (covers_addr h.head_pos)))) inside_nil
    | cons c l' =>
      have haddr : b.addr = c.addr := le_antisymm
        (h.addr_le ((hsame _).mpr (inside_cons.mpr (.inl (covers_addr h'.head_pos)))))
        (h'.addr_le ((hsame _).mp (inside_cons.mpr (.inl (covers_addr h.head_pos)))))
      have hfin : b.fin = c.fin := le_antisymm
        (fin_le h' haddr fun a => (hsame a).mp)
        (fin_le h haddr.symm fun a => (hsame a).mpr)
      have hsize : b.size = c.size := by
        rw [fin, fin, haddr] at hfin
        exact Nat.add_left_cancel hfin
      obtain rfl : b = c := by
        cases b
        cases c
        simp_all only
      refine congrArg (b :: ·) (ih h.tail h'.tail fun a => ⟨fun ha => ?_, fun ha => ?_⟩)
      · exact ((inside_cons.mp ((hsame a).mp (inside_cons.mpr (.inr ha)))).resolve_left
          fun hb => absurd hb.2 (h.fin_lt ha).not_gt)
      · exact ((inside_cons.mp ((hsame a).mpr (inside_cons.mpr (.inr ha)))).resolve_left
          fun hb => absurd hb.2 (h'.fin_lt ha).not_gt)

/-- Addresses in a row that are all in the spans lie in one span. -/
theorem run (h : Separate l) {n : ℕ} (hn : 0 < n) (hrun : ∀ i < n, Inside l (a + i)) :
    ∃ b ∈ l, b.addr ≤ a ∧ a + n ≤ b.fin := by
  induction l with
  | nil => exact absurd (hrun 0 hn) inside_nil
  | cons b l ih =>
    by_cases hb : b.Covers a
    · refine ⟨b, List.mem_cons_self, hb.1, ?_⟩
      by_contra hlt
      have hlast : b.fin - a < n := by omega
      have hin := hrun _ hlast
      rw [Nat.add_sub_cancel' hb.2.le] at hin
      exact h.not_inside_fin hin
    · have hbeyond : b.fin < a := h.fin_lt ((inside_cons.mp (hrun 0 hn)).resolve_left hb)
      obtain ⟨c, hc, hcov⟩ := ih h.tail fun i hi =>
        (inside_cons.mp (hrun i hi)).resolve_left fun hcov => by
          have hhi := hcov.2
          omega
      exact ⟨c, List.mem_cons_of_mem b hc, hcov⟩

/-- A span of the list is apart from the others. -/
theorem apart_others (h : Separate (l ++ b :: l')) (hc : c ∈ l ++ l') : b.Apart c := by
  obtain ⟨-, htail, hcross⟩ := List.pairwise_append.mp h.gap
  rcases List.mem_append.mp hc with hc | hc
  · exact .inr (hcross c hc b List.mem_cons_self).le
  · exact .inl ((List.pairwise_cons.mp htail).1 c hc).le

/-- Separate spans between two addresses are no more than there is between these. -/
theorem total_le (h : Separate l) {lo hi : ℕ} (hlo : ∀ b ∈ l, lo ≤ b.addr)
    (hhi : ∀ b ∈ l, b.fin ≤ hi) (hle : lo ≤ hi) : lo + total l ≤ hi := by
  induction l generalizing lo with
  | nil => exact hle
  | cons b l ih =>
    have hnext : b.fin + total l ≤ hi := ih h.tail (fun c hc => (h.head_lt hc).le)
      (fun c hc => hhi c (List.mem_cons_of_mem b hc)) (hhi b List.mem_cons_self)
    have hfirst := hlo b List.mem_cons_self
    rw [fin] at hnext
    rw [total_cons]
    omega

/-- Separate spans that are all there is between two addresses are a single span. -/
theorem eq_singleton (h : Separate l) {lo hi : ℕ} (hlo : ∀ b ∈ l, lo ≤ b.addr)
    (hhi : ∀ b ∈ l, b.fin ≤ hi) (hlt : lo < hi) (htotal : lo + total l = hi) :
    l = [⟨lo, hi - lo⟩] := by
  cases l with
  | nil => exact absurd htotal hlt.ne
  | cons b l =>
    have hfirst := hlo b List.mem_cons_self
    have hfin := hhi b List.mem_cons_self
    rw [total_cons] at htotal
    cases l with
    | nil =>
      rw [total_nil] at htotal
      rw [fin] at hfin
      have hsize : b.size = hi - lo := by omega
      have haddr : b.addr = lo := by omega
      rw [← hsize, ← haddr]
    | cons c l =>
      have hgap := h.head_lt (c := c) List.mem_cons_self
      have hrest : c.addr + total (c :: l) ≤ hi := by
        refine h.tail.total_le (fun d hd => ?_) (fun d hd => hhi d (List.mem_cons_of_mem b hd))
          ((Nat.le_add_right _ _).trans (hhi c (List.mem_cons_of_mem b List.mem_cons_self)))
        rcases List.mem_cons.mp hd with rfl | hd
        · exact le_rfl
        · exact (Nat.le_add_right _ _).trans (h.tail.head_lt hd).le
      rw [fin] at hgap
      omega

end Separate

/-! ### Joining -/

/-- The span, joined with the first of those that follow where it touches it. -/
def joinNext (b : Span) : List Span → List Span
  | [] => [b]
  | c :: l => if b.fin = c.addr then ⟨b.addr, b.size + c.size⟩ :: l else b :: c :: l

/-- Joining keeps the address of the block that is joined. -/
theorem exists_joinNext (b : Span) (l : List Span) : ∃ n l', b.joinNext l = ⟨b.addr, n⟩ :: l' := by
  cases l with
  | nil => exact ⟨b.size, [], rfl⟩
  | cons c l =>
    rw [joinNext]
    split
    · exact ⟨b.size + c.size, l, rfl⟩
    · exact ⟨b.size, c :: l, rfl⟩

/-- The span is put where it belongs, and joined with what it touches. -/
def insertJoin (b : Span) : List Span → List Span
  | [] => [b]
  | c :: l =>
    if b.addr < c.addr then b.joinNext (c :: l)
    else if c.fin = b.addr then joinNext ⟨c.addr, c.size + b.size⟩ l
    else c :: insertJoin b l

@[simp]
theorem total_joinNext : total (b.joinNext l) = b.size + total l := by
  cases l with
  | nil => rfl
  | cons c l =>
    rw [joinNext]
    split <;> simp [add_assoc]

/-- Inserting a span adds its size, whether it is joined or not. -/
@[simp]
theorem total_insertJoin : total (insertJoin b l) = b.size + total l := by
  induction l with
  | nil => rfl
  | cons c l ih =>
    rw [insertJoin]
    split
    · exact total_joinNext
    split
    · simp only [total_joinNext, total_cons]
      omega
    · simp only [total_cons, ih]
      omega

/-- Two spans that touch are one. -/
theorem covers_joined (h : b.fin = c.addr) :
    Covers ⟨b.addr, b.size + c.size⟩ a ↔ b.Covers a ∨ c.Covers a := by
  simp only [Covers, fin] at h ⊢
  omega

/-- Joining covers what both have covered. -/
theorem inside_joinNext : Inside (b.joinNext l) a ↔ b.Covers a ∨ Inside l a := by
  cases l with
  | nil => exact inside_cons
  | cons c l =>
    rw [joinNext]
    split
    · next htouch => rw [inside_cons, covers_joined htouch, inside_cons, or_assoc]
    · exact inside_cons

/-- Inserting covers what the span and the list have covered. -/
theorem inside_insertJoin : Inside (insertJoin b l) a ↔ b.Covers a ∨ Inside l a := by
  induction l with
  | nil => exact inside_cons
  | cons c l ih =>
    rw [insertJoin]
    split
    · exact inside_joinNext
    split
    · next htouch =>
      rw [inside_joinNext, covers_joined htouch, inside_cons, or_comm (a := c.Covers a), or_assoc]
    · rw [inside_cons, ih, inside_cons, or_left_comm]

/-- Joining leaves a separate list. -/
theorem Separate.joinNext (h : Separate l) (hpos : 0 < b.size) (hle : ∀ c ∈ l, b.fin ≤ c.addr) :
    Separate (b.joinNext l) := by
  cases l with
  | nil => exact .cons hpos (by simp) .nil
  | cons c l =>
    rw [Span.joinNext]
    split
    · next htouch =>
      refine .cons (Nat.add_pos_left hpos _) (fun d hd => ?_) h.tail
      have hgap := h.head_lt hd
      rw [fin] at hgap htouch ⊢
      simp only
      omega
    · next hne =>
      refine .cons hpos (fun d hd => ?_) h
      rcases List.mem_cons.mp hd with rfl | hd
      · exact lt_of_le_of_ne (hle d List.mem_cons_self) hne
      · have hgap := h.head_lt hd
        have hfirst := hle c List.mem_cons_self
        rw [fin] at hgap hfirst ⊢
        omega

/-- Joining makes no span at a new address. -/
theorem mem_joinNext_addr (h : c ∈ b.joinNext l) : c.addr = b.addr ∨ c ∈ l := by
  cases l with
  | nil => exact .inl (congrArg addr (List.mem_singleton.mp h))
  | cons d l =>
    rw [Span.joinNext] at h
    split at h
    · rcases List.mem_cons.mp h with rfl | hc
      exacts [.inl rfl, .inr (List.mem_cons_of_mem d hc)]
    · rcases List.mem_cons.mp h with rfl | hc
      exacts [.inl rfl, .inr hc]

theorem mem_insertJoin_addr (h : c ∈ insertJoin b l) :
    c.addr = b.addr ∨ ∃ d ∈ l, c.addr = d.addr := by
  induction l with
  | nil => exact .inl (congrArg addr (List.mem_singleton.mp h))
  | cons d l ih =>
    rw [insertJoin] at h
    split at h
    · exact (mem_joinNext_addr h).imp_right fun hc => ⟨c, hc, rfl⟩
    split at h
    · exact .inr ((mem_joinNext_addr h).elim (fun hc => ⟨d, List.mem_cons_self, hc⟩)
        fun hc => ⟨c, List.mem_cons_of_mem d hc, rfl⟩)
    · rcases List.mem_cons.mp h with rfl | hc
      · exact .inr ⟨c, List.mem_cons_self, rfl⟩
      · exact (ih hc).imp_right fun ⟨e, he, heq⟩ => ⟨e, List.mem_cons_of_mem d he, heq⟩

/-- What joining keeps holds of all spans of the list. -/
theorem forall_insertJoin {P : Span → Prop}
    (hjoin : ∀ b c, P b → P c → b.fin = c.addr → P ⟨b.addr, b.size + c.size⟩) (hb : P b)
    (hl : ∀ c ∈ l, P c) : ∀ c ∈ insertJoin b l, P c := by
  have hnext : ∀ b l, P b → (∀ c ∈ l, P c) → ∀ c ∈ joinNext b l, P c := by
    intro b l hb hl
    cases l with
    | nil => exact List.forall_mem_singleton.mpr hb
    | cons c l =>
      obtain ⟨hc, hl⟩ := List.forall_mem_cons.mp hl
      rw [joinNext]
      split
      · next htouch => exact List.forall_mem_cons.mpr ⟨hjoin b c hb hc htouch, hl⟩
      · exact List.forall_mem_cons.mpr ⟨hb, List.forall_mem_cons.mpr ⟨hc, hl⟩⟩
  induction l with
  | nil => exact List.forall_mem_singleton.mpr hb
  | cons c l ih =>
    obtain ⟨hc, hl'⟩ := List.forall_mem_cons.mp hl
    rw [insertJoin]
    split
    · exact hnext b _ hb hl
    split
    · next htouch => exact hnext _ l (hjoin c b hc hb htouch) hl'
    · exact List.forall_mem_cons.mpr ⟨hc, ih hl'⟩

/-- Spans with no address in common. -/
theorem apart_of_not_covers (hb : 0 < b.size) (hc : 0 < c.size)
    (h : ∀ a, b.Covers a → ¬c.Covers a) : b.Apart c := by
  by_contra hover
  rw [Apart, not_or, not_le, not_le] at hover
  refine h (max b.addr c.addr) ⟨le_max_left _ _, ?_⟩ ⟨le_max_right _ _, ?_⟩ <;>
    simp only [fin] at hover ⊢ <;> omega

/-- A span that is apart from all others is put into the list. -/
theorem Separate.insertJoin (h : Separate l) (hpos : 0 < b.size) (hapart : ∀ c ∈ l, b.Apart c) :
    Separate (insertJoin b l) := by
  induction l with
  | nil => exact .cons hpos (by simp) .nil
  | cons c l ih =>
    have hc := hapart c List.mem_cons_self
    have hcpos := h.head_pos
    rw [Span.insertJoin]
    split
    · next hlt =>
      have hbefore : b.fin ≤ c.addr := by
        rcases hc with hc | hc
        · exact hc
        · rw [fin] at hc
          omega
      refine h.joinNext hpos fun d hd => ?_
      rcases List.mem_cons.mp hd with rfl | hd
      · exact hbefore
      · have hgap := h.head_lt hd
        rw [fin] at hgap
        omega
    · next hge =>
      have hafter : c.fin ≤ b.addr := by
        rcases hc with hc | hc
        · rw [fin] at hc
          omega
        · exact hc
      -- What follows `c` and does not lie before `b` lies behind it.
      have hrest : ∀ d ∈ l, b.fin ≤ d.addr ∨ d.fin ≤ b.addr :=
        fun d hd => hapart d (List.mem_cons_of_mem c hd)
      split
      · next htouch =>
        refine h.tail.joinNext (Nat.add_pos_left hcpos _) fun d hd => ?_
        have hgap := h.head_lt hd
        have hd' := hrest d hd
        simp only [fin] at htouch hgap hd' ⊢
        omega
      · next hne =>
        refine .cons hcpos (fun d hd => ?_) (ih h.tail fun d hd => hrest d hd)
        rcases mem_insertJoin_addr hd with haddr | ⟨e, he, haddr⟩
        · rw [haddr]
          exact lt_of_le_of_ne hafter hne
        · rw [haddr]
          exact h.head_lt he

end Span
