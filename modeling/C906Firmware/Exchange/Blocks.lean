import C906Firmware.Exchange.Queues

/-!
# Writing to a buffer in hand, over the account of the exchange

The block writer leaves the bytes of its source in a buffer in hand, and in memory
(`does_blockWrite`), where the source is private or known to the firmware.
-/

namespace C906Firmware

open Interaction

variable {t : Terms} {α : Type} {R : α → Desk → Prop} {s s' s'' : Desk}

/-! ### Bytes -/

section Bytes

variable {a : ℕ}

/-- A byte that is known can be read. -/
theorem does_load8 {b : Byte} (hb : s.Reads a b) {f : Byte → Code α}
    (h : Does (exchange t) (f b) R s) : Does (exchange t) (access (.load8 a) >>= f) R s := by
  refine Does.act hb.1 ?_
  rintro r _ ⟨rfl, hr⟩
  obtain rfl := hr b hb
  exact h

theorem forall_lt_four {P : ℕ → Prop} (h0 : P a) (h1 : P (a + 1)) (h2 : P (a + 2))
    (h3 : P (a + 3)) : ∀ i < 4, P (a + i) := by
  intro i hi
  match i, hi with
  | 0, _ => exact h0
  | 1, _ => exact h1
  | 2, _ => exact h2
  | 3, _ => exact h3

/-- A word of known bytes can be read. -/
theorem does_load32 {w : Quad} (h0 : s.Reads a w.b0) (h1 : s.Reads (a + 1) w.b1)
    (h2 : s.Reads (a + 2) w.b2) (h3 : s.Reads (a + 3) w.b3) {f : Quad → Code α}
    (h : Does (exchange t) (f w) R s) : Does (exchange t) (access (.load32 a) >>= f) R s := by
  refine Does.act (forall_lt_four h0.1 h1.1 h2.1 h3.1) ?_
  rintro r _ ⟨rfl, hr⟩
  obtain rfl := hr w h0 h1 h2 h3
  exact h

/-- A byte of a transmit buffer in hand can be written. -/
theorem does_store8 {b : Byte} (ha : s.Composes a) {f : Unit → Code α}
    (h : Does (exchange t) (f ()) R (s.storeByte a b)) :
    Does (exchange t) (access (.store8 a b) >>= f) R s := by
  refine Does.act ha ?_
  rintro _ _ rfl
  exact h

/-- A word of a transmit buffer in hand, or the reserved word of a message, can be written. -/
theorem does_store32 {w : Quad} (ha : s.Marks a ∨ ∀ i < 4, s.Composes (a + i)) {f : Unit → Code α}
    (h : Does (exchange t) (f ()) R (s.storeWord a w)) :
    Does (exchange t) (access (.store32 a w) >>= f) R s := by
  refine Does.act ha ?_
  rintro _ _ rfl
  exact h

end Bytes

/-! ### Sources -/

/-- The source has the bytes `bs`, as far as the firmware knows. -/
def Src.Gives (src : Src) (s : Desk) (bs : List Byte) : Prop :=
  match src with
  | .mem a => ∀ i b, bs[i]? = some b → s.Reads (a + i) b
  | .priv _ bytes => ∀ i b, bs[i]? = some b → bytes.getD i 0 = b

/-- The source is not among the given addresses. -/
def Src.Avoids (src : Src) (len lo hi : ℕ) : Prop :=
  ∀ a, src = .mem a → ∀ i < len, ¬(lo ≤ a + i ∧ a + i < hi)

/-- A byte of the source is read. -/
theorem does_read8 {src : Src} {bs : List Byte} (hsrc : src.Gives s bs) {i : ℕ} {b : Byte}
    (hb : bs[i]? = some b) {f : Byte → Code α} (h : Does (exchange t) (f b) R s) :
    Does (exchange t) (src.read8 i >>= f) R s := by
  cases src with
  | mem a => exact does_load8 (hsrc i b hb) h
  | priv a bytes =>
    obtain rfl := hsrc i b hb
    exact h

/-- A word of the source is read. -/
theorem does_read32 {src : Src} {bs : List Byte} (hsrc : src.Gives s bs) {i : ℕ} {w : Quad}
    (h0 : bs[i]? = some w.b0) (h1 : bs[i + 1]? = some w.b1) (h2 : bs[i + 2]? = some w.b2)
    (h3 : bs[i + 3]? = some w.b3) {f : Quad → Code α} (h : Does (exchange t) (f w) R s) :
    Does (exchange t) (src.read32 i >>= f) R s := by
  cases src with
  | mem a =>
    exact does_load32 (hsrc i _ h0) (hsrc (i + 1) _ h1) (hsrc (i + 2) _ h2) (hsrc (i + 3) _ h3) h
  | priv a bytes =>
    have hw : (⟨bytes.getD i 0, bytes.getD (i + 1) 0, bytes.getD (i + 2) 0,
        bytes.getD (i + 3) 0⟩ : Quad) = w := by
      rw [hsrc i _ h0, hsrc (i + 1) _ h1, hsrc (i + 2) _ h2, hsrc (i + 3) _ h3]
    subst hw
    exact h

/-! ### The loops of the block writer -/

/-- The bytes `bs` have been written from `ptr` on. -/
structure Filled (ptr : ℕ) (bs : List Byte) (s s' : Desk) : Prop where
  eq : s' = { s with bytes := s'.bytes, synced := s'.synced }
  inside : ∀ i b, bs[i]? = some b → s'.bytes (ptr + i) = some b
  outside : ∀ a, ¬(ptr ≤ a ∧ a < ptr + bs.length) → s'.bytes a = s.bytes a
  synced : ∀ l, s.synced l → (∀ a, l = .byte a → ¬(ptr ≤ a ∧ a < ptr + bs.length)) → s'.synced l

namespace Filled

variable {ptr : ℕ} {bs : List Byte}

theorem nil (ptr : ℕ) (s : Desk) : Filled ptr [] s s :=
  ⟨rfl, by simp, fun _ _ => rfl, fun _ h _ => h⟩

theorem snoc (h : Filled ptr bs s s') (b : Byte) :
    Filled ptr (bs ++ [b]) s (s'.storeByte (ptr + bs.length) b) where
  eq := by
    rw [h.eq]
    rfl
  inside i b' hb' := by
    rw [Desk.bytes_storeByte]
    rcases lt_trichotomy i bs.length with hlt | rfl | hgt
    · rw [List.getElem?_append_left hlt] at hb'
      rw [if_neg (by omega)]
      exact h.inside i b' hb'
    · simpa using hb'
    · rw [List.getElem?_eq_none (by simp; omega)] at hb'
      cases hb'
  outside a ha := by
    simp only [List.length_append, List.length_cons, List.length_nil] at ha
    rw [Desk.bytes_storeByte, if_neg (by omega)]
    exact h.outside a (by omega)
  synced l hl ha := by
    simp only [List.length_append, List.length_cons, List.length_nil] at ha
    refine ⟨h.synced l hl fun a hla hin => ha a hla (by omega), ?_⟩
    rintro rfl
    exact ha _ rfl (by omega)

/-- What is in hand stays in hand. -/
theorem composes (h : Filled ptr bs s s') {a : ℕ} (ha : s.Composes a) : s'.Composes a := by
  rw [h.eq]
  exact ha

theorem holds (h : Filled ptr bs s s') {a : ℕ} (ha : s.Holds a) : s'.Holds a := by
  rw [h.eq]
  exact ha

/-- A source that is not overwritten gives the same bytes. -/
theorem gives (h : Filled ptr bs s s') {src : Src} {d : List Byte} (hsrc : src.Gives s d)
    {hi : ℕ} (havoid : src.Avoids d.length ptr hi) (hhi : ptr + bs.length ≤ hi) :
    src.Gives s' d := by
  cases src with
  | mem a =>
    intro i b hb
    have hi' := (List.getElem?_eq_some_iff.1 hb).1
    have hout := havoid a rfl i hi'
    refine ⟨h.holds (hsrc i b hb).1, ?_⟩
    rw [h.outside (a + i) (by omega)]
    exact (hsrc i b hb).2
  | priv a bytes => exact hsrc

end Filled

theorem take_succ_eq {bs : List Byte} {i : ℕ} {b : Byte} (hb : bs[i]? = some b) :
    bs.take (i + 1) = bs.take i ++ [b] := by
  obtain ⟨hi, rfl⟩ := List.getElem?_eq_some_iff.1 hb
  exact List.take_succ_eq_append_getElem hi

/-- The next byte of the source is written. -/
theorem Filled.next {ptr : ℕ} {bs : List Byte} {i : ℕ} {b : Byte} (h : Filled ptr (bs.take i) s s')
    (hb : bs[i]? = some b) : Filled ptr (bs.take (i + 1)) s (s'.storeByte (ptr + i) b) := by
  have hlen : (bs.take i).length = i :=
    List.length_take_of_le (List.getElem?_eq_some_iff.1 hb).1.le
  have hnext := h.snoc b
  rwa [hlen, ← take_succ_eq hb] at hnext

section Loops

variable {src : Src} {ptr : ℕ} {bs : List Byte}

/-- What the loops rely on: the buffer is in hand, and the source is known and elsewhere. -/
structure Copyable (src : Src) (ptr : ℕ) (bs : List Byte) (s : Desk) : Prop where
  composes : ∀ i < bs.length, s.Composes (ptr + i)
  gives : src.Gives s bs
  avoids : src.Avoids bs.length ptr (ptr + bs.length)

theorem Copyable.filled (h : Copyable src ptr bs s) {i : ℕ} (hf : Filled ptr (bs.take i) s s') :
    src.Gives s' bs :=
  hf.gives h.gives h.avoids (by simp)

/-- One byte is copied. -/
theorem does_copyByte (h : Copyable src ptr bs s) {i : ℕ} (hi : i < bs.length)
    (hf : Filled ptr (bs.take i) s s') {p : Code α}
    (hp : ∀ s'', Filled ptr (bs.take (i + 1)) s s'' → Does (exchange t) p R s'') :
    Does (exchange t) (do
      let b ← src.read8 i
      access (.store8 (ptr + i) b)
      p) R s' := by
  have hb : bs[i]? = some bs[i] := List.getElem?_eq_getElem hi
  refine does_read8 (h.filled hf) hb ?_
  refine does_store8 (hf.composes (h.composes i hi)) ?_
  exact hp _ (hf.next hb)

/-- Four bytes are copied. -/
theorem does_copyWord (h : Copyable src ptr bs s) {i : ℕ} (hi : i + 3 < bs.length)
    (hf : Filled ptr (bs.take i) s s') {p : Code α}
    (hp : ∀ s'', Filled ptr (bs.take (i + 4)) s s'' → Does (exchange t) p R s'') :
    Does (exchange t) (do
      let w ← src.read32 i
      access (.store32 (ptr + i) w)
      p) R s' := by
  have hb : ∀ k (hk : i + k < bs.length), bs[i + k]? = some bs[i + k] :=
    fun k hk => List.getElem?_eq_getElem hk
  have h0 := hb 0 (by omega)
  have h1 := hb 1 (by omega)
  have h2 := hb 2 (by omega)
  have h3 := hb 3 (by omega)
  refine does_read32 (w := ⟨bs[i], bs[i + 1], bs[i + 2], bs[i + 3]⟩) (h.filled hf) h0 h1 h2 h3 ?_
  refine does_store32 (.inr fun k hk => hf.composes ?_) ?_
  · rw [Nat.add_assoc]
    exact h.composes (i + k) (by omega)
  · exact hp _ ((((hf.next h0).next h1).next h2).next h3)

/-- The last loop writes what is left, byte by byte. -/
theorem does_blockWriteTail (h : Copyable src ptr bs s) {i len : ℕ} (hlen : i + len = bs.length)
    (hf : Filled ptr (bs.take i) s s') :
    Does (exchange t) (blockWriteTail ptr src i len) (fun _ => Filled ptr bs s) s' := by
  induction len generalizing i s' with
  | zero =>
    rw [List.take_of_length_le (by omega)] at hf
    exact hf
  | succ len ih =>
    exact does_copyByte h (by omega) hf fun s'' hf' => ih (by omega) hf'

/-- The second loop writes words, and leaves less than a word. -/
theorem does_blockWriteWords (h : Copyable src ptr bs s) {i len : ℕ} (hlen : i + len = bs.length)
    (hf : Filled ptr (bs.take i) s s') :
    Does (exchange t) (blockWriteWords ptr src i len)
      (fun r s'' => r ≤ bs.length ∧ Filled ptr (bs.take (bs.length - r)) s s'') s' := by
  induction i, len using blockWriteWords.induct generalizing s' with
  | case1 i len ih =>
    exact does_copyWord h (by omega) hf fun s'' hf' => ih (by omega) hf'
  | case2 i len hnot =>
    have hi : bs.length - len = i := by omega
    unfold blockWriteWords
    split
    · exact absurd rfl (hnot _)
    · refine ⟨by omega, ?_⟩
      rwa [hi]

/-- The first loop writes bytes up to the first aligned word. -/
theorem does_blockWriteHead (h : Copyable src ptr bs s) {i len : ℕ} (hlen : i + len = bs.length)
    (hf : Filled ptr (bs.take i) s s') :
    Does (exchange t) (blockWriteHead ptr src i len)
      (fun r s'' => r ≤ bs.length ∧ Filled ptr (bs.take (bs.length - r)) s s'') s' := by
  induction len generalizing i s' with
  | zero =>
    refine ⟨Nat.zero_le _, ?_⟩
    rwa [Nat.sub_zero, ← hlen, Nat.add_zero]
  | succ len ih =>
    refine Does.ite (fun _ => ?_) (fun _ => ?_)
    · exact does_copyByte h (by omega) hf fun s'' hf' => ih (by omega) hf'
    · have hi : bs.length - (len + 1) = i := by omega
      refine ⟨by omega, ?_⟩
      rwa [hi]

/-! ### The block writer -/

/-- The bytes `bs` have been written from `ptr` on, and are in memory. -/
structure Written (ptr : ℕ) (bs : List Byte) (s s' : Desk) : Prop where
  filled : Filled ptr bs s s'
  memory : ∀ i < bs.length, s'.synced (.byte (ptr + i))

/-- A block is written and flushed: the buffer has the bytes, and so has memory. -/
theorem does_shmemBlockWrite (hptr : ptr ≠ 0) (h : Copyable src ptr bs s) :
    Does (exchange t) (shmemMetalIoBlockWrite ptr src bs.length)
      (fun r s' => r = bs.length ∧ Written ptr bs s s') s := by
  refine Does.seq (does_blockWriteHead h (Nat.zero_add _) (Filled.nil ptr s)) ?_
  rintro len₁ s₁ ⟨hle₁, hf₁⟩
  refine Does.seq (does_blockWriteWords h (by omega) hf₁) ?_
  rintro len₂ s₂ ⟨hle₂, hf₂⟩
  refine Does.seq (does_blockWriteTail h (by omega) hf₂) ?_
  intro _ s₃ hf₃
  refine Does.seq (does_cacheFlush hptr) ?_
  intro _ s₄ hflush
  refine ⟨rfl, ⟨?_, fun i hi => ?_, fun a ha => ?_, fun l hl ha => ?_⟩, fun i hi => ?_⟩
  · rw [hflush.eq, hf₃.eq]
  · rw [hflush.eq]
    exact hf₃.inside i hi
  · rw [hflush.eq]
    exact hf₃.outside a ha
  · exact hflush.mono l (hf₃.synced l hl ha)
  · exact hflush.covered (.byte (ptr + i)) (Nat.le_add_right _ _) (Nat.add_lt_add_left hi ptr)

/-- `metal_io_block_write` to a buffer in hand. -/
theorem does_blockWrite (hshm : InShm ptr) (hend : ptr + bs.length ≤ SHMEM_PA + SHMEM_SIZE)
    (h : Copyable src ptr bs s) :
    Does (exchange t) (metalIoBlockWrite ptr src bs.length)
      (fun r s' => r = bs.length ∧ Written ptr bs s s') s := by
  rw [metalIoBlockWrite, if_pos hshm, if_neg hend.not_gt]
  refine does_shmemBlockWrite ?_ h
  rintro rfl
  exact absurd hshm.1 (by decide)

end Loops

/-! ### What writing to a buffer keeps -/

/-- The invariant does not depend on the bytes of buffers. -/
theorem Steady.rewrite {l : Bool} {b : Option Vq} (h : Steady l b s)
    (heq : s' = { s with bytes := s'.bytes, synced := s'.synced })
    (hsynced : ∀ c, s.synced (.cell c) → s'.synced (.cell c)) : Steady l b s' := by
  rw [heq]
  exact {
    h with
    host := h.host.congr rfl rfl
    tidy := h.tidy.congr rfl rfl rfl rfl
    used_synced := fun q => hsynced _ (h.used_synced q) }

/-- Only bytes of the buffer `o` have been changed. -/
structure Rewrote (o : Offer) (s s' : Desk) : Prop where
  eq : s' = { s with bytes := s'.bytes, synced := s'.synced }
  bytes : ∀ a, ¬o.Covers a → s'.bytes a = s.bytes a
  synced : ∀ l, s.synced l → (∀ a, l = .byte a → ¬o.Covers a) → s'.synced l

namespace Rewrote

variable {o : Offer}

theorem trans (h : Rewrote o s s') (h' : Rewrote o s' s'') : Rewrote o s s'' where
  eq := by rw [h'.eq, h.eq]
  bytes a ha := (h'.bytes a ha).trans (h.bytes a ha)
  synced l hl ha := h'.synced l (h.synced l hl ha) ha

/-- Rewriting a buffer keeps what holds between calls. -/
theorem steady (h : Rewrote o s s') {l : Bool} {b : Option Vq} (hs : Steady l b s) :
    Steady l b s' := hs.rewrite h.eq fun _ hc => h.synced _ hc (by simp)

theorem inHand (h : Rewrote o s s') {q : Vq} {j : ℕ} {o' : Offer} (ho : s.InHand q j o') :
    s'.InHand q j o' := by
  rw [h.eq]
  exact ho

end Rewrote

/-- Writing a block within a buffer. -/
theorem Written.rewrote {ptr : ℕ} {bs : List Byte} {o : Offer} (h : Written ptr bs s s')
    (hcov : ∀ i < bs.length, o.Covers (ptr + i)) : Rewrote o s s' where
  eq := h.filled.eq
  bytes a ha := by
    refine h.filled.outside a fun hin => ha ?_
    obtain ⟨i, rfl⟩ := Nat.exists_eq_add_of_le hin.1
    exact hcov i (by omega)
  synced l hl ha := by
    refine h.filled.synced l hl fun a hla hin => ha a hla ?_
    obtain ⟨i, rfl⟩ := Nat.exists_eq_add_of_le hin.1
    exact hcov i (by omega)

/-- Writing a word within a buffer. -/
theorem rewrote_storeWord {a : ℕ} {w : Quad} {o : Offer} (hcov : ∀ i < 4, o.Covers (a + i)) :
    Rewrote o s (s.storeWord a w) where
  eq := rfl
  bytes x hx := by
    refine Desk.bytes_storeWord_of_ne s w ?_
    rintro i hi rfl
    exact hx (hcov i hi)
  synced l hl ha := by
    refine Desk.synced_storeWord hl ?_
    rintro i hi rfl
    exact ha _ rfl (hcov i hi)

end C906Firmware
