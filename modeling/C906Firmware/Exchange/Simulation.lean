import C906Firmware.Exchange.Books

/-!
# The world does what the account of the exchange says

Every access that the account permits does in the world what the account says of it
(`simulates`): so what the firmware does over the account it does to the memory, whatever the
cache and the host do meanwhile.
-/

namespace C906Firmware

open Interaction WriteBack World

variable {t : Terms} {s s' : Desk} {w : World}

/-! ### Maintenance -/

/-- A line is written back. -/
theorem At.writeBack (h : At t s w) (a : ℕ) :
    At t (s.writeBack a) { w with mem := w.mem.clean Loc.line (lineOf a) } := by
  have hcalm := Tagged.calm_clean Loc.line (lineOf a) w.mem
  have hc := h.calm hcalm
  have hline : ∀ l : Loc, w.mem.Sound Loc.line l → lineOf l.addr = lineOf a →
      (w.mem.clean Loc.line (lineOf a)).Agrees Loc.line l := by
    intro l hl heq
    rw [← heq]
    exact Tagged.agrees_clean hl
  exact {
    var := hc.var
    avail := hc.avail
    whole := hc.whole
    memory := hc.memory
    ledger := hc.ledger.congr rfl rfl rfl rfl
    rings := {
      view := hc.rings.view
      sound := hc.rings.sound
      synced := fun c hused hs =>
        hs.elim (hc.rings.synced c hused) (hline _ (h.rings.sound c hused))
      idx := hc.rings.idx
      visible := hc.rings.visible
      element := fun q r j hj hr => by
        obtain ⟨o, ho, hid, hlen, hids, hlens⟩ := hc.rings.element q r j hj hr
        exact ⟨o, ho, hid, hlen, .inl hids, .inl hlens⟩ }
    fields := { hc.fields with }
    buffers := {
      view := hc.buffers.view
      sound := hc.buffers.sound
      synced := fun x b hx hb hs =>
        hs.elim (hc.buffers.synced x b hx hb) (hline _ (h.buffers.sound x b hx hb))
      stored := fun hset x hx hs => by
        obtain ⟨hne, hold⟩ := Tagged.stored_clean hs
        obtain ⟨q, j, o, y, ho, hx', hy, hline', hnot⟩ := h.buffers.stored hset x hx hold
        exact ⟨q, j, o, y, ho, hx', hy, hline', not_or.mpr ⟨hnot, fun heq =>
          hne (hline'.symm.trans heq)⟩⟩
      content := hc.buffers.content
      current := hc.buffers.current
      message := hc.buffers.message }
    echo := hc.echo }

/-- The lines of used rings hold none of the host's fields. -/
theorem usedLine_of_used {c : Cell} (hc : c.Used) : UsedLine (Loc.line (.cell c)) := ⟨c, hc, rfl⟩

/-- What the indices show after the line of an address has been dropped. -/
def heardAfter (s : Desk) (w : World) (a : ℕ) (q : Vq) : ℕ :=
  if lineOf (Cell.availIdx q).addr = lineOf a then (w.offers q).length else s.heard q

/-- An index in the line dropped shows all offers there are, and the host has offered enough. -/
theorem At.heard (h : At t s w) (a : ℕ) : Heard t s a (heardAfter s w a) where
  other q hne := if_neg hne
  count hset q hline := by
    have hecho := h.echo hset
    have hknown := (h.ledger.known .rvq).length_le
    rw [heardAfter, if_pos hline]
    refine ⟨?_, ?_⟩
    · rintro rfl
      exact hecho.made
    · rintro rfl
      exact hknown.trans hecho.enough

/-- A line that holds nothing of a used ring is dropped. -/
theorem At.invalidate (h : At t s w) {a : ℕ} (ha : ¬UsedLine (lineOf a)) :
    At t (s.invalidate a (heardAfter s w a)) { w with mem := w.mem.drop (lineOf a) } := by
  have hused : ∀ c : Cell, c.Used → Loc.line (.cell c) ≠ lineOf a :=
    fun c hc heq => ha (heq ▸ usedLine_of_used hc)
  -- The line that is dropped is now as memory has it; every other line is seen as before.
  have hram : ∀ l : Loc, l.line = lineOf a →
      (w.mem.drop (lineOf a)).view Loc.line l = w.ram l :=
    fun l hl => Tagged.view_drop.trans (if_pos hl)
  have hagrees : ∀ l : Loc, l.line = lineOf a ∨ w.mem.Agrees Loc.line l →
      (w.mem.drop (lineOf a)).Agrees Loc.line l := fun l => Tagged.agrees_drop
  exact {
    var := h.var
    avail := h.avail
    whole := h.whole
    memory := h.memory.drop _
    ledger := (h.ledger.mem _).congr rfl rfl rfl rfl
    rings := {
      view := fun c hc => (Tagged.view_drop_of_ne (hused c hc)).trans (h.rings.view c hc)
      sound := fun c hc => (h.rings.sound c hc).drop _
      -- What is in memory by now: what was there before, or the line dropped, in which no used ring
      -- lies.
      synced := fun c hc hs => by
        refine hagrees _ (hs.elim (fun hs => .inr (h.rings.synced c hc hs)) fun hline => ?_)
        exact absurd hline (hused c hc)
      idx := h.rings.idx
      visible := h.rings.visible
      element := fun q r j hj hr => by
        obtain ⟨o, ho, hid, hlen, hids, hlens⟩ := h.rings.element q r j hj hr
        exact ⟨o, ho, hid, hlen, .inl hids, .inl hlens⟩ }
    fields := {
      stored := fun l hs => h.fields.stored l (Tagged.stored_drop.mp hs).1
      index_ram := h.fields.index_ram
      -- An index in the line dropped is read afresh; the host may have moved it since.
      index_view := fun q => by
        by_cases hline : Loc.line (.cell (.availIdx q)) = lineOf a
        · exact ⟨_, (h.ledger.known q).length_le, (if_pos hline).le, le_rfl,
            (hram _ hline).trans (h.fields.index_ram q)⟩
        · obtain ⟨m, hknown, hheard, hle, hview⟩ := h.fields.index_view q
          exact ⟨m, hknown, (if_neg hline).le.trans hheard, hle,
            (Tagged.view_drop_of_ne hline).trans hview⟩
      fresh_le := fun c => by
        rw [Desk.fresh_invalidate]
        split
        · exact le_rfl
        · exact h.fields.fresh_le c
      field_ram := h.fields.field_ram
      -- A field in the line dropped is read from memory, where the host has written it.
      field_view := fun q j o c v ho hj hc hfresh => by
        by_cases hline : Loc.line (.cell c) = lineOf a
        · exact (hram _ hline).trans (h.fields.field_ram q j o c v ho hj hc)
        · have hother : ¬lineOf c.addr = lineOf a := hline
          rw [Desk.fresh_invalidate, if_neg hother] at hfresh
          exact (Tagged.view_drop_of_ne hline).trans
            (h.fields.field_view q j o c v ho hj hc hfresh) }
    buffers := {
      view := fun x b hx hb => by
        obtain ⟨hb, hsynced⟩ := Desk.bytes_invalidate hb
        rw [← h.buffers.view x b hx hb]
        refine congrArg (BitVec.ofNat 8) ?_
        by_cases hline : Loc.line (.byte x) = lineOf a
        · exact (hram _ hline).trans (h.buffers.synced x b hx hb (hsynced hline)).symm
        · exact Tagged.view_drop_of_ne hline
      sound := fun x b hx hb => (h.buffers.sound x b hx (Desk.bytes_invalidate hb).1).drop _
      synced := fun x b hx hb hs => by
        obtain ⟨hb, -⟩ := Desk.bytes_invalidate hb
        exact hagrees _ (hs.elim (fun hs => .inr (h.buffers.synced x b hx hb hs)) .inl)
      -- A dirty line that remains was dirty before, and is not the one dropped.
      stored := fun hset x hx hs => by
        obtain ⟨hold, hne⟩ := Tagged.stored_drop.mp hs
        obtain ⟨q, j, o, y, ho, hx', hy, hline, hnot⟩ := h.buffers.stored hset x hx hold
        exact ⟨q, j, o, y, ho, hx', hy, hline, not_or.mpr ⟨hnot, fun heq =>
          hne (hline.symm.trans heq)⟩⟩
      content := h.buffers.content
      current := fun hset j o i b ho hb hi =>
        hagrees _ (.inr (h.buffers.current hset j o i b ho hb hi))
      message := fun r j o hj hr ho => by
        obtain ⟨m, hm, hlen, hb⟩ := h.buffers.message r j o hj hr ho
        exact ⟨m, hm, hlen, fun k b hk => ⟨hagrees _ (.inr (hb k b hk).1), (hb k b hk).2⟩⟩ }
    echo := fun hset =>
      { h.echo hset with
        status_view := by
          by_cases hline : Loc.line (.cell .vdevStatus) = lineOf a
          · rw [World.view, hram _ hline]
            exact (h.echo hset).status
          · rw [World.view, Tagged.view_drop_of_ne hline]
            exact (h.echo hset).status_view } }

/-! ### Stores -/

section Store

variable {l : Loc} {v : ℕ}

/-- A store through the cache leaves the host's fields as the host wrote them. -/
theorem HostFields.store (h : HostFields s w) (hm : w.mem.Proper)
    (hindex : ∀ q, .cell (.availIdx q) ≠ l) (hhost : ∀ c, HostField c → .cell c ≠ l)
    (hline : UsedLine l.line ∨ ∃ a, InShm a ∧ lineOf a = l.line) :
    HostFields s { w with mem := w.mem.store Loc.line l v } where
  stored l' hs := by
    rcases Tagged.stored_store hs with rfl | hs
    · exact hline
    · exact h.stored l' hs
  index_ram q := (Tagged.ram_store_of_ne (hindex q)).trans (h.index_ram q)
  index_view q := by
    obtain ⟨m, hknown, hheard, hle, hview⟩ := h.index_view q
    refine ⟨m, hknown, hheard, hle, ?_⟩
    exact ((Tagged.view_store hm).trans (if_neg (hindex q))).trans hview
  fresh_le := h.fresh_le
  field_ram q j o c u ho hj hc :=
    (Tagged.ram_store_of_ne (hhost c (field_hostField hc).1)).trans (h.field_ram q j o c u ho hj hc)
  field_view q j o c u ho hj hc hfresh :=
    ((Tagged.view_store hm).trans (if_neg (hhost c (field_hostField hc).1))).trans
      (h.field_view q j o c u ho hj hc hfresh)

theorem EchoSide.store (h : EchoSide t w) (hm : w.mem.Proper) (hl : .cell .vdevStatus ≠ l) :
    EchoSide t { w with mem := w.mem.store Loc.line l v } :=
  { h with
    status := by
      have hram : (w.mem.store Loc.line l v).ram (.cell .vdevStatus) =
          w.ram (.cell .vdevStatus) := Tagged.ram_store_of_ne hl
      rw [World.ram, hram]
      exact h.status
    status_view := by
      have hview : (w.mem.store Loc.line l v).view Loc.line (.cell .vdevStatus) =
          w.view (.cell .vdevStatus) := (Tagged.view_store hm).trans (if_neg hl)
      rw [World.view, hview]
      exact h.status_view }

theorem UsedRings.storeByte (h : UsedRings s w) (hm : w.mem.Proper) (a : ℕ) (b : Byte) :
    UsedRings (s.storeByte a b) (w.storeByte a b) where
  view c hc := ((Tagged.view_store hm).trans (if_neg (by simp))).trans (h.view c hc)
  sound c hc := (h.sound c hc).store hm _ _
  synced c hc hs := Tagged.agrees_store_of_ne hm (by simp) (h.synced c hc hs.1)
  idx := h.idx
  visible q := by
    obtain ⟨m, hseen, hdone, hram⟩ := h.visible q
    exact ⟨m, hseen, hdone, (Tagged.ram_store_of_ne (by simp)).trans hram⟩
  element q r j hj hr := by
    obtain ⟨o, ho, hid, hlen, hids, hlens⟩ := h.element q r j hj hr
    exact ⟨o, ho, hid, hlen, ⟨hids, by simp⟩, ⟨hlens, by simp⟩⟩

theorem viewByte_storeByte (hm : w.mem.Proper) {a x : ℕ} {b : Byte} :
    (w.storeByte a b).viewByte x = if x = a then b else w.viewByte x := by
  have hview : (w.storeByte a b).view (.byte x) =
      if Loc.byte x = .byte a then b.toNat else w.view (.byte x) := Tagged.view_store hm
  rw [viewByte, hview]
  by_cases hx : x = a
  · rw [if_pos (congrArg Loc.byte hx), if_pos hx, BitVec.ofNat_toNat, BitVec.setWidth_eq]
  · rw [if_neg (fun heq => hx (Loc.byte.inj heq)), if_neg hx]
    rfl

/-- The bytes of the buffers are as the desk has them after one in hand has been written. -/
theorem Buffers.storeByte (h : Buffers t s w) (hm : w.mem.Proper) (hledger : Ledger s w) {a : ℕ}
    {b : Byte} {q₀ : Vq} {j₀ : ℕ} {o₀ : Offer} (ho₀ : s.InHand q₀ j₀ o₀) (hcov₀ : o₀.Covers a)
    (hwhole : t.setting ≠ .cached → w.mem.cached = true → o₀.Whole)
    (hmark : ∀ j o i, w.Lent .rvq j o → o.Covers (o.addr + i) → o.addr + i = a →
      j < s.taken .rvq ∧ 8 ≤ i ∧ i < 12) :
    Buffers t (s.storeByte a b) (w.storeByte a b) where
  view x b' hx hb' := by
    rw [viewByte_storeByte hm]
    rw [Desk.bytes_storeByte] at hb'
    by_cases heq : x = a
    · rw [if_pos heq] at hb' ⊢
      exact Option.some.inj hb'
    · rw [if_neg heq] at hb' ⊢
      exact h.view x b' hx hb'
  sound x b' hx hb' := by
    rw [Desk.bytes_storeByte] at hb'
    by_cases heq : x = a
    · rw [heq]
      exact Tagged.sound_store_self hm
    · rw [if_neg heq] at hb'
      exact (h.sound x b' hx hb').store hm _ _
  synced x b' hx hb' hs := by
    have hne : x ≠ a := fun heq => hs.2 (congrArg Loc.byte heq)
    rw [Desk.bytes_storeByte, if_neg hne] at hb'
    exact Tagged.agrees_store_of_ne hm hs.2 (h.synced x b' hx hb' hs.1)
  stored hset x hx hs := by
    by_cases hline : lineOf x = lineOf a
    -- The line is dirty now on account of the byte written, in a buffer of whole lines.
    · have hcached := Tagged.cached_of_stored (hm.store _ _) hs
      rw [Tagged.cached_store] at hcached
      have hcov := (hwhole hset hcached).covers hcov₀ hline
      exact ⟨q₀, j₀, o₀, a, ho₀, hcov, hcov₀, hline.symm, fun hsync => hsync.2 rfl⟩
    · rcases Tagged.stored_store hs with heq | hold
      · exact absurd heq hline
      · obtain ⟨q, j, o, y, ho, hx', hy, hline', hnot⟩ := h.stored hset x hx hold
        exact ⟨q, j, o, y, ho, hx', hy, hline', fun hsync => hnot hsync.1⟩
  content hset j o i b' ho hb' hi := by
    have hne : Loc.byte (o.addr + i) ≠ .byte a := by
      intro heq
      obtain ⟨hj, hlo, hhi⟩ := hmark j o i ho (hledger.covers_content ho hb') (Loc.byte.inj heq)
      rcases hi with hi | hi
      · exact absurd hj hi.not_gt
      · exact hi ⟨hlo, hhi⟩
    exact (congrArg (BitVec.ofNat 8) (Tagged.ram_store_of_ne hne)).trans
      (h.content hset j o i b' ho hb' hi)
  current hset j o i b' ho hb' hi := by
    have hlent := hledger.lent_of_inHand ho
    have hne : Loc.byte (o.addr + i) ≠ .byte a := fun heq =>
      hi (hmark j o i hlent (hledger.covers_content hlent hb') (Loc.byte.inj heq)).2
    exact Tagged.agrees_store_of_ne hm hne (h.current hset j o i b' ho hb' hi)
  message r j o hj hr ho := by
    obtain ⟨m, hmsg, hlen, hbytes⟩ := h.message r j o hj hr ho
    refine ⟨m, hmsg, hlen, fun k b' hb' => ?_⟩
    obtain ⟨hagrees, hram⟩ := hbytes k b' hb'
    have hk := (List.getElem?_eq_some_iff.1 hb').1
    have hne : Loc.byte (o.addr + k) ≠ .byte a := by
      rintro ⟨⟩
      have hsame := hledger.apart _ _ j j₀ o o₀ _ (hledger.lent_of_done hj hr ho)
        (hledger.lent_of_inHand ho₀) ⟨by omega, by omega⟩ hcov₀
      obtain ⟨rfl, rfl⟩ := hsame
      exact hledger.tidy.fresh_hand _ _ ho₀.1 (List.mem_of_getElem? hj)
    exact ⟨Tagged.agrees_store_of_ne hm hne hagrees,
      (congrArg (BitVec.ofNat 8) (Tagged.ram_store_of_ne hne)).trans hram⟩

/-- Where messages can be received through a cache, buffers are made of whole lines. -/
theorem At.whole_of_inHand (h : At t s w) (hset : t.setting ≠ .cached)
    (hcached : w.mem.cached = true) {q : Vq} {j : ℕ} {o : Offer} (ho : s.InHand q j o) :
    o.Whole := by
  have hmem := List.mem_of_getElem? (h.ledger.lent_of_inHand ho).2
  exact h.whole (tends_of_cached hset hcached) q o hmem

/-- A byte of a buffer in hand is written, of a message only one of the reserved word. -/
theorem At.storeByte (h : At t s w) {a : ℕ} {b : Byte} {q : Vq} {j : ℕ} {o : Offer}
    (ho : s.InHand q j o) (hcov : o.Covers a)
    (hmark : ∀ j o i, w.Lent .rvq j o → o.Covers (o.addr + i) → o.addr + i = a →
      j < s.taken .rvq ∧ 8 ≤ i ∧ i < 12) :
    At t (s.storeByte a b) (w.storeByte a b) where
  var := h.var
  avail := h.avail
  whole hset := h.whole (hset.congr Tagged.cached_store)
  memory := h.memory.store _ _
  ledger := (h.ledger.mem _).congr rfl rfl rfl rfl
  rings := h.rings.storeByte h.memory a b
  fields := by
    have hproper := h.ledger.proper_of_lent (h.ledger.lent_of_inHand ho)
    have hf := h.fields.store (l := .byte a) (v := b.toNat) h.memory (by simp) (by simp)
      (.inr ⟨a, hproper.inShm hcov, rfl⟩)
    exact { hf with }
  buffers := h.buffers.storeByte h.memory h.ledger ho hcov
    (fun hset hcached => h.whole_of_inHand hset hcached ho) hmark
  echo hset := (h.echo hset).store h.memory (by simp)

/-- A byte of a transmit buffer in hand is written. -/
theorem At.compose (h : At t s w) {a : ℕ} {b : Byte} (ha : s.Composes a) :
    At t (s.storeByte a b) (w.storeByte a b) := by
  obtain ⟨j, o, ho, hcov⟩ := ha
  refine h.storeByte ho hcov fun j' o' i ho' hcov' hi => ?_
  rw [hi] at hcov'
  exact absurd (h.ledger.apart _ _ j j' o o' a (h.ledger.lent_of_inHand ho) ho' hcov hcov').1
    (by simp)

/-- A byte of the reserved word of a message in hand is written. -/
theorem At.mark (h : At t s w) {j : ℕ} {o : Offer} {b : Byte} (ho : s.InHand .rvq j o) {k : ℕ}
    (hk : k < 4) : At t (s.storeByte (o.addr + 8 + k) b) (w.storeByte (o.addr + 8 + k) b) := by
  have hlent := h.ledger.lent_of_inHand ho
  have hroom := (h.ledger.proper _ o (List.mem_of_getElem? hlent.2)).room
  rw [RPMSG_HDR_SIZE] at hroom
  have hcov : o.Covers (o.addr + 8 + k) := ⟨by omega, by omega⟩
  refine h.storeByte ho hcov fun j' o' i ho' hcov' hi => ?_
  rw [hi] at hcov'
  obtain ⟨-, rfl⟩ := h.ledger.apart _ _ j j' o o' _ hlent ho' hcov hcov'
  have heq : o = o' := Option.some.inj (hlent.2.symm.trans ho'.2)
  subst heq
  exact ⟨h.ledger.tidy.hand_lt _ _ ho.1, by omega, by omega⟩

end Store

/-! ### Elements of used rings -/

section Element

variable {q : Vq} {c : Cell} {n : ℕ}

theorem view_storeCell (hm : w.mem.Proper) (c' : Cell) :
    (w.storeCell c n).view (.cell c') = if c' = c then n else w.view (.cell c') := by
  have hview : (w.storeCell c n).view (.cell c') =
      if Loc.cell c' = .cell c then n else w.view (.cell c') := Tagged.view_store hm
  simpa using hview

theorem HostFields.storeCell (h : HostFields s w) (hm : w.mem.Proper) (hc : c.Used) :
    HostFields s (w.storeCell c n) := by
  refine h.store hm ?_ ?_ (.inl (usedLine_of_used hc))
  · rintro q ⟨⟩
    exact hc
  · intro c' hc' heq
    exact used_ne_host hc hc' (Loc.cell.inj heq).symm

theorem Buffers.storeCell (h : Buffers t s w) (hm : w.mem.Proper) {c : Cell} (hc : c.Used)
    (n : ℕ) : Buffers t (s.storeCell c n) (w.storeCell c n) where
  view a b ha hb := by
    refine Eq.trans ?_ (h.view a b ha hb)
    exact congrArg (BitVec.ofNat 8) ((Tagged.view_store hm).trans (if_neg (by simp)))
  sound a b ha hb := (h.sound a b ha hb).store hm _ _
  synced a b ha hb hs := Tagged.agrees_store_of_ne hm (by simp) (h.synced a b ha hb hs.1)
  stored hset a ha hs := by
    rcases Tagged.stored_store hs with heq | hold
    · exact absurd ⟨c, hc, heq.symm⟩ (not_usedLine_inShm ha)
    · obtain ⟨q, j, o, x, ho, ha', hx, hline, hnot⟩ := h.stored hset a ha hold
      exact ⟨q, j, o, x, ho, ha', hx, hline, fun hsync => hnot hsync.1⟩
  content hset j o i b ho hb hi :=
    (congrArg (BitVec.ofNat 8) (Tagged.ram_store_of_ne (by simp))).trans
      (h.content hset j o i b ho hb hi)
  current hset j o i b ho hb hi :=
    Tagged.agrees_store_of_ne hm (by simp) (h.current hset j o i b ho hb hi)
  message r j o hj hr ho := by
    obtain ⟨m, hmsg, hlen, hbytes⟩ := h.message r j o hj hr ho
    refine ⟨m, hmsg, hlen, fun k b hb => ?_⟩
    obtain ⟨hagrees, hram⟩ := hbytes k b hb
    exact ⟨Tagged.agrees_store_of_ne hm (by simp) hagrees,
      (congrArg (BitVec.ofNat 8) (Tagged.ram_store_of_ne (by simp))).trans hram⟩

/-- The element for the next buffer returned is none that the host has yet to read. -/
theorem Ledger.slot_ne (h : Ledger s w) (hhand : s.hand q ≠ []) {r : ℕ} (hr : w.seen q ≤ r)
    (hlt : r < (s.done q).length) : r % VRING_NUM_BUFFS ≠ s.slot q := by
  have hnext := h.done_lt hhand
  rw [Desk.slot]
  rw [VRING_NUM_BUFFS] at hnext ⊢
  omega

/-- The field is one of the element for the next buffer returned. -/
def OfSlot (s : Desk) (q : Vq) (c : Cell) : Prop :=
  c = .usedId q (s.slot q) ∨ c = .usedLen q (s.slot q)

theorem OfSlot.used (h : OfSlot s q c) : c.Used := by
  have hslot : s.slot q < VRING_NUM_BUFFS := Nat.mod_lt _ (by decide)
  rcases h with rfl | rfl <;> exact hslot

/-- The element for the next buffer returned is written. -/
theorem At.storeElement (h : At t s w) (hhand : s.hand q ≠ []) (hc : OfSlot s q c) :
    At t (s.storeCell c n) (w.storeCell c n) := by
  have hm := h.memory
  -- The element is no index, and none that the host has yet to read.
  have hidx : ∀ q', Cell.usedIdx q' ≠ c := by
    rintro q' rfl
    simp [OfSlot] at hc
  have hold : ∀ q' r, w.seen q' ≤ r → r < (s.done q').length →
      Cell.usedId q' (r % VRING_NUM_BUFFS) ≠ c ∧ Cell.usedLen q' (r % VRING_NUM_BUFFS) ≠ c := by
    intro q' r hr hlt
    rcases eq_or_ne q' q with rfl | hne
    · have hslot := h.ledger.slot_ne hhand hr hlt
      rcases hc with rfl | rfl <;> simp [hslot]
    · rcases hc with rfl | rfl <;> simp [hne]
  exact {
    var := h.var
    avail := h.avail
    whole := fun hset => h.whole (hset.congr Tagged.cached_store)
    memory := hm.store _ _
    ledger := (h.ledger.mem _).congr rfl rfl rfl rfl
    rings := {
      view := fun c' hc' => by
        rw [view_storeCell hm, Desk.cell_storeCell, h.rings.view c' hc']
      sound := fun c' hc' => (h.rings.sound c' hc').store hm _ _
      synced := fun c' hc' hs => Tagged.agrees_store_of_ne hm hs.2 (h.rings.synced c' hc' hs.1)
      idx := fun q' => (Function.update_of_ne (hidx q') ..).trans (h.rings.idx q')
      visible := fun q' => by
        obtain ⟨m, hseen, hdone, hram⟩ := h.rings.visible q'
        refine ⟨m, hseen, hdone, (Tagged.ram_store_of_ne ?_).trans hram⟩
        simpa using hidx q'
      element := fun q' r j hj hr => by
        obtain ⟨o, ho, hid, hlen, hids, hlens⟩ := h.rings.element q' r j hj hr
        obtain ⟨hne, hne'⟩ := hold q' r hr (List.getElem?_eq_some_iff.1 hj).1
        exact ⟨o, ho, (Function.update_of_ne hne ..).trans hid,
          (Function.update_of_ne hne' ..).trans hlen, ⟨hids, by simpa using hne⟩,
          ⟨hlens, by simpa using hne'⟩⟩ }
    fields := { h.fields.storeCell hm hc.used with }
    buffers := h.buffers.storeCell hm hc.used n
    echo := fun hset => (h.echo hset).store hm (by rintro ⟨⟩; exact hc.used) }

end Element

/-! ### Returning a buffer -/

section GiveBack

variable {q : Vq} {j n : ℕ} {o : Offer}

/-- What is in hand after a buffer has been returned was in hand before. -/
theorem of_giveBack {q' : Vq} {j' : ℕ} {o' : Offer} (h : (s.giveBack q j n).InHand q' j' o') :
    s.InHand q' j' o' := by
  obtain ⟨hj', ho'⟩ := h
  refine ⟨?_, ho'⟩
  rcases eq_or_ne q' q with rfl | hne
  · simp only [Desk.giveBack, Function.update_self] at hj'
    exact List.mem_of_mem_erase hj'
  · simpa only [Desk.giveBack, Function.update_of_ne hne] using hj'

theorem holds_giveBack {a : ℕ} (h : (s.giveBack q j n).Holds a) : s.Holds a := by
  obtain ⟨q', j', o', ho', hcov⟩ := h
  exact ⟨q', j', o', of_giveBack ho', hcov⟩

/-- What is in hand stays in hand, but for the buffer returned. -/
theorem inHand_giveBack {q' : Vq} {j' : ℕ} {o' : Offer} (ho' : s.InHand q' j' o')
    (hne : q' = q → j' ≠ j) : (s.giveBack q j n).InHand q' j' o' := by
  refine ⟨?_, ho'.2⟩
  rcases eq_or_ne q' q with rfl | hq
  · simp only [Desk.giveBack, Function.update_self]
    exact (List.mem_erase_of_ne (hne rfl)).mpr ho'.1
  · simpa only [Desk.giveBack, Function.update_of_ne hq] using ho'.1

/-- What the elements of the used ring are for. -/
theorem getElem?_giveBack {q' : Vq} {r i : ℕ} (h : ((s.giveBack q j n).done q')[r]? = some i) :
    (s.done q')[r]? = some i ∨ (q' = q ∧ r = (s.done q).length ∧ i = j) := by
  rcases eq_or_ne q' q with rfl | hne
  · simp only [Desk.giveBack, Function.update_self] at h
    rcases lt_trichotomy r (s.done q').length with hlt | rfl | hgt
    · rw [List.getElem?_append_left hlt] at h
      exact .inl h
    · refine .inr ⟨rfl, rfl, ?_⟩
      simpa using h.symm
    · rw [List.getElem?_eq_none (by simp; omega)] at h
      cases h
  · simp only [Desk.giveBack, Function.update_of_ne hne] at h
    exact .inl h

theorem Ledger.giveBack (h : Ledger s w) (hj : j ∈ s.hand q) :
    Ledger (s.giveBack q j n) w :=
  { h with
    tidy := h.tidy.giveBack hj n
    seen_le := fun q' => by
      have hle := h.seen_le q'
      rcases eq_or_ne q' q with rfl | hne
      · simp only [Desk.giveBack, Function.update_self, List.length_append]
        exact hle.trans (Nat.le_add_right _ _)
      · simpa [Desk.giveBack, Desk.storeCell, hne] using hle
    lent := fun q' i => by
      rcases eq_or_ne q' q with rfl | hne
      · simp only [Desk.giveBack, Function.update_self,
          List.take_append_of_le_length (h.seen_le q')]
        exact h.lent q' i
      · simpa [Desk.giveBack, Desk.storeCell, hne] using h.lent q' i }

/-- With the new index the used ring says what the firmware has returned. -/
theorem UsedRings.giveBack (h : UsedRings s w) (hm : w.mem.Proper)
    (hr : Returnable t s q j o) :
    UsedRings (s.giveBack q j (((s.done q).length + 1) % 2 ^ 16))
      (w.storeCell (.usedIdx q) (((s.done q).length + 1) % 2 ^ 16)) where
  view c hc := by
    rw [view_storeCell hm, h.view c hc]
    exact (Desk.cell_storeCell ..).symm
  sound c hc := (h.sound c hc).store hm _ _
  synced c hc hs := Tagged.agrees_store_of_ne hm hs.2 (h.synced c hc hs.1)
  idx q' := by
    rcases eq_or_ne q' q with rfl | hne
    · simp [Desk.giveBack, Desk.storeCell]
    · have hcell : Cell.usedIdx q' ≠ .usedIdx q := fun heq => hne (Cell.usedIdx.inj heq)
      simpa [Desk.giveBack, Desk.storeCell, hne, hcell] using h.idx q'
  visible q' := by
    obtain ⟨m, hseen, hdone, hram⟩ := h.visible q'
    rcases eq_or_ne q' q with rfl | hne
    -- The new index is in memory at once or stays in the cache: the host sees one or the other.
    · have hram' : (w.storeCell (.usedIdx q') (((s.done q').length + 1) % 2 ^ 16)).ram
          (.cell (.usedIdx q')) = w.ram (.cell (.usedIdx q')) ∨
          (w.storeCell (.usedIdx q') (((s.done q').length + 1) % 2 ^ 16)).ram
            (.cell (.usedIdx q')) = ((s.done q').length + 1) % 2 ^ 16 :=
        Tagged.ram_store_self
      rcases hram' with hold | hnew
      · refine ⟨m, hseen, ?_, hold.trans hram⟩
        simp only [Desk.giveBack, Function.update_self, List.length_append]
        omega
      · refine ⟨(s.done q').length + 1, ?_, ?_, hnew⟩
        · exact (hseen.trans hdone).trans (Nat.le_succ _)
        · simp [Desk.giveBack]
    · refine ⟨m, hseen, ?_, (Tagged.ram_store_of_ne ?_).trans hram⟩
      · simpa [Desk.giveBack, Desk.storeCell, hne] using hdone
      · simpa using hne
  element q' r i hi hseen := by
    have hcell : ∀ c n, c ≠ .usedIdx q → (s.giveBack q j n).cell c = s.cell c :=
      fun c n hne => (Desk.cell_storeCell ..).trans (if_neg hne)
    -- The element of the buffer returned last was completed before the index moved.
    rcases getElem?_giveBack hi with hold | ⟨rfl, rfl, rfl⟩
    · obtain ⟨o', ho', hid, hlen, hids, hlens⟩ := h.element q' r i hold hseen
      exact ⟨o', ho', (hcell _ _ (by simp)).trans hid, (hcell _ _ (by simp)).trans hlen,
        ⟨hids, by simp⟩, ⟨hlens, by simp⟩⟩
    · exact ⟨o, hr.inHand.2, (hcell _ _ (by simp)).trans hr.id,
        (hcell _ _ (by simp)).trans hr.len, ⟨hr.id_synced, by simp⟩, ⟨hr.len_synced, by simp⟩⟩

/-- The buffers are as the desk has them after one has been returned. -/
theorem Buffers.giveBack (h : Buffers t s w) (hm : w.mem.Proper)
    (hr : Returnable t s q j o)
    (hclean : t.setting ≠ .cached → ∀ a, o.Covers a → s.synced (.byte a) ∨
      ¬w.mem.Stored (lineOf a)) :
    Buffers t (s.giveBack q j n) (w.storeCell (.usedIdx q) n) := by
  have hs := h.storeCell hm (c := .usedIdx q) trivial n
  have hheld : ∀ a, (s.giveBack q j n).Holds a → s.Holds a := fun a => holds_giveBack
  exact {
    view := fun a b ha hb => hs.view a b (hheld a ha) hb
    sound := fun a b ha hb => hs.sound a b (hheld a ha) hb
    synced := fun a b ha hb hsync => hs.synced a b (hheld a ha) hb hsync
    stored := fun hset a ha hstored => by
      obtain ⟨q', j', o', x, ho', ha', hx, hline, hnot⟩ := hs.stored hset a ha hstored
      refine ⟨q', j', o', x, inHand_giveBack ho' ?_, ha', hx, hline, hnot⟩
      -- The buffer returned has no dirty lines.
      rintro rfl rfl
      have heq : o' = o := Option.some.inj (ho'.2.symm.trans hr.inHand.2)
      subst heq
      rcases hclean hset x hx with hsync | hclean
      · exact hnot ⟨hsync, by simp⟩
      · rw [hline] at hclean
        rcases Tagged.stored_store hstored with hused | hold
        · exact not_usedLine_inShm ha ⟨.usedIdx _, trivial, hused.symm⟩
        · exact hclean hold
    content := hs.content
    current := fun hset j' o' i b ho' hb hi => by
      have hold : s.InHand .rvq j' o' := of_giveBack ho'
      exact hs.current hset j' o' i b hold hb hi
    message := fun r i o' hi hseen ho' => by
      rcases getElem?_giveBack hi with hold | ⟨rfl, rfl, rfl⟩
      · exact hs.message r i o' hold hseen ho'
      · have heq : o' = o := Option.some.inj (ho'.symm.trans hr.inHand.2)
        subst heq
        obtain ⟨m, hmsg, hlen, hbytes⟩ := hr.message rfl
        refine ⟨m, hmsg, hlen, fun k b hb => ?_⟩
        obtain ⟨hbyte, hsync⟩ := hbytes k b hb
        have hk := (List.getElem?_eq_some_iff.1 hb).1
        have hheld : s.Holds (o'.addr + k) := ⟨_, _, o', hr.inHand, by omega, by omega⟩
        have hagrees := h.synced _ b hheld hbyte hsync
        refine ⟨Tagged.agrees_store_of_ne hm (by simp) hagrees, ?_⟩
        have hram : (w.storeCell (.usedIdx .svq) n).ram (.byte (o'.addr + k)) =
            w.view (.byte (o'.addr + k)) :=
          (Tagged.ram_store_of_ne (by simp)).trans hagrees.symm
        rw [ramByte, hram]
        exact h.view _ b hheld hbyte }

/-- A buffer is returned. -/
theorem At.giveBack (h : At t s w) (hr : Returnable t s q j o)
    (hclean : w.Tends t.toRules → q = .rvq → ∀ a, o.Covers a → ¬w.mem.Stored (lineOf a)) :
    At t (s.giveBack q j (((s.done q).length + 1) % 2 ^ 16))
      (w.storeCell (.usedIdx q) (((s.done q).length + 1) % 2 ^ 16)) where
  var := h.var
  avail := h.avail
  whole hset := h.whole (hset.congr Tagged.cached_store)
  memory := h.memory.store _ _
  ledger := (h.ledger.mem _).giveBack hr.inHand.1
  rings := h.rings.giveBack h.memory hr
  fields := { h.fields.storeCell h.memory (c := .usedIdx q) trivial with }
  buffers := by
    refine h.buffers.giveBack h.memory hr fun hset a ha => ?_
    cases q with
    | svq => exact .inl (hr.clean hset rfl a ha)
    | rvq =>
      refine .inr fun hs => ?_
      exact hclean (tends_of_cached hset (Tagged.cached_of_stored h.memory hs)) rfl a ha hs
  echo hset := (h.echo hset).store h.memory (by simp)

end GiveBack

/-! ### Private variables -/

/-- A private variable is written. -/
theorem At.set (h : At t s w) {v : Var} (hv : ∀ q, Var.vqAvailableIdx q ≠ v) (n : ℕ) :
    At t (s.set v n) { w with var := Function.update w.var v n } where
  var := by rw [← h.var, Desk.set]
  avail q := (Function.update_of_ne (hv q) ..).trans (h.avail q)
  whole := h.whole
  memory := h.memory
  ledger := by
    have hledger : Ledger (s.set v n) w := h.ledger.congr rfl rfl rfl rfl
    exact { hledger with }
  rings := { h.rings with }
  fields := { h.fields with }
  buffers := { h.buffers with }
  echo hset := { h.echo hset with }

/-! ### Taking a buffer -/

section Take

variable {q : Vq} {o : Offer}

/-- The next offer is not in hand. -/
theorem Ledger.not_holds_next (h : Ledger s w) (ho : (s.known q)[s.taken q]? = some o) {a : ℕ}
    (ha : o.Covers a) : w.Lent q (s.taken q) o ∧ ¬s.Holds a := by
  have hlent := h.lent_of_not_done (fun hmem => (h.tidy.done_lt q _ hmem).false) ho
  refine ⟨hlent, ?_⟩
  rintro ⟨q', j', o', ho', hcov⟩
  obtain ⟨rfl, rfl⟩ := h.apart _ _ _ _ _ _ a (h.lent_of_inHand ho') hlent hcov ha
  exact (h.tidy.hand_lt _ _ ho'.1).false

/-- What is known of the bytes once a buffer has been taken: of a message, what the firmware
sees. -/
def takenBytes (s : Desk) (w : World) (q : Vq) (o : Offer) (a : ℕ) : Option Byte :=
  if o.Covers a then if q = .rvq then some (w.viewByte a) else none else s.bytes a

/-- A byte that becomes known is one of a message, and is what the firmware sees. -/
theorem takenBytes_covered {a : ℕ} {b : Byte} (ha : o.Covers a)
    (hb : takenBytes s w q o a = some b) : q = .rvq ∧ w.viewByte a = b := by
  rw [takenBytes, if_pos ha] at hb
  split at hb
  · next hq => exact ⟨hq, Option.some.inj hb⟩
  · cases hb

theorem takenBytes_of_not {a : ℕ} (ha : ¬o.Covers a) : takenBytes s w q o a = s.bytes a :=
  if_neg ha

/-- What is in memory once a buffer has been taken. -/
def takenSynced (s : Desk) (o : Offer) (l : Loc) : Prop :=
  s.synced l ∨ ∃ a, l = .byte a ∧ o.Covers a

theorem takenSynced_cell {c : Cell} : takenSynced s o (.cell c) ↔ s.synced (.cell c) := by
  simp [takenSynced]

theorem takenSynced_byte {a : ℕ} : takenSynced s o (.byte a) ↔ s.synced (.byte a) ∨ o.Covers a := by
  simp [takenSynced]

section Taking

variable {n : ℕ} {bytes : ℕ → Option Byte} {synced : Loc → Prop} {q' : Vq} {j' : ℕ} {o' : Offer}

/-- One buffer more is in hand. -/
theorem of_take (ho : (s.known q)[s.taken q]? = some o)
    (h : (s.take q n bytes synced).InHand q' j' o') :
    s.InHand q' j' o' ∨ (q' = q ∧ o' = o) := by
  obtain ⟨hj', ho'⟩ := h
  rcases eq_or_ne q' q with rfl | hne
  · simp only [Desk.take, Function.update_self, List.mem_append, List.mem_singleton] at hj'
    rcases hj' with hj' | rfl
    · exact .inl ⟨hj', ho'⟩
    · exact .inr ⟨rfl, Option.some.inj (ho'.symm.trans ho)⟩
  · simp only [Desk.take, Function.update_of_ne hne] at hj'
    exact .inl ⟨hj', ho'⟩

theorem inHand_take (h : s.InHand q' j' o') : (s.take q n bytes synced).InHand q' j' o' := by
  obtain ⟨hj', ho'⟩ := h
  refine ⟨?_, ho'⟩
  rcases eq_or_ne q' q with rfl | hne
  · simp only [Desk.take, Function.update_self]
    exact List.mem_append_left _ hj'
  · simpa only [Desk.take, Function.update_of_ne hne] using hj'

end Taking

/-- A buffer that is taken comes with its bytes, those of a message being in memory. -/
theorem Buffers.take (h : Buffers t s w) (hledger : Ledger s w)
    (ho : (s.known q)[s.taken q]? = some o)
    (hseen : q = .rvq → ∀ a, o.Covers a → w.mem.Agrees Loc.line (.byte a)) (n : ℕ) :
    Buffers t (s.take q n (takenBytes s w q o) (takenSynced s o))
      { w with var := Function.update w.var (.vqAvailableIdx q) n } := by
  -- A byte outside the buffer taken was in hand before.
  have hholds : ∀ a, (s.take q n (takenBytes s w q o) (takenSynced s o)).Holds a →
      ¬o.Covers a → s.Holds a := by
    rintro a ⟨q', j', o', ho', hcov⟩ hnot
    rcases of_take ho ho' with hold | ⟨-, rfl⟩
    · exact ⟨q', j', o', hold, hcov⟩
    · exact absurd hcov hnot
  exact {
    view := fun a b ha hb => by
      by_cases hcov : o.Covers a
      · exact (takenBytes_covered hcov hb).2
      · exact h.view a b (hholds a ha hcov) ((takenBytes_of_not hcov).symm.trans hb)
    sound := fun a b ha hb => by
      by_cases hcov : o.Covers a
      · exact (hseen (takenBytes_covered hcov hb).1 a hcov).sound
      · exact h.sound a b (hholds a ha hcov) ((takenBytes_of_not hcov).symm.trans hb)
    synced := fun a b ha hb hs => by
      by_cases hcov : o.Covers a
      · exact hseen (takenBytes_covered hcov hb).1 a hcov
      · exact h.synced a b (hholds a ha hcov) ((takenBytes_of_not hcov).symm.trans hb)
          ((takenSynced_byte.mp hs).resolve_right hcov)
    -- A dirty line has a byte in hand that need not be in memory, and none of the buffer taken is
    -- one.
    stored := fun hset a ha hs => by
      obtain ⟨q', j', o', x, ho', ha', hx, hline, hnot⟩ := h.stored hset a ha hs
      refine ⟨q', j', o', x, inHand_take ho', ha', hx, hline, fun hsync => ?_⟩
      rcases takenSynced_byte.mp hsync with hsync | hcov
      · exact hnot hsync
      · exact (hledger.not_holds_next ho hcov).2 ⟨q', j', o', ho', hx⟩
    content := fun hset j' o' i b hlent hb hi => by
      refine h.content hset j' o' i b hlent hb (hi.imp_left fun hle => ?_)
      rcases eq_or_ne .rvq q with rfl | hne
      · simp only [Desk.take, Function.update_self] at hle
        omega
      · simpa only [Desk.take, Function.update_of_ne hne] using hle
    current := fun hset j' o' i b ho' hb hi => by
      rcases of_take ho ho' with hold | ⟨rfl, rfl⟩
      · exact h.current hset j' o' i b hold hb hi
      · have hlent := hledger.lent_of_not_done
          (fun hmem => (hledger.tidy.done_lt _ _ hmem).false) ho
        exact hseen rfl _ (hledger.covers_content hlent hb)
    message := h.message }

/-- What the firmware sees of a message when it is taken. -/
theorem At.seen_of_tended (h : At t s w) {n : ℕ} (hset : t.setting ≠ .cached)
    (htended : w.Tends t.toRules → w.Tended (.set (.vqAvailableIdx .rvq) n))
    (ho : (s.known .rvq)[s.taken .rvq]? = some o) {a : ℕ} (ha : o.Covers a) :
    w.mem.Agrees Loc.line (.byte a) := by
  by_cases hcached : w.mem.cached = true
  · refine htended (tends_of_cached hset hcached) _ o a (h.ledger.not_holds_next ho ha).1 ?_ ha
    rw [← h.var, h.avail]
  -- Without a cache memory shows through.
  · exact Tagged.agrees_of_not_held (h.memory (by simpa using hcached) _)

/-- Of a message, what is known is as the host made it. -/
theorem At.takenBytes_content (h : At t s w) (hset : t.setting ≠ .cached)
    (hseen : ∀ a, o.Covers a → w.mem.Agrees Loc.line (.byte a))
    (ho : (s.known .rvq)[s.taken .rvq]? = some o) {i : ℕ} {b : Byte}
    (hb : o.content[i]? = some b) : takenBytes s w .rvq o (o.addr + i) = some b := by
  have hlent := h.ledger.lent_of_not_done
    (fun hmem => (h.ledger.tidy.done_lt _ _ hmem).false) ho
  have hcov := h.ledger.covers_content hlent hb
  rw [takenBytes, if_pos hcov, if_pos rfl,
    ← h.buffers.content hset _ o i b hlent hb (.inl le_rfl)]
  exact congrArg (fun n => some (BitVec.ofNat 8 n)) (hseen _ hcov)

/-- The next offer is taken. -/
theorem At.take (h : At t s w) (ho : (s.known q)[s.taken q]? = some o)
    (hseen : q = .rvq → ∀ a, o.Covers a → w.mem.Agrees Loc.line (.byte a)) :
    At t (s.take q ((s.taken q + 1) % 2 ^ 16) (takenBytes s w q o) (takenSynced s o))
      { w with var := Function.update w.var (.vqAvailableIdx q) ((s.taken q + 1) % 2 ^ 16) } where
  var := by rw [← h.var, Desk.take]
  avail q' := by
    rcases eq_or_ne q' q with rfl | hne
    · simp [Desk.take]
    · simpa [Desk.take, hne] using h.avail q'
  whole := h.whole
  memory := h.memory
  ledger :=
    { h.ledger with
      tidy := h.ledger.tidy.take (List.getElem?_eq_some_iff.1 ho).1 _ _ _ }
  rings :=
    { h.rings with
      synced := fun c hc hs => h.rings.synced c hc (takenSynced_cell.mp hs)
      element := fun q' r j hj hr => by
        obtain ⟨o', ho', hid, hlen, hids, hlens⟩ := h.rings.element q' r j hj hr
        exact ⟨o', ho', hid, hlen, .inl hids, .inl hlens⟩ }
  fields := { h.fields with }
  buffers := h.buffers.take h.ledger ho hseen _
  echo hset := { h.echo hset with }

end Take

/-! ### Seeing more offers -/

section See

variable {q : Vq}

/-- What is known after more offers have been seen, of the offers taken, was known before. -/
theorem known_of_see (h : Ledger s w) {offers : List Offer} (hpre : s.known q <+: offers)
    {q' : Vq} {j : ℕ} {o : Offer} (hj : j < s.taken q')
    (ho : ((s.see q offers).known q')[j]? = some o) : (s.known q')[j]? = some o := by
  rcases eq_or_ne q' q with rfl | hne
  · have hlt := hj.trans_le (h.tidy.taken_le q')
    have hget := List.getElem?_eq_getElem hlt
    rw [hget, ← getElem?_of_prefix hpre hget]
    simpa [Desk.see] using ho
  · simpa [Desk.see, hne] using ho

theorem known_see {offers : List Offer} (hpre : s.known q <+: offers) (q' : Vq) :
    s.known q' <+: (s.see q offers).known q' := by
  rcases eq_or_ne q' q with rfl | hne
  · simpa [Desk.see] using hpre
  · simp [Desk.see, hne]

/-- More offers are seen. -/
theorem At.see (h : At t s w) {offers : List Offer} (hpre : s.known q <+: offers)
    (hoffers : offers <+: w.offers q) (hheard : s.heard q ≤ offers.length)
    (hview : w.view (.cell (.availIdx q)) = offers.length % 2 ^ 16) :
    At t (s.see q offers) w := by
  -- More offers have become known, but none has been taken or returned.
  have hof : ∀ {q' j o}, (s.see q offers).InHand q' j o → s.InHand q' j o := by
    rintro q' j o ⟨hj, ho⟩
    exact ⟨hj, known_of_see h.ledger hpre (h.ledger.tidy.hand_lt q' j hj) ho⟩
  have hholds : ∀ a, (s.see q offers).Holds a → s.Holds a := by
    rintro a ⟨q', j, o, ho, hcov⟩
    exact ⟨q', j, o, hof ho, hcov⟩
  exact {
    var := h.var
    avail := h.avail
    whole := h.whole
    memory := h.memory
    ledger :=
      { h.ledger with
        tidy := h.ledger.tidy.see hpre
        known := fun q' => by
          rcases eq_or_ne q' q with rfl | hne
          · simpa [Desk.see] using hoffers
          · simpa [Desk.see, hne] using h.ledger.known q' }
    rings :=
      { h.rings with
        element := fun q' r j hj hr => by
          obtain ⟨o, ho, hrest⟩ := h.rings.element q' r j hj hr
          exact ⟨o, getElem?_of_prefix (known_see hpre q') ho, hrest⟩ }
    fields :=
      { h.fields with
        index_view := fun q' => by
          rcases eq_or_ne q' q with rfl | hne
          · exact ⟨offers.length, by simp [Desk.see], hheard, hoffers.length_le, hview⟩
          · simpa [Desk.see, hne] using h.fields.index_view q'
        fresh_le := fun c => (h.fields.fresh_le c).trans (known_see hpre c.queue).length_le }
    buffers :=
      { h.buffers with
        view := fun a b ha hb => h.buffers.view a b (hholds a ha) hb
        sound := fun a b ha hb => h.buffers.sound a b (hholds a ha) hb
        synced := fun a b ha hb hs => h.buffers.synced a b (hholds a ha) hb hs
        stored := fun hset a ha hs => by
          obtain ⟨q', j, o, x, ⟨hj, ho⟩, hrest⟩ := h.buffers.stored hset a ha hs
          exact ⟨q', j, o, x, ⟨hj, getElem?_of_prefix (known_see hpre q') ho⟩, hrest⟩
        current := fun hset j o i b ho hb hi => h.buffers.current hset j o i b (hof ho) hb hi
        message := fun r j o hj hr ho => by
          have hlt := h.ledger.tidy.done_lt .svq j (List.mem_of_getElem? hj)
          obtain ⟨m, hm, hrest⟩ :=
            h.buffers.message r j o hj hr (known_of_see h.ledger hpre hlt ho)
          exact ⟨m, t.message_mono (known_see hpre .rvq) hm, hrest⟩ }
    echo := h.echo }

/-- What the host keeps to is seen by the firmware. -/
theorem Ledger.hostKeeps (h : Ledger s w) : HostKeeps s where
  proper q o ho := h.proper q o ((h.known q).subset ho)
  formed o ho := h.formed o ((h.known .rvq).subset ho)
  window q := by
    have hknown := (h.known q).length_le
    have hwindow := h.window q
    have hseen := h.seen_le q
    omega
  apart q q' j j' o o' a hj hj' ho ho' := h.apart q q' j j' o o' a (h.lent_of_not_done hj ho)
    (h.lent_of_not_done hj' ho')

/-- The index of an available ring says how many offers are there. -/
theorem At.loadIndex (h : At t s w) (q : Vq) :
    ∃ offers, s.known q <+: offers ∧ s.heard q ≤ offers.length ∧
      w.view (.cell (.availIdx q)) = offers.length % 2 ^ 16 ∧ At t (s.see q offers) w ∧
      (t.setting = .echo → EchoSeen t q (s.see q offers).known) := by
  obtain ⟨m, hknown, hheard, hle, hview⟩ := h.fields.index_view q
  have hlen : ((w.offers q).take m).length = m := List.length_take_of_le hle
  have hpre : s.known q <+: (w.offers q).take m :=
    List.prefix_take_iff.mpr ⟨h.ledger.known q, hknown⟩
  refine ⟨(w.offers q).take m, hpre, hlen.symm ▸ hheard, hlen.symm ▸ hview,
    h.see hpre (List.take_prefix _ _) (hlen.symm ▸ hheard) (hlen.symm ▸ hview), fun hset => ?_⟩
  have hecho := h.echo hset
  have hrvq : (s.see q ((w.offers q).take m)).known .rvq <+: w.offers .rvq := by
    rcases eq_or_ne .rvq q with rfl | hne
    · simpa [Desk.see] using List.take_prefix m _
    · simpa [Desk.see, hne] using h.ledger.known .rvq
  refine ⟨⟨?_, ?_, ?_, ?_⟩, ?_⟩
  · exact hrvq.length_le.trans hecho.host.length_le
  · exact fun o ho => hecho.host.dst o (hrvq.subset ho)
  · exact fun o ho => hecho.host.src o (hrvq.subset ho)
  · exact fun o ho => hecho.host.size o (hrvq.subset ho)
  · rintro rfl o ho
    simp only [Desk.see, Function.update_self] at ho
    exact hecho.room o (List.mem_of_mem_take ho)

/-- Fields of the offer taken last that have been invalidated are as the host wrote them. -/
theorem At.told (h : At t s w) (c : Cell) : s.Told c (w.view (.cell c)) := by
  intro q j o v ho hlast hc hfresh
  refine h.fields.field_view q j o c v (h.ledger.lent_of_inHand ho) ?_ hc hfresh
  have hcount := h.ledger.tidy.count q
  have hwindow := h.ledger.window q
  have hseen := h.ledger.seen_le q
  have hpos := List.length_pos_of_mem ho.1
  omega

end See

/-! ### The accesses -/

/-- The buffer that can be returned is the one whose element is complete. -/
theorem Ledger.returnable_unique (h : Ledger s w) {q : Vq} {j j' : ℕ} {o o' : Offer}
    (hr : Returnable t s q j o) (hr' : Returnable t s q j' o') : j = j' :=
  h.inj q j j' o o' (h.lent_of_inHand hr.inHand) (h.lent_of_inHand hr'.inHand)
    (hr.id.symm.trans hr'.id)

/-- A receive buffer that is returned has no dirty lines where the cache is tended. -/
theorem At.clean_of_tended (h : At t s w) {j n : ℕ} {o : Offer} (hr : Returnable t s .rvq j o)
    (htended : w.Tended (.store (.usedIdx .rvq) n)) {a : ℕ} (ha : o.Covers a) :
    ¬w.mem.Stored (lineOf a) := by
  have hslot : s.slot .rvq < VRING_NUM_BUFFS := Nat.mod_lt _ (by decide)
  have hidx : w.view (.cell (.usedIdx .rvq)) % VRING_NUM_BUFFS = s.slot .rvq := by
    rw [h.rings.view (.usedIdx .rvq) trivial, h.rings.idx .rvq]
    exact Nat.mod_mod_of_dvd _ (by decide)
  refine htended j o a (h.ledger.lent_of_inHand hr.inHand) ?_ ha
  rw [hidx, h.rings.view (.usedId .rvq _) hslot, hr.id]

theorem At.viewByte (h : At t s w) {a : ℕ} {b : Byte} (hb : s.Reads a b) : w.viewByte a = b :=
  h.buffers.view a b hb.1 hb.2

/-- An access that the account permits does what the account says. -/
theorem At.perform (h : At t s w) (o : Op) (x : Answer) (hok : (exchange t).ok o s)
    (htended : w.Tends t.toRules → w.Tended o) :
    ∃ s', (exchange t).step o s (w.perform o x).1 s' ∧ At t s' (w.perform o x).2 := by
  cases o with
  | get v => exact ⟨s, ⟨(congrFun h.var v).symm, rfl⟩, h⟩
  | set v n =>
    cases v with
    | vqAvailableIdx q =>
      obtain ⟨hq, hlt, rfl⟩ := hok
      have ho := List.getElem?_eq_getElem hlt
      -- A message is taken after its lines have been dropped: what is seen of it is in memory.
      have hseen : q = .rvq → ∀ a, ((s.known q)[s.taken q]).Covers a →
          w.mem.Agrees Loc.line (.byte a) := by
        rintro rfl a ha
        exact h.seen_of_tended (hq rfl) htended ho ha
      refine ⟨_, ⟨_, takenBytes s w q _, takenSynced s _, ho, fun a ha => takenBytes_of_not ha, ?_,
        fun l hl _ => .inl hl, fun _ a ha => .inr ⟨a, rfl, ha⟩, rfl⟩, h.take ho hseen⟩
      rintro rfl i b hb
      exact h.takenBytes_content (hq rfl) (hseen rfl) ho hb
    | _ => exact ⟨_, rfl, h.set (by simp) n⟩
  | load c =>
    cases c with
    | availIdx q =>
      -- The index says how many offers can be seen; the host may have made more.
      obtain ⟨offers, hpre, hheard, hview, hat, hecho⟩ := h.loadIndex q
      exact ⟨_, ⟨offers, hpre, hheard, hview, rfl, hat.ledger.hostKeeps, hecho⟩, hat⟩
    | vdevStatus => exact ⟨s, ⟨rfl, fun hset => (h.echo hset).status_view⟩, h⟩
    | usedIdx q => exact ⟨s, ⟨rfl, h.rings.view (.usedIdx q) trivial⟩, h⟩
    | _ => exact ⟨s, ⟨rfl, h.told _⟩, h⟩
  | store c n =>
    cases c with
    | usedId q i =>
      obtain ⟨hhand, rfl⟩ := hok
      exact ⟨_, rfl, h.storeElement hhand (.inl rfl)⟩
    | usedLen q i =>
      obtain ⟨hhand, rfl⟩ := hok
      exact ⟨_, rfl, h.storeElement hhand (.inr rfl)⟩
    | usedIdx q =>
      obtain ⟨rfl, j, o, hr⟩ := hok
      refine ⟨s.giveBack q j _, fun j' o' hr' => ?_, h.giveBack hr ?_⟩
      · rw [h.ledger.returnable_unique hr hr']
      -- A message goes back without a dirty line.
      · rintro hset rfl a ha
        exact h.clean_of_tended hr (htended hset) ha
    | _ => exact hok.elim
  | load8 a => exact ⟨s, ⟨rfl, fun b hb => h.viewByte hb⟩, h⟩
  | load32 a =>
    refine ⟨s, ⟨rfl, fun q h0 h1 h2 h3 => ?_⟩, h⟩
    exact Quad.ext (h.viewByte h0) (h.viewByte h1) (h.viewByte h2) (h.viewByte h3)
  | store8 a b => exact ⟨_, rfl, h.compose hok⟩
  | store32 a q =>
    refine ⟨_, rfl, ?_⟩
    rcases hok with ⟨j, o, ho, rfl⟩ | hcompose
    -- The four bytes of the reserved word, or four of a transmit buffer.
    · exact (((h.mark ho (k := 0) (by omega)).mark ho (k := 1) (by omega)).mark ho (k := 2)
        (by omega)).mark ho (k := 3) (by omega)
    · exact (((h.compose (hcompose 0 (by omega))).compose (hcompose 1 (by omega))).compose
        (hcompose 2 (by omega))).compose (hcompose 3 (by omega))
  | cpa a => exact ⟨_, rfl, h.writeBack a⟩
  | ipa a => exact ⟨_, ⟨_, h.heard a, rfl⟩, h.invalidate hok⟩
  | iall => exact hok.elim
  | _ => exact ⟨s, rfl, h⟩

/-- The world does what the account says. -/
theorem simulates (t : Terms) (P : World → Prop) (ok : Op → World → Prop)
    (hP : ∀ s w, At t s w → P w)
    (hok : ∀ o s w, At t s w → (exchange t).ok o s → ok o w) :
    Simulates (World.contract t.toRules P ok) (exchange t) (At t) where
  inv s w h ms hfair := hP s _ (h.moves hfair)
  ok o s w h ho ms hfair := hok o s _ (h.moves hfair) ho
  step o s w x h ho hcond := by
    obtain ⟨hfair, htended⟩ := hcond
    exact (h.moves hfair).perform o x.answer ho htended

end C906Firmware
