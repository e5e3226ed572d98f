import C906Firmware.Exchange.World
import C906Firmware.Exchange.Rings

/-!
# The desk and the world

`At` relates what the firmware knows (`Desk`) to the memory and the host (`World`): the
bookkeeping of the two sides fits together, the rings are as both sides left them, and the
bytes of buffers are as the desk has them. Every move of the environment keeps it (`At.move`).
-/

namespace C906Firmware

open Interaction WriteBack World

variable {t : Terms} {s s' : Desk} {w : World}

/-! ### The relation -/

/-- The books of the firmware and of the host fit together. -/
structure Ledger (s : Desk) (w : World) : Prop where
  tidy : s.Tidy
  known : ∀ q, s.known q <+: w.offers q
  proper : ∀ q, ∀ o ∈ w.offers q, o.Proper
  formed : ∀ o ∈ w.offers .rvq, WellFormed o.content
  seen_le : ∀ q, w.seen q ≤ (s.done q).length
  lent : ∀ q j, j ∈ w.lent q ↔ j < (w.offers q).length ∧ j ∉ (s.done q).take (w.seen q)
  window : ∀ q, (w.offers q).length ≤ w.seen q + VRING_NUM_BUFFS
  inj : ∀ q j j' o o', w.Lent q j o → w.Lent q j' o' → o.idx = o'.idx → j = j'
  apart : ∀ q q' j j' o o' a, w.Lent q j o → w.Lent q' j' o' → o.Covers a → o'.Covers a →
    q = q' ∧ j = j'

/-- The used rings are as the firmware wrote them. -/
structure UsedRings (s : Desk) (w : World) : Prop where
  view : ∀ c, c.Used → w.view (.cell c) = s.cell c
  sound : ∀ c, c.Used → w.mem.Sound Loc.line (.cell c)
  synced : ∀ c, c.Used → s.synced (.cell c) → w.mem.Agrees Loc.line (.cell c)
  idx : ∀ q, s.cell (.usedIdx q) = (s.done q).length % 2 ^ 16
  visible : ∀ q, ∃ m, w.seen q ≤ m ∧ m ≤ (s.done q).length ∧
    w.ram (.cell (.usedIdx q)) = m % 2 ^ 16
  element : ∀ q r j, (s.done q)[r]? = some j → w.seen q ≤ r → ∃ o, (s.known q)[j]? = some o ∧
    s.cell (.usedId q (r % VRING_NUM_BUFFS)) = o.idx ∧
    s.cell (.usedLen q (r % VRING_NUM_BUFFS)) = o.len ∧
    s.synced (.cell (.usedId q (r % VRING_NUM_BUFFS))) ∧
    s.synced (.cell (.usedLen q (r % VRING_NUM_BUFFS)))

/-- The fields the host writes are as the host wrote them, in memory, and where their lines have
been invalidated since. -/
structure HostFields (s : Desk) (w : World) : Prop where
  stored : ∀ l, w.mem.Stored l → UsedLine l ∨ ∃ a, InShm a ∧ lineOf a = l
  index_ram : ∀ q, w.ram (.cell (.availIdx q)) = (w.offers q).length % 2 ^ 16
  index_view : ∀ q, ∃ m, (s.known q).length ≤ m ∧ s.heard q ≤ m ∧ m ≤ (w.offers q).length ∧
    w.view (.cell (.availIdx q)) = m % 2 ^ 16
  fresh_le : ∀ c, s.fresh c ≤ (s.known c.queue).length
  field_ram : ∀ q j o c v, w.Lent q j o → (w.offers q).length ≤ j + VRING_NUM_BUFFS →
    o.Field q j c v → w.ram (.cell c) = v
  field_view : ∀ q j o c v, w.Lent q j o → (w.offers q).length ≤ j + VRING_NUM_BUFFS →
    o.Field q j c v → j < s.fresh c → w.view (.cell c) = v

/-- The bytes of the buffers are as the desk has them. -/
structure Buffers (t : Terms) (s : Desk) (w : World) : Prop where
  view : ∀ a b, s.Holds a → s.bytes a = some b → w.viewByte a = b
  sound : ∀ a b, s.Holds a → s.bytes a = some b → w.mem.Sound Loc.line (.byte a)
  synced : ∀ a b, s.Holds a → s.bytes a = some b → s.synced (.byte a) →
    w.mem.Agrees Loc.line (.byte a)
  /-- Where messages can be received, a line is dirty only on account of a buffer in hand. -/
  stored : t.setting ≠ .cached → ∀ a, InShm a → w.mem.Stored (lineOf a) → ∃ q j o x,
    s.InHand q j o ∧ o.Covers a ∧ o.Covers x ∧ lineOf x = lineOf a ∧ ¬s.synced (.byte x)
  /-- There the memory has a message as the host made it, but for the reserved word once it has
  been taken. -/
  content : t.setting ≠ .cached → ∀ j o i b, w.Lent .rvq j o → o.content[i]? = some b →
    s.taken .rvq ≤ j ∨ ¬(8 ≤ i ∧ i < 12) → w.ramByte (o.addr + i) = b
  /-- While a message is in hand the firmware sees it so. -/
  current : t.setting ≠ .cached → ∀ j o i b, s.InHand .rvq j o → o.content[i]? = some b →
    ¬(8 ≤ i ∧ i < 12) → w.mem.Agrees Loc.line (.byte (o.addr + i))
  /-- A message that has been sent is in memory. -/
  message : ∀ r j o, (s.done .svq)[r]? = some j → w.seen .svq ≤ r →
    (s.known .svq)[j]? = some o → ∃ m, t.message (s.known .rvq) r o = some m ∧
      m.length ≤ o.len ∧ ∀ k b, m[k]? = some b →
        w.mem.Agrees Loc.line (.byte (o.addr + k)) ∧ w.ramByte (o.addr + k) = b

/-- What there is besides, with a host that only talks to the echo service. -/
structure EchoSide (t : Terms) (w : World) : Prop where
  host : EchoHost t.toRules (w.offers .rvq)
  room : ∀ o ∈ w.offers .svq, t.size ≤ o.room
  enough : (w.offers .rvq).length ≤ (w.offers .svq).length - t.ahead
  made : t.made ≤ (w.offers .rvq).length
  status : w.ram (.cell .vdevStatus) &&& VIRTIO_CONFIG_STATUS_DRIVER_OK ≠ 0
  status_view : w.view (.cell .vdevStatus) &&& VIRTIO_CONFIG_STATUS_DRIVER_OK ≠ 0

/-- The world is as the desk has it. -/
structure At (t : Terms) (s : Desk) (w : World) : Prop where
  var : s.var = w.var
  avail : ∀ q, s.var (.vqAvailableIdx q) = s.taken q % 2 ^ 16
  memory : w.mem.Proper
  ledger : Ledger s w
  rings : UsedRings s w
  fields : HostFields s w
  buffers : Buffers t s w
  echo : t.setting = .echo → EchoSide t w
  whole : w.Tends t.toRules → ∀ q, ∀ o ∈ w.offers q, o.Whole

/-! ### The books -/

namespace Ledger

variable {q : Vq} {j r : ℕ} {o : Offer}

theorem lent_of_not_done (h : Ledger s w) (hj : j ∉ s.done q) (ho : (s.known q)[j]? = some o) :
    w.Lent q j o := by
  have hget := getElem?_of_prefix (h.known q) ho
  refine ⟨(h.lent q j).mpr ⟨(List.getElem?_eq_some_iff.1 hget).1, fun hmem => hj ?_⟩, hget⟩
  exact List.mem_of_mem_take hmem

/-- What is in hand is lent. -/
theorem lent_of_inHand (h : Ledger s w) (ho : s.InHand q j o) : w.Lent q j o :=
  h.lent_of_not_done (h.tidy.fresh_hand q j ho.1) ho.2

/-- What has been returned is lent until the host has got it back. -/
theorem lent_of_done (h : Ledger s w) (hj : (s.done q)[r]? = some j) (hr : w.seen q ≤ r)
    (ho : (s.known q)[j]? = some o) : w.Lent q j o := by
  have hget := getElem?_of_prefix (h.known q) ho
  refine ⟨(h.lent q j).mpr ⟨(List.getElem?_eq_some_iff.1 hget).1, fun hmem => ?_⟩, hget⟩
  obtain ⟨i, hi, heq⟩ := List.mem_take_iff_getElem.mp hmem
  obtain ⟨hr', hval⟩ := List.getElem?_eq_some_iff.1 hj
  have hsame := (h.tidy.done_nodup q).getElem_inj_iff.mp (heq.trans hval.symm)
  omega

/-- Where the buffer is returned next is no element the host has not read. -/
theorem done_lt (h : Ledger s w) (hhand : s.hand q ≠ []) :
    (s.done q).length < w.seen q + VRING_NUM_BUFFS := by
  have hcount := h.tidy.count q
  have htaken := h.tidy.taken_le q
  have hknown := (h.known q).length_le
  have hwindow := h.window q
  have hpos := List.length_pos_iff.mpr hhand
  omega

theorem proper_of_lent (h : Ledger s w) (ho : w.Lent q j o) : o.Proper :=
  h.proper q o (List.mem_of_getElem? ho.2)

/-- Where a buffer's content is, the buffer is. -/
theorem covers_content (h : Ledger s w) (ho : w.Lent q j o) {i : ℕ} {b : Byte}
    (hb : o.content[i]? = some b) : o.Covers (o.addr + i) := by
  have hlen := (h.proper_of_lent ho).content_length
  have hlt := (List.getElem?_eq_some_iff.1 hb).1
  exact ⟨by omega, by omega⟩

/-- A lent buffer with a byte in hand is in hand. -/
theorem inHand_of_covers (h : Ledger s w) (ho : w.Lent q j o) {q' : Vq} {j' a : ℕ} {o' : Offer}
    (ho' : s.InHand q' j' o') (ha : o.Covers a) (ha' : o'.Covers a) : s.InHand q j o := by
  have hlent := h.lent_of_inHand ho'
  obtain ⟨rfl, rfl⟩ := h.apart q q' j j' o o' a ho hlent ha ha'
  have heq : o' = o := Option.some.inj (hlent.2.symm.trans ho.2)
  exact heq ▸ ho'

/-- The books depend on the numbers. -/
theorem congr (h : Ledger s w) (hknown : s'.known = s.known) (htaken : s'.taken = s.taken)
    (hhand : s'.hand = s.hand) (hdone : s'.done = s.done) : Ledger s' w :=
  { h with
    tidy := h.tidy.congr hknown htaken hhand hdone
    known := hknown ▸ h.known
    seen_le := hdone ▸ h.seen_le
    lent := hdone ▸ h.lent }

/-- The books do not depend on the memory. -/
theorem mem (h : Ledger s w) (m : Tagged Loc ℕ ℕ) : Ledger s { w with mem := m } := { h with }

end Ledger

/-! ### Lines -/

theorem used_ne_host {c c' : Cell} (hc : c.Used) (hc' : HostField c') : c ≠ c' := by
  rintro rfl
  cases c <;> first | exact hc' | exact hc

/-- Lines of the host's fields are never stored to. -/
theorem HostFields.not_stored (h : HostFields s w) {l : Loc} (hl : HostLine l.line) :
    ¬w.mem.Stored l.line := by
  intro hs
  rcases h.stored _ hs with hused | ⟨a, ha, hline⟩
  · exact hl.1 hused
  · exact hl.2 a ha hline

/-- What the index of an available ring shows has been offered. -/
theorem HostFields.heard_le (h : HostFields s w) (q : Vq) : s.heard q ≤ (w.offers q).length := by
  obtain ⟨m, -, hheard, hle, -⟩ := h.index_view q
  exact hheard.trans hle

theorem hostLine_availIdx (q : Vq) : HostLine (Loc.line (.cell (.availIdx q))) := by
  have hvring := vringUsed_eq q
  have havail : vringAvail q = vringAddress q + 2048 := rfl
  have haddr : (Cell.availIdx q).addr = vringAvail q + 2 := rfl
  refine hostLine_vring (q := q) ?_ ?_ <;>
    simp only [Loc.line, Loc.addr, lineOf, L1_CACHE_BYTES] <;> omega

theorem hostLine_vdevStatus : HostLine (Loc.line (.cell .vdevStatus)) := hostLine_rsc (by decide)

/-- So are lines of the fields of offers. -/
theorem hostLine_field {o : Offer} (ho : o.Proper) {q : Vq} {j v : ℕ} {c : Cell}
    (hc : o.Field q j c v) : HostLine (Loc.line (.cell c)) := by
  have hvring := vringUsed_eq q
  have havail : vringAvail q = vringAddress q + 2048 := rfl
  have hidx : o.idx < 128 := ho.idx_lt
  have hslot : j % VRING_NUM_BUFFS < 128 := Nat.mod_lt _ (by decide)
  refine hostLine_vring (q := q) ?_ ?_ <;>
    simp only [Loc.line, Loc.addr, lineOf, L1_CACHE_BYTES] <;>
    obtain ⟨rfl, -⟩ | ⟨rfl, -⟩ | ⟨rfl, -⟩ := hc <;>
    simp only [Cell.addr] <;> omega

/-- The fields that tell of an offer are written by the host, on the queue of the offer. -/
theorem field_hostField {o : Offer} {q : Vq} {j v : ℕ} {c : Cell} (hc : o.Field q j c v) :
    HostField c ∧ c.queue = q := by
  obtain ⟨rfl, -⟩ | ⟨rfl, -⟩ | ⟨rfl, -⟩ := hc <;> exact ⟨trivial, rfl⟩

/-! ### The cache moves -/

section Calm

variable {m : Tagged Loc ℕ ℕ} (hcalm : Tagged.Calm Loc.line w.mem m)

include hcalm

theorem UsedRings.calm (h : UsedRings s w) : UsedRings s { w with mem := m } where
  view c hc := (hcalm.view _ (h.sound c hc)).trans (h.view c hc)
  sound c hc := hcalm.sound _ (h.sound c hc)
  synced c hc hs := hcalm.agrees _ (h.synced c hc hs)
  idx := h.idx
  visible q := by
    obtain ⟨v, hseen, hdone, hram⟩ := h.visible q
    rcases hcalm.ram (.cell (.usedIdx q)) with hsame | ⟨-, hnew⟩
    · exact ⟨v, hseen, hdone, hsame.trans hram⟩
    · refine ⟨(s.done q).length, hseen.trans hdone, le_rfl, hnew.trans ?_⟩
      exact (h.view (.usedIdx q) trivial).trans (h.idx q)
  element := h.element

theorem HostFields.calm (h : HostFields s w) (hl : Ledger s w) :
    HostFields s { w with mem := m } := by
  have hram : ∀ l : Loc, HostLine l.line → m.ram l = w.ram l := fun l hl =>
    (hcalm.ram l).elim id fun hs => absurd hs.1 (h.not_stored hl)
  exact {
    stored := fun l hs => h.stored l (hcalm.stored l hs)
    index_ram := fun q => (hram _ (hostLine_availIdx q)).trans (h.index_ram q)
    index_view := fun q => by
      rcases hcalm.view_or (.cell (.availIdx q)) with hsame | hnew
      · obtain ⟨v, hknown, hheard, hle, hview⟩ := h.index_view q
        exact ⟨v, hknown, hheard, hle, hsame.trans hview⟩
      · refine ⟨_, (hl.known q).length_le, h.heard_le q, le_rfl, hnew.trans ?_⟩
        exact (hram _ (hostLine_availIdx q)).trans (h.index_ram q)
    fresh_le := h.fresh_le
    field_ram := fun q j o c v hlent hj hc => by
      have hproper := hl.proper q o (List.mem_of_getElem? hlent.2)
      exact (hram _ (hostLine_field hproper hc)).trans (h.field_ram q j o c v hlent hj hc)
    field_view := fun q j o c v hlent hj hc hfresh => by
      have hproper := hl.proper q o (List.mem_of_getElem? hlent.2)
      rcases hcalm.view_or (.cell c) with hsame | hnew
      · exact hsame.trans (h.field_view q j o c v hlent hj hc hfresh)
      · refine hnew.trans ((hram _ (hostLine_field hproper hc)).trans ?_)
        exact h.field_ram q j o c v hlent hj hc }

theorem Buffers.calm (h : Buffers t s w) (hledger : Ledger s w) :
    Buffers t s { w with mem := m } where
  view a b ha hb :=
    (congrArg (BitVec.ofNat 8) (hcalm.view _ (h.sound a b ha hb))).trans (h.view a b ha hb)
  sound a b ha hb := hcalm.sound _ (h.sound a b ha hb)
  synced a b ha hb hs := hcalm.agrees _ (h.synced a b ha hb hs)
  stored hset a ha hs := h.stored hset a ha (hcalm.stored _ hs)
  content hset j o i b hlent hb hi := by
    refine Eq.trans (congrArg (BitVec.ofNat 8) ?_) (h.content hset j o i b hlent hb hi)
    rcases hcalm.ram (.byte (o.addr + i)) with hsame | ⟨hs, -⟩
    · exact hsame
    -- A dirty line of the buffer means that it is in hand.
    · have hcov := hledger.covers_content hlent hb
      have hshm := (hledger.proper_of_lent hlent).inShm hcov
      obtain ⟨q', j', o', -, ho', hcov', -⟩ := h.stored hset _ hshm hs
      have hheld := hledger.inHand_of_covers hlent ho' hcov hcov'
      have hj := hledger.tidy.hand_lt _ j hheld.1
      refine hcalm.ram_eq (h.current hset j o i b hheld hb (hi.resolve_left ?_))
      omega
  current hset j o i b ho hb hi := hcalm.agrees _ (h.current hset j o i b ho hb hi)
  message r j o hj hr ho := by
    obtain ⟨msg, hm, hlen, hbytes⟩ := h.message r j o hj hr ho
    refine ⟨msg, hm, hlen, fun k b hb => ?_⟩
    obtain ⟨hagrees, hram⟩ := hbytes k b hb
    exact ⟨hcalm.agrees _ hagrees, (congrArg (BitVec.ofNat 8) (hcalm.ram_eq hagrees)).trans hram⟩

/-- What the cache does of its own accord keeps the relation. -/
theorem At.calm (h : At t s w) : At t s { w with mem := m } where
  var := h.var
  avail := h.avail
  whole hset := h.whole (hset.congr hcalm.cached)
  memory := hcalm.proper h.memory
  ledger := h.ledger.mem m
  rings := h.rings.calm hcalm
  fields := h.fields.calm hcalm h.ledger
  buffers := h.buffers.calm hcalm h.ledger
  echo hset := by
    have hecho := h.echo hset
    -- The firmware does not write the status, so that no line of it is written back.
    have hram : m.ram (.cell .vdevStatus) = w.ram (.cell .vdevStatus) :=
      (hcalm.ram _).elim id fun hs => absurd hs.1 (h.fields.not_stored hostLine_vdevStatus)
    have hstatus : m.ram (.cell .vdevStatus) &&& VIRTIO_CONFIG_STATUS_DRIVER_OK ≠ 0 := by
      rw [hram]
      exact hecho.status
    exact {
      hecho with
      status := hstatus
      status_view := by
        rcases hcalm.view_or (.cell .vdevStatus) with hsame | hnew
        · rw [World.view, hsame]
          exact hecho.status_view
        · rw [World.view, hnew]
          exact hstatus }

end Calm

/-! ### The host writes to the memory -/

section Poke

variable {l : Loc} {v : ℕ}

theorem UsedRings.poke (h : UsedRings s w) (hl : ∀ c : Cell, c.Used → .cell c ≠ l) :
    UsedRings s { w with mem := w.mem.poke l v } where
  view c hc := (Tagged.view_poke_of_ne (hl c hc)).trans (h.view c hc)
  sound c hc := (h.sound c hc).poke_of_ne (hl c hc)
  synced c hc hs := Tagged.agrees_poke_of_ne (hl c hc) (h.synced c hc hs)
  idx := h.idx
  visible q := by
    obtain ⟨m, hseen, hdone, hram⟩ := h.visible q
    refine ⟨m, hseen, hdone, Eq.trans ?_ hram⟩
    exact Tagged.ram_poke.trans (if_neg (hl (.usedIdx q) trivial))
  element := h.element

/-- A write of the host to a field that tells of nothing lent leaves the others as they are. -/
theorem HostFields.poke (h : HostFields s w) (hindex : ∀ q, .cell (.availIdx q) ≠ l)
    (hl : ∀ q j o c v, w.Lent q j o → (w.offers q).length ≤ j + VRING_NUM_BUFFS →
      o.Field q j c v → .cell c ≠ l) :
    HostFields s { w with mem := w.mem.poke l v } where
  stored := h.stored
  index_ram q := (Tagged.ram_poke.trans (if_neg (hindex q))).trans (h.index_ram q)
  index_view q := by
    obtain ⟨m, hknown, hheard, hle, hview⟩ := h.index_view q
    exact ⟨m, hknown, hheard, hle, (Tagged.view_poke_of_ne (hindex q)).trans hview⟩
  fresh_le := h.fresh_le
  field_ram q j o c u ho hj hc :=
    (Tagged.ram_poke.trans (if_neg (hl q j o c u ho hj hc))).trans (h.field_ram q j o c u ho hj hc)
  field_view q j o c u ho hj hc hfresh :=
    (Tagged.view_poke_of_ne (hl q j o c u ho hj hc)).trans
      (h.field_view q j o c u ho hj hc hfresh)

/-- A write of the host outside the buffers lent leaves them alone. -/
theorem Buffers.poke (h : Buffers t s w) (hheld : ∀ a, s.Holds a → .byte a ≠ l)
    (hlent : ∀ q j o a, w.Lent q j o → o.Covers a → .byte a ≠ l) (hledger : Ledger s w) :
    Buffers t s { w with mem := w.mem.poke l v } where
  view a b ha hb :=
    (congrArg (BitVec.ofNat 8) (Tagged.view_poke_of_ne (hheld a ha))).trans (h.view a b ha hb)
  sound a b ha hb := (h.sound a b ha hb).poke_of_ne (hheld a ha)
  synced a b ha hb hs := Tagged.agrees_poke_of_ne (hheld a ha) (h.synced a b ha hb hs)
  stored := h.stored
  content hset j o i b ho hb hi := by
    have hne := hlent _ j o _ ho (hledger.covers_content ho hb)
    exact (congrArg (BitVec.ofNat 8) (Tagged.ram_poke.trans (if_neg hne))).trans
      (h.content hset j o i b ho hb hi)
  current hset j o i b ho hb hi := by
    have hcov := hledger.covers_content (hledger.lent_of_inHand ho) hb
    exact Tagged.agrees_poke_of_ne (hheld _ ⟨_, j, o, ho, hcov⟩) (h.current hset j o i b ho hb hi)
  message r j o hj hr ho := by
    obtain ⟨m, hm, hlen, hbytes⟩ := h.message r j o hj hr ho
    refine ⟨m, hm, hlen, fun k b hb => ?_⟩
    obtain ⟨hagrees, hram⟩ := hbytes k b hb
    have hk := (List.getElem?_eq_some_iff.1 hb).1
    have hne := hlent _ j o (o.addr + k) (hledger.lent_of_done hj hr ho) ⟨by omega, by omega⟩
    exact ⟨Tagged.agrees_poke_of_ne hne hagrees,
      (congrArg (BitVec.ofNat 8) (Tagged.ram_poke.trans (if_neg hne))).trans hram⟩

/-- A write of the host that leaves `DRIVER_OK` set. -/
theorem EchoSide.poke (h : EchoSide t w)
    (hl : .cell .vdevStatus = l → v &&& VIRTIO_CONFIG_STATUS_DRIVER_OK ≠ 0) :
    EchoSide t { w with mem := w.mem.poke l v } :=
  { h with
    status := by
      have hram : (w.mem.poke l v).ram (.cell .vdevStatus) =
          if .cell .vdevStatus = l then v else w.ram (.cell .vdevStatus) := Tagged.ram_poke
      rw [World.ram, hram]
      split
      · next heq => exact hl heq
      · exact h.status
    status_view := by
      by_cases heq : Loc.cell .vdevStatus = l
      · subst heq
        have hview : (w.mem.poke (.cell .vdevStatus) v).view Loc.line (.cell .vdevStatus) =
            w.view (.cell .vdevStatus) ∨
            (w.mem.poke (.cell .vdevStatus) v).view Loc.line (.cell .vdevStatus) = v :=
          Tagged.view_poke_self
        rcases hview with hold | hnew
        · rw [World.view, hold]
          exact h.status_view
        · rw [World.view, hnew]
          exact hl rfl
      · rw [World.view, Tagged.view_poke_of_ne heq]
        exact h.status_view }

end Poke

/-- The host writes a byte that is not lent. -/
theorem At.write {a : ℕ} {b : Byte} (h : At t s w) (hfair : w.Fair t.toRules (.write a b)) :
    At t s (w.move (.write a b)) := by
  have hlent : ∀ q j o x, w.Lent q j o → o.Covers x → Loc.byte x ≠ .byte a := by
    rintro q j o x ho hcov ⟨⟩
    exact hfair q j o ho hcov
  refine ⟨h.var, h.avail, h.memory.poke _ _, h.ledger.mem _, h.rings.poke (by simp),
    h.fields.poke (by simp) (by simp), h.buffers.poke ?_ hlent h.ledger,
    fun hset => (h.echo hset).poke (by simp), h.whole⟩
  rintro x ⟨q, j, o, ho, hcov⟩
  exact hlent q j o x (h.ledger.lent_of_inHand ho) hcov

/-- The host writes a field that says nothing of what is lent. -/
theorem At.setField {c : Cell} {n : ℕ} (h : At t s w) (hfair : w.Fair t.toRules (.setField c n)) :
    At t s (w.move (.setField c n)) := by
  obtain ⟨hhost, hlive, hstatus⟩ := hfair
  refine ⟨h.var, h.avail, h.memory.poke _ _, h.ledger.mem _, h.rings.poke ?_,
    h.fields.poke ?_ ?_, h.buffers.poke (by simp) (by simp) h.ledger,
    fun hset => (h.echo hset).poke fun hc => hstatus hset (Loc.cell.inj hc).symm, h.whole⟩
  · intro c' hc' heq
    exact used_ne_host hc' hhost (Loc.cell.inj heq)
  · rintro q ⟨⟩
    exact hhost
  · rintro q j o c' v ho hj hc ⟨⟩
    exact hlive q j o ho hj v hc

/-! ### The host makes an offer -/

section Offer

variable {q : Vq} {idx addr len : ℕ}

/-- After an offer one more is lent. -/
theorem lent_offer (hledger : Ledger s w) {q' : Vq} {j : ℕ} {o : Offer}
    (h : (w.move (.offer q idx addr len)).Lent q' j o) :
    w.Lent q' j o ∨ (q' = q ∧ j = (w.offers q).length ∧ o = w.offerOf idx addr len) := by
  obtain ⟨hj, ho⟩ := h
  rcases eq_or_ne q' q with rfl | hne
  · simp only [move, Function.update_self, List.mem_append, List.mem_singleton] at hj ho
    rcases hj with hj | rfl
    · rw [List.getElem?_append_left ((hledger.lent q' j).mp hj).1] at ho
      exact .inl ⟨hj, ho⟩
    · refine .inr ⟨rfl, rfl, ?_⟩
      simpa using ho.symm
  · simp only [move, Function.update_of_ne hne] at hj ho
    exact .inl ⟨hj, ho⟩

/-- The books still fit after an offer made within the rules. -/
theorem Ledger.offer {r : Rules} (h : Ledger s w)
    (hfair : w.Offerable r q (w.offerOf idx addr len)) :
    Ledger s (w.move (.offer q idx addr len)) where
  tidy := h.tidy
  known q' := by
    rcases eq_or_ne q' q with rfl | hne
    · simpa [move] using (h.known q').trans (List.prefix_append _ _)
    · simpa [move, hne] using h.known q'
  proper q' o ho := by
    rcases eq_or_ne q' q with rfl | hne
    · simp only [move, Function.update_self, List.mem_append, List.mem_singleton] at ho
      rcases ho with ho | rfl
      · exact h.proper q' o ho
      · exact hfair.proper
    · simp only [move, Function.update_of_ne hne] at ho
      exact h.proper q' o ho
  formed o ho := by
    rcases eq_or_ne .rvq q with rfl | hne
    · simp only [move, Function.update_self, List.mem_append, List.mem_singleton] at ho
      rcases ho with ho | rfl
      · exact h.formed o ho
      · exact hfair.formed rfl
    · simp only [move, Function.update_of_ne hne] at ho
      exact h.formed o ho
  seen_le := h.seen_le
  lent q' j := by
    rcases eq_or_ne q' q with rfl | hne
    -- The number of the new offer is larger than all that have been returned.
    · have hnew : (w.offers q').length ∉ (s.done q').take (w.seen q') := by
        intro hmem
        have hlt := h.tidy.done_lt q' _ (List.mem_of_mem_take hmem)
        have htaken := h.tidy.taken_le q'
        have hknown := (h.known q').length_le
        omega
      simp only [move, Function.update_self, List.mem_append, List.mem_singleton,
        List.length_append, List.length_cons, List.length_nil, h.lent q' j]
      constructor
      · rintro (⟨hlt, hmem⟩ | rfl)
        · exact ⟨by omega, hmem⟩
        · exact ⟨by omega, hnew⟩
      · rintro ⟨hlt, hmem⟩
        rcases Nat.lt_succ_iff_lt_or_eq.mp hlt with hlt | rfl
        · exact .inl ⟨hlt, hmem⟩
        · exact .inr rfl
    · simpa [move, hne] using h.lent q' j
  window q' := by
    have hfree := hfair.free
    rcases eq_or_ne q' q with rfl | hne
    · simpa [move, Nat.succ_le_iff] using hfree
    · simpa [move, hne] using h.window q'
  -- The descriptor of the new offer is one that is not in use,
  inj q' j j' o o' ho ho' heq := by
    rcases lent_offer h ho with hold | ⟨rfl, rfl, rfl⟩ <;>
      rcases lent_offer h ho' with hold' | ⟨hq, rfl, rfl⟩
    · exact h.inj q' j j' o o' hold hold' heq
    · subst hq
      exact absurd heq (hfair.unused j o hold)
    · exact absurd heq.symm (hfair.unused j' o' hold')
    · rfl
  -- and its buffer lies apart from those that are lent.
  apart q₁ q₂ j₁ j₂ o₁ o₂ a h₁ h₂ hcov₁ hcov₂ := by
    rcases lent_offer h h₁ with hold₁ | ⟨rfl, rfl, rfl⟩ <;>
      rcases lent_offer h h₂ with hold₂ | ⟨hq, rfl, rfl⟩
    · exact h.apart q₁ q₂ j₁ j₂ o₁ o₂ a hold₁ hold₂ hcov₁ hcov₂
    · exact absurd hcov₂ ((hfair.apart q₁ j₁ o₁ hold₁).not_covers hcov₁)
    · exact absurd hcov₁ ((hfair.apart q₂ j₂ o₂ hold₂).not_covers hcov₂)
    · exact ⟨hq.symm, rfl⟩

/-- An offer is written to fields that tell of nothing lent. -/
theorem HostFields.offer {r : Rules} (h : HostFields s w) (hledger : Ledger s w)
    (hfair : w.Offerable r q (w.offerOf idx addr len)) :
    HostFields s (w.move (.offer q idx addr len)) := by
  have hlen : ∀ q', (w.offers q').length ≤
      ((w.move (.offer q idx addr len)).offers q').length := by
    intro q'
    rcases eq_or_ne q' q with rfl | hne
    · simp [move]
    · simp [move, hne]
  -- The index that the host writes is none of the fields of an offer.
  have hfield : ∀ {o : Offer} {q' j c v}, o.Field q' j c v →
      Loc.cell c ≠ .cell (.availIdx q) := by
    rintro o q' j c v hc ⟨⟩
    exact (field_hostField hc).1
  exact {
    stored := h.stored
    index_ram := fun q' => by
      rcases eq_or_ne q' q with rfl | hne
      · simp [move, World.ram, Tagged.ram_poke]
      · simpa [move, World.ram, Tagged.ram_poke, hne] using h.index_ram q'
    index_view := fun q' => by
      obtain ⟨m, hknown, hheard, hle, hview⟩ := h.index_view q'
      rcases eq_or_ne q' q with rfl | hne
      -- The firmware sees the new index, or the old one if it holds the line.
      · have hview' : (w.move (.offer q' idx addr len)).view (.cell (.availIdx q')) =
            w.view (.cell (.availIdx q')) ∨ (w.move (.offer q' idx addr len)).view
              (.cell (.availIdx q')) = ((w.offers q').length + 1) % 2 ^ 16 :=
          Tagged.view_poke_self
        rcases hview' with hold | hnew
        · exact ⟨m, hknown, hheard, hle.trans (hlen q'), hold.trans hview⟩
        · refine ⟨(w.offers q').length + 1, ?_, ?_, ?_, hnew⟩
          · exact (hledger.known q').length_le.trans (Nat.le_succ _)
          · exact (h.heard_le q').trans (Nat.le_succ _)
          · simp [move]
      · refine ⟨m, hknown, hheard, hle.trans (hlen q'), Eq.trans ?_ hview⟩
        exact Tagged.view_poke_of_ne (by simpa using hne)
    fresh_le := h.fresh_le
    field_ram := fun q' j o c v ho hj hc => by
      refine (Tagged.ram_poke.trans (if_neg (hfield hc))).trans ?_
      rcases lent_offer hledger ho with hold | ⟨rfl, rfl, rfl⟩
      · exact h.field_ram q' j o c v hold ((hlen q').trans hj) hc
      · exact hfair.fields c v hc
    field_view := fun q' j o c v ho hj hc hfresh => by
      refine (Tagged.view_poke_of_ne (hfield hc)).trans ?_
      rcases lent_offer hledger ho with hold | ⟨rfl, rfl, rfl⟩
      · exact h.field_view q' j o c v hold ((hlen q').trans hj) hc hfresh
      -- Of the new offer nothing has been seen yet.
      · have hle := h.fresh_le c
        rw [(field_hostField hc).2] at hle
        have hknown := (hledger.known q').length_le
        omega }

theorem Buffers.offer (h : Buffers t s w) (hledger : Ledger s w) :
    Buffers t s (w.move (.offer q idx addr len)) := by
  have hp := h.poke (l := .cell (.availIdx q)) (v := ((w.offers q).length + 1) % 2 ^ 16)
    (by simp) (by simp) hledger
  exact {
    view := hp.view
    sound := hp.sound
    synced := hp.synced
    stored := hp.stored
    current := hp.current
    content := fun hset j o i b ho hb hi => by
      rcases lent_offer hledger ho with hold | ⟨-, -, rfl⟩
      · exact hp.content hset j o i b hold hb hi
      · have hlt : i < len := by simpa [offerOf, ramBytes] using (List.getElem?_eq_some_iff.1 hb).1
        have hram : (w.move (.offer q idx addr len)).ramByte (addr + i) = w.ramByte (addr + i) :=
          congrArg (BitVec.ofNat 8) (Tagged.ram_poke.trans (if_neg (by simp)))
        refine hram.trans ?_
        simpa [offerOf, ramBytes, hlt] using hb
    message := hp.message }

/-- An offer made within the rules of the echo service keeps what there is besides. -/
theorem EchoSide.offer (h : EchoSide t w) (hset : t.setting = .echo)
    (hfair : w.Offerable t.toRules q (w.offerOf idx addr len)) :
    EchoSide t (w.move (.offer q idx addr len)) where
  host := by
    rcases eq_or_ne .rvq q with rfl | hne
    · simpa [move] using (hfair.message hset rfl).2
    · simpa [move, hne] using h.host
  room o ho := by
    rcases eq_or_ne .svq q with rfl | hne
    · simp only [move, Function.update_self, List.mem_append, List.mem_singleton] at ho
      rcases ho with ho | rfl
      · exact h.room o ho
      · exact hfair.room hset rfl
    · simp only [move, Function.update_of_ne hne] at ho
      exact h.room o ho
  enough := by
    have henough := h.enough
    cases q with
    | svq =>
      simp only [move, Function.update_self, List.length_append, List.length_cons,
        List.length_nil, Function.update_of_ne (show Vq.rvq ≠ .svq by simp)]
      omega
    | rvq =>
      have hless := (hfair.message hset rfl).1
      simp only [move, Function.update_self, List.length_append, List.length_cons,
        List.length_nil, Function.update_of_ne (show Vq.svq ≠ .rvq by simp)]
      omega
  made := by
    refine h.made.trans ?_
    rcases eq_or_ne .rvq q with rfl | hne
    · simp [move]
    · simp [move, hne]
  status := (h.poke (l := .cell (.availIdx q)) (v := ((w.offers q).length + 1) % 2 ^ 16)
    (by simp)).status
  status_view := (h.poke (l := .cell (.availIdx q)) (v := ((w.offers q).length + 1) % 2 ^ 16)
    (by simp)).status_view

/-- The host makes an offer. -/
theorem At.offer (h : At t s w) (hfair : w.Fair t.toRules (.offer q idx addr len)) :
    At t s (w.move (.offer q idx addr len)) where
  var := h.var
  avail := h.avail
  memory := h.memory.poke _ _
  ledger := h.ledger.offer hfair
  rings := by
    have hp := h.rings.poke (l := .cell (.availIdx q)) (v := ((w.offers q).length + 1) % 2 ^ 16)
      (by rintro c hc ⟨⟩; exact hc)
    exact ⟨hp.view, hp.sound, hp.synced, hp.idx, hp.visible, hp.element⟩
  fields := h.fields.offer h.ledger hfair
  buffers := h.buffers.offer h.ledger
  echo hset := (h.echo hset).offer hset hfair
  whole hset q' o ho := by
    rcases eq_or_ne q' q with rfl | hne
    · simp only [move, Function.update_self, List.mem_append, List.mem_singleton] at ho
      rcases ho with ho | rfl
      · exact h.whole hset q' o ho
      · exact hfair.whole hset
    · simp only [move, Function.update_of_ne hne] at ho
      exact h.whole hset q' o ho

end Offer

/-! ### The host gets a buffer back -/

section Collect

variable {q : Vq}

/-- How many buffers the host finds returned. -/
theorem returned_eq {m : ℕ} (hseen : w.seen q ≤ m) (hm : m < w.seen q + 2 ^ 16)
    (hram : w.ram (.cell (.usedIdx q)) = m % 2 ^ 16) : w.returned q = m - w.seen q := by
  rw [returned, hram]
  omega

/-- The host finds no more returned than has been. -/
theorem At.returned_le (h : At t s w) (q : Vq) :
    w.seen q + w.returned q ≤ (s.done q).length := by
  obtain ⟨m, hseen, hdone, hram⟩ := h.rings.visible q
  have hcount := h.ledger.tidy.count q
  have htaken := h.ledger.tidy.taken_le q
  have hknown := (h.ledger.known q).length_le
  have hwindow := h.ledger.window q
  rw [VRING_NUM_BUFFS] at hwindow
  rw [returned_eq hseen (by omega) hram]
  omega

/-- What the host finds in a used ring. -/
theorem At.found (h : At t s w) {i : ℕ} (hi : i < w.returned q) :
    ∃ j o, (s.done q)[w.seen q + i]? = some j ∧ (s.known q)[j]? = some o ∧ w.Lent q j o ∧
      w.ram (.cell (.usedId q ((w.seen q + i) % VRING_NUM_BUFFS))) = o.idx ∧
      w.ram (.cell (.usedLen q ((w.seen q + i) % VRING_NUM_BUFFS))) = o.len := by
  have hle := h.returned_le q
  have hj := List.getElem?_eq_getElem (l := s.done q) (i := w.seen q + i) (by omega)
  obtain ⟨o, ho, hid, hlen, hidSynced, hlenSynced⟩ :=
    h.rings.element q _ _ hj (Nat.le_add_right _ _)
  have hslot : (w.seen q + i) % VRING_NUM_BUFFS < VRING_NUM_BUFFS := Nat.mod_lt _ (by decide)
  refine ⟨_, o, hj, ho, h.ledger.lent_of_done hj (Nat.le_add_right _ _) ho, ?_, ?_⟩
  · rw [← hid, ← h.rings.view (.usedId q _) hslot]
    exact (h.rings.synced (.usedId q _) hslot hidSynced).symm
  · rw [← hlen, ← h.rings.view (.usedLen q _) hslot]
    exact (h.rings.synced (.usedLen q _) hslot hlenSynced).symm

/-- What is lent after a buffer has come back was lent before. -/
theorem lent_collect {q' : Vq} {j : ℕ} {o : Offer} (h : (w.move (.collect q)).Lent q' j o) :
    w.Lent q' j o := by
  obtain ⟨hj, ho⟩ := h
  refine ⟨?_, ho⟩
  rcases eq_or_ne q' q with rfl | hne
  · simp only [move, Function.update_self, List.mem_filter] at hj
    exact hj.1
  · simpa only [move, Function.update_of_ne hne] using hj

theorem seen_collect (q' : Vq) : w.seen q' ≤ (w.move (.collect q)).seen q' := by
  rcases eq_or_ne q' q with rfl | hne
  · simp [move]
  · simp [move, hne]

/-- The books still fit after the host has collected a buffer that was returned. -/
theorem Ledger.collect (h : Ledger s w) {j₀ : ℕ} {o₀ : Offer}
    (hj₀ : (s.done q)[w.seen q]? = some j₀) (ho₀ : w.Lent q j₀ o₀)
    (hidx : w.ram (.cell (.usedId q (w.seen q % VRING_NUM_BUFFS))) = o₀.idx) :
    Ledger s (w.move (.collect q)) where
  tidy := h.tidy
  known := h.known
  proper := h.proper
  formed := h.formed
  seen_le q' := by
    rcases eq_or_ne q' q with rfl | hne
    · simpa [move, Nat.succ_le_iff] using (List.getElem?_eq_some_iff.1 hj₀).1
    · simpa [move, hne] using h.seen_le q'
  lent q' j := by
    rcases eq_or_ne q' q with rfl | hne
    · have htake : (s.done q').take (w.seen q' + 1) = (s.done q').take (w.seen q') ++ [j₀] := by
        obtain ⟨hlt, rfl⟩ := List.getElem?_eq_some_iff.1 hj₀
        exact List.take_succ_eq_append_getElem hlt
      simp only [move, Function.update_self, List.mem_filter, decide_eq_true_eq, hidx, h.lent q' j,
        htake, List.mem_append, List.mem_singleton, not_or, and_assoc]
      refine and_congr_right fun hlt => and_congr_right fun hmem => not_congr ?_
      constructor
      · intro heq
        obtain ⟨o, ho, heq⟩ := Option.map_eq_some_iff.mp heq
        exact h.inj q' j j₀ o o₀ ⟨(h.lent q' j).mpr ⟨hlt, hmem⟩, ho⟩ ho₀ heq
      · rintro rfl
        rw [ho₀.2]
        rfl
    · simpa [move, hne] using h.lent q' j
  window q' := (h.window q').trans (Nat.add_le_add_right (seen_collect q') _)
  inj q' j j' o o' ho ho' := h.inj q' j j' o o' (lent_collect ho) (lent_collect ho')
  apart q₁ q₂ j₁ j₂ o₁ o₂ a h₁ h₂ := h.apart q₁ q₂ j₁ j₂ o₁ o₂ a (lent_collect h₁) (lent_collect h₂)

/-- The host gets a buffer back. -/
theorem At.collect (h : At t s w) (hfair : w.Fair t.toRules (.collect q)) :
    At t s (w.move (.collect q)) := by
  have hpos : 0 < w.returned q := Nat.pos_of_ne_zero hfair
  obtain ⟨j₀, o₀, hj₀, -, ho₀, hidx, -⟩ := h.found hpos
  rw [Nat.add_zero] at hj₀ hidx
  exact {
    var := h.var
    avail := h.avail
    whole := h.whole
    memory := h.memory
    ledger := h.ledger.collect hj₀ ho₀ hidx
    rings := {
      view := h.rings.view
      sound := h.rings.sound
      synced := h.rings.synced
      idx := h.rings.idx
      -- What the host sees of the used index covers what it has collected now.
      visible := fun q' => by
        obtain ⟨m, hseen, hdone, hram⟩ := h.rings.visible q'
        refine ⟨m, ?_, hdone, hram⟩
        rcases eq_or_ne q' q with rfl | hne
        · have hle := h.returned_le q'
          have hcount := h.ledger.tidy.count q'
          have htaken := h.ledger.tidy.taken_le q'
          have hknown := (h.ledger.known q').length_le
          have hwindow := h.ledger.window q'
          rw [VRING_NUM_BUFFS] at hwindow
          rw [returned_eq hseen (by omega) hram] at hpos
          simpa [move, Nat.succ_le_iff] using Nat.lt_of_sub_pos hpos
        · simpa [move, hne] using hseen
      element := fun q' r j hj hr => h.rings.element q' r j hj ((seen_collect q').trans hr) }
    fields := {
      stored := h.fields.stored
      index_ram := h.fields.index_ram
      index_view := h.fields.index_view
      fresh_le := h.fields.fresh_le
      field_ram := fun q' j o c v ho => h.fields.field_ram q' j o c v (lent_collect ho)
      field_view := fun q' j o c v ho => h.fields.field_view q' j o c v (lent_collect ho) }
    buffers := {
      view := h.buffers.view
      sound := h.buffers.sound
      synced := h.buffers.synced
      stored := h.buffers.stored
      current := h.buffers.current
      content := fun hset j o i b ho => h.buffers.content hset j o i b (lent_collect ho)
      message := fun r j o hj hr => h.buffers.message r j o hj ((seen_collect .svq).trans hr) }
    echo := fun hset => { h.echo hset with } }

end Collect

/-- Every move of the environment keeps the relation. -/
theorem At.move (h : At t s w) {m : Move} (hfair : w.Fair t.toRules m) : At t s (w.move m) := by
  cases m with
  | fill l => exact h.calm (Tagged.calm_fill Loc.line l w.mem)
  | evict l => exact h.calm (Tagged.calm_evict Loc.line l w.mem)
  | write a b => exact h.write hfair
  | setField c n => exact h.setField hfair
  | offer q idx addr len => exact h.offer hfair
  | collect q => exact h.collect hfair

theorem At.moves (h : At t s w) {ms : List Move} (hfair : w.AllFair t.toRules ms) :
    At t s (w.moves ms) := by
  induction ms generalizing w with
  | nil => exact h
  | cons m ms ih => exact ih (h.move hfair.1) hfair.2

end C906Firmware
