import C906Firmware.Exchange.Simulation
import C906Firmware.Exchange.Rings

/-!
# The beginning of an exchange

When both queues are set up and empty, and nothing is in the cache, the firmware knows all there
is to know (`Start.at_opening`, `Start.steady`). Between two pieces of the firmware the terms of the
exchange may change, as long as the messages sent stay due (`At.renew`).
-/

namespace C906Firmware

open Interaction WriteBack World

variable {t t' : Terms} {s : Desk} {w : World}

/-- What the firmware knows at the beginning. -/
def World.opening (w : World) : Desk where
  var := w.var
  cell c := w.view (.cell c)
  bytes _ := none
  synced _ := True
  known _ := []
  fresh _ := 0
  heard _ := 0
  taken _ := 0
  hand _ := []
  done _ := []

namespace World.Start

/-- At the start memory and cache say the same everywhere. -/
theorem agrees (h : Start w) (l : Loc) : w.mem.Agrees Loc.line l :=
  Tagged.agrees_of_not_held (h.held _)

theorem not_stored (h : Start w) (l : ℕ) : ¬w.mem.Stored l := by
  intro hs
  exact absurd hs.1 (by simp [h.held])

/-- At the start the firmware sees what is in memory. -/
theorem view_eq (h : Start w) (l : Loc) : w.view l = w.ram l := h.agrees l

/-- At the start nothing has been offered. -/
theorem not_lent (h : Start w) {q : Vq} {j : ℕ} {o : Offer} : ¬w.Lent q j o := by
  rintro ⟨hj, -⟩
  rw [h.lent q] at hj
  exact absurd hj (by simp)

/-- At the start nothing is in hand. -/
theorem not_inHand {q : Vq} {j : ℕ} {o : Offer} : ¬w.opening.InHand q j o := by
  rintro ⟨hj, -⟩
  exact absurd hj (by simp [opening])

theorem not_holds {a : ℕ} : ¬w.opening.Holds a := by
  rintro ⟨q, j, o, ho, -⟩
  exact not_inHand ho

theorem tidy (w : World) : w.opening.Tidy where
  count _ := rfl
  hand_nodup _ := List.nodup_nil
  done_nodup _ := List.nodup_nil
  hand_lt _ j hj := absurd hj (by simp [opening])
  done_lt _ j hj := absurd hj (by simp [opening])
  fresh_hand _ j hj := absurd hj (by simp [opening])
  taken_le _ := le_rfl

theorem ledger (h : Start w) : Ledger w.opening w where
  tidy := tidy w
  known q := List.nil_prefix
  proper q o ho := absurd ho (by simp [h.offers q])
  formed o ho := absurd ho (by simp [h.offers .rvq])
  seen_le q := (h.seen q).le
  lent q j := by simp [h.lent q, h.offers q]
  window q := by simp [h.offers q]
  inj q j j' o o' ho := absurd ho h.not_lent
  apart q q' j j' o o' a ho := absurd ho h.not_lent

/-- The used rings are empty at the start. -/
theorem usedRings (h : Start w) : UsedRings w.opening w where
  view c _ := rfl
  sound c _ := (h.agrees _).sound
  synced c _ _ := h.agrees _
  idx q := (h.view_eq _).trans (h.usedIdx q)
  visible q := ⟨0, (h.seen q).le, Nat.zero_le _, h.usedIdx q⟩
  element q r j hj := by simp [opening] at hj

/-- The host has written nothing at the start. -/
theorem hostFields (h : Start w) : HostFields w.opening w where
  stored l hs := absurd hs (h.not_stored l)
  index_ram q := by
    rw [h.availIdx q, h.offers q]
    rfl
  index_view q := ⟨0, le_rfl, le_rfl, Nat.zero_le _, (h.view_eq _).trans (h.availIdx q)⟩
  fresh_le _ := le_rfl
  field_ram q j o c v ho := absurd ho h.not_lent
  field_view q j o c v ho := absurd ho h.not_lent

/-- There are no buffers at the start. -/
theorem buffers (h : Start w) (t : Terms) : Buffers t w.opening w where
  view a b ha := absurd ha not_holds
  sound a b ha := absurd ha not_holds
  synced a b ha := absurd ha not_holds
  stored _ a _ hs := absurd hs (h.not_stored _)
  content _ j o i b ho := absurd ho h.not_lent
  current _ j o i b ho := absurd ho not_inHand
  message r j o hj := by simp [opening] at hj

/-- The firmware knows all there is to know. -/
theorem at_opening (h : Start w) (hecho : t.setting = .echo → EchoSide t w) : At t w.opening w where
  var := rfl
  avail q := h.availableIdx q
  memory _ := h.held
  ledger := h.ledger
  rings := h.usedRings
  fields := h.hostFields
  buffers := h.buffers t
  echo := hecho
  whole _ q o ho := absurd ho (by simp [h.offers q])

/-- Nothing is under way. -/
theorem steady (h : Start w) : Steady false none w.opening where
  host := h.ledger.hostKeeps
  lock := h.lock
  inuse q := h.inuse q
  avail q := h.availableIdx q
  used q := h.usedRings.idx q
  used_synced _ := trivial
  tidy := tidy w

end World.Start

/-! ### New terms -/

/-- The terms may change, but for the messages that have been sent. -/
theorem At.renew (h : At t s w) (hrules : t'.toRules = t.toRules)
    (hmessage : ∀ r o m, r < (s.done .svq).length → t.message (s.known .rvq) r o = some m →
      t'.message (s.known .rvq) r o = some m)
    (hmade : t.setting = .echo → t'.made ≤ (w.offers .rvq).length) : At t' s w := by
  have hset : t'.setting = t.setting := congrArg Rules.setting hrules
  exact {
    h with
    buffers := {
      h.buffers with
      stored := fun hne => h.buffers.stored (hset ▸ hne)
      content := fun hne => h.buffers.content (hset ▸ hne)
      current := fun hne => h.buffers.current (hset ▸ hne)
      message := fun r j o hj hr ho => by
        obtain ⟨m, hm, hrest⟩ := h.buffers.message r j o hj hr ho
        exact ⟨m, hmessage r o m (List.getElem?_eq_some_iff.1 hj).1 hm, hrest⟩ }
    echo := fun hecho => by
      have hside := h.echo (hset ▸ hecho)
      exact {
        host := by
          rw [hrules]
          exact hside.host
        room := by
          rw [show t'.size = t.size from congrArg Rules.size hrules]
          exact hside.room
        enough := by
          rw [show t'.ahead = t.ahead from congrArg Rules.ahead hrules]
          exact hside.enough
        made := hmade (hset ▸ hecho)
        status := hside.status
        status_view := hside.status_view }
    whole := fun htends => h.whole (hrules ▸ htends) }

/-! ### What the host finds on the send queue -/

/-- What the host finds returned on the send queue is complete in memory: each element of the used
ring names a buffer, and the buffer holds the message with its number. -/
def Published (message : ℕ → Offer → Option (List Byte)) (w : World) : Prop :=
  ∀ i < w.returned .svq, ∃ j o m, w.Lent .svq j o ∧
    w.ram (.cell (.usedId .svq ((w.seen .svq + i) % VRING_NUM_BUFFS))) = o.idx ∧
    w.ram (.cell (.usedLen .svq ((w.seen .svq + i) % VRING_NUM_BUFFS))) = o.len ∧
    message (w.seen .svq + i) o = some m ∧ m.length ≤ o.len ∧
    ∀ k b, m[k]? = some b → w.ramByte (o.addr + k) = b

instance (message : ℕ → Offer → Option (List Byte)) (w : World) :
    Decidable (Published message w) :=
  decidable_of_iff (∀ i < w.returned .svq, ∃ j ∈ w.lent .svq, ∃ o ∈ (w.offers .svq)[j]?,
    ∃ m ∈ message (w.seen .svq + i) o,
      w.ram (.cell (.usedId .svq ((w.seen .svq + i) % VRING_NUM_BUFFS))) = o.idx ∧
      w.ram (.cell (.usedLen .svq ((w.seen .svq + i) % VRING_NUM_BUFFS))) = o.len ∧
      m.length ≤ o.len ∧ ∀ k < m.length, m[k]? = some (w.ramByte (o.addr + k))) <| by
    refine forall_congr' fun i => imp_congr_right fun hi => ?_
    constructor
    · rintro ⟨j, hj, o, ho, m, hm, hid, hlen, hfits, hbytes⟩
      refine ⟨j, o, m, ⟨hj, ho⟩, hid, hlen, hm, hfits, fun k b hb => ?_⟩
      have hk := hbytes k (List.getElem?_eq_some_iff.1 hb).1
      exact Option.some.inj (hk.symm.trans hb)
    · rintro ⟨j, o, m, ⟨hj, ho⟩, hid, hlen, hm, hfits, hbytes⟩
      refine ⟨j, hj, o, ho, m, hm, hid, hlen, hfits, fun k hk => ?_⟩
      rw [List.getElem?_eq_getElem hk, hbytes k _ (List.getElem?_eq_getElem hk)]

/-- Where the world is as the desk has it, what has been returned is published. -/
theorem At.published (h : At t s w) : Published (t.message (w.offers .rvq)) w := by
  intro i hi
  obtain ⟨j, o, hj, ho, hlent, hid, hlen⟩ := h.found hi
  obtain ⟨m, hm, hfits, hbytes⟩ := h.buffers.message _ j o hj (Nat.le_add_right _ _) ho
  exact ⟨j, o, m, hlent, hid, hlen, t.message_mono (h.ledger.known .rvq) hm, hfits,
    fun k b hb => (hbytes k b hb).2⟩

end C906Firmware
