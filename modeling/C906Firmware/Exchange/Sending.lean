import C906Firmware.Exchange.Blocks

/-!
# Sending, over the account of the exchange

A message is put into the next transmit buffer and goes to the host (`does_send`): after it has
been sent the firmware has in hand what it had before. Where the firmware finds no transmit
buffer, or has nobody to send to, nothing is sent.
-/

namespace C906Firmware

open Interaction

variable {t : Terms} {α : Type} {R : α → Desk → Prop} {s s' s'' : Desk} {fuel : ℕ}

/-! ### Transmit buffers -/

/-- The virtio status is read from memory. -/
theorem does_status (h : Steady false none s) :
    Does (exchange t) rprocVirtioGetStatus (fun r s' => During false none s s' ∧
      (t.setting = .echo → r &&& VIRTIO_CONFIG_STATUS_DRIVER_OK ≠ 0)) s := by
  have haddr : Cell.vdevStatus.addr = 0x41200018 := rfl
  have hlines : ∀ i ∈ cacheLines Cell.vdevStatus.addr (Cell.vdevStatus.addr + 1),
      HostLine (lineOf i) := by
    intro i hi
    have hlt := (Hal.mem_cacheLines.mp hi).2.2
    refine hostLine_rsc ?_
    rw [lineOf, L1_CACHE_BYTES]
    omega
  refine Does.seq (does_vringInvalidate (c := .vdevStatus) (by omega) hlines) ?_
  rintro - s₁ ⟨hstill, hvar, -⟩
  refine Does.last (Does.act trivial ?_)
  rintro r _ ⟨rfl, hr⟩
  exact ⟨⟨h.congr (fun v _ => congrFun hvar v) hstill, hstill⟩, hr⟩

theorem Looked.trans {q : Vq} {r : Option Buffer} (h : Kept q s s') (hl : Looked t q s' r s'') :
    Looked t q s r s'' where
  empty hr := ⟨h.trans (hl.empty hr).1, (hl.empty hr).2⟩
  found b hb := by
    obtain ⟨o, ho, htook⟩ := hl.found b hb
    exact ⟨o, ho, htook.trans h⟩
  host := hl.host

theorem Looked.still {q : Vq} {r : Option Buffer} {l : Bool} (hl : Looked t q s r s')
    (hs : Steady l none s') (h : Still s' s'') : Looked t q s r s'' where
  empty hr := by
    rw [(h q).taken, h.known]
    exact ⟨(hl.empty hr).1.trans (h q), (hl.empty hr).2⟩
  found b hb := by
    obtain ⟨o, ho, htook⟩ := hl.found b hb
    exact ⟨o, ho, htook.still (hs.proper htook.inHand) h⟩
  host hset := by
    rw [h.known]
    exact hl.host hset

/-- A look at a queue, under the device lock. -/
theorem does_lockedLook {q : Vq} (hfuel : t.halt ∨ 0 < fuel) (h : Steady false none s)
    (hq : q = .rvq → t.setting ≠ .cached) {f : Option Buffer → Code α}
    (hf : ∀ r s', Steady false none s' → Looked t q s r s' → Does (exchange t) (f r) R s') :
    Does (exchange t) (do
      metalMutexAcquire fuel
      let buffer ← virtqueueGetAvailableBuffer q
      metalMutexRelease
      f buffer) R s := by
  refine Does.seq (does_acquire hfuel h) ?_
  intro _ s₁ h₁
  refine Does.seq (does_getAvailable h₁.1 hq) ?_
  rintro r s₂ ⟨h₂, hl⟩
  refine Does.seq (does_release h₂) ?_
  intro _ s₃ h₃
  exact hf r s₃ h₃.1 ((hl.trans (h₁.2 q)).still h₂ h₃.2)

/-- One attempt to get a transmit buffer takes the next one offered, if there is one. -/
theorem does_tryTx (hfuel : t.halt ∨ 0 < fuel) (h : Steady false none s) :
    Does (exchange t) (rpmsgVirtioTryTxBuffer fuel)
      (fun r s' => Steady false none s' ∧ Looked t .svq s r s') s :=
  does_lockedLook hfuel h (by simp) fun _ _ h' hl => ⟨h', hl⟩

/-- The loop over looks at the send queue finds a buffer, or none. -/
theorem does_waitTx (hfuel : t.halt ∨ 0 < fuel) (h : Steady false none s) (tickCount : ℕ) :
    Does (exchange t) (rpmsgVirtioWaitTxBuffer fuel tickCount)
      (fun r s' => Steady false none s' ∧ Looked t .svq s r s') s := by
  induction tickCount generalizing s with
  | zero => exact does_tryTx hfuel h
  | succ tickCount ih =>
    refine Does.seq (does_tryTx hfuel h) ?_
    rintro (_ | b) s₁ ⟨h₁, hl⟩
    · refine does_quiet (o := .udelay RPMSG_TICKS_PER_INTERVAL) trivial fun _ => ?_
      refine (ih h₁).mono ?_
      rintro r s₂ ⟨h₂, hl₂⟩
      exact ⟨h₂, hl₂.trans (hl.empty rfl).1⟩
    · exact ⟨h₁, hl⟩

/-- A transmit buffer is in hand, with the index of its descriptor in it. -/
structure Opened (t : Terms) (o : Offer) (s s' : Desk) : Prop where
  took : ∃ s₁, Steady false none s₁ ∧ Took t .svq o s s₁ ∧
    s' = s₁.storeWord (o.addr + 8) (Quad.ofNat o.idx)
  room : t.setting = .echo → t.size ≤ o.room

/-- The payload area of a transmit buffer. -/
theorem does_getTxPayload (hfuel : t.halt ∨ 0 < fuel) (h : Steady false none s) :
    Does (exchange t) (rpmsgVirtioGetTxPayloadBuffer fuel) (fun r s' =>
      (r = none → Steady false none s' ∧ Kept .svq s s' ∧
        (t.setting = .echo → (s.known .rvq).length ≤ s.taken .svq - t.ahead)) ∧
      ∀ p, r = some p → ∃ o, o.Proper ∧ p = (o.addr + RPMSG_HDR_SIZE, o.room) ∧ Opened t o s s')
      s := by
  refine Does.seq (does_status h) ?_
  rintro status s₁ ⟨⟨h₁, hstill₁⟩, hstatus⟩
  refine Does.ite (fun hzero => ?_) (fun _ => ?_)
  · exact ⟨fun _ => ⟨h₁, hstill₁ .svq, fun hset => absurd hzero (hstatus hset)⟩, by simp⟩
  · refine Does.seq (does_waitTx hfuel h₁ _) ?_
    rintro (_ | b) s₂ ⟨h₂, hl⟩
    · obtain ⟨hkept, hall⟩ := hl.empty rfl
      have hkept' := (hstill₁ .svq).trans hkept
      refine ⟨fun _ => ⟨h₂, hkept', fun hset => ?_⟩, by simp⟩
      have hroom := (hl.host hset).enough rfl
      rwa [hkept'.other .rvq (by simp), ← hall, hkept'.taken] at hroom
    · obtain ⟨o, rfl, htook⟩ := hl.found b rfl
      have ho := htook.inHand
      have hproper := h₂.proper ho
      have hroom := hproper.room
      have hstop := hproper.stop
      have hrange : SHMEM_PA + SHMEM_SIZE = 0x414F0000 := rfl
      rw [RPMSG_HDR_SIZE] at hroom
      refine does_store32 (a := o.addr + 8) (w := Quad.ofNat o.idx) (.inr fun i hi => ?_) ?_
      · exact ⟨_, o, ho, by omega, by omega⟩
      · have hlen : (o.len + 2 ^ 32 - RPMSG_HDR_SIZE) % 2 ^ 32 = o.room := by
          rw [Offer.room, RPMSG_HDR_SIZE]
          omega
        refine ⟨by simp, ?_⟩
        rintro _ ⟨rfl⟩
        refine ⟨o, hproper, ?_, ⟨s₂, h₂, htook.trans (hstill₁ .svq), rfl⟩, fun hset => ?_⟩
        · rw [locateData, hlen]
        · exact (hl.host hset).room rfl o (List.mem_of_getElem? htook.offer)

/-! ### Posting a message -/

@[simp]
theorem length_rpmsgHdr (src dst reserved len flags : ℕ) :
    (rpmsgHdr src dst reserved len flags).length = RPMSG_HDR_SIZE := rfl

/-- A transmit buffer in hand has its payload, and lacks its header. -/
structure Composed (t : Terms) (j : ℕ) (o : Offer) (hdr bs : List Byte) (s : Desk) : Prop where
  inHand : s.InHand .svq j o
  last : j + 1 = s.taken .svq
  header : hdr.length = RPMSG_HDR_SIZE
  fits : RPMSG_HDR_SIZE + bs.length ≤ o.len
  payload : ∀ i b, bs[i]? = some b → s.bytes (o.addr + RPMSG_HDR_SIZE + i) = some b ∧
    s.synced (.byte (o.addr + RPMSG_HDR_SIZE + i))
  reserved : ∀ i b, (Quad.ofNat o.idx).bytes[i]? = some b → s.bytes (o.addr + 8 + i) = some b
  due : ∃ m, t.message (s.known .rvq) (s.done .svq).length o = some m ∧ m <+: hdr ++ bs
  clean : t.setting ≠ .cached → ∀ a, o.Covers a → o.addr + RPMSG_HDR_SIZE ≤ a →
    s.synced (.byte a)

/-- With the header the message is complete. -/
theorem Composed.ready {j : ℕ} {o : Offer} {hdr bs : List Byte} (h : Composed t j o hdr bs s)
    (hw : Written o.addr hdr s s') : Ready t s' .svq o where
  message _ := by
    have hlen := h.header
    obtain ⟨m, hm, hpre⟩ := h.due
    refine ⟨m, ?_, hpre.length_le.trans ?_, fun i b hb => ?_⟩
    · rw [hw.filled.eq]
      exact hm
    · rw [List.length_append, hlen]
      exact h.fits
    · replace hb := getElem?_of_prefix hpre hb
      -- A byte of the message is one of the header or one of the payload.
      by_cases hi : i < hdr.length
      · rw [List.getElem?_append_left hi] at hb
        exact ⟨hw.filled.inside i b hb, hw.memory i hi⟩
      · rw [List.getElem?_append_right (Nat.le_of_not_lt hi)] at hb
        obtain ⟨hbyte, hsynced⟩ := h.payload _ b hb
        have hidx : o.addr + RPMSG_HDR_SIZE + (i - hdr.length) = o.addr + i := by omega
        rw [hidx] at hbyte hsynced
        refine ⟨?_, hw.filled.synced _ hsynced ?_⟩
        · rw [hw.filled.outside _ (by omega)]
          exact hbyte
        · rintro a ⟨⟩
          omega
  clean hset _ a ha := by
    have hlen := h.header
    by_cases hlow : o.addr + RPMSG_HDR_SIZE ≤ a
    · refine hw.filled.synced _ (h.clean hset a ha hlow) ?_
      rintro _ ⟨⟩
      omega
    · have hge := ha.1
      have hmem := hw.memory (a - o.addr) (by omega)
      rwa [Nat.add_sub_cancel' hge] at hmem

/-- The message in the buffer `o`, the offer with the number `j`, has been sent. -/
structure Posted (j : ℕ) (o : Offer) (s s' : Desk) : Prop where
  var : ∀ v : Var, v.OfEpt → s'.var v = s.var v
  bytes : ∀ a, InShm a → ¬o.Covers a → s'.bytes a = s.bytes a
  synced : ∀ a, s.synced (.byte a) → ¬o.Covers a → s'.synced (.byte a)
  known : s'.known = s.known
  taken : s'.taken = s.taken
  hand : s'.hand = Function.update s.hand .svq ((s.hand .svq).erase j)
  done : s'.done = Function.update s.done .svq (s.done .svq ++ [j])

theorem Gave.posted {j : ℕ} {o : Offer} {s₀ s₁ s₂ s₃ : Desk} (h₀ : Rewrote o s₀ s₁)
    (h₁ : Still s₁ s₂) (h₂ : Gave .svq j s₂ s₃) : Posted j o s₀ s₃ where
  var v hv := by
    rw [h₂.var v hv, (h₁ .svq).var v hv, h₀.eq]
  bytes a ha hcov := by rw [h₂.bytes a ha, (h₁ .svq).bytes a ha, h₀.bytes a hcov]
  synced a ha hcov := by
    refine h₂.synced a ((h₁ .svq).synced _ (h₀.synced _ ha ?_))
    rintro _ ⟨⟩
    exact hcov
  known := by rw [h₂.known, h₁.known, h₀.eq]
  taken := by rw [h₂.taken, (h₁ .svq).taken, h₀.eq]
  hand := by rw [h₂.hand, (h₁ .svq).hand, h₀.eq]
  done := by rw [h₂.done, (h₁ .svq).done, h₀.eq]

theorem Posted.still {j : ℕ} {o : Offer} (h : Posted j o s s') (hstill : Still s' s'') :
    Posted j o s s'' where
  var v hv := ((hstill .svq).var v hv).trans (h.var v hv)
  bytes a ha hcov := ((hstill .svq).bytes a ha).trans (h.bytes a ha hcov)
  synced a ha hcov := (hstill .svq).synced _ (h.synced a ha hcov)
  known := hstill.known.trans h.known
  taken := (hstill .svq).taken.trans h.taken
  hand := (hstill .svq).hand.trans h.hand
  done := (hstill .svq).done.trans h.done

/-- The index of the descriptor is read back from the buffer. -/
theorem does_hdrReserved {a n : ℕ} (hn : n < 2 ^ 32)
    (h : ∀ i b, (Quad.ofNat n).bytes[i]? = some b → s.Reads (a + 8 + i) b) {f : ℕ → Code α}
    (hf : Does (exchange t) (f n) R s) : Does (exchange t) (hdrReserved a >>= f) R s := by
  refine Does.bind ?_
  refine does_load32 (h 0 _ rfl) (h 1 _ rfl) (h 2 _ rfl) (h 3 _ rfl) ?_
  rw [Quad.toNat_ofNat hn]
  exact hf

/-- The header is written, and the buffer goes to the host. -/
theorem does_sendNocopy {j : ℕ} {o : Offer} {src dst len : ℕ} {bs : List Byte}
    (hfuel : t.halt ∨ 0 < fuel) (h : Steady false none s)
    (hc : Composed t j o (rpmsgHdr src dst 0 len 0) bs s) :
    Does (exchange t)
      (rpmsgVirtioSendOffchannelNocopy fuel src dst (o.addr + RPMSG_HDR_SIZE) len)
      (fun r s' => r = len ∧ Steady false none s' ∧ Posted j o s s') s := by
  have hproper := h.proper hc.inHand
  have hidx : o.idx < 128 := hproper.idx_lt
  have hstop := hproper.stop
  have hfits := hc.fits
  rw [RPMSG_HDR_SIZE] at hfits
  rw [rpmsgVirtioSendOffchannelNocopy, locateHdr, Nat.add_sub_cancel]
  refine does_hdrReserved (by omega)
    (fun i b hb => ⟨⟨_, j, o, hc.inHand, ?_⟩, hc.reserved i b hb⟩) ?_
  · have hi : i < 4 := (List.getElem?_eq_some_iff.1 hb).1
    exact ⟨by omega, by omega⟩
  refine does_quiet (o := .sp) trivial fun sp => ?_
  have hcov : ∀ i < (rpmsgHdr src dst 0 len 0).length, o.Covers (o.addr + i) := by
    intro i hi
    have hi : i < 16 := hi
    exact ⟨by omega, by omega⟩
  -- The header is put together on the stack.
  have hcopy : Copyable (.priv sp (rpmsgHdr src dst 0 len 0)) o.addr (rpmsgHdr src dst 0 len 0)
      s := by
    refine ⟨fun i hi => ⟨_, o, hc.inHand, hcov i hi⟩, fun i b hb => ?_, by simp [Src.Avoids]⟩
    rw [List.getD_eq_getElem?_getD, hb]
    rfl
  have hend : o.addr + (rpmsgHdr src dst 0 len 0).length ≤ SHMEM_PA + SHMEM_SIZE := by
    rw [length_rpmsgHdr, RPMSG_HDR_SIZE]
    omega
  have hshm : InShm o.addr := hproper.inShm (hcov 0 (by simp [RPMSG_HDR_SIZE]))
  refine Does.seq (does_blockWrite hshm hend hcopy) ?_
  rintro status s₁ ⟨rfl, hw⟩
  have hre : Rewrote o s s₁ := hw.rewrote hcov
  have h₁ : Steady false none s₁ := hre.steady h
  refine Does.ite (fun hne => absurd rfl hne) fun _ => ?_
  refine Does.seq (does_acquire hfuel h₁) ?_
  intro _ s₂ h₂
  have hmod : o.idx % 2 ^ 16 = o.idx := Nat.mod_eq_of_lt (by omega)
  rw [hmod]
  have ho₂ : s₂.InHand .svq j o := (h₂.2 .svq).inHand (hre.inHand hc.inHand)
  have hlast₂ : j + 1 = s₂.taken .svq := by
    rw [(h₂.2 .svq).taken, hre.eq]
    exact hc.last
  refine Does.seq (does_bufferLength h₂.1 ho₂ hlast₂) ?_
  rintro _ s₃ ⟨rfl, h₃⟩
  -- The message is complete in memory before the buffer is given to the host.
  have hready : Ready t s₃ .svq o := (hc.ready hw).still hproper (h₂.2.trans h₃.2)
  refine Does.seq (does_addConsumed h₃.1 ((h₃.2 .svq).inHand ho₂) hready) ?_
  rintro _ s₄ ⟨rfl, h₄, hgave⟩
  rw [if_pos rfl]
  refine Does.seq (does_kick h₄) ?_
  intro _ s₅ h₅
  refine Does.seq (does_release h₅.1) ?_
  intro _ s₆ h₆
  exact ⟨rfl, h₆.1, (hgave.posted hre (h₂.2.trans h₃.2)).still (h₅.2.trans h₆.2)⟩

/-! ### Sending -/

/-- A message has been sent in the next transmit buffer; what was in hand is untouched. -/
structure Sent (s s' : Desk) : Prop where
  var : ∀ v : Var, v.OfEpt → s'.var v = s.var v
  bytes : ∀ q j o a, s.InHand q j o → o.Covers a → s'.bytes a = s.bytes a
  synced : ∀ q j o a, s.InHand q j o → o.Covers a → s.synced (.byte a) → s'.synced (.byte a)
  svq : s.known .svq <+: s'.known .svq
  rvq : s'.known .rvq = s.known .rvq
  taken : s'.taken = Function.update s.taken .svq (s.taken .svq + 1)
  hand : s'.hand = s.hand
  done : s'.done = Function.update s.done .svq (s.done .svq ++ [s.taken .svq])

namespace Took

variable {q q' : Vq} {o o' : Offer} {j' a : ℕ}

/-- What was in hand stays in hand. -/
theorem keepsHand (h : Took t q o s s') (ho' : s.InHand q' j' o') : s'.InHand q' j' o' := by
  rcases eq_or_ne q' q with rfl | hne
  · refine ⟨?_, getElem?_of_prefix h.known ho'.2⟩
    rw [h.hand, Function.update_self]
    exact List.mem_append_left _ ho'.1
  · refine ⟨?_, ?_⟩
    · rw [h.hand, Function.update_of_ne hne]
      exact ho'.1
    · rw [h.other q' hne]
      exact ho'.2

/-- The buffer taken overlaps nothing that was in hand. -/
theorem not_covers {l l' : Bool} {b b' : Option Vq} (h : Took t q o s s') (hs : Steady l b s)
    (hs' : Steady l' b' s') (ho' : s.InHand q' j' o') (ha : o'.Covers a) : ¬o.Covers a := by
  intro hcov
  obtain ⟨rfl, rfl⟩ := hs'.apart h.inHand (h.keepsHand ho') hcov ha
  exact (hs.tidy.hand_lt q _ ho'.1).false

end Took

/-- A buffer that was taken, written and posted has been sent. -/
theorem Took.sent {o : Offer} {s₀ s₁ s₂ s₃ : Desk} (h₀ : Steady false none s₀)
    (h₁ : Steady false none s₁) (htook : Took t .svq o s₀ s₁) (hre : Rewrote o s₁ s₂)
    (hpost : Posted (s₀.taken .svq) o s₂ s₃) : Sent s₀ s₃ where
  var v hv := by
    rw [hpost.var v hv, hre.eq]
    exact htook.var v hv
  bytes q j o' a ho' ha := by
    have hnot := htook.not_covers h₀ h₁ ho' ha
    have hshm := (h₀.proper ho').inShm ha
    rw [hpost.bytes a hshm hnot, hre.bytes a hnot, htook.bytes a hshm hnot]
  synced q j o' a ho' ha hsynced := by
    have hnot := htook.not_covers h₀ h₁ ho' ha
    refine hpost.synced a (hre.synced _ (htook.synced _ hsynced ?_) ?_) hnot
    · rintro _ ⟨⟩
      exact hnot
    · rintro _ ⟨⟩
      exact hnot
  svq := by
    rw [hpost.known, hre.eq]
    exact htook.known
  rvq := by
    rw [hpost.known, hre.eq]
    exact htook.other .rvq (by simp)
  taken := by
    rw [hpost.taken, hre.eq]
    exact htook.taken
  hand := by
    have hnew : s₀.taken .svq ∉ s₀.hand .svq := fun hmem => (h₀.tidy.hand_lt .svq _ hmem).false
    rw [hpost.hand, hre.eq]
    simp only [htook.hand, Function.update_self, Function.update_idem]
    rw [List.erase_append_right _ hnew, List.erase_cons_head, List.append_nil,
      Function.update_eq_self]
  done := by
    rw [hpost.done, hre.eq]
    simp only [htook.done]

/-- What comes of an attempt to send: the message is sent, or there is no transmit buffer. -/
def Attempted (t : Terms) (s : Desk) (r : ℤ) (s' : Desk) : Prop :=
  (∃ n : ℕ, r = n ∧ Sent s s') ∨
    (r = RPMSG_ERR_NO_BUFF ∧ Kept .svq s s' ∧
      (t.setting = .echo → (s.known .rvq).length ≤ s.taken .svq - t.ahead))

/-- The message a payload makes in a buffer: as much of it as there is room for. -/
def sentMessage (src dst : ℕ) (bs : List Byte) (o : Offer) : List Byte :=
  rpmsgHdr src dst 0 (min o.room bs.length) 0 ++ bs.take o.room

/-- What there is to send: the bytes of the source, which is private or a received buffer, and the
message they make is, or begins with, the one that is due. -/
structure Sendable (t : Terms) (src dst : ℕ) (data : Src) (bs : List Byte) (s : Desk) : Prop where
  gives : data.Gives s bs
  received : ∀ a, data = .mem a → ∀ i < bs.length, ∃ j o, s.InHand .rvq j o ∧ o.Covers (a + i)
  due : ∀ o : Offer, o.Proper → (t.setting = .echo → t.size ≤ o.room) →
    ∃ m, t.message (s.known .rvq) (s.done .svq).length o = some m ∧ m <+: sentMessage src dst bs o

/-- The payload is written into a transmit buffer. -/
theorem does_writePayload {src dst : ℕ} {data : Src} {bs : List Byte} {o : Offer}
    {s₁ : Desk} (h : Steady false none s) (hs : Sendable t src dst data bs s) (ho : o.Proper)
    (h₁ : Steady false none s₁) (htook : Took t .svq o s s₁)
    (hroom : t.setting = .echo → t.size ≤ o.room) :
    Does (exchange t)
      (metalIoBlockWrite (o.addr + RPMSG_HDR_SIZE) data (min o.room bs.length)) (fun r s' =>
        r = (min o.room bs.length : ℕ) ∧ Rewrote o s₁ s' ∧
        Composed t (s.taken .svq) o (rpmsgHdr src dst 0 (min o.room bs.length) 0)
          (bs.take o.room) s') (s₁.storeWord (o.addr + 8) (Quad.ofNat o.idx)) := by
  have hlen : (bs.take o.room).length = min o.room bs.length := List.length_take
  have hstop := ho.stop
  have hfits : RPMSG_HDR_SIZE + o.room = o.len := by
    have := ho.room
    rw [Offer.room]
    omega
  rw [RPMSG_HDR_SIZE] at hfits
  have hcov : ∀ i < (bs.take o.room).length, o.Covers (o.addr + RPMSG_HDR_SIZE + i) := by
    intro i hi
    rw [RPMSG_HDR_SIZE]
    exact ⟨by omega, by omega⟩
  have hword : Rewrote o s₁ (s₁.storeWord (o.addr + 8) (Quad.ofNat o.idx)) := by
    refine rewrote_storeWord fun i hi => ⟨by omega, ?_⟩
    have := ho.room
    rw [RPMSG_HDR_SIZE] at this
    omega
  -- What does not fit into the buffer is not sent.
  have hpre : ∀ i b, (bs.take o.room)[i]? = some b → bs[i]? = some b :=
    fun i b hb => getElem?_of_prefix (List.take_prefix _ _) hb
  -- A payload that lies in a message lies in another buffer, which the copy does not touch.
  have helse : ∀ a, data = .mem a → ∀ i < (bs.take o.room).length, InShm (a + i) ∧
      ¬o.Covers (a + i) := by
    intro a ha i hi
    obtain ⟨j', o', ho', hcov'⟩ := hs.received a ha i (by omega)
    exact ⟨(h.proper ho').inShm hcov', htook.not_covers h h₁ ho' hcov'⟩
  have hcopy : Copyable data (o.addr + RPMSG_HDR_SIZE) (bs.take o.room)
      (s₁.storeWord (o.addr + 8) (Quad.ofNat o.idx)) := by
    refine ⟨fun i hi => ⟨_, o, hword.inHand htook.inHand, hcov i hi⟩, ?_, fun a ha i hi hin => ?_⟩
    · cases data with
      | mem a =>
        intro i b hb
        obtain ⟨hshm, hnot⟩ := helse a rfl i (List.getElem?_eq_some_iff.1 hb).1
        obtain ⟨⟨q', j', o', ho', hcov'⟩, hbyte⟩ := hs.gives i b (hpre i b hb)
        refine ⟨⟨q', j', o', hword.inHand (htook.keepsHand ho'), hcov'⟩, ?_⟩
        rw [hword.bytes _ hnot, htook.bytes _ hshm hnot]
        exact hbyte
      | priv a bytes => exact fun i b hb => hs.gives i b (hpre i b hb)
    · refine (helse a ha i hi).2 ?_
      obtain ⟨k, hk⟩ := Nat.exists_eq_add_of_le hin.1
      rw [hk]
      exact hcov k (by omega)
  have hshm : InShm (o.addr + RPMSG_HDR_SIZE) :=
    ho.inShm ⟨by omega, Nat.add_lt_add_left ho.room _⟩
  rw [← hlen]
  refine (does_blockWrite hshm (by rw [RPMSG_HDR_SIZE]; omega) hcopy).mono ?_
  rintro r s₃ ⟨rfl, hw⟩
  have hre : Rewrote o s₁ s₃ := hword.trans (hw.rewrote hcov)
  refine ⟨rfl, hre, ?_⟩
  exact {
    inHand := hre.inHand htook.inHand
    last := by
      rw [hre.eq]
      exact (by rw [htook.taken, Function.update_self] : s.taken .svq + 1 = s₁.taken .svq)
    header := rfl
    fits := by
      rw [RPMSG_HDR_SIZE]
      omega
    payload := fun i b hb =>
      ⟨hw.filled.inside i b hb, hw.memory i (List.getElem?_eq_some_iff.1 hb).1⟩
    reserved := fun i b hb => by
      have hi : i < 4 := (List.getElem?_eq_some_iff.1 hb).1
      rw [hw.filled.outside _ (by rw [RPMSG_HDR_SIZE]; omega)]
      exact Desk.bytes_storeWord s₁ _ hb
    due := by
      have hdue := hs.due o ho hroom
      rw [← htook.other .rvq (by simp), ← htook.done, sentMessage, ← hlen] at hdue
      rw [hre.eq]
      exact hdue
    -- Every byte of the buffer behind the header is in memory: copied and flushed, or clean before.
    clean := fun hset a ha hlow => by
      rw [RPMSG_HDR_SIZE] at hlow
      by_cases hin : a < o.addr + RPMSG_HDR_SIZE + (bs.take o.room).length
      · have hmem := hw.memory (a - (o.addr + RPMSG_HDR_SIZE)) (by rw [RPMSG_HDR_SIZE] at *; omega)
        rwa [Nat.add_sub_cancel' (by rw [RPMSG_HDR_SIZE]; omega)] at hmem
      · refine hw.filled.synced _ (Desk.synced_storeWord (htook.clean hset a ha) ?_) ?_
        · rintro i hi ⟨⟩
          omega
        · rintro _ ⟨⟩
          omega }

theorem toInt_of_lt {n : ℕ} (h : n < 2 ^ 31) : toInt n = n := if_pos h

/-- The length of a message: what there is to send, or the room for it. -/
theorem toNat_clip (room len : ℕ) :
    (if (room : ℤ) < len then (room : ℤ) else len) = (min room len : ℕ) := by
  split
  · next h =>
    rw [Nat.min_eq_left (by exact_mod_cast h.le)]
  · next h =>
    rw [Nat.min_eq_right (by exact_mod_cast not_lt.mp h)]

/-- `rpmsg_virtio_send_offchannel_raw` -/
theorem does_virtioSendRaw {src dst : ℕ} {data : Src} {bs : List Byte} (hfuel : t.halt ∨ 0 < fuel)
    (h : Steady false none s) (hs : Sendable t src dst data bs s) :
    Does (exchange t) (rpmsgVirtioSendOffchannelRaw fuel src dst data bs.length)
      (fun r s' => Steady false none s' ∧ Attempted t s r s') s := by
  refine Does.seq (does_getTxPayload hfuel h) ?_
  rintro (_ | p) s₂ ⟨hnone, hsome⟩
  · obtain ⟨h₂, hkept, hecho⟩ := hnone rfl
    exact ⟨h₂, .inr ⟨rfl, hkept, hecho⟩⟩
  · obtain ⟨o, ho, rfl, ⟨s₁, h₁, htook, rfl⟩, hsize⟩ := hsome p rfl
    have hroom : o.room < 2 ^ 31 := by
      have hstop := ho.stop
      have hrange : SHMEM_PA + SHMEM_SIZE = 0x414F0000 := rfl
      rw [Offer.room]
      omega
    simp only [toInt_of_lt hroom, toNat_clip]
    refine Does.ite (fun hneg => absurd hneg (Int.not_lt.mpr (Int.natCast_nonneg _))) fun _ => ?_
    rw [Int.toNat_natCast]
    refine Does.seq (does_writePayload h hs ho h₁ htook hsize) ?_
    rintro _ s₃ ⟨rfl, hre, hcomposed⟩
    refine Does.ite (fun hne => absurd rfl hne) fun _ => ?_
    refine (does_sendNocopy hfuel (hre.steady h₁) hcomposed).mono ?_
    rintro r s₄ ⟨rfl, h₄, hpost⟩
    exact ⟨h₄, .inl ⟨_, rfl, htook.sent h h₁ hre hpost⟩⟩

/-- `rpmsg_send` of an endpoint: there is nobody to send to, or the message is sent if there is a
transmit buffer. -/
theorem does_send {ept : Ept} {data : Src} {bs : List Byte} (hfuel : t.halt ∨ 0 < fuel)
    (h : Steady false none s)
    (hs : s.var (.eptRdev ept) ≠ 0 → s.var (.eptDest ept) ≠ RPMSG_ADDR_ANY →
      Sendable t ept.addr (s.var (.eptDest ept)) data bs s) :
    Does (exchange t) (rpmsgSend fuel ept data bs.length) (fun r s' =>
      Steady false none s' ∧ ((r = RPMSG_ERR_PARAM ∧ s' = s ∧
        (s.var (.eptRdev ept) = 0 ∨ s.var (.eptDest ept) = RPMSG_ADDR_ANY)) ∨
        Attempted t s r s')) s := by
  refine does_get ?_
  refine does_get ?_
  refine Does.ite (fun hnone => ⟨h, .inl ⟨rfl, rfl, hnone⟩⟩) (fun hsome => ?_)
  rw [not_or] at hsome
  refine (does_virtioSendRaw hfuel h (hs hsome.1 hsome.2)).mono ?_
  rintro r s' ⟨h', hatt⟩
  exact ⟨h', .inr hatt⟩

end C906Firmware
