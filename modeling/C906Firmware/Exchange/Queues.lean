import C906Firmware.Exchange.Rings

/-!
# The functions of the rings, over the account of the exchange

A look at a queue finds the next offer or finds that there is none (`does_getAvailable`), and a
buffer that is ready to go back is returned (`does_addConsumed`).
-/

namespace C906Firmware

open Interaction

variable {t : Terms} {α : Type} {R : α → Desk → Prop} {s s' s'' : Desk}

/-! ### Taking a buffer -/

/-- The offer `o` has been taken from the queue `q`, and nothing else has changed. -/
structure Took (t : Terms) (q : Vq) (o : Offer) (s s' : Desk) : Prop where
  var : ∀ v : Var, v.OfEpt → s'.var v = s.var v
  cell : s'.cell = s.cell
  bytes : ∀ a, InShm a → ¬o.Covers a → s'.bytes a = s.bytes a
  content : q = .rvq → ∀ i b, o.content[i]? = some b → s'.bytes (o.addr + i) = some b
  synced : ∀ l, s.synced l → (∀ a, l = .byte a → ¬o.Covers a) → s'.synced l
  clean : t.setting ≠ .cached → ∀ a, o.Covers a → s'.synced (.byte a)
  known : s.known q <+: s'.known q
  other : ∀ q', q' ≠ q → s'.known q' = s.known q'
  taken : s'.taken = Function.update s.taken q (s.taken q + 1)
  hand : s'.hand = Function.update s.hand q (s.hand q ++ [s.taken q])
  done : s'.done = s.done
  offer : (s'.known q)[s.taken q]? = some o

namespace Took

variable {q : Vq} {o : Offer}

/-- Before and after, the rest may be left alone. -/
theorem trans (h : Kept q s s') (ht : Took t q o s' s'') : Took t q o s s'' where
  var v hv := (ht.var v hv).trans (h.var v hv)
  cell := ht.cell.trans h.cell
  bytes a ha hcov := (ht.bytes a ha hcov).trans (h.bytes a ha)
  content := ht.content
  synced l hl := ht.synced l (h.synced l hl)
  clean := ht.clean
  known := h.known.trans ht.known
  other q' hq' := (ht.other q' hq').trans (h.other q' hq')
  taken := h.taken ▸ ht.taken
  hand := by rw [ht.hand, h.hand, h.taken]
  done := ht.done.trans h.done
  offer := h.taken ▸ ht.offer

theorem still (ht : Took t q o s s') (ho : o.Proper) (h : Still s' s'') : Took t q o s s'' where
  var v hv := ((h q).var v hv).trans (ht.var v hv)
  cell := (h q).cell.trans ht.cell
  bytes a ha hcov := ((h q).bytes a ha).trans (ht.bytes a ha hcov)
  content hq i b hb := by
    have hcov : o.Covers (o.addr + i) := by
      have hlen := ho.content_length
      have hi := (List.getElem?_eq_some_iff.1 hb).1
      exact ⟨by omega, by omega⟩
    rw [(h q).bytes _ (ho.inShm hcov)]
    exact ht.content hq i b hb
  synced l hl hcov := (h q).synced l (ht.synced l hl hcov)
  clean hset a ha := (h q).synced _ (ht.clean hset a ha)
  known := h.known ▸ ht.known
  other := h.known ▸ ht.other
  taken := (h q).taken.trans ht.taken
  hand := (h q).hand.trans ht.hand
  done := (h q).done.trans ht.done
  offer := h.known ▸ ht.offer

/-- The buffer is in hand. -/
theorem inHand (ht : Took t q o s s') : s'.InHand q (s.taken q) o := by
  refine ⟨?_, ht.offer⟩
  rw [ht.hand, Function.update_self]
  exact List.mem_append_right _ List.mem_cons_self

end Took

namespace Steady

variable {l : Bool} {b : Option Vq} {q : Vq}

/-- Taking the next offer keeps the invariant. -/
theorem take (h : Steady l b s) (hlt : s.taken q < (s.known q).length)
    {bytes : ℕ → Option Byte} {synced : Loc → Prop}
    (hsynced : ∀ c, s.synced (.cell c) → synced (.cell c)) :
    Steady l b (s.take q ((s.taken q + 1) % 2 ^ 16) bytes synced) where
  host := h.host.congr rfl rfl
  lock := by simpa [Desk.take] using h.lock
  inuse := by simpa [Desk.take] using h.inuse
  avail q' := by
    rcases eq_or_ne q' q with rfl | hne
    · simp [Desk.take]
    · simpa [Desk.take, Function.update_apply, hne] using h.avail q'
  used := h.used
  used_synced q' := hsynced _ (h.used_synced q')
  tidy := h.tidy.take hlt _ _ _

/-- More offers are seen. -/
theorem see (h : Steady l b s) {offers : List Offer} (hpre : s.known q <+: offers)
    (hhost : HostKeeps (s.see q offers)) : Steady l b (s.see q offers) :=
  { h with
    host := hhost
    tidy := h.tidy.see hpre }

end Steady

/-! ### The functions of the rings -/

section Functions

variable {l : Bool} {q : Vq}

/-- `VQUEUE_BUSY` finds no queue busy, so that no assertion fails. -/
theorem does_busy (h : Steady l none s) {f : Unit → Code α}
    (hf : ∀ s', During l (some q) s s' → Does (exchange t) (f ()) R s') :
    Does (exchange t) (vqueueBusy q >>= f) R s := by
  have hfree : s.var (.vqInuse q) = 0 := by simpa using h.inuse q
  refine Does.bind ?_
  refine does_get ?_
  rw [hfree, if_pos rfl]
  refine Does.last (does_set (by simp) ?_)
  exact hf _ ⟨h.setBusy q, fun q' => Kept.set id q' s 1⟩

theorem does_idle {s₀ : Desk} (h : During l (some q) s₀ s) {f : Unit → Code α}
    (hf : ∀ s', During l none s₀ s' → Does (exchange t) (f ()) R s') :
    Does (exchange t) (vqueueIdle q >>= f) R s := by
  refine does_set (by simp) ?_
  exact hf _ ⟨h.1.setIdle, h.2.trans fun q' => Kept.set id q' s 0⟩

/-- The index of the available ring is read, from memory. -/
theorem does_loadAvailIdx {f : ℕ → Code α}
    (hcount : t.setting = .echo → EchoCount t q (s.known .rvq).length (s.heard q))
    (h : ∀ offers, s.known q <+: offers → HostKeeps (s.see q offers) →
      (t.setting = .echo → EchoOffers t q (s.see q offers).known) →
      Does (exchange t) (f (offers.length % 2 ^ 16)) R (s.see q offers)) :
    Does (exchange t) (access (.load (.availIdx q)) >>= f) R s := by
  refine Does.act trivial ?_
  rintro r s' ⟨offers, hpre, hheard, rfl, rfl, hhost, hecho⟩
  refine h offers hpre hhost fun hset => ⟨hecho hset, ?_, ?_⟩
  -- The index has been read afresh, so that it shows all that was there when its line was dropped.
  · rintro rfl
    simpa [Desk.see] using ((hcount hset).made rfl).trans hheard
  · rintro rfl
    have henough := (hcount hset).enough rfl
    simp only [Desk.see, Function.update_self, Function.update_of_ne (show Vq.rvq ≠ .svq by simp)]
    omega

/-- The next offer is taken. -/
theorem does_takeNext {l : Bool} {b : Option Vq} (h : Steady l b s)
    (hq : q = .rvq → t.setting ≠ .cached) (hlt : s.taken q < (s.known q).length)
    {f : Unit → Code α}
    (hf : ∀ o s', Steady l b s' → Took t q o s s' → s'.known = s.known →
      Does (exchange t) (f ()) R s') :
    Does (exchange t) (set (.vqAvailableIdx q) ((s.taken q + 1) % 2 ^ 16) >>= f) R s := by
  refine Does.act ⟨hq, hlt, rfl⟩ ?_
  rintro - s' ⟨o, bytes, synced, ho, hbytes, hcontent, hsynced, hclean, rfl⟩
  have hcell : ∀ c, s.synced (.cell c) → synced (.cell c) :=
    fun c hc => hsynced _ hc (by simp)
  refine hf o _ (h.take hlt hcell) ?_ rfl
  exact {
    var := fun v hv => by
      have hne : v ≠ .vqAvailableIdx q := by
        rintro rfl
        exact hv
      exact Function.update_of_ne hne ..
    cell := rfl
    bytes := fun a _ => hbytes a
    content := hcontent
    synced := hsynced
    clean := hclean
    known := List.prefix_rfl
    other := fun _ _ => rfl
    taken := rfl
    hand := rfl
    done := rfl
    offer := ho }

/-- What a look at a queue finds: nothing, if all offers seen have been taken, or the next
offer. -/
structure Looked (t : Terms) (q : Vq) (s : Desk) (r : Option Buffer) (s' : Desk) : Prop where
  empty : r = none → Kept q s s' ∧ s'.taken q = (s'.known q).length
  found : ∀ b, r = some b → ∃ o, b = ⟨o.addr, o.idx, o.len⟩ ∧ Took t q o s s'
  host : t.setting = .echo → EchoOffers t q s'.known

/-- The indices of the offers seen and of those taken differ, unless they are the same. -/
theorem mod_index_eq_iff {m n : ℕ} (hle : m ≤ n) (hlt : n < m + 2 ^ 16) :
    m % 2 ^ 16 = n % 2 ^ 16 ↔ m = n := by
  omega

theorem and_ring_mask (n : ℕ) : n &&& (VRING_NUM_BUFFS - 1) = n % VRING_NUM_BUFFS :=
  Nat.and_two_pow_sub_one_eq_mod n 7

/-- Fields of the offer taken last that have been invalidated are read as the host wrote them. -/
theorem does_readField {c : Cell} {size : ℕ} {j : ℕ} {o : Offer} (hsize : 0 < size)
    (hlo : vringAddress q ≤ c.addr) (hhi : c.addr + size ≤ vringUsed q) (ho : s.InHand q j o)
    (hlast : j + 1 = s.taken q) {f : Unit → Code α}
    (hf : ∀ s', Still s s' → s'.var = s.var →
      (∀ c' v r, s'.Told c' r → o.Field q j c' v → c'.queue = q → c.addr ≤ c'.addr →
        c'.addr < c.addr + size → r = v) → Does (exchange t) (f ()) R s') :
    Does (exchange t) (vringInvalidate c size >>= f) R s := by
  refine Does.seq (does_vringInvalidate hsize (hostLines_vring hlo hhi)) ?_
  rintro - s' ⟨hstill, hvar, hfresh, -⟩
  refine hf s' hstill hvar fun c' v r htold hfield hqueue hlo' hhi' => ?_
  refine htold q j o v ((hstill q).inHand ho) ?_ hfield ?_
  · rw [(hstill q).taken]
    exact hlast
  · rw [hfresh c' hlo' hhi', hqueue]
    exact (List.getElem?_eq_some_iff.1 ho.2).1

/-- The offer taken last is read from the ring and the descriptor table. -/
theorem does_readOffer {j : ℕ} {o : Offer} (h : Steady l (some q) s) (ho : s.InHand q j o)
    (hlast : j + 1 = s.taken q) {f : Option Buffer → Code α}
    (hf : ∀ s', During l none s s' →
      Does (exchange t) (f (some ⟨o.addr, o.idx, o.len⟩)) R s') :
    Does (exchange t) (do
      vringInvalidate (.availRing q (j % VRING_NUM_BUFFS)) 2
      let availIdx ← access (.load (.availRing q (j % VRING_NUM_BUFFS)))
      vringInvalidate (.descAddr q availIdx) 16
      let phys ← access (.load (.descAddr q availIdx))
      let buffer ← virtqueuePhysToVirt q phys
      let len ← access (.load (.descLen q availIdx))
      vqueueIdle q
      f (buffer.map fun addr => ⟨addr, availIdx, len⟩)) R s := by
  have hvring := vringUsed_eq q
  have havail : vringAvail q = vringAddress q + 2048 := rfl
  have hproper := h.proper ho
  have hidx : o.idx < 128 := hproper.idx_lt
  have hslot : j % VRING_NUM_BUFFS < 128 := Nat.mod_lt _ (by decide)
  refine does_readField (by omega) ?_ ?_ ho hlast fun s₁ hstill₁ hvar₁ htold₁ => ?_
  · rw [Cell.addr]
    omega
  · rw [Cell.addr]
    omega
  -- What is read is what the host has written of this offer, as its line has just been dropped.
  refine does_load (by simp) fun r hr => ?_
  obtain rfl := htold₁ _ o.idx r hr (.inl ⟨rfl, rfl⟩) rfl le_rfl (by omega)
  have h₁ : Steady l (some q) s₁ := h.congr (fun v _ => congrFun hvar₁ v) hstill₁
  have ho₁ := (hstill₁ q).inHand ho
  have hlast₁ : j + 1 = s₁.taken q := (hstill₁ q).taken ▸ hlast
  refine does_readField (by omega) ?_ ?_ ho₁ hlast₁ fun s₂ hstill₂ hvar₂ htold₂ => ?_
  · rw [Cell.addr]
    omega
  · rw [Cell.addr]
    omega
  have h₂ : Steady l (some q) s₂ := h₁.congr (fun v _ => congrFun hvar₂ v) hstill₂
  refine does_load (by simp) fun phys hphys => ?_
  obtain rfl := htold₂ _ o.addr phys hphys (.inr (.inl ⟨rfl, rfl⟩)) rfl le_rfl (by omega)
  have hshm : InShm o.addr := hproper.inShm ⟨le_rfl, by have := hproper.room; omega⟩
  refine does_get ?_
  rw [if_pos hshm]
  refine does_load (by simp) fun len hlen => ?_
  obtain rfl := htold₂ _ o.len len hlen (.inr (.inr ⟨rfl, rfl⟩)) rfl
    (by simp only [Cell.addr]; omega) (by simp only [Cell.addr]; omega)
  exact does_idle ⟨h₂, hstill₁.trans hstill₂⟩ hf

/-- `virtqueue_get_available_buffer` takes the next offer, if there is one. -/
theorem does_getAvailable (h : Steady l none s) (hq : q = .rvq → t.setting ≠ .cached) :
    Does (exchange t) (virtqueueGetAvailableBuffer q)
      (fun r s' => Steady l none s' ∧ Looked t q s r s') s := by
  have hvring := vringUsed_eq q
  have havail : vringAvail q = vringAddress q + 2048 := rfl
  refine Does.seq (does_vringInvalidate (by omega) (hostLines_vring (q := q) ?_ ?_)) ?_
  · rw [Cell.addr]
    omega
  · rw [Cell.addr]
    omega
  rintro - s₁ ⟨hstill₁, hvar₁, -, hheard₁⟩
  have h₁ : Steady l none s₁ := h.congr (fun v _ => congrFun hvar₁ v) hstill₁
  have hcount₁ : t.setting = .echo → EchoCount t q (s₁.known .rvq).length (s₁.heard q) := by
    rw [hstill₁.known]
    exact fun hset => hheard₁ hset q rfl
  refine does_get ?_
  refine does_loadAvailIdx hcount₁ fun offers hpre hhost hecho => ?_
  have h₂ : Steady l none (s₁.see q offers) := h₁.see hpre hhost
  have hkept₂ : Kept q s (s₁.see q offers) := (hstill₁ q).trans (Kept.see hpre)
  have hknown : (s₁.see q offers).known q = offers := by simp [Desk.see]
  generalize s₁.see q offers = s₂ at h₂ hkept₂ hknown hecho
  have htaken : s₂.taken q = s₁.taken q := by
    rw [hkept₂.taken, (hstill₁ q).taken]
  have hle := h₂.tidy.taken_le q
  have hlt := h₂.taken_lt q
  rw [hknown, htaken] at hle hlt
  rw [h₁.avail q]
  -- Both indices are cut to 16 bits; as fewer than 2^16 offers are open, none is confused with
  -- another.
  have hcmp : s₁.taken q % 2 ^ 16 = offers.length % 2 ^ 16 ↔ s₁.taken q = offers.length :=
    mod_index_eq_iff hle (by
      rw [VRING_NUM_BUFFS] at hlt
      omega)
  refine Does.ite (fun heq => ?_) (fun hne => ?_)
  · have hall : s₂.taken q = (s₂.known q).length := by
      rw [htaken, hknown]
      exact hcmp.mp heq
    exact ⟨h₂, fun _ => ⟨hkept₂, hall⟩, by simp, hecho⟩
  · refine does_busy h₂ fun s₃ h₃ => ?_
    refine does_get ?_
    rw [h₃.1.avail q, Nat.mod_add_mod, and_ring_mask]
    have htaken₃ : s₃.taken q = s₂.taken q := congrFun (h₃.2 q).taken q
    have hlt₃ : s₃.taken q < (s₃.known q).length := by
      rw [htaken₃, htaken, h₃.2.known, hknown]
      exact lt_of_le_of_ne hle fun heq => hne (hcmp.mpr heq)
    refine does_takeNext h₃.1 hq hlt₃ fun o s₄ h₄ htook hsame => ?_
    have hmod : s₃.taken q % 2 ^ 16 % VRING_NUM_BUFFS = s₃.taken q % VRING_NUM_BUFFS :=
      Nat.mod_mod_of_dvd _ (by decide)
    rw [hmod]
    have hlast : s₃.taken q + 1 = s₄.taken q := by rw [htook.taken, Function.update_self]
    refine does_readOffer h₄ htook.inHand hlast fun s₅ h₅ => ?_
    -- The fields of the offer are read after it has been taken, and nothing else changes meanwhile.
    have htook₅ : Took t q o s s₅ :=
      (htook.trans (hkept₂.trans (h₃.2 q))).still (h₄.proper htook.inHand) h₅.2
    have hknown₅ : s₅.known = s₂.known := by rw [h₅.2.known, hsame, h₃.2.known]
    refine ⟨h₅.1, by simp, ?_, ?_⟩
    · rintro b hb
      exact ⟨o, (Option.some.inj hb).symm, htook₅⟩
    · rw [hknown₅]
      exact hecho

/-! ### Returning a buffer -/

/-- The buffer may go back: on the send queue its message is complete in memory. -/
structure Ready (t : Terms) (s : Desk) (q : Vq) (o : Offer) : Prop where
  message : q = .svq → ∃ m, t.message (s.known .rvq) (s.done .svq).length o = some m ∧
    m.length ≤ o.len ∧ ∀ i b, m[i]? = some b →
      s.bytes (o.addr + i) = some b ∧ s.synced (.byte (o.addr + i))
  clean : t.setting ≠ .cached → q = .svq → ∀ a, o.Covers a → s.synced (.byte a)

/-- The offer with the number `j` has been returned to the queue `q`, and nothing else has
changed. -/
structure Gave (q : Vq) (j : ℕ) (s s' : Desk) : Prop where
  var : ∀ v : Var, v.OfEpt → s'.var v = s.var v
  bytes : ∀ a, InShm a → s'.bytes a = s.bytes a
  synced : ∀ a, s.synced (.byte a) → s'.synced (.byte a)
  known : s'.known = s.known
  taken : s'.taken = s.taken
  hand : s'.hand = Function.update s.hand q ((s.hand q).erase j)
  done : s'.done = Function.update s.done q (s.done q ++ [j])

namespace Ready

variable {o : Offer}

theorem still (h : Ready t s q o) (ho : o.Proper) (hstill : Still s s') : Ready t s' q o where
  message hq := by
    obtain ⟨m, hm, hlen, hbytes⟩ := h.message hq
    refine ⟨m, ?_, hlen, fun i b hb => ?_⟩
    · rw [hstill.known, (hstill q).done]
      exact hm
    · have hi := (List.getElem?_eq_some_iff.1 hb).1
      have hshm : InShm (o.addr + i) := ho.inShm ⟨by omega, by omega⟩
      rw [(hstill q).bytes _ hshm]
      exact ⟨(hbytes i b hb).1, (hstill q).synced _ (hbytes i b hb).2⟩
  clean hset hq a ha := (hstill q).synced _ (h.clean hset hq a ha)

theorem storeCell (h : Ready t s q o) (c : Cell) (n : ℕ) : Ready t (s.storeCell c n) q o where
  message hq := by
    obtain ⟨m, hm, hlen, hbytes⟩ := h.message hq
    exact ⟨m, hm, hlen, fun i b hb => ⟨(hbytes i b hb).1, (hbytes i b hb).2, by simp⟩⟩
  clean hset hq a ha := ⟨h.clean hset hq a ha, by simp⟩

end Ready

namespace Steady

variable {l : Bool} {b : Option Vq}

/-- Writing an element of a used ring keeps the invariant. -/
theorem storeCell (h : Steady l b s) {c : Cell} (hc : ∀ q, c ≠ .usedIdx q) (n : ℕ) :
    Steady l b (s.storeCell c n) :=
  { h with
    host := h.host.congr rfl rfl
    tidy := h.tidy.congr rfl rfl rfl rfl
    used := fun q => (Function.update_of_ne (hc q).symm ..).trans (h.used q)
    used_synced := fun q => ⟨h.used_synced q, fun heq => hc q (Loc.cell.inj heq).symm⟩ }

/-- Returning a buffer, with the index flushed, keeps the invariant. -/
theorem giveBack {j : ℕ} (h : Steady l b s) (hj : j ∈ s.hand q)
    (hflush : Flushed (Cell.usedIdx q).addr 2
      (s.giveBack q j (((s.done q).length + 1) % 2 ^ 16)) s') : Steady l b s' where
  host := by
    rw [hflush.eq]
    exact {
      proper := h.host.proper
      formed := h.host.formed
      window := fun q' => by
        have hwindow := h.host.window q'
        rcases eq_or_ne q' q with rfl | hne
        · simp only [Desk.giveBack, Function.update_self, List.length_append]
          exact hwindow.trans (by omega)
        · simpa [Desk.giveBack, Desk.storeCell, hne] using hwindow
      apart := fun q₁ q₂ j₁ j₂ o₁ o₂ a hj₁ hj₂ => by
        -- What has been returned stays returned, so that fewer buffers are lent than before.
        have hsub : ∀ q' i, i ∈ s.done q' →
            i ∈ (Function.update s.done q (s.done q ++ [j])) q' := by
          intro q' i hi
          rcases eq_or_ne q' q with rfl | hne
          · rw [Function.update_self]
            exact List.mem_append_left _ hi
          · rwa [Function.update_of_ne hne]
        exact h.host.apart q₁ q₂ j₁ j₂ o₁ o₂ a (fun hi => hj₁ (hsub q₁ j₁ hi))
          (fun hi => hj₂ (hsub q₂ j₂ hi)) }
  lock := by
    rw [hflush.eq]
    exact h.lock
  inuse := by
    rw [hflush.eq]
    exact h.inuse
  avail := by
    rw [hflush.eq]
    exact h.avail
  used q' := by
    rw [hflush.eq]
    rcases eq_or_ne q' q with rfl | hne
    · simp [Desk.giveBack, Desk.storeCell]
    · have hcell : Cell.usedIdx q' ≠ .usedIdx q := fun heq => hne (Cell.usedIdx.inj heq)
      simpa [Desk.giveBack, Desk.storeCell, hne, hcell] using h.used q'
  used_synced q' := by
    rcases eq_or_ne q' q with rfl | hne
    · exact hflush.covered _ le_rfl (Nat.lt_add_of_pos_right (by decide))
    · refine hflush.mono _ ⟨h.used_synced q', fun heq => hne ?_⟩
      exact Cell.usedIdx.inj (Loc.cell.inj heq)
  tidy := by
    rw [hflush.eq]
    exact (h.tidy.giveBack hj (((s.done q).length + 1) % 2 ^ 16)).congr rfl rfl rfl rfl

end Steady

end Functions

/-! ### Returning a buffer, access by access -/

section Returning

variable {l : Bool} {q : Vq}

theorem does_loadUsedIdx {f : ℕ → Code α}
    (h : Does (exchange t) (f (s.cell (.usedIdx q))) R s) :
    Does (exchange t) (access (.load (.usedIdx q)) >>= f) R s := by
  refine Does.act trivial ?_
  rintro _ _ ⟨rfl, rfl⟩
  exact h

/-- The descriptor of a buffer in hand is written to the next element. -/
theorem does_storeId {i n : ℕ} (hi : i = s.slot q) (hhand : s.hand q ≠ []) {f : Unit → Code α}
    (h : Does (exchange t) (f ()) R (s.storeCell (.usedId q i) n)) :
    Does (exchange t) (access (.store (.usedId q i) n) >>= f) R s := by
  refine Does.act ⟨hhand, hi⟩ ?_
  rintro _ _ rfl
  exact h

/-- The length of a message is written to the next element. -/
theorem does_storeLen {i n : ℕ} (hi : i = s.slot q) (hhand : s.hand q ≠ []) {f : Unit → Code α}
    (h : Does (exchange t) (f ()) R (s.storeCell (.usedLen q i) n)) :
    Does (exchange t) (access (.store (.usedLen q i) n) >>= f) R s := by
  refine Does.act ⟨hhand, hi⟩ ?_
  rintro _ _ rfl
  exact h

/-- The index moves: the buffer is the host's again. -/
theorem does_storeUsedIdx {j : ℕ} {o : Offer} (hr : Returnable t s q j o) {f : Unit → Code α}
    (h : Does (exchange t) (f ()) R (s.giveBack q j (((s.done q).length + 1) % 2 ^ 16))) :
    Does (exchange t) (access (.store (.usedIdx q) (((s.done q).length + 1) % 2 ^ 16)) >>= f)
      R s := by
  refine Does.act ⟨rfl, j, o, hr⟩ ?_
  intro _ s' hs
  obtain rfl := hs j o hr
  exact h

/-- The element of the used ring is written, and flushed. -/
theorem does_writeElement {b : Option Vq} {j : ℕ} {o : Offer} (h : Steady l b s)
    (ho : s.InHand q j o) (hready : Ready t s q o) {p : Code α}
    (hp : ∀ s', Steady l b s' → Returnable t s' q j o → (∀ v, s'.var v = s.var v) →
      s'.bytes = s.bytes → (∀ a, s.synced (.byte a) → s'.synced (.byte a)) →
      s'.known = s.known → s'.taken = s.taken → s'.hand = s.hand → s'.done = s.done →
      Does (exchange t) p R s') :
    Does (exchange t) (do
      access (.store (.usedId q (s.slot q)) o.idx)
      access (.store (.usedLen q (s.slot q)) o.len)
      vringFlush (.usedId q (s.slot q)) 8
      p) R s := by
  have hhand : s.hand q ≠ [] := List.ne_nil_of_mem ho.1
  have hpos : (Cell.usedId q (s.slot q)).addr ≠ 0 := by
    have hvring := vringUsed_eq q
    have hbase : 0 < vringAddress q := by cases q <;> decide
    rw [Cell.addr]
    omega
  refine does_storeId rfl hhand ?_
  have hslot : s.slot q = (s.storeCell (.usedId q (s.slot q)) o.idx).slot q := rfl
  refine does_storeLen hslot hhand ?_
  refine Does.seq (does_cacheFlush hpos) ?_
  intro _ s' hflush
  have hstored : Steady l b ((s.storeCell (.usedId q (s.slot q)) o.idx).storeCell
      (.usedLen q (s.slot q)) o.len) := (h.storeCell (by simp) _).storeCell (by simp) _
  have hs' : Steady l b s' := hstored.congr (fun v _ => by rw [hflush.var]) hflush.still
  have hready' : Ready t s' q o :=
    ((hready.storeCell _ _).storeCell _ _).still (h.proper ho) hflush.still
  refine hp s' hs' ?_ ?_ ?_ ?_ ?_ ?_ ?_ ?_
  · have hslot : s'.slot q = s.slot q := by rw [hflush.eq]; rfl
    refine ⟨?_, hs'.used_synced q, ?_, ?_, ?_, ?_, hready'.message, hready'.clean⟩
    · rw [hflush.eq]
      exact ho
    · rw [hslot, hflush.eq]
      simp [Desk.storeCell]
    · rw [hslot, hflush.eq]
      simp [Desk.storeCell]
    · rw [hslot]
      exact hflush.covered _ le_rfl (Nat.lt_add_of_pos_right (by decide))
    · rw [hslot]
      refine hflush.covered _ ?_ ?_ <;> simp only [Loc.addr, Cell.addr] <;> omega
  · intro v
    rw [hflush.var]
    rfl
  · rw [hflush.eq]
    rfl
  · intro a ha
    exact hflush.mono _ ⟨⟨ha, by simp⟩, by simp⟩
  all_goals
    rw [hflush.eq]
    rfl

/-- `virtqueue_add_consumed_buffer` returns a buffer that may go back. -/
theorem does_addConsumed {j : ℕ} {o : Offer} (h : Steady l none s) (ho : s.InHand q j o)
    (hready : Ready t s q o) :
    Does (exchange t) (virtqueueAddConsumedBuffer q o.idx o.len)
      (fun r s' => r = true ∧ Steady l none s' ∧ Gave q j s s') s := by
  have hproper := h.proper ho
  have hidx : ¬VRING_NUM_BUFFS < o.idx := hproper.idx_lt.not_gt
  rw [virtqueueAddConsumedBuffer, if_neg hidx]
  refine does_busy h fun s₁ h₁ => ?_
  -- The next element is found by the index modulo the length of the ring.
  have hslot : s₁.cell (.usedIdx q) &&& (VRING_NUM_BUFFS - 1) = s₁.slot q := by
    rw [h₁.1.used q, and_ring_mask]
    exact Nat.mod_mod_of_dvd _ (by decide)
  refine does_loadUsedIdx ?_
  rw [hslot]
  refine does_writeElement h₁.1 ((h₁.2 q).inHand ho) (hready.still hproper h₁.2) ?_
  intro s₂ h₂ hret hvar₂ hbytes₂ hsynced₂ hknown₂ htaken₂ hhand₂ hdone₂
  refine does_loadUsedIdx ?_
  rw [h₂.used q, Nat.mod_add_mod]
  -- The element is complete and in memory before the index moves.
  refine does_storeUsedIdx hret ?_
  have hpos : (Cell.usedIdx q).addr ≠ 0 := by cases q <;> decide
  refine Does.seq (does_cacheFlush hpos) ?_
  intro _ s₃ hflush
  have h₃ : Steady l (some q) s₃ := h₂.giveBack hret.inHand.1 hflush
  refine does_get ?_
  refine does_set (by simp) ?_
  have hcounted : During l (some q) s₃
      (s₃.set (.vqQueuedCnt q) ((s₃.var (.vqQueuedCnt q) + 1) % 2 ^ 16)) :=
    ⟨h₃.set id _, fun q' => Kept.set id q' s₃ _⟩
  refine does_idle hcounted fun s₄ h₄ => ?_
  refine ⟨rfl, h₄.1, ?_⟩
  have hstill := h₄.2 q
  exact {
    var := fun v hv => by
      rw [hstill.var v hv, hflush.var]
      exact (hvar₂ v).trans ((h₁.2 q).var v hv)
    bytes := fun a ha => by
      rw [hstill.bytes a ha, hflush.eq]
      exact (congrFun hbytes₂ a).trans ((h₁.2 q).bytes a ha)
    synced := fun a ha => by
      refine hstill.synced _ (hflush.mono _ ⟨?_, by simp⟩)
      exact hsynced₂ a ((h₁.2 q).synced _ ha)
    known := by
      rw [h₄.2.known, hflush.eq]
      exact hknown₂.trans h₁.2.known
    taken := by
      rw [hstill.taken, hflush.eq]
      exact htaken₂.trans (h₁.2 q).taken
    hand := by
      rw [hstill.hand, hflush.eq]
      simp only [Desk.giveBack, hhand₂, (h₁.2 q).hand]
    done := by
      rw [hstill.done, hflush.eq]
      simp only [Desk.giveBack, hdone₂, (h₁.2 q).done] }

/-- `virtqueue_get_buffer_length`, for the offer taken last. -/
theorem does_bufferLength {b : Option Vq} {j : ℕ} {o : Offer} (h : Steady l b s)
    (ho : s.InHand q j o) (hlast : j + 1 = s.taken q) :
    Does (exchange t) (virtqueueGetBufferLength q o.idx)
      (fun r s' => r = o.len ∧ During l b s s') s := by
  have hvring := vringUsed_eq q
  have hidx : o.idx < 128 := (h.proper ho).idx_lt
  refine does_readField (by omega) ?_ ?_ ho hlast fun s₁ hstill₁ hvar₁ htold₁ => ?_
  · rw [Cell.addr]
    omega
  · rw [Cell.addr]
    omega
  refine Does.last (does_load (by simp) fun r hr => ?_)
  have hlen := htold₁ _ o.len r hr (.inr (.inr ⟨rfl, rfl⟩)) rfl le_rfl (by omega)
  exact ⟨hlen, h.congr (fun v _ => congrFun hvar₁ v) hstill₁, hstill₁⟩

/-! ### Kicks -/

theorem does_sendWait (retry : ℕ) :
    Does (exchange t) (msgboxSendWait retry) (fun _ s' => s' = s) s := by
  induction retry with
  | zero => rfl
  | succ retry ih =>
    refine Does.bind ?_
    refine does_quiet (o := .readl .txMsgStatus) trivial fun _ => ?_
    refine Does.ite (fun _ => rfl) (fun _ => ?_)
    exact does_quiet (o := .udelay 1) trivial fun _ => ih

theorem does_msgboxSend (data : Word) :
    Does (exchange t) (msgboxSend data) (fun _ s' => s' = s) s := by
  refine Does.seq (does_sendWait 5000) ?_
  rintro retry _ rfl
  refine Does.ite (fun _ => rfl) (fun _ => ?_)
  exact does_quiet (o := .writel .txFifo data) trivial fun _ => rfl

/-- `virtqueue_kick` changes nothing of the exchange. -/
theorem does_kick (h : Steady l none s) :
    Does (exchange t) (virtqueueKick q) (fun _ => During l none s) s := by
  have hvring := vringUsed_eq q
  have havail : vringAvail q = vringAddress q + 2048 := rfl
  refine does_busy h fun s₁ h₁ => ?_
  refine Does.seq (P := fun _ => During l (some q) s) ?_ ?_
  · refine Does.seq (does_vringInvalidate (by omega)
      (hostLines_vring (q := q) ?_ ?_)) ?_
    · rw [Cell.addr]
      omega
    · rw [Cell.addr]
      omega
    rintro - s₂ ⟨hstill, hvar, -⟩
    refine Does.last (does_load (by simp) fun _ _ => ?_)
    exact ⟨h₁.1.congr (fun v _ => congrFun hvar v) hstill, h₁.2.trans hstill⟩
  · intro must s₂ h₂
    have hrest : Does (exchange t) (do
        set (.vqQueuedCnt q) 0
        vqueueIdle q) (fun _ => During l none s) s₂ := by
      refine does_set (by simp) ?_
      exact Does.last (does_idle (h₂.set id id 0) fun s₃ h₃ => h₃)
    refine Does.ite (fun _ => ?_) (fun _ => hrest)
    refine Does.bind (does_get ?_)
    refine Does.seq (does_msgboxSend _) ?_
    rintro _ _ rfl
    exact hrest

end Returning

end C906Firmware
