import C906Firmware.Exchange.Opening
import C906Firmware.Exchange.Receiving

/-!
# The echo service

The endpoint of the echo service is created, with its announcement, and then served by the receive
callback, without a cache or behind one that is tended. Every message received is answered by one
message, in order; the answers carry the payloads received, and all of them go to where the first
message came from (`echo_answers`), as the first message binds the endpoint. So the senders get
their own answers exactly as long as there is one sender (`echo_answers_sender_iff`).
-/

namespace C906Firmware

open Interaction WriteBack World

variable {t : Terms} {s s' : Desk} {w : World} {fuel : ℕ}

/-! ### Creating the endpoint -/

/-- Nothing has been offered, and nothing taken. -/
structure Unused (s : Desk) : Prop where
  known : s.known .rvq = []
  taken : ∀ q, s.taken q = 0
  hand : ∀ q, s.hand q = []
  done : ∀ q, s.done q = []

/-- The endpoint is there, and has not been announced yet. -/
structure Created (s : Desk) : Prop where
  steady : Steady false none s
  unused : Unused s
  rdev : s.var (.eptRdev .echo) ≠ 0
  dest : s.var (.eptDest .echo) = RPMSG_ADDR_ANY

/-- The message that announces the endpoint. -/
def announcement (o : Offer) : List Byte :=
  sentMessage Ept.echo.addr RPMSG_NS_EPT_ADDR (rpmsgNsMsg .echo RPMSG_NS_CREATE) o

/-- The announcement, where there is one, is due before the answers. -/
structure Announces (t : Terms) (s : Desk) : Prop where
  ahead : t.ahead = if s.var .supportNs = 0 then 0 else 1
  message : t.ahead = 1 → ∀ msgs o, t.message msgs 0 o = some (announcement o)

theorem echoHost_nil (r : Rules) : EchoHost r [] where
  length_le := Nat.zero_le _
  dst _ ho := absurd ho List.not_mem_nil
  src _ ho := absurd ho List.not_mem_nil
  size _ ho := absurd ho List.not_mem_nil

/-- An endpoint that has been announced, if it had to be, is ready for messages. -/
theorem Created.between (h : Created s) (hrvq : s'.known .rvq = s.known .rvq)
    (hvar : ∀ v : Var, v.OfEpt → s'.var v = s.var v) (hhand : s'.hand = s.hand)
    (hdone : s'.done .rvq = s.done .rvq) (hsent : (s'.done .svq).length = t.ahead)
    (htaken : s'.taken .svq = t.ahead) : Between t 0 s' where
  tally := by
    refine ⟨?_, ?_, hsent, htaken, hdone.trans (h.unused.done .rvq), ?_⟩
    · rw [hrvq, h.unused.known]
      exact echoHost_nil _
    · rw [hvar (.eptRdev .echo) trivial]
      exact h.rdev
    · rw [hhand]
      exact h.unused.hand .rvq
  greeted := ⟨fun _ => (hvar (.eptDest .echo) trivial).trans h.dest,
    fun hpos => absurd hpos (by simp)⟩

/-- The endpoint is announced, or there is no transmit buffer for that. -/
theorem does_announce (hfuel : t.halt ∨ 0 < fuel) (h : Created s) (ht : Announces t s)
    (hns : s.var .supportNs ≠ 0) :
    Does (exchange t) (rpmsgSendNsMessage fuel .echo RPMSG_NS_CREATE) (fun r s' =>
      Steady false none s' ∧ (r = RPMSG_SUCCESS → Between t 0 s')) s := by
  have hahead : t.ahead = 1 := by rw [ht.ahead, if_neg hns]
  have hsend : ∀ sp, Sendable t Ept.echo.addr RPMSG_NS_EPT_ADDR
      (.priv sp (rpmsgNsMsg .echo RPMSG_NS_CREATE)) (rpmsgNsMsg .echo RPMSG_NS_CREATE) s := by
    refine fun sp => ⟨fun i b hb => ?_, fun a ha => ?_, fun o _ _ => ?_⟩
    · rw [List.getD_eq_getElem?_getD, hb, Option.getD_some]
    · cases ha
    · refine ⟨announcement o, ?_, List.prefix_rfl⟩
      rw [h.unused.done .svq]
      exact ht.message hahead _ o
  refine does_quiet (o := .sp) trivial fun sp => ?_
  refine Does.bind (does_get ?_)
  refine Does.ite (fun hnone => absurd hnone (not_or.mpr ⟨h.rdev, by decide⟩)) fun _ => ?_
  refine (does_virtioSendRaw hfuel h.steady (hsend sp)).mono ?_
  rintro r s' ⟨hs', ⟨n, rfl, hsent⟩ | ⟨rfl, -, -⟩⟩
  · refine ⟨hs', fun _ => h.between hsent.rvq hsent.var hsent.hand ?_ ?_ ?_⟩
    · rw [hsent.done, Function.update_of_ne (by simp)]
    · rw [hsent.done, Function.update_self, h.unused.done .svq, hahead]
      rfl
    · rw [hsent.taken, Function.update_self, h.unused.taken .svq, hahead]
  · exact ⟨hs', fun hr => absurd hr (by decide)⟩

theorem does_unregister (hfuel : t.halt ∨ 0 < fuel) (h : Steady false none s) (e : Ept) :
    Does (exchange t) (rpmsgUnregisterEndpoint fuel e) (fun _ => Steady false none) s := by
  refine Does.seq (does_acquire hfuel h) ?_
  intro _ s₁ h₁
  refine does_set (by simp) ?_
  exact (does_release (h₁.1.set id 0)).mono fun _ _ => And.left

/-- `rpmsg_create_ept` -/
theorem does_createEpt (hfuel : t.halt ∨ 0 < fuel) (h : Steady false none s) (hnew : Unused s)
    (ht : Announces t s) :
    Does (exchange t) (rpmsgCreateEpt fuel) (fun r s' =>
      Steady false none s' ∧ (r = RPMSG_SUCCESS → Between t 0 s')) s := by
  refine Does.seq (does_acquire hfuel h) ?_
  intro _ s₁ h₁
  refine does_set (by simp) ?_
  refine does_set (by simp) ?_
  have hlocked := (h₁.1.set (v := .eptDest .echo) id RPMSG_ADDR_ANY).set (v := .eptRdev .echo) id 1
  refine Does.seq (does_release hlocked) ?_
  intro _ s₂ h₂
  have hvar : ∀ v : Var, v.OfEpt → s₂.var v =
      ((s₁.set (.eptDest .echo) RPMSG_ADDR_ANY).set (.eptRdev .echo) 1).var v := (h₂.2 .svq).var
  have hns : s₂.var .supportNs = s.var .supportNs :=
    (hvar .supportNs trivial).trans ((h₁.2 .svq).var .supportNs trivial)
  -- The endpoint is registered without a destination yet, and nothing has been exchanged.
  have hcreated : Created s₂ := by
    refine ⟨h₂.1, ⟨?_, fun q => ?_, fun q => ?_, fun q => ?_⟩, ?_, ?_⟩
    · rw [h₂.2.known]
      exact (congrFun h₁.2.known .rvq).trans hnew.known
    · rw [(h₂.2 q).taken]
      exact (congrFun (h₁.2 q).taken q).trans (hnew.taken q)
    · rw [(h₂.2 q).hand]
      exact (congrFun (h₁.2 q).hand q).trans (hnew.hand q)
    · rw [(h₂.2 q).done]
      exact (congrFun (h₁.2 q).done q).trans (hnew.done q)
    · rw [hvar (.eptRdev .echo) trivial]
      exact one_ne_zero
    · exact hvar (.eptDest .echo) trivial
  have ht₂ : Announces t s₂ := ⟨by rw [hns, ht.ahead], ht.message⟩
  refine does_get ?_
  refine does_get ?_
  -- If the announcement fails the endpoint is removed, and the creation fails.
  have hrest : ∀ (status : ℤ) s₃, Steady false none s₃ ∧ (status = RPMSG_SUCCESS → Between t 0 s₃) →
      Does (exchange t) (if status ≠ 0 then
        rpmsgUnregisterEndpoint fuel .echo >>= fun _ => pure status
      else pure status)
      (fun r s' => Steady false none s' ∧ (r = RPMSG_SUCCESS → Between t 0 s')) s₃ := by
    rintro status s₃ ⟨h₃, hok⟩
    refine Does.ite (fun hne => ?_) fun _ => ⟨h₃, hok⟩
    refine Does.seq (does_unregister hfuel h₃ .echo) ?_
    intro _ s₄ h₄
    exact ⟨h₄, fun hr => absurd hr hne⟩
  refine Does.ite (fun hyes => ?_) fun hno => ?_
  · exact Does.seq (does_announce hfuel hcreated ht₂ hyes.1) hrest
  · have hzero : s₂.var .supportNs = 0 := by
      by_contra hne
      exact hno ⟨hne, hcreated.dest⟩
    have hahead : t.ahead = 0 := by rw [ht₂.ahead, if_pos hzero]
    refine hrest RPMSG_SUCCESS s₂ ⟨h₂.1, fun _ => ?_⟩
    refine hcreated.between rfl (fun _ _ => rfl) rfl rfl ?_ ?_
    · rw [hcreated.unused.done .svq, hahead]
      rfl
    · rw [hcreated.unused.taken .svq, hahead]

/-! ### The service -/

/-- The messages due on the send queue: the announcement, where there is one, and the answers. -/
def dueMessage (reply : List Offer → ℕ → Option (List Byte)) (ahead : ℕ) (msgs : List Offer)
    (r : ℕ) (o : Offer) : Option (List Byte) :=
  if r < ahead then some (announcement o) else reply msgs (r - ahead)

/-- A host that only talks to the echo service, and a cache, if there is one, that is tended. -/
def echoRules (limit size ahead : ℕ) : Rules where
  setting := .echo
  limit := limit
  size := size
  ahead := ahead

/-- How many messages come before the answers. -/
def announced (w : World) : ℕ := if w.var .supportNs = 0 then 0 else 1

/-- There is one answer for each message received, and at least `k` have been received. -/
def Answered (ahead k : ℕ) (w : World) : Prop :=
  w.seen .svq + w.returned .svq = ahead + (w.seen .rvq + w.returned .rvq) ∧
    k ≤ w.seen .rvq + w.returned .rvq

/-- Every message that the host finds is the one due. -/
def Echoed (reply : List Offer → ℕ → Option (List Byte)) (r : Rules) (w : World) : Prop :=
  Published (dueMessage reply r.ahead (w.offers .rvq)) w

instance (reply : List Offer → ℕ → Option (List Byte)) (r : Rules) (w : World) :
    Decidable (Echoed reply r w) :=
  inferInstanceAs (Decidable (Published (dueMessage reply r.ahead (w.offers .rvq)) w))

/-- The callback ends each of `n` times, with an answer for each message offered before it; and
`P` holds at every moment. -/
def Answers (P : World → Prop) (r : Rules) (fuel : ℕ) : ℕ → World → Prop
  | 0, w => Always r P w
  | n + 1, w =>
    Sure (contract r P fun _ _ => True) False (rpmsgVirtioRxCallback fuel)
      (fun _ w' => Answered r.ahead (w.offers .rvq).length w' ∧ Answers P r fuel n w') w

/-- The callback answers, and at every moment the host finds what is due. -/
def Echoes (reply : List Offer → ℕ → Option (List Byte)) (r : Rules) : ℕ → ℕ → World → Prop :=
  Answers (Echoed reply r) r

/-- The terms of the service. -/
def echoTerms (r : Rules) (made : ℕ) : Terms where
  toRules := r
  halt := False
  made := made
  message := dueMessage echoReply r.ahead
  message_mono {xs ys i o m} h hm := by
    rw [dueMessage] at hm ⊢
    split at hm
    · next hlt => rwa [if_pos hlt]
    · next hge =>
      rw [if_neg hge]
      exact echoReply_mono h hm

section Service

variable {r : Rules} {made made' n : ℕ}

theorem serves_echo (hset : r.setting = .echo) (made : ℕ) : Serves (echoTerms r made) where
  setting h := by
    have hcached : r.setting = .cached := h
    rw [hset] at hcached
    cases hcached
  echo _ msgs i o := by
    have hnot : ¬r.ahead + i < r.ahead := by omega
    exact (if_neg hnot).trans (congrArg (echoReply msgs) (Nat.add_sub_cancel_left ..))
  tended h := by
    have htended : r.setting = .tended := h
    rw [hset] at htended
    cases htended

theorem Between.renew (h : Between (echoTerms r made) n s) : Between (echoTerms r made') n s :=
  ⟨⟨h.tally.host, h.tally.rdev, h.tally.sent, h.tally.tx, h.tally.received, h.tally.hand⟩,
    h.greeted⟩

/-- The host finds all that has been returned, once the index is in memory. -/
theorem At.returned_synced (h : At t s w) {q : Vq} (hq : s.synced (.cell (.usedIdx q))) :
    w.seen q + w.returned q = (s.done q).length := by
  have hseen := h.ledger.seen_le q
  have hcount := h.ledger.tidy.count q
  have htaken := h.ledger.tidy.taken_le q
  have hknown := (h.ledger.known q).length_le
  have hwindow := h.ledger.window q
  rw [VRING_NUM_BUFFS] at hwindow
  have hram : w.ram (.cell (.usedIdx q)) = (s.done q).length % 2 ^ 16 := by
    rw [← h.rings.idx q, ← h.rings.view (.usedIdx q) trivial]
    exact (h.rings.synced (.usedIdx q) trivial hq).symm
  rw [returned_eq hseen (by omega) hram]
  omega

/-- Where the firmware waits for the next message, each one received has its answer. -/
theorem Settled.answered {s : Desk} {w : World} (h : Settled (echoTerms r made) s)
    (hAt : At (echoTerms r made) s w) (hs : Steady false none s) : Answered r.ahead made w := by
  obtain ⟨n, hbetween, -, hmade⟩ := h
  rw [Answered, hAt.returned_synced (hs.used_synced _), hAt.returned_synced (hs.used_synced _),
    hbetween.tally.sent, hbetween.tally.received, List.length_range]
  exact ⟨rfl, hmade⟩

/-- Between messages the service goes on answering, and whatever follows from the terms holds at
every moment. -/
theorem Between.answers {P : World → Prop} (hP : ∀ made s w, At (echoTerms r made) s w → P w)
    (hset : r.setting = .echo) (hfuel : r.limit < fuel) (n : ℕ) {m : ℕ}
    (hs : Steady false none s) (h : Between (echoTerms r made) m s)
    (hAt : At (echoTerms r made) s w) : Answers P r fuel n w := by
  induction n generalizing m made s w with
  | zero => exact fun ms hfair => hP _ _ _ (hAt.moves hfair)
  | succ n ih =>
    have hAt' : At (echoTerms r (w.offers .rvq).length) s w :=
      hAt.renew rfl (fun _ _ _ _ hm => hm) fun _ => le_rfl
    have hsim := simulates (echoTerms r (w.offers .rvq).length) P
      (fun _ _ => True) (fun s w h => hP _ _ _ h) fun _ _ _ _ _ => trivial
    have hdoes := does_rxCallback (t := echoTerms r (w.offers .rvq).length) (.inr hfuel)
      (fun hne => absurd hset hne) (serves_echo hset _) hs fun _ => ⟨m, h.renew⟩
    refine (Does.sure hsim hdoes hAt').mono ?_
    rintro - w' ⟨s', hat', hs', hsettled⟩
    obtain ⟨m', hbetween, -⟩ := hsettled hset
    exact ⟨(hsettled hset).answered hat' hs', ih hs' hbetween hat'⟩

end Service

/-- What there is at the beginning of the service. -/
theorem echoSide_opening (hw : Start w)
    (hstatus : w.ram (.cell .vdevStatus) &&& VIRTIO_CONFIG_STATUS_DRIVER_OK ≠ 0)
    {limit size ahead : ℕ} : EchoSide (echoTerms (echoRules limit size ahead) 0) w where
  host := by
    rw [hw.offers]
    exact echoHost_nil _
  room o ho := absurd ho (by simp [hw.offers])
  enough := by simp [hw.offers]
  made := Nat.zero_le _
  status := hstatus
  status_view := by
    rw [hw.view_eq]
    exact hstatus

/-- From the creation of the endpoint on the service answers, and whatever follows from the terms
holds at every moment. -/
theorem World.Start.answers {limit size : ℕ} {P : World → Prop}
    (hP : ∀ made s w', At (echoTerms (echoRules limit size (announced w)) made) s w' → P w')
    (hw : Start w) (hstatus : w.ram (.cell .vdevStatus) &&& VIRTIO_CONFIG_STATUS_DRIVER_OK ≠ 0)
    (hfuel : limit < fuel) (n : ℕ) :
    Sure (contract (echoRules limit size (announced w)) P fun _ _ => True) False
      (rpmsgCreateEpt fuel) (fun status w' => status = RPMSG_SUCCESS →
        Answers P (echoRules limit size (announced w)) fuel n w') w := by
  set r := echoRules limit size (announced w) with hr
  have hsim := simulates (echoTerms r 0) P (fun _ _ => True)
    (fun s w h => hP 0 s w h) fun _ _ _ _ _ => trivial
  have hannounces : Announces (echoTerms r 0) w.opening :=
    ⟨rfl, fun hone msgs o => if_pos (by rw [show r.ahead = 1 from hone]; exact Nat.zero_lt_one)⟩
  have hunused : Unused w.opening := ⟨rfl, fun _ => rfl, fun _ => rfl, fun _ => rfl⟩
  have hdoes := does_createEpt (t := echoTerms r 0) (.inr (Nat.zero_lt_of_lt hfuel)) hw.steady
    hunused hannounces
  refine (Does.sure hsim hdoes (hw.at_opening fun _ => ?_)).mono ?_
  · exact echoSide_opening hw hstatus
  · rintro status w' ⟨s', hat', hs', hbetween⟩ hok
    exact (hbetween hok).answers hP rfl hfuel n hs' hat'

/-- The echo service answers every message, in order, with its payload, and sends the answers to
where the first message came from. The driver is ready (`hstatus`); the endpoint has been created
without an error; the cache, if there is one, is tended (`World.Tended`); and by the moves that are
fair (`World.Offerable`, for the setting `echo`) the host sends well-formed messages to the
endpoint only, at most `limit` of them, none longer than `size` and none from the address
`RPMSG_ADDR_ANY`, and has offered a transmit buffer with room for the answer before each. -/
theorem echo_answers (hw : Start w)
    (hstatus : w.ram (.cell .vdevStatus) &&& VIRTIO_CONFIG_STATUS_DRIVER_OK ≠ 0)
    {limit : ℕ} (size : ℕ) (hfuel : limit < fuel) (n : ℕ) :
    Sure (contract (echoRules limit size (announced w))
        (Echoed echoReply (echoRules limit size (announced w))) fun _ _ => True) False
      (rpmsgCreateEpt fuel) (fun status w' => status = RPMSG_SUCCESS →
        Echoes echoReply (echoRules limit size (announced w)) fuel n w') w :=
  hw.answers (fun _ _ _ h => h.published) hstatus hfuel n

/-- The endpoint has been created, behind a cache. -/
def endpointCreated : World := (rpmsgCreateEpt 3).after exec {} (blank true)

/-- A message comes in, and its line is evicted before the buffer goes back. -/
def requestTended : ℕ → Decision
  | 0 => { moves := request 0 0x2A }
  | 177 => { moves := [.evict (lineOf (SHMEM_PA + 64))] }
  | _ => {}

instance (ahead k : ℕ) (w : World) : Decidable (Answered ahead k w) :=
  inferInstanceAs (Decidable (_ ∧ _))

/-- A run in which a message is received and answered: the answer goes to 0x35 and carries the
payload. -/
theorem echo_answers_answered :
    Sure (contract (echoRules 2 1 0) (Echoed echoReply (echoRules 2 1 0)) fun _ _ => True) False
      (rpmsgCreateEpt 3) (fun status w' => status = RPMSG_SUCCESS →
        Echoes echoReply (echoRules 2 1 0) 3 1 w') (blank true) ∧
    ((rpmsgCreateEpt 3).run exec (blank true) fun _ => {}).map Prod.fst = some RPMSG_SUCCESS ∧
    (rpmsgVirtioRxCallback 3).Visits exec (Granted (echoRules 2 1 0)) (fun w => Answered 0 1 w ∧
      w.ramBytes SHMEM_PA 17 = rpmsgHdr Ept.echo.addr 0x35 0 1 0 ++ [0x2A]) endpointCreated
      requestTended :=
  ⟨echo_answers (start_blank true) (by decide) 1 (by decide) 1, by decide +kernel,
    by decide +kernel⟩

/-! ### Whose answer it is -/

/-- The answer to the `r`-th message received: its payload, sent back to its sender. -/
def senderReply (msgs : List Offer) (r : ℕ) : Option (List Byte) := do
  let o ← msgs[r]?
  pure (rpmsgHdr Ept.echo.addr (msgSrc o.content) 0 (msgLen o.content) 0 ++ msgPayload o.content)

/-- The messages whose answers the host finds come from where the first message came from. -/
def OneSender (ahead : ℕ) (w : World) : Prop :=
  ∀ i < w.returned .svq, ahead ≤ w.seen .svq + i → ∀ first o,
    (w.offers .rvq)[0]? = some first → (w.offers .rvq)[w.seen .svq + i - ahead]? = some o →
      msgSrc o.content = msgSrc first.content

/-- Two answers with the same payload are the same only if they go to the same address. -/
theorem dst_of_hdr_eq {src len : ℕ} {c c' p : List Byte}
    (h : rpmsgHdr src (msgSrc c) 0 len 0 ++ p = rpmsgHdr src (msgSrc c') 0 len 0 ++ p) :
    msgSrc c = msgSrc c' := by
  have hhdr := List.append_cancel_right h
  rw [rpmsgHdr, rpmsgHdr] at hhdr
  have hbytes := List.append_cancel_right (List.append_cancel_right hhdr)
  have hword := List.append_cancel_left hbytes
  rw [msgSrc, msgSrc, Quad.ofNat_toNat, Quad.ofNat_toNat] at hword
  have hquad : wordAt c 0 = wordAt c' 0 := by
    simp only [Quad.bytes, List.cons.injEq, and_true] at hword
    obtain ⟨h0, h1, h2, h3⟩ := hword
    exact Quad.ext h0 h1 h2 h3
  exact congrArg Quad.toNat hquad

/-- Messages that are in the same bytes of memory and equally long are the same. -/
theorem eq_of_ramBytes {m m' : List Byte} {a : ℕ} (hlen : m.length = m'.length)
    (h : ∀ k b, m[k]? = some b → w.ramByte (a + k) = b)
    (h' : ∀ k b, m'[k]? = some b → w.ramByte (a + k) = b) : m = m' := by
  refine List.ext_getElem hlen fun k hk hk' => ?_
  rw [← h k _ (List.getElem?_eq_getElem hk), ← h' k _ (List.getElem?_eq_getElem hk')]

/-- The answers the host finds are for the senders of the messages exactly if these come from one
sender. -/
theorem At.senders_iff {r : Rules} {made : ℕ} (h : At (echoTerms r made) s w) :
    Echoed senderReply r w ↔ OneSender r.ahead w := by
  have hechoed : Echoed echoReply r w := h.published
  constructor
  · intro hsender i hi hahead first o hfirst ho
    obtain ⟨j, b, m, hlent, hid, -, hm, -, hbytes⟩ := hechoed i hi
    obtain ⟨j', b', m', hlent', hid', -, hm', -, hbytes'⟩ := hsender i hi
    -- Both speak of the buffer that the element of the used ring names.
    obtain rfl := h.ledger.inj .svq j j' b b' hlent hlent' (hid.symm.trans hid')
    obtain rfl := Option.some.inj (hlent.2.symm.trans hlent'.2)
    rw [dueMessage, if_neg (Nat.not_lt.mpr hahead)] at hm hm'
    rw [echoReply_eq hfirst ho] at hm
    rw [senderReply, ho] at hm'
    obtain rfl := Option.some.inj hm
    obtain rfl := Option.some.inj hm'
    refine (dst_of_hdr_eq (eq_of_ramBytes ?_ hbytes hbytes')).symm
    rw [List.length_append, List.length_append, length_rpmsgHdr, length_rpmsgHdr]
  · intro hone i hi
    obtain ⟨j, b, m, hlent, hid, hlen, hm, hrest⟩ := hechoed i hi
    refine ⟨j, b, m, hlent, hid, hlen, ?_, hrest⟩
    rw [dueMessage] at hm ⊢
    split at hm
    · next hlt => rwa [if_pos hlt]
    · next hge =>
      rw [if_neg hge]
      simp only [echoReply, Option.bind_eq_bind, Option.bind_eq_some_iff, Option.pure_def] at hm
      obtain ⟨first, hfirst, o, ho, hreply⟩ := hm
      have hsrc := hone i hi (Nat.not_lt.mp hge) first o hfirst ho
      rw [← hreply, senderReply, ho, ← hsrc]
      rfl

/-- What the host finds: the answers, sent to where the first message came from, so that they reach
the senders of the messages exactly if there is one sender. -/
structure AnswersFirst (r : Rules) (w : World) : Prop where
  echoed : Echoed echoReply r w
  senders : Echoed senderReply r w ↔ OneSender r.ahead w

/-- The echo service answers every message, in order, with its payload, to where the first message
came from; and at every moment the answers found have gone to the senders of their messages
exactly if these come from one sender. The conditions are those of a host that only talks to the
echo service (`echo_answers`). -/
theorem echo_answers_sender_iff (hw : Start w)
    (hstatus : w.ram (.cell .vdevStatus) &&& VIRTIO_CONFIG_STATUS_DRIVER_OK ≠ 0)
    {limit : ℕ} (size : ℕ) (hfuel : limit < fuel) (n : ℕ) :
    Sure (contract (echoRules limit size (announced w))
        (AnswersFirst (echoRules limit size (announced w))) fun _ _ => True) False
      (rpmsgCreateEpt fuel) (fun status w' => status = RPMSG_SUCCESS →
        Answers (AnswersFirst (echoRules limit size (announced w)))
          (echoRules limit size (announced w)) fuel n w') w :=
  hw.answers (fun _ _ _ h => ⟨h.published, h.senders_iff⟩) hstatus hfuel n

/-- Two messages, from the addresses 0x35 and 0x36, with transmit buffers for the answers. -/
def twoSenders : List Move :=
  offerBuffer .svq 0 1 SHMEM_PA 64 ++ offerBuffer .svq 1 2 (SHMEM_PA + 64) 64 ++
    writeMessage (SHMEM_PA + 128) 0x35 0x2A ++ offerBuffer .rvq 0 1 (SHMEM_PA + 128) 64 ++
    writeMessage (SHMEM_PA + 192) 0x36 0x2B ++ offerBuffer .rvq 1 2 (SHMEM_PA + 192) 64

/-- The two messages come in, and their lines are evicted before the buffers go back. -/
def twoSendersTended : ℕ → Decision
  | 0 => { moves := twoSenders }
  | 177 => { moves := [.evict (lineOf (SHMEM_PA + 128))] }
  | 347 => { moves := [.evict (lineOf (SHMEM_PA + 192))] }
  | _ => {}

/-- Both messages have their answers, and both answers are for 0x35. -/
def AnsweredFirst (w : World) : Prop :=
  Answered 0 2 w ∧ w.ramBytes SHMEM_PA 17 = rpmsgHdr Ept.echo.addr 0x35 0 1 0 ++ [0x2A] ∧
    w.ramBytes (SHMEM_PA + 64) 17 = rpmsgHdr Ept.echo.addr 0x35 0 1 0 ++ [0x2B]

instance : DecidablePred AnsweredFirst := fun _ => inferInstanceAs (Decidable (_ ∧ _ ∧ _))

/-- A run with two senders: both answers go to the first. -/
theorem echo_answers_sender_iff_two :
    Sure (contract (echoRules 2 1 0) (AnswersFirst (echoRules 2 1 0)) fun _ _ => True) False
      (rpmsgCreateEpt 3) (fun status w' => status = RPMSG_SUCCESS →
        Answers (AnswersFirst (echoRules 2 1 0)) (echoRules 2 1 0) 3 1 w') (blank true) ∧
    ((rpmsgCreateEpt 3).run exec (blank true) fun _ => {}).map Prod.fst = some RPMSG_SUCCESS ∧
    (rpmsgVirtioRxCallback 3).Visits exec (Granted (echoRules 2 1 0)) AnsweredFirst endpointCreated
      twoSendersTended :=
  ⟨echo_answers_sender_iff (start_blank true) (by decide) 1 (by decide) 1, by decide +kernel,
    by decide +kernel⟩

/-- Not every sender is answered: the second of two gets nothing, the answer goes to the first. -/
theorem not_answers_senders :
    ¬Answers (Echoed senderReply (echoRules 2 1 0)) (echoRules 2 1 0) 3 1 endpointCreated := by
  intro h
  have hgranted : (rpmsgVirtioRxCallback 3).Visits exec (Granted (echoRules 2 1 0))
      (fun _ => True) endpointCreated twoSendersTended := by decide +kernel
  have hend : (rpmsgVirtioRxCallback 3).Visits exec (fun _ _ _ => True)
      (Echoed senderReply (echoRules 2 1 0)) endpointCreated twoSendersTended :=
    (Sure.visits h hgranted).mono (fun _ _ _ _ => trivial) fun _ hw => hw [] trivial
  exact absurd hend (by decide +kernel)

end C906Firmware
