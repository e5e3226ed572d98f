import C906Firmware.Exchange.Sending
import Mathlib.Data.Nat.Bitwise

/-!
# Receiving, over the account of the exchange

Where messages can be received, the receive callback takes the buffers the host offers one after
the other, hands each message to its endpoint and returns the buffer (`does_rxCallback`). Of a
host that only talks to the echo service every message is answered before its buffer goes back,
and the answers go where the first message came from.
-/

namespace C906Firmware

open Interaction

variable {t : Terms} {α : Type} {R : α → Desk → Prop} {s s' s'' : Desk} {fuel : ℕ}

/-! ### The answers -/

/-- The answer to the `r`-th message received: its payload, sent to where the first message came
from. -/
def echoReply (msgs : List Offer) (r : ℕ) : Option (List Byte) := do
  let first ← msgs[0]?
  let o ← msgs[r]?
  pure (rpmsgHdr Ept.echo.addr (msgSrc first.content) 0 (msgLen o.content) 0 ++
    msgPayload o.content)

/-- The answer, where both messages are known. -/
theorem echoReply_eq {msgs : List Offer} {r : ℕ} {first o : Offer} (hfirst : msgs[0]? = some first)
    (ho : msgs[r]? = some o) : echoReply msgs r =
      some (rpmsgHdr Ept.echo.addr (msgSrc first.content) 0 (msgLen o.content) 0 ++
        msgPayload o.content) := by
  simp [echoReply, hfirst, ho]

/-- Messages received later change no answer. -/
theorem echoReply_mono {xs ys : List Offer} (h : xs <+: ys) {r : ℕ} {m : List Byte}
    (hm : echoReply xs r = some m) : echoReply ys r = some m := by
  simp only [echoReply, Option.bind_eq_bind, Option.bind_eq_some_iff, Option.pure_def] at hm ⊢
  obtain ⟨first, hfirst, o, ho, hreply⟩ := hm
  exact ⟨first, getElem?_of_prefix h hfirst, o, getElem?_of_prefix h ho, hreply⟩

theorem length_msgPayload {c : List Byte} (h : WellFormed c) :
    (msgPayload c).length = msgLen c := by
  rw [WellFormed] at h
  rw [msgPayload, List.length_take, List.length_drop]
  omega

/-- What is due on the send queue where messages are received. -/
structure Serves (t : Terms) : Prop where
  setting : t.setting ≠ .cached
  echo : t.setting = .echo → ∀ msgs r o, t.message msgs (t.ahead + r) o = echoReply msgs r
  tended : t.setting = .tended → ∀ msgs r o, t.message msgs r o = some []

/-! ### A message in hand -/

/-- The byte lies in a message in hand. -/
def Received (s : Desk) (a : ℕ) : Prop := ∃ j o, s.InHand .rvq j o ∧ o.Covers a

theorem Received.holds {a : ℕ} (h : Received s a) : s.Holds a := ⟨_, h⟩

/-- A message is in hand, untouched but for the word the firmware keeps the descriptor's index
in. -/
structure Reading (l : Bool) (j : ℕ) (o : Offer) (s : Desk) : Prop where
  steady : Steady l none s
  inHand : s.InHand .rvq j o
  content : ∀ i b, o.content[i]? = some b → ¬(8 ≤ i ∧ i < 12) → s.bytes (o.addr + i) = some b
  reserved : ∀ i b, (Quad.ofNat o.idx).bytes[i]? = some b → s.bytes (o.addr + 8 + i) = some b

namespace Reading

variable {l : Bool} {j : ℕ} {o : Offer}

theorem proper (h : Reading l j o s) : o.Proper := h.steady.proper h.inHand

theorem formed (h : Reading l j o s) : WellFormed o.content :=
  h.steady.host.formed o (List.mem_of_getElem? h.inHand.2)

/-- What changes nothing of the exchange leaves the message alone. -/
theorem still (h : Reading l j o s) {l' : Bool} (hs : Steady l' none s') (hstill : Still s s') :
    Reading l' j o s' where
  steady := hs
  inHand := (hstill .rvq).inHand h.inHand
  content i b hb hi := by
    have hlen := h.proper.content_length
    have hlt := (List.getElem?_eq_some_iff.1 hb).1
    rw [(hstill .rvq).bytes _ (h.proper.inShm ⟨by omega, by omega⟩)]
    exact h.content i b hb hi
  reserved i b hb := by
    have hroom := h.proper.room
    have hlt : i < 4 := (List.getElem?_eq_some_iff.1 hb).1
    rw [RPMSG_HDR_SIZE] at hroom
    rw [(hstill .rvq).bytes _ (h.proper.inShm ⟨by omega, by omega⟩)]
    exact h.reserved i b hb

/-- The payload lies in the buffer. -/
theorem received (h : Reading l j o s) {i : ℕ} (hi : i < msgLen o.content) :
    Received s (o.addr + RPMSG_HDR_SIZE + i) := by
  have hformed := h.formed
  have hlen := h.proper.content_length
  rw [WellFormed] at hformed
  exact ⟨j, o, h.inHand, by omega, by omega⟩

theorem set (h : Reading l j o s) {v : Var} (hv : ¬v.OfRing) (n : ℕ) :
    Reading l j o (s.set v n) where
  steady := h.steady.set hv n
  inHand := h.inHand
  content := h.content
  reserved := h.reserved

/-- A word of the header, other than the reserved one. -/
theorem does_word (h : Reading l j o s) {k : ℕ} (hk : k + 4 ≤ 8 ∨ 12 ≤ k ∧ k + 4 ≤ 16)
    {f : ℕ → Code α} (hf : Does (exchange t) (f (wordAt o.content k).toNat) R s) :
    Does (exchange t) (load32 (o.addr + k) >>= f) R s := by
  have hroom := h.proper.room
  have hlen := h.proper.content_length
  rw [RPMSG_HDR_SIZE] at hroom
  have hbyte : ∀ i, k ≤ i → i < k + 4 → s.Reads (o.addr + i) (o.content.getD i 0) := by
    intro i hlo hhi
    refine ⟨⟨_, j, o, h.inHand, by omega, by omega⟩, h.content i _ ?_ (by omega)⟩
    rw [List.getD_eq_getElem?_getD, List.getElem?_eq_getElem (by omega), Option.getD_some]
  refine Does.bind ?_
  exact does_load32 (hbyte k le_rfl (by omega)) (hbyte (k + 1) (by omega) (by omega))
    (hbyte (k + 2) (by omega) (by omega)) (hbyte (k + 3) (by omega) (by omega)) hf

end Reading

/-- The firmware puts the index of the descriptor into a message it has received. -/
theorem does_setReserved {j : ℕ} {o : Offer} (h : Steady false none s) (ho : s.InHand .rvq j o)
    (hcontent : ∀ i b, o.content[i]? = some b → s.bytes (o.addr + i) = some b)
    {f : Unit → Code α}
    (hf : ∀ s', Reading false j o s' → Rewrote o s s' → Does (exchange t) (f ()) R s') :
    Does (exchange t) (setHdrReserved o.addr o.idx >>= f) R s := by
  have hproper := h.proper ho
  have hroom := hproper.room
  rw [RPMSG_HDR_SIZE] at hroom
  have hcov : ∀ i < 4, o.Covers (o.addr + 8 + i) := fun i hi => ⟨by omega, by omega⟩
  have hre : Rewrote o s (s.storeWord (o.addr + 8) (Quad.ofNat o.idx)) := rewrote_storeWord hcov
  refine does_store32 (.inl ⟨_, o, ho, rfl⟩) ?_
  refine hf _ ⟨hre.steady h, hre.inHand ho, fun i b hb hi => ?_, fun i b hb => ?_⟩ hre
  · rw [Desk.bytes_storeWord_of_ne s _ fun k hk => by omega]
    exact hcontent i b hb
  · exact Desk.bytes_storeWord s _ hb

/-! ### Loads and lookups -/

section Lookups

/-- A byte in hand may be read, whatever it is. -/
theorem does_anyLoad8 {a : ℕ} (ha : s.Holds a) {f : Byte → Code α}
    (h : ∀ r, Does (exchange t) (f r) R s) : Does (exchange t) (access (.load8 a) >>= f) R s := by
  refine Does.act ha ?_
  rintro r _ ⟨rfl, -⟩
  exact h r

/-- A word in hand may be read, whatever it is. -/
theorem does_anyLoad32 {a : ℕ} (ha : ∀ i < 4, s.Holds (a + i)) {f : Quad → Code α}
    (h : ∀ r, Does (exchange t) (f r) R s) : Does (exchange t) (access (.load32 a) >>= f) R s := by
  refine Does.act ha ?_
  rintro r _ ⟨rfl, -⟩
  exact h r

/-- A lookup changes nothing. -/
theorem does_scan (name : Option (List Byte)) (addr dest : ℕ) (es : List Ept) :
    Does (exchange t) (rpmsgScanEndpoints name addr dest es) (fun _ s' => s' = s) s := by
  induction es with
  | nil => rfl
  | cons e es ih =>
    refine does_get ?_
    refine Does.ite (fun _ => ih) fun _ => ?_
    refine Does.ite (fun _ => rfl) fun _ => ?_
    refine does_get ?_
    refine Does.ite (fun _ => rfl) fun _ => ?_
    refine Does.ite (fun _ => ih) fun _ => ?_
    refine Does.ite (fun _ => rfl) fun _ => ?_
    exact Does.ite (fun _ => rfl) fun _ => ih

/-- The search for an endpoint leaves everything as it is. -/
theorem does_getEndpoint (name : Option (List Byte)) (addr dest : ℕ) :
    Does (exchange t) (rpmsgGetEndpoint name addr dest) (fun _ s' => s' = s) s :=
  does_quiet (o := .walk .endpoints) trivial fun _ => does_scan name addr dest _

/-- The echo endpoint is found by its address. -/
theorem does_findEcho (h : s.var (.eptRdev .echo) ≠ 0) :
    Does (exchange t) (rpmsgGetEptFromAddr Ept.echo.addr)
      (fun r s' => r = some .echo ∧ s' = s) s := by
  have hecho : Does (exchange t)
      (rpmsgScanEndpoints none Ept.echo.addr RPMSG_ADDR_ANY [.echo])
      (fun r s' => r = some .echo ∧ s' = s) s := by
    refine does_get ?_
    refine Does.ite (fun hzero => absurd hzero h) fun _ => ?_
    exact Does.ite (fun _ => ⟨rfl, rfl⟩) fun hnot => absurd ⟨by decide, rfl⟩ hnot
  refine does_quiet (o := .walk .endpoints) trivial fun _ => ?_
  refine does_get ?_
  refine Does.ite (fun _ => hecho) fun _ => ?_
  refine Does.ite (fun hns => absurd hns.2 (by decide)) fun _ => ?_
  refine does_get ?_
  refine Does.ite (fun hns => absurd hns.1 (by decide)) fun _ => ?_
  exact Does.ite (fun _ => hecho) fun hnot => absurd rfl hnot

end Lookups

/-! ### The echo callback -/

/-- Nothing has changed on the receive queue. -/
structure Served (s s' : Desk) : Prop where
  known : s'.known .rvq = s.known .rvq
  taken : s'.taken .rvq = s.taken .rvq
  hand : s'.hand .rvq = s.hand .rvq
  done : s'.done .rvq = s.done .rvq

theorem Served.refl (s : Desk) : Served s s := ⟨rfl, rfl, rfl, rfl⟩

theorem Served.trans (h : Served s s') (h' : Served s' s'') : Served s s'' :=
  ⟨h'.known.trans h.known, h'.taken.trans h.taken, h'.hand.trans h.hand, h'.done.trans h.done⟩

theorem Served.of_kept (h : Kept .svq s s') : Served s s' :=
  ⟨h.other .rvq (by simp), congrFun h.taken .rvq, congrFun h.hand .rvq, congrFun h.done .rvq⟩

theorem Served.of_rewrote {o : Offer} (h : Rewrote o s s') : Served s s' := by
  rw [h.eq]
  exact ⟨rfl, rfl, rfl, rfl⟩

theorem Served.of_sent (h : Sent s s') : Served s s' where
  known := h.rvq
  taken := by rw [h.taken, Function.update_of_ne (by simp)]
  hand := by rw [h.hand]
  done := by rw [h.done, Function.update_of_ne (by simp)]

/-- How far the firmware is in serving a host that only talks to the echo service. -/
structure Tally (t : Terms) (answered received : ℕ) (hand : List ℕ) (s : Desk) : Prop where
  host : EchoHost t.toRules (s.known .rvq)
  rdev : s.var (.eptRdev .echo) ≠ 0
  sent : (s.done .svq).length = t.ahead + answered
  tx : s.taken .svq = t.ahead + answered
  received : s.done .rvq = List.range received
  hand : s.hand .rvq = hand

/-- The echo endpoint sends to where the first message came from. -/
def Bound (s : Desk) : Prop :=
  ∀ o, (s.known .rvq)[0]? = some o → s.var (.eptDest .echo) = msgSrc o.content

/-- The word the firmware keeps the index of the descriptor in is as the firmware wrote it. -/
def Marked (o : Offer) (s : Desk) : Prop :=
  ∀ i b, (Quad.ofNat o.idx).bytes[i]? = some b → s.bytes (o.addr + 8 + i) = some b

/-- What binds the endpoint is the first message and the endpoint's variables. -/
theorem Bound.congr (h : Bound s) (hknown : s'.known .rvq = s.known .rvq)
    (hvar : ∀ v : Var, v.OfEpt → s'.var v = s.var v) : Bound s' := by
  intro first hfirst
  rw [hknown] at hfirst
  rw [hvar (.eptDest .echo) trivial]
  exact h first hfirst

/-- The tally is about the streams and the endpoint's variables. -/
theorem Tally.congr {answered received : ℕ} {hand : List ℕ} (h : Tally t answered received hand s)
    (hserved : Served s s') (hvar : ∀ v : Var, v.OfEpt → s'.var v = s.var v)
    (hdone : s'.done .svq = s.done .svq) (htaken : s'.taken .svq = s.taken .svq) :
    Tally t answered received hand s' where
  host := hserved.known ▸ h.host
  rdev := by
    rw [hvar (.eptRdev .echo) trivial]
    exact h.rdev
  sent := hdone ▸ h.sent
  tx := htaken.trans h.tx
  received := hserved.done.trans h.received
  hand := hserved.hand.trans h.hand

theorem Tally.still {answered received : ℕ} {hand : List ℕ} (h : Tally t answered received hand s)
    (hstill : Still s s') : Tally t answered received hand s' :=
  h.congr (.of_kept (hstill .svq)) (hstill .svq).var (congrFun (hstill .svq).done .svq)
    (congrFun (hstill .svq).taken .svq)

/-- What holds of a served message when its endpoint has been called. -/
structure Handled (t : Terms) (j : ℕ) (o : Offer) (s s' : Desk) : Prop where
  steady : Steady false none s'
  served : Served s s'
  echo : t.setting = .echo → Tally t (j + 1) j [j] s' ∧ Bound s' ∧ Marked o s'

/-- The first message, where there is one in hand. -/
theorem Reading.first {j : ℕ} {o : Offer} (h : Reading false j o s) :
    ∃ first, (s.known .rvq)[0]? = some first := by
  have hlt := (List.getElem?_eq_some_iff.1 h.inHand.2).1
  exact ⟨_, List.getElem?_eq_getElem (Nat.zero_lt_of_lt hlt)⟩

/-- The payload of a message in hand is there to be sent. -/
theorem Reading.sendable {j : ℕ} {o : Offer} (h : Reading false j o s) (ht : Serves t)
    (hecho : t.setting = .echo → Tally t j j [j] s ∧ Bound s) :
    Sendable t Ept.echo.addr (s.var (.eptDest .echo)) (.mem (o.addr + RPMSG_HDR_SIZE))
      (msgPayload o.content) s where
  gives i b hb := by
    -- The payload lies behind the header.
    have hget : o.content[RPMSG_HDR_SIZE + i]? = some b := by
      rw [msgPayload] at hb
      have hdrop := getElem?_of_prefix (List.take_prefix _ _) hb
      rwa [List.getElem?_drop] at hdrop
    have hlen := h.proper.content_length
    have hlt := (List.getElem?_eq_some_iff.1 hget).1
    rw [Nat.add_assoc]
    exact ⟨⟨_, j, o, h.inHand, by omega, by omega⟩,
      h.content _ b hget (by rw [RPMSG_HDR_SIZE]; omega)⟩
  received := by
    rintro _ ⟨rfl⟩ i hi
    have hformed := h.formed
    have hlen := h.proper.content_length
    rw [length_msgPayload hformed] at hi
    rw [WellFormed] at hformed
    exact ⟨j, o, h.inHand, by omega, by omega⟩
  -- With the echo service the answer is due that the tally has as its next.
  due o' _ hroom := by
    by_cases hset : t.setting = .echo
    · obtain ⟨htally, hbound⟩ := hecho hset
      obtain ⟨first, hfirst⟩ := h.first
      have hsize := htally.host.size o (List.mem_of_getElem? h.inHand.2)
      have hlen := length_msgPayload h.formed
      have hfit : msgLen o.content ≤ o'.room := hsize.trans (hroom hset)
      refine ⟨_, ?_, List.prefix_rfl⟩
      rw [htally.sent, ht.echo hset, echoReply_eq hfirst h.inHand.2, hbound first hfirst,
        sentMessage, hlen, Nat.min_eq_right hfit, List.take_of_length_le (hlen.trans_le hfit)]
    · have htended : t.setting = .tended := by
        rcases hcase : t.setting with _ | _ | _
        · exact absurd hcase hset
        · rfl
        · exact absurd hcase ht.setting
      exact ⟨[], ht.tended htended _ _ _, List.nil_prefix⟩

/-- A message that has been sent is the answer to the one in hand. -/
theorem Reading.handled_of_sent {j : ℕ} {o : Offer} (h : Reading false j o s)
    (hs' : Steady false none s') (hecho : t.setting = .echo → Tally t j j [j] s ∧ Bound s)
    (hsent : Sent s s') :
    Handled t j o s s' where
  steady := hs'
  served := .of_sent hsent
  echo hset := by
    obtain ⟨htally, hbound⟩ := hecho hset
    have hserved := Served.of_sent hsent
    refine ⟨⟨?_, ?_, ?_, ?_, ?_, ?_⟩, fun first hfirst => ?_, fun i b hb => ?_⟩
    · rw [hserved.known]
      exact htally.host
    · rw [hsent.var (.eptRdev .echo) trivial]
      exact htally.rdev
    · simp [hsent.done, htally.sent, Nat.add_assoc]
    · simp [hsent.taken, htally.tx, Nat.add_assoc]
    · rw [hserved.done]
      exact htally.received
    · rw [hserved.hand]
      exact htally.hand
    · rw [hserved.known] at hfirst
      rw [hsent.var (.eptDest .echo) trivial]
      exact hbound first hfirst
    · have hroom := h.proper.room
      have hi : i < 4 := (List.getElem?_eq_some_iff.1 hb).1
      rw [RPMSG_HDR_SIZE] at hroom
      rw [hsent.bytes .rvq j o _ h.inHand ⟨by omega, by omega⟩]
      exact h.reserved i b hb

/-- The echo service answers a message in hand. -/
theorem does_echoSend {j : ℕ} {o : Offer} (hfuel : t.halt ∨ 0 < fuel) (ht : Serves t)
    (h : Reading false j o s) (hecho : t.setting = .echo → Tally t j j [j] s ∧ Bound s) :
    Does (exchange t)
      (rpmsgSend fuel .echo (.mem (o.addr + RPMSG_HDR_SIZE)) (msgLen o.content))
      (fun _ => Handled t j o s) s := by
  rw [← length_msgPayload h.formed]
  refine (does_send hfuel h.steady fun _ _ => h.sendable ht hecho).mono ?_
  rintro r s' ⟨hs', ⟨-, rfl, hnone⟩ | ⟨n, -, hsent⟩ | ⟨-, hkept, hfull⟩⟩
  · refine ⟨hs', .refl _, fun hset => ?_⟩
    obtain ⟨htally, hbound⟩ := hecho hset
    obtain ⟨first, hfirst⟩ := h.first
    have hsrc := htally.host.src first (List.mem_of_getElem? hfirst)
    rw [hbound first hfirst] at hnone
    exact (hnone.elim htally.rdev hsrc).elim
  · exact h.handled_of_sent hs' hecho hsent
  · refine ⟨hs', .of_kept hkept, fun hset => ?_⟩
    have hlt := (List.getElem?_eq_some_iff.1 h.inHand.2).1
    have hle := hfull hset
    rw [(hecho hset).1.tx] at hle
    omega

theorem Handled.of_served {j : ℕ} {o : Offer} (hserved : Served s s') (h : Handled t j o s' s'') :
    Handled t j o s s'' := ⟨h.steady, hserved.trans h.served, h.echo⟩

/-- `rpmsg_echo_cb` -/
theorem does_echoCb {j : ℕ} {o : Offer} {src : ℕ} (hfuel : t.halt ∨ 0 < fuel) (ht : Serves t)
    (h : Reading false j o s) (hecho : t.setting = .echo → Tally t j j [j] s ∧ Bound s) :
    Does (exchange t)
      (rpmsgEchoCb fuel .echo (o.addr + RPMSG_HDR_SIZE) (msgLen o.content) src)
      (fun r s' => r = RPMSG_SUCCESS ∧ Handled t j o s s') s := by
  -- What follows the binding of the endpoint: the trace, and the answer.
  have hrest : ∀ s₁, Served s s₁ → Reading false j o s₁ →
      (t.setting = .echo → Tally t j j [j] s₁ ∧ Bound s₁) → Does (exchange t) (do
        let _ ← get (.eptDest .echo)
        Prog.forEach (fun i => do let _ ← access (.load8 (o.addr + RPMSG_HDR_SIZE + i)))
          (List.range (min (msgLen o.content) 32))
        let _ ← rpmsgSend fuel .echo (.mem (o.addr + RPMSG_HDR_SIZE)) (msgLen o.content)
        pure RPMSG_SUCCESS) (fun r s' => r = RPMSG_SUCCESS ∧ Handled t j o s s') s₁ := by
    intro s₁ hserved h₁ hecho₁
    refine does_get ?_
    refine Does.seq (Does.forEach
      (P := fun is s' => s' = s₁ ∧ ∀ i ∈ is, i < msgLen o.content) ?_ ⟨rfl, fun i hi => ?_⟩) ?_
    · rintro i is _ ⟨rfl, hlt⟩
      refine does_anyLoad8 (h₁.received (hlt i List.mem_cons_self)).holds fun _ => ?_
      exact ⟨rfl, fun k hk => hlt k (List.mem_cons_of_mem i hk)⟩
    · exact (List.mem_range.mp hi).trans_le (Nat.min_le_left _ _)
    · rintro - _ ⟨rfl, -⟩
      refine Does.seq (does_echoSend hfuel ht h₁ hecho₁) ?_
      intro r s₂ hhandled
      exact ⟨rfl, hhandled.of_served hserved⟩
  refine does_get ?_
  refine Does.ite (fun hany => ?_) (fun _ => hrest s (.refl s) h hecho)
  refine does_set (by simp) ?_
  refine hrest _ ⟨rfl, rfl, rfl, rfl⟩ (h.set id src) fun hset => ?_
  -- With the echo service the endpoint has a destination by now.
  obtain ⟨htally, hbound⟩ := hecho hset
  obtain ⟨first, hfirst⟩ := h.first
  have hsrc := htally.host.src first (List.mem_of_getElem? hfirst)
  rw [hbound first hfirst] at hany
  exact absurd hany hsrc

/-! ### The name service callback -/

section NameService

variable {l : Bool} {b : Option Vq}

theorem Steady.invalidate (h : Steady l b s) (a : ℕ) (heard : Vq → ℕ) :
    Steady l b (s.invalidate a heard) :=
  { h with
    host := h.host.congr rfl rfl
    tidy := h.tidy.congr rfl rfl rfl rfl
    used_synced := fun q => .inl (h.used_synced q) }

/-- Dropping several lines of the host's keeps what holds between calls. -/
theorem does_dropLines {lines : List ℕ} (hlines : ∀ a ∈ lines, ¬UsedLine (lineOf a))
    (h : Steady l b s) :
    Does (exchange t) (.forEach (fun i => access (.ipa i)) lines)
      (fun _ s' => Steady l b s' ∧ Served s s') s := by
  induction lines generalizing s with
  | nil => exact ⟨h, .refl s⟩
  | cons a lines ih =>
    refine Does.bind (Does.last (does_ipa (hlines a List.mem_cons_self) fun heard _ => ?_))
    refine (ih (fun b hb => hlines b (List.mem_cons_of_mem a hb)) (h.invalidate a heard)).mono ?_
    rintro - s' ⟨hs', hserved⟩
    have hdrop : Served s (s.invalidate a heard) := ⟨rfl, rfl, rfl, rfl⟩
    exact ⟨hs', hdrop.trans hserved⟩

theorem Received.served {a : ℕ} (h : Received s a) (hserved : Served s s') : Received s' a := by
  obtain ⟨j, o, ⟨hj, ho⟩, hcov⟩ := h
  exact ⟨j, o, ⟨hserved.hand ▸ hj, hserved.known ▸ ho⟩, hcov⟩

section Block

variable {ptr dst len n : ℕ} {acc : List Byte}

/-- Up to the first word, reading a block reads bytes in hand only. -/
theorem does_blockReadHead (hread : ∀ i < len, Received s (ptr + i)) (hn : acc.length + n ≤ len) :
    Does (exchange t) (blockReadHead ptr dst acc n)
      (fun r s' => s' = s ∧ r.1.length + r.2 ≤ len) s := by
  induction n generalizing acc with
  | zero => exact ⟨rfl, hn⟩
  | succ n ih =>
    refine Does.ite (fun _ => ?_) fun _ => ⟨rfl, hn⟩
    refine does_anyLoad8 (hread _ (by omega)).holds fun _ => ih ?_
    rw [List.length_append, List.length_singleton]
    omega

/-- The words that reading a block reads are made of bytes in hand. -/
theorem does_blockReadWords (hread : ∀ i < len, Received s (ptr + i)) (hn : acc.length + n ≤ len) :
    Does (exchange t) (blockReadWords ptr acc n)
      (fun r s' => s' = s ∧ r.1.length + r.2 ≤ len) s := by
  induction n using Nat.strong_induction_on generalizing acc with
  | h n ih =>
    unfold blockReadWords
    split
    · next n =>
      refine does_anyLoad32 (fun i hi => ?_) fun q => ih n (by omega) ?_
      · rw [Nat.add_assoc]
        exact (hread _ (by omega)).holds
      · have hlen : (acc ++ q.bytes).length = acc.length + 4 := List.length_append
        omega
    · exact ⟨rfl, hn⟩

/-- After the last word, too, reading a block reads bytes in hand only. -/
theorem does_blockReadTail (hread : ∀ i < len, Received s (ptr + i)) (hn : acc.length + n ≤ len) :
    Does (exchange t) (blockReadTail ptr acc n) (fun _ s' => s' = s) s := by
  induction n generalizing acc with
  | zero => rfl
  | succ n ih =>
    refine does_anyLoad8 (hread _ (by omega)).holds fun _ => ih ?_
    rw [List.length_append, List.length_singleton]
    omega

/-- Reading a block of a message drops its lines and reads it. -/
theorem does_shmemBlockRead (hptr : SHMEM_PA ≤ ptr) (h : Steady l b s)
    (hread : ∀ i < len, Received s (ptr + i)) :
    Does (exchange t) (shmemMetalIoBlockRead ptr dst len)
      (fun _ s' => Steady l b s' ∧ Served s s') s := by
  have hpos : ptr ≠ 0 := by
    rintro rfl
    exact absurd hptr (by decide)
  refine Does.bind ?_
  rw [metalCacheInvalidate, if_neg fun hzero => hpos hzero.1]
  refine (does_dropLines (fun i hi => ?_) h).mono ?_
  · obtain ⟨hmod, hge, -⟩ := Hal.mem_cacheLines.mp hi
    refine not_usedLine_shm ?_
    rw [L1_CACHE_BYTES] at hmod hge
    rw [SHMEM_PA] at hptr ⊢
    rw [lineOf, L1_CACHE_BYTES]
    omega
  · intro _ s₁ h₁
    have hread₁ : ∀ i < len, Received s₁ (ptr + i) := fun i hi => (hread i hi).served h₁.2
    refine Does.seq (does_blockReadHead hread₁ (Nat.zero_add _).le) ?_
    rintro r _ ⟨rfl, hr⟩
    refine Does.seq (does_blockReadWords hread₁ hr) ?_
    rintro r' _ ⟨rfl, hr'⟩
    refine (does_blockReadTail hread₁ hr').mono ?_
    rintro _ _ rfl
    exact h₁

/-- Reading a block of a message in hand drops its lines. -/
theorem does_blockRead (h : Steady l b s) (hread : ∀ i < len, Received s (ptr + i)) :
    Does (exchange t) (metalIoBlockRead ptr dst len)
      (fun _ s' => Steady l b s' ∧ Served s s') s := by
  refine Does.ite (fun hshm => ?_) (fun _ => ⟨h, .refl s⟩)
  refine does_shmemBlockRead hshm.1 h fun i hi => hread i ?_
  split at hi <;> omega

end Block

/-- `rpmsg_virtio_ns_callback` -/
theorem does_nsCallback (hfuel : t.halt ∨ 0 < fuel) (data len : ℕ) (h : Steady false none s)
    (hread : ∀ i < len, Received s (data + i)) :
    Does (exchange t) (rpmsgVirtioNsCallback fuel data len)
      (fun r s' => r = RPMSG_SUCCESS ∧ Steady false none s' ∧ Served s s') s := by
  refine Does.ite (fun _ => ⟨rfl, h, .refl s⟩) (fun hlen => ?_)
  rw [not_not, RPMSG_NS_MSG_SIZE] at hlen
  -- The fields of the announcement lie in the message, which stays in hand.
  have hword : ∀ s' k, Served s s' → k + 4 ≤ 40 → ∀ i < 4, s'.Holds (data + k + i) := by
    intro s' k hserved hk i hi
    rw [Nat.add_assoc]
    exact ((hread (k + i) (by omega)).served hserved).holds
  refine does_quiet (o := .sp) trivial fun sp => ?_
  refine Does.seq (does_blockRead h fun i hi => hread i ?_) ?_
  · rw [RPMSG_NAME_SIZE] at hi
    omega
  rintro name s₁ ⟨h₁, hserved₁⟩
  refine Does.bind (does_anyLoad32 (hword s₁ 32 hserved₁ (by omega)) fun dest => ?_)
  refine Does.seq (does_acquire hfuel h₁) ?_
  intro _ s₂ h₂
  have hserved₂ := hserved₁.trans (.of_kept (h₂.2 .svq))
  refine Does.seq (does_getEndpoint _ _ _) ?_
  rintro ept _ rfl
  refine Does.bind (does_anyLoad32 (hword _ 36 hserved₂ (by omega)) fun flags => ?_)
  -- Whether or not an endpoint was found, the lock is released and success returned.
  have hrest : ∀ s₃, Steady true none s₃ → Served s s₃ → Does (exchange t) (do
      metalMutexRelease
      pure RPMSG_SUCCESS)
      (fun r s' => r = RPMSG_SUCCESS ∧ Steady false none s' ∧ Served s s') s₃ := by
    intro s₃ h₃ hserved₃
    refine Does.seq (does_release h₃) ?_
    intro _ s₄ h₄
    exact ⟨rfl, h₄.1, hserved₃.trans (.of_kept (h₄.2 .svq))⟩
  rcases ept with - | e
  · exact hrest _ h₂.1 hserved₂
  · refine does_set (by simp) ?_
    exact hrest _ (h₂.1.set id _) (hserved₂.trans ⟨rfl, rfl, rfl, rfl⟩)

end NameService

/-! ### A message received -/

section Dispatch

variable {j : ℕ} {o : Offer}

/-- The echo endpoint sends to nobody until there has been a message. -/
structure Greeted (j : ℕ) (s : Desk) : Prop where
  unbound : j = 0 → s.var (.eptDest .echo) = RPMSG_ADDR_ANY
  bound : 0 < j → Bound s

/-- Whether the endpoint is bound is told by the first message and its variables. -/
theorem Greeted.congr (h : Greeted j s) (hknown : s'.known .rvq = s.known .rvq)
    (hvar : ∀ v : Var, v.OfEpt → s'.var v = s.var v) : Greeted j s' where
  unbound hj := (hvar (.eptDest .echo) trivial).trans (h.unbound hj)
  bound hj := (h.bound hj).congr hknown hvar

/-- The first message received binds the endpoint; others find it bound. -/
theorem does_bind {e : Ept} (h : Reading false j o s)
    (hecho : t.setting = .echo → e = .echo ∧ Tally t j j [j] s ∧ Greeted j s) {p : Code α}
    (hp : ∀ s', Reading false j o s' → Served s s' →
      (t.setting = .echo → Tally t j j [j] s' ∧ Bound s') → Does (exchange t) p R s') :
    Does (exchange t) (do
      let dest ← get (.eptDest e)
      if dest = RPMSG_ADDR_ANY then do
        let src ← hdrSrc o.addr
        set (.eptDest e) src
        p
      else
        p) R s := by
  refine does_get ?_
  refine Does.ite (fun hany => ?_) (fun hsome => ?_)
  · refine h.does_word (k := 0) (by omega) ?_
    refine does_set (by simp) ?_
    refine hp _ (h.set id _) ⟨rfl, rfl, rfl, rfl⟩ fun hset => ?_
    obtain ⟨rfl, htally, hgreeted⟩ := hecho hset
    have hzero : j = 0 := by
      by_contra hne
      obtain ⟨first, hfirst⟩ := h.first
      have hsrc := htally.host.src first (List.mem_of_getElem? hfirst)
      rw [hgreeted.bound (Nat.pos_of_ne_zero hne) first hfirst] at hany
      exact hsrc hany
    refine ⟨⟨htally.host, ?_, htally.sent, htally.tx, htally.received, htally.hand⟩, ?_⟩
    · simpa [Desk.set] using htally.rdev
    · intro first hfirst
      subst hzero
      have heq : first = o := Option.some.inj (hfirst.symm.trans h.inHand.2)
      rw [heq]
      exact Function.update_self (Var.eptDest .echo) (msgSrc o.content) s.var
  · refine hp s h (.refl s) fun hset => ?_
    obtain ⟨rfl, htally, hgreeted⟩ := hecho hset
    refine ⟨htally, hgreeted.bound (Nat.pos_of_ne_zero ?_)⟩
    rintro rfl
    exact hsome (hgreeted.unbound rfl)

/-- The callback of the endpoint a message is for. -/
theorem does_eptCb {e : Ept} {src : ℕ} (hfuel : t.halt ∨ 0 < fuel) (ht : Serves t)
    (h : Reading false j o s)
    (hecho : t.setting = .echo → e = .echo ∧ Tally t j j [j] s ∧ Bound s) :
    Does (exchange t) (eptCb fuel e (o.addr + RPMSG_HDR_SIZE) (msgLen o.content) src)
      (fun r s' => r = RPMSG_SUCCESS ∧ Handled t j o s s') s := by
  cases e with
  | ns =>
    refine (does_nsCallback hfuel _ _ h.steady fun i hi => h.received hi).mono ?_
    rintro r s' ⟨hr, hs', hserved⟩
    exact ⟨hr, hs', hserved, fun hset => absurd (hecho hset).1 (by simp)⟩
  | echo => exact does_echoCb hfuel ht h fun hset => (hecho hset).2

/-- What the receive loop does with a message before it returns its buffer. -/
theorem does_rxDispatch (hfuel : t.halt ∨ 0 < fuel) (ht : Serves t) (h : Steady false none s)
    (ho : s.InHand .rvq j o)
    (hcontent : ∀ i b, o.content[i]? = some b → s.bytes (o.addr + i) = some b)
    (hecho : t.setting = .echo → Tally t j j [j] s ∧ Greeted j s) :
    Does (exchange t) (rpmsgVirtioRxDispatch fuel ⟨o.addr, o.idx, o.len⟩)
      (fun _ => Handled t j o s) s := by
  refine does_setReserved h ho hcontent fun s₁ h₁ hre => ?_
  refine Does.seq (does_acquire hfuel h₁.steady) ?_
  intro _ s₂ h₂
  have hread₂ : Reading true j o s₂ := h₁.still h₂.1 h₂.2
  refine hread₂.does_word (k := 4) (by omega) ?_
  have hserved₂ : Served s s₂ := (Served.of_rewrote hre).trans (.of_kept (h₂.2 .svq))
  have hvar₂ : ∀ v : Var, v.OfEpt → s₂.var v = s.var v := by
    intro v hv
    rw [(h₂.2 .svq).var v hv, hre.eq]
  have hecho₂ : t.setting = .echo → Tally t j j [j] s₂ ∧ Greeted j s₂ := by
    intro hset
    obtain ⟨htally, hgreeted⟩ := hecho hset
    refine ⟨htally.congr hserved₂ hvar₂ ?_ ?_, hgreeted.congr hserved₂.known hvar₂⟩
    · rw [(h₂.2 .svq).done, hre.eq]
    · rw [(h₂.2 .svq).taken, hre.eq]
  -- With the echo service the look-up finds its endpoint; otherwise it finds any or none.
  have hlookup : Does (exchange t) (rpmsgGetEptFromAddr (msgDst o.content))
      (fun r s' => s' = s₂ ∧ (t.setting = .echo → r = some .echo)) s₂ := by
    by_cases hset : t.setting = .echo
    · have htally := (hecho₂ hset).1
      rw [htally.host.dst o (List.mem_of_getElem? hread₂.inHand.2)]
      refine (does_findEcho htally.rdev).mono ?_
      rintro r _ ⟨hr, rfl⟩
      exact ⟨rfl, fun _ => hr⟩
    · refine (does_getEndpoint _ _ _).mono ?_
      rintro r _ rfl
      exact ⟨rfl, fun h => absurd h hset⟩
  refine Does.seq hlookup ?_
  rintro ept _ ⟨rfl, hept⟩
  refine Does.seq (does_release h₂.1) ?_
  intro _ s₃ h₃
  have hread₃ : Reading false j o s₃ := hread₂.still h₃.1 h₃.2
  have hserved₃ : Served s s₃ := hserved₂.trans (.of_kept (h₃.2 .svq))
  -- A message to nobody is dropped; every other is handed to its endpoint.
  rcases ept with - | e
  · exact ⟨h₃.1, hserved₃, fun hset => absurd (hept hset) (by simp)⟩
  · have hecho₃ : t.setting = .echo → e = .echo ∧ Tally t j j [j] s₃ ∧ Greeted j s₃ := by
      intro hset
      obtain ⟨htally, hgreeted⟩ := hecho₂ hset
      exact ⟨Option.some.inj (hept hset), htally.still h₃.2,
        hgreeted.congr (congrFun h₃.2.known .rvq) (h₃.2 .svq).var⟩
    refine does_bind hread₃ hecho₃ fun s₄ h₄ hserved₄ hecho₄ => ?_
    refine Does.bind ?_
    refine h₄.does_word (k := 12) (by omega) ?_
    refine h₄.does_word (k := 0) (by omega) ?_
    refine Does.seq (does_eptCb hfuel ht h₄ fun hset => ⟨(hecho₃ hset).1, hecho₄ hset⟩) ?_
    rintro _ s₅ ⟨rfl, hhandled⟩
    refine Does.ite (fun hneg => absurd hneg (by decide)) fun _ => ?_
    exact hhandled.of_served (hserved₃.trans hserved₄)

end Dispatch

/-! ### The receive loop -/

section Loop

variable {l : Bool} {n : ℕ}

/-- Between messages: every message received has been answered. -/
structure Between (t : Terms) (n : ℕ) (s : Desk) : Prop where
  tally : Tally t n n [] s
  greeted : Greeted n s

/-- The buffer has just been taken from the receive queue. -/
def Serving (t : Terms) (l : Bool) (b : Buffer) (s : Desk) : Prop :=
  ∃ j o, b = ⟨o.addr, o.idx, o.len⟩ ∧ Steady l none s ∧ s.InHand .rvq j o ∧
    (∀ i b, o.content[i]? = some b → s.bytes (o.addr + i) = some b) ∧
    (t.setting = .echo → Tally t j j [j] s ∧ Greeted j s)

/-- All messages offered have been answered. -/
def Settled (t : Terms) (s : Desk) : Prop :=
  ∃ n, Between t n s ∧ (s.known .rvq).length = n ∧ t.made ≤ n

theorem Between.taken (h : Between t n s) (hs : Steady l none s) : s.taken .rvq = n := by
  have hcount := hs.tidy.count .rvq
  rwa [h.tally.received, h.tally.hand, List.length_range, List.length_nil] at hcount

/-- A message that comes in later does not bind the endpoint again. -/
theorem Greeted.grow (h : Greeted n s) (hs : Steady l none s) (hn : s.taken .rvq = n)
    (hknown : s.known .rvq <+: s'.known .rvq) (hvar : ∀ v : Var, v.OfEpt → s'.var v = s.var v) :
    Greeted n s' where
  unbound hzero := (hvar (.eptDest .echo) trivial).trans (h.unbound hzero)
  bound hpos first hfirst := by
    have hle := hs.tidy.taken_le .rvq
    have hlt : 0 < (s.known .rvq).length := by omega
    have hget := getElem?_of_prefix hknown (List.getElem?_eq_getElem hlt)
    rw [hvar (.eptDest .echo) trivial]
    refine h.bound hpos first ?_
    rw [List.getElem?_eq_getElem hlt, ← hget]
    exact hfirst

/-- After a look that finds nothing all messages have been answered. -/
theorem Looked.settled (hl : Looked t .rvq s none s') (hs : Steady l none s)
    (hset : t.setting = .echo) (h : Between t n s) : Settled t s' := by
  obtain ⟨hkept, hall⟩ := hl.empty rfl
  have hoffers := hl.host hset
  have hlen : (s'.known .rvq).length = n := by
    rw [← hall, hkept.taken]
    exact h.taken hs
  refine ⟨n, ⟨⟨hoffers.messages, ?_, ?_, ?_, ?_, ?_⟩, ?_⟩, hlen, hlen ▸ hoffers.made rfl⟩
  · rw [hkept.var (.eptRdev .echo) trivial]
    exact h.tally.rdev
  · rw [hkept.done]
    exact h.tally.sent
  · rw [hkept.taken]
    exact h.tally.tx
  · rw [hkept.done]
    exact h.tally.received
  · rw [hkept.hand]
    exact h.tally.hand
  · exact h.greeted.grow hs (h.taken hs) hkept.known hkept.var

/-- A look that finds a buffer takes the next message. -/
theorem Looked.serving {b : Buffer} (hl : Looked t .rvq s (some b) s') (hs : Steady l none s)
    (hs' : Steady l none s') (h : t.setting = .echo → ∃ n, Between t n s) :
    Serving t l b s' := by
  obtain ⟨o, rfl, htook⟩ := hl.found b rfl
  refine ⟨s.taken .rvq, o, rfl, hs', htook.inHand, htook.content rfl, fun hset => ?_⟩
  obtain ⟨n, hbetween⟩ := h hset
  have htaken := hbetween.taken hs
  rw [htaken]
  refine ⟨⟨(hl.host hset).messages, ?_, ?_, ?_, ?_, ?_⟩, ?_⟩
  · rw [htook.var (.eptRdev .echo) trivial]
    exact hbetween.tally.rdev
  · rw [htook.done]
    exact hbetween.tally.sent
  · rw [htook.taken, Function.update_of_ne (by simp)]
    exact hbetween.tally.tx
  · rw [htook.done]
    exact hbetween.tally.received
  · rw [htook.hand, Function.update_self, hbetween.tally.hand, htaken]
    rfl
  · exact hbetween.greeted.grow hs htaken htook.known htook.var

theorem Serving.still {b : Buffer} (h : Serving t l b s) {l' : Bool} (hs' : Steady l' none s')
    (hstill : Still s s') : Serving t l' b s' := by
  obtain ⟨j, o, hb, hs, ho, hcontent, hecho⟩ := h
  refine ⟨j, o, hb, hs', (hstill .rvq).inHand ho, fun i b hb => ?_, fun hset => ?_⟩
  · have hproper := hs.proper ho
    have hlen := hproper.content_length
    have hlt := (List.getElem?_eq_some_iff.1 hb).1
    rw [(hstill .rvq).bytes _ (hproper.inShm ⟨by omega, by omega⟩)]
    exact hcontent i b hb
  · obtain ⟨htally, hgreeted⟩ := hecho hset
    exact ⟨htally.still hstill, hgreeted.congr (congrFun hstill.known .rvq) (hstill .svq).var⟩

theorem Settled.still (h : Settled t s) (hstill : Still s s') : Settled t s' := by
  obtain ⟨n, hbetween, hlen, hmade⟩ := h
  have hknown := congrFun hstill.known .rvq
  exact ⟨n, ⟨hbetween.tally.still hstill, hbetween.greeted.congr hknown (hstill .svq).var⟩,
    hknown ▸ hlen, hmade⟩

/-- The reserved word, which the firmware has written, says that the buffer is not held. -/
theorem does_notHeld {j : ℕ} {o : Offer} (ho : o.Proper) (hj : s.InHand .rvq j o)
    (hmarked : t.setting = .echo → Marked o s) {f : ℕ → Code α}
    (hf : ∀ r, (t.setting = .echo → r &&& RPMSG_BUF_HELD = 0) → Does (exchange t) (f r) R s) :
    Does (exchange t) (hdrReserved o.addr >>= f) R s := by
  have hidx : o.idx < 128 := ho.idx_lt
  by_cases hset : t.setting = .echo
  · have hroom := ho.room
    rw [RPMSG_HDR_SIZE] at hroom
    have hword : o.idx < 2 ^ 32 := by omega
    refine does_hdrReserved hword (fun i b hb => ?_) (hf _ fun _ => ?_)
    · have hi : i < 4 := (List.getElem?_eq_some_iff.1 hb).1
      exact ⟨⟨_, j, o, hj, by omega, by omega⟩, hmarked hset i b hb⟩
    rw [RPMSG_BUF_HELD, Nat.and_two_pow, Nat.testBit_lt_two_pow (by omega)]
    rfl
  · have hroom := ho.room
    rw [RPMSG_HDR_SIZE] at hroom
    refine Does.bind (does_anyLoad32 (fun i hi => ⟨_, j, o, hj, ?_⟩) fun r => hf _ ?_)
    · exact ⟨by omega, by omega⟩
    · exact fun h => absurd h hset

/-- A buffer that goes back to the receive queue carries nothing. -/
theorem ready_rvq {o : Offer} : Ready t s .rvq o := ⟨by simp, by simp⟩

/-- The message has been answered, and its buffer returned. -/
theorem Gave.between {j : ℕ} (hgave : Gave .rvq j s s') (htally : Tally t (j + 1) j [j] s)
    (hbound : Bound s) : Between t (j + 1) s' where
  tally := by
    refine ⟨?_, ?_, ?_, ?_, ?_, ?_⟩
    · rw [hgave.known]
      exact htally.host
    · rw [hgave.var (.eptRdev .echo) trivial]
      exact htally.rdev
    · rw [hgave.done, Function.update_of_ne (by simp)]
      exact htally.sent
    · rw [hgave.taken]
      exact htally.tx
    · rw [hgave.done, Function.update_self, htally.received, List.range_succ]
    · rw [hgave.hand, Function.update_self, htally.hand]
      simp
  greeted := ⟨by simp, fun _ => hbound.congr (congrFun hgave.known .rvq) hgave.var⟩

/-- The end of the callback: all is done, or the callback has been cut off. -/
def Finished (t : Terms) (s : Desk) : Prop :=
  Steady false none s ∧ (t.setting = .echo → Settled t s)

/-- How many messages there may still be. -/
def remaining (t : Terms) (_ : Buffer) (s : Desk) : ℕ := t.limit - (s.done .rvq).length

/-- The next look ends the round. -/
theorem does_nextRound {m : ℕ} (h : Steady true none s) (ht : Serves t)
    (hecho : t.setting = .echo → ∃ n, Between t n s ∧ t.limit - n < m) :
    Does (exchange t) (do
      let next ← virtqueueGetAvailableBuffer .rvq
      match next with
      | some b' => do
        metalMutexRelease
        pure (.inl b')
      | none => do
        virtqueueKick .rvq
        metalMutexRelease
        pure (.inr ())) (fun (r : Buffer ⊕ Unit) s' =>
          (∀ b, r = .inl b → Serving t false b s' ∧
            (t.setting = .echo → remaining t b s' < m)) ∧
          ∀ u, r = .inr u → Finished t s') s := by
  refine Does.seq (does_getAvailable h fun _ => ht.setting) ?_
  rintro (_ | b) s₁ ⟨h₁, hl⟩
  · refine Does.seq (does_kick h₁) ?_
    intro _ s₂ h₂
    refine Does.seq (does_release h₂.1) ?_
    intro _ s₃ h₃
    refine ⟨by simp, fun _ _ => ⟨h₃.1, fun hset => ?_⟩⟩
    obtain ⟨n, hbetween, -⟩ := hecho hset
    exact (hl.settled h hset hbetween).still (h₂.2.trans h₃.2)
  · have hserving := hl.serving h h₁ fun hset => (hecho hset).imp fun _ => And.left
    refine Does.seq (does_release h₁) ?_
    intro _ s₂ h₂
    refine ⟨?_, by simp⟩
    rintro _ ⟨⟩
    refine ⟨hserving.still h₂.1 h₂.2, fun hset => ?_⟩
    obtain ⟨n, hbetween, hlt⟩ := hecho hset
    obtain ⟨o, -, htook⟩ := hl.found b rfl
    rwa [remaining, (h₂.2 .rvq).done, htook.done, hbetween.tally.received, List.length_range]

/-- One round of the receive loop. -/
theorem does_rxRound {b : Buffer} (hfuel : t.halt ∨ 0 < fuel) (ht : Serves t)
    (h : Serving t false b s) :
    Does (exchange t) (rpmsgVirtioRxRound fuel b) (fun r s' =>
      (∀ b', r = .inl b' → Serving t false b' s' ∧
        (t.setting = .echo → remaining t b' s' < remaining t b s)) ∧
      ∀ u, r = .inr u → Finished t s') s := by
  obtain ⟨j, o, rfl, hs, ho, hcontent, hecho⟩ := h
  refine Does.seq (does_rxDispatch hfuel ht hs ho hcontent hecho) ?_
  intro _ s₁ hhandled
  refine Does.seq (does_acquire hfuel hhandled.steady) ?_
  intro _ s₂ h₂
  -- The message is still in hand after its handling.
  have ho₁ : s₁.InHand .rvq j o := by
    refine ⟨?_, ?_⟩
    · rw [hhandled.served.hand]
      exact ho.1
    · rw [hhandled.served.known]
      exact ho.2
  have ho₂ := (h₂.2 .rvq).inHand ho₁
  have hproper := h₂.1.proper ho₂
  -- The reserved word has the index of the buffer, and no mark that it is held.
  have hmarked : t.setting = .echo → Marked o s₂ := by
    intro hset i b hb
    have hroom := hproper.room
    have hi : i < 4 := (List.getElem?_eq_some_iff.1 hb).1
    rw [RPMSG_HDR_SIZE] at hroom
    rw [(h₂.2 .rvq).bytes _ (hproper.inShm ⟨by omega, by omega⟩)]
    exact (hhandled.echo hset).2.2 i b hb
  refine does_notHeld hproper ho₂ hmarked fun reserved hfree => ?_
  -- A buffer that is not held goes back; with the echo service fewer remain then.
  refine Does.ite (fun _ => ?_) (fun hheld => ?_)
  · refine Does.bind ((does_addConsumed h₂.1 ho₂ ready_rvq).mono ?_)
    rintro _ s₃ ⟨-, h₃, hgave⟩
    refine does_nextRound h₃ ht fun hset => ?_
    obtain ⟨htally, hbound, -⟩ := hhandled.echo hset
    have htally₂ := htally.still h₂.2
    have hbound₂ := hbound.congr (congrFun h₂.2.known .rvq) (h₂.2 .svq).var
    refine ⟨j + 1, hgave.between htally₂ hbound₂, ?_⟩
    have hdone := (hecho hset).1.received
    have hlimit := (hecho hset).1.host.length_le
    have hlt := (List.getElem?_eq_some_iff.1 ho.2).1
    rw [remaining, hdone, List.length_range]
    omega
  · exact does_nextRound h₂.1 ht fun hset => absurd (hfree hset) hheld

/-- `rpmsg_virtio_rx_callback` -/
theorem does_rxCallback (hfuel : t.halt ∨ t.limit < fuel) (hhalt : t.setting ≠ .echo → t.halt)
    (ht : Serves t) (h : Steady false none s)
    (hecho : t.setting = .echo → ∃ n, Between t n s) :
    Does (exchange t) (rpmsgVirtioRxCallback fuel) (fun _ => Finished t) s := by
  have hfuel' : t.halt ∨ 0 < fuel := hfuel.imp_right fun hlt => Nat.zero_lt_of_lt hlt
  refine Does.seq (does_acquire hfuel' h) ?_
  intro _ s₁ h₁
  have hecho₁ : t.setting = .echo → ∃ n, Between t n s₁ := by
    intro hset
    obtain ⟨n, hbetween⟩ := hecho hset
    exact ⟨n, hbetween.tally.still h₁.2,
      hbetween.greeted.congr (congrFun h₁.2.known .rvq) (h₁.2 .svq).var⟩
  refine Does.seq (does_getAvailable h₁.1 fun _ => ht.setting) ?_
  rintro r s₂ ⟨h₂, hl⟩
  refine Does.seq (does_release h₂) ?_
  intro _ s₃ h₃
  rcases r with - | b
  · refine ⟨h₃.1, fun hset => ?_⟩
    obtain ⟨n, hbetween⟩ := hecho₁ hset
    exact (hl.settled h₁.1 hset hbetween).still h₃.2
  · have hserving := (hl.serving h₁.1 h₂ hecho₁).still h₃.1 h₃.2
    refine Does.iterate (P := Serving t false) (remaining t) (fun b s hs => ?_) ?_ hserving
    · refine (does_rxRound hfuel' ht hs).mono fun r s' hr => ⟨fun b' hb' => ?_, hr.2⟩
      obtain ⟨hserving', hless⟩ := hr.1 b' hb'
      refine ⟨hserving', ?_⟩
      by_cases hset : t.setting = .echo
      · exact .inr (hless hset)
      · exact .inl (hhalt hset)
    · refine hfuel.imp_right fun hlt => ?_
      rw [remaining]
      omega

end Loop

end C906Firmware
