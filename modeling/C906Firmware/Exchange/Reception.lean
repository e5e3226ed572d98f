import C906Firmware.Exchange.Publication
import C906Firmware.Exchange.Receiving

/-!
# Receiving through the cache

The configuration that is built maintains the rings, but not the buffers. What the receive callback
and the endpoint callbacks read of a message is what the host put there, and no late write-back
alters a buffer that is the host's again, as long as the cache is tended: a message is seen as it
is in memory when it is taken, and has no dirty line when it is returned (`receives_tended`, and
for single runs `coherent_of_tended`). That is what the maintenance left out would see to. Without
it a message may be read as the one before it in the same buffer, and the word that the firmware
puts into the header may reach memory after the buffer has gone back (`not_coherent_requests`).
-/

namespace C906Firmware

open Interaction WriteBack World

variable {t : Terms} {s : Desk} {w : World}

/-! ### What coherence asks for -/

namespace World

/-- The byte is the host's: it lies in no buffer that is lent, or in one the host finds
returned. -/
def HostOwned (w : World) (a : ℕ) : Prop :=
  InShm a ∧ ((∀ q j o, w.Lent q j o → ¬o.Covers a) ∨ ∃ q j o i, w.Lent q j o ∧ o.Covers a ∧
    i < w.returned q ∧ w.ram (.cell (.usedId q ((w.seen q + i) % VRING_NUM_BUFFS))) = o.idx)

/-- No late write-back alters a byte of the host's. -/
def Undisturbed (w : World) : Prop :=
  ∀ l a, w.HostOwned a → (w.move (.evict l)).ramByte a = w.ramByte a

/-- A byte of a message is seen as the host wrote it, but for the word that is the firmware's. -/
def SeesMessage (w : World) (a : ℕ) : Prop :=
  ∀ j o i b, w.Lent .rvq j o → a = o.addr + i → o.content[i]? = some b → ¬(8 ≤ i ∧ i < 12) →
    w.viewByte a = b

/-- What is read of messages is what the host wrote. -/
def ReadsMessages : Op → World → Prop
  | .load8 a, w => w.SeesMessage a
  | .load32 a, w => ∀ i < 4, w.SeesMessage (a + i)
  | _, _ => True

end World

/-- The receive callback is called `n` times. At every moment, and whatever the environment does,
nothing of the host's is altered late, and what is read of messages is what the host wrote. -/
def Receives (r : Rules) (fuel : ℕ) : ℕ → World → Prop
  | 0, w => Always r Undisturbed w
  | n + 1, w => Sure (contract r Undisturbed ReadsMessages) True (rpmsgVirtioRxCallback fuel)
      (fun _ w' => Receives r fuel n w') w

/-! ### A cache that is tended -/

/-- A cache that is tended. -/
def tendedRules : Rules where
  setting := .tended
  limit := 0
  size := 0
  ahead := 0

/-- The terms of receiving: it may be cut off, and of what is sent nothing is asked. -/
def receiveTerms : Terms where
  toRules := tendedRules
  halt := True
  made := 0
  message _ _ _ := some []
  message_mono _ h := h

theorem serves_tended : Serves receiveTerms where
  setting h := by cases h
  echo h := by cases h
  tended _ _ _ _ := rfl

/-- The lines of what is the host's are not dirty. -/
theorem At.not_stored (h : At t s w) (hset : t.setting ≠ .cached) {a : ℕ} (ha : w.HostOwned a) :
    ¬w.mem.Stored (lineOf a) := by
  intro hs
  obtain ⟨hshm, howned⟩ := ha
  obtain ⟨q', j', o', x, ho', hcov', -⟩ := h.buffers.stored hset a hshm hs
  rcases howned with hfree | ⟨q, j, o, i, ho, hcov, hi, hid⟩
  · exact hfree q' j' o' (h.ledger.lent_of_inHand ho') hcov'
  -- A buffer the host finds returned is not in hand.
  · obtain ⟨k, o₁, hk, -, hlent, hid₁, -⟩ := h.found hi
    obtain rfl := h.ledger.inj q j k o o₁ ho hlent (hid.symm.trans hid₁)
    have hheld := h.ledger.inHand_of_covers ho ho' hcov hcov'
    exact h.ledger.tidy.fresh_hand q j hheld.1 (List.mem_of_getElem? hk)

/-- A message that has not been returned is as the host wrote it. -/
theorem At.undisturbed (h : At t s w) (hset : t.setting ≠ .cached) : w.Undisturbed := by
  intro l a ha
  rcases (Tagged.calm_evict Loc.line l w.mem).ram (.byte a) with hsame | ⟨hs, -⟩
  · exact congrArg (BitVec.ofNat 8) hsame
  · exact absurd hs (h.not_stored hset ha)

/-- What the firmware sees of a message in hand. -/
theorem At.sees (h : At t s w) (hset : t.setting ≠ .cached) {a : ℕ} (ha : s.Holds a) :
    w.SeesMessage a := by
  rintro j o i b ho rfl hb hi
  obtain ⟨q', j', o', ho', hcov'⟩ := ha
  have hheld := h.ledger.inHand_of_covers ho ho' (h.ledger.covers_content ho hb) hcov'
  rw [← h.buffers.content hset j o i b ho hb (.inr hi)]
  exact congrArg (BitVec.ofNat 8) (h.buffers.current hset j o i b hheld hb hi)

/-- A byte that is read of a message is the byte of the host. -/
theorem At.reads (h : At t s w) (hset : t.setting ≠ .cached) (o : Op)
    (hok : (exchange t).ok o s) : ReadsMessages o w := by
  cases o with
  | load8 a => exact h.sees hset hok
  | load32 a => exact fun i hi => h.sees hset (hok i hi)
  | _ => trivial

/-- Where the cache is tended, receiving is coherent from any state between callbacks on. -/
theorem Steady.receives (fuel n : ℕ) (hs : Steady false none s) (h : At receiveTerms s w) :
    Receives tendedRules fuel n w := by
  have hset : receiveTerms.setting ≠ .cached := serves_tended.setting
  induction n generalizing s w with
  | zero => exact fun ms hfair => (h.moves hfair).undisturbed hset
  | succ n ih =>
    have hsim := simulates receiveTerms Undisturbed ReadsMessages
      (fun s w h => h.undisturbed hset) fun o s w h hok => h.reads hset o hok
    refine (Does.sure hsim (does_rxCallback (.inl trivial) (fun _ => trivial) serves_tended hs
      fun hecho => by cases hecho) h).mono ?_
    rintro - w' ⟨s', hat', hs', -⟩
    exact ih hs' hat'

/-- Where the cache is tended, what is read of messages is what the host wrote, and no late
write-back alters a buffer that is the host's. -/
theorem receives_tended (hw : Start w) (fuel n : ℕ) : Receives tendedRules fuel n w :=
  hw.steady.receives fuel n (hw.at_opening fun hset => by cases hset)

theorem receives_tended_blank : Receives tendedRules 2 1 (blank true) :=
  receives_tended (start_blank true) 2 1

/-! ### Runs of the receive callback -/

/-- The receive callback is called `n` times. -/
def rxCallbacks (fuel : ℕ) : ℕ → Code Unit
  | 0 => pure ()
  | n + 1 => do
    rpmsgVirtioRxCallback fuel
    rxCallbacks fuel n

/-- Nothing of the host's is altered late at any moment of the moves before an access; and if the
access reads of a message, that is what the host wrote. -/
def Coherent (o : Op) (x : Decision) (w : World) : Prop :=
  (∀ ms, ms <+: x.moves → (w.moves ms).Undisturbed) ∧ ReadsMessages o (w.moves x.moves)

theorem Receives.callbacks {r : Rules} {fuel n : ℕ} (h : Receives r fuel n w) :
    Sure (contract r Undisturbed ReadsMessages) True (rxCallbacks fuel n) (fun _ _ => True) w := by
  induction n generalizing w with
  | zero => exact ⟨h, trivial⟩
  | succ n ih => exact Sure.bind (Sure.mono h fun _ _ h' => ih h')

/-- Receiving is coherent in every run in which the cache is tended whenever a receive buffer is
taken or returned. -/
theorem coherent_of_tended (hw : Start w) (fuel n : ℕ) (xs : ℕ → Decision)
    (htended : (rxCallbacks fuel n).Visits exec (Granted tendedRules) (fun _ => True) w xs) :
    (rxCallbacks fuel n).Visits exec Coherent (Always tendedRules Undisturbed) w xs := by
  have hreceives : Receives tendedRules fuel n w :=
    hw.steady.receives fuel n (hw.at_opening fun hset => by cases hset)
  refine (hreceives.callbacks.visits htended).mono ?_ fun _ h => h
  rintro o x w' ⟨hinv, hok, hgranted⟩
  exact ⟨fun ms hms => hinv ms (hgranted.1.front hms), hok x.moves hgranted.1⟩

/-- Two messages in the same buffer, the second after the answer to the first has been
collected. -/
def requests : ℕ → Decision
  | 0 => { moves := request 0 0x2A }
  | 202 => { moves := [.collect .svq, .collect .rvq] ++ request 1 0x2B }
  | _ => {}

/-- The line of the message is evicted each time before the buffer is returned. -/
def requestsTended : ℕ → Decision
  | 175 | 377 => { moves := [.evict (lineOf (SHMEM_PA + 64))] }
  | i => requests i

/-- The second message has been received and its buffer returned, and the answer carries `b`. -/
def AnsweredWith (b : Byte) (w : World) : Prop :=
  w.seen .rvq = 1 ∧ w.returned .rvq = 1 ∧
    w.ramBytes SHMEM_PA 17 = rpmsgHdr Ept.echo.addr 7 0 1 0 ++ [b]

instance (b : Byte) : DecidablePred (AnsweredWith b) :=
  fun _ => inferInstanceAs (Decidable (_ ∧ _ ∧ _))

theorem coherent_of_tended_requests :
    (rxCallbacks 2 2).Visits exec Coherent (Always tendedRules Undisturbed) (blank true)
      requestsTended ∧
    (rxCallbacks 2 2).Visits exec (Granted tendedRules) (AnsweredWith 0x2B) (blank true)
      requestsTended := by
  have hrun : (rxCallbacks 2 2).Visits exec (Granted tendedRules) (AnsweredWith 0x2B) (blank true)
      requestsTended := by decide +kernel
  exact ⟨coherent_of_tended (start_blank true) 2 2 requestsTended
    (hrun.mono (fun _ _ _ h => h) fun _ _ => trivial), hrun⟩

/-- Nothing in the firmware sees to it that the cache is tended. Where no line is evicted, the
second message is read, and answered, as the first; and its line is still dirty when the buffer has
gone back, so that it overwrites the message later. -/
theorem not_coherent_requests :
    (rxCallbacks 2 2).Visits exec (Granted cachedRules) (AnsweredWith 0x2A) (blank true) requests ∧
    ¬(rxCallbacks 2 2).Visits exec Coherent (Always cachedRules Undisturbed) (blank true)
      requests := by
  refine ⟨by decide +kernel, fun h => ?_⟩
  -- The payload of the message in the buffer the host has back, before and after an eviction.
  have hlate : (rxCallbacks 2 2).Visits exec (fun _ _ _ => True) (fun w =>
      (∃ o ∈ (w.offers .rvq)[1]?, 1 ∈ w.lent .rvq ∧ o.Covers (SHMEM_PA + 80) ∧
        w.ram (.cell (.usedId .rvq (w.seen .rvq % VRING_NUM_BUFFS))) = o.idx) →
      0 < w.returned .rvq → (w.move (.evict (lineOf (SHMEM_PA + 80)))).ramByte (SHMEM_PA + 80) =
        w.ramByte (SHMEM_PA + 80)) (blank true) requests := by
    refine h.mono (fun _ _ _ _ => trivial) ?_
    rintro w hw ⟨o, ho, hlent, hcovers, hid⟩ hreturned
    exact hw [] trivial _ _ ⟨by decide, .inr ⟨.rvq, 1, o, 0, ⟨hlent, ho⟩, hcovers, hreturned, hid⟩⟩
  exact absurd hlate (by decide +kernel)

end C906Firmware
