import C906Firmware.Virtqueue.Runs

/-!
# Notifications

A side that `virtqueue_enable_cb` has told that there is nothing, and that has not been notified
since, has missed nothing that the other side has kicked (`Traffic.Reaches.nothing_missed`): while
it sleeps, as much at most is waiting for it as the other side has not kicked (`Traffic.Watch`).
-/

namespace C906Firmware

open Virtqueue

namespace Traffic

variable {w : Wiring} {s s' : Traffic} {role r : VirtioRole} {a : QueueAct} {o : Option Sight}
  {seen : List Sight} {k : ℕ} {vq vq' : Virtqueue} {ring ring' : Vring}
  {l : Loans Post ℕ} {free : List ℕ} {drawn : List Post} {back : List (Post × ℕ)}

@[simp] theorem other_other (role : VirtioRole) : other (other role) = role := by
  cases role <;> rfl

theorem eq_or_eq_other (role r : VirtioRole) : role = r ∨ role = other r := by
  cases role <;> cases r <;> simp [other]

/-- The field in which a side says whether it is to be notified -/
def bell (eventIdx : Bool) (ring : Vring) : VirtioRole → ℕ
  | .master => if eventIdx then ring.usedEvent else ring.availFlags
  | .slave => if eventIdx then ring.availEvent else ring.usedFlags

/-- The index of the ring from which a side takes -/
def postedIdx (ring : Vring) : VirtioRole → ℕ
  | .master => ring.usedIdx
  | .slave => ring.availIdx

/-- How far a side has got -/
def ownIdx (vq : Virtqueue) : VirtioRole → ℕ
  | .master => vq.vqUsedConsIdx
  | .slave => vq.vqAvailableIdx

/-- How much there is for a side. -/
def waiting (s : Traffic) (role : VirtioRole) : ℕ :=
  sub16 (postedIdx s.ring role) (ownIdx (s.vq role) role)

/-- The side is to be notified of the next thing. -/
def Listens (w : Wiring) (s : Traffic) (role : VirtioRole) : Prop :=
  if w.eventIdx then bell w.eventIdx s.ring role = ownIdx (s.vq role) role
  else bell w.eventIdx s.ring role &&& 1 = 0

/-- The side has filled a slot and not advanced the index. -/
def Filling : Call → Prop
  | .adding .. => True
  | .returning .. => True
  | _ => False

/-- What is known of a side that may be asleep. -/
structure Watch (w : Wiring) (s : Traffic) (role : VirtioRole) : Prop where
  few : (s.vq role).vqQueuedCnt < 2 ^ 16
  filling : Filling (s.call role) → (s.vq role).vqQueuedCnt + 1 < 2 ^ 16
  enabling : s.call role = .enabling → Listens w s role
  asleep : s.asleep role = true →
    Listens w s role ∧ s.waiting role ≤ (s.vq (other role)).vqQueuedCnt

/-! ### What a step changes -/

/-- What a step of a side does that the other side can notice. -/
inductive Effect (w : Wiring) (s s' : Traffic) (r : VirtioRole) : Prop
  | plain (hcnt : (s'.vq r).vqQueuedCnt = (s.vq r).vqQueuedCnt)
      (hidx : postedIdx s'.ring (other r) = postedIdx s.ring (other r))
      (hasleep : s'.asleep (other r) = s.asleep (other r))
  | advance (hcall : Filling (s.call r))
      (hcnt : (s'.vq r).vqQueuedCnt = add16 (s.vq r).vqQueuedCnt 1)
      (hidx : postedIdx s'.ring (other r) = add16 (postedIdx s.ring (other r)) 1)
      (hasleep : s'.asleep (other r) = s.asleep (other r))
  | kick (hcnt : (s'.vq r).vqQueuedCnt = 0)
      (hidx : postedIdx s'.ring (other r) = postedIdx s.ring (other r))
      (hasleep : s'.asleep (other r) =
        (s.asleep (other r) && !(s.vq r).vqRingMustNotify w.eventIdx r s.ring))

/-- What a step of a side does. -/
structure Moves (w : Wiring) (s s' : Traffic) (r : VirtioRole) : Prop where
  otherVq : s'.vq (other r) = s.vq (other r)
  otherCall : s'.call (other r) = s.call (other r)
  otherBell : bell w.eventIdx s'.ring (other r) = bell w.eventIdx s.ring (other r)
  filling : Filling (s'.call r) → (s'.vq r).vqQueuedCnt + 1 < 2 ^ 16
  enabling : s'.call r = .enabling → Listens w s' r
  asleep : s'.asleep r = true → Listens w s' r ∧ s'.waiting r = 0
  effect : Effect w s s' r

/-- The indices are numbers of 16 bits. -/
theorem Books.bounds (h : Books w s l free drawn back) (role : VirtioRole) :
    postedIdx s.ring role < 2 ^ 16 ∧ ownIdx (s.vq role) role < 2 ^ 16 := by
  cases role with
  | master =>
    obtain ⟨i, hfront, hback, -⟩ := h.used
    exact ⟨hback.trans_lt (Nat.mod_lt _ (by decide)), hfront.trans_lt (Nat.mod_lt _ (by decide))⟩
  | slave =>
    obtain ⟨i, hfront, hback, -⟩ := h.avail
    exact ⟨hback.trans_lt (Nat.mod_lt _ (by decide)), hfront.trans_lt (Nat.mod_lt _ (by decide))⟩

/-- Whether a kick notifies, told by what the other side has asked for. -/
theorem mustNotify_eq (eventIdx : Bool) (r : VirtioRole) (vq : Virtqueue) (ring : Vring) :
    vq.vqRingMustNotify eventIdx r ring = if eventIdx then
      vringNeedEvent (bell eventIdx ring (other r)) (postedIdx ring (other r))
        (sub16 (postedIdx ring (other r)) vq.vqQueuedCnt)
      else bell eventIdx ring (other r) &&& 1 = 0 := by
  cases eventIdx with
  | true =>
    cases r <;> simp only [Virtqueue.vqRingMustNotify, bell, other, postedIdx, if_true]
  | false =>
    cases r <;>
    · simp only [Virtqueue.vqRingMustNotify, bell, other, VRING_USED_F_NO_NOTIFY,
        VRING_AVAIL_F_NO_INTERRUPT, Bool.false_eq_true, if_false]
      exact decide_eq_decide.mpr Iff.rfl

/-- A side that listens is notified of what has not been kicked. -/
theorem mustNotify_of_listens (hlistens : Listens w s (other r))
    (hposted : postedIdx s.ring (other r) < 2 ^ 16)
    (hown : ownIdx (s.vq (other r)) (other r) < 2 ^ 16) (hfew : (s.vq r).vqQueuedCnt < 2 ^ 16)
    (hpos : 0 < s.waiting (other r)) (hle : s.waiting (other r) ≤ (s.vq r).vqQueuedCnt) :
    (s.vq r).vqRingMustNotify w.eventIdx r s.ring = true := by
  rw [mustNotify_eq]
  rw [Listens] at hlistens
  by_cases hevent : w.eventIdx = true
  · rw [if_pos hevent] at hlistens ⊢
    rw [hlistens, vringNeedEvent, decide_eq_true_iff]
    simp only [waiting, sub16] at hpos hle ⊢
    omega
  · rw [if_neg hevent] at hlistens ⊢
    exact decide_eq_true hlistens

/-- What one step of a side does to what is known of both. -/
theorem Moves.watch (h : Moves w s s' r) (hbooks : Books w s l free drawn back)
    (hw : ∀ role, Watch w s role) (role : VirtioRole) : Watch w s' role := by
  obtain rfl | rfl := eq_or_eq_other role r
  · refine ⟨?_, h.filling, h.enabling, fun hasleep => ?_⟩
    · obtain ⟨hcnt⟩ | ⟨hcall, hcnt⟩ | ⟨hcnt⟩ := h.effect
      · rw [hcnt]
        exact (hw role).few
      · rw [hcnt]
        exact Nat.mod_lt _ (by decide)
      · rw [hcnt]
        decide
    · obtain ⟨hlistens, hnone⟩ := h.asleep hasleep
      exact ⟨hlistens, hnone ▸ Nat.zero_le _⟩
  · have hother := hw (other r)
    have hlistens : Listens w s (other r) → Listens w s' (other r) := by
      rw [Listens, Listens, h.otherBell, h.otherVq]
      exact id
    refine ⟨h.otherVq ▸ hother.few, ?_, ?_, fun hasleep => ?_⟩
    · rw [h.otherCall, h.otherVq]
      exact hother.filling
    · rw [h.otherCall]
      exact fun hcall => hlistens (hother.enabling hcall)
    · obtain ⟨hposted, hown⟩ := hbooks.bounds (other r)
      have hfew := (hw r).few
      rw [other_other]
      obtain ⟨hcnt, hidx, hsame⟩ | ⟨hcall, hcnt, hidx, hsame⟩ | ⟨hcnt, hidx, hsame⟩ := h.effect
      · obtain ⟨hl, hle⟩ := hother.asleep (hsame ▸ hasleep)
        rw [other_other] at hle
        rw [waiting, hidx, h.otherVq, hcnt]
        exact ⟨hlistens hl, hle⟩
      · obtain ⟨hl, hle⟩ := hother.asleep (hsame ▸ hasleep)
        rw [other_other] at hle
        have hroom := (hw r).filling hcall
        -- Both numbers grow by one, as neither comes round.
        rw [waiting, hidx, h.otherVq, hcnt]
        refine ⟨hlistens hl, ?_⟩
        simp only [waiting, sub16, add16] at hle ⊢
        omega
      · -- A kick after which the side still sleeps has had nothing to tell.
        rw [hsame, Bool.and_eq_true, Bool.not_eq_true'] at hasleep
        obtain ⟨hl, hle⟩ := hother.asleep hasleep.1
        rw [other_other] at hle
        have hnone : s.waiting (other r) = 0 := by
          by_contra hne
          rw [mustNotify_of_listens hl hposted hown hfew (Nat.pos_of_ne_zero hne) hle] at hasleep
          exact Bool.noConfusion hasleep.2
        rw [waiting, hidx, h.otherVq, hcnt]
        exact ⟨hlistens hl, hnone.le⟩

/-! ### Every step -/

theorem busy_some (h : vq.busy = some vq') : vq' = { vq with vqInuse := true } := by
  rw [busy] at h
  split at h
  · cases h
  · exact (Option.some.inj h).symm

/-- Until the index moves, adding a buffer writes descriptors and an element only. -/
theorem addBufferStart_keeps {toPhys : ℕ → ℕ} {bufs : List VirtqueueBuf}
    {readable writable cookie : ℕ} {status : ℤ}
    (h : vq.addBufferStart toPhys bufs readable writable cookie ring = some (status, vq', ring')) :
    vq'.vqQueuedCnt = vq.vqQueuedCnt ∧
      ring' = { ring with desc := ring'.desc, availRing := ring'.availRing } := by
  rw [addBufferStart] at h
  split at h
  · obtain ⟨vq₁, hbusy, h⟩ := Option.map_eq_some_iff.mp h
    cases h
    exact ⟨by rw [busy_some hbusy]; rfl, rfl⟩
  split at h
  · obtain ⟨vq₁, hbusy, h⟩ := Option.map_eq_some_iff.mp h
    cases h
    exact ⟨by rw [busy_some hbusy]; rfl, rfl⟩
  obtain ⟨vq₁, hbusy, h⟩ := Option.bind_eq_some_iff.mp h
  rw [busy_some hbusy] at h
  dsimp only at h
  split at h
  · cases h
  obtain ⟨⟨idx, desc⟩, -, h⟩ := Option.bind_eq_some_iff.mp h
  dsimp only at h
  split at h
  · cases h
  cases h
  exact ⟨rfl, rfl⟩

/-- Looking for a used buffer leaves the count of what was queued alone. -/
theorem getBufferStart_keeps {found : Bool} (h : vq.getBufferStart ring = some (found, vq')) :
    vq'.vqQueuedCnt = vq.vqQueuedCnt := by
  rw [getBufferStart] at h
  split at h
  · cases h
    rfl
  · obtain ⟨vq₁, hbusy, h⟩ := Option.map_eq_some_iff.mp h
    cases h
    rw [busy_some hbusy]

/-- Collecting a used buffer writes descriptors only. -/
theorem getBufferFinish_keeps {x : ℕ × ℕ} (h : vq.getBufferFinish ring = some (x, vq', ring')) :
    vq'.vqQueuedCnt = vq.vqQueuedCnt ∧ ring' = { ring with desc := ring'.desc } := by
  obtain ⟨⟨vq₁, ring₁⟩, hfree, h⟩ := Option.map_eq_some_iff.mp h
  cases h
  rw [vqRingFreeChain] at hfree
  split at hfree
  · cases hfree
  split at hfree
  · cases hfree
  obtain ⟨⟨dp, ndescs⟩, -, hfree⟩ := Option.bind_eq_some_iff.mp hfree
  dsimp only at hfree
  split at hfree
  · cases hfree
  cases hfree
  exact ⟨rfl, rfl⟩

/-- Looking for an available buffer leaves the count of what was queued alone. -/
theorem getAvailableStart_keeps {found : Bool} (h : vq.getAvailableStart ring = some (found, vq')) :
    vq'.vqQueuedCnt = vq.vqQueuedCnt := by
  rw [getAvailableStart] at h
  split at h
  · cases h
    rfl
  · obtain ⟨vq₁, hbusy, h⟩ := Option.map_eq_some_iff.mp h
    cases h
    rw [busy_some hbusy]

/-- Until the index moves, returning a buffer writes its element only. -/
theorem addConsumedStart_keeps {idx len : ℕ} {status : ℤ}
    (h : vq.addConsumedStart idx len ring = some (status, vq', ring')) :
    vq'.vqQueuedCnt = vq.vqQueuedCnt ∧ ring' = { ring with usedRing := ring'.usedRing } := by
  rw [addConsumedStart] at h
  split at h
  · cases h
    exact ⟨rfl, rfl⟩
  · obtain ⟨vq₁, hbusy, h⟩ := Option.map_eq_some_iff.mp h
    cases h
    exact ⟨by rw [busy_some hbusy], rfl⟩

theorem other_ne (role : VirtioRole) : other role ≠ role := by
  cases role <;> exact VirtioRole.noConfusion

/-- A side that makes a call is awake, and the other side is as it was. -/
theorem asleep_put (s : Traffic) (r : VirtioRole) (vq : Virtqueue) (ring : Vring) (call : Call) :
    (s.put r vq ring call).asleep r = false ∧
      (s.put r vq ring call).asleep (other r) = s.asleep (other r) :=
  ⟨Function.update_self _ _ _, Function.update_of_ne (other_ne r) _ _⟩

/-- A step that does not ask for notifications. -/
theorem Effect.moves {call : Call} {held : List ℕ}
    (he : Effect w s { s.put r vq ring call with held := held } r)
    (hbell : bell w.eventIdx ring (other r) = bell w.eventIdx s.ring (other r))
    (hcall : call ≠ .enabling) (hfilling : Filling call → vq.vqQueuedCnt + 1 < 2 ^ 16) :
    Moves w s { s.put r vq ring call with held := held } r where
  otherVq := by cases r <;> rfl
  otherCall := by cases r <;> rfl
  otherBell := hbell
  filling := by
    dsimp only
    rw [put_call, put_vq]
    exact hfilling
  enabling h := by
    dsimp only at h
    rw [put_call] at h
    exact absurd h hcall
  asleep h := by
    dsimp only at h
    rw [(asleep_put s r vq ring call).1] at h
    cases h
  effect := he

/-- A step that the other side cannot notice. -/
theorem moves_plain {call : Call} (held : List ℕ) (hcnt : vq.vqQueuedCnt = (s.vq r).vqQueuedCnt)
    (hidx : postedIdx ring (other r) = postedIdx s.ring (other r))
    (hbell : bell w.eventIdx ring (other r) = bell w.eventIdx s.ring (other r))
    (hcall : call ≠ .enabling) (hfilling : Filling call → vq.vqQueuedCnt + 1 < 2 ^ 16) :
    Moves w s { s.put r vq ring call with held := held } r :=
  Effect.moves (.plain (by dsimp only; rw [put_vq, hcnt]) hidx (asleep_put s r vq ring call).2)
    hbell hcall hfilling

theorem kick_moves (hact : s.act w (.kick r) = some (o, s')) : Moves w s s' r := by
  obtain ⟨⟨must, vq⟩, hkick, h⟩ := Option.map_eq_some_iff.mp hact
  obtain ⟨vq₁, hbusy, hkick⟩ := Option.map_eq_some_iff.mp hkick
  have hvq := busy_some hbusy
  obtain ⟨hmust, rfl⟩ := Prod.mk.inj hkick
  have hmust' : (s.vq r).vqRingMustNotify w.eventIdx r s.ring = must := by
    rw [← hmust, mustNotify_eq, mustNotify_eq, hvq]
  have hother := asleep_put s r { vq₁ with vqQueuedCnt := 0 }.idle s.ring .idle
  -- Without a notification the other side is left as it is; with one it is woken.
  cases must with
  | false =>
    cases h
    refine Effect.moves (.kick ?_ rfl ?_) rfl (by simp) fun h => h.elim
    · rw [put_vq]
      rfl
    · rw [hother.2, hmust', Bool.not_false, Bool.and_true]
  | true =>
    cases h
    exact {
      otherVq := by cases r <;> rfl
      otherCall := by cases r <;> rfl
      otherBell := rfl
      filling := by
        dsimp only
        rw [put_call]
        exact fun h => h.elim
      enabling := by
        dsimp only
        rw [put_call]
        exact fun h => Call.noConfusion h
      asleep := by
        dsimp only
        rw [Function.update_of_ne (other_ne r).symm, hother.1]
        exact fun h => Bool.noConfusion h
      effect := .kick (by dsimp only; rw [put_vq]; rfl) rfl
        (by rw [hmust', Bool.not_true, Bool.and_false]; exact Function.update_self _ _ _) }

/-- Whether a side is to be notified is clear before it looks. -/
theorem listens_enableStart (eventIdx : Bool) (r : VirtioRole) (vq : Virtqueue) (ring : Vring) :
    if eventIdx then bell eventIdx (vq.enableStart eventIdx r ring) r = ownIdx vq r
    else bell eventIdx (vq.enableStart eventIdx r ring) r &&& 1 = 0 := by
  have hclear (x : ℕ) : x &&& (2 ^ 16 - 1 - 1) &&& 1 = 0 := by
    rw [Nat.and_assoc]
    exact Nat.and_zero x
  cases eventIdx <;> cases r
  exacts [hclear _, hclear _, rfl, rfl]

theorem enable_moves (hact : s.act w (.enable r) = some (o, s')) : Moves w s s' r := by
  cases hact
  have hother := asleep_put s r (s.vq r) ((s.vq r).enableStart w.eventIdx r s.ring) .enabling
  exact {
    otherVq := by cases r <;> rfl
    otherCall := by cases r <;> rfl
    otherBell := by
      rw [put_ring]
      cases w.eventIdx <;> cases r <;> rfl
    filling := by
      rw [put_call]
      exact fun h => h.elim
    enabling := fun _ => by
      rw [Listens, put_ring, put_vq]
      exact listens_enableStart w.eventIdx r (s.vq r) s.ring
    asleep := by
      rw [hother.1]
      exact fun h => Bool.noConfusion h
    effect := .plain (by rw [put_vq]) (by
      rw [put_ring]
      cases w.eventIdx <;> cases r <;> rfl) hother.2 }

/-- What the side finds pending is what waits for it. -/
theorem pending_waiting {n : ℕ} (h : (s.vq r).pending r s.ring = some n) : s.waiting r = n := by
  cases r <;>
  · rw [Virtqueue.pending] at h
    split at h
    · exact Option.some.inj h
    · cases h

/-- Where the second look finds nothing, nothing waits. -/
theorem enableFinish_none (h : (s.vq r).enableFinish r s.ring = some false) : s.waiting r = 0 := by
  obtain ⟨n, hpending, hn⟩ := Option.map_eq_some_iff.mp h
  rw [decide_eq_false_iff_not, Nat.not_lt, Nat.le_zero] at hn
  rw [pending_waiting hpending, hn]

/-- A side goes to sleep only after a look that found nothing. -/
theorem check_moves (hu : s.Allowed (.check r)) (hact : s.act w (.check r) = some (o, s'))
    (hw : Watch w s r) : Moves w s s' r := by
  obtain ⟨more, hmore, h⟩ := Option.map_eq_some_iff.mp hact
  cases h
  exact {
    otherVq := by cases r <;> rfl
    otherCall := by cases r <;> rfl
    otherBell := rfl
    filling := by
      dsimp only
      rw [put_call]
      exact fun h => h.elim
    enabling := by
      dsimp only
      rw [put_call]
      exact fun h => Call.noConfusion h
    asleep := fun hasleep => by
      dsimp only at hasleep
      rw [Function.update_self, Bool.not_eq_true'] at hasleep
      subst hasleep
      have hlistens := hw.enabling hu
      have hnone := enableFinish_none hmore
      rw [Listens] at hlistens ⊢
      rw [waiting] at hnone ⊢
      dsimp only
      rw [put_ring, put_vq]
      exact ⟨hlistens, hnone⟩
    effect := .plain (by dsimp only; rw [put_vq]) rfl
      (Function.update_of_ne (other_ne r) _ _) }

/-- Who takes a step. -/
def actor : QueueAct → VirtioRole
  | .add .. | .publish | .look | .collect => .master
  | .peek | .take | .giveBack .. | .announce => .slave
  | .kick role | .enable role | .check role | .disable role => role

/-- What every step does. -/
theorem act_moves (hu : s.Allowed a) (hact : s.act w a = some (o, s'))
    (hw : ∀ role, Watch w s role) : Moves w s s' (actor a) := by
  -- Publishing and announcing advance an index, kicks and requests to be notified have their own
  -- lemmas, and the other calls move nothing.
  cases a with
  | add bufs readable writable cookie =>
    obtain ⟨⟨status, vq, ring⟩, hstart, h⟩ := Option.map_eq_some_iff.mp hact
    cases h
    obtain ⟨hcnt, hring⟩ := addBufferStart_keeps hstart
    refine moves_plain s.held hcnt ?_ ?_ ?_ fun _ => hcnt ▸ hu.2.2.2.2.2
    · rw [hring]
      rfl
    · rw [hring]
      rfl
    · split <;> simp
  | publish =>
    obtain ⟨bufs, readable, cookie, hcall⟩ := hu
    rw [act, hcall] at hact
    cases hact
    refine Effect.moves (.advance ?_ rfl rfl rfl) rfl (by simp) (fun h => h.elim)
    rw [hcall]
    trivial
  | look =>
    obtain ⟨⟨found, vq⟩, hstart, h⟩ := Option.map_eq_some_iff.mp hact
    cases h
    refine moves_plain s.held (getBufferStart_keeps hstart) rfl rfl ?_ ?_
    · split <;> simp
    · split <;> exact fun h => h.elim
  | collect =>
    obtain ⟨⟨x, vq, ring⟩, hfinish, h⟩ := Option.map_eq_some_iff.mp hact
    cases h
    obtain ⟨hcnt, hring⟩ := getBufferFinish_keeps hfinish
    refine moves_plain s.held hcnt ?_ ?_ (by simp) fun h => h.elim
    · rw [hring]
      rfl
    · rw [hring]
      rfl
  | peek =>
    obtain ⟨⟨found, vq⟩, hstart, h⟩ := Option.map_eq_some_iff.mp hact
    cases h
    refine moves_plain s.held (getAvailableStart_keeps hstart) rfl rfl ?_ ?_
    · split <;> simp
    · split <;> exact fun h => h.elim
  | take =>
    cases hact
    exact moves_plain _ rfl rfl rfl (by simp) fun h => h.elim
  | giveBack idx len =>
    obtain ⟨⟨status, vq, ring⟩, hstart, h⟩ := Option.map_eq_some_iff.mp hact
    cases h
    obtain ⟨hcnt, hring⟩ := addConsumedStart_keeps hstart
    refine moves_plain s.held hcnt ?_ ?_ ?_ fun _ => hcnt ▸ hu.2.2
    · rw [hring]
      rfl
    · rw [hring]
      rfl
    · split <;> simp
  | announce =>
    obtain ⟨idx, len, hcall⟩ := hu
    rw [act, hcall] at hact
    cases hact
    refine Effect.moves (.advance ?_ rfl rfl rfl) rfl (by simp) (fun h => h.elim)
    rw [hcall]
    trivial
  | kick role => exact kick_moves hact
  | enable role => exact enable_moves hact
  | check role => exact check_moves hu hact (hw role)
  | disable role =>
    obtain ⟨⟨vq, ring⟩, hdisable, h⟩ := Option.map_eq_some_iff.mp hact
    cases h
    obtain ⟨vq₁, hbusy, hdisable⟩ := Option.map_eq_some_iff.mp hdisable
    cases hdisable
    refine moves_plain s.held ?_ ?_ ?_ (by simp) fun h => h.elim
    · rw [busy_some hbusy]
      rfl
    · cases w.eventIdx <;> cases role <;> rfl
    · cases w.eventIdx <;> cases role <;> rfl

/-! ### Every run -/

theorem watch_created (k : ℕ) (role : VirtioRole) : Watch w (created (2 ^ k)) role := by
  have hvq : (created (2 ^ k)).vq role =
      { allocated with vqNentries := 2 ^ k, vqFreeCnt := 2 ^ k } :=
    congrArg (fun x => x.2.1) (virtqueueCreate_pow role k)
  exact {
    few := by
      rw [hvq]
      exact Nat.two_pow_pos 16
    filling := fun h => h.elim
    enabling := fun h => Call.noConfusion h
    asleep := fun h => Bool.noConfusion h }

theorem Reaches.watch (h : Reaches w (2 ^ k) s seen) (hk : k ≤ 15) (role : VirtioRole) :
    Watch w s role := by
  induction h generalizing role with
  | start => exact watch_created k role
  | step h hu hact ih =>
    obtain ⟨ds, l, free, drawn, back, -, -, hbooks⟩ := h.deals hk
    exact (act_moves hu hact ih).watch hbooks ih role

/-- While a side sleeps, no more is waiting for it than the other side has not kicked. -/
theorem Reaches.nothing_missed (h : Reaches w (2 ^ k) s seen) (hk : k ≤ 15)
    (hasleep : s.asleep role = true) :
    ∃ n ≤ (s.vq (other role)).vqQueuedCnt, (s.vq role).pending role s.ring = some n := by
  obtain ⟨ds, l, free, drawn, back, -, -, hbooks⟩ := h.deals hk
  have hpending := hbooks.pending role
  have hwaiting := ((h.watch hk role).asleep hasleep).2
  exact ⟨_, pending_waiting hpending ▸ hwaiting, hpending⟩

/-- The slave sleeps, and a buffer has been made available that has not been kicked. -/
theorem nothing_missed_unkicked : ∃ s, Reaches sameAddresses (2 ^ 1) s [.posted [⟨64, 16⟩] 0 7] ∧
    s.asleep .slave = true ∧ (s.vq .slave).pending .slave s.ring = some 1 ∧
    ∃ n ≤ (s.vq .master).vqQueuedCnt, (s.vq .slave).pending .slave s.ring = some n := by
  have henable := Reaches.step (n := 2 ^ 1) (a := .enable .slave) (w := sameAddresses) .start rfl
    rfl
  have hcheck := henable.step (a := .check .slave) (o := none) rfl (by
    rw [act, show enableFinish .slave (put _ _ _ _ _ |>.vq .slave) _ = some false by decide +kernel]
    rfl)
  have hadd := hcheck.step (a := .add [⟨64, 16⟩] 0 1 7)
    ⟨rfl, rfl, by decide, by decide, fun _ => by decide, by decide⟩ rfl
  have hpublish := hadd.step (a := .publish) ⟨_, _, _, rfl⟩ rfl
  obtain ⟨s, hreaches, hasleep, hpending⟩ :
      ∃ s, Reaches sameAddresses (2 ^ 1) s [.posted [⟨64, 16⟩] 0 7] ∧ s.asleep .slave = true ∧
        (s.vq .slave).pending .slave s.ring = some 1 := ⟨_, hpublish, rfl, by decide +kernel⟩
  exact ⟨s, hreaches, hasleep, hpending, hreaches.nothing_missed (by decide) hasleep⟩

end Traffic

end C906Firmware
