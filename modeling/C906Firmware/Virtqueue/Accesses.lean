import C906Firmware.Interaction.Run
import C906Firmware.Model.Init
import C906Firmware.Model.Vring

/-!
# The using side, access by access

The side that uses buffers is modelled twice: access by access as the firmware runs it
(`Model/Virtqueue.lean`, and `Model/Init.lean` for its creation), and as functions of a queue and a
ring in two steps each, so that the other side may move in between (`Model/Vring.lean`). Where
nothing moves in between, the two agree: a run of the accesses, seen as a queue and a ring, is the
two steps in a row (`Solo.run_create`, `Solo.run_getAvailable`, `Solo.run_addConsumed`,
`Solo.run_kick`, `Solo.run_disableCb`).
-/

namespace C906Firmware

open Interaction

/-! ### Whole calls -/

namespace Virtqueue

/-- Both steps of `virtqueue_get_available_buffer`; there is no buffer where the address
translates to the null pointer. -/
def getAvailable (toVirt : ℕ → ℕ) (vq : Virtqueue) (r : Vring) :
    Option (Option (ℕ × ℕ × ℕ) × Virtqueue × Vring) :=
  (vq.getAvailableStart r).map fun (found, vq) =>
    if found then
      let (b, vq) := vq.getAvailableFinish toVirt r
      (if b.1 = 0 then none else some b, vq, r)
    else (none, vq, r)

/-- Both steps of `virtqueue_add_consumed_buffer`. -/
def addConsumed (headIdx len : ℕ) (vq : Virtqueue) (r : Vring) : Option (ℤ × Virtqueue × Vring) :=
  (vq.addConsumedStart headIdx len r).map fun (ret, vq, r) =>
    if ret = VQUEUE_SUCCESS then (ret, vq.addConsumedFinish r) else (ret, vq, r)

end Virtqueue

/-! ### The state while one side runs alone -/

/-- Private variables and ring fields, which nobody else writes meanwhile, and whether the mailbox
has been used to notify the other side. -/
structure Solo where
  var : Var → ℕ
  cell : Cell → ℕ
  rung : Bool

namespace Solo

/-- What each access does. -/
def exec : (o : Op) → Answer → Solo → Ret o × Solo
  | .get v, _, s => (s.var v, s)
  | .set v n, _, s => ((), { s with var := Function.update s.var v n })
  | .load c, _, s => (s.cell c, s)
  | .store c n, _, s => ((), { s with cell := Function.update s.cell c n })
  | .readl .txMsgStatus, x, s => (x.word, { s with rung := true })
  | o, x, s => (x.at o, s)

/-- The queue, with what the using side does not look at as in `vq`. -/
def queue (vq : Virtqueue) (q : Vq) (s : Solo) : Virtqueue :=
  { vq with
    vqNentries := VRING_NUM_BUFFS
    vqQueuedCnt := s.var (.vqQueuedCnt q)
    vqAvailableIdx := s.var (.vqAvailableIdx q)
    vqInuse := s.var (.vqInuse q) ≠ 0 }

/-- The ring, with what the using side does not look at as in `r`. -/
def ring (r : Vring) (q : Vq) (s : Solo) : Vring :=
  { r with
    desc := fun i => { r.desc i with addr := s.cell (.descAddr q i), len := s.cell (.descLen q i) }
    availFlags := s.cell (.availFlags q)
    availIdx := s.cell (.availIdx q)
    availRing := fun i => s.cell (.availRing q i)
    usedFlags := s.cell (.usedFlags q)
    usedIdx := s.cell (.usedIdx q)
    usedRing := fun i => (s.cell (.usedId q i), s.cell (.usedLen q i)) }

/-- `virtqueue_phys_to_virt` -/
def toVirt (phys : ℕ) : ℕ := if InShm phys then phys else 0

variable {s : Solo} {vq : Virtqueue} {r : Vring} {q : Vq}

/-- What a run of the rest comes to, a run of the whole comes to. -/
theorem run_bind {α β : Type} {p : Code α} {f : α → Code β} {P : Option (β × Solo) → Prop}
    (h : Total exec p (fun a s' => ∀ xs, P ((f a).run exec s' xs)) s) (xs : ℕ → Answer) :
    P ((p >>= f).run exec s xs) := by
  obtain ⟨a, s', hrun, hP⟩ := h.run xs
  rw [Prog.run_bind_of_run hrun]
  exact hP _

/-- Cache maintenance does not show, as the ring is looked at directly. -/
theorem total_invalidate (c : Cell) (size : ℕ) :
    Total exec (vringInvalidate c size) (fun _ s' => s' = s) s := by
  unfold vringInvalidate metalCacheInvalidate
  split
  · exact fun _ => rfl
  · refine Total.forEach (P := fun _ s' => s' = s) (fun _ _ _ h => ?_) rfl
    exact fun _ => h

theorem total_flush (c : Cell) (size : ℕ) :
    Total exec (vringFlush c size) (fun _ s' => s' = s) s := by
  unfold vringFlush metalCacheFlush
  split
  · exact fun _ => rfl
  · refine Total.forEach (P := fun _ s' => s' = s) (fun _ _ _ h => ?_) rfl
    exact fun _ => h

/-- The queue and the ring are the same. -/
def Same (s s' : Solo) : Prop := s'.var = s.var ∧ s'.cell = s.cell

/-- `msgbox_send` ends, and leaves the queue alone. -/
theorem total_send (data : Word) :
    Total exec (msgboxSend data) (fun _ s' => Same s s' ∧ s'.rung = true) s := by
  have hwait : ∀ retry s₀, Same s s₀ →
      Total exec (msgboxSendWait (retry + 1)) (fun _ s' => Same s s' ∧ s'.rung = true) s₀ := by
    intro retry
    induction retry with
    | zero =>
      intro s₀ hs
      simp only [msgboxSendWait, regBitsGet, Prog.perform_bind, Prog.act_bind, Prog.pure_eq_ret,
        Prog.ret_bind, total_act, total_ite]
      exact fun x => ⟨fun _ => ⟨hs, rfl⟩, fun _ _ => ⟨hs, rfl⟩⟩
    | succ retry ih =>
      intro s₀ hs
      rw [msgboxSendWait]
      simp only [regBitsGet, Prog.perform_bind, Prog.act_bind, Prog.pure_eq_ret, Prog.ret_bind,
        total_act, total_ite]
      exact fun x => ⟨fun _ => ⟨hs, rfl⟩, fun _ _ => ih _ hs⟩
  refine Total.bind ((hwait 4999 s ⟨rfl, rfl⟩).mono fun retry s' hs => ?_)
  split
  · exact hs
  · exact fun _ => hs

/-- **`virtqueue_create`**, which leaves the ring alone on this side. The count of free descriptors
is the other side's. -/
theorem run_create (xs : ℕ → Answer) :
    ((virtqueueCreate q).run exec s xs).map
        (fun b => (b.2.queue { vq with vqFreeCnt := VRING_NUM_BUFFS } q, b.2.ring r q)) =
      some (Virtqueue.virtqueueCreate .slave VRING_NUM_BUFFS (s.queue vq q) (s.ring r q)).2 := by
  simp [virtqueueCreate, vringInit, set, Prog.perform, Virtqueue.virtqueueCreate, VRING_NUM_BUFFS,
    queue, ring, Prog.run, exec]

/-- **`virtqueue_get_available_buffer`**: the buffer, its descriptor and its length, or nothing;
a queue in use stops both. -/
theorem run_getAvailable (xs : ℕ → Answer) :
    ((virtqueueGetAvailableBuffer q).run exec s xs).map
        (fun b => (b.1.map fun b => (b.addr, b.idx, b.len), b.2.queue vq q, b.2.ring r q)) =
      (s.queue vq q).getAvailable toVirt (s.ring r q) := by
  refine run_bind (P := fun o => o.map _ = _) ((total_invalidate _ _).mono ?_) xs
  rintro - s rfl xs
  simp only [get, set, Prog.perform_bind, vqueueBusy, Prog.run, exec]
  by_cases heq : s.var (.vqAvailableIdx q) = s.cell (.availIdx q)
  · simp [Virtqueue.getAvailable, Virtqueue.getAvailableStart, queue, ring, heq, Prog.run]
  by_cases hbusy : s.var (.vqInuse q) = 0
  · simp only [heq, if_false, Prog.act_bind, Prog.run, exec, hbusy, if_true, Prog.perform_bind]
    refine run_bind (P := fun o => o.map _ = _) ((total_invalidate _ _).mono ?_) _
    rintro - _ rfl xs
    simp only [Prog.run, exec]
    refine run_bind (P := fun o => o.map _ = _) ((total_invalidate _ _).mono ?_) _
    rintro - _ rfl xs
    simp only [Prog.run, exec, virtqueuePhysToVirt, get, Prog.perform_bind, Prog.act_bind,
      vqueueIdle, set, Prog.pure_eq_ret, Prog.ret_bind]
    have hnull : ∀ a, InShm a → a ≠ 0 := fun a ha => by
      have hlo := ha.1
      rw [SHMEM_PA] at hlo
      omega
    simp [Virtqueue.getAvailable, Virtqueue.getAvailableStart, Virtqueue.busy,
      Virtqueue.getAvailableFinish, Virtqueue.idle, queue, ring, heq, hbusy, toVirt]
    refine ⟨?_, rfl⟩
    by_cases hin : InShm (s.cell (.descAddr q
        (s.cell (.availRing q (s.var (.vqAvailableIdx q) &&& VRING_NUM_BUFFS - 1)))))
    · simp [hin, hnull _ hin]
    · simp [hin]
  · simp [Virtqueue.getAvailable, Virtqueue.getAvailableStart, Virtqueue.busy, queue, ring, heq,
      hbusy, Prog.run, exec]

/-- **`virtqueue_add_consumed_buffer`** -/
theorem run_addConsumed (headIdx len : ℕ) (xs : ℕ → Answer) :
    ((virtqueueAddConsumedBuffer q headIdx len).run exec s xs).map
        (fun b => (b.1, b.2.queue vq q, b.2.ring r q)) =
      ((s.queue vq q).addConsumed headIdx len (s.ring r q)).map
        fun b => (decide (b.1 = VQUEUE_SUCCESS), b.2) := by
  rw [virtqueueAddConsumedBuffer]
  by_cases hlarge : VRING_NUM_BUFFS < headIdx
  · simp [hlarge, Virtqueue.addConsumed, Virtqueue.addConsumedStart, queue, Prog.run,
      ERROR_VRING_NO_BUFF, VQUEUE_SUCCESS]
  simp only [hlarge, if_false, vqueueBusy, get, Prog.perform_bind, Prog.act_bind, Prog.run, exec]
  by_cases hbusy : s.var (.vqInuse q) = 0
  · simp only [hbusy, if_true, set, Prog.perform_bind, Prog.run, exec]
    refine run_bind (P := fun o => o.map _ = _) ((total_flush _ _).mono ?_) _
    rintro - _ rfl xs
    simp only [Prog.run, exec]
    refine run_bind (P := fun o => o.map _ = _) ((total_flush _ _).mono ?_) _
    rintro - _ rfl xs
    simp only [Prog.run, exec, vqueueIdle, set, Prog.perform_bind]
    simp [Virtqueue.addConsumed, Virtqueue.addConsumedStart, Virtqueue.addConsumedFinish,
      Virtqueue.busy, Virtqueue.idle, queue, ring, hbusy, hlarge, Prog.run]
    refine ⟨rfl, rfl, funext fun i => ?_⟩
    by_cases hi : i = s.cell (.usedIdx q) &&& VRING_NUM_BUFFS - 1 <;>
      simp [hi]
  · simp [Virtqueue.addConsumed, Virtqueue.addConsumedStart, Virtqueue.busy, queue, hlarge,
      hbusy, Prog.run]

/-- **`virtqueue_kick`**: the mailbox is used where the flags of the available ring ask for it. -/
theorem run_kick (xs : ℕ → Answer) :
    ((virtqueueKick q).run exec s xs).map (fun b => (b.2.rung, b.2.queue vq q, b.2.ring r q)) =
      ((s.queue vq q).virtqueueKick false .slave (s.ring r q)).map
        fun b => (s.rung || b.1, b.2, s.ring r q) := by
  simp only [virtqueueKick, vqueueBusy, get, Prog.perform_bind, Prog.act_bind, Prog.run, exec]
  by_cases hbusy : s.var (.vqInuse q) = 0
  · simp only [hbusy, if_true, set, Prog.perform_bind, Prog.run, exec, vqRingMustNotify,
      bind_assoc]
    refine run_bind (P := fun o => o.map _ = _) ((total_invalidate _ _).mono ?_) _
    rintro - _ rfl xs
    simp only [Prog.act_bind, Prog.run, exec, Prog.pure_eq_ret, Prog.ret_bind]
    by_cases hmust : s.cell (.availFlags q) &&& VRING_AVAIL_F_NO_INTERRUPT = 0
    · simp only [hmust, decide_true, if_true, vqRingNotify, rprocVirtioVirtqueueNotify, get,
        Prog.perform_bind, Prog.act_bind, Prog.run, exec, remoteprocVirtioNotify,
        platformRprocNotify, bind_assoc]
      refine run_bind (P := fun o => o.map _ = _) ((total_send _).mono ?_) _
      rintro - s' ⟨⟨hvar, hcell⟩, hrung⟩ xs
      simp [vqueueIdle, set, Prog.perform, Virtqueue.virtqueueKick, Virtqueue.vqRingMustNotify,
        Virtqueue.busy, Virtqueue.idle, queue, ring, hbusy, hmust, hvar, hcell, hrung, Prog.run,
        exec]
    · simp [hmust, vqueueIdle, set, Prog.perform, Virtqueue.virtqueueKick,
        Virtqueue.vqRingMustNotify, Virtqueue.busy, Virtqueue.idle, queue, ring, hbusy, Prog.run,
        exec]
  · simp [Virtqueue.virtqueueKick, Virtqueue.busy, queue, hbusy, Prog.run]

/-- **`virtqueue_disable_cb`** -/
theorem run_disableCb (xs : ℕ → Answer) :
    ((virtqueueDisableCb q).run exec s xs).map (fun b => (b.2.queue vq q, b.2.ring r q)) =
      (s.queue vq q).virtqueueDisableCb false .slave (s.ring r q) := by
  simp only [virtqueueDisableCb, vqueueBusy, get, Prog.perform_bind, Prog.act_bind, Prog.run, exec]
  by_cases hbusy : s.var (.vqInuse q) = 0
  · simp only [hbusy, if_true, set, Prog.perform_bind, Prog.run, exec]
    refine run_bind (P := fun o => o.map _ = _) ((total_flush _ _).mono ?_) _
    rintro - _ rfl xs
    simp [vqueueIdle, set, Prog.perform, Virtqueue.virtqueueDisableCb, Virtqueue.busy,
      Virtqueue.idle, queue, ring, hbusy, Prog.run, exec]
  · simp [Virtqueue.virtqueueDisableCb, Virtqueue.busy, queue, hbusy, Prog.run]

end Solo

end C906Firmware
