import C906Firmware.Interaction.Run
import C906Firmware.Model.Footprint

/-!
# Kicks after a send

`rpmsg_send` publishes the message in the used ring and then kicks the queue, which writes the
notification id to the transmit FIFO unless the host has suppressed notifications. What
`msgbox_send` returns is dropped on the way up, and `virtqueue_kick` resets the pending count
whatever has happened: a send that found the FIFO full 5000 times returns its length, with no
word written and none owed. `notified_iff` says exactly when a send has notified the peer.

One call is run by itself; every answer of the shared memory and of the mailbox, at each
access, is the environment's.
-/

namespace C906Firmware

open Interaction

/-- What a call does that the host may notice, and what it finds. -/
inductive SendEvent
  /-- The message-status register has been read. -/
  | status (v : Word)
  /-- The flags of the available ring of the send queue have been read. -/
  | flags (n : ℕ)
  /-- The used index of the send queue has been advanced. -/
  | published
  /-- A word has been written to the transmit FIFO. -/
  | word (v : Word)
  deriving DecidableEq, Repr

namespace SendEvent

/-- The register showed a free slot. -/
def Room : SendEvent → Prop
  | .status v => ((v >>> MSG_NUM_SHIFT) &&& MSG_NUM_MASK) < fifoDepth
  | _ => False

instance : DecidablePred Room
  | .status _ => inferInstanceAs (Decidable (_ < _))
  | .flags _ => isFalse id
  | .published => isFalse id
  | .word _ => isFalse id

/-- The host has suppressed notifications. -/
def Suppresses : SendEvent → Prop
  | .flags n => n &&& VRING_AVAIL_F_NO_INTERRUPT ≠ 0
  | _ => False

instance : DecidablePred Suppresses
  | .flags _ => inferInstanceAs (Decidable (_ ≠ _))
  | .status _ => isFalse id
  | .published => isFalse id
  | .word _ => isFalse id

end SendEvent

/-- The private variables, and what the call has done so far. -/
structure SendState where
  vars : Var → ℕ
  log : List SendEvent

namespace SendState

/-- One more event. -/
def note (k : SendState) (e : SendEvent) : SendState := { k with log := k.log ++ [e] }

/-- What each access does to the state; the environment has an answer for every access. -/
def exec : (o : Op) → (Op → Answer) → SendState → Ret o × SendState
  | .get v, _, k => (k.vars v, k)
  | .set v n, _, k => ((), { k with vars := Function.update k.vars v n })
  | .readl .txMsgStatus, x, k =>
    ((x (.readl .txMsgStatus)).word, k.note (.status (x (.readl .txMsgStatus)).word))
  | .load (.availFlags .svq), x, k =>
    ((x (.load (.availFlags .svq))).nat, k.note (.flags (x (.load (.availFlags .svq))).nat))
  | .store (.usedIdx .svq) _, _, k => ((), k.note .published)
  | .writel .txFifo v, _, k => ((), k.note (.word v))
  | o, x, k => ((x o).at o, k)

/-- Some read of the occupancy of the FIFO showed a free slot. -/
def Room (k : SendState) : Prop := ∃ e ∈ k.log, SendEvent.Room e

/-- The host had suppressed notifications when the call looked. -/
def Suppressed (k : SendState) : Prop := ∃ e ∈ k.log, SendEvent.Suppresses e

/-- The word of the notification id has been written after the used index was advanced. -/
def Notified (id : ℕ) (k : SendState) : Prop :=
  [.published, .word (BitVec.ofNat 32 id)].Sublist k.log

/-- The peer has been notified, or a kick is still owed. -/
def NotifiedOrOwed (id : ℕ) (k : SendState) : Prop :=
  k.Notified id ∨ 0 < k.vars (.vqQueuedCnt .svq)

instance (k : SendState) : Decidable k.Room := inferInstanceAs (Decidable (∃ e ∈ k.log, _))

instance (k : SendState) : Decidable k.Suppressed := inferInstanceAs (Decidable (∃ e ∈ k.log, _))

instance (id : ℕ) (k : SendState) : Decidable (k.Notified id) :=
  inferInstanceAs (Decidable (List.Sublist _ _))

instance (id : ℕ) (k : SendState) : Decidable (k.NotifiedOrOwed id) :=
  inferInstanceAs (Decidable (_ ∨ _))

/-! ### Up to the kick -/

/-- The access changes nothing that the kick depends on. -/
def Quiet : Op → Prop
  | .readl r => r ≠ .txMsgStatus
  | .writel r _ => r ≠ .txFifo
  | .load c => c ≠ .availFlags .svq
  | .store c _ => c ≠ .usedIdx .svq
  | .set v _ => v ≠ .notifyId .svq ∧ v ≠ .vqQueuedCnt .svq
  | _ => True

/-- Nothing but publications has happened, and the notification id is `id`. -/
structure Silent (id : ℕ) (k : SendState) : Prop where
  notifyId : k.vars (.notifyId .svq) = id
  log : ∀ e ∈ k.log, e = .published

/-- What the kick leaves: it has written the word exactly if it saw a free slot. -/
structure Kicked (id : ℕ) (k : SendState) : Prop where
  written : ¬k.Suppressed → (k.Notified id ↔ k.Room)
  queued : k.vars (.vqQueuedCnt .svq) = 0

variable {id : ℕ} {k : SendState} {α : Type}

/-- A quiet access keeps the log, the notification id and the pending count. -/
theorem exec_quiet {o : Op} (ho : Quiet o) (x : Op → Answer) (k : SendState) :
    (exec o x k).2.log = k.log ∧
      (exec o x k).2.vars (.notifyId .svq) = k.vars (.notifyId .svq) ∧
      (exec o x k).2.vars (.vqQueuedCnt .svq) = k.vars (.vqQueuedCnt .svq) := by
  cases o with
  | readl r =>
    cases r with
    | txMsgStatus => exact absurd rfl ho
    | _ => exact ⟨rfl, rfl, rfl⟩
  | writel r v =>
    cases r with
    | txFifo => exact absurd rfl ho
    | _ => exact ⟨rfl, rfl, rfl⟩
  | load c =>
    rcases c with - | - | (- | -) | - | - | - | - | - | - | - | - | - | - | -
    all_goals first | exact ⟨rfl, rfl, rfl⟩ | exact absurd rfl ho
  | store c n =>
    rcases c with - | - | - | - | - | - | (- | -) | - | - | - | - | - | - | -
    all_goals first | exact ⟨rfl, rfl, rfl⟩ | exact absurd rfl ho
  | set v n =>
    exact ⟨rfl, Function.update_of_ne (Ne.symm ho.1) _ _, Function.update_of_ne (Ne.symm ho.2) _ _⟩
  | _ => exact ⟨rfl, rfl, rfl⟩

theorem Silent.quiet {o : Op} (ho : Quiet o) (x : Op → Answer) (h : Silent id k) :
    Silent id (exec o x k).2 := by
  obtain ⟨hlog, hid, -⟩ := exec_quiet ho x k
  exact ⟨hid.trans h.notifyId, hlog ▸ h.log⟩

theorem Kicked.quiet {o : Op} (ho : Quiet o) (x : Op → Answer) (h : Kicked id k) :
    Kicked id (exec o x k).2 := by
  obtain ⟨hlog, -, hqueued⟩ := exec_quiet ho x k
  refine ⟨?_, hqueued.trans h.queued⟩
  simpa only [Suppressed, Notified, Room, hlog] using h.written

theorem BufferOp.quiet {o : Op} (ho : BufferOp o) : Quiet o := by
  cases o <;> first | exact ho.elim | trivial

theorem LockOp.quiet {o : Op} (ho : LockOp o) : Quiet o := by
  cases o with
  | set v n => rcases ho with rfl | rfl | rfl <;> simp [Quiet]
  | get v => trivial
  | clearMie => trivial
  | setMie => trivial
  | block => trivial
  | _ => exact ho.elim

theorem TxOp.quiet {o : Op} (ho : TxOp o) : Quiet o := by
  rcases ho with h | h | h | ⟨us, rfl⟩ | rfl
  · exact LockOp.quiet h
  · exact BufferOp.quiet h
  · cases o with
    | get v => trivial
    | set v n => rcases h with rfl | rfl <;> simp [Quiet]
    | load c => rcases h with rfl | ⟨i, rfl | rfl | rfl⟩ <;> simp [Quiet]
    | _ => exact h.elim
  · trivial
  · simp [Quiet]

/-- Quiet code keeps what quiet accesses keep. -/
theorem yields_quiet {P : SendState → Prop} {p : Code α} (hp : p.Only Quiet)
    (hP : ∀ o x k, Quiet o → P k → P (exec o x k).2) (hk : P k) : Yields exec p (fun _ => P) k :=
  Yields.of_only hP hp hk

/-- A quiet access, and then the rest. -/
theorem Silent.act {o : Op} {f : Ret o → Code α} {Q : α → SendState → Prop} (hk : Silent id k)
    (ho : Quiet o) (hf : ∀ r k, Silent id k → Yields exec (f r) Q k) :
    Yields exec (.act o f) Q k :=
  Yields.act fun x => hf _ _ (hk.quiet ho x)

/-! ### The kick -/

/-- The wait of `msgbox_send` ends with tries left exactly if it has seen a free slot. -/
theorem yields_sendWait (retry : ℕ) (k : SendState) :
    Yields exec (msgboxSendWait retry)
      (fun left k' => k'.vars = k.vars ∧ ∃ seen, k'.log = k.log ++ seen ∧
        (∀ e ∈ seen, ∃ v, e = .status v) ∧ (left ≠ 0 ↔ ∃ e ∈ seen, SendEvent.Room e)) k := by
  induction retry generalizing k with
  | zero => exact Yields.ret ⟨rfl, [], by simp⟩
  | succ retry ih =>
    simp only [msgboxSendWait, regBitsGet, Prog.perform_bind, Prog.act_bind, Prog.pure_eq_ret,
      Prog.ret_bind]
    refine Yields.act fun x => ?_
    split
    · next hroom =>
      have hseen : SendEvent.Room (.status (x (.readl .txMsgStatus)).word) := hroom
      exact Yields.ret ⟨rfl, [_], rfl, by simp, iff_of_true (by simp) ⟨_, by simp, hseen⟩⟩
    · next hfull =>
      refine Yields.act fun _ => (ih _).mono fun left k' h => ?_
      obtain ⟨hvars, seen, hlog, hstatus, hleft⟩ := h
      refine ⟨hvars, _ :: seen, by simpa [exec, note] using hlog, ?_, ?_⟩
      · simpa using hstatus
      · rw [hleft, List.exists_mem_cons_iff]
        exact (or_iff_right hfull).symm

/-- `msgbox_send` writes its word exactly if it has seen a free slot. -/
theorem yields_send (data : Word) (k : SendState) :
    Yields exec (msgboxSend data)
      (fun _ k' => k'.vars = k.vars ∧ ∃ seen, (∀ e ∈ seen, ∃ v, e = .status v) ∧
        (((∃ e ∈ seen, SendEvent.Room e) ∧ k'.log = k.log ++ seen ++ [.word data]) ∨
          ((¬∃ e ∈ seen, SendEvent.Room e) ∧ k'.log = k.log ++ seen))) k := by
  refine Yields.bind ((yields_sendWait 5000 k).mono fun left k' h => ?_)
  obtain ⟨hvars, seen, hlog, hstatus, hleft⟩ := h
  split
  · next hzero =>
    refine Yields.ret ⟨hvars, seen, hstatus, .inr ⟨?_, hlog⟩⟩
    rw [← hleft]
    exact not_not.mpr hzero
  · next hne =>
    refine Yields.act fun _ => Yields.ret ⟨hvars, seen, hstatus, .inl ⟨hleft.mp hne, ?_⟩⟩
    simp [exec, note, hlog]

/-- A log of publications and reads notifies exactly if a word follows. -/
private theorem notified_iff_room {pre seen : List SendEvent} {n : ℕ} {k' : SendState}
    (hpre : ∀ e ∈ pre, e = .published) (hpub : .published ∈ pre)
    (hstatus : ∀ e ∈ seen, ∃ v, e = SendEvent.status v)
    (hlog : ((∃ e ∈ seen, SendEvent.Room e) ∧
        k'.log = pre ++ [.flags n] ++ seen ++ [.word (BitVec.ofNat 32 id)]) ∨
      ((¬∃ e ∈ seen, SendEvent.Room e) ∧ k'.log = pre ++ [.flags n] ++ seen)) :
    k'.Notified id ↔ k'.Room := by
  have hnone : ¬∃ e ∈ pre ++ [.flags n], SendEvent.Room e := by
    rintro ⟨e, he, hroom⟩
    rcases List.mem_append.mp he with he | he
    · exact (hpre e he ▸ hroom : SendEvent.Room .published)
    · exact (List.mem_singleton.mp he ▸ hroom : SendEvent.Room (.flags n))
  rcases hlog with ⟨hroom, hlog⟩ | ⟨hfull, hlog⟩
  · refine iff_of_true ?_ ?_
    · rw [Notified, hlog]
      have hfirst : [SendEvent.published].Sublist (pre ++ [.flags n] ++ seen) := by
        rw [List.append_assoc]
        exact (List.singleton_sublist.mpr hpub).trans (List.sublist_append_left _ _)
      exact hfirst.append (List.Sublist.refl [SendEvent.word (BitVec.ofNat 32 id)])
    · obtain ⟨e, he, hroom⟩ := hroom
      exact ⟨e, by simp [hlog, he], hroom⟩
  · refine iff_of_false ?_ ?_
    · intro hsub
      have hmem : SendEvent.word (BitVec.ofNat 32 id) ∈ k'.log := hsub.subset (by simp)
      rw [hlog] at hmem
      rcases List.mem_append.mp hmem with hmem | hmem
      · rcases List.mem_append.mp hmem with hmem | hmem
        · exact absurd (hpre _ hmem) (by simp)
        · simp at hmem
      · obtain ⟨v, hv⟩ := hstatus _ hmem
        cases hv
    · rintro ⟨e, he, hroom⟩
      rw [hlog] at he
      rcases List.mem_append.mp he with he | he
      · exact hnone ⟨e, he, hroom⟩
      · exact hfull ⟨e, he, hroom⟩

/-- **The kick** writes the word exactly if it sees a free slot, and leaves nothing owed. -/
theorem yields_kick (hk : Silent id k) (hpub : .published ∈ k.log) :
    Yields exec (virtqueueKick .svq) (fun _ => Kicked id) k := by
  have hkeep : ∀ o x k, Quiet o → (Silent id k ∧ .published ∈ k.log) →
      Silent id (exec o x k).2 ∧ .published ∈ (exec o x k).2.log := by
    rintro o x k ho ⟨hs, hp⟩
    exact ⟨hs.quiet ho x, (exec_quiet ho x k).1 ▸ hp⟩
  have hbusy : (vqueueBusy .svq).Only Quiet := by simp [vqueueBusy, Quiet]
  have hinval : (vringInvalidate (.availFlags .svq) 2).Only Quiet :=
    (bufferOnly_invalidate _ _).mono fun _ => BufferOp.quiet
  -- what is left after the kick proper: the pending count is reset
  have hrest : ∀ k : SendState, (¬k.Suppressed → (k.Notified id ↔ k.Room)) →
      Yields exec (set (.vqQueuedCnt .svq) 0 >>= fun _ => vqueueIdle .svq)
        (fun _ => Kicked id) k := by
    intro k h
    simp only [set, Prog.perform_bind]
    refine Yields.act fun _ => yields_quiet (by simp [vqueueIdle, Quiet]) (fun _ x _ ho hk =>
      hk.quiet ho x) ⟨h, ?_⟩
    simp [exec]
  refine Yields.bind ((yields_quiet hbusy hkeep ⟨hk, hpub⟩).mono fun _ k hk => ?_)
  refine Yields.bind (Yields.bind ((yields_quiet hinval hkeep hk).mono fun _ k hk => ?_))
  obtain ⟨hs, hpub⟩ := hk
  simp only [Prog.perform_bind]
  refine Yields.act fun x => Yields.ret ?_
  generalize hn : (x (.load (.availFlags .svq))).nat = n
  have hlog : (exec (.load (.availFlags .svq)) x k).2.log = k.log ++ [.flags n] := by
    simp [exec, note, hn]
  by_cases hflag : n &&& VRING_AVAIL_F_NO_INTERRUPT = 0
  · simp only [exec, hn, hflag, decide_true, if_true]
    refine Yields.bind ?_
    simp only [vqRingNotify, rprocVirtioVirtqueueNotify, get, Prog.perform_bind]
    refine Yields.act fun _ => Yields.bind ((yields_send _ _).mono fun _ k' h => Yields.ret ?_)
    obtain ⟨-, seen, hstatus, hcases⟩ := h
    refine hrest k' fun _ => ?_
    have hid : k.vars (.notifyId .svq) = id := hs.notifyId
    simp only [exec, note, hid] at hcases
    exact notified_iff_room hs.log hpub hstatus hcases
  · simp only [exec, hn, hflag, decide_false, Bool.false_eq_true, if_false]
    refine hrest _ fun hnot => absurd ?_ hnot
    exact ⟨.flags n, by simp [note], hflag⟩

/-! ### The send -/

/-- A buffer that has been given back is published, and not yet kicked. -/
theorem yields_addConsumedBuffer (headIdx len : ℕ) (hk : Silent id k) :
    Yields exec (virtqueueAddConsumedBuffer .svq headIdx len)
      (fun ok k => ok = true → Silent id k ∧ .published ∈ k.log) k := by
  have hsilent : ∀ o x k, Quiet o → Silent id k → Silent id (exec o x k).2 :=
    fun _ x _ ho hk => hk.quiet ho x
  have hpublished : ∀ o x k, Quiet o → (Silent id k ∧ .published ∈ k.log) →
      Silent id (exec o x k).2 ∧ .published ∈ (exec o x k).2.log := by
    rintro o x k ho ⟨hs, hp⟩
    exact ⟨hs.quiet ho x, (exec_quiet ho x k).1 ▸ hp⟩
  have hflush : ∀ c size, (vringFlush c size).Only Quiet :=
    fun _ _ => (bufferOnly_flush _ _).mono fun _ => BufferOp.quiet
  have hbusy : (vqueueBusy .svq).Only Quiet := by simp [vqueueBusy, Quiet]
  unfold virtqueueAddConsumedBuffer
  split
  · exact Yields.ret fun h => by cases h
  refine Yields.bind ((yields_quiet hbusy hsilent hk).mono fun _ k hk => ?_)
  simp only [get, set, Prog.perform_bind]
  refine hk.act (by simp [Quiet]) fun idx k hk => ?_
  refine hk.act (by simp [Quiet]) fun _ k hk => hk.act (by simp [Quiet]) fun _ k hk => ?_
  refine Yields.bind ((yields_quiet (hflush _ _) hsilent hk).mono fun _ k hk => ?_)
  refine hk.act (by simp [Quiet]) fun idx k hk => Yields.act fun _ => ?_
  -- the used index is advanced
  have hk : Silent id (k.note .published) ∧ .published ∈ (k.note .published).log := by
    refine ⟨⟨hk.notifyId, fun e he => ?_⟩, by simp [note]⟩
    rcases List.mem_append.mp he with he | he
    · exact hk.log e he
    · exact List.mem_singleton.mp he
  refine Yields.bind ((yields_quiet (hflush _ _) hpublished hk).mono fun _ k hk => ?_)
  have hpub := hk.2
  refine Yields.act fun _ => Yields.act fun _ => ?_
  -- the pending count is no part of what is silent
  have hk : ∀ n, Silent id { k with vars := Function.update k.vars (.vqQueuedCnt .svq) n } :=
    fun n => ⟨by simpa using hk.1.notifyId, hk.1.log⟩
  have hidle : (vqueueIdle .svq >>= fun _ => (pure true : Code Bool)).Only Quiet := by
    simp [vqueueIdle, Quiet]
  exact (yields_quiet hidle hpublished ⟨hk _, hpub⟩).mono fun _ _ hk _ => hk

/-- A call that has not failed has been through the kick. -/
def Sent (id : ℕ) (r : ℤ) (k : SendState) : Prop := 0 ≤ r → Kicked id k

theorem yields_nocopy (fuel src dst data len : ℕ) (hk : Silent id k) :
    Yields exec (rpmsgVirtioSendOffchannelNocopy fuel src dst data len) (Sent id) k := by
  have hsilent : ∀ o x k, Quiet o → Silent id k → Silent id (exec o x k).2 :=
    fun _ x _ ho hk => hk.quiet ho x
  have hload : (hdrReserved (locateHdr data)).Only Quiet := by
    simp [hdrReserved, load32, Quiet]
  have hwrite : ∀ ptr src len, (metalIoBlockWrite ptr src len).Only Quiet :=
    fun _ _ _ => (bufferOnly_blockWrite _ _ _).mono fun _ => BufferOp.quiet
  have hlength : ∀ idx, (virtqueueGetBufferLength .svq idx).Only Quiet := fun idx =>
    ((bufferOnly_invalidate _ _).mono fun _ => BufferOp.quiet).bind fun _ => by simp [Quiet]
  refine Yields.bind ((yields_quiet hload hsilent hk).mono fun idx k hk => ?_)
  simp only [Prog.perform_bind]
  refine hk.act (o := .sp) trivial fun sp k hk => ?_
  refine Yields.bind ((yields_quiet (hwrite _ _ _) hsilent hk).mono fun status k hk => ?_)
  split
  · exact Yields.stop
  have hacquire := (lockOnly_acquire fuel).mono fun _ => LockOp.quiet
  refine Yields.bind ((yields_quiet hacquire hsilent hk).mono fun _ k hk => ?_)
  refine Yields.bind ((yields_quiet (hlength _) hsilent hk).mono fun buffLen k hk => ?_)
  refine Yields.bind ((yields_addConsumedBuffer _ _ hk).mono fun ok k hk => ?_)
  split
  · next hok =>
    obtain ⟨hs, hpub⟩ := hk hok
    refine Yields.bind ((yields_kick hs hpub).mono fun _ k hk => ?_)
    have hrelease := lockOnly_release.mono fun _ => LockOp.quiet
    refine Yields.bind ((yields_quiet hrelease (fun _ x _ ho hk => hk.quiet ho x) hk).mono ?_)
    exact fun _ _ hk => Yields.ret fun _ => hk
  · exact Yields.stop

/-- **A call of `rpmsg_send`** that has not failed has been through the kick. -/
theorem yields_rpmsgSend (fuel : ℕ) (ept : Ept) (data : Src) (len : ℕ) (hk : Silent id k) :
    Yields exec (rpmsgSend fuel ept data len) (Sent id) k := by
  have hsilent : ∀ o x k, Quiet o → Silent id k → Silent id (exec o x k).2 :=
    fun _ x _ ho hk => hk.quiet ho x
  have hwrite : ∀ ptr src len, (metalIoBlockWrite ptr src len).Only Quiet :=
    fun _ _ _ => (bufferOnly_blockWrite _ _ _).mono fun _ => BufferOp.quiet
  simp only [rpmsgSend, rpmsgSendOffchannelRaw, get, Prog.perform_bind]
  refine Yields.act fun x => Yields.act fun y => ?_
  split
  · exact Yields.ret fun h => absurd h (by decide)
  have hpayload := (txOnly_getTxPayloadBuffer fuel).mono fun _ => TxOp.quiet
  refine Yields.bind ((yields_quiet hpayload hsilent hk).mono fun buffer k hk => ?_)
  rcases buffer with - | ⟨payload, buffLen⟩
  · exact Yields.ret fun h => absurd h (by decide)
  · dsimp only
    generalize (if toInt buffLen < (len : ℤ) then toInt buffLen else (len : ℤ)) = n
    split
    · exact Yields.stop
    · refine Yields.bind ((yields_quiet (hwrite _ _ _) hsilent hk).mono fun status k hk => ?_)
      split
      · exact Yields.stop
      · exact yields_nocopy _ _ _ _ _ hk

/-- **A send that returns a length has notified the peer, or left the kick owed, exactly if
`msgbox_send` has read an occupancy below the depth of the FIFO**, whatever the shared memory
and the mailbox answer, unless the host has suppressed notifications. -/
theorem notified_iff (fuel : ℕ) (ept : Ept) (data : Src) (len : ℕ) (k k' : SendState)
    (hlog : k.log = []) (xs : ℕ → Op → Answer) (r : ℤ)
    (hrun : (rpmsgSend fuel ept data len).run exec k xs = some (r, k')) (hr : 0 ≤ r)
    (hflags : ¬k'.Suppressed) :
    k'.NotifiedOrOwed (k.vars (.notifyId .svq)) ↔ k'.Room := by
  have hstart : Silent (k.vars (.notifyId .svq)) k := ⟨rfl, by simp [hlog]⟩
  obtain ⟨hwritten, hqueued⟩ := (yields_rpmsgSend fuel ept data len hstart).run hrun hr
  simp only [NotifiedOrOwed, hqueued, Nat.lt_irrefl, or_false]
  exact hwritten hflags

/-- A device that is ready, with one buffer of 512 bytes in its send ring, and a FIFO that
shows the given occupancy. -/
def oneBuffer (occupancy : Word) : Op → Answer
  | .readl .txMsgStatus => { word := occupancy }
  | .load .vdevStatus => { nat := VIRTIO_CONFIG_STATUS_DRIVER_OK }
  | .load (.availIdx .svq) => { nat := 1 }
  | .load (.descAddr .svq _) => { nat := SHMEM_PA }
  | .load (.descLen .svq _) => { nat := 512 }
  | _ => {}

/-- The firmware before its first send, with the echo endpoint bound to a peer and the
notification id 1. -/
def bound : SendState where
  vars
    | .lockCount | .eptRdev .echo | .vqShmIo _ | .notifyId .svq => 1
    | .eptDest .echo => 0x401
    | _ => 0
  log := []

/-- Two bytes are sent while three words are in the FIFO. -/
theorem notified_iff_three_words :
    ∃ r k', (rpmsgSend 1 .echo (.priv 0 [0x41, 0x42]) 2).run exec bound (fun _ => oneBuffer 3) =
        some (r, k') ∧ (k'.NotifiedOrOwed 1 ↔ k'.Room) := by
  have hcheck : ((rpmsgSend 1 .echo (.priv 0 [0x41, 0x42]) 2).run exec bound
      fun _ => oneBuffer 3).any (fun p => decide (0 ≤ p.1 ∧ ¬p.2.Suppressed)) = true := by
    decide +kernel
  obtain ⟨⟨r, k'⟩, hrun, hok⟩ := (Option.any_eq_true _ _).mp hcheck
  obtain ⟨hr, hflags⟩ := of_decide_eq_true hok
  exact ⟨r, k', hrun, notified_iff 1 .echo _ 2 bound k' rfl _ r hrun hr hflags⟩

/-- The wait of `msgbox_send` at a FIFO that stays full. -/
private theorem ends_sendWait (retry : ℕ) (k : SendState) {Q : ℕ → SendState → Prop}
    (hQ : Q 0 { k with log := k.log ++ List.replicate retry (.status 8) }) :
    Ends exec (oneBuffer 8) (msgboxSendWait retry) k Q := by
  induction retry generalizing k with
  | zero => exact Ends.ret (by simpa using hQ)
  | succ retry ih =>
    simp only [msgboxSendWait, regBitsGet, Prog.perform_bind, Prog.act_bind, Prog.pure_eq_ret,
      Prog.ret_bind]
    refine Ends.act ?_
    split
    · next hroom =>
      have hfull : ¬((8 : Word) >>> MSG_NUM_SHIFT) &&& MSG_NUM_MASK < fifoDepth := by decide
      exact absurd hroom hfull
    · refine Ends.act (ih _ ?_)
      simpa [exec, note, oneBuffer, List.replicate_succ] using hQ

/-- With the FIFO full throughout, the send of two bytes returns their number. -/
private theorem ends_rpmsgSend_full :
    Ends exec (oneBuffer 8) (rpmsgSend 1 .echo (.priv 0 [0x41, 0x42]) 2) bound
      fun r _ => 0 ≤ r := by
  refine Ends.bind (Ends.eval 0x401 (by decide +kernel) ?_)
  refine Ends.bind (Ends.eval 1 (by decide +kernel) ?_)
  rw [if_neg (by decide)]
  refine Ends.bind (Ends.eval (some (SHMEM_PA + 16, 496)) (by decide +kernel) ?_)
  refine Ends.bind (Ends.eval 2 (by decide +kernel) ?_)
  refine Ends.bind (Ends.eval 0 (by decide +kernel) ?_)
  refine Ends.bind (Ends.eval 0 (by decide +kernel) ?_)
  refine Ends.bind (Ends.eval 16 (by decide +kernel) ?_)
  refine Ends.bind (Ends.eval () (by decide +kernel) ?_)
  refine Ends.bind (Ends.eval 512 (by decide +kernel) ?_)
  refine Ends.bind (Ends.eval true (by decide +kernel) ?_)
  -- the kick
  refine Ends.bind (Ends.bind (Ends.eval () (by decide +kernel) ?_))
  refine Ends.bind (Ends.eval true (by decide +kernel) ?_)
  refine Ends.bind (Ends.bind (Ends.eval 1 (by decide +kernel) ?_))
  refine Ends.bind (Ends.bind (ends_sendWait 5000 _ (Ends.ret (Ends.ret ?_))))
  refine Ends.bind (Ends.eval () (by decide +kernel) (Ends.eval () (by decide +kernel) ?_))
  refine Ends.bind (Ends.eval () (by decide +kernel) (Ends.ret (by decide)))

/-- Nothing that a full FIFO and a host that does not suppress notifications answer shows
room or suppresses notifications. -/
private theorem full_keeps (o : Op) (k : SendState)
    (hk : ∀ e ∈ k.log, ¬SendEvent.Room e ∧ ¬SendEvent.Suppresses e) :
    ∀ e ∈ (exec o (oneBuffer 8) k).2.log, ¬SendEvent.Room e ∧ ¬SendEvent.Suppresses e := by
  have hnote : ∀ e, (¬SendEvent.Room e ∧ ¬SendEvent.Suppresses e) →
      ∀ e' ∈ (k.note e).log, ¬SendEvent.Room e' ∧ ¬SendEvent.Suppresses e' := by
    intro e he e' he'
    rcases List.mem_append.mp he' with h | h
    · exact hk e' h
    · exact List.mem_singleton.mp h ▸ he
  cases o with
  | readl r =>
    cases r with
    | txMsgStatus => exact hnote (.status 8) (by decide)
    | _ => exact hk
  | writel r v =>
    cases r with
    | txFifo => exact hnote (.word v) ⟨id, id⟩
    | _ => exact hk
  | load c =>
    rcases c with - | - | (- | -) | - | - | - | - | - | - | - | - | - | - | -
    all_goals first | exact hk | exact hnote (.flags 0) (by decide)
  | store c n =>
    rcases c with - | - | - | - | - | - | (- | -) | - | - | - | - | - | - | -
    all_goals first | exact hk | exact hnote .published ⟨id, id⟩
  | _ => exact hk

/-- A send of two bytes while the FIFO holds eight words throughout returns 2: the word is not
written and no kick is owed. -/
theorem send_lost_kick :
    ¬∀ (fuel : ℕ) (ept : Ept) (data : Src) (len : ℕ) (k k' : SendState), k.log = [] →
      ∀ (xs : ℕ → Op → Answer) (r : ℤ),
        (rpmsgSend fuel ept data len).run exec k xs = some (r, k') → 0 ≤ r →
          ¬k'.Suppressed → k'.NotifiedOrOwed (k.vars (.notifyId .svq)) := by
  intro h
  obtain ⟨r, k', hrun, hr⟩ := ends_rpmsgSend_full
  have hlog : ∀ e ∈ k'.log, ¬SendEvent.Room e ∧ ¬SendEvent.Suppresses e :=
    Prog.run_keeps (fun o _ k hk => full_keeps o k hk) (k := bound) (by simp [bound]) hrun
  have hflags : ¬k'.Suppressed := fun ⟨e, he, hs⟩ => (hlog e he).2 hs
  have hstart : Silent 1 bound := ⟨rfl, by simp [bound]⟩
  obtain ⟨hwritten, hqueued⟩ := (yields_rpmsgSend _ _ _ _ hstart).run hrun hr
  rcases h _ _ _ _ bound k' rfl _ r hrun hr hflags with hnotified | howed
  · obtain ⟨e, he, hroom⟩ := (hwritten hflags).mp hnotified
    exact (hlog e he).1 hroom
  · omega

end SendState

end C906Firmware
