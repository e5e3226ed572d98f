import C906Firmware.Model.Rpmsg

/-!
# Which accesses the functions make

The functions that the proofs do not look into are known by their accesses: those of the
device lock (`LockOp`), those that take a buffer from a virtqueue (`TakeOp`), those to the
buffers and the cache (`BufferOp`), and together those of the wait for a transmit buffer
(`TxOp`).
-/

namespace C906Firmware

open Interaction

/-- The accesses of the device lock. -/
def LockOp : Op → Prop
  | .clearMie | .setMie | .block => True
  | .get v | .set v _ => v = .criticalNesting ∨ v = .lockCount ∨ v = .lockIslock
  | _ => False

/-- The accesses, apart from those to the cache, that take a buffer from a virtqueue. -/
def TakeOp (q : Vq) : Op → Prop
  | .get v => v = .vqAvailableIdx q ∨ v = .vqInuse q ∨ v = .vqShmIo q
  | .set v _ => v = .vqAvailableIdx q ∨ v = .vqInuse q
  | .load c => c = .availIdx q ∨ ∃ i, c = .availRing q i ∨ c = .descAddr q i ∨ c = .descLen q i
  | _ => False

/-- The accesses of the wait for a transmit buffer. -/
def TxOp (o : Op) : Prop :=
  LockOp o ∨ BufferOp o ∨ TakeOp .svq o ∨ (∃ us, o = .udelay us) ∨ o = .load .vdevStatus

section Lock

/-- A critical section is a count and the interrupt enable. -/
theorem lockOnly_enterCritical : taskEnterCritical.Only LockOp := by
  simp [taskEnterCritical, LockOp]

theorem lockOnly_exitCritical : taskExitCritical.Only LockOp := by
  simp [taskExitCritical, LockOp]

/-- Acquiring the lock tries the semaphore and blocks, any number of times. -/
theorem lockOnly_acquire (fuel : ℕ) : (metalMutexAcquire fuel).Only LockOp := by
  have hround : semaphoreTakeRound.Only LockOp := by
    refine lockOnly_enterCritical.bind fun _ => ?_
    simp only [get, set, Prog.perform_bind, Prog.only_act]
    refine ⟨by simp [LockOp], fun count => Prog.Only.ite ?_ ?_⟩
    · exact ⟨by simp [LockOp], fun _ => lockOnly_exitCritical.bind fun _ => trivial⟩
    · exact lockOnly_exitCritical.bind fun _ => by simp [LockOp]
  exact (Prog.Only.iterate (fun _ => hround) fuel ()).bind fun _ => by simp [LockOp]

/-- Releasing it gives the semaphore back. -/
theorem lockOnly_release : metalMutexRelease.Only LockOp := by
  have hgive : semaphoreGive.Only LockOp := by
    refine lockOnly_enterCritical.bind fun _ => ?_
    simp only [get, set, Prog.perform_bind, Prog.only_act]
    refine ⟨by simp [LockOp], fun count => Prog.Only.ite ?_ ?_⟩
    · exact ⟨by simp [LockOp], fun _ => lockOnly_exitCritical⟩
    · exact lockOnly_exitCritical
  exact hgive.bind fun _ => by simp [LockOp]

end Lock

section Take

/-- Taking a buffer reads ring fields, and changes the index and the busy flag of its queue. -/
theorem takeOnly_getAvailableBuffer (q : Vq) :
    (virtqueueGetAvailableBuffer q).Only fun o => BufferOp o ∨ TakeOp q o := by
  have hcache : ∀ c size, (vringInvalidate c size).Only fun o => BufferOp o ∨ TakeOp q o :=
    fun _ _ => (bufferOnly_invalidate _ _).mono fun _ => .inl
  have htake : ∀ o, TakeOp q o → BufferOp o ∨ TakeOp q o := fun _ => .inr
  refine (hcache _ _).bind fun _ => ?_
  simp only [get, set, Prog.perform_bind, Prog.only_act]
  refine ⟨htake _ (by simp [TakeOp]), fun mine => ⟨htake _ (by simp [TakeOp]), fun theirs => ?_⟩⟩
  refine Prog.Only.ite trivial (Prog.Only.bind (by simp [vqueueBusy, TakeOp]) fun _ => ?_)
  refine ⟨htake _ (by simp [TakeOp]), fun idx => ⟨htake _ (by simp [TakeOp]), fun _ => ?_⟩⟩
  refine (hcache _ _).bind fun _ => ⟨htake _ (by simp [TakeOp]), fun availIdx => ?_⟩
  refine (hcache _ _).bind fun _ => ⟨htake _ (by simp [TakeOp]), fun phys => ?_⟩
  refine Prog.Only.bind (by simp [virtqueuePhysToVirt, TakeOp]) fun buffer => ?_
  refine ⟨htake _ (by simp [TakeOp]), fun len => Prog.Only.bind ?_ fun _ => trivial⟩
  simp [vqueueIdle, TakeOp]

/-- Waiting for a transmit buffer is attempts with the lock held, and sleep. -/
theorem txOnly_waitTxBuffer (fuel tickCount : ℕ) :
    (rpmsgVirtioWaitTxBuffer fuel tickCount).Only TxOp := by
  have htry : (rpmsgVirtioTryTxBuffer fuel).Only TxOp := by
    refine ((lockOnly_acquire fuel).mono fun _ => .inl).bind fun _ => ?_
    refine Prog.Only.bind ((takeOnly_getAvailableBuffer .svq).mono fun o ho => ?_) fun _ => ?_
    · exact ho.elim (fun h => .inr (.inl h)) fun h => .inr (.inr (.inl h))
    · exact (lockOnly_release.mono fun _ => .inl).bind fun _ => trivial
  induction tickCount with
  | zero => exact htry
  | succ tickCount ih =>
    refine htry.bind fun buffer => ?_
    cases buffer with
    | some b => trivial
    | none => exact ⟨.inr (.inr (.inr (.inl ⟨_, rfl⟩))), fun _ => ih⟩

theorem txOnly_getTxPayloadBuffer (fuel : ℕ) :
    (rpmsgVirtioGetTxPayloadBuffer fuel).Only TxOp := by
  have hstatus : rprocVirtioGetStatus.Only TxOp :=
    ((bufferOnly_cacheInvalidate _ _).mono fun _ h => .inr (.inl h)).bind fun _ =>
      ⟨.inr (.inr (.inr (.inr rfl))), fun _ => trivial⟩
  refine hstatus.bind fun status => Prog.Only.ite trivial ?_
  refine (txOnly_waitTxBuffer fuel _).bind fun buffer => ?_
  cases buffer with
  | none => trivial
  | some b => exact ⟨.inr (.inl trivial), fun _ => trivial⟩

end Take

end C906Firmware
