import C906Firmware.Exchange.Desk

/-!
# Accesses, lock and cache maintenance, over the account of the exchange

What a piece of the firmware leaves alone is said by `Kept`; `Steady` is the invariant between the
accesses of the ring functions. The device lock is there to be taken, lines that only the host
writes can be invalidated, and what is in a range that is flushed is in memory.
-/

namespace C906Firmware

open Interaction

variable {t : Terms} {α : Type} {R : α → Desk → Prop} {s s' s'' : Desk}

/-! ### Accesses -/

section Accesses

/-- Reading a private variable. -/
theorem does_get {v : Var} {f : ℕ → Code α} (h : Does (exchange t) (f (s.var v)) R s) :
    Does (exchange t) (get v >>= f) R s := by
  refine Does.act trivial ?_
  rintro r s' ⟨rfl, rfl⟩
  exact h

/-- Writing one, other than the index of an available ring. -/
theorem does_set {v : Var} (hv : ∀ q, v ≠ .vqAvailableIdx q) {n : ℕ} {f : Unit → Code α}
    (h : Does (exchange t) (f ()) R (s.set v n)) :
    Does (exchange t) (set v n >>= f) R s := by
  have hcases : (exchange t).ok (.set v n) s ∧
      ∀ r s', (exchange t).step (.set v n) s r s' → s' = s.set v n := by
    cases v with
    | vqAvailableIdx q => exact absurd rfl (hv q)
    | _ => exact ⟨trivial, fun _ _ h => h⟩
  refine Does.act hcases.1 fun r s' hs => ?_
  obtain rfl := hcases.2 r s' hs
  exact h

/-- The accesses that leave a desk alone and whose answers say nothing about it. -/
def Op.Quiet : Op → Prop
  | .get _ | .set _ _ | .load _ | .store _ _ | .load8 _ | .load32 _ | .store8 _ _
  | .store32 _ _ | .cpa _ | .ipa _ | .iall => False
  | _ => True

/-- An access that has nothing to do with memory. -/
theorem does_quiet {o : Op} (ho : o.Quiet) {f : Ret o → Code α}
    (h : ∀ r, Does (exchange t) (f r) R s) : Does (exchange t) (access o >>= f) R s := by
  have hcases : (exchange t).ok o s ∧ ∀ r s', (exchange t).step o s r s' → s' = s := by
    cases o <;> first | exact ho.elim | exact ⟨trivial, fun _ _ h => h⟩
  refine Does.act hcases.1 fun r s' hs => ?_
  obtain rfl := hcases.2 r s' hs
  exact h r

/-- Loads leave a desk alone, but for the index of an available ring. -/
theorem does_load {c : Cell} (hc : ∀ q, c ≠ .availIdx q) {f : ℕ → Code α}
    (h : ∀ r, s.Told c r → Does (exchange t) (f r) R s) :
    Does (exchange t) (access (.load c) >>= f) R s := by
  have hcases : (exchange t).ok (.load c) s ∧ ∀ r s', (exchange t).step (.load c) s r s' →
      s' = s ∧ s.Told c r := by
    refine ⟨by cases c <;> trivial, fun r s' hs => ?_⟩
    cases c with
    | availIdx q => exact absurd rfl (hc q)
    | vdevStatus => exact ⟨hs.1, fun q j o v _ _ hf => by simp [Offer.Field] at hf⟩
    | usedIdx q => exact ⟨hs.1, fun q j o v _ _ hf => by simp [Offer.Field] at hf⟩
    | _ => exact hs
  refine Does.act hcases.1 fun r s' hs => ?_
  obtain ⟨rfl, hr⟩ := hcases.2 r s' hs
  exact h r hr

/-- Writing a line back. -/
theorem does_cpa {a : ℕ} {f : Unit → Code α} (h : Does (exchange t) (f ()) R (s.writeBack a)) :
    Does (exchange t) (access (.cpa a) >>= f) R s := by
  refine Does.act trivial fun r s' hs => ?_
  obtain rfl := hs
  exact h

/-- Dropping a line in which no used ring lies. -/
theorem does_ipa {a : ℕ} (ha : ¬UsedLine (lineOf a)) {f : Unit → Code α}
    (h : ∀ heard, Heard t s a heard → Does (exchange t) (f ()) R (s.invalidate a heard)) :
    Does (exchange t) (access (.ipa a) >>= f) R s := by
  refine Does.act ha ?_
  rintro r s' ⟨heard, hheard, rfl⟩
  exact h heard hheard

end Accesses

/-! ### What a piece of the firmware leaves alone -/

/-- The variables of endpoints, and of how they are announced. -/
def Var.OfEpt : Var → Prop
  | .eptDest _ | .eptRdev _ | .supportNs => True
  | _ => False

/-- Nothing of the exchange has changed but what the firmware has seen of the queue `q`, and
nothing has been forgotten. -/
structure Kept (q : Vq) (s s' : Desk) : Prop where
  var : ∀ v : Var, v.OfEpt → s'.var v = s.var v
  cell : s'.cell = s.cell
  bytes : ∀ a, InShm a → s'.bytes a = s.bytes a
  synced : ∀ l, s.synced l → s'.synced l
  known : s.known q <+: s'.known q
  other : ∀ q', q' ≠ q → s'.known q' = s.known q'
  taken : s'.taken = s.taken
  hand : s'.hand = s.hand
  done : s'.done = s.done

/-- What a list has, a longer one has. -/
theorem getElem?_of_prefix {β : Type} {xs ys : List β} (h : xs <+: ys) {j : ℕ} {x : β}
    (hx : xs[j]? = some x) : ys[j]? = some x := by
  obtain ⟨zs, rfl⟩ := h
  rw [List.getElem?_append_left (List.getElem?_eq_some_iff.1 hx).1]
  exact hx

namespace Kept

variable {q : Vq}

theorem refl (q : Vq) (s : Desk) : Kept q s s where
  var _ _ := rfl
  cell := rfl
  bytes _ _ := rfl
  synced _ h := h
  known := List.prefix_rfl
  other _ _ := rfl
  taken := rfl
  hand := rfl
  done := rfl

theorem trans (h : Kept q s s') (h' : Kept q s' s'') : Kept q s s'' where
  var v hv := (h'.var v hv).trans (h.var v hv)
  cell := h'.cell.trans h.cell
  bytes a ha := (h'.bytes a ha).trans (h.bytes a ha)
  synced l hl := h'.synced l (h.synced l hl)
  known := h.known.trans h'.known
  other q' hq' := (h'.other q' hq').trans (h.other q' hq')
  taken := h'.taken.trans h.taken
  hand := h'.hand.trans h.hand
  done := h'.done.trans h.done

/-- Writing a private variable that is not one of an endpoint keeps the exchange. -/
theorem set {v : Var} (hv : ¬v.OfEpt) (q : Vq) (s : Desk) (n : ℕ) : Kept q s (s.set v n) :=
  { refl q s with
    var := fun v' hv' => by
      have hne : v' ≠ v := by
        rintro rfl
        exact hv hv'
      simp [Desk.set, hne] }

/-- Learning of offers on the queue keeps the exchange but for the queue. -/
theorem see {offers : List Offer} (h : s.known q <+: offers) : Kept q s (s.see q offers) :=
  { refl q s with
    known := by simpa [Desk.see] using h
    other := fun q' hq' => by simp [Desk.see, hq'] }

theorem writeBack (q : Vq) (s : Desk) (a : ℕ) : Kept q s (s.writeBack a) :=
  { refl q s with synced := fun _ hl => .inl hl }

/-- Lines outside the shared region can be invalidated. -/
theorem invalidate {a : ℕ} (ha : ∀ x, InShm x → lineOf x ≠ lineOf a) (q : Vq) (s : Desk)
    (heard : Vq → ℕ) : Kept q s (s.invalidate a heard) :=
  { refl q s with
    bytes := fun x hx => if_neg fun h => ha x hx h.1
    synced := fun _ hl => .inl hl }

/-- Buffers in hand stay in hand. -/
theorem inHand (h : Kept q s s') {q' : Vq} {j : ℕ} {o : Offer} (ho : s.InHand q' j o) :
    s'.InHand q' j o := by
  refine ⟨h.hand ▸ ho.1, ?_⟩
  rcases eq_or_ne q' q with rfl | hne
  · exact getElem?_of_prefix h.known ho.2
  · rw [h.other q' hne]
    exact ho.2

theorem holds (h : Kept q s s') {a : ℕ} (ha : s.Holds a) : s'.Holds a := by
  obtain ⟨q', j, o, ho, hcov⟩ := ha
  exact ⟨q', j, o, h.inHand ho, hcov⟩

end Kept

/-- Nothing of the exchange has changed. -/
def Still (s s' : Desk) : Prop := ∀ q, Kept q s s'

theorem Still.refl (s : Desk) : Still s s := fun q => Kept.refl q s

theorem Still.trans (h : Still s s') (h' : Still s' s'') : Still s s'' :=
  fun q => (h q).trans (h' q)

theorem Still.known (h : Still s s') : s'.known = s.known := by
  funext q
  cases q with
  | svq => exact (h .rvq).other .svq (by simp)
  | rvq => exact (h .svq).other .rvq (by simp)

/-! ### The invariant -/

/-- The invariant between the accesses of the ring functions: the lock is held or free, and at
most one queue is in use. -/
structure Steady (locked : Bool) (busy : Option Vq) (s : Desk) : Prop where
  host : HostKeeps s
  lock : s.var .lockCount = if locked then 0 else 1
  inuse : ∀ q, s.var (.vqInuse q) = if busy = some q then 1 else 0
  avail : ∀ q, s.var (.vqAvailableIdx q) = s.taken q % 2 ^ 16
  used : ∀ q, s.cell (.usedIdx q) = (s.done q).length % 2 ^ 16
  used_synced : ∀ q, s.synced (.cell (.usedIdx q))
  tidy : s.Tidy

/-- The variables of the lock and the queues. -/
def Var.OfRing : Var → Prop
  | .lockCount | .vqInuse _ | .vqAvailableIdx _ => True
  | _ => False

/-- What the host keeps to depends on the offers and on what has been returned. -/
theorem HostKeeps.congr (h : HostKeeps s) (hknown : s'.known = s.known) (hdone : s'.done = s.done) :
    HostKeeps s' where
  proper := hknown ▸ h.proper
  formed := hknown ▸ h.formed
  window := by
    rw [hknown, hdone]
    exact h.window
  apart := by
    rw [hknown, hdone]
    exact h.apart

namespace Steady

variable {l : Bool} {b : Option Vq}

/-- The invariant depends on the bookkeeping. -/
theorem congr (h : Steady l b s) (hvar : ∀ v : Var, v.OfRing → s'.var v = s.var v)
    (hstill : Still s s') : Steady l b s' where
  host := h.host.congr hstill.known (hstill .svq).done
  lock := (hvar .lockCount trivial).trans h.lock
  inuse q := (hvar (.vqInuse q) trivial).trans (h.inuse q)
  avail q := by
    rw [(hstill .svq).taken, hvar (.vqAvailableIdx q) trivial]
    exact h.avail q
  used q := by
    rw [(hstill .svq).done, (hstill .svq).cell]
    exact h.used q
  used_synced q := (hstill .svq).synced _ (h.used_synced q)
  tidy := h.tidy.congr hstill.known (hstill .svq).taken (hstill .svq).hand (hstill .svq).done

/-- Writing a private variable that is not one of a ring keeps what holds between calls. -/
theorem set (h : Steady l b s) {v : Var} (hv : ¬v.OfRing) (n : ℕ) : Steady l b (s.set v n) where
  host := h.host.congr rfl rfl
  lock := by
    have hne : Var.lockCount ≠ v := by
      rintro rfl
      exact hv trivial
    exact (Function.update_of_ne hne ..).trans h.lock
  inuse q := by
    have hne : Var.vqInuse q ≠ v := by
      rintro rfl
      exact hv trivial
    exact (Function.update_of_ne hne ..).trans (h.inuse q)
  avail q := by
    have hne : Var.vqAvailableIdx q ≠ v := by
      rintro rfl
      exact hv trivial
    exact (Function.update_of_ne hne ..).trans (h.avail q)
  used := h.used
  used_synced := h.used_synced
  tidy := h.tidy.congr rfl rfl rfl rfl

/-- Taking or releasing the lock. -/
theorem setLock (h : Steady l b s) (l' : Bool) :
    Steady l' b (s.set .lockCount (if l' then 0 else 1)) :=
  { h with
    host := h.host.congr rfl rfl
    lock := by simp [Desk.set]
    inuse := by simpa [Desk.set] using h.inuse
    avail := by simpa [Desk.set] using h.avail
    tidy := h.tidy.congr rfl rfl rfl rfl }

theorem setBusy (h : Steady l none s) (q : Vq) : Steady l (some q) (s.set (.vqInuse q) 1) :=
  { h with
    host := h.host.congr rfl rfl
    lock := by simpa [Desk.set] using h.lock
    inuse := fun q' => by
      have hidle := h.inuse q'
      simp only [reduceCtorEq, if_false] at hidle
      simp [Desk.set, Function.update_apply, hidle, eq_comm]
    avail := by simpa [Desk.set] using h.avail
    tidy := h.tidy.congr rfl rfl rfl rfl }

theorem setIdle {q : Vq} (h : Steady l (some q) s) : Steady l none (s.set (.vqInuse q) 0) :=
  { h with
    host := h.host.congr rfl rfl
    lock := by simpa [Desk.set] using h.lock
    inuse := fun q' => by
      have hbusy := h.inuse q'
      rcases eq_or_ne q' q with rfl | hne
      · simp [Desk.set]
      · simpa [Desk.set, Function.update_apply, hne, hne.symm] using hbusy
    avail := by simpa [Desk.set] using h.avail
    tidy := h.tidy.congr rfl rfl rfl rfl }

/-- A buffer in hand has a descriptor of the table and lies in the shared region. -/
theorem proper (h : Steady l b s) {q : Vq} {j : ℕ} {o : Offer} (ho : s.InHand q j o) :
    o.Proper := h.host.proper q o (List.mem_of_getElem? ho.2)

/-- Two buffers in hand do not overlap. -/
theorem apart (h : Steady l b s) {q q' : Vq} {j j' : ℕ} {o o' : Offer} (ho : s.InHand q j o)
    (ho' : s.InHand q' j' o') {a : ℕ} (ha : o.Covers a) (ha' : o'.Covers a) : q = q' ∧ j = j' :=
  h.host.apart q q' j j' o o' a (h.tidy.fresh_hand q j ho.1) (h.tidy.fresh_hand q' j' ho'.1)
    ho.2 ho'.2 ha ha'

/-- The number of buffers not returned stays below the size of the ring. -/
theorem taken_lt (h : Steady l b s) (q : Vq) :
    (s.known q).length ≤ s.taken q + VRING_NUM_BUFFS := by
  have hwindow := h.host.window q
  have hcount := h.tidy.count q
  omega

end Steady

/-! ### The lines of the host's fields -/

/-- The line holds fields that only the host writes. -/
def HostLine (l : ℕ) : Prop := ¬UsedLine l ∧ ∀ x, InShm x → lineOf x ≠ l

theorem vringUsed_eq (q : Vq) : vringUsed q = vringAddress q + 2368 := by
  cases q <;> decide

/-- The lines of a used ring lie about it. -/
theorem UsedLine.bounds {l : ℕ} (h : UsedLine l) :
    ∃ q, vringUsed q ≤ 64 * l + 63 ∧ 64 * l ≤ vringUsed q + 1024 := by
  obtain ⟨c, hc, hl⟩ := h
  rw [lineOf, L1_CACHE_BYTES] at hl
  cases c with
  | usedIdx q =>
    refine ⟨q, ?_⟩
    rw [Cell.addr] at hl
    omega
  | usedId q i =>
    refine ⟨q, ?_⟩
    have hi : i < 128 := hc
    rw [Cell.addr] at hl
    omega
  | usedLen q i =>
    refine ⟨q, ?_⟩
    have hi : i < 128 := hc
    rw [Cell.addr] at hl
    omega
  | _ => exact hc.elim

/-- The lines between the start of a vring and its used ring are the host's. -/
theorem hostLine_vring {q : Vq} {l : ℕ} (hlo : vringAddress q ≤ 64 * l + 63)
    (hhi : 64 * l < vringUsed q) : HostLine l := by
  have hsvq : vringAddress .svq = 0x414AC000 := rfl
  have hrvq : vringAddress .rvq = 0x414AE000 := rfl
  rw [vringUsed_eq] at hhi
  constructor
  · intro h
    obtain ⟨q', hlo', hhi'⟩ := h.bounds
    rw [vringUsed_eq] at hlo' hhi'
    cases q <;> cases q' <;> omega
  · rintro x ⟨hx, -⟩ rfl
    rw [SHMEM_PA] at hx
    rw [lineOf, L1_CACHE_BYTES] at hlo hhi
    cases q <;> omega

/-- The lines of the shared region hold no fields of used rings. -/
theorem not_usedLine_shm {l : ℕ} (hl : SHMEM_PA ≤ 64 * l) : ¬UsedLine l := by
  have hsvq : vringAddress .svq = 0x414AC000 := rfl
  have hrvq : vringAddress .rvq = 0x414AE000 := rfl
  intro h
  obtain ⟨q, -, hhi⟩ := h.bounds
  rw [SHMEM_PA] at hl
  rw [vringUsed_eq] at hhi
  cases q <;> omega

theorem not_usedLine_inShm {a : ℕ} (ha : InShm a) : ¬UsedLine (lineOf a) := by
  refine not_usedLine_shm ?_
  have hlow := ha.1
  rw [SHMEM_PA] at hlow ⊢
  rw [lineOf, L1_CACHE_BYTES]
  omega

/-- The lines of the resource table are the host's. -/
theorem hostLine_rsc {l : ℕ} (hl : 64 * l < 0x41300000) : HostLine l := by
  have hsvq : vringAddress .svq = 0x414AC000 := rfl
  have hrvq : vringAddress .rvq = 0x414AE000 := rfl
  constructor
  · intro h
    obtain ⟨q', hlo', -⟩ := h.bounds
    rw [vringUsed_eq] at hlo'
    cases q' <;> omega
  · rintro x ⟨hx, -⟩ rfl
    rw [SHMEM_PA] at hx
    rw [lineOf, L1_CACHE_BYTES] at hl
    omega

/-- The lines of a range cover it. -/
theorem cacheLines_cover {start stop a : ℕ} (hlo : start ≤ a) (hhi : a < stop) :
    ∃ i ∈ cacheLines start stop, lineOf i = lineOf a := by
  have htouched : DataCache.Touched start stop a := by
    rw [DataCache.Touched, L1_CACHE_BYTES]
    omega
  exact List.mem_map.mp (DataCache.lineOf_mem_cacheLines.mpr htouched)

/-! ### The device lock -/

/-- The invariant holds, and since `s₀` nothing of the exchange has changed. -/
def During (l : Bool) (b : Option Vq) (s₀ s : Desk) : Prop := Steady l b s ∧ Still s₀ s

section Lock

variable {l : Bool} {b : Option Vq} {s₀ : Desk}

theorem Steady.during (h : Steady l b s) : During l b s s := ⟨h, Still.refl s⟩

theorem During.set (h : During l b s₀ s) {v : Var} (hring : ¬v.OfRing) (hept : ¬v.OfEpt) (n : ℕ) :
    During l b s₀ (s.set v n) :=
  ⟨h.1.set hring n, h.2.trans fun q => Kept.set hept q s n⟩

/-- Entering a critical section changes a count only. -/
theorem does_enterCritical (h : During l b s₀ s) :
    Does (exchange t) taskEnterCritical (fun _ => During l b s₀) s := by
  refine does_quiet (o := .clearMie) trivial fun _ => ?_
  refine does_get ?_
  refine Does.last (does_set (by simp) ?_)
  exact h.set id id _

/-- Leaving a critical section changes a count only. -/
theorem does_exitCritical (h : During l b s₀ s) :
    Does (exchange t) taskExitCritical (fun _ => During l b s₀) s := by
  refine does_get ?_
  refine Does.ite (fun _ => ?_) (fun _ => h)
  refine does_set (by simp) ?_
  refine does_get ?_
  refine Does.ite (fun _ => ?_) (fun _ => h.set id id _)
  exact Does.last (does_quiet (o := .setMie) trivial fun _ => h.set id id _)

/-- The lock is free and is taken at the first try. -/
theorem does_acquire {fuel : ℕ} (hfuel : t.halt ∨ 0 < fuel) (h : Steady false b s) :
    Does (exchange t) (metalMutexAcquire fuel) (fun _ => During true b s) s := by
  refine Does.seq (P := fun _ => During true b s) ?_ ?_
  · rcases fuel with - | fuel
    · exact hfuel.resolve_right (Nat.not_lt_zero _)
    · refine Does.bind ?_
      refine Does.seq (does_enterCritical h.during) ?_
      rintro - s₁ ⟨h₁, hkept⟩
      refine does_get ?_
      rw [h₁.lock, if_pos (by simp)]
      refine does_set (by simp) ?_
      have hlocked : During true b s (s₁.set .lockCount 0) :=
        ⟨h₁.setLock true, hkept.trans fun q => Kept.set id q s₁ _⟩
      exact Does.seq (does_exitCritical hlocked) fun _ _ h₂ => h₂
  · intro _ s₁ h₁
    exact Does.last (does_set (by simp) (h₁.set id id _))

/-- The lock is given back. -/
theorem does_release (h : Steady true b s) :
    Does (exchange t) metalMutexRelease (fun _ => During false b s) s := by
  refine Does.seq (P := fun _ => During false b s) ?_ ?_
  · refine Does.seq (does_enterCritical h.during) ?_
    rintro - s₁ ⟨h₁, hkept⟩
    refine does_get ?_
    rw [h₁.lock, if_pos (by simp)]
    refine does_set (by simp) ?_
    refine does_exitCritical ?_
    exact ⟨h₁.setLock false, hkept.trans fun q => Kept.set id q s₁ _⟩
  · intro _ s₁ h₁
    exact Does.last (does_set (by simp) (h₁.set id id _))

end Lock

/-! ### Cache maintenance -/

section Maintenance

/-- The host's fields in the given lines are read from memory next. -/
structure Refreshed (t : Terms) (lines : List ℕ) (s s' : Desk) : Prop where
  still : Still s s'
  var : s'.var = s.var
  fresh : ∀ c : Cell, (∃ a ∈ lines, lineOf a = lineOf c.addr) →
    s'.fresh c = (s.known c.queue).length
  other : ∀ c : Cell, s'.fresh c = s.fresh c ∨ s'.fresh c = (s.known c.queue).length
  heard : t.setting = .echo → ∀ q, (∃ a ∈ lines, lineOf a = lineOf (Cell.availIdx q).addr) →
    EchoCount t q (s.known .rvq).length (s'.heard q)
  unheard : t.setting = .echo → ∀ q, s'.heard q = s.heard q ∨
    EchoCount t q (s.known .rvq).length (s'.heard q)

/-- Dropping lines of the host shows what is in memory. -/
theorem does_invalidateLines {lines : List ℕ} (hhost : ∀ a ∈ lines, HostLine (lineOf a)) :
    Does (exchange t) (.forEach (fun i => access (.ipa i)) lines)
      (fun _ => Refreshed t lines s) s := by
  induction lines generalizing s with
  | nil => exact ⟨Still.refl s, rfl, by simp, fun _ => .inl rfl, by simp, fun _ _ => .inl rfl⟩
  | cons a lines ih =>
    have ha := hhost a List.mem_cons_self
    refine Does.bind (Does.last (does_ipa ha.1 fun heard hheard => ?_))
    refine (ih fun b hb => hhost b (List.mem_cons_of_mem a hb)).mono ?_
    intro _ s' h
    refine ⟨Still.trans (fun q => Kept.invalidate ha.2 q s heard) h.still, h.var, fun c hc => ?_,
      fun c => ?_, fun hset q hq => ?_, fun hset q => ?_⟩
    · by_cases hline : lineOf c.addr = lineOf a
      · rcases h.other c with hsame | hnew
        · exact hsame.trans (if_pos hline)
        · exact hnew
      · refine h.fresh c ?_
        obtain ⟨b, hb, hbc⟩ := hc
        rcases List.mem_cons.mp hb with rfl | hb
        · exact absurd hbc.symm hline
        · exact ⟨b, hb, hbc⟩
    · rcases h.other c with hsame | hnew
      · rw [hsame]
        by_cases hline : lineOf c.addr = lineOf a
        · exact .inr (if_pos hline)
        · exact .inl (if_neg hline)
      · exact .inr hnew
    · rcases h.unheard hset q with hsame | hnew
      · by_cases hline : lineOf (Cell.availIdx q).addr = lineOf a
        · rw [hsame]
          exact hheard.count hset q hline
        · refine h.heard hset q ?_
          obtain ⟨b, hb, hbq⟩ := hq
          rcases List.mem_cons.mp hb with rfl | hb
          · exact absurd hbq.symm hline
          · exact ⟨b, hb, hbq⟩
      · exact hnew
    · rcases h.unheard hset q with hsame | hnew
      · rw [hsame]
        by_cases hline : lineOf (Cell.availIdx q).addr = lineOf a
        · exact .inr (hheard.count hset q hline)
        · exact .inl (hheard.other q hline)
      · exact .inr hnew

/-- The lines of a field and what follows it, for fields that only the host writes. -/
theorem does_vringInvalidate {c : Cell} {size : ℕ} (hsize : 0 < size)
    (hhost : ∀ i ∈ cacheLines c.addr (c.addr + size), HostLine (lineOf i)) :
    Does (exchange t) (vringInvalidate c size)
      (fun _ s' => Still s s' ∧ s'.var = s.var ∧ (∀ c' : Cell, c.addr ≤ c'.addr →
        c'.addr < c.addr + size → s'.fresh c' = (s.known c'.queue).length) ∧
        (t.setting = .echo → ∀ q, c = .availIdx q →
          EchoCount t q (s.known .rvq).length (s'.heard q))) s := by
  rw [vringInvalidate, metalCacheInvalidate, if_neg (by omega)]
  refine (does_invalidateLines hhost).mono fun _ s' h => ⟨h.still, h.var, fun c' hlo hhi => ?_, ?_⟩
  · exact h.fresh c' (cacheLines_cover hlo hhi)
  · rintro hset q rfl
    exact h.heard hset q (cacheLines_cover le_rfl (by omega))

/-- A range of the host's fields of a vring. -/
theorem hostLines_vring {q : Vq} {start size : ℕ} (hlo : vringAddress q ≤ start)
    (hhi : start + size ≤ vringUsed q) :
    ∀ i ∈ cacheLines start (start + size), HostLine (lineOf i) := by
  intro i hi
  obtain ⟨hmod, hge, hlt⟩ := Hal.mem_cacheLines.mp hi
  rw [L1_CACHE_BYTES] at hmod hge
  have hline : 64 * lineOf i = i := by
    rw [lineOf, L1_CACHE_BYTES]
    omega
  refine hostLine_vring (q := q) ?_ ?_
  · omega
  · omega

/-- Lines are written back. -/
theorem does_flushLines (lines : List ℕ) :
    Does (exchange t) (.forEach (fun i => access (.cpa i)) lines)
      (fun _ s' => s' = { s with
        synced := fun l => s.synced l ∨ ∃ a ∈ lines, lineOf a = lineOf l.addr }) s := by
  induction lines generalizing s with
  | nil =>
    have hnone : s.synced =
        fun l => s.synced l ∨ ∃ a ∈ ([] : List ℕ), lineOf a = lineOf l.addr := by
      funext l
      simp
    exact congrArg (fun f => { s with synced := f }) hnone
  | cons a lines ih =>
    refine Does.bind (Does.last (does_cpa ?_))
    refine ih.mono ?_
    rintro _ _ rfl
    have hsplit : ∀ l, (s.writeBack a).synced l ∨ (∃ b ∈ lines, lineOf b = lineOf l.addr) ↔
        s.synced l ∨ ∃ b ∈ a :: lines, lineOf b = lineOf l.addr := by
      intro l
      simp only [Desk.writeBack, List.mem_cons, exists_eq_or_imp, or_assoc, eq_comm (a := lineOf a)]
    exact congrArg (fun f => { s with synced := f }) (funext fun l => propext (hsplit l))

/-- What is in the given range has been written back. -/
structure Flushed (addr size : ℕ) (s s' : Desk) : Prop where
  eq : s' = { s with synced := s'.synced }
  mono : ∀ l, s.synced l → s'.synced l
  covered : ∀ l : Loc, addr ≤ l.addr → l.addr < addr + size → s'.synced l

theorem Flushed.still {addr size : ℕ} (h : Flushed addr size s s') : Still s s' := by
  intro q
  rw [h.eq]
  exact { Kept.refl q s with synced := h.mono }

/-- A flush leaves the private variables alone. -/
theorem Flushed.var {addr size : ℕ} (h : Flushed addr size s s') : s'.var = s.var := by rw [h.eq]

/-- `metal_machine_cache_flush` of a range. -/
theorem does_cacheFlush {addr size : ℕ} (haddr : addr ≠ 0) :
    Does (exchange t) (metalCacheFlush addr size) (fun _ s' => Flushed addr size s s') s := by
  rw [metalCacheFlush, if_neg fun h => haddr h.1]
  refine (does_flushLines _).mono ?_
  rintro _ _ rfl
  exact ⟨rfl, fun l hl => .inl hl, fun l hlo hhi => .inr (cacheLines_cover hlo hhi)⟩

end Maintenance

end C906Firmware
