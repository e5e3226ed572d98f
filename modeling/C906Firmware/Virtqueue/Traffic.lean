import C906Firmware.Lists.Lanes
import C906Firmware.Lists.Loans
import C906Firmware.Virtqueue.Pool

/-!
# A virtqueue between its two sides

The master makes buffers available and collects them, the slave takes them and gives them back in
any order, and both go on at the same time (`Traffic.act`). The ring holds what the two sides have
lent each other (`Traffic.Books`), and every step of a side ends and is a step of two parties that
lend each other things, or none (`Traffic.Books.act`).
-/

namespace C906Firmware

open Virtqueue

/-- How each side finds what the other one means, and whether notifications go by index. -/
structure Wiring where
  toPhys : ℕ → ℕ
  toVirt : ℕ → ℕ
  eventIdx : Bool

/-- Where the call of a side is. -/
inductive Call
  | idle
  /-- `virtqueue_add_buffer`, before the index is advanced -/
  | adding (bufs : List VirtqueueBuf) (readable cookie : ℕ)
  /-- `virtqueue_get_buffer` or `virtqueue_get_available_buffer`, before the ring is read -/
  | getting
  /-- `virtqueue_add_consumed_buffer`, before the index is advanced -/
  | returning (idx len : ℕ)
  /-- `virtqueue_enable_cb`, before the index is read -/
  | enabling
  deriving DecidableEq

/-- A virtqueue with its two sides. -/
structure Traffic where
  ring : Vring
  vq : VirtioRole → Virtqueue
  call : VirtioRole → Call
  /-- What the slave has taken and not given back. -/
  held : List ℕ
  /-- `virtqueue_enable_cb` has told the side that there is nothing, and nothing has happened to
  it since. -/
  asleep : VirtioRole → Bool

/-- What the sides do. -/
inductive QueueAct
  | add (bufs : List VirtqueueBuf) (readable writable cookie : ℕ)
  | publish
  | look
  | collect
  | peek
  | take
  | giveBack (idx len : ℕ)
  | announce
  | kick (role : VirtioRole)
  | enable (role : VirtioRole)
  | check (role : VirtioRole)
  | disable (role : VirtioRole)

/-- What the sides see of it. -/
inductive Sight
  /-- Buffers have been made available. -/
  | posted (bufs : List VirtqueueBuf) (readable cookie : ℕ)
  /-- `virtqueue_get_available_buffer` has returned a buffer. -/
  | taken (buffer idx len : ℕ)
  /-- A buffer has been given back. -/
  | returned (idx len : ℕ)
  /-- `virtqueue_get_buffer` has returned a cookie. -/
  | collected (cookie len : ℕ)
  /-- A side has been notified. -/
  | notified

namespace Traffic

open Function (update)

variable (w : Wiring)

/-- A side goes on. -/
def put (s : Traffic) (role : VirtioRole) (vq : Virtqueue) (ring : Vring) (call : Call) : Traffic :=
  { s with
    ring := ring
    vq := update s.vq role vq
    call := update s.call role call
    asleep := update s.asleep role false }

/-- The role of the other side -/
def other : VirtioRole → VirtioRole
  | .master => .slave
  | .slave => .master

/-- What a side does. -/
def act (s : Traffic) : QueueAct → Option (Option Sight × Traffic)
  | .add bufs readable writable cookie =>
    ((s.vq .master).addBufferStart w.toPhys bufs readable writable cookie s.ring).map
      fun (status, vq, ring) => (none, s.put .master vq ring
        (if status = VQUEUE_SUCCESS then .adding bufs readable cookie else .idle))
  | .publish =>
    match s.call .master with
    | .adding bufs readable cookie =>
      let (vq, ring) := (s.vq .master).addBufferFinish s.ring
      some (some (.posted bufs readable cookie), s.put .master vq ring .idle)
    | _ => none
  | .look =>
    ((s.vq .master).getBufferStart s.ring).map fun (found, vq) =>
      (none, s.put .master vq s.ring (if found then .getting else .idle))
  | .collect =>
    ((s.vq .master).getBufferFinish s.ring).map fun ((cookie, len), vq, ring) =>
      (some (.collected cookie len), s.put .master vq ring .idle)
  | .peek =>
    ((s.vq .slave).getAvailableStart s.ring).map fun (found, vq) =>
      (none, s.put .slave vq s.ring (if found then .getting else .idle))
  | .take =>
    let ((buffer, idx, len), vq) := (s.vq .slave).getAvailableFinish w.toVirt s.ring
    some (some (.taken buffer idx len),
      { s.put .slave vq s.ring .idle with held := idx :: s.held })
  | .giveBack idx len =>
    ((s.vq .slave).addConsumedStart idx len s.ring).map fun (status, vq, ring) =>
      (none, s.put .slave vq ring (if status = VQUEUE_SUCCESS then .returning idx len else .idle))
  | .announce =>
    match s.call .slave with
    | .returning idx len =>
      let (vq, ring) := (s.vq .slave).addConsumedFinish s.ring
      some (some (.returned idx len),
        { s.put .slave vq ring .idle with held := s.held.erase idx })
    | _ => none
  | .kick role =>
    ((s.vq role).virtqueueKick w.eventIdx role s.ring).map fun (must, vq) =>
      let s := s.put role vq s.ring .idle
      if must then (some .notified, { s with asleep := update s.asleep (other role) false })
      else (none, s)
  | .enable role =>
    some (none, s.put role (s.vq role) ((s.vq role).enableStart w.eventIdx role s.ring) .enabling)
  | .check role =>
    ((s.vq role).enableFinish role s.ring).map fun more =>
      (none, { s.put role (s.vq role) s.ring .idle with
        asleep := update s.asleep role (!more) })
  | .disable role =>
    ((s.vq role).virtqueueDisableCb w.eventIdx role s.ring).map fun (vq, ring) =>
      (none, s.put role vq ring .idle)

/-- What the sides keep to: the calls of a side follow each other, there are descriptors for what
is made available, what is given back has been taken, and the queue is kicked before `vq_queued_cnt`
comes round. -/
def Allowed (s : Traffic) : QueueAct → Prop
  | .add bufs readable writable cookie => s.call .master = .idle ∧
    bufs.length = readable + writable ∧ 0 < bufs.length ∧ cookie ≠ 0 ∧
    ((s.vq .master).vqFreeCnt ≠ 0 → bufs.length ≤ (s.vq .master).vqFreeCnt) ∧
    (s.vq .master).vqQueuedCnt + 1 < 2 ^ 16
  | .publish => ∃ bufs readable cookie, s.call .master = .adding bufs readable cookie
  | .look => s.call .master = .idle
  | .collect => s.call .master = .getting
  | .peek => s.call .slave = .idle
  | .take => s.call .slave = .getting
  | .giveBack idx _ => s.call .slave = .idle ∧ idx ∈ s.held ∧
    (s.vq .slave).vqQueuedCnt + 1 < 2 ^ 16
  | .announce => ∃ idx len, s.call .slave = .returning idx len
  | .kick role => s.call role = .idle
  | .enable role => s.call role = .idle
  | .check role => s.call role = .enabling
  | .disable role => s.call role = .idle

/-! ### The books -/

/-- The call of the master, with what it has in hand. -/
inductive MasterAt (vq : Virtqueue) (returned : List (Post × ℕ)) : Call → List Post → Prop
  | idle (h : vq.vqInuse = false) : MasterAt vq returned .idle []
  | enabling (h : vq.vqInuse = false) : MasterAt vq returned .enabling []
  | getting (hne : returned ≠ []) : MasterAt vq returned .getting []
  | adding (p : Post) : MasterAt vq returned (.adding p.bufs p.readable p.cookie) [p]

/-- The call of the slave, with what it has in hand. -/
inductive SlaveAt (vq : Virtqueue) (offered : List Post) (held : List Post) :
    Call → List (Post × ℕ) → Prop
  | idle (h : vq.vqInuse = false) : SlaveAt vq offered held .idle []
  | enabling (h : vq.vqInuse = false) : SlaveAt vq offered held .enabling []
  | getting (hne : offered ≠ []) : SlaveAt vq offered held .getting []
  | returning {p : Post} (hp : p ∈ held) (len : ℕ) :
      SlaveAt vq offered held (.returning p.head len) [(p, len)]

/-- The ring holds what the sides have lent each other. -/
structure Books (s : Traffic) (l : Loans Post ℕ) (free : List ℕ) (drawn : List Post)
    (back : List (Post × ℕ)) : Prop where
  entries : (s.vq .master).vqNentries = (s.vq .slave).vqNentries
  power : ∃ k ≤ 15, (s.vq .master).vqNentries = 2 ^ k
  pool : Pool w.toPhys (s.vq .master) s.ring.desc free
    (drawn ++ l.offered ++ l.held ++ l.returned.map Prod.fst)
  avail : Lane (s.vq .master).vqNentries s.ring.availRing (s.vq .slave).vqAvailableIdx
    s.ring.availIdx (l.offered.map Post.head)
  used : Lane (s.vq .master).vqNentries s.ring.usedRing (s.vq .master).vqUsedConsIdx
    s.ring.usedIdx (l.returned.map fun x => (x.1.head, x.2))
  drawnSlot : ∀ p ∈ drawn,
    s.ring.availRing (s.ring.availIdx % (s.vq .master).vqNentries) = p.head
  backSlot : ∀ x ∈ back,
    s.ring.usedRing (s.ring.usedIdx % (s.vq .master).vqNentries) = (x.1.head, x.2)
  held : s.held.Perm (l.held.map Post.head)
  master : MasterAt (s.vq .master) l.returned (s.call .master) drawn
  slave : SlaveAt (s.vq .slave) l.offered l.held (s.call .slave) back

variable {w : Wiring} {s s' : Traffic} {l l' : Loans Post ℕ} {free : List ℕ} {drawn : List Post}
  {back : List (Post × ℕ)} {vq : Virtqueue} {ring : Vring} {call : Call} {role : VirtioRole}

@[simp] theorem put_ring : (s.put role vq ring call).ring = ring := rfl

@[simp] theorem put_vq : (s.put role vq ring call).vq role = vq := Function.update_self _ _ _

@[simp] theorem put_call : (s.put role vq ring call).call role = call := Function.update_self _ _ _

@[simp] theorem put_vq_slave : (s.put .master vq ring call).vq .slave = s.vq .slave := rfl

/-- What the master has in hand stays, where a used ring with something in it still has
something. -/
theorem MasterAt.mono {returned returned' : List (Post × ℕ)}
    (h : MasterAt vq returned call drawn) (hne : returned ≠ [] → returned' ≠ []) :
    MasterAt vq returned' call drawn := by
  cases h with
  | idle h => exact .idle h
  | enabling h => exact .enabling h
  | getting h => exact .getting (hne h)
  | adding p => exact .adding p

/-- What the slave has in hand stays, where it still holds what it held. -/
theorem SlaveAt.mono {offered offered' held held' : List Post}
    (h : SlaveAt vq offered held call back) (hne : offered ≠ [] → offered' ≠ [])
    (hheld : ∀ p ∈ held, p ∈ held') : SlaveAt vq offered' held' call back := by
  cases h with
  | idle h => exact .idle h
  | enabling h => exact .enabling h
  | getting h => exact .getting (hne h)
  | returning hp len => exact .returning (hheld _ hp) len

/-- What the books do not look at. -/
structure Aside (s s' : Traffic) : Prop where
  ring : s'.ring = { s.ring with
    availFlags := s'.ring.availFlags
    usedEvent := s'.ring.usedEvent
    usedFlags := s'.ring.usedFlags
    availEvent := s'.ring.availEvent }
  vq : ∀ role, s'.vq role = { s.vq role with
    vqQueuedCnt := (s'.vq role).vqQueuedCnt
    vqInuse := (s'.vq role).vqInuse }
  held : s'.held = s.held

/-- Only calls, counts and notifications change. -/
theorem Books.aside (h : Books w s l free drawn back) (hs : Aside s s')
    (hmaster : MasterAt (s'.vq .master) l.returned (s'.call .master) drawn)
    (hslave : SlaveAt (s'.vq .slave) l.offered l.held (s'.call .slave) back) :
    Books w s' l free drawn back := by
  have hm := hs.vq .master
  have hv := hs.vq .slave
  have hr := hs.ring
  exact {
    entries := by rw [hm, hv]; exact h.entries
    power := by rw [hm]; exact h.power
    pool := by
      rw [hm, hr]
      exact ⟨h.pool.small, h.pool.chain, h.pool.count, h.pool.cover, h.pool.laid, h.pool.extra,
        h.pool.clear⟩
    avail := by rw [hm, hv, hr]; exact h.avail
    used := by rw [hm, hr]; exact h.used
    drawnSlot := by rw [hm, hr]; exact h.drawnSlot
    backSlot := by rw [hm, hr]; exact h.backSlot
    held := by rw [hs.held]; exact h.held
    master := hmaster
    slave := hslave }

theorem Books.dvd (h : Books w s l free drawn back) : (s.vq .master).vqNentries ∣ 2 ^ 16 := by
  obtain ⟨k, hk, hn⟩ := h.power
  exact hn ▸ pow_dvd_pow 2 (hk.trans (by decide))

/-- The mask of an index. -/
theorem Books.mask (h : Books w s l free drawn back) (x : ℕ) :
    x &&& ((s.vq .master).vqNentries - 1) = x % (s.vq .master).vqNentries := by
  obtain ⟨k, -, hn⟩ := h.power
  rw [hn, Nat.and_two_pow_sub_one_eq_mod]

/-- The steps of the parties to which what is seen amounts. -/
inductive Means (w : Wiring) : Option Sight → List (Deal Post ℕ) → Prop
  | nothing : Means w none []
  | notified : Means w (some .notified) []
  | posted (p : Post) : Means w (some (.posted p.bufs p.readable p.cookie)) [.offer p]
  | taken {p : Post} {b : VirtqueueBuf} (hb : p.bufs[0]? = some b) :
      Means w (some (.taken (w.toVirt (w.toPhys b.buf)) p.head b.len)) [.take p]
  | returned (p : Post) (len : ℕ) : Means w (some (.returned p.head len)) [.giveBack p len]
  | collected (p : Post) (len : ℕ) : Means w (some (.collected p.cookie len)) [.collect p len]

/-- At most one step of the parties. -/
inductive Matches (l : Loans Post ℕ) : List (Deal Post ℕ) → Loans Post ℕ → Prop
  | none : Matches l [] l
  | one {d : Deal Post ℕ} {l' : Loans Post ℕ} (h : Loans.Step l d l') : Matches l [d] l'

/-- The step of a side ends, and the parties can follow it. -/
def Followed (w : Wiring) (s : Traffic) (l : Loans Post ℕ) (a : QueueAct) : Prop :=
  ∃ o s' ds l' free drawn back, s.act w a = some (o, s') ∧ Means w o ds ∧ Matches l ds l' ∧
    Books w s' l' free drawn back

/-! ### The master -/

/-- A chain is taken from the free ones and written: the master has it in hand. -/
theorem Books.add (h : Books w s l free drawn back) {bufs : List VirtqueueBuf}
    {readable writable cookie : ℕ} (hu : s.Allowed (.add bufs readable writable cookie)) :
    Followed w s l (.add bufs readable writable cookie) := by
  obtain ⟨hidle, hlen, hpos, hcookie, hroom, -⟩ := hu
  have hmaster := h.master
  rw [hidle] at hmaster
  obtain ⟨hinuse⟩ := hmaster
  -- Without a free descriptor nothing is added.
  by_cases hfull : (s.vq .master).vqFreeCnt = 0
  · refine ⟨none, s.put .master { s.vq .master with vqInuse := false } s.ring .idle, [], l, free,
      [], back, ?_, .nothing, .none, ?_⟩
    · rw [act, addBufferStart, if_neg (by omega), if_pos hfull, busy, hinuse]
      rfl
    · exact h.aside ⟨rfl, fun role => by cases role <;> rfl, rfl⟩ (.idle rfl) h.slave
  · -- The buffers get descriptors, and the slot behind the last that is held gets their head.
    have hfree : bufs.length ≤ free.length := h.pool.count ▸ hroom hfull
    obtain ⟨p, vq', desc', rfl, rfl, rfl, hstart, hvq, hpool⟩ :=
      h.pool.draw hinuse hlen hpos hfree hcookie
    have hcounted := h.pool.length_le
    simp only [List.nil_append, List.length_append, List.length_map] at hcounted
    have hfew : (l.offered.map Post.head).length < (s.vq .master).vqNentries := by
      rw [List.length_map]
      omega
    have hentries : vq'.vqNentries = (s.vq .master).vqNentries := by rw [hvq]
    have hcons : vq'.vqUsedConsIdx = (s.vq .master).vqUsedConsIdx := by rw [hvq]
    refine ⟨none, s.put .master vq' ((s.vq .master).placeAvail p.head { s.ring with desc := desc' })
      (.adding p.bufs p.readable p.cookie), [], l, free.drop p.bufs.length, [p], back, ?_, .nothing,
      .none, ?_⟩
    · rw [act, hstart]
      rfl
    · exact {
        entries := hentries.trans h.entries
        power := by simpa only [put_vq, hentries] using h.power
        pool := hpool
        avail := by
          simp only [put_vq, put_vq_slave, put_ring, placeAvail, h.mask, hentries]
          exact h.avail.fill h.dvd hfew p.head
        used := by
          simp only [put_vq, put_ring, placeAvail, hentries, hcons]
          exact h.used
        drawnSlot := by
          simp only [List.mem_singleton, forall_eq, put_vq, put_ring, placeAvail, h.mask, hentries]
          exact Function.update_self _ _ _
        backSlot := by
          simp only [put_vq, put_ring, placeAvail, hentries]
          exact h.backSlot
        held := h.held
        master := by simpa only [put_vq, put_call] using .adding p
        slave := h.slave }

/-- The index is advanced: the chain is offered. -/
theorem Books.publish (h : Books w s l free drawn back) (hu : s.Allowed .publish) :
    Followed w s l .publish := by
  obtain ⟨bufs, readable, cookie, hadding⟩ := hu
  have hmaster := h.master
  rw [hadding] at hmaster
  obtain - | - | - | p := hmaster
  have hslot := h.drawnSlot p (List.mem_singleton_self p)
  refine ⟨some (.posted p.bufs p.readable p.cookie), s.put .master
    ((s.vq .master).addBufferFinish s.ring).1 ((s.vq .master).addBufferFinish s.ring).2 .idle,
    [.offer p], { l with offered := l.offered ++ [p] }, free, [], back, ?_, .posted p,
    .one (.offer l p), ?_⟩
  · rw [act, hadding]
  · exact {
      entries := h.entries
      power := h.power
      pool := by
        have hperm : ([p] ++ l.offered ++ l.held ++ l.returned.map Prod.fst).Perm
            ([] ++ (l.offered ++ [p]) ++ l.held ++ l.returned.map Prod.fst) := by
          rw [List.nil_append]
          exact (List.perm_append_comm.append_right _).append_right _
        have hpool := h.pool.perm hperm
        -- The pool is as before: the chain is still out.
        exact ⟨hpool.small, hpool.chain, hpool.count, hpool.cover, hpool.laid, hpool.extra,
          hpool.clear⟩
      avail := by
        rw [List.map_append]
        exact h.avail.push h.dvd hslot
      used := h.used
      drawnSlot := by simp
      backSlot := h.backSlot
      held := h.held
      master := by
        rw [put_call]
        exact .idle rfl
      slave := h.slave.mono (fun _ => by simp) fun _ hp => hp }

/-- As much as there are descriptors is with the other side at most. -/
theorem Books.few (h : Books w s l free drawn back) :
    drawn.length + l.offered.length + l.held.length + l.returned.length ≤
      (s.vq .master).vqNentries ∧ (s.vq .master).vqNentries < 2 ^ 16 := by
  have hcounted := h.pool.length_le
  have hsmall := h.pool.small
  simp only [List.length_append, List.length_map] at hcounted
  omega

theorem Books.look (h : Books w s l free drawn back) (hu : s.Allowed .look) :
    Followed w s l .look := by
  have hmaster := h.master
  rw [show s.call .master = .idle from hu] at hmaster
  obtain ⟨hinuse⟩ := hmaster
  have hnil := h.used.nil_iff (by have := h.few; rw [List.length_map]; omega)
  rw [List.map_eq_nil_iff] at hnil
  by_cases hempty : (s.vq .master).vqUsedConsIdx = s.ring.usedIdx
  · refine ⟨none, s.put .master (s.vq .master) s.ring .idle, [], l, free, [], back, ?_, .nothing,
      .none, h.aside ⟨rfl, fun role => by cases role <;> rfl, rfl⟩ (.idle hinuse) h.slave⟩
    rw [act, getBufferStart, if_pos hempty]
    rfl
  · refine ⟨none, s.put .master { s.vq .master with vqInuse := true } s.ring .getting, [], l, free,
      [], back, ?_, .nothing, .none, h.aside ⟨rfl, fun role => by cases role <;> rfl, rfl⟩ ?_
      h.slave⟩
    · rw [act, getBufferStart, if_neg hempty, busy, hinuse]
      rfl
    · rw [put_call]
      exact .getting fun hl => hempty (hnil.mpr hl)

/-- The chain is free again, and its cookie is returned. -/
theorem Books.collect (h : Books w s l free drawn back) (hu : s.Allowed .collect) :
    Followed w s l .collect := by
  have hmaster := h.master
  rw [show s.call .master = .getting from hu] at hmaster
  obtain - | - | hne | - := hmaster
  obtain ⟨⟨p, len⟩, rest, hl⟩ := List.exists_cons_of_ne_nil hne
  -- The slot at the front of the ring holds what came back first, and its chain becomes free.
  have hused := h.used
  rw [hl, List.map_cons] at hused
  obtain ⟨hslot, hused⟩ := hused.pop h.dvd
  have hpool : Pool w.toPhys
      { s.vq .master with vqUsedConsIdx := add16 (s.vq .master).vqUsedConsIdx 1 } s.ring.desc free
      (p :: (l.offered ++ l.held ++ rest.map Prod.fst)) := by
    have hp := h.pool
    rw [hl, List.map_cons, List.nil_append] at hp
    have hperm := hp.perm List.perm_middle
    exact ⟨hperm.small, hperm.chain, hperm.count, hperm.cover, hperm.laid, hperm.extra,
      hperm.clear⟩
  have hlt : p.head < 2 ^ 16 := (hpool.lt (hpool.head_mem List.mem_cons_self)).trans
    (hpool.small.trans_lt (by decide))
  obtain ⟨vq', desc', hfreed, hvq, hextra, hpool'⟩ := hpool.putBack
  have hentries : vq'.vqNentries = (s.vq .master).vqNentries := by rw [hvq]
  have hcons : vq'.vqUsedConsIdx = add16 (s.vq .master).vqUsedConsIdx 1 := by rw [hvq]
  refine ⟨some (.collected p.cookie len), s.put .master
    { vq' with vqDescx := Function.update vq'.vqDescx p.head ⟨0, 0⟩ }.idle
    { s.ring with desc := desc' } .idle, [.collect p len], { l with returned := rest },
    p.chain ++ free, [], back, ?_, .collected p len, .one (.collect l hl), ?_⟩
  · rw [act, getBufferFinish]
    simp only [h.mask, hslot, Nat.mod_eq_of_lt hlt, hfreed, Option.map_some, hextra]
  · exact {
      entries := hentries.trans h.entries
      power := by simpa only [put_vq, idle, hentries] using h.power
      pool := ⟨hpool'.small, hpool'.chain, hpool'.count, hpool'.cover, hpool'.laid, hpool'.extra,
        hpool'.clear⟩
      avail := by
        simp only [put_vq, put_vq_slave, put_ring, idle, hentries]
        exact h.avail
      used := by
        simp only [put_vq, put_ring, idle, hentries, hcons]
        exact hused
      drawnSlot := by simp
      backSlot := by
        simp only [put_vq, put_ring, idle, hentries]
        exact h.backSlot
      held := h.held
      master := by
        rw [put_call]
        exact .idle rfl
      slave := h.slave }

/-! ### The slave -/

theorem Books.peek (h : Books w s l free drawn back) (hu : s.Allowed .peek) :
    Followed w s l .peek := by
  have hslave := h.slave
  rw [show s.call .slave = .idle from hu] at hslave
  obtain ⟨hinuse⟩ := hslave
  have hnil := h.avail.nil_iff (by have := h.few; rw [List.length_map]; omega)
  rw [List.map_eq_nil_iff] at hnil
  by_cases hempty : (s.vq .slave).vqAvailableIdx = s.ring.availIdx
  · refine ⟨none, s.put .slave (s.vq .slave) s.ring .idle, [], l, free, drawn, [], ?_, .nothing,
      .none, h.aside ⟨rfl, fun role => by cases role <;> rfl, rfl⟩ h.master (.idle hinuse)⟩
    rw [act, getAvailableStart, if_pos hempty]
    rfl
  · refine ⟨none, s.put .slave { s.vq .slave with vqInuse := true } s.ring .getting, [], l, free,
      drawn, [], ?_, .nothing, .none, h.aside ⟨rfl, fun role => by cases role <;> rfl, rfl⟩
      h.master ?_⟩
    · rw [act, getAvailableStart, if_neg hempty, busy, hinuse]
      rfl
    · rw [put_call]
      exact .getting fun hl => hempty (hnil.mpr hl)

theorem Books.take (h : Books w s l free drawn back) (hu : s.Allowed .take) :
    Followed w s l .take := by
  have hslave := h.slave
  rw [show s.call .slave = .getting from hu] at hslave
  obtain - | - | hne | - := hslave
  obtain ⟨p, rest, hl⟩ := List.exists_cons_of_ne_nil hne
  -- The slot at the front of the ring holds the head of what was offered first.
  have havail := h.avail
  rw [hl, List.map_cons] at havail
  obtain ⟨hslot, havail⟩ := havail.pop h.dvd
  have hp : p ∈ drawn ++ l.offered ++ l.held ++ l.returned.map Prod.fst := by simp [hl]
  have hlaid := h.pool.laid p hp
  obtain ⟨b, hfirst⟩ : ∃ b, p.bufs[0]? = some b := ⟨_, List.getElem?_eq_getElem hlaid.pos⟩
  have hhead : p.chain[0]? = some p.head := by
    rw [h.pool.chain_eq hp]
    rfl
  obtain ⟨haddr, hlen, -⟩ := hlaid.buffers 0 _ _ hhead hfirst
  refine ⟨some (.taken (w.toVirt (w.toPhys b.buf)) p.head b.len), { s.put .slave
      { s.vq .slave with vqAvailableIdx := add16 (s.vq .slave).vqAvailableIdx 1 }.idle s.ring
      .idle with held := p.head :: s.held }, [.take p],
    { l with offered := rest, held := p :: l.held }, free, drawn, [], ?_, .taken hfirst,
    .one (.take l hl), ?_⟩
  · rw [act, getAvailableFinish]
    simp only [← h.entries, h.mask, hslot, haddr, hlen]
  · exact {
      entries := h.entries
      power := h.power
      pool := by
        have hperm : (drawn ++ l.offered ++ l.held ++ l.returned.map Prod.fst).Perm
            (drawn ++ rest ++ (p :: l.held) ++ l.returned.map Prod.fst) := by
          rw [hl]
          refine List.Perm.append_right _ ?_
          rw [List.append_assoc, List.append_assoc]
          exact List.Perm.append_left _ List.perm_middle.symm
        exact h.pool.perm hperm
      avail := havail
      used := h.used
      drawnSlot := h.drawnSlot
      backSlot := by simp
      held := h.held.cons p.head
      master := h.master
      slave := by
        rw [put_call]
        exact .idle rfl }

/-- The slave writes the used element of a chain that it holds. -/
theorem Books.giveBack (h : Books w s l free drawn back) {idx len : ℕ}
    (hu : s.Allowed (.giveBack idx len)) : Followed w s l (.giveBack idx len) := by
  obtain ⟨hidle, hmem, -⟩ := hu
  have hslave := h.slave
  rw [hidle] at hslave
  obtain ⟨hinuse⟩ := hslave
  obtain ⟨p, hp, rfl⟩ := List.mem_map.mp (h.held.subset hmem)
  have hin : p ∈ drawn ++ l.offered ++ l.held ++ l.returned.map Prod.fst := by simp [hp]
  have hlt := h.pool.lt (h.pool.head_mem hin)
  -- The ring has room, as what is given back is still counted as held.
  have hfew : (l.returned.map fun x => (x.1.head, x.2)).length < (s.vq .master).vqNentries := by
    have hheld := List.length_pos_of_mem hp
    have hcounted := h.few.1
    rw [List.length_map]
    omega
  refine ⟨none, s.put .slave { s.vq .slave with vqInuse := true } { s.ring with
    usedRing := Function.update s.ring.usedRing (s.ring.usedIdx % (s.vq .master).vqNentries)
      (p.head, len) } (.returning p.head len), [], l, free, drawn, [(p, len)], ?_, .nothing, .none,
    ?_⟩
  · rw [act, addConsumedStart, if_neg (by rw [← h.entries]; omega), busy, hinuse]
    simp only [Bool.false_eq_true, if_false, Option.map_some, ← h.entries, h.mask, if_true]
  · exact {
      entries := h.entries
      power := h.power
      pool := h.pool
      avail := h.avail
      used := h.used.fill h.dvd hfew _
      drawnSlot := h.drawnSlot
      backSlot := by
        simp only [List.mem_singleton, forall_eq]
        exact Function.update_self _ _ _
      held := h.held
      master := h.master
      slave := by
        rw [put_call]
        exact .returning hp len }

/-- The index is advanced: the chain is returned. -/
theorem Books.announce (h : Books w s l free drawn back) (hu : s.Allowed .announce) :
    Followed w s l .announce := by
  obtain ⟨idx, len, hreturning⟩ := hu
  have hslave := h.slave
  rw [hreturning] at hslave
  obtain - | - | - | ⟨hp, len⟩ := hslave
  rename_i p
  have hslot := h.backSlot (p, len) (List.mem_singleton_self _)
  have hheld := (List.perm_cons_erase hp).map Post.head
  refine ⟨some (.returned p.head len), { s.put .slave ((s.vq .slave).addConsumedFinish s.ring).1
    ((s.vq .slave).addConsumedFinish s.ring).2 .idle with held := s.held.erase p.head },
    [.giveBack p len], { l with
      held := l.held.erase p, returned := l.returned ++ [(p, len)] }, free, drawn, [], ?_,
    .returned p len, .one (.giveBack l hp len), ?_⟩
  · rw [act, hreturning]
  · exact {
      entries := h.entries
      power := h.power
      pool := by
        have hperm : (drawn ++ l.offered ++ l.held ++ l.returned.map Prod.fst).Perm
            (drawn ++ l.offered ++ l.held.erase p ++ (l.returned ++ [(p, len)]).map Prod.fst) := by
          rw [List.map_append, List.append_assoc, List.append_assoc (drawn ++ l.offered)]
          refine List.Perm.append_left _ ?_
          refine ((List.perm_cons_erase hp).append_right _).trans ?_
          rw [← List.append_assoc]
          exact @List.perm_append_comm _ [p] _
        exact h.pool.perm hperm
      avail := h.avail
      used := by
        -- The used element was written before: advancing the index returns it.
        rw [List.map_append]
        exact h.used.push h.dvd hslot
      drawnSlot := h.drawnSlot
      backSlot := by simp
      held := by
        have herase := (h.held.trans hheld).erase p.head
        rwa [List.map_cons, List.erase_cons_head] at herase
      master := h.master.mono fun _ => by simp
      slave := by
        rw [put_call]
        exact .idle rfl }

/-! ### Notifications -/

/-- Between calls a queue is not in use. -/
theorem Books.inuse (h : Books w s l free drawn back)
    (hcall : s.call role = .idle ∨ s.call role = .enabling) : (s.vq role).vqInuse = false := by
  cases role with
  | master =>
    have hmaster := h.master
    rcases hcall with hcall | hcall <;> rw [hcall] at hmaster <;> cases hmaster <;> assumption
  | slave =>
    have hslave := h.slave
    rcases hcall with hcall | hcall <;> rw [hcall] at hslave <;> cases hslave <;> assumption

/-- A side that is not in the middle of a call goes on. -/
theorem Books.goOn (h : Books w s l free drawn back)
    (hcall : s.call role = .idle ∨ s.call role = .enabling) (hs : Aside s s')
    (hinuse : (s'.vq role).vqInuse = false) (hnew : s'.call role = .idle ∨ s'.call role = .enabling)
    (hothervq : s'.vq (other role) = s.vq (other role))
    (hothercall : s'.call (other role) = s.call (other role)) :
    Books w s' l free drawn back := by
  cases role with
  | master =>
    have hslave : SlaveAt (s'.vq .slave) l.offered l.held (s'.call .slave) back := by
      rw [show s'.vq .slave = s.vq .slave from hothervq,
        show s'.call .slave = s.call .slave from hothercall]
      exact h.slave
    have hdrawn : drawn = [] := by
      have hmaster := h.master
      rcases hcall with hcall | hcall <;> rw [hcall] at hmaster <;> cases hmaster <;> rfl
    subst hdrawn
    refine h.aside hs ?_ hslave
    rcases hnew with hnew | hnew <;> rw [hnew]
    exacts [.idle hinuse, .enabling hinuse]
  | slave =>
    have hmaster : MasterAt (s'.vq .master) l.returned (s'.call .master) drawn := by
      rw [show s'.vq .master = s.vq .master from hothervq,
        show s'.call .master = s.call .master from hothercall]
      exact h.master
    have hback : back = [] := by
      have hslave := h.slave
      rcases hcall with hcall | hcall <;> rw [hcall] at hslave <;> cases hslave <;> rfl
    subst hback
    refine h.aside hs hmaster ?_
    rcases hnew with hnew | hnew <;> rw [hnew]
    exacts [.idle hinuse, .enabling hinuse]

/-- A call that changes counts and notification fields only is beside the books. -/
theorem aside_put (s : Traffic) (role : VirtioRole) (vq' : Virtqueue) (ring' : Vring)
    (hvq : vq' = { s.vq role with vqQueuedCnt := vq'.vqQueuedCnt, vqInuse := vq'.vqInuse })
    (hring : ring' = { s.ring with
      availFlags := ring'.availFlags
      usedEvent := ring'.usedEvent
      usedFlags := ring'.usedFlags
      availEvent := ring'.availEvent }) (call : Call) : Aside s (s.put role vq' ring' call) where
  ring := hring
  vq role' := by
    by_cases hr : role' = role
    · rw [hr, put_vq]
      exact hvq
    · have hsame : (s.put role vq' ring' call).vq role' = s.vq role' :=
        Function.update_of_ne hr _ _
      rw [hsame]
  held := rfl

/-- The other side stays where it is. -/
theorem put_other : (s.put role vq ring call).vq (other role) = s.vq (other role) ∧
    (s.put role vq ring call).call (other role) = s.call (other role) := by
  cases role <;> exact ⟨rfl, rfl⟩

/-- A kick resets the count, and wakes the other side where it has to be notified. -/
theorem Books.kick (h : Books w s l free drawn back) (hu : s.Allowed (.kick role)) :
    Followed w s l (.kick role) := by
  have hinuse := h.inuse (.inl hu)
  obtain ⟨must, hmust⟩ : ∃ must, (s.vq role).virtqueueKick w.eventIdx role s.ring =
      some (must, { s.vq role with vqInuse := false, vqQueuedCnt := 0 }) := by
    simp only [Virtqueue.virtqueueKick, busy, hinuse, Bool.false_eq_true, if_false,
      Option.map_some, idle]
    exact ⟨_, rfl⟩
  have haside := aside_put s role { s.vq role with vqInuse := false, vqQueuedCnt := 0 } s.ring
    rfl rfl .idle
  have hbooks := h.goOn (.inl hu) haside (by rw [put_vq]) (.inl put_call) put_other.1 put_other.2
  cases must with
  | true =>
    refine ⟨some .notified, { s.put role { s.vq role with vqInuse := false, vqQueuedCnt := 0 }
      s.ring .idle with asleep := update (update s.asleep role false) (other role) false },
      [], l, free, drawn, back, ?_, .notified, .none,
      hbooks.aside ⟨rfl, fun _ => rfl, rfl⟩ hbooks.master hbooks.slave⟩
    rw [act, hmust]
    rfl
  | false =>
    refine ⟨none, _, [], l, free, drawn, back, ?_, .nothing, .none, hbooks⟩
    rw [act, hmust]
    rfl

/-- Asking for notifications writes a flag or an event index. -/
theorem Books.enable (h : Books w s l free drawn back) (hu : s.Allowed (.enable role)) :
    Followed w s l (.enable role) := by
  have haside := aside_put s role (s.vq role)
    ((s.vq role).enableStart w.eventIdx role s.ring) rfl
    (by unfold enableStart; split <;> rfl) .enabling
  exact ⟨none, _, [], l, free, drawn, back, rfl, .nothing, .none,
    h.goOn (.inl hu) haside (by rw [put_vq]; exact h.inuse (.inl hu)) (.inr put_call) put_other.1
      put_other.2⟩

/-- What the other side has made available is counted. -/
theorem Books.pending (h : Books w s l free drawn back) (role : VirtioRole) :
    (s.vq role).pending role s.ring = some (match role with
      | .master => l.returned.length
      | .slave => l.offered.length) := by
  have hfew := h.few
  cases role with
  | master =>
    have hdistance := h.used.distance (by rw [List.length_map]; omega)
    rw [List.length_map] at hdistance
    simp only [Virtqueue.pending, sub16, hdistance]
    exact if_pos (by omega)
  | slave =>
    have hdistance := h.avail.distance (by rw [List.length_map]; omega)
    rw [List.length_map] at hdistance
    simp only [Virtqueue.pending, sub16, hdistance]
    exact if_pos (by rw [← h.entries]; omega)

/-- The side looks whether something has come in meanwhile, and sleeps if nothing has. -/
theorem Books.check (h : Books w s l free drawn back) (hu : s.Allowed (.check role)) :
    Followed w s l (.check role) := by
  have haside := aside_put s role (s.vq role) s.ring rfl rfl .idle
  have hinuse := h.inuse (.inr hu)
  have hbooks := h.goOn (.inr hu) haside (by rwa [put_vq]) (.inl put_call) put_other.1 put_other.2
  obtain ⟨more, hmore⟩ : ∃ more, (s.vq role).enableFinish role s.ring = some more := by
    rw [enableFinish, h.pending role]
    exact ⟨_, rfl⟩
  refine ⟨none, { s.put role (s.vq role) s.ring .idle with
    asleep := update s.asleep role (!more) }, [], l, free, drawn, back, ?_,
    .nothing, .none, hbooks.aside ⟨rfl, fun _ => rfl, rfl⟩ hbooks.master hbooks.slave⟩
  rw [act, hmore]
  rfl

/-- Switching notifications off writes a flag or an event index. -/
theorem Books.disable (h : Books w s l free drawn back) (hu : s.Allowed (.disable role)) :
    Followed w s l (.disable role) := by
  have hinuse := h.inuse (.inl hu)
  obtain ⟨ring', hdisable, hring⟩ : ∃ ring', (s.vq role).virtqueueDisableCb w.eventIdx role s.ring =
      some ({ s.vq role with vqInuse := false }, ring') ∧ ring' = { s.ring with
        availFlags := ring'.availFlags
        usedEvent := ring'.usedEvent
        usedFlags := ring'.usedFlags
        availEvent := ring'.availEvent } := by
    simp only [Virtqueue.virtqueueDisableCb, busy, hinuse, Bool.false_eq_true, if_false,
      Option.map_some, idle]
    refine ⟨_, rfl, ?_⟩
    split <;> rfl
  have haside := aside_put s role { s.vq role with vqInuse := false } ring' rfl hring .idle
  refine ⟨none, _, [], l, free, drawn, back, ?_, .nothing, .none,
    h.goOn (.inl hu) haside (by rw [put_vq]) (.inl put_call) put_other.1 put_other.2⟩
  rw [act, hdisable]
  rfl

/-- Every step of a side ends, and the parties can follow it. -/
theorem Books.act (h : Books w s l free drawn back) {a : QueueAct} (hu : s.Allowed a) :
    Followed w s l a := by
  cases a with
  | add => exact h.add hu
  | publish => exact h.publish hu
  | look => exact h.look hu
  | collect => exact h.collect hu
  | peek => exact h.peek hu
  | take => exact h.take hu
  | giveBack => exact h.giveBack hu
  | announce => exact h.announce hu
  | kick => exact h.kick hu
  | enable => exact h.enable hu
  | check => exact h.check hu
  | disable => exact h.disable hu

end Traffic

end C906Firmware
