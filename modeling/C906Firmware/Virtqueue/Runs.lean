import C906Firmware.Virtqueue.Traffic

/-!
# Runs of a virtqueue

What both sides see from `virtqueue_create` on (`Traffic.Reaches`) is what two parties see that lend
each other things (`Traffic.Reaches.deals`): no assertion fails (`Traffic.Reaches.goes_on`), buffers
are used in the order in which they were made available and come back to whoever made them available
with what was said about them (`Traffic.Reaches.in_order`), and no descriptor is lost
(`Traffic.Reaches.all_free`).
-/

namespace C906Firmware

open Virtqueue

namespace Traffic

/-- What `virtqueue_allocate` gives. -/
def allocated : Virtqueue := ⟨0, 0, 0, 0, 0, 0, false, fun _ => ⟨0, 0⟩⟩

/-- A ring that has been cleared -/
def blankRing : Vring := ⟨fun _ => ⟨0, 0, 0, 0⟩, 0, 0, fun _ => 0, 0, 0, 0, fun _ => (0, 0), 0⟩

/-- Both sides have called `virtqueue_create`. -/
def created (n : ℕ) : Traffic where
  ring := (Virtqueue.virtqueueCreate .master n allocated blankRing).2.2
  vq role := (Virtqueue.virtqueueCreate role n allocated blankRing).2.1
  call _ := .idle
  held := []
  asleep _ := false

/-- What both sides may have seen of a queue with `n` descriptors when it is in a state. -/
inductive Reaches (w : Wiring) (n : ℕ) : Traffic → List Sight → Prop
  | start : Reaches w n (created n) []
  | step {s s' : Traffic} {seen : List Sight} {a : QueueAct} {o : Option Sight}
      (h : Reaches w n s seen) (hu : s.Allowed a) (hact : s.act w a = some (o, s')) :
      Reaches w n s' (seen ++ o.toList)

end Traffic

namespace Sight

def posted? : Sight → Option (List VirtqueueBuf × ℕ × ℕ)
  | posted bufs readable cookie => some (bufs, readable, cookie)
  | _ => none

def taken? : Sight → Option (ℕ × ℕ × ℕ)
  | taken buffer idx len => some (buffer, idx, len)
  | _ => none

def returned? : Sight → Option (ℕ × ℕ)
  | returned idx len => some (idx, len)
  | _ => none

def collected? : Sight → Option (ℕ × ℕ)
  | collected cookie len => some (cookie, len)
  | _ => none

end Sight

/-- The first of the buffers, which is the one `virtqueue_get_available_buffer` returns. -/
def Post.first (p : Post) : VirtqueueBuf := p.bufs.headD ⟨0, 0⟩

namespace Traffic

variable {w : Wiring} {n k : ℕ} {s s' : Traffic} {l : Loans Post ℕ} {seen : List Sight}
  {ds : List (Deal Post ℕ)} {a : QueueAct}

/-! ### The beginning -/

/-- Links to the next number lead over all numbers. -/
theorem leads_range {next : ℕ → ℕ} {m : ℕ} (h : ∀ i < m, next i = i + 1) :
    Leads next 0 (List.range m) m := by
  induction m with
  | zero => exact rfl
  | succ m ih =>
    rw [List.range_succ, leads_concat]
    exact ⟨ih fun i hi => h i (hi.trans m.lt_succ_self), h m m.lt_succ_self⟩

/-- Each descriptor is linked to the one behind it. -/
theorem foldl_setNext {desc : ℕ → VringDesc} {m i : ℕ} (hi : i < m) :
    ((List.range m).foldl (fun desc i => setNext desc i (i + 1)) desc i).next = i + 1 := by
  induction m with
  | zero => omega
  | succ m ih =>
    rw [List.range_succ, List.foldl_append, List.foldl_cons, List.foldl_nil]
    by_cases him : i = m
    · rw [him, setNext, Function.update_self]
    · rw [setNext_of_ne him]
      exact ih (by omega)

/-- `vq_ring_init` makes one chain of all descriptors. -/
theorem leads_vqRingInit {desc : ℕ → VringDesc} (hn : 0 < n) :
    Leads (fun i => (vqRingInit n desc i).next) 0 (List.range n) VQ_RING_DESC_CHAIN_END := by
  obtain ⟨m, rfl⟩ := Nat.exists_eq_succ_of_ne_zero hn.ne'
  rw [Nat.succ_eq_add_one, List.range_succ, leads_concat]
  refine ⟨leads_range fun i hi => ?_, ?_⟩
  · rw [vqRingInit, Nat.add_sub_cancel, setNext_of_ne hi.ne]
    exact foldl_setNext hi
  · rw [vqRingInit, Nat.add_sub_cancel, setNext, Function.update_self]

/-- What a virtqueue is after its creation, with a power of two of descriptors. -/
theorem virtqueueCreate_pow (role : VirtioRole) (k : ℕ) :
    Virtqueue.virtqueueCreate role (2 ^ k) allocated blankRing =
      (VQUEUE_SUCCESS, { allocated with vqNentries := 2 ^ k, vqFreeCnt := 2 ^ k },
        if role = .master then { blankRing with desc := vqRingInit (2 ^ k) blankRing.desc }
        else blankRing) := by
  have hpos : 2 ^ k ≠ 0 := (Nat.two_pow_pos k).ne'
  rw [Virtqueue.virtqueueCreate, if_neg hpos, if_neg]
  rw [Nat.and_two_pow_sub_one_eq_mod, Nat.mod_self]
  exact fun h => h rfl

theorem books_created (hk : k ≤ 15) :
    Books w (created (2 ^ k)) (Loans.empty Post ℕ) (List.range (2 ^ k)) [] [] := by
  have hvq (role : VirtioRole) : (created (2 ^ k)).vq role =
      { allocated with vqNentries := 2 ^ k, vqFreeCnt := 2 ^ k } :=
    congrArg (fun x => x.2.1) (virtqueueCreate_pow role k)
  have hring : (created (2 ^ k)).ring =
      { blankRing with desc := vqRingInit (2 ^ k) blankRing.desc } := by
    rw [created, virtqueueCreate_pow]
    rfl
  exact {
    entries := by rw [hvq, hvq]
    power := ⟨k, hk, by rw [hvq]⟩
    pool := by
      rw [hvq, hring]
      exact {
        small := Nat.pow_le_pow_right (by decide) hk
        chain := leads_vqRingInit (Nat.two_pow_pos k)
        count := List.length_range.symm
        cover := by
          rw [Loans.empty, List.map_nil, List.nil_append, List.append_nil, List.append_nil,
            List.flatMap_nil, List.append_nil]
        laid := by simp [Loans.empty]
        extra := by simp [Loans.empty]
        clear := fun _ _ => rfl }
    avail := by
      rw [hvq, hvq, hring]
      exact Lane.empty _ _
    used := by
      rw [hvq, hring]
      exact Lane.empty _ _
    drawnSlot := by simp
    backSlot := by simp
    held := List.Perm.refl _
    master := .idle (by rw [hvq]; rfl)
    slave := .idle (by rw [hvq]; rfl) }

/-! ### What has been seen -/

/-- What has been seen, as steps of the parties. -/
inductive Meant (w : Wiring) : List Sight → List (Deal Post ℕ) → Prop
  | start : Meant w [] []
  | step {seen : List Sight} {ds ds' : List (Deal Post ℕ)} {o : Option Sight}
      (h : Meant w seen ds) (ho : Means w o ds') : Meant w (seen ++ o.toList) (ds ++ ds')

/-- What has been seen, step by step, is what the deals mean, step by step. -/
theorem Meant.map {γ δ : Type} (h : Meant w seen ds) {f : Sight → Option γ}
    {g : Deal Post ℕ → Option δ} {m : δ → γ}
    (hone : ∀ o ds', Means w o ds' → o.toList.filterMap f = (ds'.filterMap g).map m) :
    seen.filterMap f = (ds.filterMap g).map m := by
  induction h with
  | start => rfl
  | step h ho ih =>
    rw [List.filterMap_append, List.filterMap_append, List.map_append, ih, hone _ _ ho]

/-- The buffers that have been added are the posts offered. -/
theorem Meant.posted (h : Meant w seen ds) : seen.filterMap Sight.posted? =
    (ds.filterMap Deal.offered?).map fun p => (p.bufs, p.readable, p.cookie) :=
  h.map fun o ds' ho => by cases ho <;> rfl

/-- The buffers that have been taken are the posts taken. -/
theorem Meant.taken (h : Meant w seen ds) : seen.filterMap Sight.taken? =
    (ds.filterMap Deal.taken?).map
      fun p => (w.toVirt (w.toPhys p.first.buf), p.head, p.first.len) :=
  h.map fun o ds' ho => by
    cases ho with
    | @taken p b hb =>
      have hfirst : p.first = b := by
        rw [Post.first, List.headD_eq_head?_getD, List.head?_eq_getElem?, hb]
        rfl
      rw [← hfirst]
      rfl
    | _ => rfl

/-- The buffers that have been given back are the posts returned. -/
theorem Meant.returned (h : Meant w seen ds) : seen.filterMap Sight.returned? =
    (ds.filterMap Deal.returned?).map fun x => (x.1.head, x.2) :=
  h.map fun o ds' ho => by cases ho <;> rfl

/-- The buffers that have been collected are the posts collected. -/
theorem Meant.collected (h : Meant w seen ds) : seen.filterMap Sight.collected? =
    (ds.filterMap Deal.collected?).map fun x => (x.1.cookie, x.2) :=
  h.map fun o ds' ho => by cases ho <;> rfl

/-- The two parties can follow every run. -/
theorem Reaches.deals (h : Reaches w (2 ^ k) s seen) (hk : k ≤ 15) :
    ∃ ds l free drawn back, Loans.Run l ds ∧ Meant w seen ds ∧ Books w s l free drawn back := by
  induction h with
  | start => exact ⟨[], _, _, [], [], .start, .start, books_created hk⟩
  | step h hu hact ih =>
    obtain ⟨ds, l, free, drawn, back, hrun, hmeant, hbooks⟩ := ih
    obtain ⟨o, s', ds', l', free', drawn', back', hact', ho, hmatches, hbooks'⟩ := hbooks.act hu
    -- The side has no choice: what it did is what the parties can follow.
    obtain ⟨rfl, rfl⟩ := Prod.mk.inj (Option.some.inj (hact.symm.trans hact'))
    refine ⟨ds ++ ds', l', free', drawn', back', ?_, .step hmeant ho, hbooks'⟩
    cases hmatches with
    | none => rwa [List.append_nil]
    | one hstep => exact .step hrun hstep

/-! ### What holds in every run -/

/-- Both sides see the same addresses and notify by index. -/
def sameAddresses : Wiring := ⟨id, id, true⟩

/-- What is seen of a buffer and of a chain of two that are made available, taken, given back in
the other order, and collected. -/
def roundTrip : List Sight :=
  [.posted [⟨64, 16⟩] 0 7, .posted [⟨96, 8⟩, ⟨128, 4⟩] 1 9, .taken 64 0 16, .taken 96 1 8,
    .returned 1 3, .returned 0 5, .collected 9 3, .collected 7 5]

theorem reaches_roundTrip :
    ∃ s, Reaches sameAddresses (2 ^ 2) s roundTrip ∧ s.call = fun _ => .idle := by
  have hadd := Reaches.step (n := 2 ^ 2) (a := .add [⟨64, 16⟩] 0 1 7) (w := sameAddresses) .start
    ⟨rfl, rfl, by decide, by decide, fun _ => by decide, by decide⟩ rfl
  have hpublish := hadd.step (a := .publish) ⟨_, _, _, rfl⟩ rfl
  have hadd' := hpublish.step (a := .add [⟨96, 8⟩, ⟨128, 4⟩] 1 1 9)
    ⟨rfl, rfl, by decide, by decide, fun _ => by decide, by decide⟩ rfl
  have hpublish' := hadd'.step (a := .publish) ⟨_, _, _, rfl⟩ rfl
  have htake := (hpublish'.step (a := .peek) rfl rfl).step (a := .take) rfl rfl
  have htake' := (htake.step (a := .peek) rfl rfl).step (a := .take) rfl rfl
  have hgive := htake'.step (a := .giveBack 1 3) ⟨rfl, by decide, by decide⟩ rfl
  have hannounce := hgive.step (a := .announce) ⟨_, _, rfl⟩ rfl
  have hgive' := hannounce.step (a := .giveBack 0 5) ⟨rfl, by decide, by decide⟩ rfl
  have hannounce' := hgive'.step (a := .announce) ⟨_, _, rfl⟩ rfl
  have hcollect := (hannounce'.step (a := .look) rfl rfl).step (a := .collect) rfl rfl
  have hcollect' := (hcollect.step (a := .look) rfl rfl).step (a := .collect) rfl rfl
  refine ⟨_, hcollect', ?_⟩
  funext role
  cases role <;> rfl

/-- No assertion fails, and every call ends. -/
theorem Reaches.goes_on (h : Reaches w (2 ^ k) s seen) (hk : k ≤ 15) (hu : s.Allowed a) :
    ∃ o s', s.act w a = some (o, s') := by
  obtain ⟨ds, l, free, drawn, back, -, -, hbooks⟩ := h.deals hk
  obtain ⟨o, s', -, -, -, -, -, hact, -⟩ := hbooks.act hu
  exact ⟨o, s', hact⟩

theorem goes_on_roundTrip : ∃ s, Reaches sameAddresses (2 ^ 2) s roundTrip ∧
    ∃ o s', s.act sameAddresses .look = some (o, s') := by
  obtain ⟨s, hreaches, hcall⟩ := reaches_roundTrip
  exact ⟨s, hreaches, hreaches.goes_on (by decide) (a := .look) (congrFun hcall .master)⟩

/-- Buffers are used in the order in which they were made available. What is given back was in use
and had not been given back, and in the order in which it is, its cookie is returned with the length
that was used. -/
theorem Reaches.in_order (h : Reaches w (2 ^ k) s seen) (hk : k ≤ 15) :
    ∃ (posts : List Post) (used : List (Post × ℕ)) (i j : ℕ),
      seen.filterMap Sight.posted? = posts.map (fun p => (p.bufs, p.readable, p.cookie)) ∧
      seen.filterMap Sight.taken? = (posts.take i).map
        (fun p => (w.toVirt (w.toPhys p.first.buf), p.head, p.first.len)) ∧
      seen.filterMap Sight.returned? = used.map (fun x => (x.1.head, x.2)) ∧
      (used.map Prod.fst).Subperm (posts.take i) ∧
      seen.filterMap Sight.collected? = (used.take j).map (fun x => (x.1.cookie, x.2)) := by
  obtain ⟨ds, l, free, drawn, back, hrun, hmeant, -⟩ := h.deals hk
  have htaken : (ds.filterMap Deal.offered?).take (ds.filterMap Deal.taken?).length =
      ds.filterMap Deal.taken? := by
    rw [hrun.offers]
    exact List.take_left
  have hcollected : (ds.filterMap Deal.returned?).take (ds.filterMap Deal.collected?).length =
      ds.filterMap Deal.collected? := by
    rw [hrun.returns]
    exact List.take_left
  refine ⟨ds.filterMap Deal.offered?, ds.filterMap Deal.returned?,
    (ds.filterMap Deal.taken?).length, (ds.filterMap Deal.collected?).length, hmeant.posted, ?_,
    hmeant.returned, ?_, ?_⟩
  · rw [htaken]
    exact hmeant.taken
  · rw [htaken]
    exact (List.sublist_append_right _ _).subperm.trans hrun.takes.symm.subperm
  · rw [hcollected]
    exact hmeant.collected

theorem in_order_roundTrip : ∃ (posts : List Post) (used : List (Post × ℕ)) (i j : ℕ),
    [([⟨64, 16⟩], 0, 7), ([⟨96, 8⟩, ⟨128, 4⟩], 1, 9)] =
      posts.map (fun p => (p.bufs, p.readable, p.cookie)) ∧
    [(64, 0, 16), (96, 1, 8)] =
      (posts.take i).map (fun p => (p.first.buf, p.head, p.first.len)) ∧
    [(1, 3), (0, 5)] = used.map (fun x => (x.1.head, x.2)) ∧
    (used.map Prod.fst).Subperm (posts.take i) ∧
    [(9, 3), (7, 5)] = (used.take j).map (fun x => (x.1.cookie, x.2)) := by
  obtain ⟨s, hreaches, -⟩ := reaches_roundTrip
  exact hreaches.in_order (by decide)

/-- Once as much has been returned as was made available, all descriptors are free. -/
theorem Reaches.all_free (h : Reaches w (2 ^ k) s seen) (hk : k ≤ 15)
    (hcall : s.call .master = .idle)
    (hall : (seen.filterMap Sight.posted?).length = (seen.filterMap Sight.collected?).length) :
    (s.vq .master).vqFreeCnt = (s.vq .master).vqNentries := by
  obtain ⟨ds, l, free, drawn, back, hrun, hmeant, hbooks⟩ := h.deals hk
  rw [hmeant.posted, hmeant.collected, List.length_map, List.length_map, hrun.outstanding] at hall
  have hoffered : l.offered = [] := List.eq_nil_of_length_eq_zero (by omega)
  have hheld : l.held = [] := List.eq_nil_of_length_eq_zero (by omega)
  have hreturned : l.returned = [] := List.eq_nil_of_length_eq_zero (by omega)
  -- Nor is a chain on its way to the ring.
  have hdrawn : drawn = [] := by
    have hmaster := hbooks.master
    rw [hcall] at hmaster
    cases hmaster
    rfl
  have hsum := hbooks.pool.sum
  rw [hdrawn, hoffered, hheld, hreturned] at hsum
  exact hsum

theorem all_free_roundTrip : ∃ s, Reaches sameAddresses (2 ^ 2) s roundTrip ∧
    (s.vq .master).vqFreeCnt = (s.vq .master).vqNentries := by
  obtain ⟨s, hreaches, hcall⟩ := reaches_roundTrip
  exact ⟨s, hreaches, hreaches.all_free (by decide) (congrFun hcall .master) rfl⟩

end Traffic

end C906Firmware
