import C906Firmware.Lists.Chains
import C906Firmware.Model.Vring
import Mathlib.Algebra.Order.BigOperators.Group.List
import Mathlib.Data.List.Perm.Lattice

/-!
# The descriptors of a virtqueue

Every descriptor is in the free chain or in the chain of buffers that are with the other side
(`Pool`). Buffers get descriptors from the front of the free chain (`Pool.draw`), and their chain
goes back there when they are (`Pool.putBack`).
-/

namespace C906Firmware

/-- Buffers that are made available together, with the descriptors they get. -/
structure Post where
  chain : List ℕ
  bufs : List VirtqueueBuf
  readable : ℕ
  cookie : ℕ
  deriving DecidableEq

/-- The descriptor that stands for them. -/
def Post.head (p : Post) : ℕ := p.chain.headD VQ_RING_DESC_CHAIN_END

/-- The chain holds the buffers. -/
structure Post.Laid (toPhys : ℕ → ℕ) (desc : ℕ → VringDesc) (p : Post) : Prop where
  leads : ∃ z, Leads (fun i => (desc i).next) p.head p.chain z
  length : p.chain.length = p.bufs.length
  pos : 0 < p.bufs.length
  buffers : ∀ i d b, p.chain[i]? = some d → p.bufs[i]? = some b → (desc d).addr = toPhys b.buf ∧
    (desc d).len = b.len ∧ (desc d).flags = Virtqueue.descFlags p.readable p.bufs.length i

namespace Virtqueue

variable {toPhys : ℕ → ℕ} {desc desc' : ℕ → VringDesc} {bufs : List VirtqueueBuf}
  {chain free : List ℕ} {out out' : List Post} {p : Post} {vq : Virtqueue} {r : Vring}
  {readable writable needed cookie fuel i idx z n d : ℕ}

/-! ### Flags -/

theorem descFlags_next :
    descFlags readable needed i &&& VRING_DESC_F_NEXT ≠ 0 ↔ i + 1 < needed := by
  rw [descFlags]
  split <;> split <;> simp_all [VRING_DESC_F_NEXT, VRING_DESC_F_WRITE]

theorem descFlags_indirect : descFlags readable needed i &&& VRING_DESC_F_INDIRECT = 0 := by
  rw [descFlags]
  split <;> split <;> decide

/-! ### The loops -/

/-- Buffers are written along the chain, and the links stay. -/
theorem vqRingAddBuffer_some (hleads : Leads (fun i => (desc i).next) idx chain z)
    (hlen : chain.length = bufs.length) (hnodup : chain.Nodup)
    (hend : ∀ d ∈ chain, d ≠ VQ_RING_DESC_CHAIN_END) (i : ℕ) :
    ∃ desc', vqRingAddBuffer toPhys readable needed bufs i idx desc = some (z, desc') ∧
      (∀ d, (desc' d).next = (desc d).next) ∧ (∀ d, d ∉ chain → desc' d = desc d) ∧
      ∀ j d b, chain[j]? = some d → bufs[j]? = some b → (desc' d).addr = toPhys b.buf ∧
        (desc' d).len = b.len ∧ (desc' d).flags = descFlags readable needed (i + j) := by
  induction chain generalizing bufs i idx desc with
  | nil =>
    obtain rfl := List.length_eq_zero_iff.mp hlen.symm
    refine ⟨desc, ?_, fun _ => rfl, fun _ _ => rfl, fun j d b hd => by simp at hd⟩
    rw [vqRingAddBuffer, show idx = z from hleads]
  | cons c chain ih =>
    obtain ⟨b₀, bufs, rfl⟩ := List.exists_cons_of_length_eq_add_one hlen.symm
    obtain ⟨rfl, hrest⟩ := hleads
    rw [List.nodup_cons] at hnodup
    set desc₁ := Function.update desc idx
      ⟨toPhys b₀.buf, b₀.len, descFlags readable needed i, (desc idx).next⟩ with hdesc
    have hnext : ∀ d, (desc₁ d).next = (desc d).next := fun d => by
      by_cases hd : d = idx
      · rw [hd, hdesc, Function.update_self]
      · rw [hdesc, Function.update_of_ne hd]
    have hleads₁ : Leads (fun i => (desc₁ i).next) (desc idx).next chain z :=
      hrest.congr fun d _ => hnext d
    obtain ⟨desc', hsome, hnext', hsame, hwritten⟩ := ih hleads₁ (Nat.succ.inj hlen) hnodup.2
      (fun d hd => hend d (List.mem_cons_of_mem idx hd)) (i + 1)
    refine ⟨desc', ?_, fun d => (hnext' d).trans (hnext d), fun d hd => ?_, fun j d b hd hb => ?_⟩
    · rw [vqRingAddBuffer, if_neg (hend idx List.mem_cons_self)]
      exact hsome
    · rw [List.mem_cons, not_or] at hd
      rw [hsame d hd.2, hdesc, Function.update_of_ne hd.1]
    · cases j with
      | zero =>
        obtain rfl : idx = d := Option.some.inj hd
        obtain rfl : b₀ = b := Option.some.inj hb
        rw [hsame idx hnodup.1, hdesc, Function.update_self]
        exact ⟨rfl, rfl, rfl⟩
      | succ j =>
        have hj := hwritten j d b hd hb
        rwa [Nat.add_right_comm, Nat.add_assoc] at hj

/-- The loop of `vq_ring_free_chain` follows the chain to its end. -/
theorem freeWalk_some (hleads : Leads (fun i => (desc i).next) d (d :: chain) z)
    (hlt : ∀ c ∈ chain, c < vq.vqNentries) (hfuel : chain.length < fuel)
    (hshort : chain.length < 2 ^ 16)
    (hflags : ∀ j c, (d :: chain)[j]? = some c →
      ((desc c).flags &&& VRING_DESC_F_NEXT ≠ 0 ↔ j < chain.length)) :
    vq.freeWalk desc fuel d chain.length =
      some ((d :: chain).getLast (List.cons_ne_nil d chain), 0) := by
  induction chain generalizing d fuel with
  | nil =>
    obtain ⟨fuel, rfl⟩ := Nat.exists_eq_add_one_of_ne_zero hfuel.ne'
    have hlast : ¬((desc d).flags &&& VRING_DESC_F_NEXT ≠ 0) := fun h =>
      absurd ((hflags 0 d rfl).mp h) (Nat.lt_irrefl 0)
    rw [freeWalk, if_neg hlast]
    rfl
  | cons c chain ih =>
    obtain ⟨fuel, rfl⟩ := Nat.exists_eq_add_one_of_ne_zero (Nat.zero_lt_of_lt hfuel).ne'
    obtain ⟨-, hnext, hrest⟩ := hleads
    have hmore : (desc d).flags &&& VRING_DESC_F_NEXT ≠ 0 :=
      (hflags 0 d rfl).mpr (Nat.succ_pos _)
    have hcount : sub16 (chain.length + 1) 1 = chain.length := by
      rw [sub16]
      rw [List.length_cons] at hshort
      omega
    rw [freeWalk, if_pos hmore, show (desc d).next = c from hnext,
      if_neg (Nat.not_le.mpr (hlt c List.mem_cons_self)), List.length_cons, hcount,
      List.getLast_cons (List.cons_ne_nil c chain)]
    refine ih ⟨rfl, hrest⟩ (fun c' hc' => hlt c' (List.mem_cons_of_mem c hc'))
      (Nat.lt_of_succ_lt_succ hfuel) (Nat.lt_of_succ_lt hshort) fun j c' hc' => ?_
    rw [hflags (j + 1) c' hc', List.length_cons]
    omega

/-! ### The pool -/

/-- The free descriptors `free`, and the buffers `out` that are with the other side. -/
structure Pool (toPhys : ℕ → ℕ) (vq : Virtqueue) (desc : ℕ → VringDesc) (free : List ℕ)
    (out : List Post) : Prop where
  small : vq.vqNentries ≤ 2 ^ 15
  chain : Leads (fun i => (desc i).next) vq.vqDescHeadIdx free VQ_RING_DESC_CHAIN_END
  count : vq.vqFreeCnt = free.length
  cover : (free ++ out.flatMap Post.chain).Perm (List.range vq.vqNentries)
  laid : ∀ p ∈ out, p.Laid toPhys desc
  extra : ∀ p ∈ out, vq.vqDescx p.head = ⟨p.cookie, p.chain.length⟩
  clear : ∀ i ∈ free ++ out.flatMap fun p => p.chain.tail, (vq.vqDescx i).cookie = 0

namespace Pool

/-- No descriptor is free twice, or free and in a chain, or in two chains. -/
theorem nodup (h : Pool toPhys vq desc free out) : (free ++ out.flatMap Post.chain).Nodup :=
  h.cover.nodup_iff.mpr List.nodup_range

/-- The descriptors are those of the table. -/
theorem lt (h : Pool toPhys vq desc free out) (hi : i ∈ free ++ out.flatMap Post.chain) :
    i < vq.vqNentries := List.mem_range.mp (h.cover.subset hi)

/-- In which order the buffers are counted makes no difference. -/
theorem perm (h : Pool toPhys vq desc free out) (hperm : out.Perm out') :
    Pool toPhys vq desc free out' where
  small := h.small
  chain := h.chain
  count := h.count
  cover := ((hperm.symm.flatMap_right Post.chain).append_left free).trans h.cover
  laid p hp := h.laid p (hperm.symm.subset hp)
  extra p hp := h.extra p (hperm.symm.subset hp)
  clear i hi := h.clear i (((hperm.flatMap_right _).append_left free).symm.subset hi)

/-- Every descriptor is counted. -/
theorem sum (h : Pool toPhys vq desc free out) :
    vq.vqFreeCnt + (out.map fun p => p.bufs.length).sum = vq.vqNentries := by
  have hlen := h.cover.length_eq
  have hchains : (out.map fun p => p.bufs.length) = out.map fun p => p.chain.length :=
    List.map_congr_left fun p hp => (h.laid p hp).length.symm
  rw [List.length_append, List.length_flatMap, List.length_range] at hlen
  rw [hchains, h.count]
  exact hlen

/-- What the other side has is not more than there are descriptors. -/
theorem length_le (h : Pool toPhys vq desc free out) :
    vq.vqFreeCnt + out.length ≤ vq.vqNentries := by
  have hsum := h.sum
  have hle := List.length_le_sum_of_one_le (out.map fun p => p.bufs.length) fun i hi => by
    obtain ⟨p, hp, rfl⟩ := List.mem_map.mp hi
    exact (h.laid p hp).pos
  rw [List.length_map] at hle
  omega

theorem chain_ne_nil (h : Pool toPhys vq desc free out) (hp : p ∈ out) : p.chain ≠ [] := by
  have hlaid := h.laid p hp
  have hpos := hlaid.pos
  rw [← hlaid.length] at hpos
  exact List.length_pos_iff.mp hpos

/-- The chain of buffers begins at their head. -/
theorem chain_eq (h : Pool toPhys vq desc free out) (hp : p ∈ out) :
    p.chain = p.head :: p.chain.tail := by
  obtain ⟨c, chain, hc⟩ := List.exists_cons_of_ne_nil (h.chain_ne_nil hp)
  rw [Post.head, hc]
  rfl

theorem head_mem (h : Pool toPhys vq desc free out) (hp : p ∈ out) :
    p.head ∈ free ++ out.flatMap Post.chain := by
  refine List.mem_append_right free (List.mem_flatMap.mpr ⟨p, hp, ?_⟩)
  rw [h.chain_eq hp]
  exact List.mem_cons_self

end Pool

/-- What is written along the front of the free chain belongs to the other side from then on. -/
theorem Pool.drawn {vq' : Virtqueue} (h : Pool toPhys vq desc free out)
    (hchain : p.chain = free.take p.bufs.length) (hpos : 0 < p.bufs.length)
    (hroom : p.bufs.length ≤ free.length) (hnext : ∀ d, (desc' d).next = (desc d).next)
    (hsame : ∀ d, d ∉ p.chain → desc' d = desc d)
    (hwritten : ∀ i d b, p.chain[i]? = some d → p.bufs[i]? = some b →
      (desc' d).addr = toPhys b.buf ∧ (desc' d).len = b.len ∧
        (desc' d).flags = descFlags p.readable p.bufs.length i)
    (hentries : vq'.vqNentries = vq.vqNentries)
    (hhead : Leads (fun i => (desc i).next) vq'.vqDescHeadIdx (free.drop p.bufs.length)
      VQ_RING_DESC_CHAIN_END)
    (hcount : vq'.vqFreeCnt = (free.drop p.bufs.length).length)
    (hextra : vq'.vqDescx = Function.update vq.vqDescx p.head ⟨p.cookie, p.bufs.length⟩) :
    Pool toPhys vq' desc' (free.drop p.bufs.length) (p :: out) := by
  have hnodup := h.nodup
  have hdisjoint := List.disjoint_of_nodup_append hnodup
  have hsplit : p.chain ++ free.drop p.bufs.length = free := by
    rw [hchain, List.take_append_drop]
  have hlen : p.chain.length = p.bufs.length := by
    rw [hchain, List.length_take, Nat.min_eq_left hroom]
  have hsub : ∀ d ∈ p.chain, d ∈ free := fun d hd => by
    rw [← hsplit]
    exact List.mem_append_left _ hd
  have hcons : p.chain = p.head :: p.chain.tail := by
    obtain ⟨c, chain, hc⟩ := List.exists_cons_of_length_pos (hlen ▸ hpos)
    rw [Post.head, hc]
    rfl
  have hheadMem : p.head ∈ free := hsub _ (hcons ▸ List.mem_cons_self)
  -- No chain that is out has a descriptor in common with the one drawn.
  have hother : ∀ q ∈ out, ∀ d ∈ q.chain, d ∉ free := fun q hq d hd hdf =>
    hdisjoint hdf (List.mem_flatMap.mpr ⟨q, hq, hd⟩)
  have hq : ∀ q ∈ out, q.head ≠ p.head := fun q hq heq => by
    refine hother q hq q.head ?_ (heq ▸ hheadMem)
    rw [h.chain_eq hq]
    exact List.mem_cons_self
  refine {
    small := hentries ▸ h.small
    chain := hhead.congr fun d _ => hnext d
    count := hcount
    cover := ?_
    laid := List.forall_mem_cons.mpr ⟨?_, fun q hq => ?_⟩
    extra := List.forall_mem_cons.mpr ⟨?_, fun q hq' => ?_⟩
    clear := fun i hi => ?_ }
  · rw [hentries, List.flatMap_cons, ← List.append_assoc]
    refine List.Perm.trans (List.Perm.append_right _ ?_) h.cover
    exact List.perm_append_comm.trans (by rw [hsplit])
  -- The chain is the front of the list of free descriptors, and their links are as they were.
  · have hleads := h.chain
    rw [← hsplit, leads_append] at hleads
    obtain ⟨z, hz, -⟩ := hleads
    have hfirst : vq.vqDescHeadIdx = p.head := by
      rw [hcons] at hz
      exact hz.1
    exact {
      leads := ⟨z, hfirst ▸ hz.congr fun d _ => hnext d⟩
      length := hlen
      pos := hpos
      buffers := hwritten }
  · have hlaid := h.laid q hq
    obtain ⟨z, hz⟩ := hlaid.leads
    refine { hlaid with
      leads := ⟨z, hz.congr fun d _ => hnext d⟩
      buffers := fun i d b hd hb => ?_ }
    rw [hsame d fun hmem => hother q hq d (List.mem_of_getElem? hd) (hsub d hmem)]
    exact hlaid.buffers i d b hd hb
  · rw [hextra, Function.update_self, hlen]
  · rw [hextra, Function.update_of_ne (hq q hq')]
    exact h.extra q hq'
  · have hfreeNodup := (List.nodup_append.mp hnodup).1
    have hnotTail : p.head ∉ p.chain.tail ++ free.drop p.bufs.length := by
      rw [← hsplit, hcons] at hfreeNodup
      exact (List.nodup_cons.mp hfreeNodup).1
    have hi' : i ∈ (p.chain.tail ++ free.drop p.bufs.length) ++
        out.flatMap fun p => p.chain.tail := by
      simp only [List.mem_append, List.flatMap_cons] at hi ⊢
      tauto
    have hne : i ≠ p.head := fun heq => by
      rcases List.mem_append.mp hi' with hmem | hmem
      · exact hnotTail (heq ▸ hmem)
      · obtain ⟨q, hq', hmem⟩ := List.mem_flatMap.mp hmem
        exact hother q hq' i (List.mem_of_mem_tail hmem) (heq ▸ hheadMem)
    rw [hextra, Function.update_of_ne hne]
    -- Of the cookies that of the new head has been written; every other is as before.
    refine h.clear i ?_
    rcases List.mem_append.mp hi' with hmem | hmem
    · refine List.mem_append_left _ ?_
      rw [← hsplit, hcons]
      exact List.mem_cons_of_mem _ hmem
    · exact List.mem_append_right _ hmem

/-- Buffers get descriptors from the front of the free chain. -/
theorem Pool.draw (h : Pool toPhys vq r.desc free out) (hinuse : vq.vqInuse = false)
    (hlen : bufs.length = readable + writable) (hpos : 0 < bufs.length)
    (hroom : bufs.length ≤ free.length) (hcookie : cookie ≠ 0) :
    ∃ p vq' desc', p.bufs = bufs ∧ p.readable = readable ∧ p.cookie = cookie ∧
      vq.addBufferStart toPhys bufs readable writable cookie r =
        some (VQUEUE_SUCCESS, vq', vq.placeAvail p.head { r with desc := desc' }) ∧
      vq' = { vq with
        vqInuse := true
        vqFreeCnt := vq'.vqFreeCnt
        vqDescHeadIdx := vq'.vqDescHeadIdx
        vqDescx := vq'.vqDescx } ∧
      Pool toPhys vq' desc' (free.drop bufs.length) (p :: out) := by
  obtain ⟨c, free₀, hfree⟩ := List.exists_cons_of_length_pos (hpos.trans_le hroom)
  have hsmall := h.small
  have hsum := h.sum
  have hcount := h.count
  have hc : c ∈ free ++ out.flatMap Post.chain := by simp [hfree]
  -- The chain, and what is left of the free one.
  set m := bufs.length with hm
  have hsplit := List.take_append_drop m free
  have hleads := h.chain
  rw [← hsplit, leads_append] at hleads
  obtain ⟨z, htake, hdrop⟩ := hleads
  have hnodup := h.nodup
  have hdisjoint := List.disjoint_of_nodup_append hnodup
  have hfreeNodup := (List.nodup_append.mp hnodup).1
  have htakeLen : (free.take m).length = m := by rw [List.length_take, Nat.min_eq_left hroom]
  have htakeSub : ∀ d ∈ free.take m, d ∈ free := fun d hd => List.take_subset m free hd
  have hidx : vq.vqDescHeadIdx = c := by
    have hhead := h.chain.headD
    rw [hfree] at hhead
    exact hhead.symm
  have htakeEq : free.take m = c :: (free.take m).tail := by
    rw [hfree]
    obtain ⟨k, hk⟩ := Nat.exists_eq_add_one_of_ne_zero hpos.ne'
    rw [hk]
    rfl
  obtain ⟨desc', hsome, hnext, hsame, hwritten⟩ := @vqRingAddBuffer_some toPhys r.desc bufs
    (free.take m) readable (readable + writable) _ _ htake htakeLen
    (hfreeNodup.sublist (List.take_sublist m free))
    (fun d hd => ne_of_lt ((h.lt (List.mem_append_left _ (htakeSub d hd))).trans_le hsmall)) 0
  have hcnt : sub16 vq.vqFreeCnt ((readable + writable) % 2 ^ 16) = (free.drop m).length := by
    rw [List.length_drop, sub16]
    omega
  have hzero : (free.drop m).length = 0 → z = VQ_RING_DESC_CHAIN_END := fun hz => by
    rw [List.length_eq_zero_iff.mp hz] at hdrop
    exact hdrop
  have hvalid : (free.drop m).length ≠ 0 → z < vq.vqNentries := fun hz => by
    obtain ⟨e, free₁, he⟩ := List.exists_cons_of_length_pos (Nat.pos_of_ne_zero hz)
    have hmem : e ∈ free := List.drop_subset m free (he ▸ List.mem_cons_self)
    have hze := hdrop.headD
    rw [he] at hze
    exact hze ▸ h.lt (List.mem_append_left _ hmem)
  have hassert : ¬(((free.drop m).length = 0 ∧ z ≠ VQ_RING_DESC_CHAIN_END) ∨
      ((free.drop m).length ≠ 0 ∧ vq.vqNentries ≤ z)) := by
    rintro (⟨hz, hne⟩ | ⟨hz, hle⟩)
    · exact hne (hzero hz)
    · exact absurd (hvalid hz) (Nat.not_lt.mpr hle)
  refine ⟨⟨free.take m, bufs, readable, cookie⟩, { vq with
    vqInuse := true
    vqFreeCnt := (free.drop m).length
    vqDescHeadIdx := z
    vqDescx := Function.update vq.vqDescx c ⟨cookie, (readable + writable) % 2 ^ 16⟩ }, desc', rfl,
    rfl, rfl, ?_, rfl, ?_⟩
  · have hclear : (vq.vqDescx c).cookie = 0 := h.clear c (by simp [hfree])
    have hhead : Post.head ⟨free.take m, bufs, readable, cookie⟩ = c := by
      rw [Post.head, htakeEq]
      rfl
    have hstart : ¬(cookie = 0 ∨ vq.vqNentries ≤ c ∨ (vq.vqDescx c).cookie ≠ 0) := by
      have hlt := h.lt hc
      rintro (hz | hle | hne)
      · exact hcookie hz
      · omega
      · exact hne hclear
    rw [hidx] at hsome
    rw [addBufferStart, if_neg (by omega), if_neg (by omega), busy, hinuse, if_neg (by decide),
      Option.bind_some]
    simp only [hidx, if_neg hstart, hsome, Option.bind_some, hcnt, if_neg hassert, hhead]
    rfl
  · refine h.drawn (show Post.chain ⟨free.take m, bufs, readable, cookie⟩ = free.take m from rfl)
      hpos hroom hnext hsame
      (fun i d b hd hb => ?_) (by rfl) hdrop (by rfl) ?_
    · have hj := hwritten i d b hd hb
      rwa [Nat.zero_add, ← hlen] at hj
    · have hhead : Post.head ⟨free.take m, bufs, readable, cookie⟩ = c := by
        rw [Post.head, htakeEq]
        rfl
      rw [hhead, ← hlen, Nat.mod_eq_of_lt (by omega)]

/-- Linking one descriptor to another. -/
theorem setNext_next (desc : ℕ → VringDesc) (i n : ℕ) :
    (fun d => (setNext desc i n d).next) = Function.update (fun d => (desc d).next) i n := by
  funext d
  by_cases hd : d = i
  · rw [hd, setNext, Function.update_self, Function.update_self]
  · rw [setNext, Function.update_of_ne hd, Function.update_of_ne hd]

theorem setNext_of_ne (hd : d ≠ i) : setNext desc i n d = desc d := Function.update_of_ne hd _ _

/-- A chain whose end is turned to the free one is free. -/
theorem Pool.freed {vq' : Virtqueue} {c : ℕ} (h : Pool toPhys vq desc free (p :: out))
    (hlast : ∃ cs, p.chain = cs ++ [c]) (hentries : vq'.vqNentries = vq.vqNentries)
    (hhead : vq'.vqDescHeadIdx = p.head) (hcount : vq'.vqFreeCnt = vq.vqFreeCnt + p.chain.length)
    (hextra : vq'.vqDescx = Function.update vq.vqDescx p.head ⟨0, 0⟩) :
    Pool toPhys vq' (setNext desc c vq.vqDescHeadIdx) (p.chain ++ free) out := by
  obtain ⟨cs, hcs⟩ := hlast
  have hp : p ∈ p :: out := List.mem_cons_self
  have hnodup := h.nodup
  have hdisjoint := List.disjoint_of_nodup_append hnodup
  rw [List.flatMap_cons] at hnodup hdisjoint
  have hchains := List.nodup_append.mp (List.nodup_append.mp hnodup).2.1
  -- No other chain that is out has a descriptor in common with the one freed.
  have hother : ∀ q ∈ out, ∀ d ∈ q.chain, d ∉ p.chain := fun q hq d hd hdp =>
    hchains.2.2 d hdp d (List.mem_flatMap.mpr ⟨q, hq, hd⟩) rfl
  have hnotFree : ∀ d ∈ p.chain, d ∉ free := fun d hd hdf =>
    hdisjoint hdf (List.mem_append_left _ hd)
  have hcmem : c ∈ p.chain := by simp [hcs]
  have hheadMem : p.head ∈ p.chain := h.chain_eq hp ▸ List.mem_cons_self
  have hq : ∀ q ∈ out, q.head ≠ p.head := fun q hq heq => by
    refine hother q hq q.head ?_ (heq ▸ hheadMem)
    rw [h.chain_eq (List.mem_cons_of_mem p hq)]
    exact List.mem_cons_self
  refine {
    small := hentries ▸ h.small
    chain := ?_
    count := ?_
    cover := ?_
    laid := fun q hq => ?_
    extra := fun q hq' => ?_
    clear := fun i hi => ?_ }
  · obtain ⟨z, hz⟩ := (h.laid p hp).leads
    have hnotin : c ∉ cs := fun hc => by
      have hn := hchains.1
      rw [hcs, List.nodup_append] at hn
      exact hn.2.2 c hc c (List.mem_singleton_self c) rfl
    rw [hhead, setNext_next, leads_append]
    rw [hcs] at hz
    -- The last descriptor of the chain is linked to the first that was free.
    refine ⟨vq.vqDescHeadIdx, hcs ▸ hz.turn hnotin _, h.chain.congr fun d hd => ?_⟩
    have hne : d ≠ c := by
      rintro rfl
      exact hnotFree d hcmem hd
    exact Function.update_of_ne hne _ _
  · rw [hcount, h.count, List.length_append, Nat.add_comm]
  · refine List.Perm.trans ?_ (hentries ▸ h.cover)
    rw [List.flatMap_cons, ← List.append_assoc]
    exact List.Perm.append_right _ List.perm_append_comm
  · have hlaid := h.laid q (List.mem_cons_of_mem p hq)
    have hsame : ∀ d ∈ q.chain, setNext desc c vq.vqDescHeadIdx d = desc d := fun d hd =>
      setNext_of_ne fun heq => hother q hq d hd (heq ▸ hcmem)
    obtain ⟨z, hz⟩ := hlaid.leads
    refine { hlaid with
      leads := ⟨z, hz.congr fun d hd => by rw [hsame d hd]⟩
      buffers := fun i d b hd hb => ?_ }
    rw [hsame d (List.mem_of_getElem? hd)]
    exact hlaid.buffers i d b hd hb
  · rw [hextra, Function.update_of_ne (hq q hq')]
    exact h.extra q (List.mem_cons_of_mem p hq')
  · by_cases hne : i = p.head
    · rw [hne, hextra, Function.update_self]
    · rw [hextra, Function.update_of_ne hne]
      refine h.clear i ?_
      rw [h.chain_eq hp] at hi
      simp only [List.mem_append, List.mem_cons, List.flatMap_cons] at hi ⊢
      tauto

/-- A chain goes back to the front of the free one. -/
theorem Pool.putBack (h : Pool toPhys vq r.desc free (p :: out)) :
    ∃ vq' desc', vq.vqRingFreeChain p.head r = some (vq', { r with desc := desc' }) ∧
      vq' = { vq with
        vqFreeCnt := vq'.vqFreeCnt
        vqDescHeadIdx := vq'.vqDescHeadIdx
        vqDescx := vq'.vqDescx } ∧
      vq'.vqDescx p.head = ⟨p.cookie, 0⟩ ∧
      Pool toPhys { vq' with vqDescx := Function.update vq'.vqDescx p.head ⟨0, 0⟩ } desc'
        (p.chain ++ free) out := by
  have hp : p ∈ p :: out := List.mem_cons_self
  have hlaid := h.laid p hp
  have hcons := h.chain_eq hp
  have hmem : ∀ d ∈ p.chain, d < vq.vqNentries := fun d hd =>
    h.lt (List.mem_append_right free (List.mem_flatMap.mpr ⟨p, hp, hd⟩))
  have hsmall := h.small
  have hcover := h.cover.length_eq
  rw [List.flatMap_cons, List.length_append, List.length_append, List.length_range] at hcover
  have hlen : p.chain.length = p.chain.tail.length + 1 := by
    conv_lhs => rw [hcons]
    rfl
  have hndescs : sub16 p.chain.length 1 = p.chain.tail.length := by
    rw [sub16]
    omega
  have hflags : ∀ j c, (p.head :: p.chain.tail)[j]? = some c →
      ((r.desc c).flags &&& VRING_DESC_F_NEXT ≠ 0 ↔ j < p.chain.tail.length) := fun j c hc => by
    rw [← hcons] at hc
    have hj : j < p.bufs.length := hlaid.length ▸ (List.getElem?_eq_some_iff.mp hc).1
    rw [(hlaid.buffers j c _ hc (List.getElem?_eq_getElem hj)).2.2, descFlags_next,
      ← hlaid.length, hlen]
    omega
  have hfirst : (r.desc p.head).flags &&& VRING_DESC_F_INDIRECT = 0 := by
    have hhead : p.chain[0]? = some p.head := by
      rw [hcons]
      rfl
    rw [(hlaid.buffers 0 p.head _ hhead (List.getElem?_eq_getElem hlaid.pos)).2.2,
      descFlags_indirect]
  obtain ⟨z, hz⟩ := hlaid.leads
  rw [hcons] at hz
  have hwalk : vq.freeWalk r.desc (vq.vqNentries + 1) p.head p.chain.tail.length =
      some ((p.head :: p.chain.tail).getLast (List.cons_ne_nil _ _), 0) := freeWalk_some hz
    (fun c hc => hmem c (List.mem_of_mem_tail hc)) (by omega) (by omega) hflags
  set c := (p.head :: p.chain.tail).getLast (List.cons_ne_nil _ _) with hc
  have hlast : ∃ cs, p.chain = cs ++ [c] :=
    ⟨(p.head :: p.chain.tail).dropLast, by rw [hc, List.dropLast_append_getLast, ← hcons]⟩
  have hterm : ¬(vq.vqFreeCnt = 0 ∧ vq.vqDescHeadIdx ≠ VQ_RING_DESC_CHAIN_END) := by
    rintro ⟨hzero, hne⟩
    have hchain := h.chain
    rw [List.length_eq_zero_iff.mp (h.count.symm.trans hzero)] at hchain
    exact hne hchain
  have hcount : add16 vq.vqFreeCnt p.chain.length = vq.vqFreeCnt + p.chain.length := by
    rw [add16, h.count]
    omega
  refine ⟨{ vq with
    vqFreeCnt := vq.vqFreeCnt + p.chain.length
    vqDescHeadIdx := p.head
    vqDescx := Function.update vq.vqDescx p.head ⟨p.cookie, 0⟩ },
    setNext r.desc c vq.vqDescHeadIdx, ?_, rfl, ?_, ?_⟩
  · have hvalid := hmem p.head (hcons ▸ List.mem_cons_self)
    rw [vqRingFreeChain, if_neg (Nat.not_le.mpr hvalid), if_neg hterm]
    simp only [h.extra p hp, hndescs, if_pos hfirst, hwalk, Option.bind_some, ne_eq,
      not_true_eq_false, if_false, hcount]
  · exact Function.update_self _ _ _
  · refine h.freed hlast (by rfl) (by rfl) (by rfl) ?_
    exact Function.update_idem _ _ _

end Virtqueue

end C906Firmware
