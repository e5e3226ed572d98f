import C906Firmware.Remoteproc.Mapped

/-!
# Removing the remote processor

`platform_rproc_remove` takes the entries out of `plat->priv.mem_list` one after the other and
frees each, once. It does not take their other nodes out of `rproc->mems`, so that this list
still leads through all of them (`total_remoteprocRemove`), and a look-up by an address reads the
first (`sound_getMem_iff`).
-/

namespace C906Firmware

open Interaction

namespace Mappings

/-! ### What a removal is to leave -/

/-- Accesses to allocations are accesses to live ones. -/
def accesses : Contract MapRet Mappings (Option ℕ) where
  exec := exec
  inv := fun _ => True
  ok := fun o k => ∀ entry, o.entry = some entry → entry ∈ k.live
  cond := fun _ _ _ => True

/-- Run by itself, the program touches no freed allocation. -/
def Sound {α : Type} (p : MapCode α) (k : Mappings) : Prop :=
  Outline accesses Alone p (fun _ _ => True) k

/-- Both lists lead to live allocations only, whatever has been allocated has been freed once,
and no look-up by an address touches a freed allocation. -/
structure NoDangling (k : Mappings) : Prop where
  reach : ∀ list, list = .memList ∨ list = .mems → ∀ node,
    Relation.ReflTransGen (fun x y => k.links.next x = y) list node →
      ∀ entry, node.entry = some entry → entry ∈ k.live
  freed : ∀ entry ∈ k.allocated, k.freed.count entry = 1
  lookup : ∀ fuel pa da va size, ByAddress pa da va →
    Sound (remoteprocGetMem fuel pa da va size) k

/-- Call `remoteproc_mmap` for each request. -/
def mapAll (fuel : ℕ) (requests : List Registration) : MapCode Unit :=
  Prog.forEach (fun r => do
    let _ ← remoteprocMmap fuel r.pa r.da r.size
    pure ()) requests

variable {k : Mappings} {gone left entries : List ℕ} {entry fuel : ℕ}

/-! ### The runs -/

theorem mapped_start (links : Links ListNode) (mem : ℕ → RemoteprocMem) :
    Mapped [] (start links mem) where
  mems := Links.Ring.single ..
  memList := (Links.Ring.single links .memList).single_apart (by simp)
  live := by simp [start]
  allocated := rfl
  freed := rfl
  platform := by simp
  offline := rfl

theorem total_mapAll {requests : List Registration} (h : Mapped entries k)
    (hfuel : entries.length + requests.length < fuel) :
    Total exec (mapAll fuel requests)
      (fun _ k' => ∃ entries', Mapped entries' k' ∧ entries'.length < fuel) k := by
  refine Total.forEach (P := fun rest k' => ∃ entries', Mapped entries' k' ∧
    entries'.length + rest.length < fuel) ?_ ⟨entries, h, hfuel⟩
  rintro r rest k ⟨entries, h, hfuel⟩
  rw [List.length_cons] at hfuel
  refine Total.bind ((total_remoteprocMmap h (by omega) r.pa r.da r.size).mono ?_)
  rintro _ k' (⟨rfl, -⟩ | ⟨entries', hlength, h', -⟩)
  · exact ⟨entries, h, by omega⟩
  · exact ⟨entries', h', by omega⟩

/-- Taking the first entry out of `plat->priv.mem_list` and freeing it. -/
theorem Linked.free (h : Linked gone (entry :: left) k) :
    Linked (gone ++ [entry]) left { k with
      links := k.links.del (.entryNode entry)
      live := k.live.erase entry
      freed := k.freed ++ [entry] } where
  mems := by
    rw [List.append_assoc]
    refine h.mems.del_apart h.memList fun n hn => ?_
    have hapart : n ∉ .memList :: (entry :: left).map .entryNode := memNodes_apart n hn
    exact hapart
  memList := h.memList.del
  live e := by
    have hnodup : (entry :: left).Nodup := by
      have hring := (List.nodup_cons.mp h.memList.nodup).2
      exact hring.of_map _
    rw [Finset.mem_erase, h.live, List.mem_cons]
    constructor
    · rintro ⟨hne, rfl | he⟩
      · exact absurd rfl hne
      · exact he
    · intro he
      refine ⟨?_, .inr he⟩
      rintro rfl
      exact (List.nodup_cons.mp hnodup).1 he
  allocated := by
    rw [List.append_assoc]
    exact h.allocated
  freed := congrArg (· ++ [entry]) h.freed

/-- The loop frees every entry. -/
theorem total_platformRprocRemove (h : Linked gone left k) (hfuel : left.length < fuel) :
    Total exec (platformRprocRemove fuel) (fun _ k' => Linked (gone ++ left) [] k') k := by
  induction left generalizing gone k fuel with
  | nil =>
    obtain ⟨fuel, rfl⟩ : ∃ n, fuel = n + 1 := ⟨fuel - 1, by omega⟩
    refine Total.bind (Total.bind ((total_first h.memList).mono ?_))
    rintro _ k ⟨rfl, rfl⟩
    rw [List.append_nil]
    exact h
  | cons entry left ih =>
    obtain ⟨fuel, rfl⟩ : ∃ n, fuel = n + 1 := ⟨fuel - 1, by omega⟩
    refine Total.bind (Total.bind ((total_first h.memList).mono ?_))
    rintro _ k ⟨rfl, rfl⟩
    refine Total.bind ((total_del _ k).mono ?_)
    rintro _ _ rfl _
    have hrest := ih h.free (by simpa using hfuel)
    rwa [List.append_assoc] at hrest

/-- The removal of an offline remote processor succeeds and frees every entry. -/
theorem total_remoteprocRemove (h : Mapped entries k) (hfuel : entries.length < fuel) :
    Total exec (remoteprocRemove fuel) (fun r k' => r = 0 ∧ Linked entries [] k') k := by
  intro _ _
  refine (total_ite _ _ _).mpr ⟨fun _ => ?_, fun hstate => absurd h.offline hstate⟩
  have hlinked : Linked [] entries { k with locked := true } :=
    ⟨h.mems, h.memList, h.live, h.allocated, h.freed⟩
  refine Total.bind ((total_platformRprocRemove hlinked hfuel).mono ?_)
  intro _ k' h' _
  exact ⟨rfl, ⟨h'.mems, h'.memList, h'.live, h'.allocated, h'.freed⟩⟩

/-! ### What is left -/

/-- A look-up by an address reads the memory of the first node. -/
theorem next_getMemLoop {pa da va size : Addr} (haddr : ByAddress pa da va) (entry : ℕ) :
    (Prog.iterate (remoteprocGetMemRound pa da va size) (fuel + 1) (.memNode entry)).next =
      some (.mem entry) := by
  rw [Prog.iterate, getMemRound_memNode, if_pos haddr]
  rfl

/-- A look-up in an empty list touches no allocation. -/
theorem sound_getMem_nil {pa da va size : Addr} (hempty : k.links.next .mems = .mems) :
    Sound (remoteprocGetMem fuel pa da va size) k := by
  have hloop : Outline accesses Alone
      (.iterate (remoteprocGetMemRound pa da va size) fuel (k.links.next .mems))
      (fun _ _ => True) k := by
    rw [hempty]
    cases fuel with
    | zero => exact fun _ _ => trivial
    | succ fuel => exact Outline.alone_ret trivial trivial
  exact Outline.alone_act trivial nofun fun _ => hloop

/-- A look-up by an address is sound after the removal if and only if nothing was mapped. -/
theorem sound_getMem_iff {pa da va size : Addr} (h : Linked gone [] k)
    (haddr : ByAddress pa da va) :
    Sound (remoteprocGetMem (fuel + 1) pa da va size) k ↔ gone = [] := by
  have hfirst := h.mems.next_head
  constructor
  · intro hsound
    have hloop : Outline accesses Alone
        (.iterate (remoteprocGetMemRound pa da va size) (fuel + 1) (k.links.next .mems))
        (fun _ _ => True) k := Outline.step hsound (x := none) trivial
    rcases gone with - | ⟨entry, gone⟩
    · rfl
    · have hnext : k.links.next .mems = .memNode entry := hfirst
      rw [hnext] at hloop
      have hlive := hloop.ok_next (next_getMemLoop haddr entry) entry rfl
      exact absurd ((h.live entry).mp hlive) List.not_mem_nil
  · rintro rfl
    exact sound_getMem_nil hfirst

/-- What is left dangles, unless nothing was mapped. -/
theorem noDangling_iff_nil (h : Linked gone [] k) : NoDangling k ↔ gone = [] := by
  constructor
  · intro hclean
    have haddr : ByAddress 0 METAL_BAD_PHYS 0 := .inl (by decide)
    exact (sound_getMem_iff h haddr).mp (hclean.lookup 1 0 METAL_BAD_PHYS 0 0 haddr)
  · rintro rfl
    have hempty : ∀ list, list = .memList ∨ list = .mems → k.links.Ring list [] := by
      rintro list (rfl | rfl)
      · exact h.memList
      · exact h.mems
    refine ⟨fun list hlist node hreach entry hentry => ?_, fun entry hentry => ?_,
      fun fuel pa da va size _ => sound_getMem_nil h.mems.next_head⟩
    · obtain rfl := List.mem_singleton.mp ((hempty list hlist).mem_of_reach hreach)
      rcases hlist with rfl | rfl <;> cases hentry
    · rw [h.allocated] at hentry
      cases hentry

/-- After any series of mappings the removal of an offline remote processor succeeds, and it
leaves no dangling mapping if and only if none is live when it is called. -/
theorem noDangling_iff (links : Links ListNode) (mem : ℕ → RemoteprocMem)
    (requests : List Registration) (xs ys : ℕ → Option ℕ) (hfuel : requests.length < fuel) :
    ∃ k₁ k₂, (mapAll fuel requests).run exec (start links mem) xs = some ((), k₁) ∧
      (remoteprocRemove fuel).run exec k₁ ys = some (0, k₂) ∧
      (NoDangling k₂ ↔ k₁.live = ∅) := by
  have hmap := total_mapAll (mapped_start links mem) (by simpa using hfuel)
  obtain ⟨_, k₁, hrun₁, entries, hmapped, hlength⟩ := hmap.run xs
  obtain ⟨_, k₂, hrun₂, rfl, hlinked⟩ := (total_remoteprocRemove hmapped hlength).run ys
  refine ⟨k₁, k₂, hrun₁, hrun₂, (noDangling_iff_nil hlinked).trans ?_⟩
  rw [Finset.eq_empty_iff_forall_notMem, List.eq_nil_iff_forall_not_mem]
  exact forall_congr' fun entry => not_congr (hmapped.live entry).symm

/-- Two memories, one after the other. -/
theorem noDangling_iff_two : ∃ k₁ k₂,
    (mapAll 3 [⟨some 0x42000000, none, 0x1000⟩, ⟨some 0x42001000, none, 0x1000⟩]).run exec
        (start ⟨id, id⟩ fun _ => platformMem 0 0 0) some = some ((), k₁) ∧
      (remoteprocRemove 3).run exec k₁ (fun _ => none) = some (0, k₂) ∧
      (NoDangling k₂ ↔ k₁.live = ∅) :=
  noDangling_iff ⟨id, id⟩ (fun _ => platformMem 0 0 0)
    [⟨some 0x42000000, none, 0x1000⟩, ⟨some 0x42001000, none, 0x1000⟩] some (fun _ => none)
    (by decide)

/-- `remoteproc_mmap` of one memory, which succeeds, and the removal. -/
theorem one_mapping_dangles : ∃ k₁ k₂,
    (remoteprocMmap 2 (some 0x42000000) none 0x1000).run exec
        (start ⟨id, id⟩ fun _ => platformMem 0 0 0) (fun _ => some 1) =
      some (⟨0x42000000, some 0x42000000, none⟩, k₁) ∧
    (remoteprocRemove 2).run exec k₁ (fun _ => none) = some (0, k₂) ∧
    k₁.state = .offline ∧ k₁.live = {1} ∧ k₂.live = ∅ ∧ k₂.freed = [1] ∧
    k₂.links.next .mems = .memNode 1 ∧ ¬NoDangling k₂ := by
  refine ⟨_, _, rfl, rfl, rfl, rfl, rfl, rfl, rfl, fun hclean => ?_⟩
  have hlive := hclean.reach .mems (.inr rfl) (.memNode 1) (.single rfl) 1 rfl
  exact absurd hlive (by decide)

end Mappings

end C906Firmware
