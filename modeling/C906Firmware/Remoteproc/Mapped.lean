import C906Firmware.Interaction.Run
import C906Firmware.Model.Mappings
import C906Firmware.Shmem.Translation

/-!
# The two lists of mapped memories

Every entry is linked into both lists, at the same place (`Linked`), and it is live until the
removal frees it. A look-up walks `rproc->mems` and returns the first memory that is found
(`total_getMem`); a mapping appends one entry to both lists (`total_remoteprocMmap`), and what it
returns and does to the memories is what the model of the lists' contents says.
-/

namespace C906Firmware

open Interaction

namespace Mappings

variable {k : Mappings} {gone left : List ℕ}

/-- The entries `gone` have been freed, and `left` are linked into `plat->priv.mem_list` and
live; both are linked into `rproc->mems`. -/
structure Linked (gone left : List ℕ) (k : Mappings) : Prop where
  mems : k.links.Ring .mems ((gone ++ left).map .memNode)
  memList : k.links.Ring .memList (left.map .entryNode)
  live : ∀ entry, entry ∈ k.live ↔ entry ∈ left
  allocated : k.allocated = gone ++ left
  freed : k.freed = gone

/-- `entries` are mapped, none has been freed, and the remote processor is offline. -/
structure Mapped (entries : List ℕ) (k : Mappings) : Prop extends Linked [] entries k where
  platform : ∀ entry ∈ entries, ∃ pa da size, k.mem entry = platformMem pa da size
  offline : k.state = .offline

/-! ### The list operations -/

/-- `metal_list_add_before` links the node in, and changes nothing else. -/
theorem total_addBefore (node newNode : ListNode) (k : Mappings) :
    Total exec (metalListAddBefore node newNode)
      (fun _ k' => k' = { k with links := k.links.addBefore node newNode }) k :=
  fun _ _ _ _ _ _ _ => rfl

/-- `metal_list_del` takes the node out, and changes nothing else. -/
theorem total_del (node : ListNode) (k : Mappings) :
    Total exec (metalListDel node) (fun _ k' => k' = { k with links := k.links.del node }) k :=
  fun _ _ _ _ _ _ _ _ => rfl

/-- `metal_list_first` finds the first node of a ring. -/
theorem total_first {list : ListNode} {nodes : List ListNode}
    (hring : k.links.Ring list nodes) :
    Total exec (metalListFirst list) (fun r k' => k' = k ∧ r = nodes.head?) k := by
  have hfirst := hring.next_head
  simp only [metalListFirst, metalListIsEmpty, Prog.perform_bind, Prog.act_bind, total_act, exec]
  intro x
  rcases nodes with - | ⟨node, nodes⟩
  · have hself : k.links.next list = list := hfirst
    simp [hself]
  · have hnode : k.links.next list = node := hfirst
    have hne : node ≠ list := by
      rintro rfl
      exact (List.nodup_cons.mp hring.nodup).1 List.mem_cons_self
    simp [exec, hnode, hne]

/-! ### Looking up -/

/-- A look-up goes by an address. -/
def ByAddress (pa da va : Addr) : Prop := pa ≠ METAL_BAD_PHYS ∨ da ≠ METAL_BAD_PHYS ∨ va ≠ 0

instance (pa da va : Addr) : Decidable (ByAddress pa da va) := inferInstanceAs (Decidable (_ ∨ _))

/-- The first of the entries that a look-up finds. -/
def firstFound (mem : ℕ → RemoteprocMem) (entries : List ℕ) (pa da va size : Addr) : Option ℕ :=
  entries.find? fun entry => ByAddress pa da va ∧ Found (mem entry) pa da va size

variable {pa da va size : Addr} {fuel : ℕ}

theorem firstFound_eq_none {mem : ℕ → RemoteprocMem} {entries : List ℕ}
    (haddr : ¬ByAddress pa da va) : firstFound mem entries pa da va size = none :=
  List.find?_eq_none.mpr fun _ _ h => haddr (of_decide_eq_true h).1

theorem getMemRound_mems : remoteprocGetMemRound pa da va size .mems = pure (.inr none) := rfl

/-- At a node the search ends or goes on to the next. -/
theorem getMemRound_memNode (entry : ℕ) : remoteprocGetMemRound pa da va size (.memNode entry) =
    if ByAddress pa da va then do
      let mem ← access (.mem entry)
      if Found mem pa da va size then
        pure (.inr (some entry))
      else do
        let next ← access (.next (.memNode entry))
        pure (.inl next)
    else
      pure (.inr none) := rfl

/-- The loop, from the node after `x`. -/
theorem total_getMemLoop {entries : List ℕ} {x : ListNode}
    (hpath : k.links.Path x (entries.map .memNode) .mems) (hfuel : entries.length < fuel) :
    Total exec (.iterate (remoteprocGetMemRound pa da va size) fuel (k.links.next x))
      (fun r k' => k' = k ∧ r = firstFound k.mem entries pa da va size) k := by
  induction entries generalizing x fuel with
  | nil =>
    obtain ⟨fuel, rfl⟩ : ∃ n, fuel = n + 1 := ⟨fuel - 1, by omega⟩
    have hend : k.links.next x = .mems := hpath.1
    refine Total.bind ?_
    rw [hend, getMemRound_mems]
    exact ⟨rfl, rfl⟩
  | cons entry entries ih =>
    obtain ⟨fuel, rfl⟩ : ∃ n, fuel = n + 1 := ⟨fuel - 1, by omega⟩
    obtain ⟨⟨hnode, -⟩, hrest⟩ := hpath
    have hrest' := ih hrest (by simpa using hfuel)
    refine Total.bind ?_
    rw [hnode, getMemRound_memNode]
    by_cases haddr : ByAddress pa da va
    · rw [if_pos haddr]
      intro x
      refine (total_ite _ _ _).mpr ⟨fun (hfound : Found (k.mem entry) pa da va size) => ?_,
        fun (hfound : ¬Found (k.mem entry) pa da va size) => ?_⟩
      · have hfirst : firstFound k.mem (entry :: entries) pa da va size = some entry :=
          List.find?_cons_of_pos (decide_eq_true ⟨haddr, hfound⟩)
        rw [hfirst]
        exact ⟨rfl, rfl⟩
      · have hskip : firstFound k.mem (entry :: entries) pa da va size =
            firstFound k.mem entries pa da va size :=
          List.find?_cons_of_neg (by simp [hfound])
        rw [hskip]
        exact fun _ => hrest'
    · rw [if_neg haddr, firstFound_eq_none haddr]
      exact ⟨rfl, rfl⟩

/-- A look-up returns the first memory it finds, and changes nothing. -/
theorem total_getMem (h : Linked [] left k) (hfuel : left.length < fuel) :
    Total exec (remoteprocGetMem fuel pa da va size)
      (fun r k' => k' = k ∧ r = firstFound k.mem left pa da va size) k :=
  fun _ => total_getMemLoop h.mems.path hfuel

/-- It is the look-up in the list of the memories. -/
theorem map_firstFound (mem : ℕ → RemoteprocMem) (entries : List ℕ) (pa da size : Addr) :
    (firstFound mem entries pa da 0 size).map mem =
      C906Firmware.remoteprocGetMem (entries.map mem) pa da size := by
  have hmatches (m : RemoteprocMem) :
      m.Matches pa da size ↔ ByAddress pa da 0 ∧ Found m pa da 0 size := by
    simp only [RemoteprocMem.Matches, ByAddress, Found]
    split_ifs <;> simp_all
  rw [C906Firmware.remoteprocGetMem, List.find?_map, firstFound]
  simp only [Function.comp_def, hmatches]

/-! ### Mapping -/

/-- The nodes of one list are not nodes of the other. -/
theorem memNodes_apart {entries entries' : List ℕ} (n : ListNode)
    (hn : n ∈ .mems :: entries.map .memNode) : n ∉ .memList :: entries'.map .entryNode := by
  intro hn'
  cases n <;> simp at hn hn'

/-- The nodes of the one list are none of the other. -/
theorem entryNodes_apart {entries entries' : List ℕ} (n : ListNode)
    (hn : n ∈ .memList :: entries.map .entryNode) : n ∉ .mems :: entries'.map .memNode :=
  fun hn' => memNodes_apart n hn' hn

/-- The state once `entry` has been allocated and linked into both lists. -/
def add (k : Mappings) (entry : ℕ) (mem : RemoteprocMem) : Mappings :=
  { k with
    links := (k.links.addBefore .mems (.memNode entry)).addBefore .memList (.entryNode entry)
    mem := Function.update k.mem entry mem
    live := insert entry k.live
    allocated := k.allocated ++ [entry] }

variable {entries : List ℕ} {entry : ℕ}

theorem add_mem_self (k : Mappings) (entry : ℕ) (mem : RemoteprocMem) :
    (k.add entry mem).mem entry = mem := Function.update_self ..

theorem add_mem_of_ne {e : ℕ} (hne : e ≠ entry) (k : Mappings) (mem : RemoteprocMem) :
    (k.add entry mem).mem e = k.mem e := Function.update_of_ne hne ..

theorem mem_add_live (k : Mappings) (entry : ℕ) (mem : RemoteprocMem) (e : ℕ) :
    e ∈ (k.add entry mem).live ↔ e = entry ∨ e ∈ k.live := Finset.mem_insert

/-- A new entry at the end of both lists keeps the shape. -/
theorem Mapped.add (h : Mapped entries k) (hnew : entry ∉ k.live) (pa da size : Addr) :
    Mapped (entries ++ [entry]) (k.add entry (platformMem pa da size)) := by
  have hnot : entry ∉ entries := fun hmem => hnew ((h.live entry).mpr hmem)
  have hmem : ListNode.memNode entry ∉ .mems :: entries.map .memNode := by simpa using hnot
  have hentry : ListNode.entryNode entry ∉ .memList :: entries.map .entryNode := by
    simpa using hnot
  have hmems : (k.links.addBefore .mems (.memNode entry)).Ring .mems
      ((entries ++ [entry]).map .memNode) := by
    rw [List.map_append]
    exact h.mems.addBefore hmem
  have hmemList := h.memList.addBefore_apart h.mems hmem fun n hn => by
    have hapart : n ∉ .mems :: (entry :: entries).map .memNode := entryNodes_apart n hn
    simpa [or_left_comm] using hapart
  exact {
    mems := hmems.addBefore_apart hmemList hentry fun n hn => by
      have hapart : n ∉ .memList :: (entry :: entries).map .entryNode := memNodes_apart n hn
      simpa [or_left_comm] using hapart
    memList := by
      rw [List.map_append]
      exact hmemList.addBefore hentry
    live := fun e => by
      rw [mem_add_live, h.live, List.mem_append, List.mem_singleton, or_comm]
    allocated := congrArg (· ++ [entry]) h.allocated
    freed := h.freed
    platform := fun e he => by
      rcases List.mem_append.mp he with he | he
      · have hne : e ≠ entry := fun heq => hnot (heq ▸ he)
        rw [add_mem_of_ne hne]
        exact h.platform e he
      · obtain rfl := List.mem_singleton.mp he
        exact ⟨pa, da, size, add_mem_self ..⟩
    offline := h.offline }

/-- The contents of the list, with the new entry at the end. -/
theorem Mapped.map_mem_add (h : Mapped entries k) (hnew : entry ∉ k.live) (mem : RemoteprocMem) :
    (entries ++ [entry]).map (k.add entry mem).mem = entries.map k.mem ++ [mem] := by
  rw [List.map_append, List.map_singleton, add_mem_self]
  refine congrArg (· ++ [mem]) (List.map_congr_left fun e he => add_mem_of_ne ?_ k mem)
  rintro rfl
  exact hnew ((h.live e).mpr he)

/-- The translation in a mapped memory comes to an end. -/
theorem Mapped.physToVirt (h : Mapped entries k) (hentry : entry ∈ entries) (fuel : ℕ)
    (phys : Addr) : ∃ va, metalIoPhysToVirt (fuel + 1) (k.mem entry).io phys = some va := by
  obtain ⟨pa, da, size, hmem⟩ := h.platform entry hentry
  rw [hmem, metalIoPhysToVirt, metalIoPhysToOffset_platformMem]
  exact ⟨_, rfl⟩

/-- How a mapping ends: without an entry and with a null result, or as the contents of the lists
say, with at most one more entry. -/
def Ends (pa da : Option Addr) (k : Mappings) (entries : List ℕ)
    (contents : Option (Mapping × List RemoteprocMem)) (r : Mapping) (k' : Mappings) : Prop :=
  (k' = k ∧ r = ⟨0, pa, da⟩) ∨
    ∃ entries', entries'.length ≤ entries.length + 1 ∧ Mapped entries' k' ∧
      contents = some (r, entries'.map k'.mem)

/-- `platform_rproc_mmap` finds the mapping, or makes one as the list of contents says. -/
theorem total_platformRprocMmap (h : Mapped entries k) (pa da : Option Addr) (size : Addr) :
    Total exec (platformRprocMmap pa da size)
      (Ends pa da k entries (some (C906Firmware.platformRprocMmap (entries.map k.mem) pa da size)))
      k := by
  rw [platformRprocMmap]
  refine (total_ite _ _ _).mpr ⟨fun _ => .inl ⟨rfl, rfl⟩, fun hsome => ?_⟩
  rintro (_ | entry)
  · exact .inl ⟨rfl, rfl⟩
  · by_cases hlive : entry ∈ k.live
    · have hexec : exec .allocate (some entry) k = (none, k) := if_pos hlive
      rw [hexec]
      exact .inl ⟨rfl, rfl⟩
    · have hexec : exec .allocate (some entry) k = (some entry, { k with
          live := insert entry k.live
          allocated := k.allocated ++ [entry] }) := if_neg hlive
      rw [hexec]
      simp only [Prog.perform_bind]
      intro _
      refine Total.bind ((total_addBefore _ _ _).mono ?_)
      rintro _ _ rfl
      refine Total.bind ((total_addBefore _ _ _).mono ?_)
      rintro _ _ rfl
      refine .inr ⟨entries ++ [entry], by simp, h.add hlive _ _ size, ?_⟩
      rw [C906Firmware.platformRprocMmap, if_neg hsome]
      exact congrArg some (Prod.ext rfl (h.map_mem_add hlive _).symm)

/-- A mapping does to the entries what it does to the contents of the lists, unless it is out of
memory. -/
theorem total_remoteprocMmap (h : Mapped entries k) (hfuel : entries.length < fuel)
    (pa da : Option Addr) (size : Addr) :
    Total exec (remoteprocMmap fuel pa da size)
      (Ends pa da k entries (C906Firmware.remoteprocMmap fuel (entries.map k.mem) pa da size))
      k := by
  rw [remoteprocMmap]
  refine (total_ite _ _ _).mpr ⟨fun _ => .inl ⟨rfl, rfl⟩, fun hsome => ?_⟩
  refine Total.bind ((total_getMem h.toLinked hfuel).mono ?_)
  rintro r k ⟨rfl, rfl⟩
  have hlist := map_firstFound k.mem entries (pa.getD METAL_BAD_PHYS) (da.getD METAL_BAD_PHYS) size
  rw [C906Firmware.remoteprocMmap, if_neg hsome]
  rcases hfirst : firstFound k.mem entries (pa.getD METAL_BAD_PHYS) (da.getD METAL_BAD_PHYS) 0 size
    with - | entry
  · rw [hfirst, Option.map_none] at hlist
    simp only [← hlist]
    refine Total.bind ((total_platformRprocMmap h _ _ size).mono ?_)
    rintro r k' (⟨rfl, rfl⟩ | ⟨entries', hlength, hmapped, hcontents⟩)
    · -- out of memory
      exact .inl ⟨rfl, by cases pa <;> cases da <;> rfl⟩
    · rw [Option.some.injEq] at hcontents
      refine .inr ⟨entries', hlength, hmapped, ?_⟩
      rw [hcontents]
  · rw [hfirst, Option.map_some] at hlist
    simp only [← hlist]
    obtain ⟨fuel, rfl⟩ : ∃ n, fuel = n + 1 := ⟨fuel - 1, by omega⟩
    obtain ⟨va, hva⟩ := h.physToVirt (List.mem_of_find?_eq_some hfirst) fuel
      (if pa.getD METAL_BAD_PHYS ≠ METAL_BAD_PHYS then pa.getD METAL_BAD_PHYS
      else if da.getD METAL_BAD_PHYS ≠ METAL_BAD_PHYS then
        remoteprocDatopa (k.mem entry) (da.getD METAL_BAD_PHYS)
      else pa.getD METAL_BAD_PHYS)
    simp only [Prog.perform_bind, total_act, exec, hva]
    exact fun _ => .inr ⟨entries, by omega, h, rfl⟩

end Mappings

end C906Firmware
