import C906Firmware.Interaction.Prog
import C906Firmware.Lists.Links
import C906Firmware.Model.Region
import Mathlib.Data.Finset.Basic

/-!
# The mappings of the platform in memory

`platform_rproc_mmap`, `platform_rproc_remove` and the functions of `remoteproc.c` around them,
access by access. A `struct platform_mem` is one allocation with two list nodes: `mem.node`, in
the list `rproc->mems`, and `node`, in the list `plat->priv.mem_list`. The contents of the
lists are modelled in `Model.Region`; here are the nodes, and which allocations are live. What
`platform_rproc_mmap` and `remoteproc_mmap` do to the nodes is what those of `Model.Region` do to
the contents (`total_platformRprocMmap` and `total_remoteprocMmap` in `Remoteproc.Mapped`).

A region found or made is not handed out through `io`, and no memory has a name: the look-ups
by name and the names themselves are left out.
-/

namespace C906Firmware

open Interaction

/-! ### The memory -/

/-- A list node, by what it is a field of; `entry` is the address of a `struct platform_mem`. -/
inductive ListNode
  /-- `plat->priv.mem_list` -/
  | memList
  /-- `rproc->mems` -/
  | mems
  /-- `entry->mem.node` -/
  | memNode (entry : ℕ)
  /-- `entry->node` -/
  | entryNode (entry : ℕ)
  deriving DecidableEq, Repr

/-- The allocation a node belongs to; the heads are fields of static objects. -/
def ListNode.entry : ListNode → Option ℕ
  | memList => none
  | mems => none
  | memNode entry => some entry
  | entryNode entry => some entry

/-- `enum remoteproc_state` -/
inductive RemoteprocState
  | offline
  | configured
  | ready
  | running
  | suspended
  | error
  | stopped
  deriving DecidableEq, Repr

/-- The nodes, the entries, and the records of the allocator. -/
structure Mappings where
  links : Links ListNode
  /-- `entry->mem` and `entry->io`. -/
  mem : ℕ → RemoteprocMem
  /-- The allocations that have not been freed. -/
  live : Finset ℕ
  /-- What has been allocated, in order. -/
  allocated : List ℕ
  /-- What has been freed, in order. -/
  freed : List ℕ
  /-- `rproc->state` -/
  state : RemoteprocState
  /-- `rproc->lock` is held. -/
  locked : Bool

/-- One access. -/
inductive MapOp
  /-- Read `x->next`. -/
  | next (x : ListNode)
  /-- Read `x->prev`. -/
  | prev (x : ListNode)
  /-- `x->next = y` -/
  | setNext (x y : ListNode)
  /-- `x->prev = y` -/
  | setPrev (x y : ListNode)
  /-- Read `entry->mem`, with the region it points to. -/
  | mem (entry : ℕ)
  /-- Write `entry->mem` and `entry->io`. -/
  | initMem (entry : ℕ) (mem : RemoteprocMem)
  /-- `metal_allocate_memory` -/
  | allocate
  /-- `metal_free_memory` -/
  | free (entry : ℕ)
  /-- Read `rproc->state`. -/
  | state
  /-- `metal_mutex_acquire`, of the lock nobody else holds. -/
  | acquire
  /-- `metal_mutex_release` -/
  | release

/-- The answer an access gives. -/
@[reducible]
def MapRet : MapOp → Type
  | .next _ => ListNode
  | .prev _ => ListNode
  | .mem _ => RemoteprocMem
  | .allocate => Option ℕ
  | .state => RemoteprocState
  | _ => Unit

/-- A piece of the program. -/
abbrev MapCode (α : Type) := Prog MapRet α

/-- The allocation an access reads, writes or frees. -/
def MapOp.entry : MapOp → Option ℕ
  | next x => x.entry
  | prev x => x.entry
  | setNext x _ => x.entry
  | setPrev x _ => x.entry
  | mem entry => some entry
  | initMem entry _ => some entry
  | free entry => some entry
  | _ => none

namespace Mappings

/-- The answer and the effect of an access. The argument is the allocator's choice; what is
live is not allocated again. -/
def exec : (o : MapOp) → Option ℕ → Mappings → MapRet o × Mappings
  | .next x, _, k => (k.links.next x, k)
  | .prev x, _, k => (k.links.prev x, k)
  | .setNext x y, _, k => ((), { k with links := k.links.setNext x y })
  | .setPrev x y, _, k => ((), { k with links := k.links.setPrev x y })
  | .mem entry, _, k => (k.mem entry, k)
  | .initMem entry mem, _, k => ((), { k with mem := Function.update k.mem entry mem })
  | .allocate, none, k => (none, k)
  | .allocate, some entry, k =>
    if entry ∈ k.live then (none, k)
    else (some entry, { k with
      live := insert entry k.live
      allocated := k.allocated ++ [entry] })
  | .free entry, _, k => ((), { k with
      live := k.live.erase entry
      freed := k.freed ++ [entry] })
  | .state, _, k => (k.state, k)
  | .acquire, _, k => ((), { k with locked := true })
  | .release, _, k => ((), { k with locked := false })

/-- The state after `platform_rproc_init` and `remoteproc_init`: both lists are empty
(`metal_list_init`), and the rest of the memory holds anything. -/
def start (links : Links ListNode) (mem : ℕ → RemoteprocMem) : Mappings where
  links := (links.single .memList).single .mems
  mem := mem
  live := ∅
  allocated := []
  freed := []
  state := .offline
  locked := false

/-! ### The lists of `metal/list.h` -/

/-- The code that makes one access. -/
abbrev access (o : MapOp) : MapCode (MapRet o) := Prog.perform o

/-- `metal_list_add_before` -/
def metalListAddBefore (node newNode : ListNode) : MapCode Unit := do
  let prev ← access (.prev node)
  access (.setPrev newNode prev)
  access (.setNext newNode node)
  let next ← access (.next newNode)
  access (.setPrev next newNode)
  let prev ← access (.prev newNode)
  access (.setNext prev newNode)

/-- `metal_list_add_tail` -/
def metalListAddTail (list node : ListNode) : MapCode Unit := metalListAddBefore list node

/-- `metal_list_del` -/
def metalListDel (node : ListNode) : MapCode Unit := do
  let next ← access (.next node)
  let prev ← access (.prev node)
  access (.setPrev next prev)
  let prev ← access (.prev node)
  let next ← access (.next node)
  access (.setNext prev next)
  access (.setPrev node node)
  access (.setNext node node)

/-- `metal_list_is_empty` -/
def metalListIsEmpty (list : ListNode) : MapCode Bool := do
  let next ← access (.next list)
  pure (next = list)

/-- `metal_list_first`; null is `none`. -/
def metalListFirst (list : ListNode) : MapCode (Option ListNode) := do
  let empty ← metalListIsEmpty list
  if empty then
    pure none
  else do
    let next ← access (.next list)
    pure (some next)

/-! ### Looking up -/

/-- The comparison in the loop of `remoteproc_get_mem`, for a look-up by an address. -/
def Found (mem : RemoteprocMem) (pa da va size : Addr) : Prop :=
  if pa ≠ METAL_BAD_PHYS then mem.pa ≤ pa ∧ pa + size ≤ mem.pa + mem.size
  else if da ≠ METAL_BAD_PHYS then mem.da ≤ da ∧ da + size ≤ mem.da + mem.size
  else metalIoVirtToOffset mem.io va ≠ METAL_BAD_OFFSET

instance (mem : RemoteprocMem) (pa da va size : Addr) : Decidable (Found mem pa da va size) :=
  inferInstanceAs (Decidable (ite _ _ _))

/-- One round of the loop of `remoteproc_get_mem`. -/
def remoteprocGetMemRound (pa da va size : Addr) (node : ListNode) :
    MapCode (ListNode ⊕ Option ℕ) :=
  if node = .mems then
    pure (.inr none)
  else
    match node with
    | .memNode entry =>
      if pa ≠ METAL_BAD_PHYS ∨ da ≠ METAL_BAD_PHYS ∨ va ≠ 0 then do
        let mem ← access (.mem entry)
        if Found mem pa da va size then
          pure (.inr (some entry))
        else do
          let next ← access (.next node)
          pure (.inl next)
      else
        pure (.inr none)
    | _ => .stop -- the node of no memory

/-- `remoteproc_get_mem`, without a name; the result is the entry of the memory, and null is
`none`. There is no `get_mem` in `platform_ops`. -/
def remoteprocGetMem (fuel : ℕ) (pa da va size : Addr) : MapCode (Option ℕ) := do
  let node ← access (.next .mems)
  Prog.iterate (remoteprocGetMemRound pa da va size) fuel node

/-! ### Mapping -/

/-- `remoteproc_add_mem` -/
def remoteprocAddMem (entry : ℕ) : MapCode Unit := metalListAddTail .mems (.memNode entry)

/-- `platform_rproc_mmap` -/
def platformRprocMmap (pa da : Option Addr) (size : Addr) : MapCode Mapping :=
  let lpa := pa.getD METAL_BAD_PHYS
  let lda := da.getD METAL_BAD_PHYS
  if lpa = METAL_BAD_PHYS ∧ lda = METAL_BAD_PHYS then
    pure ⟨0, pa, da⟩
  else do
    let lpa' := if lpa = METAL_BAD_PHYS then lda else lpa
    let lda' := if lda = METAL_BAD_PHYS then lpa' else lda
    let entry ← access .allocate
    match entry with
    | none => pure ⟨0, pa, da⟩
    | some entry => do
      access (.initMem entry (platformMem lpa' lda' size))
      remoteprocAddMem entry
      metalListAddTail .memList (.entryNode entry)
      pure ⟨lpa', pa.map fun _ => lpa', da.map fun _ => lda'⟩

/-- `remoteproc_mmap` -/
def remoteprocMmap (fuel : ℕ) (pa da : Option Addr) (size : Addr) : MapCode Mapping :=
  if pa = none ∧ da = none then
    pure ⟨0, pa, da⟩
  else do
    let lpa := pa.getD METAL_BAD_PHYS
    let lda := da.getD METAL_BAD_PHYS
    let found ← remoteprocGetMem fuel lpa lda 0 size
    match found with
    | some entry => do
      let mem ← access (.mem entry)
      let lda' := if lpa ≠ METAL_BAD_PHYS then remoteprocPatoda mem lpa else lda
      let lpa' := if lpa ≠ METAL_BAD_PHYS then lpa
        else if lda ≠ METAL_BAD_PHYS then remoteprocDatopa mem lda else lpa
      match metalIoPhysToVirt fuel mem.io lpa' with
      | some va => pure ⟨va, pa.map fun _ => lpa', da.map fun _ => lda'⟩
      | none => .stop
    | none => do
      let mapping ← platformRprocMmap (some lpa) (some lda) size
      pure ⟨mapping.va, pa.map fun _ => mapping.pa.getD lpa, da.map fun _ => mapping.da.getD lda⟩

/-! ### Removal -/

/-- One round of the loop of `platform_rproc_remove`. -/
def platformRprocRemoveRound : MapCode (Unit ⊕ Unit) := do
  let node ← metalListFirst .memList
  match node with
  | none => pure (.inr ())
  | some (.entryNode entry) => do
    metalListDel (.entryNode entry)
    access (.free entry)
    pure (.inl ())
  | some _ => .stop -- the node of no entry

/-- `platform_rproc_remove` -/
def platformRprocRemove (fuel : ℕ) : MapCode Unit :=
  Prog.iterate (fun _ => platformRprocRemoveRound) fuel ()

/-- `RPROC_EAGAIN` -/
def RPROC_EAGAIN : ℤ := 4

/-- `remoteproc_remove` -/
def remoteprocRemove (fuel : ℕ) : MapCode ℤ := do
  access .acquire
  let state ← access .state
  if state = .offline then do
    platformRprocRemove fuel
    access .release
    pure 0
  else do
    access .release
    pure (-RPROC_EAGAIN)

end Mappings

end C906Firmware
