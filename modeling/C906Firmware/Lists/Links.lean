import Mathlib.Data.List.Nodup
import Mathlib.Logic.Function.Basic
import Mathlib.Logic.Relation

/-!
# Circular doubly linked lists

Nodes that carry their own links form a list with a head: a circle through the head and the
nodes in order, linked both ways (`Ring`). Adding a node before the head appends it
(`Ring.addBefore`), deleting the first one removes it (`Ring.del`), nodes of other lists make no
difference (`Ring.congr`), and what can be reached from the head is in the list
(`Ring.mem_of_reach`).
-/

/-- The links of nodes. -/
structure Links (N : Type) where
  next : N → N
  prev : N → N

namespace Links

variable {N : Type} [DecidableEq N]

def setNext (l : Links N) (x y : N) : Links N := { l with next := Function.update l.next x y }

def setPrev (l : Links N) (x y : N) : Links N := { l with prev := Function.update l.prev x y }

/-- Make `x` a list of its own. -/
def single (l : Links N) (x : N) : Links N := (l.setPrev x x).setNext x x

/-- Put `new` before `x`. -/
def addBefore (l : Links N) (x new : N) : Links N :=
  let l := l.setPrev new (l.prev x)
  let l := l.setNext new x
  let l := l.setPrev (l.next new) new
  l.setNext (l.prev new) new

/-- Take `x` out of its list and make it a list of its own. -/
def del (l : Links N) (x : N) : Links N :=
  let l := l.setPrev (l.next x) (l.prev x)
  let l := l.setNext (l.prev x) (l.next x)
  l.single x

/-! ### Stretches -/

/-- From `x` over the nodes `ns` to `y`, linked both ways. -/
def Path (l : Links N) : N → List N → N → Prop
  | x, [], y => l.next x = y ∧ l.prev y = x
  | x, n :: ns, y => (l.next x = n ∧ l.prev n = x) ∧ l.Path n ns y

variable {l l' : Links N} {x y h new : N} {ns : List N}

omit [DecidableEq N] in
/-- A stretch looks at the links along it. -/
theorem Path.congr (hpath : l.Path x ns y) (hnext : ∀ n ∈ x :: ns, l'.next n = l.next n)
    (hprev : ∀ n ∈ ns ++ [y], l'.prev n = l.prev n) : l'.Path x ns y := by
  induction ns generalizing x with
  | nil =>
    exact ⟨(hnext x (by simp)).trans hpath.1, (hprev y (by simp)).trans hpath.2⟩
  | cons n ns ih =>
    obtain ⟨⟨hfirst, hback⟩, hrest⟩ := hpath
    refine ⟨⟨(hnext x (by simp)).trans hfirst, (hprev n (by simp)).trans hback⟩, ?_⟩
    exact ih hrest (fun m hm => hnext m (by simp [List.mem_cons.1 hm]))
      fun m hm => hprev m (by simpa using .inr (by simpa using hm))

omit [DecidableEq N] in
/-- A stretch ends with a step. -/
theorem path_concat {n : N} :
    l.Path x (ns ++ [n]) y ↔ l.Path x ns n ∧ l.next n = y ∧ l.prev y = n := by
  induction ns generalizing x with
  | nil => exact Iff.rfl
  | cons m ns ih =>
    rw [List.cons_append, Path, Path, ih]
    exact and_assoc.symm

omit [DecidableEq N] in
theorem Path.next_mem {z : N} (hpath : l.Path x ns y) (hz : z ∈ x :: ns) :
    l.next z ∈ ns ++ [y] := by
  induction ns generalizing x with
  | nil =>
    obtain rfl := List.mem_singleton.mp hz
    rw [hpath.1]
    exact List.mem_cons_self
  | cons n ns ih =>
    rcases List.mem_cons.mp hz with rfl | hz
    · rw [hpath.1.1]
      exact List.mem_cons_self
    · exact List.mem_cons_of_mem n (ih hpath.2 hz)

omit [DecidableEq N] in
theorem Path.prev_mem {z : N} (hpath : l.Path x ns y) (hz : z ∈ ns ++ [y]) :
    l.prev z ∈ x :: ns := by
  induction ns generalizing x with
  | nil =>
    obtain rfl := List.mem_singleton.mp hz
    rw [hpath.2]
    exact List.mem_cons_self
  | cons n ns ih =>
    rcases List.mem_cons.mp hz with rfl | hz
    · rw [hpath.1.2]
      exact List.mem_cons_self
    · exact List.mem_cons_of_mem x (ih hpath.2 hz)

/-! ### Lists -/

/-- The head `h` with the nodes `ns` in order. -/
structure Ring (l : Links N) (h : N) (ns : List N) : Prop where
  path : l.Path h ns h
  nodup : (h :: ns).Nodup

namespace Ring

omit [DecidableEq N] in
/-- Links of other nodes make no difference. -/
theorem congr (hring : l.Ring h ns) (hnext : ∀ n ∈ h :: ns, l'.next n = l.next n)
    (hprev : ∀ n ∈ h :: ns, l'.prev n = l.prev n) : l'.Ring h ns :=
  ⟨hring.path.congr hnext fun n hn => hprev n (by simpa [or_comm] using hn), hring.nodup⟩

omit [DecidableEq N] in
/-- The first node, or the head of an empty list. -/
theorem next_head (hring : l.Ring h ns) : l.next h = ns.headD h := by
  rcases ns with - | ⟨n, ns⟩
  · exact hring.path.1
  · exact hring.path.1.1

omit [DecidableEq N] in
/-- The links of a list stay in the list. -/
theorem next_mem (hring : l.Ring h ns) (hx : x ∈ h :: ns) : l.next x ∈ h :: ns := by
  have hmem := hring.path.next_mem hx
  rwa [List.mem_append, List.mem_singleton, or_comm, ← List.mem_cons] at hmem

omit [DecidableEq N] in
theorem prev_mem (hring : l.Ring h ns) (hx : x ∈ h :: ns) : l.prev x ∈ h :: ns := by
  refine hring.path.prev_mem ?_
  rwa [List.mem_append, List.mem_singleton, or_comm, ← List.mem_cons]

omit [DecidableEq N] in
/-- What can be reached from the head is in the list. -/
theorem mem_of_reach (hring : l.Ring h ns)
    (hreach : Relation.ReflTransGen (fun x y => l.next x = y) h x) : x ∈ h :: ns := by
  induction hreach with
  | refl => exact List.mem_cons_self
  | tail _ hstep ih => exact hstep ▸ hring.next_mem ih

/-- An empty list. -/
theorem single (l : Links N) (h : N) : (l.single h).Ring h [] where
  path := ⟨Function.update_self .., Function.update_self ..⟩
  nodup := List.nodup_singleton h

/-- A list without the node stays as it is. -/
theorem single_apart (hring : l.Ring h ns) (hx : x ∉ h :: ns) : (l.single x).Ring h ns := by
  have hne : ∀ n ∈ h :: ns, n ≠ x := fun n hn heq => hx (heq ▸ hn)
  exact hring.congr (fun n hn => Function.update_of_ne (hne n hn) ..)
    fun n hn => Function.update_of_ne (hne n hn) ..

end Ring

/-! ### Adding a node -/

section AddBefore

/-- The two forward links that an insertion writes. -/
theorem addBefore_next (hne : h ≠ new) : (l.addBefore h new).next =
    Function.update (Function.update l.next new h) (l.prev h) new := by
  simp [Links.addBefore, setNext, setPrev, hne.symm]

theorem addBefore_prev : (l.addBefore h new).prev =
    Function.update (Function.update l.prev new (l.prev h)) h new := by
  simp [Links.addBefore, setNext, setPrev]

namespace Ring

/-- Adding before the head appends. -/
theorem addBefore (hring : l.Ring h ns) (hnew : new ∉ h :: ns) :
    (l.addBefore h new).Ring h (ns ++ [new]) := by
  have hne : h ≠ new := fun heq => hnew (heq ▸ List.mem_cons_self)
  have hlast : l.prev h ≠ new := fun heq =>
    hnew (heq ▸ hring.prev_mem List.mem_cons_self)
  have hnext : (l.addBefore h new).next = _ := addBefore_next hne
  have hprev : (l.addBefore h new).prev = _ := addBefore_prev
  have hnodup : (h :: (ns ++ [new])).Nodup := by
    rw [← List.cons_append, List.nodup_append_comm]
    exact List.nodup_cons.mpr ⟨hnew, hring.nodup⟩
  refine ⟨path_concat.mpr ⟨?_, ?_, ?_⟩, hnodup⟩
  · rcases List.eq_nil_or_concat ns with rfl | ⟨ms, b, rfl⟩
    · have hself : l.prev h = h := hring.path.2
      constructor
      · rw [hnext, hself, Function.update_self]
      · rw [hprev, Function.update_of_ne hne.symm, Function.update_self, hself]
    · rw [List.concat_eq_append] at hring hnew ⊢
      obtain ⟨hpath, -, hback⟩ := path_concat.mp hring.path
      have hsplit := hring.nodup
      rw [← List.cons_append, List.nodup_append] at hsplit
      -- the links up to the last node are the old ones
      refine path_concat.mpr ⟨hpath.congr (fun n hn => ?_) (fun n hn => ?_), ?_, ?_⟩
      · have hb : n ≠ b := hsplit.2.2 n hn b List.mem_cons_self
        have hn' : n ≠ new := by
          rintro rfl
          exact hnew (List.mem_append_left [b] hn)
        rw [hnext, hback, Function.update_of_ne hb, Function.update_of_ne hn']
      · have hh : n ≠ h := by
          rintro rfl
          exact (List.nodup_cons.mp hring.nodup).1 hn
        have hn' : n ≠ new := by
          rintro rfl
          exact hnew (List.mem_cons_of_mem h hn)
        rw [hprev, Function.update_of_ne hh, Function.update_of_ne hn']
      · rw [hnext, hback, Function.update_self]
      · rw [hprev, Function.update_of_ne hne.symm, Function.update_self, hback]
  · rw [hnext, Function.update_of_ne hlast.symm, Function.update_self]
  · rw [hprev, Function.update_self]

/-- A list without the new node and without nodes of the other list stays as it is. -/
theorem addBefore_apart {g : N} {ms : List N} (hother : l.Ring g ms) (hring : l.Ring h ns)
    (hnew : new ∉ h :: ns) (hapart : ∀ n ∈ g :: ms, n ∉ new :: h :: ns) :
    (l.addBefore h new).Ring g ms := by
  have hne : h ≠ new := fun heq => hnew (heq ▸ List.mem_cons_self)
  refine hother.congr (fun n hn => ?_) fun n hn => ?_
  · have hnot := hapart n hn
    have hlast := hring.prev_mem List.mem_cons_self
    rw [addBefore_next hne, Function.update_of_ne, Function.update_of_ne]
    · exact fun heq => hnot (heq ▸ List.mem_cons_self)
    · exact fun heq => hnot (heq ▸ List.mem_cons_of_mem _ hlast)
  · have hnot := hapart n hn
    rw [addBefore_prev, Function.update_of_ne, Function.update_of_ne]
    · exact fun heq => hnot (heq ▸ List.mem_cons_self)
    · exact fun heq => hnot (heq ▸ by simp)

end Ring

end AddBefore

/-! ### Deleting a node -/

section Del

theorem del_next (hnext : l.next x ≠ x) : (l.del x).next =
    Function.update (Function.update l.next (l.prev x) (l.next x)) x x := by
  simp [Links.del, single, setNext, setPrev, hnext.symm]

theorem del_prev : (l.del x).prev =
    Function.update (Function.update l.prev (l.next x) (l.prev x)) x x := by
  simp [Links.del, single, setNext, setPrev]

namespace Ring

omit [DecidableEq N] in
/-- A node of a list is not linked to itself. -/
theorem next_first_ne (hring : l.Ring h (x :: ns)) : l.next x ≠ x := by
  have hnodup := hring.nodup
  rw [List.nodup_cons, List.nodup_cons] at hnodup
  rcases ns with - | ⟨m, ms⟩
  · rw [hring.path.2.1]
    rintro rfl
    exact hnodup.1 List.mem_cons_self
  · rw [hring.path.2.1.1]
    rintro rfl
    exact hnodup.2.1 List.mem_cons_self

/-- Deleting the first node leaves the others. -/
theorem del (hring : l.Ring h (x :: ns)) : (l.del x).Ring h ns := by
  have hback : l.prev x = h := hring.path.1.2
  have hnext := del_next hring.next_first_ne
  have hprev : (l.del x).prev = _ := del_prev
  rw [hback] at hnext hprev
  have hnodup := hring.nodup
  rw [List.nodup_cons, List.nodup_cons] at hnodup
  have hx : ∀ n ∈ ns ++ [h], n ≠ x := by
    rintro n hn rfl
    rcases List.mem_append.mp hn with hn | hn
    · exact hnodup.2.1 hn
    · exact hnodup.1 (List.mem_singleton.mp hn ▸ List.mem_cons_self)
  have hh : h ≠ x := hx h (List.mem_append_right ns List.mem_cons_self)
  refine ⟨?_, List.nodup_cons.mpr ⟨fun hmem => hnodup.1 (.tail x hmem), hnodup.2.2⟩⟩
  -- The node removed was the only one, or its successor is now linked to the head.
  rcases ns with - | ⟨m, ms⟩
  · have hself : l.next x = h := hring.path.2.1
    constructor
    · rw [hnext, hself, Function.update_of_ne hh, Function.update_self]
    · rw [hprev, hself, Function.update_of_ne hh, Function.update_self]
  · obtain ⟨-, ⟨hm, -⟩, hrest⟩ := hring.path
    have hmx : m ≠ x := hx m List.mem_cons_self
    refine ⟨⟨?_, ?_⟩, hrest.congr (fun n hn => ?_) fun n hn => ?_⟩
    · rw [hnext, hm, Function.update_of_ne hh, Function.update_self]
    · rw [hprev, hm, Function.update_of_ne hmx, Function.update_self]
    · have hn' : n ≠ h := by
        rintro rfl
        exact hnodup.1 (.tail x hn)
      rw [hnext, Function.update_of_ne (hx n (List.mem_append_left [h] hn)),
        Function.update_of_ne hn']
    · have hn' : n ≠ m := by
        rintro rfl
        rcases List.mem_append.mp hn with hn | hn
        · exact (List.nodup_cons.mp hnodup.2.2).1 hn
        · exact hnodup.1 (List.mem_singleton.mp hn ▸ .tail x List.mem_cons_self)
      rw [hprev, hm, Function.update_of_ne (hx n (.tail m hn)), Function.update_of_ne hn']

/-- A list without nodes of the other list stays as it is. -/
theorem del_apart {g : N} {ms : List N} (hother : l.Ring g ms) (hring : l.Ring h (x :: ns))
    (hapart : ∀ n ∈ g :: ms, n ∉ h :: x :: ns) : (l.del x).Ring g ms := by
  have hx : x ∈ h :: x :: ns := .tail h List.mem_cons_self
  refine hother.congr (fun n hn => ?_) fun n hn => ?_
  · have hnot := hapart n hn
    rw [del_next hring.next_first_ne, Function.update_of_ne, Function.update_of_ne]
    · exact fun heq => hnot (heq ▸ hring.prev_mem hx)
    · exact fun heq => hnot (heq ▸ hx)
  · have hnot := hapart n hn
    rw [del_prev, Function.update_of_ne, Function.update_of_ne]
    · exact fun heq => hnot (heq ▸ hring.next_mem hx)
    · exact fun heq => hnot (heq ▸ hx)

end Ring

end Del

end Links
