import C906Firmware.Cache.WriteBack

/-!
# A write-back cache that knows what it has to write back

A `Tagged` cache has a **dirty bit** for every line: only lines that have been stored to since
they came in are written back, so that a line that is merely out of date is lost when it is
evicted. A memory without a cache is the case in which nothing is ever held.

What other parties do to the memory is `poke`; what the cache does of its own accord (it brings
lines in, writes dirty ones back and drops them) is `Calm`. A location is `Sound` if no value is
lost at it when its line is evicted, and it `Agrees` with the memory if the processor sees the
memory's value. Both are kept by whatever the cache does, sound locations show the same value
throughout, and the memory at a location changes only to a value stored there.
-/

namespace WriteBack

/-- A memory behind a cache with dirty bits, or without a cache. -/
structure Tagged (Loc Line V : Type) extends Cached Loc Line V where
  dirty : Line → Bool
  cached : Bool

namespace Tagged

variable {Loc Line V : Type} (line : Loc → Line)

/-- The line is held and has been stored to since it came in. -/
def Stored (m : Tagged Loc Line V) (l : Line) : Prop := m.held l = true ∧ m.dirty l = true

instance (m : Tagged Loc Line V) (l : Line) : Decidable (m.Stored l) :=
  inferInstanceAs (Decidable (_ ∧ _))

/-- A memory without a cache holds nothing. -/
def Proper (m : Tagged Loc Line V) : Prop := m.cached = false → ∀ l, m.held l = false

/-- The processor sees the memory's value. -/
def Agrees (m : Tagged Loc Line V) (a : Loc) : Prop := m.view line a = m.ram a

/-- No value is lost when the line is evicted. -/
def Sound (m : Tagged Loc Line V) (a : Loc) : Prop := ¬m.Stored (line a) → m.Agrees line a

/-! ### Operations -/

section Operations

variable [DecidableEq Line]

/-- Bring a line in, unless it is held. -/
def fill (l : Line) (m : Tagged Loc Line V) : Tagged Loc Line V :=
  if m.cached ∧ ¬m.held l then
    { m with toCached := m.toCached.fill line l, dirty := Function.update m.dirty l false }
  else m

/-- Write a line back, if it is dirty, and keep it. -/
def clean (l : Line) (m : Tagged Loc Line V) : Tagged Loc Line V :=
  if m.dirty l then
    { m with toCached := m.toCached.writeBack line l, dirty := Function.update m.dirty l false }
  else m

/-- Drop a line without writing it back. -/
def drop (l : Line) (m : Tagged Loc Line V) : Tagged Loc Line V :=
  { m with toCached := m.toCached.drop l }

/-- Write a line back, if it is dirty, and drop it. -/
def evict (l : Line) (m : Tagged Loc Line V) : Tagged Loc Line V := (m.clean line l).drop l

variable [DecidableEq Loc]

/-- Store a value: in the cache, with write-allocate, or else in the memory. -/
def store (a : Loc) (v : V) (m : Tagged Loc Line V) : Tagged Loc Line V :=
  if m.cached then
    { m with
      toCached := m.toCached.store line a v
      dirty := Function.update m.dirty (line a) true }
  else { m with ram := Function.update m.ram a v }

/-- Another party writes to the memory. -/
def poke (a : Loc) (v : V) (m : Tagged Loc Line V) : Tagged Loc Line V :=
  { m with ram := Function.update m.ram a v }

end Operations

variable {line} {m m' m'' : Tagged Loc Line V} {a b : Loc} {l : Line} {v : V}

/-- Memory shows through where no line is held. -/
theorem agrees_of_not_held (h : m.held (line a) = false) : m.Agrees line a := by
  simp [Agrees, Cached.view, h]

/-- Only a cache has dirty lines. -/
theorem cached_of_stored (h : m.Proper) (hs : m.Stored l) : m.cached = true := by
  by_contra hnot
  have hheld := h (by simpa using hnot) l
  rw [Stored, hheld] at hs
  exact absurd hs.1 (by simp)

/-- A location that agrees with memory needs no write-back. -/
theorem Agrees.sound (h : m.Agrees line a) : m.Sound line a := fun _ => h

/-! ### What the cache does of its own accord -/

variable (line) in
/-- The cache may have gone from `m` to `m'` by itself. -/
structure Calm (m m' : Tagged Loc Line V) : Prop where
  proper : m.Proper → m'.Proper
  cached : m'.cached = m.cached
  stored : ∀ l, m'.Stored l → m.Stored l
  view : ∀ a, m.Sound line a → m'.view line a = m.view line a
  view_or : ∀ a, m'.view line a = m.view line a ∨ m'.view line a = m'.ram a
  ram : ∀ a, m'.ram a = m.ram a ∨ (m.Stored (line a) ∧ m'.ram a = m.view line a)
  agrees : ∀ a, m.Agrees line a → m'.Agrees line a
  sound : ∀ a, m.Sound line a → m'.Sound line a

/-- Where the processor sees the memory's value, that value stays. -/
theorem Calm.ram_eq (h : Calm line m m') (ha : m.Agrees line a) : m'.ram a = m.ram a :=
  (h.ram a).elim id fun hstored => hstored.2.trans ha

theorem Calm.refl (m : Tagged Loc Line V) : Calm line m m where
  proper h := h
  cached := rfl
  stored _ h := h
  view _ _ := rfl
  view_or _ := .inl rfl
  ram _ := .inl rfl
  agrees _ h := h
  sound _ h := h

section

variable [DecidableEq Line]

variable (line) in

/-- Bringing a line in changes nothing that is seen. -/
theorem calm_fill (l : Line) (m : Tagged Loc Line V) : Calm line m (m.fill line l) := by
  rw [fill]
  split
  · next hfill =>
    have hstored : ∀ l', (Tagged.mk (m.toCached.fill line l) (Function.update m.dirty l false)
        m.cached).Stored l' ↔ m.Stored l' := by
      intro l'
      rcases eq_or_ne l' l with rfl | hne
      · simp [Stored, hfill.2]
      · simp [Stored, Cached.fill, hne]
    exact {
      proper := fun _ hcached => absurd hfill.1 (by simpa using hcached)
      cached := rfl
      stored := fun l' h => (hstored l').mp h
      view := fun a _ => Cached.view_fill
      view_or := fun a => .inl Cached.view_fill
      ram := fun a => .inl rfl
      agrees := fun a h => Cached.view_fill.trans h
      sound := fun a h hnot => Cached.view_fill.trans (h fun hs => hnot ((hstored _).mpr hs)) }
  · exact Calm.refl m

variable (line) in

/-- Writing a line back changes nothing that is seen. -/
theorem calm_clean (l : Line) (m : Tagged Loc Line V) : Calm line m (m.clean line l) := by
  rw [clean]
  split
  · next hdirty =>
    -- Memory takes the value seen where the line was held, and keeps its own elsewhere.
    have hram : ∀ a, (m.toCached.writeBack line l).ram a = m.ram a ∨
        (m.Stored (line a) ∧ (m.toCached.writeBack line l).ram a = m.view line a) := by
      intro a
      by_cases ha : line a = l ∧ m.held l = true
      · obtain ⟨rfl, hheld⟩ := ha
        exact .inr ⟨⟨hheld, hdirty⟩, by simp [Cached.writeBack, Cached.view, hheld]⟩
      · exact .inl (if_neg ha)
    have hagrees : ∀ a, m.Agrees line a → m.view line a = (m.toCached.writeBack line l).ram a :=
      fun a ha => ha.trans ((hram a).elim Eq.symm fun h => (h.2.trans ha).symm)
    exact {
      proper := fun h => h
      cached := rfl
      stored := fun l' h => by
        rcases eq_or_ne l' l with rfl | hne
        · simp [Stored] at h
        · simpa [Stored, Cached.writeBack, hne] using h
      view := fun a _ => Cached.view_writeBack
      view_or := fun a => .inl Cached.view_writeBack
      ram := hram
      agrees := fun a h => Cached.view_writeBack.trans (hagrees a h)
      sound := fun a h hnot => by
        refine Cached.view_writeBack.trans ?_
        by_cases ha : line a = l
        · by_cases hheld : m.held l = true
          · subst ha
            simp [Cached.writeBack, Cached.view, hheld]
          · exact hagrees a (h fun hs => hheld (ha ▸ hs.1))
        · refine hagrees a (h fun hs => hnot ?_)
          simpa [Stored, Cached.writeBack, ha] using hs }
  · exact Calm.refl m

/-- After a line has been written back the memory has its sound values. -/
theorem agrees_clean (h : m.Sound line a) : (m.clean line (line a)).Agrees line a := by
  refine (calm_clean line (line a) m).sound a h fun hs => ?_
  rw [clean] at hs
  split at hs
  · simp [Stored] at hs
  · next hclean => exact hclean hs.2

/-- A line that has been written back is not dirty, and no other has become dirty. -/
theorem stored_clean {l' : Line} (h : (m.clean line l).Stored l') : l' ≠ l ∧ m.Stored l' := by
  refine ⟨?_, (calm_clean line l m).stored l' h⟩
  rintro rfl
  rw [clean] at h
  split at h
  · simp [Stored] at h
  · next hclean => exact hclean h.2

/-! ### Dropping a line -/

/-- Dropping a line shows what is in memory, and leaves the others as they were. -/
theorem view_drop : (m.drop l).view line a = if line a = l then m.ram a else m.view line a :=
  Cached.view_drop

@[simp]
theorem ram_drop : (m.drop l).ram = m.ram := rfl

/-- A line that has been dropped is not dirty. -/
theorem stored_drop {l' : Line} : (m.drop l).Stored l' ↔ m.Stored l' ∧ l' ≠ l := by
  rcases eq_or_ne l' l with rfl | hne
  · simp [Stored, drop, Cached.drop]
  · simp [Stored, drop, Cached.drop, hne]

theorem Proper.drop (h : m.Proper) (l : Line) : (m.drop l).Proper := by
  intro hcached l'
  rcases eq_or_ne l' l with rfl | hne
  · simp [Tagged.drop, Cached.drop]
  · simpa [Tagged.drop, Cached.drop, hne] using h hcached l'

/-- After dropping a line its locations agree with memory. -/
theorem agrees_drop (h : line a = l ∨ m.Agrees line a) : (m.drop l).Agrees line a := by
  rw [Agrees, view_drop]
  split
  · rfl
  · next hne => exact h.resolve_left hne

/-- Where the line is another, nothing changes. -/
theorem view_drop_of_ne (h : line a ≠ l) : (m.drop l).view line a = m.view line a :=
  view_drop.trans (if_neg h)

theorem Sound.drop (h : m.Sound line a) (l : Line) : (m.drop l).Sound line a := by
  intro hnot
  by_cases ha : line a = l
  · exact agrees_drop (.inl ha)
  · exact agrees_drop (.inr (h fun hs => hnot (stored_drop.mpr ⟨hs, ha⟩)))

variable (line) in

/-- Evicting a line changes nothing that is seen, for its write-back comes first. -/
theorem calm_evict (l : Line) (m : Tagged Loc Line V) : Calm line m (m.evict line l) := by
  have hclean := calm_clean line l m
  have hon : ∀ a, line a = l → m.Sound line a → (m.clean line l).Agrees line a := by
    rintro a rfl h
    exact agrees_clean h
  exact {
    proper := fun h => (hclean.proper h).drop l
    cached := hclean.cached
    stored := fun l' h => hclean.stored l' (stored_drop.mp h).1
    view := fun a h => by
      rw [evict, view_drop]
      split
      · next ha => exact (hon a ha h).symm.trans (hclean.view a h)
      · exact hclean.view a h
    view_or := fun a => by
      rw [evict, view_drop]
      split
      · exact .inr rfl
      · exact hclean.view_or a
    ram := hclean.ram
    agrees := fun a h => agrees_drop (.inr (hclean.agrees a h))
    sound := fun a h => (hclean.sound a h).drop l }

end

/-! ### Stores -/

section

variable [DecidableEq Line] [DecidableEq Loc]

/-- A store keeps what belongs together. -/
theorem Proper.store (h : m.Proper) (a : Loc) (v : V) : (m.store line a v).Proper := by
  rw [Tagged.store]
  split
  · next hcached => exact fun hnot => absurd hcached (by simpa using hnot)
  · exact h

@[simp]
theorem cached_store : (m.store line a v).cached = m.cached := by
  rw [store]
  split <;> rfl

/-- A store changes the value at its location only. -/
theorem view_store (h : m.Proper) :
    (m.store line a v).view line b = if b = a then v else m.view line b := by
  rw [store]
  split
  · exact Cached.view_store
  · next hcached =>
    have hnone := h (by simpa using hcached) (line b)
    simp [Cached.view, hnone, Function.update_apply]

theorem ram_store_of_ne (h : b ≠ a) : (m.store line a v).ram b = m.ram b := by
  rw [store]
  split
  · rfl
  · exact Function.update_of_ne h ..

theorem ram_store_self : (m.store line a v).ram a = m.ram a ∨ (m.store line a v).ram a = v := by
  rw [store]
  split
  · exact .inl rfl
  · exact .inr (Function.update_self ..)

/-- Only the line of the location becomes dirty. -/
theorem stored_store (h : (m.store line a v).Stored l) : l = line a ∨ m.Stored l := by
  rcases eq_or_ne l (line a) with rfl | hne
  · exact .inl rfl
  · refine .inr ?_
    rw [store] at h
    split at h
    · simpa [Stored, Cached.store, Cached.fill, hne] using h
    · exact h

/-- What has been stored is not lost. -/
theorem sound_store_self (h : m.Proper) : (m.store line a v).Sound line a := by
  intro hnot
  rw [store] at hnot ⊢
  split at hnot
  · exact absurd ⟨by simp [Cached.store, Cached.fill], by simp⟩ hnot
  · next hcached =>
    rw [if_neg hcached]
    exact agrees_of_not_held (h (by simpa using hcached) (line a))

/-- After a store the other locations agree with memory as before. -/
theorem agrees_store_of_ne (h : m.Proper) (hne : b ≠ a) (hb : m.Agrees line b) :
    (m.store line a v).Agrees line b := by
  rw [Agrees, view_store h, if_neg hne, ram_store_of_ne hne]
  exact hb

/-- A store keeps what is sound. -/
theorem Sound.store (hp : m.Proper) (h : m.Sound line b) (a : Loc) (v : V) :
    (m.store line a v).Sound line b := by
  rcases eq_or_ne b a with rfl | hne
  · exact sound_store_self hp
  · intro hnot
    refine agrees_store_of_ne hp hne (h fun hs => hnot ?_)
    rw [Tagged.store]
    split
    · rcases eq_or_ne (line b) (line a) with heq | hline
      · simp [Stored, Cached.store, Cached.fill, heq]
      · simpa [Stored, Cached.store, Cached.fill, hline] using hs
    · exact hs

end

/-! ### Other parties -/

section

variable [DecidableEq Loc]

/-- A write to memory by another party shows at its own location at most. -/
theorem view_poke_of_ne (h : b ≠ a) : (m.poke a v).view line b = m.view line b := by
  simp [poke, Cached.view, h]

theorem ram_poke : (m.poke a v).ram b = if b = a then v else m.ram b := Function.update_apply ..

/-- A write by another party keeps what belongs together. -/
theorem Proper.poke (h : m.Proper) (a : Loc) (v : V) : (m.poke a v).Proper := h

/-- After a write by another party the other locations agree with memory as before. -/
theorem agrees_poke_of_ne (h : b ≠ a) (hb : m.Agrees line b) : (m.poke a v).Agrees line b := by
  rw [Agrees, view_poke_of_ne h, ram_poke, if_neg h]
  exact hb

theorem Sound.poke_of_ne (hb : m.Sound line b) (h : b ≠ a) : (m.poke a v).Sound line b :=
  fun hnot => agrees_poke_of_ne h (hb hnot)

/-- Afterwards the processor sees what it saw, or the memory's value. -/
theorem view_poke_self :
    (m.poke a v).view line a = m.view line a ∨ (m.poke a v).view line a = v := by
  by_cases h : m.held (line a)
  · exact .inl (by simp [poke, Cached.view, h])
  · exact .inr (by simp [poke, Cached.view, h])

end

end Tagged

end WriteBack
