import C906Firmware.Cache.LineLoop
import C906Firmware.Model.Shmem

/-!
# The block operations move bytes

A block operation goes from one side to the other by bytes or by words, whatever the two
alignments are. Of the loops it is shown once, for any assertion `I i` of what holds after `i`
bytes, that they end with nothing left (`total_blockLoops`); the operations instantiate it with
the memory in which the first `i` bytes have been copied (`copied`) or set (`filled`).

The memory here is the one the processor sees: cache maintenance leaves it alone. It need not
end, however: the line loop of a block that ends inside the last line of the address space runs
for ever, and the operation on it does not return.
-/

namespace C906Firmware

open Interaction

/-! ### The loops -/

section Loops

variable {K A : Type} {exec : (o : Op) → A → K → Ret o × K} {k : K}

/-- The rule of a counting loop: a round is made with at least its bytes left. -/
theorem total_countLoop {Go : ℕ × ℤ → Prop} [DecidablePred Go] {n : ℕ} (hn : 0 < n)
    {step : ℕ → Code Unit} {P : ℕ × ℤ → K → Prop}
    (hleft : ∀ s k, P s k → Go s → (n : ℤ) ≤ s.2)
    (hstep : ∀ s k, P s k → Go s → Total exec (step s.1) (fun _ => P (s.1 + n, s.2 - n)) k)
    {fuel : ℕ} {s : ℕ × ℤ} (hfuel : s.2.toNat < fuel) (h : P s k) :
    Total exec (countLoop Go n step fuel s) (fun s' k' => P s' k' ∧ ¬Go s') k := by
  refine Total.iterate (fun s : ℕ × ℤ => s.2.toNat) (fun s k hP => ?_) hfuel h
  split
  · next hgo =>
    refine Total.bind ((hstep s k hP hgo).mono fun _ k' hnext =>
      ⟨?_, fun _ hb => absurd hb Sum.inl_ne_inr⟩)
    intro s' hs'
    obtain rfl := Sum.inl.inj hs'
    have hle := hleft s k hP hgo
    refine ⟨hnext, ?_⟩
    show (s.2 - n).toNat < s.2.toNat
    omega
  · next hstop =>
    refine ⟨fun _ hs' => absurd hs' Sum.inr_ne_inl, fun b hb => ?_⟩
    obtain rfl := Sum.inr.inj hb
    exact ⟨hP, hstop⟩

variable {I : ℕ → K → Prop} {len : ℕ} {Misaligned : ℕ → Prop} [DecidablePred Misaligned]
  {byte word : ℕ → Code Unit}

/-- The loop state accounts for the length, and the assertion holds of what is done. -/
structure Counts (I : ℕ → K → Prop) (len : ℕ) (s : ℕ × ℤ) (k : K) : Prop where
  sum : (s.1 : ℤ) + s.2 = len
  left : 0 ≤ s.2
  holds : I s.1 k

/-- A round that moves by no more than what is left keeps count. -/
theorem Counts.next {s : ℕ × ℤ} {n : ℕ} (h : Counts I len s k) (hn : (n : ℤ) ≤ s.2) {k' : K}
    (hI : I (s.1 + n) k') : Counts I len (s.1 + n, s.2 - n) k' where
  sum := by
    have hsum := h.sum
    push_cast
    omega
  left := by
    show 0 ≤ s.2 - n
    omega
  holds := hI

theorem Counts.fuel {s : ℕ × ℤ} (h : Counts I len s k) {fuel : ℕ} (hfuel : len < fuel) :
    s.2.toNat < fuel := by
  have hsum := h.sum
  omega

/-- The three loops end with nothing left, and each word is moved at an aligned place. -/
theorem total_blockLoops
    (hbyte : ∀ i k, i < len → I i k → Total exec (byte i) (fun _ => I (i + 1)) k)
    (hword : ∀ i k, i + 4 ≤ len → ¬Misaligned i → I i k →
      Total exec (word i) (fun _ => I (i + 4)) k)
    (hmis : ∀ i, Misaligned (i + 4) → Misaligned i) {fuel : ℕ} (hfuel : len < fuel)
    (h : I 0 k) :
    Total exec (blockLoops Misaligned byte word fuel len)
      (fun s' k' => s' = (len, 0) ∧ I len k') k := by
  have hone : ∀ s k, Counts I len s k → s.2 ≠ 0 → ((1 : ℕ) : ℤ) ≤ s.2 := fun s k hs hne => by
    have hleft := hs.left
    omega
  have hbyte' : ∀ s k, Counts I len s k → s.2 ≠ 0 →
      Total exec (byte s.1) (fun _ => Counts I len (s.1 + 1, s.2 - (1 : ℕ))) k := by
    intro s k hs hne
    have hpos := hone s k hs hne
    have hlt : s.1 < len := by
      have hsum := hs.sum
      omega
    exact (hbyte s.1 k hlt hs.holds).mono fun _ _ hI => hs.next hpos hI
  have hstart : Counts I len (0, len) k := ⟨by simp, by simp, h⟩
  -- the head leaves nothing, or an aligned place
  refine Total.bind ((total_countLoop Nat.one_pos (fun s k hs hgo => hone s k hs hgo.1)
    (fun s k hs hgo => hbyte' s k hs hgo.1) (hstart.fuel hfuel) hstart).mono ?_)
  rintro s₁ k₁ ⟨hs₁, hhead⟩
  have haligned : s₁.2 ≠ 0 → ¬Misaligned s₁.1 := fun hne hmis => hhead ⟨hne, hmis⟩
  refine Total.bind ((total_countLoop (n := 4)
    (P := fun s k => Counts I len s k ∧ (s.2 ≠ 0 → ¬Misaligned s.1)) (by omega)
    (fun s k _ hgo => hgo) ?_ (hs₁.fuel hfuel) ⟨hs₁, haligned⟩).mono ?_)
  · rintro s k ⟨hs, halign⟩ hgo
    have hfour : ((4 : ℕ) : ℤ) ≤ s.2 := hgo
    have hplace : ¬Misaligned s.1 := halign (by omega)
    have hle : s.1 + 4 ≤ len := by
      have hsum := hs.sum
      omega
    exact (hword s.1 k hle hplace hs.holds).mono fun _ _ hI =>
      ⟨hs.next hfour hI, fun _ hmis' => hplace (hmis s.1 hmis')⟩
  · rintro s₂ k₂ ⟨⟨hs₂, -⟩, -⟩
    refine (total_countLoop Nat.one_pos hone hbyte' (hs₂.fuel hfuel) hs₂).mono ?_
    rintro s₃ k₃ ⟨hs₃, hdone⟩
    have hzero : s₃.2 = 0 := not_not.mp hdone
    have hall : s₃.1 = len := by
      have hsum := hs₃.sum
      omega
    exact ⟨Prod.ext hall hzero, hall ▸ hs₃.holds⟩

/-- With more rounds the loops do the same, or go on where they gave up. -/
theorem blockLoops_below {fuel fuel' : ℕ} (h : fuel ≤ fuel') (n : ℤ) :
    (blockLoops Misaligned byte word fuel n).Below (blockLoops Misaligned byte word fuel' n) := by
  refine (Prog.Below.iterate h _).bind fun s₁ => ?_
  refine (Prog.Below.iterate h _).bind fun s₂ => ?_
  exact Prog.Below.iterate h _

end Loops

/-! ### The memory -/

/-- The bytes the processor sees, and the addresses of the 4-byte accesses made, latest first. -/
structure FlatMemory where
  bytes : ℕ → Byte
  words : List ℕ

namespace FlatMemory

/-- Four bytes stored from an address on. -/
def storeQuad (bytes : ℕ → Byte) (a : ℕ) (q : Quad) : ℕ → Byte :=
  Function.update (Function.update (Function.update (Function.update bytes a q.b0) (a + 1) q.b1)
    (a + 2) q.b2) (a + 3) q.b3

/-- What an access does to the memory. -/
def exec (o : Op) (x : Answer) (m : FlatMemory) : Ret o × FlatMemory :=
  match o with
  | .load8 a => (m.bytes a, m)
  | .store8 a b => ((), { m with bytes := Function.update m.bytes a b })
  | .load32 a =>
    (⟨m.bytes a, m.bytes (a + 1), m.bytes (a + 2), m.bytes (a + 3)⟩,
      { m with words := a :: m.words })
  | .store32 a q => ((), ⟨storeQuad m.bytes a q, a :: m.words⟩)
  | o => (x.at o, m)

/-- The memory has these bytes, and its 4-byte accesses were aligned. -/
def Shows (m : FlatMemory) (bytes : ℕ → Byte) : Prop :=
  m.bytes = bytes ∧ ∀ a ∈ m.words, a % 4 = 0

theorem shows_init (bytes : ℕ → Byte) : Shows ⟨bytes, []⟩ bytes :=
  ⟨rfl, fun _ ha => absurd ha List.not_mem_nil⟩

section Maintenance

variable {addr : Addr} {len : BitVec 32} {fuel : ℕ}

/-- A loop over cache lines ends, and leaves memory as it is if each step does. -/
theorem total_lineLoop (op : ℕ → Code Unit)
    (hop : ∀ j m, Total exec (op j) (fun _ m' => m' = m) m) {start stop : Addr}
    (hstop : stop.toNat ≤ 2 ^ 64 - L1_CACHE_BYTES) (hfuel : stop.toNat < fuel)
    (m : FlatMemory) :
    Total exec (Hal.lineLoop op stop fuel (Hal.lineStart start)) (fun _ m' => m' = m) m := by
  rw [Hal.lineLoop_lineStart op hstop hfuel]
  refine Total.forEach (P := fun _ m' => m' = m) (fun j _ m' h => ?_) rfl
  exact h ▸ hop j m'

/-- A flush leaves memory as it is. -/
theorem total_cacheFlush (hstop : (addr + len.setWidth 64).toNat ≤ 2 ^ 64 - L1_CACHE_BYTES)
    (hfuel : (addr + len.setWidth 64).toNat < fuel) (m : FlatMemory) :
    Total exec (Hal.metalMachineCacheFlush fuel addr len) (fun _ m' => m' = m) m := by
  unfold Hal.metalMachineCacheFlush
  split
  · exact fun _ => rfl
  · refine total_lineLoop (fun i => access (.cpa i)) (fun _ _ => ?_) hstop hfuel m
    exact fun _ => rfl

/-- An invalidation leaves memory as it is, for there is no cache here. -/
theorem total_cacheInvalidate
    (hstop : (addr + len.setWidth 64).toNat ≤ 2 ^ 64 - L1_CACHE_BYTES)
    (hfuel : (addr + len.setWidth 64).toNat < fuel) (m : FlatMemory) :
    Total exec (Hal.metalMachineCacheInvalidate fuel addr len) (fun _ m' => m' = m) m := by
  unfold Hal.metalMachineCacheInvalidate
  split
  · exact fun _ => rfl
  · refine total_lineLoop (fun i => access (.ipa i)) (fun _ _ => ?_) hstop hfuel m
    exact fun _ => rfl

end Maintenance

end FlatMemory

/-! ### Copying -/

/-- Memory after `len` bytes have been copied from `source` to `dest`. -/
def copied (bytes : ℕ → Byte) (dest source len : ℕ) : ℕ → Byte := fun a =>
  if dest ≤ a ∧ a < dest + len then bytes (source + (a - dest)) else bytes a

/-- Memory after `len` bytes from `dest` on have been set. -/
def filled (bytes : ℕ → Byte) (dest : ℕ) (value : Byte) (len : ℕ) : ℕ → Byte := fun a =>
  if dest ≤ a ∧ a < dest + len then value else bytes a

/-- Two blocks of the given length have no byte in common. -/
def BlocksApart (a b len : ℕ) : Prop := a + len ≤ b ∨ b + len ≤ a

section Copying

variable {bytes : ℕ → Byte} {dest source len i : ℕ} {value : Byte}

theorem copied_zero : copied bytes dest source 0 = bytes :=
  funext fun _ => if_neg (by omega)

theorem filled_zero : filled bytes dest value 0 = bytes :=
  funext fun _ => if_neg (by omega)

/-- What is still to be copied is as it was. -/
theorem copied_source (h : BlocksApart dest source len) {j : ℕ} (hi : i ≤ len) (hj : j < len) :
    copied bytes dest source i (source + j) = bytes (source + j) := by
  unfold BlocksApart at h
  exact if_neg (by omega)

theorem copied_succ : copied bytes dest source (i + 1) =
    Function.update (copied bytes dest source i) (dest + i) (bytes (source + i)) := by
  funext a
  by_cases ha : a = dest + i
  · rw [ha, Function.update_self, copied, if_pos (by omega), Nat.add_sub_cancel_left]
  · rw [Function.update_of_ne ha]
    exact if_congr (by omega) rfl rfl

theorem filled_succ : filled bytes dest value (i + 1) =
    Function.update (filled bytes dest value i) (dest + i) value := by
  funext a
  by_cases ha : a = dest + i
  · rw [ha, Function.update_self, filled, if_pos (by omega)]
  · rw [Function.update_of_ne ha]
    exact if_congr (by omega) rfl rfl

/-- One byte is copied, where source and destination lie apart. -/
theorem total_copyByte (h : BlocksApart dest source len) (hi : i < len) {m : FlatMemory}
    (hm : m.Shows (copied bytes dest source i)) :
    Total FlatMemory.exec (copyByte dest source i)
      (fun _ m' => m'.Shows (copied bytes dest source (i + 1))) m := by
  intro _ _
  refine ⟨?_, hm.2⟩
  show Function.update m.bytes (dest + i) (m.bytes (source + i)) = _
  rw [hm.1, copied_source h hi.le hi, copied_succ]

/-- Four bytes are copied at once, where both addresses are aligned. -/
theorem total_copyWord (h : BlocksApart dest source len) (hi : i + 4 ≤ len)
    (hdest : (dest + i) % 4 = 0) (hsource : (source + i) % 4 = 0) {m : FlatMemory}
    (hm : m.Shows (copied bytes dest source i)) :
    Total FlatMemory.exec (copyWord dest source i)
      (fun _ m' => m'.Shows (copied bytes dest source (i + 4))) m := by
  intro _ _
  constructor
  · have hread : ∀ j < 4, m.bytes (source + i + j) = bytes (source + (i + j)) := fun j hj => by
      rw [hm.1, Nat.add_assoc]
      exact copied_source h (by omega) (by omega)
    have hfirst : m.bytes (source + i) = bytes (source + i) := hread 0 (by omega)
    show FlatMemory.storeQuad m.bytes (dest + i) ⟨m.bytes (source + i),
      m.bytes (source + i + 1), m.bytes (source + i + 2), m.bytes (source + i + 3)⟩ = _
    rw [hfirst, hread 1 (by omega), hread 2 (by omega), hread 3 (by omega), hm.1,
      copied_succ (i := i + 3), copied_succ (i := i + 2), copied_succ (i := i + 1), copied_succ]
    rfl
  · intro a ha
    rcases List.mem_cons.mp ha with rfl | ha
    · exact hdest
    · rcases List.mem_cons.mp ha with rfl | ha
      · exact hsource
      · exact hm.2 a ha

/-- The loops of a block read or write copy. -/
theorem total_copyLoops {Misaligned : ℕ → Prop} [DecidablePred Misaligned]
    (hmis : ∀ i, Misaligned i ↔ (dest + i) % 4 ≠ 0 ∨ (source + i) % 4 ≠ 0)
    (h : BlocksApart dest source len) {fuel : ℕ} (hfuel : len < fuel) :
    Total FlatMemory.exec (blockLoops Misaligned (copyByte dest source) (copyWord dest source)
        fuel len)
      (fun s m => s = (len, 0) ∧ m.Shows (copied bytes dest source len)) ⟨bytes, []⟩ := by
  refine total_blockLoops (I := fun i m => FlatMemory.Shows m (copied bytes dest source i))
    (fun i m hi hm => total_copyByte h hi hm) (fun i m hi halign hm => ?_) (fun i hi => ?_) hfuel
    ?_
  · rw [hmis, not_or, not_not, not_not] at halign
    exact total_copyWord h hi halign.1 halign.2 hm
  · rw [hmis] at hi ⊢
    omega
  · rw [copied_zero]
    exact FlatMemory.shows_init bytes

/-! ### Setting -/

/-- A byte put above a value that ends below it. -/
theorem toNat_or_shiftLeft {x : Word} (value : Byte) {n : ℕ} (hx : x.toNat < 2 ^ n)
    (hn : n + 8 ≤ 32) :
    (x ||| value.setWidth 32 <<< n).toNat = 2 ^ n * value.toNat + x.toNat := by
  have hvalue := value.isLt
  have hlt : value.toNat * 2 ^ n < 2 ^ 32 := by
    calc value.toNat * 2 ^ n < 2 ^ 8 * 2 ^ n :=
          Nat.mul_lt_mul_of_pos_right hvalue (Nat.two_pow_pos n)
      _ = 2 ^ (8 + n) := (Nat.pow_add 2 8 n).symm
      _ ≤ 2 ^ 32 := Nat.pow_le_pow_right (by omega) (by omega)
  have hwide : value.toNat % 2 ^ 32 = value.toNat := Nat.mod_eq_of_lt (by omega)
  have hshift : (value.setWidth 32 <<< n).toNat = 2 ^ n * value.toNat := by
    rw [BitVec.toNat_shiftLeft, BitVec.toNat_setWidth, Nat.shiftLeft_eq, hwide,
      Nat.mod_eq_of_lt hlt, Nat.mul_comm]
  rw [BitVec.toNat_or, hshift, Nat.or_comm, Nat.two_pow_add_eq_or_of_lt hx]

theorem toNat_cint (value : Byte) :
    (MetalIoRegion.cint value).toNat = (⟨value, value, value, value⟩ : Quad).toNat := by
  have hvalue := value.isLt
  have h0 : (value.setWidth 32).toNat = value.toNat := by
    rw [BitVec.toNat_setWidth, Nat.mod_eq_of_lt (by omega)]
  have h1 := toNat_or_shiftLeft (x := value.setWidth 32) (n := 8) value (by omega) (by omega)
  have h2 := toNat_or_shiftLeft value (n := 16) (by rw [h1]; omega) (by omega)
  have h3 := toNat_or_shiftLeft value (n := 24) (by rw [h2]; omega) (by omega)
  have hcint : (MetalIoRegion.cint value).toNat = _ := h3
  rw [hcint, h2, h1, h0, Quad.toNat]
  dsimp only
  omega

/-- Four bytes are filled at once, where the address is aligned. -/
theorem total_setWord (hdest : (dest + i) % 4 = 0) {m : FlatMemory}
    (hm : m.Shows (filled bytes dest value i)) :
    Total FlatMemory.exec
      (access (.store32 (dest + i) (Quad.ofNat (MetalIoRegion.cint value).toNat)))
      (fun _ m' => m'.Shows (filled bytes dest value (i + 4))) m := by
  intro _
  constructor
  · show FlatMemory.storeQuad m.bytes (dest + i) _ = _
    rw [toNat_cint, Quad.ofNat_toNat, hm.1, filled_succ (i := i + 3), filled_succ (i := i + 2),
      filled_succ (i := i + 1), filled_succ]
    rfl
  · intro a ha
    rcases List.mem_cons.mp ha with rfl | ha
    · exact hdest
    · exact hm.2 a ha

/-- The three loops fill the block and nothing else. -/
theorem total_setLoops {fuel : ℕ} (hfuel : len < fuel) :
    Total FlatMemory.exec (blockLoops (fun i => (dest + i) % 4 ≠ 0)
        (fun i => access (.store8 (dest + i) value))
        (fun i => access (.store32 (dest + i) (Quad.ofNat (MetalIoRegion.cint value).toNat)))
        fuel len)
      (fun s m => s = (len, 0) ∧ m.Shows (filled bytes dest value len)) ⟨bytes, []⟩ := by
  refine total_blockLoops (I := fun i m => FlatMemory.Shows m (filled bytes dest value i))
    (fun i m _ hm => ?_) (fun i m _ halign hm => ?_) (fun i hi => ?_) hfuel ?_
  · intro _
    refine ⟨?_, hm.2⟩
    show Function.update m.bytes (dest + i) value = _
    rw [hm.1, filled_succ]
  · exact total_setWord (not_not.mp halign) hm
  · omega
  · rw [filled_zero]
    exact FlatMemory.shows_init bytes

end Copying

/-! ### The operations on a region -/

/-- The region has addresses, and does not wrap around the address space. -/
structure MetalIoRegion.Placed (io : MetalIoRegion) : Prop where
  virt_ne_null : io.virt ≠ 0
  virt_ne_bad : io.virt ≠ METAL_BAD_VA
  no_wrap : io.virt.toNat + io.size.toNat ≤ 2 ^ 64

/-- In a region that has been mapped an offset is added without wrap-around. -/
theorem MetalIoRegion.Placed.toNat_virt {io : MetalIoRegion} (h : io.Placed) {offset : Addr}
    (hoffset : offset < io.size) :
    (metalIoVirt io offset).toNat = io.virt.toNat + offset.toNat := by
  have hlt : offset.toNat < io.size.toNat := hoffset
  have hwrap := h.no_wrap
  rw [metalIoVirt, if_pos ⟨h.virt_ne_bad, hoffset⟩, BitVec.toNat_add,
    Nat.mod_eq_of_lt (by omega)]

theorem MetalIoRegion.Placed.virt_pos {io : MetalIoRegion} (h : io.Placed) (offset : Addr) :
    io.virt.toNat + offset.toNat ≠ 0 := by
  have hne : io.virt.toNat ≠ 0 := fun hzero => h.virt_ne_null (BitVec.eq_of_toNat_eq hzero)
  omega

/-- For every value and memory: a block read or write copies exactly `len` bytes, a block set
sets exactly `len` bytes, and each of them ends, returns the length and makes aligned 4-byte
accesses only. -/
def BlockOperations (io : MetalIoRegion) (offset buf : Addr) (len : ℕ) : Prop :=
  let ptr := (metalIoVirt io offset).toNat
  ∀ (value : Byte) (bytes : ℕ → Byte),
    (BlocksApart buf.toNat ptr len →
      (∃ fuel, Total FlatMemory.exec (io.shmemMetalIoBlockRead fuel offset buf len)
        (fun ret m => ret = len ∧ m.Shows (copied bytes buf.toNat ptr len)) ⟨bytes, []⟩) ∧
      ∃ fuel, Total FlatMemory.exec (io.shmemMetalIoBlockWrite fuel offset buf len)
        (fun ret m => ret = len ∧ m.Shows (copied bytes ptr buf.toNat len)) ⟨bytes, []⟩) ∧
    ∃ fuel, Total FlatMemory.exec (io.shmemMetalIoBlockSet fuel offset value len)
      (fun _ m => m.Shows (filled bytes ptr value len)) ⟨bytes, []⟩

section Region

variable {io : MetalIoRegion} {offset buf : Addr} {len : ℕ}

/-- The end of a block in a mapped region. -/
theorem MetalIoRegion.Placed.toNat_end (h : io.Placed) (hoffset : offset < io.size)
    (hlen : len < 2 ^ 31) :
    (metalIoVirt io offset + (BitVec.ofInt 32 len).setWidth 64).toNat =
      (io.virt.toNat + offset.toNat + len) % 2 ^ 64 := by
  have hint : (BitVec.ofInt 32 (len : ℤ)) = BitVec.ofNat 32 len := BitVec.ofInt_natCast 32 len
  have hwide : ((BitVec.ofNat 32 len).setWidth 64).toNat = len := by
    rw [BitVec.toNat_setWidth, BitVec.toNat_ofNat]
    omega
  rw [hint, BitVec.toNat_add, h.toNat_virt hoffset, hwide]

theorem MetalIoRegion.Placed.virt_ne (h : io.Placed) (hoffset : offset < io.size) :
    metalIoVirt io offset ≠ 0 := by
  intro hzero
  have htoNat := h.toNat_virt hoffset
  rw [hzero] at htoNat
  exact h.virt_pos offset htoNat.symm

/-- The operations on a block whose lines are walked to an end. -/
theorem blockOperations_of_end (hio : io.Placed) (hoffset : offset < io.size)
    (hlen : len < 2 ^ 31)
    (hend : (io.virt.toNat + offset.toNat + len) % 2 ^ 64 ≤ 2 ^ 64 - L1_CACHE_BYTES) :
    BlockOperations io offset buf len := by
  intro value bytes
  have hne := hio.virt_ne hoffset
  have hstop := hend
  rw [← hio.toNat_end hoffset hlen] at hstop
  have hfuel : (metalIoVirt io offset + (BitVec.ofInt 32 len).setWidth 64).toNat < 2 ^ 64 :=
    BitVec.isLt _
  have hlen' : len < 2 ^ 64 := by omega
  refine ⟨fun hapart => ⟨⟨2 ^ 64, ?_⟩, ⟨2 ^ 64, ?_⟩⟩, ⟨2 ^ 64, ?_⟩⟩
  · rw [MetalIoRegion.shmemMetalIoBlockRead, if_neg hne]
    refine Total.bind ((FlatMemory.total_cacheInvalidate hstop hfuel _).mono ?_)
    rintro _ m rfl
    refine Total.bind ((total_copyLoops (fun i => Iff.rfl) hapart hlen').mono ?_)
    rintro s m ⟨-, hm⟩
    exact ⟨rfl, hm⟩
  · have hapart' : BlocksApart (metalIoVirt io offset).toNat buf.toNat len := hapart.symm
    rw [MetalIoRegion.shmemMetalIoBlockWrite, if_neg hne]
    refine Total.bind ((total_copyLoops (fun i => Iff.rfl) hapart' hlen').mono ?_)
    rintro s m ⟨-, hm⟩
    refine Total.bind ((FlatMemory.total_cacheFlush hstop hfuel _).mono ?_)
    rintro _ m' rfl
    exact ⟨rfl, hm⟩
  · rw [MetalIoRegion.shmemMetalIoBlockSet, if_neg hne]
    refine Total.bind ((total_setLoops hlen').mono ?_)
    rintro s m ⟨-, hm⟩
    refine (FlatMemory.total_cacheFlush hstop hfuel _).mono ?_
    rintro _ m' rfl
    exact hm

/-- A block set does not return if the block ends inside the last line. -/
theorem not_blockOperations_of_end (hio : io.Placed) (hoffset : offset < io.size)
    (hlen : len < 2 ^ 31)
    (hend : 2 ^ 64 - L1_CACHE_BYTES < (io.virt.toNat + offset.toNat + len) % 2 ^ 64) :
    ¬BlockOperations io offset buf len := by
  intro hops
  obtain ⟨fuel, htotal⟩ := (hops 0 fun _ => 0).2
  obtain ⟨_, _, hrun, -⟩ := htotal.run fun _ => default
  rw [← hio.toNat_end hoffset hlen] at hend
  have hne := hio.virt_ne hoffset
  have hrange : ¬(metalIoVirt io offset = 0 ∧ BitVec.ofInt 32 (len : ℤ) = 0) := fun h => hne h.1
  rw [MetalIoRegion.shmemMetalIoBlockSet, if_neg hne] at hrun
  obtain ⟨_, m, xs, -, hrun⟩ := Prog.run_bind hrun
  rw [Hal.metalMachineCacheFlush, if_neg hrange] at hrun
  have hnone := Hal.lineLoop_lineStart_never_ends FlatMemory.exec (fun i => access (.cpa i))
    (metalIoVirt io offset) hend fuel m xs
  exact absurd (hnone.symm.trans hrun) (Option.some_ne_none _).symm

end Region

/-- The block operations do what they should unless the block ends inside the last line of the
address space. -/
theorem blockOperations_iff (io : MetalIoRegion) (hio : io.Placed) (offset buf : Addr) (len : ℕ)
    (hoffset : offset < io.size) (hlen : len < 2 ^ 31) :
    BlockOperations io offset buf len ↔
      (io.virt.toNat + offset.toNat + len) % 2 ^ 64 ≤ 2 ^ 64 - L1_CACHE_BYTES := by
  constructor
  · intro hops
    by_contra hend
    exact not_blockOperations_of_end hio hoffset hlen (Nat.lt_of_not_le hend) hops
  · exact blockOperations_of_end hio hoffset hlen

/-- A region whose pointer and local pointer have different alignments. -/
theorem blockOperations_iff_misaligned :
    BlockOperations (metalIoInit 0x414B0000 (fun _ => 0x414B0000) 0x40000 (-1)) 3 0x40001002 9 :=
  (blockOperations_iff (metalIoInit 0x414B0000 (fun _ => 0x414B0000) 0x40000 (-1))
    ⟨by decide, by decide, by decide⟩ 3 0x40001002 9 (by decide) (by decide)).mpr (by decide)

/-- Eight bytes inside the last line of the address space: the operations do not return. -/
theorem block_in_last_line :
    (metalIoInit 0xFFFFFFFFFFFFF000 (fun _ => 0xFFFFFFFFFFFFF000) 0xFFF (-1)).Placed ∧
      ¬BlockOperations (metalIoInit 0xFFFFFFFFFFFFF000 (fun _ => 0xFFFFFFFFFFFFF000) 0xFFF (-1))
        0xFD0 0x40001000 8 := by
  have hplaced :
      (metalIoInit 0xFFFFFFFFFFFFF000 (fun _ => 0xFFFFFFFFFFFFF000) 0xFFF (-1)).Placed :=
    ⟨by decide, by decide, by decide⟩
  exact ⟨hplaced, not_blockOperations_of_end hplaced (by decide) (by decide) (by decide)⟩

end C906Firmware
