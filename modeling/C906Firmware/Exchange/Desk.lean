import C906Firmware.Interaction.Simulate
import C906Firmware.Cache.Maintenance
import C906Firmware.Model.Rpmsg

/-!
# The exchange of buffers, as the firmware sees it

The two queues are streams of **offers**: the host offers buffers one after the other, and the
firmware takes them in that order and returns them by the indices of their descriptors. A `Desk`
is what the firmware knows and has in hand: which offers it has seen, which it has taken and not
returned, what is in these buffers, and which locations hold in memory what it sees there.

`exchange` is the account of what accesses do to a desk: what the firmware owes before each of
them (it reads and writes only buffers in hand and writes the next element of a used ring, and
returns a buffer only when its element, and on the send queue its message, is complete in
memory), and what it may rely on.
-/

namespace C906Firmware

open Interaction

/-! ### Messages and offers -/

/-- The 32-bit field at an offset of a message. -/
def wordAt (c : List Byte) (i : ℕ) : Quad :=
  ⟨c.getD i 0, c.getD (i + 1) 0, c.getD (i + 2) 0, c.getD (i + 3) 0⟩

/-- The source address in the header of a message. -/
def msgSrc (c : List Byte) : ℕ := (wordAt c 0).toNat

/-- The destination address in the header of a message. -/
def msgDst (c : List Byte) : ℕ := (wordAt c 4).toNat

/-- The length in the header of a message. -/
def msgLen (c : List Byte) : ℕ := (wordAt c 12).toNat % 2 ^ 16

/-- The payload of a message. -/
def msgPayload (c : List Byte) : List Byte := (c.drop RPMSG_HDR_SIZE).take (msgLen c)

/-- The message has a header and the payload the header speaks of. -/
def WellFormed (c : List Byte) : Prop := RPMSG_HDR_SIZE + msgLen c ≤ c.length

instance (c : List Byte) : Decidable (WellFormed c) := inferInstanceAs (Decidable (_ ≤ _))

/-- A buffer the host offers: its descriptor, its place, and what the host has put in it. -/
structure Offer where
  idx : ℕ
  addr : ℕ
  len : ℕ
  content : List Byte
  deriving DecidableEq, Repr

namespace Offer

/-- The address lies in the buffer. -/
def Covers (o : Offer) (a : ℕ) : Prop := o.addr ≤ a ∧ a < o.addr + o.len

instance (o : Offer) (a : ℕ) : Decidable (o.Covers a) := inferInstanceAs (Decidable (_ ∧ _))

/-- A descriptor of the table, for a buffer in the shared region with room for more than a
header. -/
structure Proper (o : Offer) : Prop where
  idx_lt : o.idx < VRING_NUM_BUFFS
  start : SHMEM_PA ≤ o.addr
  stop : o.addr + o.len ≤ SHMEM_PA + SHMEM_SIZE
  room : RPMSG_HDR_SIZE < o.len
  content_length : o.content.length = o.len

theorem Proper.inShm {o : Offer} (h : o.Proper) {a : ℕ} (ha : o.Covers a) : InShm a :=
  ⟨h.start.trans ha.1, ha.2.trans_le h.stop⟩

/-- The room for a payload. -/
def room (o : Offer) : ℕ := o.len - RPMSG_HDR_SIZE

end Offer

/-! ### Locations and lines -/

/-- A location of shared memory: a byte of a buffer or a ring field. -/
inductive Loc
  | byte (a : ℕ)
  | cell (c : Cell)
  deriving DecidableEq

/-- The address of a location. -/
def Loc.addr : Loc → ℕ
  | .byte a => a
  | .cell c => c.addr

/-- The fields of the used rings, which only the firmware writes. -/
def Cell.Used : Cell → Prop
  | .usedIdx _ => True
  | .usedId _ i => i < VRING_NUM_BUFFS
  | .usedLen _ i => i < VRING_NUM_BUFFS
  | _ => False

/-- The line holds a field of a used ring. -/
def UsedLine (l : ℕ) : Prop := ∃ c : Cell, c.Used ∧ lineOf c.addr = l

/-- The queue of a ring field. -/
def Cell.queue : Cell → Vq
  | .descAddr q _ | .descLen q _ | .availFlags q | .availIdx q | .availRing q _ | .usedFlags q
  | .usedIdx q | .usedId q _ | .usedLen q _ | .vringNotifyid q => q
  | .vdevStatus | .vdevDfeatures | .vdevGfeatures | .vdevNotifyid => .svq

/-- The field says `v` of the offer `o` with the number `j`. -/
def Offer.Field (o : Offer) (q : Vq) (j : ℕ) (c : Cell) (v : ℕ) : Prop :=
  (c = .availRing q (j % VRING_NUM_BUFFS) ∧ v = o.idx) ∨
    (c = .descAddr q o.idx ∧ v = o.addr) ∨ (c = .descLen q o.idx ∧ v = o.len)

/-! ### The desk -/

/-- What the firmware knows of the exchange, and has in hand. -/
structure Desk where
  /-- Private memory. -/
  var : Var → ℕ
  /-- The fields of the used rings. -/
  cell : Cell → ℕ
  /-- The bytes of the buffers in hand, as far as they are known. -/
  bytes : ℕ → Option Byte
  /-- The location holds in memory what the firmware sees there. -/
  synced : Loc → Prop
  /-- The offers seen. -/
  known : Vq → List Offer
  /-- How many offers had been seen when the line of a ring field was last invalidated. -/
  fresh : Cell → ℕ
  /-- At least so many offers are shown by the index of an available ring. -/
  heard : Vq → ℕ
  /-- How many offers have been taken. -/
  taken : Vq → ℕ
  /-- The offers taken and not yet returned. -/
  hand : Vq → List ℕ
  /-- The offers returned, in that order. -/
  done : Vq → List ℕ

namespace Desk

/-- The offer has been taken and not yet returned. -/
def InHand (s : Desk) (q : Vq) (j : ℕ) (o : Offer) : Prop :=
  j ∈ s.hand q ∧ (s.known q)[j]? = some o

/-- The value of a ring field is what the host has written there of the offer taken last, if the
line has been invalidated since the offer was seen. -/
def Told (s : Desk) (c : Cell) (r : ℕ) : Prop :=
  ∀ q j o v, s.InHand q j o → j + 1 = s.taken q → o.Field q j c v → j < s.fresh c → r = v

/-- The byte lies in a buffer in hand. -/
def Holds (s : Desk) (a : ℕ) : Prop := ∃ q j o, s.InHand q j o ∧ o.Covers a

/-- The byte lies in a buffer in hand and is known. -/
def Reads (s : Desk) (a : ℕ) (b : Byte) : Prop := s.Holds a ∧ s.bytes a = some b

/-- The byte lies in a transmit buffer in hand. -/
def Composes (s : Desk) (a : ℕ) : Prop := ∃ j o, s.InHand .svq j o ∧ o.Covers a

/-- The address is that of the reserved word of a message in hand. -/
def Marks (s : Desk) (a : ℕ) : Prop := ∃ j o, s.InHand .rvq j o ∧ a = o.addr + 8

/-- The element of the used ring for the next buffer returned. -/
def slot (s : Desk) (q : Vq) : ℕ := (s.done q).length % VRING_NUM_BUFFS

/-- The numbers of the offers taken, in hand and returned. -/
structure Tidy (s : Desk) : Prop where
  count : ∀ q, s.taken q = (s.done q).length + (s.hand q).length
  hand_nodup : ∀ q, (s.hand q).Nodup
  done_nodup : ∀ q, (s.done q).Nodup
  hand_lt : ∀ q, ∀ j ∈ s.hand q, j < s.taken q
  done_lt : ∀ q, ∀ j ∈ s.done q, j < s.taken q
  fresh_hand : ∀ q, ∀ j ∈ s.hand q, j ∉ s.done q
  taken_le : ∀ q, s.taken q ≤ (s.known q).length

/-! ### What accesses do -/

/-- A private variable is written. -/
def set (s : Desk) (v : Var) (n : ℕ) : Desk := { s with var := Function.update s.var v n }

/-- The next offer is taken. -/
def take (s : Desk) (q : Vq) (n : ℕ) (bytes : ℕ → Option Byte) (synced : Loc → Prop) : Desk :=
  { s with
    var := Function.update s.var (.vqAvailableIdx q) n
    taken := Function.update s.taken q (s.taken q + 1)
    hand := Function.update s.hand q (s.hand q ++ [s.taken q])
    bytes := bytes
    synced := synced }

/-- More offers are seen. -/
def see (s : Desk) (q : Vq) (offers : List Offer) : Desk :=
  { s with known := Function.update s.known q offers }

/-- A ring field is written. -/
def storeCell (s : Desk) (c : Cell) (n : ℕ) : Desk :=
  { s with
    cell := Function.update s.cell c n
    synced := fun l => s.synced l ∧ l ≠ .cell c }

/-- A ring field after a store to one. -/
theorem cell_storeCell (s : Desk) (c : Cell) (n : ℕ) (c' : Cell) :
    (s.storeCell c n).cell c' = if c' = c then n else s.cell c' :=
  Function.update_apply ..

/-- A buffer in hand is returned. -/
def giveBack (s : Desk) (q : Vq) (j n : ℕ) : Desk :=
  { s.storeCell (.usedIdx q) n with
    hand := Function.update s.hand q ((s.hand q).erase j)
    done := Function.update s.done q (s.done q ++ [j]) }

/-- A byte of a buffer is written. -/
def storeByte (s : Desk) (a : ℕ) (b : Byte) : Desk :=
  { s with
    bytes := Function.update s.bytes a (some b)
    synced := fun l => s.synced l ∧ l ≠ .byte a }

theorem bytes_storeByte (s : Desk) (a : ℕ) (b : Byte) (x : ℕ) :
    (s.storeByte a b).bytes x = if x = a then some b else s.bytes x :=
  Function.update_apply ..

/-- Four bytes of a buffer are written. -/
def storeWord (s : Desk) (a : ℕ) (w : Quad) : Desk :=
  (((s.storeByte a w.b0).storeByte (a + 1) w.b1).storeByte (a + 2) w.b2).storeByte (a + 3) w.b3

/-- The bytes of a word that has been stored. -/
theorem bytes_storeWord (s : Desk) (a : ℕ) {w : Quad} {i : ℕ} {b : Byte}
    (hb : w.bytes[i]? = some b) : (s.storeWord a w).bytes (a + i) = some b := by
  have hi : i < 4 := (List.getElem?_eq_some_iff.1 hb).1
  simp only [storeWord, bytes_storeByte]
  match i, hi with
  | 0, _ => simpa [Quad.bytes] using hb
  | 1, _ => simpa [Quad.bytes] using hb
  | 2, _ => simpa [Quad.bytes] using hb
  | 3, _ => simpa [Quad.bytes] using hb

/-- The bytes beside it are as they were. -/
theorem bytes_storeWord_of_ne (s : Desk) {a x : ℕ} (w : Quad) (hne : ∀ i < 4, x ≠ a + i) :
    (s.storeWord a w).bytes x = s.bytes x := by
  have h0 : x ≠ a := hne 0 (by omega)
  simp only [storeWord, bytes_storeByte, if_neg h0, if_neg (hne 1 (by omega)),
    if_neg (hne 2 (by omega)), if_neg (hne 3 (by omega))]

/-- What is in memory beside the word still is. -/
theorem synced_storeWord {s : Desk} {a : ℕ} {w : Quad} {l : Loc} (h : s.synced l)
    (hne : ∀ i < 4, l ≠ .byte (a + i)) : (s.storeWord a w).synced l :=
  ⟨⟨⟨⟨h, hne 0 (by omega)⟩, hne 1 (by omega)⟩, hne 2 (by omega)⟩, hne 3 (by omega)⟩

/-- The line of an address is written back. -/
def writeBack (s : Desk) (a : ℕ) : Desk :=
  { s with synced := fun l => s.synced l ∨ lineOf l.addr = lineOf a }

open Classical in
/-- The line of an address is invalidated, and the indices show so many offers. -/
noncomputable def invalidate (s : Desk) (a : ℕ) (heard : Vq → ℕ) : Desk :=
  { s with
    bytes := fun x => if lineOf x = lineOf a ∧ ¬s.synced (.byte x) then none else s.bytes x
    synced := fun l => s.synced l ∨ lineOf l.addr = lineOf a
    fresh := fun c => if lineOf c.addr = lineOf a then (s.known c.queue).length else s.fresh c
    heard := heard }

/-- What is known after a line has been invalidated was known, and was in memory. -/
theorem bytes_invalidate {s : Desk} {a x : ℕ} {heard : Vq → ℕ} {b : Byte}
    (h : (s.invalidate a heard).bytes x = some b) :
    s.bytes x = some b ∧ (lineOf x = lineOf a → s.synced (.byte x)) := by
  simp only [invalidate] at h
  split at h
  · cases h
  · next hnot =>
    rw [not_and, not_not] at hnot
    exact ⟨h, hnot⟩

/-- An invalidation shows all offers known where it drops the line of the index. -/
theorem fresh_invalidate (s : Desk) (a : ℕ) (heard : Vq → ℕ) (c : Cell) :
    (s.invalidate a heard).fresh c =
      if lineOf c.addr = lineOf a then (s.known c.queue).length else s.fresh c := rfl

/-! ### What accesses do to the numbers -/

section Tidy

variable {s : Desk} {q : Vq}

/-- Tidiness is about the streams only. -/
theorem Tidy.congr (h : s.Tidy) {s' : Desk} (hknown : s'.known = s.known)
    (htaken : s'.taken = s.taken) (hhand : s'.hand = s.hand) (hdone : s'.done = s.done) :
    s'.Tidy where
  count := by
    rw [htaken, hhand, hdone]
    exact h.count
  hand_nodup := hhand ▸ h.hand_nodup
  done_nodup := hdone ▸ h.done_nodup
  hand_lt := by
    rw [htaken, hhand]
    exact h.hand_lt
  done_lt := by
    rw [htaken, hdone]
    exact h.done_lt
  fresh_hand := by
    rw [hhand, hdone]
    exact h.fresh_hand
  taken_le := by
    rw [htaken, hknown]
    exact h.taken_le

/-- Taking the next offer keeps the streams tidy. -/
theorem Tidy.take (h : s.Tidy) (hlt : s.taken q < (s.known q).length) (n : ℕ)
    (bytes : ℕ → Option Byte) (synced : Loc → Prop) : (s.take q n bytes synced).Tidy where
  count q' := by
    have hcount := h.count q'
    rcases eq_or_ne q' q with rfl | hne
    · simp only [Desk.take, Function.update_self, List.length_append, List.length_cons,
        List.length_nil]
      omega
    · simpa [Desk.take, Function.update_apply, hne] using hcount
  hand_nodup q' := by
    rcases eq_or_ne q' q with rfl | hne
    -- The numbers in hand are below that of the next offer.
    · have hnew : s.taken q' ∉ s.hand q' := fun hmem => (h.hand_lt q' _ hmem).false
      simp only [Desk.take, Function.update_self]
      exact List.nodup_append.mpr ⟨h.hand_nodup q', by simp, by
        rintro a ha b hb rfl
        exact hnew (List.mem_singleton.mp hb ▸ ha)⟩
    · simpa [Desk.take, Function.update_apply, hne] using h.hand_nodup q'
  done_nodup := h.done_nodup
  hand_lt q' j hj := by
    rcases eq_or_ne q' q with rfl | hne
    · simp only [Desk.take, Function.update_self, List.mem_append, List.mem_singleton] at hj ⊢
      rcases hj with hj | rfl
      · exact (h.hand_lt q' j hj).trans (Nat.lt_succ_self _)
      · exact Nat.lt_succ_self _
    · simp only [Desk.take, Function.update_of_ne hne] at hj ⊢
      exact h.hand_lt q' j hj
  done_lt q' j hj := by
    have hlt' := h.done_lt q' j hj
    rcases eq_or_ne q' q with rfl | hne
    · simp only [Desk.take, Function.update_self]
      omega
    · simpa [Desk.take, Function.update_apply, hne] using hlt'
  fresh_hand q' j hj := by
    rcases eq_or_ne q' q with rfl | hne
    · simp only [Desk.take, Function.update_self, List.mem_append, List.mem_singleton] at hj ⊢
      rcases hj with hj | rfl
      · exact h.fresh_hand q' j hj
      · exact fun hmem => (h.done_lt q' _ hmem).false
    · simp only [Desk.take, Function.update_of_ne hne] at hj ⊢
      exact h.fresh_hand q' j hj
  taken_le q' := by
    rcases eq_or_ne q' q with rfl | hne
    · simpa [Desk.take, Nat.succ_le_iff] using hlt
    · simpa [Desk.take, Function.update_apply, hne] using h.taken_le q'

theorem Tidy.see (h : s.Tidy) {offers : List Offer} (hpre : s.known q <+: offers) :
    (s.see q offers).Tidy :=
  { h with
    taken_le := fun q' => by
      rcases eq_or_ne q' q with rfl | hne
      · simpa [Desk.see] using (h.taken_le q').trans hpre.length_le
      · simpa [Desk.see, Function.update_apply, hne] using h.taken_le q' }

/-- Giving back a buffer that is in hand keeps the books tidy. -/
theorem Tidy.giveBack {j : ℕ} (h : s.Tidy) (hj : j ∈ s.hand q) (n : ℕ) :
    (s.giveBack q j n).Tidy where
  count q' := by
    have hcount := h.count q'
    rcases eq_or_ne q' q with rfl | hne
    · have hpos := List.length_pos_of_mem hj
      simp only [Desk.giveBack, Desk.storeCell, Function.update_self, List.length_append,
        List.length_cons, List.length_nil, List.length_erase_of_mem hj]
      omega
    · simpa [Desk.giveBack, Desk.storeCell, hne] using hcount
  hand_nodup q' := by
    rcases eq_or_ne q' q with rfl | hne
    · simpa [Desk.giveBack, Desk.storeCell] using (h.hand_nodup q').erase j
    · simpa [Desk.giveBack, Desk.storeCell, hne] using h.hand_nodup q'
  done_nodup q' := by
    rcases eq_or_ne q' q with rfl | hne
    -- What is in hand has not been returned.
    · have hnew := h.fresh_hand q' j hj
      simp only [Desk.giveBack, Function.update_self]
      exact List.nodup_append.mpr ⟨h.done_nodup q', by simp, by
        rintro a ha b hb rfl
        exact hnew (List.mem_singleton.mp hb ▸ ha)⟩
    · simpa [Desk.giveBack, Desk.storeCell, hne] using h.done_nodup q'
  hand_lt q' i hi := by
    rcases eq_or_ne q' q with rfl | hne
    · simp only [Desk.giveBack, Function.update_self] at hi
      exact h.hand_lt q' i (List.mem_of_mem_erase hi)
    · simp only [Desk.giveBack, Function.update_of_ne hne] at hi
      exact h.hand_lt q' i hi
  done_lt q' i hi := by
    rcases eq_or_ne q' q with rfl | hne
    · simp only [Desk.giveBack, Function.update_self, List.mem_append, List.mem_singleton] at hi
      rcases hi with hi | rfl
      · exact h.done_lt q' i hi
      · exact h.hand_lt q' i hj
    · simp only [Desk.giveBack, Function.update_of_ne hne] at hi
      exact h.done_lt q' i hi
  fresh_hand q' i hi := by
    rcases eq_or_ne q' q with rfl | hne
    · simp only [Desk.giveBack, Function.update_self] at hi ⊢
      have hmem := (h.hand_nodup q').mem_erase_iff.mp hi
      simp only [List.mem_append, List.mem_singleton, not_or]
      exact ⟨h.fresh_hand q' i hmem.2, hmem.1⟩
    · simp only [Desk.giveBack, Function.update_of_ne hne] at hi ⊢
      exact h.fresh_hand q' i hi
  taken_le := h.taken_le

end Tidy

end Desk

/-- What the host keeps to, as far as the firmware has seen. -/
structure HostKeeps (s : Desk) : Prop where
  proper : ∀ q, ∀ o ∈ s.known q, o.Proper
  formed : ∀ o ∈ s.known .rvq, WellFormed o.content
  window : ∀ q, (s.known q).length ≤ (s.done q).length + VRING_NUM_BUFFS
  /-- What has not been returned does not overlap. -/
  apart : ∀ q q' j j' o o' a, j ∉ s.done q → j' ∉ s.done q' → (s.known q)[j]? = some o →
    (s.known q')[j']? = some o' → o.Covers a → o'.Covers a → q = q' ∧ j = j'

/-- The settings in which the exchange is looked at. -/
inductive Setting
  /-- A host that only talks to the echo service, and a cache, if there is one, that never comes in
  the way of what is received. -/
  | echo
  /-- A cache that never comes in the way of what is received. -/
  | tended
  /-- A cache of which nothing is known. -/
  | cached
  deriving DecidableEq

/-- What is known of the memory and the host. -/
structure Rules where
  setting : Setting
  /-- A host that only talks to the echo service sends at most so many messages. -/
  limit : ℕ
  /-- Their payloads are at most so long. -/
  size : ℕ
  /-- So many messages are sent before the first answer. -/
  ahead : ℕ

/-- The terms of an exchange. -/
structure Terms extends Rules where
  /-- Waits and loops may be cut off. -/
  halt : Prop
  /-- So many messages have been sent. -/
  made : ℕ
  /-- The message to be sent in the `r`-th buffer returned, given the offers received and the
  buffer. -/
  message : List Offer → ℕ → Offer → Option (List Byte)
  message_mono : ∀ {xs ys : List Offer} {r : ℕ} {o : Offer} {m : List Byte}, xs <+: ys →
    message xs r o = some m → message ys r o = some m

/-- What the messages of a host are that only talks to the echo service. -/
structure EchoHost (t : Rules) (msgs : List Offer) : Prop where
  length_le : msgs.length ≤ t.limit
  dst : ∀ o ∈ msgs, msgDst o.content = Ept.echo.addr
  src : ∀ o ∈ msgs, msgSrc o.content ≠ RPMSG_ADDR_ANY
  size : ∀ o ∈ msgs, msgLen o.content ≤ t.size

/-- What the index of an available ring shows of such a host when it is read. -/
structure EchoSeen (t : Terms) (q : Vq) (known : Vq → List Offer) : Prop where
  messages : EchoHost t.toRules (known .rvq)
  room : q = .svq → ∀ o ∈ known .svq, t.size ≤ o.room

/-- How many offers there are of such a host: all that have been made so far, and on the send
queue a buffer for each of the messages. -/
structure EchoCount (t : Terms) (q : Vq) (messages n : ℕ) : Prop where
  made : q = .rvq → t.made ≤ n
  enough : q = .svq → messages ≤ n - t.ahead

/-- What such a host has seen to when the index of an available ring is read from memory. -/
structure EchoOffers (t : Terms) (q : Vq) (known : Vq → List Offer) : Prop
    extends EchoSeen t q known, EchoCount t q (known .rvq).length (known q).length

/-- The buffer in hand can be returned: its element is complete in memory, and on the send queue
its message is. -/
structure Returnable (t : Terms) (s : Desk) (q : Vq) (j : ℕ) (o : Offer) : Prop where
  inHand : s.InHand q j o
  idx_synced : s.synced (.cell (.usedIdx q))
  id : s.cell (.usedId q (s.slot q)) = o.idx
  len : s.cell (.usedLen q (s.slot q)) = o.len
  id_synced : s.synced (.cell (.usedId q (s.slot q)))
  len_synced : s.synced (.cell (.usedLen q (s.slot q)))
  message : q = .svq → ∃ m, t.message (s.known .rvq) (s.done .svq).length o = some m ∧
    m.length ≤ o.len ∧ ∀ i b, m[i]? = some b →
      s.bytes (o.addr + i) = some b ∧ s.synced (.byte (o.addr + i))
  /-- All of a transmit buffer is in memory. -/
  clean : t.setting ≠ .cached → q = .svq → ∀ a, o.Covers a → s.synced (.byte a)

/-- What the indices show after the line of an address has been invalidated: in that line, all the
offers there are. -/
structure Heard (t : Terms) (s : Desk) (a : ℕ) (heard : Vq → ℕ) : Prop where
  other : ∀ q, lineOf (Cell.availIdx q).addr ≠ lineOf a → heard q = s.heard q
  count : t.setting = .echo → ∀ q, lineOf (Cell.availIdx q).addr = lineOf a →
    EchoCount t q (s.known .rvq).length (heard q)

/-- The account of an exchange. -/
def exchange (t : Terms) : Account Ret Desk where
  halt := t.halt
  ok
    | .store (.usedId q i) _, s => s.hand q ≠ [] ∧ i = s.slot q
    | .store (.usedLen q i) _, s => s.hand q ≠ [] ∧ i = s.slot q
    | .store (.usedIdx q) n, s =>
        n = ((s.done q).length + 1) % 2 ^ 16 ∧ ∃ j o, Returnable t s q j o
    | .store _ _, _ => False
    | .set (.vqAvailableIdx q) n, s => (q = .rvq → t.setting ≠ .cached) ∧
        s.taken q < (s.known q).length ∧ n = (s.taken q + 1) % 2 ^ 16
    | .load8 a, s => s.Holds a
    | .load32 a, s => ∀ i < 4, s.Holds (a + i)
    | .store8 a _, s => s.Composes a
    | .store32 a _, s => s.Marks a ∨ ∀ i < 4, s.Composes (a + i)
    | .ipa a, _ => ¬UsedLine (lineOf a)
    | .iall, _ => False
    | _, _ => True
  step
    | .get v, s, r, s' => r = s.var v ∧ s' = s
    | .set (.vqAvailableIdx q) n, s, _, s' => ∃ o bytes synced,
        (s.known q)[s.taken q]? = some o ∧ (∀ a, ¬o.Covers a → bytes a = s.bytes a) ∧
        (q = .rvq → ∀ i b, o.content[i]? = some b → bytes (o.addr + i) = some b) ∧
        (∀ l, s.synced l → (∀ a, l = .byte a → ¬o.Covers a) → synced l) ∧
        (t.setting ≠ .cached → ∀ a, o.Covers a → synced (.byte a)) ∧
        s' = s.take q n bytes synced
    | .set v n, s, _, s' => s' = s.set v n
    | .load (.availIdx q), s, r, s' => ∃ offers, s.known q <+: offers ∧
        s.heard q ≤ offers.length ∧ r = offers.length % 2 ^ 16 ∧ s' = s.see q offers ∧
        HostKeeps s' ∧ (t.setting = .echo → EchoSeen t q s'.known)
    | .load .vdevStatus, s, r, s' =>
        s' = s ∧ (t.setting = .echo → r &&& VIRTIO_CONFIG_STATUS_DRIVER_OK ≠ 0)
    | .load (.usedIdx q), s, r, s' => s' = s ∧ r = s.cell (.usedIdx q)
    | .load c, s, r, s' => s' = s ∧ s.Told c r
    | .store (.usedIdx q) n, s, _, s' => ∀ j o, Returnable t s q j o → s' = s.giveBack q j n
    | .store c n, s, _, s' => s' = s.storeCell c n
    | .load8 a, s, r, s' => s' = s ∧ ∀ b, s.Reads a b → r = b
    | .load32 a, s, r, s' => s' = s ∧ ∀ w : Quad, s.Reads a w.b0 → s.Reads (a + 1) w.b1 →
        s.Reads (a + 2) w.b2 → s.Reads (a + 3) w.b3 → r = w
    | .store8 a b, s, _, s' => s' = s.storeByte a b
    | .store32 a w, s, _, s' => s' = s.storeWord a w
    | .cpa a, s, _, s' => s' = s.writeBack a
    | .ipa a, s, _, s' => ∃ heard, Heard t s a heard ∧ s' = s.invalidate a heard
    | _, s, _, s' => s' = s

end C906Firmware
