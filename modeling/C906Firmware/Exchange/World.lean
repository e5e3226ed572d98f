import C906Firmware.Exchange.Desk
import C906Firmware.Cache.Tagged

/-!
# The firmware's memory and its host

Shared memory behind the data cache of the firmware, and a host that works on the memory
directly. The host offers buffers on the two queues, fills them and writes the ring fields that
are its own, and gets buffers back as the used rings say; a buffer it has offered and not got
back is **lent**. The cache brings lines in, writes them back and drops them at any time.

Between any two accesses of the firmware the environment makes any number of moves. What a move
has to keep to is `Fair`: that is the host's side of the protocol. What is known of the cache is
`Granted` at each access: in some settings it is **tended**, so that it never comes in the way of
what is received.
-/

namespace C906Firmware

open Interaction WriteBack

/-- The cache line of a location. -/
def Loc.line (l : Loc) : ℕ := lineOf l.addr

namespace Offer

variable {o o' : Offer} {a x : ℕ}

/-- The buffer is made of whole cache lines. -/
def Whole (o : Offer) : Prop := o.addr % L1_CACHE_BYTES = 0 ∧ o.len % L1_CACHE_BYTES = 0

instance (o : Offer) : Decidable o.Whole := inferInstanceAs (Decidable (_ ∧ _))

/-- A buffer of whole lines has all bytes of a line or none. -/
theorem Whole.covers (h : o.Whole) (ha : o.Covers a) (hx : lineOf x = lineOf a) : o.Covers x := by
  obtain ⟨haddr, hlen⟩ := h
  obtain ⟨hlo, hhi⟩ := ha
  rw [L1_CACHE_BYTES] at haddr hlen
  rw [lineOf, lineOf, L1_CACHE_BYTES] at hx
  exact ⟨by omega, by omega⟩

/-- The buffers do not overlap. -/
def Clear (o o' : Offer) : Prop := o.addr + o.len ≤ o'.addr ∨ o'.addr + o'.len ≤ o.addr

instance (o o' : Offer) : Decidable (o.Clear o') := inferInstanceAs (Decidable (_ ∨ _))

/-- Buffers that are clear of each other share no byte. -/
theorem Clear.not_covers (h : o.Clear o') (ha : o'.Covers a) : ¬o.Covers a := by
  rintro ⟨hlo, hhi⟩
  obtain ⟨hlo', hhi'⟩ := ha
  rcases h with h | h <;> omega

end Offer

/-- Shared memory, with private memory beside it and the host's bookkeeping. -/
structure World where
  var : Var → ℕ
  mem : Tagged Loc ℕ ℕ
  /-- The buffers offered so far. -/
  offers : Vq → List Offer
  /-- The numbers of the offers that have not come back. -/
  lent : Vq → List ℕ
  /-- How many have come back. -/
  seen : Vq → ℕ

namespace World

/-- What the firmware sees at a location. -/
def view (w : World) (l : Loc) : ℕ := w.mem.view Loc.line l

/-- What the memory, and with it the host, has at a location. -/
def ram (w : World) (l : Loc) : ℕ := w.mem.ram l

/-- The byte the firmware sees at an address. -/
def viewByte (w : World) (a : ℕ) : Byte := BitVec.ofNat 8 (w.view (.byte a))

/-- The byte the memory has at an address. -/
def ramByte (w : World) (a : ℕ) : Byte := BitVec.ofNat 8 (w.ram (.byte a))

/-- The bytes the memory has from an address on. -/
def ramBytes (w : World) (addr len : ℕ) : List Byte :=
  (List.range len).map fun i => w.ramByte (addr + i)

/-- How many buffers the host finds returned, by the index of the used ring in memory, and has
not got back yet. -/
def returned (w : World) (q : Vq) : ℕ :=
  (w.ram (.cell (.usedIdx q)) + 2 ^ 16 - w.seen q % 2 ^ 16) % 2 ^ 16

/-- The offer with the number `j` is lent. -/
def Lent (w : World) (q : Vq) (j : ℕ) (o : Offer) : Prop :=
  j ∈ w.lent q ∧ (w.offers q)[j]? = some o

/-! ### Moves of the environment -/

/-- A move of the cache or the host. -/
inductive Move
  /-- The cache brings a line in. -/
  | fill (l : ℕ)
  /-- The cache drops a line, and writes it back if it is dirty. -/
  | evict (l : ℕ)
  /-- The host writes a byte. -/
  | write (a : ℕ) (b : Byte)
  /-- The host writes a ring field. -/
  | setField (c : Cell) (n : ℕ)
  /-- The host advances the index of an available ring over a buffer. -/
  | offer (q : Vq) (idx addr len : ℕ)
  /-- The host takes the next buffer from a used ring. -/
  | collect (q : Vq)

/-- The offer the host makes of a buffer. -/
def offerOf (w : World) (idx addr len : ℕ) : Offer := ⟨idx, addr, len, w.ramBytes addr len⟩

/-- The state after a move. -/
def move (w : World) : Move → World
  | .fill l => { w with mem := w.mem.fill Loc.line l }
  | .evict l => { w with mem := w.mem.evict Loc.line l }
  | .write a b => { w with mem := w.mem.poke (.byte a) b.toNat }
  | .setField c n => { w with mem := w.mem.poke (.cell c) n }
  | .offer q idx addr len =>
    { w with
      mem := w.mem.poke (.cell (.availIdx q)) (((w.offers q).length + 1) % 2 ^ 16)
      offers := Function.update w.offers q (w.offers q ++ [w.offerOf idx addr len])
      lent := Function.update w.lent q (w.lent q ++ [(w.offers q).length]) }
  | .collect q =>
    let idx := w.ram (.cell (.usedId q (w.seen q % VRING_NUM_BUFFS)))
    { w with
      lent := Function.update w.lent q
        ((w.lent q).filter fun j => ((w.offers q)[j]?).map Offer.idx ≠ some idx)
      seen := Function.update w.seen q (w.seen q + 1) }

/-- The host writes this ring field, and not the firmware; the index of the available ring is
written by offers only. -/
def HostField : Cell → Prop
  | .usedFlags _ | .usedIdx _ | .usedId _ _ | .usedLen _ _ | .availIdx _ => False
  | _ => True

/-- There is a cache that never comes in the way of what is received. -/
def Tends (r : Rules) (w : World) : Prop :=
  r.setting = .tended ∨ r.setting = .echo ∧ w.mem.cached = true

instance (r : Rules) (w : World) : Decidable (w.Tends r) := inferInstanceAs (Decidable (_ ∨ _))

theorem tends_of_cached {r : Rules} {w : World} (hset : r.setting ≠ .cached)
    (hcached : w.mem.cached = true) : w.Tends r := by
  rcases hcase : r.setting with _ | _ | _
  · exact .inr ⟨hcase, hcached⟩
  · exact .inl hcase
  · exact absurd hcase hset

theorem Tends.congr {r : Rules} {w w' : World} (h : w'.Tends r)
    (hcached : w'.mem.cached = w.mem.cached) : w.Tends r :=
  h.imp_right fun hecho => ⟨hecho.1, hcached.symm.trans hecho.2⟩

/-- The host can make the offer: there is a free descriptor, and the buffer, which overlaps
nothing that is lent, and the ring fields are as they have to be. The last three rules hold in some
settings: `message` and `room` for a host that only talks to the echo service, `whole` for a
cache that is tended. -/
structure Offerable (r : Rules) (w : World) (q : Vq) (o : Offer) : Prop where
  proper : o.Proper
  free : (w.offers q).length < w.seen q + VRING_NUM_BUFFS
  unused : ∀ j o', w.Lent q j o' → o'.idx ≠ o.idx
  apart : ∀ q' j o', w.Lent q' j o' → o.Clear o'
  fields : ∀ c v, o.Field q (w.offers q).length c v → w.ram (.cell c) = v
  formed : q = .rvq → WellFormed o.content
  /-- A host that only talks to the echo service has offered a transmit buffer for each message
  it sends. -/
  message : r.setting = .echo → q = .rvq →
    (w.offers .rvq).length + r.ahead < (w.offers .svq).length ∧
      EchoHost r (w.offers .rvq ++ [o])
  /-- Its transmit buffers have room for the answers. -/
  room : r.setting = .echo → q = .svq → r.size ≤ o.room
  /-- Where the cache is tended, no line is shared between buffers. -/
  whole : w.Tends r → o.Whole

/-- What a move keeps to. -/
def Fair (r : Rules) (w : World) : Move → Prop
  | .fill _ | .evict _ => True
  | .write a _ => ∀ q j o, w.Lent q j o → ¬o.Covers a
  | .setField c n => HostField c ∧
      (∀ q j o, w.Lent q j o → (w.offers q).length ≤ j + VRING_NUM_BUFFS →
        ∀ v, ¬o.Field q j c v) ∧
      (r.setting = .echo → c = .vdevStatus → n &&& VIRTIO_CONFIG_STATUS_DRIVER_OK ≠ 0)
  | .offer q idx addr len => w.Offerable r q (w.offerOf idx addr len)
  | .collect q => w.returned q ≠ 0

/-- The state after some moves. -/
def moves (w : World) : List Move → World
  | [] => w
  | m :: ms => (w.move m).moves ms

/-- What a sequence of moves keeps to. -/
def AllFair (r : Rules) (w : World) : List Move → Prop
  | [] => True
  | m :: ms => w.Fair r m ∧ (w.move m).AllFair r ms

/-! ### Accesses of the firmware -/

/-- The firmware writes a byte. -/
def storeByte (w : World) (a : ℕ) (b : Byte) : World :=
  { w with mem := w.mem.store Loc.line (.byte a) b.toNat }

/-- The firmware writes a ring field. -/
def storeCell (w : World) (c : Cell) (n : ℕ) : World :=
  { w with mem := w.mem.store Loc.line (.cell c) n }

/-- What an access does. -/
def perform (o : Op) (x : Answer) (w : World) : Ret o × World :=
  match o with
  | .get v => (w.var v, w)
  | .set v n => ((), { w with var := Function.update w.var v n })
  | .load c => (w.view (.cell c), w)
  | .store c n => ((), w.storeCell c n)
  | .load8 a => (w.viewByte a, w)
  | .store8 a b => ((), w.storeByte a b)
  | .load32 a =>
    (⟨w.viewByte a, w.viewByte (a + 1), w.viewByte (a + 2), w.viewByte (a + 3)⟩, w)
  | .store32 a q =>
    ((), (((w.storeByte a q.b0).storeByte (a + 1) q.b1).storeByte (a + 2) q.b2).storeByte (a + 3)
      q.b3)
  | .cpa a => ((), { w with mem := w.mem.clean Loc.line (lineOf a) })
  | .ipa a => ((), { w with mem := w.mem.drop (lineOf a) })
  | .iall => ((), { w with mem := { w.mem with toCached := w.mem.dropAll } })
  | o => (x.at o, w)

/-- What the environment decides at an access: its moves before it, and the answer where the
state does not determine it. -/
structure Decision where
  moves : List Move := []
  answer : Answer := {}

/-- What happens at an access. -/
def exec (o : Op) (x : Decision) (w : World) : Ret o × World :=
  perform o x.answer (w.moves x.moves)

/-- What a cache that is tended has seen to before an access. When a receive buffer is taken, by
advancing the index of the offers taken, the firmware sees what the memory has there; and when it
is returned, by advancing the index of the used ring, none of its lines is dirty. -/
def Tended (w : World) : Op → Prop
  | .set (.vqAvailableIdx .rvq) _ => ∀ j o a, w.Lent .rvq j o →
      j % 2 ^ 16 = w.var (.vqAvailableIdx .rvq) → o.Covers a → w.view (.byte a) = w.ram (.byte a)
  | .store (.usedIdx .rvq) _ => ∀ j o a, w.Lent .rvq j o →
      o.idx = w.view (.cell (.usedId .rvq (w.view (.cell (.usedIdx .rvq)) % VRING_NUM_BUFFS))) →
      o.Covers a → ¬w.mem.Stored (lineOf a)
  | _ => True

/-- What is granted at an access. -/
def Granted (r : Rules) (o : Op) (x : Decision) (w : World) : Prop :=
  w.AllFair r x.moves ∧ ((w.moves x.moves).Tends r → (w.moves x.moves).Tended o)

/-- The property holds now, and whatever the environment does next. -/
def Always (r : Rules) (P : World → Prop) (w : World) : Prop :=
  ∀ ms, w.AllFair r ms → P (w.moves ms)

/-- The firmware with its host: `P` is required throughout, and `ok` whenever an access is
made. -/
def contract (r : Rules) (P : World → Prop) (ok : Op → World → Prop) :
    Contract Ret World Decision where
  exec := exec
  inv := Always r P
  ok o := Always r (ok o)
  cond := Granted r

/-! ### Moves in a row -/

section Moves

variable {r : Rules} {w : World} {ms ms' : List Move}

/-- Fair moves after fair moves are fair. -/
theorem AllFair.append (h : w.AllFair r ms) (h' : (w.moves ms).AllFair r ms') :
    w.AllFair r (ms ++ ms') := by
  induction ms generalizing w with
  | nil => exact h'
  | cons m ms ih => exact ⟨h.1, ih h.2 h'⟩

/-- What comes first among fair moves is fair. -/
theorem AllFair.front (h : w.AllFair r ms') (hpre : ms <+: ms') : w.AllFair r ms := by
  obtain ⟨rest, rfl⟩ := hpre
  induction ms generalizing w with
  | nil => trivial
  | cons m ms ih => exact ⟨h.1, ih h.2⟩

variable {P : World → Prop} {ok : Op → World → Prop} {halt : Prop} {α : Type}
  {Q : α → World → Prop}

end Moves

/-! ### Moves can be checked -/

section Decidable

instance : DecidablePred HostField
  | .usedFlags _ | .usedIdx _ | .usedId _ _ | .usedLen _ _ | .availIdx _ => .isFalse id
  | .descAddr _ _ | .descLen _ _ | .availFlags _ | .availRing _ _ | .vringNotifyid _
  | .vdevStatus | .vdevDfeatures | .vdevGfeatures | .vdevNotifyid => .isTrue trivial

instance {P : Vq → Prop} [DecidablePred P] : Decidable (∀ q, P q) :=
  decidable_of_iff (P .svq ∧ P .rvq)
    ⟨fun h q => by cases q; exacts [h.1, h.2], fun h => ⟨h .svq, h .rvq⟩⟩

instance (w : World) (q : Vq) {P : ℕ → Offer → Prop} [∀ j o, Decidable (P j o)] :
    Decidable (∀ j o, w.Lent q j o → P j o) :=
  decidable_of_iff (∀ j ∈ w.lent q, ∀ o ∈ (w.offers q)[j]?, P j o)
    ⟨fun h j o ho => h j ho.1 o ho.2, fun h j hj o ho => h j o ⟨hj, ho⟩⟩

instance (o : Offer) (q : Vq) (j : ℕ) (c : Cell) : Decidable (∀ v, ¬o.Field q j c v) :=
  decidable_of_iff (c ≠ .availRing q (j % VRING_NUM_BUFFS) ∧ c ≠ .descAddr q o.idx ∧
    c ≠ .descLen q o.idx) <| by
    constructor
    · rintro ⟨hring, haddr, hlen⟩ v (⟨h, -⟩ | ⟨h, -⟩ | ⟨h, -⟩)
      exacts [hring h, haddr h, hlen h]
    · intro h
      exact ⟨fun heq => h _ (.inl ⟨heq, rfl⟩), fun heq => h _ (.inr (.inl ⟨heq, rfl⟩)),
        fun heq => h _ (.inr (.inr ⟨heq, rfl⟩))⟩

instance (o : Offer) (q : Vq) (j : ℕ) (w : World) :
    Decidable (∀ c v, o.Field q j c v → w.ram (.cell c) = v) :=
  decidable_of_iff (w.ram (.cell (.availRing q (j % VRING_NUM_BUFFS))) = o.idx ∧
    w.ram (.cell (.descAddr q o.idx)) = o.addr ∧ w.ram (.cell (.descLen q o.idx)) = o.len) <| by
    constructor
    · rintro ⟨hring, haddr, hlen⟩ c v (⟨rfl, rfl⟩ | ⟨rfl, rfl⟩ | ⟨rfl, rfl⟩)
      exacts [hring, haddr, hlen]
    · intro h
      exact ⟨h _ _ (.inl ⟨rfl, rfl⟩), h _ _ (.inr (.inl ⟨rfl, rfl⟩)),
        h _ _ (.inr (.inr ⟨rfl, rfl⟩))⟩

instance (o : Offer) : Decidable o.Proper :=
  decidable_of_iff (o.idx < VRING_NUM_BUFFS ∧ SHMEM_PA ≤ o.addr ∧
    o.addr + o.len ≤ SHMEM_PA + SHMEM_SIZE ∧ RPMSG_HDR_SIZE < o.len ∧ o.content.length = o.len)
    ⟨fun ⟨h₁, h₂, h₃, h₄, h₅⟩ => ⟨h₁, h₂, h₃, h₄, h₅⟩, fun ⟨h₁, h₂, h₃, h₄, h₅⟩ =>
      ⟨h₁, h₂, h₃, h₄, h₅⟩⟩

instance (r : Rules) (msgs : List Offer) : Decidable (EchoHost r msgs) :=
  decidable_of_iff (msgs.length ≤ r.limit ∧ (∀ o ∈ msgs, msgDst o.content = Ept.echo.addr) ∧
    (∀ o ∈ msgs, msgSrc o.content ≠ RPMSG_ADDR_ANY) ∧ ∀ o ∈ msgs, msgLen o.content ≤ r.size)
    ⟨fun ⟨h₁, h₂, h₃, h₄⟩ => ⟨h₁, h₂, h₃, h₄⟩, fun ⟨h₁, h₂, h₃, h₄⟩ => ⟨h₁, h₂, h₃, h₄⟩⟩

instance (r : Rules) (w : World) (q : Vq) (o : Offer) : Decidable (Offerable r w q o) :=
  decidable_of_iff (o.Proper ∧ (w.offers q).length < w.seen q + VRING_NUM_BUFFS ∧
    (∀ j o', w.Lent q j o' → o'.idx ≠ o.idx) ∧ (∀ q' j o', w.Lent q' j o' → o.Clear o') ∧
    (∀ c v, o.Field q (w.offers q).length c v → w.ram (.cell c) = v) ∧
    (q = .rvq → WellFormed o.content) ∧
    (r.setting = .echo → q = .rvq → (w.offers .rvq).length + r.ahead < (w.offers .svq).length ∧
      EchoHost r (w.offers .rvq ++ [o])) ∧
    (r.setting = .echo → q = .svq → r.size ≤ o.room) ∧ (w.Tends r → o.Whole))
    ⟨fun ⟨h₁, h₂, h₃, h₄, h₅, h₆, h₇, h₈, h₉⟩ => ⟨h₁, h₂, h₃, h₄, h₅, h₆, h₇, h₈, h₉⟩,
      fun ⟨h₁, h₂, h₃, h₄, h₅, h₆, h₇, h₈, h₉⟩ => ⟨h₁, h₂, h₃, h₄, h₅, h₆, h₇, h₈, h₉⟩⟩

instance (r : Rules) (w : World) : DecidablePred (w.Fair r)
  | .fill _ | .evict _ => .isTrue trivial
  | .write a _ => inferInstanceAs (Decidable (∀ q j o, w.Lent q j o → ¬o.Covers a))
  | .setField _ _ => inferInstanceAs (Decidable (_ ∧ _ ∧ _))
  | .offer q idx addr len => inferInstanceAs (Decidable (w.Offerable r q (w.offerOf idx addr len)))
  | .collect q => inferInstanceAs (Decidable (w.returned q ≠ 0))

instance decidableAllFair (r : Rules) (w : World) : (ms : List Move) → Decidable (w.AllFair r ms)
  | [] => .isTrue trivial
  | m :: ms => @instDecidableAnd _ _ _ (decidableAllFair r (w.move m) ms)

instance decidableCovers (o : Offer) {P : ℕ → Prop} [DecidablePred P] :
    Decidable (∀ a, o.Covers a → P a) :=
  decidable_of_iff (∀ i < o.len, P (o.addr + i)) <| by
    constructor
    · rintro h a ⟨hlo, hhi⟩
      have hi := h (a - o.addr) (by omega)
      rwa [Nat.add_sub_cancel' hlo] at hi
    · intro h i hi
      exact h _ ⟨Nat.le_add_right _ _, by omega⟩

instance (w : World) (q : Vq) {P : ℕ → Offer → Prop} {R : ℕ → Prop} [∀ j o, Decidable (P j o)]
    [DecidablePred R] : Decidable (∀ j o a, w.Lent q j o → P j o → o.Covers a → R a) :=
  decidable_of_iff (∀ j o, w.Lent q j o → P j o → ∀ a, o.Covers a → R a)
    ⟨fun h j o a ho hp => h j o ho hp a, fun h j o ho hp a => h j o a ho hp⟩

instance (w : World) (o : Op) : Decidable (w.Tended o) := by
  unfold Tended
  split <;> infer_instance

instance (r : Rules) (o : Op) (x : Decision) (w : World) : Decidable (Granted r o x w) :=
  inferInstanceAs (Decidable (_ ∧ (_ → _)))

end Decidable

/-! ### The beginning -/

/-- Both queues are set up and empty, and the cache is. -/
structure Start (w : World) : Prop where
  offers : ∀ q, w.offers q = []
  lent : ∀ q, w.lent q = []
  seen : ∀ q, w.seen q = 0
  held : ∀ l, w.mem.held l = false
  usedIdx : ∀ q, w.ram (.cell (.usedIdx q)) = 0
  availIdx : ∀ q, w.ram (.cell (.availIdx q)) = 0
  lock : w.var .lockCount = 1
  inuse : ∀ q, w.var (.vqInuse q) = 0
  availableIdx : ∀ q, w.var (.vqAvailableIdx q) = 0

/-- A beginning: memory is zero, but for the status of the device, and the echo endpoint is bound
to the address 7. -/
def blank (cached : Bool) : World where
  var
    | .lockCount => 1
    | .eptRdev .echo => 1
    | .eptDest .echo => 7
    | _ => 0
  mem :=
    { ram := fun l => if l = .cell .vdevStatus then VIRTIO_CONFIG_STATUS_DRIVER_OK else 0
      held := fun _ => false
      data := fun _ => 0
      dirty := fun _ => false
      cached := cached }
  offers _ := []
  lent _ := []
  seen _ := 0

theorem start_blank (cached : Bool) : Start (blank cached) where
  offers _ := rfl
  lent _ := rfl
  seen _ := rfl
  held _ := rfl
  usedIdx _ := rfl
  availIdx _ := rfl
  lock := rfl
  inuse _ := rfl
  availableIdx _ := rfl

/-- The host offers a buffer, as the offer with the number `j`. -/
def offerBuffer (q : Vq) (j idx addr len : ℕ) : List Move :=
  [.setField (.availRing q j) idx, .setField (.descAddr q idx) addr, .setField (.descLen q idx) len,
    .offer q idx addr len]

/-- The host writes a message to the echo endpoint, with one byte of payload. -/
def writeMessage (addr : ℕ) (src b : Byte) : List Move :=
  [.write addr src, .write (addr + 5) 0x04, .write (addr + 12) 1, .write (addr + 16) b]

/-- The host offers a transmit buffer, and then a message in the line behind it; these are the
offers with the number `j`. -/
def request (j : ℕ) (b : Byte) : List Move :=
  offerBuffer .svq j 1 SHMEM_PA 64 ++ writeMessage (SHMEM_PA + 64) 0x35 b ++
    offerBuffer .rvq j 2 (SHMEM_PA + 64) 64

end World

end C906Firmware
