import C906Firmware.Interaction.Preempt
import C906Firmware.Model.Mailbox

/-!
# The receive channel of the message box

The receive FIFO under the driver, with a record of what became of each word. The peer's
words are numbered in the order they are pushed: `pushed` lists them, the first `popped` of
them have left the FIFO, the others are in it. `calls` records the calls of `rx_cb` with the
number of the word that was read for each (`none` if the FIFO was empty when it was read).

Two contexts run `msgbox_poll`, the task and the interrupt handler; `held` is the word each
has read with the intent to pass it on and has not passed yet.

The assertions `At` are those of one run of `msgbox_poll` (`Point`), and `outline_poll` is its
proof outline. It serves the task alone, the task preempted by the handler, and the handler.
-/

namespace C906Firmware

open Interaction

/-- A word with the number under which it was pushed, or no number if it was read from an
empty FIFO. -/
structure Sample where
  serial : Option ℕ
  word : Word
  deriving DecidableEq, Repr

/-- The receive channel and the driver's private variables. -/
structure RxChannel where
  pushed : List Word
  popped : ℕ
  calls : List Sample
  /-- What the task (`false`) and the handler (`true`) have read and not passed on. -/
  held : Bool → Option Sample
  inIsr : Bool
  vars : Var → ℕ

namespace RxChannel

variable (k : RxChannel)

/-- The words that are in the FIFO. -/
def fifo : List Word := k.pushed.drop k.popped

/-- The FIFO is not empty; this is what the pending bit shows. -/
def nonempty : Bool := k.popped < k.pushed.length

/-- Take the head off the FIFO register: `x` is the value an empty FIFO reads as. -/
def pop (x : Word) : Sample × RxChannel :=
  match k.pushed[k.popped]? with
  | some w => (⟨some k.popped, w⟩, { k with popped := k.popped + 1 })
  | none => (⟨none, x⟩, k)

/-- What each access does to the channel. -/
def exec : (o : Op) → Answer → RxChannel → Ret o × RxChannel
  | .readl .rxIrqStatus, x, k =>
    (withField x.word RD_IRQ_PEND_MASK (if k.nonempty then 1 else 0), k)
  | .readFifo .quirk, x, k => ((k.pop x.word).1.word, (k.pop x.word).2)
  | .readFifo .data, x, k =>
    ((k.pop x.word).1.word,
      { (k.pop x.word).2 with held := Function.update k.held k.inIsr (some (k.pop x.word).1) })
  | .rxCb d, _, k =>
    ((), { k with
      calls := k.calls ++ [⟨(k.held k.inIsr).bind Sample.serial, d⟩]
      held := Function.update k.held k.inIsr none })
  | .get v, _, k => (k.vars v, k)
  | .set v n, _, k => ((), { k with vars := Function.update k.vars v n })
  | o, x, k => (x.at o, k)

/-- The peer appends a word. -/
def push (w : Word) (k : RxChannel) : RxChannel := { k with pushed := k.pushed ++ [w] }

/-- The words passed to `rx_cb`, in the order of the calls. -/
def delivered : List Word := k.calls.map Sample.word

/-- How many non-zero words have been passed to `rx_cb`. -/
def nonzeroCalls : ℕ := k.delivered.countP (· ≠ 0)

/-- The sample is a word that the peer pushed and that has been popped. -/
def Genuine (s : Sample) : Prop :=
  ∃ n < k.popped, s.serial = some n ∧ k.pushed[n]? = some s.word

/-- `rx_cb` has been called only with words popped from the FIFO, at most once for each, and
in the order they were pushed. -/
structure InArrivalOrder : Prop where
  genuine : ∀ s ∈ k.calls, k.Genuine s
  ordered : (k.calls.filterMap Sample.serial).Pairwise (· < ·)

/-- The state after reset: nothing pushed, a callback installed, all counters zero. -/
def init : RxChannel where
  pushed := []
  popped := 0
  calls := []
  held := fun _ => none
  inIsr := false
  vars := fun v => if v = .rxCb then 1 else 0

/-! ### Accesses that do not concern the channel -/

/-- The access leaves the FIFO, the record of calls, the callback pointer and `rx_count`
alone. -/
def Foreign : Op → Prop
  | .readFifo _ => False
  | .rxCb _ => False
  | .set v _ => v ≠ .rxCb ∧ v ≠ .rxCount
  | _ => True

/-! ### Assertions -/

/-- The calls made so far are accounted for by the first `n` words pushed; if `strict`, all
of these have been passed on. -/
structure Ledger (pushed : List Word) (calls : List Sample) (strict : Bool) (n : ℕ) : Prop where
  le : n ≤ pushed.length
  genuine : ∀ s ∈ calls, ∃ m < n, s.serial = some m ∧ pushed[m]? = some s.word
  ordered : (calls.filterMap Sample.serial).Pairwise (· < ·)
  complete : strict = true → calls.map Sample.word = pushed.take n

/-- No context holds a word, and `rx_count` is the number of non-zero words delivered. -/
structure Quiet (c strict : Bool) : Prop where
  context : k.inIsr = c
  held : k.held = fun _ => none
  ledger : Ledger k.pushed k.calls strict k.popped
  callback : k.vars .rxCb ≠ 0
  count : k.vars .rxCount = k.nonzeroCalls % 2 ^ 32

/-- The context `c` holds word number `n`, which is `d`, and `rx_count` is `v`. -/
structure Holding (c strict : Bool) (n : ℕ) (d : Word) (v : ℕ) (counted : Bool) : Prop where
  context : k.inIsr = c
  held : k.held = Function.update (fun _ => none) c (some ⟨some n, d⟩)
  popped : k.popped = n + 1
  word : k.pushed[n]? = some d
  ledger : Ledger k.pushed k.calls strict n
  callback : k.vars .rxCb ≠ 0
  count : k.vars .rxCount = v
  value : v = (k.nonzeroCalls + if counted then 1 else 0) % 2 ^ 32

/-- A point of a run of `msgbox_poll`. -/
inductive Point
  /-- No word is held. -/
  | quiet
  /-- The pending bit has been read as 1. -/
  | pending
  /-- Word number `n`, which is `d`, is held and `rx_count` is `v`; `counted` says whether
  the word is in it. -/
  | holding (n : ℕ) (d : Word) (v : ℕ) (counted : Bool)

/-- The assertions of a run of `msgbox_poll` in the context `c`. If `strict`, no word has been
lost. If `preempted`, the word seen pending may be gone when it is read. -/
def At (c strict preempted : Bool) : Point → RxChannel → Prop
  | .quiet, k => k.Quiet c strict
  | .pending, k => k.Quiet c strict ∧ (preempted = false → k.nonempty = true)
  | .holding n d v counted, k => k.Holding c strict n d v counted

variable {k} {c strict preempted : Bool} {p : Point}

theorem Ledger.push {pushed : List Word} {calls : List Sample} {n : ℕ}
    (h : Ledger pushed calls strict n) (w : Word) : Ledger (pushed ++ [w]) calls strict n where
  le := by
    have := h.le
    simp only [List.length_append]
    omega
  genuine := by
    intro s hs
    obtain ⟨m, hm, hser, hw⟩ := h.genuine s hs
    have hlt : m < pushed.length := lt_of_lt_of_le hm h.le
    exact ⟨m, hm, hser, (List.getElem?_append_left hlt).trans hw⟩
  ordered := h.ordered
  complete := fun hst => (h.complete hst).trans (List.take_append_of_le_length h.le).symm

/-- If words may be lost, a word can be skipped without a call. -/
theorem Ledger.skip {pushed : List Word} {calls : List Sample} {n : ℕ}
    (h : Ledger pushed calls false n) (hn : n < pushed.length) :
    Ledger pushed calls false (n + 1) where
  le := hn
  genuine := by
    intro s hs
    obtain ⟨m, hm, hser, hw⟩ := h.genuine s hs
    exact ⟨m, by omega, hser, hw⟩
  ordered := h.ordered
  complete := by simp

/-- The next word is passed on. -/
theorem Ledger.deliver {pushed : List Word} {calls : List Sample} {n : ℕ} {d : Word}
    (h : Ledger pushed calls strict n) (hd : pushed[n]? = some d) :
    Ledger pushed (calls ++ [⟨some n, d⟩]) strict (n + 1) where
  le := (List.getElem?_eq_some_iff.mp hd).1
  genuine := by
    intro s hs
    rcases List.mem_append.mp hs with hs | hs
    · obtain ⟨m, hm, hsm⟩ := h.genuine s hs
      exact ⟨m, by omega, hsm⟩
    · rw [List.mem_singleton] at hs
      subst hs
      exact ⟨n, by omega, rfl, hd⟩
  ordered := by
    simp only [List.filterMap_append, List.filterMap_cons, List.filterMap_nil]
    refine List.pairwise_append.mpr ⟨h.ordered, by simp, ?_⟩
    intro a ha b hb
    obtain ⟨s, hs, hsa⟩ := List.mem_filterMap.mp ha
    obtain ⟨m, hm, hsm, -⟩ := h.genuine s hs
    rw [List.mem_singleton] at hb
    have : a = m := Option.some.inj (hsa.symm.trans hsm)
    omega
  complete := by
    intro hst
    simp only [List.map_append, List.map_cons, List.map_nil, h.complete hst,
      List.take_add_one, hd, Option.toList_some]

/-- The peer's pushes keep every assertion. -/
theorem At.push (h : At c strict preempted p k) (w : Word) :
    At c strict preempted p (push w k) := by
  cases p with
  | quiet => exact ⟨h.context, h.held, h.ledger.push w, h.callback, h.count⟩
  | pending =>
    obtain ⟨hq, hne⟩ := h
    refine ⟨⟨hq.context, hq.held, hq.ledger.push w, hq.callback, hq.count⟩, fun hp => ?_⟩
    have := hne hp
    simp only [nonempty, decide_eq_true_eq, RxChannel.push, List.length_append] at this ⊢
    omega
  | holding n d v counted =>
    refine ⟨h.context, h.held, h.popped, ?_, h.ledger.push w, h.callback, h.count, h.value⟩
    have hn : n < k.pushed.length := (List.getElem?_eq_some_iff.mp h.word).1
    exact (List.getElem?_append_left hn).trans h.word

/-- Accesses that do not concern the channel keep every assertion. -/
theorem At.foreign {o : Op} (ho : Foreign o) (x : Answer) (h : At c strict preempted p k) :
    At c strict preempted p (exec o x k).2 := by
  suffices hvars : ∀ vars : Var → ℕ, vars .rxCb = k.vars .rxCb → vars .rxCount = k.vars .rxCount →
      At c strict preempted p { k with vars := vars } by
    cases o with
    | readl r => cases r <;> exact h
    | readFifo u => exact ho.elim
    | rxCb d => exact ho.elim
    | set v n =>
      exact hvars _ (Function.update_of_ne (Ne.symm ho.1) _ _)
        (Function.update_of_ne (Ne.symm ho.2) _ _)
    | _ => exact h
  intro vars hcb hcount
  have hcb' : ∀ {n : ℕ}, k.vars .rxCb ≠ n → vars .rxCb ≠ n := fun hn => hcb.symm ▸ hn
  cases p with
  | quiet => exact ⟨h.context, h.held, h.ledger, hcb' h.callback, hcount.trans h.count⟩
  | pending =>
    exact ⟨⟨h.1.context, h.1.held, h.1.ledger, hcb' h.1.callback, hcount.trans h.1.count⟩, h.2⟩
  | holding n d v counted =>
    exact ⟨h.context, h.held, h.popped, h.word, h.ledger, hcb' h.callback,
      hcount.trans h.count, h.value⟩

/-- The read whose value is discarded takes nothing, or a word that need not be kept. -/
theorem Quiet.quirk (h : k.Quiet c strict) (x : Answer)
    (hempty : strict = true → k.nonempty = false) :
    (exec (.readFifo .quirk) x k).2.Quiet c strict := by
  by_cases hne : k.popped < k.pushed.length
  · have hs : strict = false := by
      cases strict with
      | false => rfl
      | true => simp [nonempty, hne] at hempty
    subst hs
    simp only [exec, pop, List.getElem?_eq_getElem hne]
    exact ⟨h.context, h.held, h.ledger.skip hne, h.callback, h.count⟩
  · simp only [exec, pop, List.getElem?_eq_none (Nat.le_of_not_lt hne)]
    exact h

/-- The read whose value is kept, from a FIFO that is not empty. -/
theorem Quiet.read (h : k.Quiet c strict) (x : Answer) (hne : k.nonempty = true) :
    (exec (.readFifo .data) x k).2.Holding c strict k.popped (exec (.readFifo .data) x k).1
      (k.vars .rxCount) false := by
  have hlt : k.popped < k.pushed.length := by simpa [nonempty] using hne
  simp only [exec, pop, List.getElem?_eq_getElem hlt]
  refine ⟨h.context, ?_, rfl, List.getElem?_eq_getElem hlt, h.ledger, h.callback, rfl, h.count⟩
  rw [h.held, h.context]

/-- The store that completes `mb->rx_count++`. -/
theorem Holding.count_store {n : ℕ} {d : Word} {v : ℕ} (h : k.Holding c strict n d v false)
    (x : Answer) :
    (exec (.set .rxCount ((v + 1) % 2 ^ 32)) x k).2.Holding c strict n d ((v + 1) % 2 ^ 32)
      true where
  context := h.context
  held := h.held
  popped := h.popped
  word := h.word
  ledger := h.ledger
  callback := h.callback
  count := by simp [exec]
  value := by
    have hv := h.value
    simp only [Bool.false_eq_true, if_false, Nat.add_zero] at hv
    simp only [exec, if_true, hv, Nat.mod_add_mod]
    rfl

/-- The call of `rx_cb` settles the word that was held. -/
theorem Holding.deliver {n : ℕ} {d : Word} {v : ℕ}
    (h : k.Holding c strict n d v (decide (d ≠ 0))) (x : Answer) :
    (exec (.rxCb d) x k).2.Quiet c strict := by
  have hser : (k.held k.inIsr).bind Sample.serial = some n := by
    simp [h.held, h.context]
  refine ⟨h.context, ?_, ?_, h.callback, ?_⟩
  · simp [exec, h.held, h.context]
  · simp only [exec, hser, h.popped]
    exact h.ledger.deliver h.word
  · simp only [exec, h.count, h.value, nonzeroCalls, delivered, List.map_append, List.map_cons,
      List.map_nil, List.countP_append, List.countP_cons, List.countP_nil, Nat.zero_add]

end RxChannel

end C906Firmware
