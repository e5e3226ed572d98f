import C906Firmware.Interaction.Preempt
import C906Firmware.Irq.Agreement

/-!
# Registration calls preempted by interrupts

A task makes registration calls while external interrupts, whose handlers make registration
calls of their own, may be taken between any two of its accesses. The calls share the table and
the words of the two bitmaps without exclusion, and two windows are open:

* between the stores of the handler and of the parameter of an entry, the source of that entry
  is dispatched with the new handler and the old parameter;
* between the read of a word of a bitmap and its write, what a handler does to other bits of
  the word is undone by the write.

Outside of these windows (`WindowsClosed`), and while handlers leave the number alone that the
task's call is about, every dispatch is genuine and the calls take effect in the order in which
they return (`serialised_of_windowsClosed`).
-/

namespace C906Firmware

open Interaction

namespace Irq

/-- The two bitmaps. -/
inductive Bitmap
  | recorded
  | enabled
  deriving DecidableEq, Repr

/-- The words of a bitmap. -/
def Bitmap.words : Bitmap → IrqState → ℕ → Word
  | recorded, k => k.irqRec
  | enabled, k => k.enable

/-- What the calls are doing: whether a handler is running, the number the task's call is about,
the number whose handler it has stored and whose parameter it has not, the word it has read and
not written, and the calls that have begun and returned. -/
structure Books where
  inIsr : Bool := false
  current : Option ℕ := none
  installing : Option ℕ := none
  updating : Option (Bitmap × ℕ) := none
  entered : List IrqCall := []
  returned : List IrqCall := []

/-- How the books record an access. -/
def noteBooks : IrqOp → IrqAnswer → IrqState → Books → Books
  | .callEnter c, _, _, g =>
    { g with
      entered := g.entered ++ [c]
      current := if g.inIsr then g.current else some c.irqNo }
  | .callReturn c _, _, _, g =>
    { g with
      returned := g.returned ++ [c]
      current := if g.inIsr then g.current else none }
  | .storeHandler n _ _, _, _, g =>
    { g with installing := if g.inIsr then g.installing else some n }
  | .storeParam _ _, _, _, g => { g with installing := if g.inIsr then g.installing else none }
  | .readEnable w, _, _, g =>
    { g with updating := if g.inIsr then g.updating else some (.enabled, w) }
  | .writeEnable _ _, _, _, g => { g with updating := if g.inIsr then g.updating else none }
  | .loadRec w .update, _, _, g =>
    { g with updating := if g.inIsr then g.updating else some (.recorded, w) }
  | .storeRec _ _, _, _, g => { g with updating := if g.inIsr then g.updating else none }
  | _, _, _, g => g

/-- The firmware and the controller, with the books. -/
abbrev Booked := IrqState × Books

/-- An external interrupt: its source, and the calls its handler makes if it has one. -/
structure Interrupt where
  irqNo : ℕ
  calls : List IrqCall
  deriving DecidableEq, Repr

/-- The calls an interrupt makes. -/
def Interrupt.made (i : Interrupt) (k : IrqState) : List IrqCall :=
  if i.irqNo < NR_IRQS.toNat ∧ k.handler i.irqNo ≠ 0 then i.calls else []

/-- The state after a sequence of calls, one after the other. -/
def afterCalls (calls : List IrqCall) (k : IrqState) : IrqState :=
  calls.foldl (fun k c => c.apply k) k

/-- The task and the interrupts that preempt it. -/
def preempted : Machine IrqRet Booked IrqAnswer Empty IrqCall Interrupt where
  exec := withGhost IrqState.exec noteBooks
  env := Empty.elim
  call := IrqCall.code
  handler := fun i => do
    let _ ← genericHandleIrq (fun _ _ => Prog.forEach IrqCall.code i.calls) i.irqNo
  takes := fun k => k.1.mie && k.1.meie && !k.2.inIsr
  enter := fun k => ({ k.1 with mie := false }, { k.2 with inIsr := true })
  leave := fun k => ({ k.1 with mie := true }, { k.2 with inIsr := false })

/-- The parameter of a handler that is called is that of the call that stored the handler. -/
def Genuine : IrqOp → Booked → Prop
  | .dispatch n _ p, k => p = k.1.given n
  | _, _ => True

/-- The table and the bitmaps are the same. -/
def SameBooks (k k' : IrqState) : Prop :=
  k.handler = k'.handler ∧ k.param = k'.param ∧ k.name = k'.name ∧ k.irqRec = k'.irqRec ∧
    k.enable = k'.enable

/-- Every handler about to be called gets the parameter of the call that installed it, and
whenever nothing runs, the table and the bitmaps are what the calls made so far leave if they
are made one after the other in some order. -/
def Serialised (k₀ : IrqState) (s : Config IrqRet Booked) : Prop :=
  (∀ o, s.next = some o → Genuine o s.k) ∧
    (s.Idle → ∃ order : List IrqCall, order.Perm s.k.2.entered ∧
      Total IrqState.exec (Prog.forEach IrqCall.code order) (fun _ k => SameBooks k s.k.1) k₀)

/-- The interrupt comes in none of the windows, and its handler leaves the number alone that the
task's call is about. -/
structure Apart (i : Interrupt) (k : Booked) : Prop where
  whole : k.2.installing = some i.irqNo → k.1.handler i.irqNo ≠ 0 →
    k.1.param i.irqNo = k.1.given i.irqNo
  others : ∀ c ∈ i.made k.1, k.2.current ≠ some c.irqNo
  words : ∀ b w, k.2.updating = some (b, w) →
    b.words (afterCalls (i.made k.1) k.1) w = b.words k.1 w

instance (i : Interrupt) (k : Booked) : Decidable (Apart i k) :=
  decidable_of_iff
    ((k.2.installing = some i.irqNo → k.1.handler i.irqNo ≠ 0 →
        k.1.param i.irqNo = k.1.given i.irqNo) ∧
      (∀ c ∈ i.made k.1, k.2.current ≠ some c.irqNo) ∧
      ∀ p ∈ k.2.updating, p.1.words (afterCalls (i.made k.1) k.1) p.2 = p.1.words k.1 p.2)
    ⟨fun h => ⟨h.1, h.2.1, fun b w hp => h.2.2 (b, w) hp⟩,
      fun h => ⟨h.whole, h.others, fun p hp => h.words p.1 p.2 hp⟩⟩

/-- Interrupts are taken outside of the windows. -/
def WindowsClosed (s : Config IrqRet Booked) : Act IrqAnswer Empty IrqCall Interrupt → Prop
  | .irq i => s.bg = none → preempted.takes s.k = true → Apart i s.k
  | _ => True

instance (s : Config IrqRet Booked) :
    ∀ a : Act IrqAnswer Empty IrqCall Interrupt, Decidable (WindowsClosed s a)
  | .irq _ => inferInstanceAs (Decidable (_ → _ → _))
  | .run _ => isTrue trivial
  | .env _ => isTrue trivial
  | .call _ => isTrue trivial

/-- The state after `plic_init`, with the table and the record zero. -/
def initialised (enable : ℕ → Word) (threshold : Word) (meie mie : Bool) (inService : ℕ → Bool) :
    IrqState :=
  { IrqState.boot enable threshold meie mie inService with regs := true, present := true }

/-! ### Sequences of calls -/

/-- The line of a number through a sequence of calls. -/
def lineThrough (present : Bool) (calls : List IrqCall) (j : ℕ) (l : Line) : Line :=
  calls.foldl (fun l c => if j = c.irqNo then c.onLine present l else l) l

/-- The entry is empty, or its parameter is that of the call that stored its handler. -/
def Line.Whole (l : Line) : Prop := l.handler ≠ 0 → l.param = l.given

theorem onLine_whole {l : Line} (h : l.Whole) (present : Bool) (c : IrqCall) :
    (c.onLine present l).Whole := by
  unfold IrqCall.onLine
  split
  · cases c with
    | request n h p s => exact fun _ => rfl
    | free n => exact fun _ => rfl
    | enable n => exact h
    | disable n => exact h
  · exact h

/-- Several calls leave a line whole. -/
theorem lineThrough_whole {l : Line} (h : l.Whole) (present : Bool) (calls : List IrqCall)
    (j : ℕ) : (lineThrough present calls j l).Whole := by
  induction calls generalizing l with
  | nil => exact h
  | cons c cs ih =>
    refine ih ?_
    change (if j = c.irqNo then c.onLine present l else l).Whole
    split
    · exact onLine_whole h present c
    · exact h

/-- Calls on other numbers leave a line alone. -/
theorem lineThrough_of_ne {present : Bool} {calls : List IrqCall} {j : ℕ} {l : Line}
    (h : ∀ c ∈ calls, c.irqNo ≠ j) : lineThrough present calls j l = l := by
  induction calls generalizing l with
  | nil => rfl
  | cons c cs ih =>
    rw [lineThrough, List.foldl_cons, if_neg (h c (by simp)).symm]
    exact ih fun c' hc' => h c' (List.mem_cons_of_mem c hc')

theorem afterCalls_present (calls : List IrqCall) (k : IrqState) :
    (afterCalls calls k).present = k.present := by
  induction calls generalizing k with
  | nil => rfl
  | cons c cs ih => exact (ih _).trans (apply_frame c k).1

/-- The state after some calls, line by line. -/
theorem line_afterCalls (calls : List IrqCall) (k : IrqState) (j : ℕ) :
    (afterCalls calls k).line j = lineThrough k.present calls j (k.line j) := by
  induction calls generalizing k with
  | nil => rfl
  | cons c cs ih =>
    refine (ih _).trans ?_
    rw [(apply_frame c k).1, line_apply]
    rfl

theorem afterCalls_append (calls calls' : List IrqCall) (k : IrqState) :
    afterCalls (calls ++ calls') k = afterCalls calls' (afterCalls calls k) :=
  List.foldl_append

/-- A sequence of calls, run by itself. -/
theorem total_afterCalls (calls : List IrqCall) (k : IrqState) :
    Total IrqState.exec (Prog.forEach IrqCall.code calls) (fun _ k' => k' = afterCalls calls k)
      k := by
  refine Total.forEach (P := fun cs k' => afterCalls cs k' = afterCalls calls k) ?_ rfl
  intro c cs k' hk'
  refine (total_code c k').mono fun _ k'' hk'' => ?_
  rw [hk'']
  exact hk'

/-! ### What the task is doing -/

/-- The task is idle or in a call `c`. In a call: the line of its number, now and before the
call, whether it is between the two stores of an entry, and the word it has read and not
written. -/
inductive Task
  | idle
  | busy (c : IrqCall) (now before : Line) (installing : Bool) (held : Option (Bitmap × Word))

namespace Task

/-- The call being made. -/
def call : Task → Option IrqCall
  | idle => none
  | busy c _ _ _ _ => some c

/-- The number whose entry is being written. -/
def installing : Task → Option ℕ
  | idle => none
  | busy c _ _ inst _ => if inst then some c.irqNo else none

/-- The word being updated. -/
def updating : Task → Option (Bitmap × ℕ)
  | idle => none
  | busy c _ _ _ held => held.map fun h => (h.1, c.irqNo / 32)

/-- What the task knows of the line of its number and of the word it holds. -/
def Own (k₀ : IrqState) (k : Booked) : Task → Prop
  | idle => True
  | busy c now before _ held =>
    k.1.line c.irqNo = now ∧ (afterCalls k.2.returned k₀).line c.irqNo = before ∧
      ∀ b v, held = some (b, v) → b.words k.1 (c.irqNo / 32) = v

end Task

/-- The assertions of the task: all lines but its own are what the calls that have returned
leave. -/
structure At (k₀ : IrqState) (t : Task) (k : Booked) : Prop where
  context : k.2.inIsr = false
  present : k.1.present = k₀.present
  current : k.2.current = t.call.map IrqCall.irqNo
  installing : k.2.installing = t.installing
  updating : k.2.updating = t.updating
  perm : (t.call.toList ++ k.2.returned).Perm k.2.entered
  others : ∀ i, t.call.map IrqCall.irqNo ≠ some i →
    k.1.line i = (afterCalls k.2.returned k₀).line i
  own : t.Own k₀ k
  whole : ∀ i, t.installing ≠ some i → (k.1.line i).Whole

/-- What an interrupt does. -/
structure Served (i : Interrupt) (k k' : Booked) : Prop where
  present : k'.1.present = k.1.present
  line : ∀ j, k'.1.line j = (afterCalls (i.made k.1) k.1).line j
  books : k'.2 = { k.2 with
    entered := k.2.entered ++ i.made k.1
    returned := k.2.returned ++ i.made k.1 }

/-- The bits of a bitmap are in the lines. -/
theorem words_eq {k k' : IrqState} (h : ∀ j, k.line j = k'.line j) (b : Bitmap) :
    b.words k = b.words k' := by
  obtain ⟨-, -, -, hrec, henable, -⟩ := lines_ext h
  cases b with
  | recorded => exact hrec
  | enabled => exact henable

/-- Interrupts outside of the windows keep every assertion of the task. -/
theorem At.interrupt {k₀ : IrqState} {t : Task} {k k' : Booked} {i : Interrupt}
    (h : At k₀ t k) (hi : Apart i k) (hk' : Served i k k') : At k₀ t k' := by
  -- The interrupt has changed the lines as its calls change them, and the serial order has them
  -- too.
  have hline : ∀ j, k'.1.line j = lineThrough k₀.present (i.made k.1) j (k.1.line j) := fun j => by
    rw [hk'.line, line_afterCalls, h.present]
  have hserial : ∀ j, (afterCalls k'.2.returned k₀).line j =
      lineThrough k₀.present (i.made k.1) j ((afterCalls k.2.returned k₀).line j) := fun j => by
    rw [hk'.books, afterCalls_append, line_afterCalls, afterCalls_present]
  have hapart : ∀ j, t.call.map IrqCall.irqNo = some j → ∀ c ∈ i.made k.1, c.irqNo ≠ j := by
    intro j hj c hc hcj
    exact hi.others c hc (by rw [h.current, hj, hcj])
  refine ⟨?_, hk'.present.trans h.present, ?_, ?_, ?_, ?_, fun j hj => ?_, ?_, fun j hj => ?_⟩
  · rw [hk'.books]
    exact h.context
  · rw [hk'.books]
    exact h.current
  · rw [hk'.books]
    exact h.installing
  · rw [hk'.books]
    exact h.updating
  · rw [hk'.books, ← List.append_assoc]
    exact h.perm.append_right _
  · rw [hline, hserial, h.others j hj]
  -- The line of the call that was interrupted is none of those the handler has called on.
  · cases t with
    | idle => trivial
    | busy c now before inst held =>
      obtain ⟨hnow, hbefore, hheld⟩ := h.own
      have hne := hapart c.irqNo rfl
      refine ⟨?_, ?_, fun b v hbv => ?_⟩
      · rw [hline, lineThrough_of_ne hne, hnow]
      · rw [hserial, lineThrough_of_ne hne, hbefore]
      · have hupdating : k.2.updating = some (b, c.irqNo / 32) := by
          rw [h.updating, Task.updating, hbv]
          rfl
        rw [words_eq hk'.line, hi.words b _ hupdating, hheld b v hbv]
  · rw [hline]
    exact lineThrough_whole (h.whole j hj) _ _ _

/-! ### The accesses of the task -/

section Access

variable {k₀ : IrqState} {c : IrqCall} {l before : Line} {inst : Bool}
  {held : Option (Bitmap × Word)} {k : Booked} {n : ℕ}

/-- **Step lemma.** An access of the task that leaves all lines but its own alone. -/
theorem At.step (h : At k₀ (.busy c l before inst held) k) {k' : IrqState} {l' : Line}
    {inst' : Bool} {held' : Option (Bitmap × Word)} (hpresent : k'.present = k.1.present)
    (hothers : ∀ i, i ≠ c.irqNo → k'.line i = k.1.line i) (hline : k'.line c.irqNo = l')
    (hwhole : inst' = false → l'.Whole)
    (hheld : ∀ b v, held' = some (b, v) → b.words k' (c.irqNo / 32) = v) :
    At k₀ (.busy c l' before inst' held') (k', { k.2 with
      installing := (Task.busy c l' before inst' held').installing
      updating := (Task.busy c l' before inst' held').updating }) where
  context := h.context
  present := hpresent.trans h.present
  current := h.current
  installing := rfl
  updating := rfl
  perm := h.perm
  others i hi := by
    have hne : i ≠ c.irqNo := fun heq => hi (by rw [heq]; rfl)
    rw [hothers i hne, h.others i hi]
  own := ⟨hline, h.own.2.1, hheld⟩
  whole i hi := by
    by_cases hic : i = c.irqNo
    · subst hic
      rw [hline]
      refine hwhole ?_
      cases inst' with
      | false => rfl
      | true => exact absurd rfl hi
    · rw [hothers i hic]
      refine h.whole i fun hinst => hic ?_
      cases inst with
      | false => cases hinst
      | true => exact (Option.some.inj hinst).symm

/-- The line of the task's number is whole outside of the first window. -/
theorem At.now_whole (h : At k₀ (.busy c l before false held) k) : l.Whole := by
  have hwhole := h.whole c.irqNo (by simp [Task.installing])
  rwa [h.own.1] at hwhole

/-- An access that changes neither the books nor, if it changes any, other lines. -/
theorem At.quiet (h : At k₀ (.busy c l before false none) k) {k' : IrqState} {l' : Line}
    (hpresent : k'.present = k.1.present)
    (hothers : ∀ i, i ≠ c.irqNo → k'.line i = k.1.line i) (hline : k'.line c.irqNo = l')
    (hwhole : l'.Whole) : At k₀ (.busy c l' before false none) (k', k.2) := by
  have hstep : At k₀ (.busy c l' before false none) (k', { k.2 with
      installing := (Task.busy c l' before false none).installing
      updating := (Task.busy c l' before false none).updating }) :=
    h.step hpresent hothers hline (fun _ => hwhole) (by simp)
  have hinstalling : k.2.installing = none := h.installing
  have hupdating : k.2.updating = none := h.updating
  have hbooks : k.2 = { k.2 with
      installing := (Task.busy c l' before false none).installing
      updating := (Task.busy c l' before false none).updating } := by
    simp [Task.installing, Task.updating, ← hinstalling, ← hupdating]
  rw [hbooks]
  exact hstep

/-- Between the accesses of the task nothing is asked of a handler; otherwise the entries that
are not being written are whole. -/
def Consistent (k : Booked) : Prop :=
  k.2.inIsr = false → ∀ i, k.2.installing ≠ some i → (k.1.line i).Whole

theorem At.consistent {t : Task} (h : At k₀ t k) : Consistent k := fun _ i hi =>
  h.whole i (by rwa [← h.installing])

/-- What is proved of the accesses of the task and of the handlers. -/
abbrev contract : Contract IrqRet Booked IrqAnswer :=
  preempted.contract Consistent Genuine fun _ _ _ => True

/-- An access that does `φ` to the line of `n`, and nothing else. -/
structure Touches (n : ℕ) (φ : Line → Line) (o : IrqOp) : Prop where
  genuine : ∀ k, Genuine o k
  books : ∀ x k g, noteBooks o x k g = g
  present : ∀ x k, (IrqState.exec o x k).2.present = k.present
  others : ∀ x k i, i ≠ n → (IrqState.exec o x k).2.line i = k.line i
  line : ∀ x k, (IrqState.exec o x k).2.line n = φ (k.line n)

/-- What each access of a call does to the line of its number. -/
theorem touches_storeName (n : ℕ) (name : Option String) :
    Touches n (fun l => { l with name := name }) (.storeName n name) where
  genuine _ := trivial
  books _ _ _ := rfl
  present _ _ := rfl
  others _ _ _ hi := by simp [IrqState.exec, IrqState.line, hi]
  line _ _ := by simp [IrqState.exec, IrqState.line]

theorem touches_writePriority (n : ℕ) (v : Word) :
    Touches n (fun l => { l with priority := v }) (.writePriority n v) where
  genuine _ := trivial
  books _ _ _ := rfl
  present _ _ := rfl
  others _ _ _ hi := by simp [IrqState.exec, IrqState.line, hi]
  line _ _ := by simp [IrqState.exec, IrqState.line]

theorem touches_setMeie (n : ℕ) : Touches n id .setMeie :=
  ⟨fun _ => trivial, fun _ _ _ => rfl, fun _ _ => rfl, fun _ _ _ _ => rfl, fun _ _ => rfl⟩

theorem touches_setMie (n : ℕ) : Touches n id .setMie :=
  ⟨fun _ => trivial, fun _ _ _ => rfl, fun _ _ => rfl, fun _ _ _ _ => rfl, fun _ _ => rfl⟩

theorem touches_log (n : ℕ) (text : String) : Touches n id (.log text) :=
  ⟨fun _ => trivial, fun _ _ _ => rfl, fun _ _ => rfl, fun _ _ _ _ => rfl, fun _ _ => rfl⟩

theorem touches_loadName (n m : ℕ) : Touches n id (.loadName m) :=
  ⟨fun _ => trivial, fun _ _ _ => rfl, fun _ _ => rfl, fun _ _ _ _ => rfl, fun _ _ => rfl⟩

theorem touches_getPresent (n : ℕ) : Touches n id .getPresent :=
  ⟨fun _ => trivial, fun _ _ _ => rfl, fun _ _ => rfl, fun _ _ _ _ => rfl, fun _ _ => rfl⟩

theorem touches_loadRec_test (n w : ℕ) : Touches n id (.loadRec w .test) :=
  ⟨fun _ => trivial, fun _ _ _ => rfl, fun _ _ => rfl, fun _ _ _ _ => rfl, fun _ _ => rfl⟩

variable {α : Type} {Q : α → Booked → Prop}

/-- The rule for an access that touches the line of the task's number at most. -/
theorem At.touch {φ : Line → Line} {o : IrqOp} {f : IrqRet o → IrqCode α}
    (h : At k₀ (.busy c l before false none) k) (ho : Touches c.irqNo φ o)
    (hwhole : l.Whole → (φ l).Whole)
    (hnext : ∀ x k, At k₀ (.busy c l before false none) k →
      ∀ k', At k₀ (.busy c (φ l) before false none) k' →
        Outline contract (At k₀) (f (IrqState.exec o x k.1).1) Q k') :
    Outline contract (At k₀) (.act o f) Q k := by
  refine Outline.act _ h (fun _ hk => hk.consistent) (fun k _ => ho.genuine k) ?_
  intro k x hk _
  have hexec : (contract.exec o x k).2 = ((IrqState.exec o x k.1).2, k.2) :=
    Prod.ext rfl (ho.books x k.1 k.2)
  rw [hexec]
  refine hnext x k hk _ (hk.quiet (ho.present x k.1) (ho.others x k.1) ?_ (hwhole hk.now_whole))
  rw [ho.line, hk.own.1]

/-- A store to a word of a bitmap. -/
def Bitmap.store (k : IrqState) (w : ℕ) (v : Word) : Bitmap → IrqState
  | recorded => { k with irqRec := Function.update k.irqRec w v }
  | enabled => { k with enable := Function.update k.enable w v }

/-- A line with its bit of a bitmap set or cleared. -/
def Line.mark (l : Line) (v : Bool) : Bitmap → Line
  | .recorded => { l with recorded := v }
  | .enabled => { l with enabled := v }

/-- Writing back a word with one bit changed changes one line. -/
theorem line_store_setBit (b : Bitmap) (k : IrqState) (n : ℕ) (v : Bool) (i : ℕ) :
    (b.store k (n / 32) (setBit (b.words k (n / 32)) n v)).line i =
      if i = n then (k.line i).mark v b else k.line i := by
  have hset : ∀ words : ℕ → Word,
      Function.update words (n / 32) (setBit (words (n / 32)) n v) = setWord words n v :=
    fun _ => rfl
  cases b with
  | recorded =>
    simp only [Bitmap.store, Bitmap.words, hset, IrqState.line, bit_setWord, Line.mark]
    split <;> rfl
  | enabled =>
    simp only [Bitmap.store, Bitmap.words, hset, IrqState.line, bit_setWord, Line.mark]
    split <;> rfl

/-- The task has read a word. -/
theorem At.read (h : At k₀ (.busy c l before false none) k) (b : Bitmap) :
    At k₀ (.busy c l before false (some (b, b.words k.1 (c.irqNo / 32))))
      (k.1, { k.2 with updating := some (b, c.irqNo / 32) }) := by
  have hinstalling : k.2.installing = none := h.installing
  have hbooks : ({ k.2 with updating := some (b, c.irqNo / 32) } : Books) = { k.2 with
      installing := none
      updating := some (b, c.irqNo / 32) } := by
    rw [← hinstalling]
  rw [hbooks]
  refine h.step rfl (fun _ _ => rfl) h.own.1 (fun _ => h.now_whole) ?_
  rintro b' v hv
  obtain ⟨rfl, rfl⟩ := Prod.mk.inj (Option.some.inj hv)
  rfl

/-- The task has written back the word it has read. -/
theorem At.write {b : Bitmap} {w : Word} (h : At k₀ (.busy c l before false (some (b, w))) k)
    (v : Bool) :
    At k₀ (.busy c (l.mark v b) before false none)
      (b.store k.1 (c.irqNo / 32) (setBit w c.irqNo v), { k.2 with updating := none }) := by
  have hinstalling : k.2.installing = none := h.installing
  have hbooks : ({ k.2 with updating := none } : Books) = { k.2 with
      installing := none
      updating := none } := by
    rw [← hinstalling]
  have hw : b.words k.1 (c.irqNo / 32) = w := h.own.2.2 b w rfl
  have hwhole : (l.mark v b).Whole := by
    have hl := h.now_whole
    cases b <;> exact hl
  rw [hbooks, ← hw]
  refine h.step ?_ (fun i hi => ?_) ?_ (fun _ => hwhole) (by simp)
  · cases b <;> rfl
  · rw [line_store_setBit, if_neg hi]
  · rw [line_store_setBit, if_pos rfl, h.own.1]

/-- An update of an enable word begins with its read. -/
theorem outline_readEnable {f : Word → IrqCode α} (h : At k₀ (.busy c l before false none) k)
    (hnext : ∀ w k', At k₀ (.busy c l before false (some (.enabled, w))) k' →
      Outline contract (At k₀) (f w) Q k') :
    Outline contract (At k₀) (.act (.readEnable (c.irqNo / 32)) f) Q k := by
  refine Outline.act _ h (fun _ hk => hk.consistent) (fun _ _ => trivial) fun k x hk _ => ?_
  have hexec : (contract.exec (.readEnable (c.irqNo / 32)) x k).2 =
      (k.1, { k.2 with updating := some (.enabled, c.irqNo / 32) }) := by
    simp [Machine.contract, preempted, withGhost, noteBooks, hk.context, IrqState.exec]
  rw [hexec]
  exact hnext _ _ (hk.read .enabled)

/-- An update of a word of the record begins with its read. -/
theorem outline_loadRec_update {f : Word → IrqCode α}
    (h : At k₀ (.busy c l before false none) k)
    (hnext : ∀ w k', At k₀ (.busy c l before false (some (.recorded, w))) k' →
      Outline contract (At k₀) (f w) Q k') :
    Outline contract (At k₀) (.act (.loadRec (c.irqNo / 32) .update) f) Q k := by
  refine Outline.act _ h (fun _ hk => hk.consistent) (fun _ _ => trivial) fun k x hk _ => ?_
  have hexec : (contract.exec (.loadRec (c.irqNo / 32) .update) x k).2 =
      (k.1, { k.2 with updating := some (.recorded, c.irqNo / 32) }) := by
    simp [Machine.contract, preempted, withGhost, noteBooks, hk.context, IrqState.exec]
  rw [hexec]
  exact hnext _ _ (hk.read .recorded)

/-- The update ends before anything else has read or written the enable word. -/
theorem outline_writeEnable {w : Word} {f : Unit → IrqCode α} (v : Bool)
    (h : At k₀ (.busy c l before false (some (.enabled, w))) k)
    (hnext : ∀ k', At k₀ (.busy c (l.mark v .enabled) before false none) k' →
      Outline contract (At k₀) (f ()) Q k') :
    Outline contract (At k₀) (.act (.writeEnable (c.irqNo / 32) (setBit w c.irqNo v)) f) Q k := by
  refine Outline.act _ h (fun _ hk => hk.consistent) (fun _ _ => trivial) fun k x hk _ => ?_
  have hexec : (contract.exec (.writeEnable (c.irqNo / 32) (setBit w c.irqNo v)) x k).2 =
      (Bitmap.enabled.store k.1 (c.irqNo / 32) (setBit w c.irqNo v),
        { k.2 with updating := none }) := by
    simp [Machine.contract, preempted, withGhost, noteBooks, hk.context, IrqState.exec,
      Bitmap.store]
  rw [hexec]
  exact hnext _ (hk.write v)

/-- The update ends before anything else has read or written the word of the record. -/
theorem outline_storeRec {w : Word} {f : Unit → IrqCode α} (v : Bool)
    (h : At k₀ (.busy c l before false (some (.recorded, w))) k)
    (hnext : ∀ k', At k₀ (.busy c (l.mark v .recorded) before false none) k' →
      Outline contract (At k₀) (f ()) Q k') :
    Outline contract (At k₀) (.act (.storeRec (c.irqNo / 32) (setBit w c.irqNo v)) f) Q k := by
  refine Outline.act _ h (fun _ hk => hk.consistent) (fun _ _ => trivial) fun k x hk _ => ?_
  have hexec : (contract.exec (.storeRec (c.irqNo / 32) (setBit w c.irqNo v)) x k).2 =
      (Bitmap.recorded.store k.1 (c.irqNo / 32) (setBit w c.irqNo v),
        { k.2 with updating := none }) := by
    simp [Machine.contract, preempted, withGhost, noteBooks, hk.context, IrqState.exec,
      Bitmap.store]
  rw [hexec]
  exact hnext _ (hk.write v)

/-- The stores of the handler and of the parameter of an entry. -/
theorem outline_storeEntry {h' p : ℕ} {f : Unit → IrqCode α}
    (h : At k₀ (.busy c l before false none) k)
    (hnext : ∀ k',
      At k₀ (.busy c { l with handler := h', given := p, param := p } before false none) k' →
        Outline contract (At k₀) (f ()) Q k') :
    Outline contract (At k₀) (.act (.storeHandler c.irqNo h' p) fun _ =>
      .act (.storeParam c.irqNo p) f) Q k := by
  refine Outline.act _ h (fun _ hk => hk.consistent) (fun _ _ => trivial) fun k x hk _ => ?_
  -- Between the two stores the entry is half installed, which the books note.
  have hupdating : k.2.updating = none := hk.updating
  have hfirst : At k₀ (.busy c { l with handler := h', given := p } before true none)
      (contract.exec (.storeHandler c.irqNo h' p) x k).2 := by
    have hexec : (contract.exec (.storeHandler c.irqNo h' p) x k).2 =
        ((IrqState.exec (.storeHandler c.irqNo h' p) x k.1).2, { k.2 with
          installing := some c.irqNo
          updating := none }) := by
      simp [Machine.contract, preempted, withGhost, noteBooks, hk.context, ← hupdating]
    rw [hexec]
    refine hk.step rfl (fun i hi => ?_) ?_ (by simp) (by simp)
    · simp [IrqState.exec, IrqState.line, hi]
    · rw [← hk.own.1]
      simp [IrqState.exec, IrqState.line]
  refine Outline.act _ hfirst (fun _ hk => hk.consistent) (fun _ _ => trivial) fun k x hk _ => ?_
  have hupdating : k.2.updating = none := hk.updating
  have hexec : (contract.exec (.storeParam c.irqNo p) x k).2 =
      ((IrqState.exec (.storeParam c.irqNo p) x k.1).2, { k.2 with
        installing := none
        updating := none }) := by
    simp [Machine.contract, preempted, withGhost, noteBooks, hk.context, ← hupdating]
  rw [hexec]
  refine hnext _ (hk.step rfl (fun i hi => ?_) ?_ (fun _ _ => rfl) (by simp))
  · simp [IrqState.exec, IrqState.line, hi]
  · have hnow := hk.own.1
    simp only [IrqState.line, Line.ext_iff] at hnow ⊢
    simp [IrqState.exec, bit, ← hnow]

/-- What `plic_irq_toggle` does to a line. -/
def Line.toggle (present : Bool) (l : Line) (v : Bool) : Line :=
  { l with
    enabled := if present then v else l.enabled
    priority := if v then 1 else 0 }

/-- `plic_toggle` marks the line enabled or not. -/
theorem outline_plicToggle (v : Bool) {f : IrqCode α}
    (h : At k₀ (.busy c l before false none) k)
    (hnext : ∀ k', At k₀ (.busy c (l.mark v .enabled) before false none) k' →
      Outline contract (At k₀) f Q k') :
    Outline contract (At k₀) (plicToggle c.irqNo v >>= fun _ => f) Q k := by
  simp only [plicToggle, Prog.perform_bind, Prog.act_bind]
  refine outline_readEnable h fun w k' hk' => ?_
  cases v with
  | true => exact outline_writeEnable true hk' hnext
  | false => exact outline_writeEnable false hk' hnext

/-- `plic_irq_toggle` does so with the priority, and only if the PLIC has been found. -/
theorem outline_plicIrqToggle (v : Bool) {f : IrqCode α}
    (h : At k₀ (.busy c l before false none) k)
    (hnext : ∀ k', At k₀ (.busy c (l.toggle k₀.present v) before false none) k' →
      Outline contract (At k₀) f Q k') :
    Outline contract (At k₀) (plicIrqToggle c.irqNo v >>= fun _ => f) Q k := by
  simp only [plicIrqToggle, Prog.perform_bind, Prog.act_bind]
  refine h.touch (touches_writePriority c.irqNo _) (fun hl => hl) fun _ _ _ k hk => ?_
  refine hk.touch (touches_getPresent c.irqNo) (fun hl => hl) fun _ k hk k' hk' => ?_
  have hanswer : (IrqState.exec .getPresent ‹_› k.1).1 = k₀.present := hk.present
  rw [hanswer]
  cases hpresent : k₀.present with
  | true =>
    rw [if_pos rfl]
    refine outline_plicToggle v hk' fun k'' hk'' => hnext k'' ?_
    rw [hpresent]
    exact hk''
  | false =>
    rw [if_neg (by decide), Prog.pure_eq_ret, Prog.ret_bind]
    refine hnext k' ?_
    rw [hpresent]
    exact hk'

/-- `record_irq_enable` marks the line recorded, if it is not. -/
theorem outline_recordIrqEnable {f : IrqCode α} (h : At k₀ (.busy c l before false none) k)
    (hnext : ∀ k', At k₀ (.busy c { l with recorded := true } before false none) k' →
      Outline contract (At k₀) f Q k') :
    Outline contract (At k₀) (recordIrqEnable c.irqNo >>= fun _ => f) Q k := by
  simp only [recordIrqEnable, Prog.perform_bind, Prog.act_bind]
  refine h.touch (touches_loadRec_test c.irqNo _) (fun hl => hl) fun _ k hk k' hk' => ?_
  split
  · refine outline_loadRec_update hk' fun w k'' hk'' => ?_
    exact outline_storeRec true hk'' hnext
  · next hbit =>
    rw [Prog.pure_eq_ret, Prog.ret_bind]
    have hset : ¬k.1.irqRec (c.irqNo / 32) &&& irqMask c.irqNo = 0 := hbit
    rw [and_irqMask_eq_zero, Bool.not_eq_false] at hset
    have hrecorded : l.recorded = true := by
      rw [← hk.own.1]
      exact hset
    have hline : ({ l with recorded := true } : Line) = l := by rw [← hrecorded]
    refine hnext k' ?_
    rw [hline]
    exact hk'

/-- `record_irq_disable` marks the line not recorded, if it is. -/
theorem outline_recordIrqDisable {f : IrqCode α} (h : At k₀ (.busy c l before false none) k)
    (hnext : ∀ k', At k₀ (.busy c { l with recorded := false } before false none) k' →
      Outline contract (At k₀) f Q k') :
    Outline contract (At k₀) (recordIrqDisable c.irqNo >>= fun _ => f) Q k := by
  simp only [recordIrqDisable, Prog.perform_bind, Prog.act_bind]
  refine h.touch (touches_loadRec_test c.irqNo _) (fun hl => hl) fun _ k hk k' hk' => ?_
  split
  · refine outline_loadRec_update hk' fun w k'' hk'' => ?_
    exact outline_storeRec false hk'' hnext
  · next hbit =>
    rw [Prog.pure_eq_ret, Prog.ret_bind]
    have hclear : ¬k.1.irqRec (c.irqNo / 32) &&& irqMask c.irqNo ≠ 0 := hbit
    rw [not_not, and_irqMask_eq_zero] at hclear
    have hrecorded : l.recorded = false := by
      rw [← hk.own.1]
      exact hclear
    have hline : ({ l with recorded := false } : Line) = l := by rw [← hrecorded]
    refine hnext k' ?_
    rw [hline]
    exact hk'

/-- The end of a piece of a call. -/
theorem outline_ret (a : α) (h : At k₀ (.busy c l before false none) k)
    (hQ : ∀ k', At k₀ (.busy c l before false none) k' → Q a k') :
    Outline contract (At k₀) (.ret a) Q k :=
  Outline.ret _ h (fun _ hk => hk.consistent) hQ

/-- Each entry point does to the line of its number what it does if run by itself. -/
theorem outline_function (h : At k₀ (.busy c l before false none) k) :
    Outline contract (At k₀) c.function
      (fun _ => At k₀ (.busy c (c.onLine k₀.present l) before false none)) k := by
  unfold IrqCall.onLine
  cases c with
  | request n h' p s =>
    by_cases hc : (IrqCall.request n h' p s).Succeeds
    · have hguard : ¬(NR_IRQS.toNat ≤ n ∨ h' = 0) := by
        rw [not_or, not_le]
        exact hc
      simp only [IrqCall.function, irqRequest, if_neg hguard, if_pos hc, Prog.perform_bind]
      refine outline_storeEntry (c := .request n h' p s) h fun k hk => ?_
      refine hk.touch (touches_storeName n _) (fun hl => hl) fun _ _ _ k hk => ?_
      refine hk.touch (touches_setMeie n) (fun hl => hl) fun _ _ _ k hk => ?_
      refine hk.touch (touches_setMie n) (fun hl => hl) fun _ _ _ k hk => ?_
      refine outline_plicIrqToggle (c := .request n h' p s) true hk fun k hk => ?_
      refine outline_recordIrqEnable (c := .request n h' p s) hk fun k hk => ?_
      refine hk.touch (touches_loadName n n) (fun hl => hl) fun _ _ _ k hk => ?_
      refine hk.touch (touches_log n _) (fun hl => hl) fun _ _ _ k hk => ?_
      exact outline_ret 0 hk fun _ hk => hk
    · have hguard : NR_IRQS.toNat ≤ n ∨ h' = 0 := by
        by_contra hn
        rw [not_or, not_le] at hn
        exact hc hn
      simp only [IrqCall.function, irqRequest, if_pos hguard, if_neg hc, Prog.pure_eq_ret]
      exact outline_ret _ h fun _ hk => hk
  | free n =>
    by_cases hc : (IrqCall.free n).Succeeds
    · simp only [IrqCall.function, irqFree, if_neg (not_le.mpr hc), if_pos hc, Prog.perform_bind]
      refine outline_plicIrqToggle (c := .free n) false h fun k hk => ?_
      refine outline_recordIrqDisable (c := .free n) hk fun k hk => ?_
      refine outline_storeEntry (c := .free n) hk fun k hk => ?_
      refine hk.touch (touches_storeName n _) (fun hl => hl) fun _ _ _ k hk => ?_
      refine hk.touch (touches_log n _) (fun hl => hl) fun _ _ _ k hk => ?_
      exact outline_ret 0 hk fun _ hk => hk
    · simp only [IrqCall.function, irqFree, if_pos (not_lt.mp hc), if_neg hc, Prog.pure_eq_ret]
      exact outline_ret _ h fun _ hk => hk
  | enable n =>
    refine outline_plicIrqToggle (c := .enable n) true h fun k hk => ?_
    refine outline_recordIrqEnable (c := .enable n) hk fun k hk => ?_
    exact outline_ret 0 hk fun _ hk => hk
  | disable n =>
    refine outline_plicIrqToggle (c := .disable n) false h fun k hk => ?_
    refine outline_recordIrqDisable (c := .disable n) hk fun k hk => ?_
    exact outline_ret 0 hk fun _ hk => hk

/-- A call, from its beginning to its return. -/
theorem outline_code (c : IrqCall) (h : At k₀ .idle k) :
    Outline contract (At k₀) c.code (fun _ => At k₀ .idle) k := by
  rw [IrqCall.code, Prog.perform_bind]
  refine Outline.act _ h (fun _ hk => hk.consistent) (fun _ _ => trivial) fun k x hk _ => ?_
  -- From its entry on the call is under way, and it is the last one entered.
  have hexec : (contract.exec (.callEnter c) x k).2 =
      (k.1, { k.2 with entered := k.2.entered ++ [c], current := some c.irqNo }) := by
    simp [Machine.contract, preempted, withGhost, noteBooks, hk.context, IrqState.exec]
  have hline := hk.others c.irqNo (by simp [Task.call])
  have hentered : At k₀ (.busy c (k.1.line c.irqNo) (k.1.line c.irqNo) false none)
      (contract.exec (.callEnter c) x k).2 := by
    rw [hexec]
    refine ⟨hk.context, hk.present, rfl, hk.installing, hk.updating, ?_, fun i _ => ?_, ?_, ?_⟩
    · exact ((List.perm_append_singleton c _).symm.trans (hk.perm.append_right [c]))
    · exact hk.others i (by simp [Task.call])
    · exact ⟨rfl, hline.symm, by simp⟩
    · exact hk.whole
  refine Outline.bind ((outline_function hentered).mono fun ret k' hk' => ?_)
  refine Outline.act _ hk' (fun _ hk => hk.consistent) (fun _ _ => trivial) fun k' x hk' _ => ?_
  refine Outline.ret .idle ?_ (fun _ hk => hk.consistent) fun _ hk => hk
  have hexec : (contract.exec (.callReturn c ret) x k').2 =
      (k'.1, { k'.2 with returned := k'.2.returned ++ [c], current := none }) := by
    simp [Machine.contract, preempted, withGhost, noteBooks, hk'.context, IrqState.exec]
  rw [hexec]
  obtain ⟨hnow, hbefore, -⟩ := hk'.own
  refine ⟨hk'.context, hk'.present, rfl, hk'.installing, hk'.updating, ?_, fun i _ => ?_, trivial,
    fun i _ => hk'.whole i (by simp [Task.installing])⟩
  -- When it returns it is the last one in the serial order as well.
  · exact (List.perm_append_singleton c _).trans hk'.perm
  · change k'.1.line i = (afterCalls (k'.2.returned ++ [c]) k₀).line i
    rw [afterCalls_append, line_afterCalls, afterCalls_present]
    change k'.1.line i = if i = c.irqNo then c.onLine k₀.present _ else _
    by_cases hi : i = c.irqNo
    · rw [if_pos hi, hi, hnow, hbefore]
    · rw [if_neg hi]
      exact hk'.others i fun heq => hi (Option.some.inj heq).symm

end Access

/-! ### The handlers -/

section Handler

/-- The books after calls of a handler. -/
def Books.served (g : Books) (calls : List IrqCall) : Books :=
  { g with
    entered := g.entered ++ calls
    returned := g.returned ++ calls }

/-- The accesses of calls. -/
def CallOp : IrqOp → Prop
  | .claim | .complete _ | .dispatch _ _ _ | .handlerStep => False
  | _ => True

theorem only_code (c : IrqCall) : c.code.Only CallOp := by
  refine ⟨trivial, fun _ => ((only_function c).mono fun o ho => ?_).bind fun _ =>
    ⟨trivial, fun _ => trivial⟩⟩
  cases o <;> trivial

/-- The calls of a handler, which nothing preempts. -/
theorem total_handlerCalls (calls : List IrqCall) {k : Booked} (h : k.2.inIsr = true) :
    Total preempted.exec (Prog.forEach IrqCall.code calls)
      (fun _ k' => k' = (afterCalls calls k.1, k.2.served calls)) k := by
  -- what is still to be done, from here, ends where the whole list does
  let P : List IrqCall → Booked → Prop := fun cs k' => k'.2.inIsr = true ∧
    (afterCalls cs k'.1, k'.2.served cs) = (afterCalls calls k.1, k.2.served calls)
  refine (Total.forEach (P := P) ?_ ⟨h, rfl⟩).mono ?_
  · rintro c cs ⟨k', g⟩ ⟨hisr, hend⟩
    have hplain : ∀ o x (k : IrqState), Plain o → noteBooks o x k
        { g with entered := g.entered ++ [c] } = { g with entered := g.entered ++ [c] } := by
      intro o x k ho
      have hisr' : g.inIsr = true := hisr
      cases o with
      | loadRec w u => cases u <;> simp [noteBooks, hisr']
      | callEnter c => exact False.elim ho
      | callReturn c ret => exact False.elim ho
      | _ => simp [noteBooks, hisr']
    rw [IrqCall.code, Prog.perform_bind, total_act]
    intro x
    have hexec : (preempted.exec (.callEnter c) x (k', g)).2 =
        (k', { g with entered := g.entered ++ [c] }) := by
      have hisr' : g.inIsr = true := hisr
      simp [preempted, withGhost, noteBooks, IrqState.exec, hisr']
    rw [hexec]
    refine Total.bind ((Total.withGhost hplain (only_function c) (total_function c k')).mono ?_)
    rintro ret ⟨k'', g'⟩ ⟨⟨-, rfl⟩, rfl⟩ x
    have hreturn : (preempted.exec (.callReturn c ret) x
        (c.apply k', { g with entered := g.entered ++ [c] })).2 =
        (c.apply k', g.served [c]) := by
      have hisr' : g.inIsr = true := hisr
      simp [preempted, withGhost, noteBooks, IrqState.exec, hisr', Books.served]
    rw [hreturn]
    refine ⟨hisr, Eq.trans ?_ hend⟩
    simp [Books.served, afterCalls]
  · rintro - ⟨k', g⟩ ⟨-, hend⟩
    refine Eq.trans ?_ hend
    simp [Books.served, afterCalls]

theorem only_calls (calls : List IrqCall) : (Prog.forEach IrqCall.code calls).Only CallOp :=
  Prog.Only.forEach only_code

/-- The calls make no access that anything is asked of, and stay in the handler. -/
theorem outline_handlerCalls (calls : List IrqCall) {k : Booked} (h : k.2.inIsr = true) :
    Outline contract Alone (Prog.forEach IrqCall.code calls)
      (fun _ k' => k' = (afterCalls calls k.1, k.2.served calls)) k := by
  refine ((total_handlerCalls calls h).outline (C := contract) (only_calls calls)
    (P := fun k => k.2.inIsr = true) h ?_ ?_ ?_).mono fun _ _ hk => hk.1
  · intro o x k _ hk
    cases o with
    | loadRec w u => cases u <;> exact hk
    | _ => exact hk
  · intro k hk hfalse
    rw [hk] at hfalse
    cases hfalse
  · intro o k ho _
    cases o <;> trivial

/-- What is left of a handler run when its calls have been made. -/
theorem served_leave {i : Interrupt} {k : Booked} (hisr : k.2.inIsr = false) (x : IrqAnswer) :
    Served i k (preempted.leave (preempted.exec (.complete i.irqNo) x
      (afterCalls (i.made k.1) (preempted.enter k).1,
        (preempted.enter k).2.served (i.made k.1))).2) := by
  have hbit : ∀ k' : IrqState, ∀ j,
      (IrqState.exec (.complete i.irqNo) x k').2.line j = k'.line j := by
    intro k' j
    simp only [IrqState.exec]
    split <;> rfl
  have hpresent : ∀ k' : IrqState,
      (IrqState.exec (.complete i.irqNo) x k').2.present = k'.present := by
    intro k'
    simp only [IrqState.exec]
    split <;> rfl
  refine ⟨?_, fun j => ?_, ?_⟩
  · exact (hpresent _).trans (afterCalls_present _ _)
  · refine (hbit _ j).trans ?_
    rw [line_afterCalls, line_afterCalls]
    rfl
  · simp [preempted, withGhost, noteBooks, Books.served, ← hisr]

/-- A handler run, from the state it is entered in. -/
theorem outline_handler {k₀ : IrqState} {i : Interrupt} {k : Booked} (hk : Consistent k)
    (ht : preempted.takes k = true) (hi : Apart i k) :
    Outline contract Alone (preempted.handler i)
      (fun _ k' => Keeps (At k₀) k (preempted.leave k')) (preempted.enter k) := by
  have hisr : k.2.inIsr = false := by
    simp only [preempted, Bool.and_eq_true, Bool.not_eq_true'] at ht
    exact ht.2
  -- Whatever the task was doing, the handler as a whole leaves it there.
  have hkeeps : ∀ k', Served i k k' → Keeps (At k₀) k k' := fun k' hk' t h => h.interrupt hi hk'
  have hin : ∀ k' : Booked, k'.2.inIsr = true → Consistent k' := by
    intro k' hk' hfalse
    rw [hk'] at hfalse
    cases hfalse
  have henter : (preempted.enter k).2.inIsr = true := rfl
  change Outline contract Alone
    (genericHandleIrq (fun _ _ => Prog.forEach IrqCall.code i.calls) i.irqNo >>= fun _ => pure ())
    _ _
  by_cases hle : NR_IRQS.toNat ≤ i.irqNo
  · -- a number out of range is neither dispatched nor completed
    rw [genericHandleIrq, if_pos hle]
    refine Outline.alone_act (hin _ henter) trivial fun x => ?_
    refine Outline.alone_ret (hin _ henter) (hkeeps _ ⟨rfl, fun j => ?_, ?_⟩)
    · rw [Interrupt.made, if_neg fun h => absurd h.1 (not_lt.mpr hle)]
      rfl
    · rw [Interrupt.made, if_neg fun h => absurd h.1 (not_lt.mpr hle)]
      change ({ k.2 with inIsr := false } : Books) = _
      rw [List.append_nil, List.append_nil, ← hisr]
  · rw [genericHandleIrq, if_neg hle]
    simp only [Prog.perform_bind, Prog.act_bind]
    refine Outline.alone_act (hin _ henter) trivial fun x => ?_
    split
    · next hhandler =>
      have hmade : i.made k.1 = i.calls := by
        rw [Interrupt.made, if_pos ⟨not_le.mp hle, hhandler⟩]
      -- The parameter that is passed is the one given with the handler.
      have hparam : k.1.param i.irqNo = k.1.given i.irqNo := by
        by_cases hinst : k.2.installing = some i.irqNo
        · exact hi.whole hinst hhandler
        · exact hk hisr _ hinst hhandler
      refine Outline.alone_act (hin _ henter) trivial fun x => ?_
      refine Outline.alone_act (hin _ henter) trivial fun x => ?_
      refine Outline.alone_act (hin _ henter) hparam fun x => ?_
      refine Outline.bind (Outline.bind ((outline_handlerCalls i.calls henter).mono ?_))
      intro _ k' hk'
      rw [hk', ← hmade]
      refine Outline.alone_act (hin _ rfl) trivial fun x => ?_
      exact Outline.alone_ret (hin _ rfl) (Outline.alone_ret (hin _ rfl)
        (hkeeps _ (served_leave hisr x)))
    -- Without a handler the interrupt is completed all the same.
    · next hhandler =>
      have hmade : i.made k.1 = [] := by
        rw [Interrupt.made, if_neg fun h => hhandler h.2]
      refine Outline.alone_act (hin _ henter) trivial fun x => ?_
      refine Outline.alone_act (hin _ henter) trivial fun x => ?_
      refine Outline.alone_ret (hin _ rfl) (hkeeps _ ?_)
      have hserved : (preempted.enter k).2.served [] = (preempted.enter k).2 := by
        simp [Books.served]
      have hleave := served_leave (i := i) hisr x
      rw [hmade, hserved] at hleave
      exact hleave

end Handler

/-- What `WindowsClosed` grants. -/
private def windowGrant : Grant IrqOp Booked IrqAnswer Empty IrqCall Interrupt where
  irq := Apart

private theorem preempted_verified (k₀ : IrqState) :
    Verified preempted Consistent Genuine windowGrant (At k₀) Alone (At k₀ .idle) where
  env e := e.elim
  call c _ hk _ := outline_code c hk
  handler _ _ hk ht hi := outline_handler hk ht hi

/-- The books agree with the calls that have returned. -/
theorem At.sameBooks {k₀ : IrqState} {k : Booked} (h : At k₀ .idle k) :
    SameBooks (afterCalls k.2.returned k₀) k.1 := by
  have hlines : ∀ i, (afterCalls k.2.returned k₀).line i = k.1.line i := fun i =>
    (h.others i (by simp [Task.call])).symm
  obtain ⟨hhandler, hparam, hname, hrec, henable, -⟩ := lines_ext hlines
  exact ⟨hhandler, hparam, hname, hrec, henable⟩

/-- **Outside of the windows registration is atomic.** For every sequence of calls of the task,
and every interleaving with interrupts that keep to themselves. -/
theorem serialised_of_windowsClosed (enable : ℕ → Word) (threshold : Word) (meie mie : Bool)
    (inService : ℕ → Bool) (as : List (Act IrqAnswer Empty IrqCall Interrupt))
    (has : EachStep preempted.step WindowsClosed
      (.start (initialised enable threshold meie mie inService, {})) as) :
    Throughout preempted.step (Serialised (initialised enable threshold meie mie inService))
      (.start (initialised enable threshold meie mie inService, {})) as := by
  have hgrant : EachStep preempted.step (windowGrant.Allows preempted)
      (.start (initialised enable threshold meie mie inService, {})) as := by
    refine has.mono fun s a ha => ?_
    cases a with
    | run x => exact fun _ _ => trivial
    | env e => exact e.elim
    | call c => exact fun _ => trivial
    | irq i => exact ha
  have hidle : At (initialised enable threshold meie mie inService) .idle
      (initialised enable threshold meie mie inService, {}) := by
    refine ⟨rfl, rfl, rfl, rfl, rfl, List.Perm.refl _, fun _ _ => rfl, trivial, fun i _ h => ?_⟩
    exact absurd rfl h
  have hstart : Outline (preempted.contract Consistent Genuine windowGrant.access)
      (At (initialised enable threshold meie mie inService)) (.ret ())
      (fun _ => At (initialised enable threshold meie mie inService) .idle)
      (initialised enable threshold meie mie inService, {}) :=
    Outline.ret _ hidle (fun _ hk => hk.consistent) fun _ hk => hk
  have hv := preempted_verified (initialised enable threshold meie mie inService)
  refine ((hv.throughout hstart hgrant).and (hv.throughout_idle hstart hgrant)).mono ?_
  rintro s ⟨⟨-, hok⟩, hbooks⟩
  refine ⟨hok, fun hs => ⟨s.k.2.returned, (hbooks hs).perm, ?_⟩⟩
  refine (total_afterCalls _ _).mono fun _ k hk => ?_
  rw [hk]
  exact (hbooks hs).sameBooks

/-- Source 5 is requested, and its interrupt switches source 40 off while the task has read the
other word of the bitmap to switch source 6 on. -/
theorem serialised_two_words :
    Throughout preempted.step (Serialised (initialised (fun _ => 0) 0 false false fun _ => false))
      (.start (initialised (fun _ => 0) 0 false false fun _ => false, {}))
      ([.call (.request 5 1 10 none)] ++ List.replicate 16 (.run default) ++
        [.call (.enable 6)] ++ List.replicate 4 (.run default) ++ [.irq ⟨5, [.disable 40]⟩] ++
        List.replicate 24 (.run default)) :=
  serialised_of_windowsClosed (fun _ => 0) 0 false false (fun _ => false) _ (by decide)

/-- Source 5 is enabled and requested again with another handler and parameter: an interrupt
between the two stores calls the new handler with the old parameter. -/
theorem handler_called_with_old_parameter :
    ¬∀ as : List (Act IrqAnswer Empty IrqCall Interrupt), Throughout preempted.step
      (Serialised (initialised (fun _ => 0) 0 false false fun _ => false))
      (.start (initialised (fun _ => 0) 0 false false fun _ => false, {})) as := by
  intro h
  have hend := (h ([.call (.request 5 1 10 none)] ++ List.replicate 16 (.run default) ++
    [.call (.request 5 2 20 none)] ++ List.replicate 2 (.run default) ++ [.irq ⟨5, []⟩] ++
    List.replicate 3 (.run default))).last.1 (.dispatch 5 2 10) rfl
  exact absurd (show (10 : ℕ) = 20 from hend) (by decide)

end Irq

end C906Firmware
