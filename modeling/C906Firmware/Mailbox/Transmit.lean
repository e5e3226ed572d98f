import C906Firmware.Interaction.Preempt
import C906Firmware.Model.Mailbox
import Mathlib.Tactic.IntervalCases

/-!
# The transmit channel of the message box

`msgbox_send` in two contexts: the task sends, and the mailbox interrupt, which may be taken
between any two accesses of the task, sends any number of words by the same code. The FIFO
holds `fifo_depth = 8` words, shows its occupancy in the message-status register and discards
a write when it is full; the peer pops words at any moment.

A sender reads the occupancy and writes later. The handler's check and write have only pops
between them. Between the task's check and its write, a whole run of the handler may fall: the
write finds room exactly if the words the handler has put are made up for by the free slots
the task has seen and the words the peer has popped (`noWordDropped_iff`).
-/

namespace C906Firmware

open Interaction

/-- How a call of `msgbox_send` ended: its argument, its return value, and the words it put
into the FIFO. -/
structure SendResult where
  data : Word
  ret : ℤ
  put : List Word
  deriving DecidableEq, Repr

/-- A successful call has put its own word and nothing else, a failed one has put nothing. -/
def SendResult.Honest (r : SendResult) : Prop :=
  (r.ret = 0 ∧ r.put = [r.data]) ∨ (r.ret = -1 ∧ r.put = [])

/-- The transmit channel. `cur` and `put` are the argument of the call of `msgbox_send` that
is running in the task (`false`) and in the handler (`true`), and what it has put so far. -/
structure TxChannel where
  fifo : List Word
  /-- Words written to a full FIFO. -/
  dropped : List Word
  inIsr : Bool
  cur : Bool → Word
  put : Bool → List Word
  results : List SendResult
  /-- The occupancy the task has read last. -/
  seen : ℕ
  /-- The number of words put into the FIFO since. -/
  puts : ℕ
  /-- The number of words the peer has popped since. -/
  pops : ℕ

namespace TxChannel

variable (k : TxChannel)

/-- A write to the FIFO register, discarded if the FIFO holds 8 words. -/
def write (d : Word) : TxChannel :=
  if k.fifo.length < 8 then
    { k with
      fifo := k.fifo ++ [d]
      put := Function.update k.put k.inIsr (k.put k.inIsr ++ [d])
      puts := k.puts + 1 }
  else
    { k with dropped := k.dropped ++ [d] }

/-- What each access does to the channel. -/
def exec : (o : Op) → Answer → TxChannel → Ret o × TxChannel
  | .readl .txMsgStatus, x, k =>
    (withField x.word MSG_NUM_MASK (BitVec.ofNat 32 k.fifo.length),
      if k.inIsr then k else { k with seen := k.fifo.length, puts := 0, pops := 0 })
  | .writel .txFifo d, _, k => ((), k.write d)
  | .sendEnter d, _, k =>
    ((), { k with
      cur := Function.update k.cur k.inIsr d
      put := Function.update k.put k.inIsr [] })
  | .sendReturn r, _, k =>
    ((), { k with results := k.results ++ [⟨k.cur k.inIsr, r, k.put k.inIsr⟩] })
  | o, x, k => (x.at o, k)

/-- The comparison of `msgbox_send` with `fifo_depth` reads the occupancy right. -/
theorem lt_fifoDepth_iff {n : ℕ} (h : n ≤ 8) :
    (BitVec.ofNat 32 n &&& MSG_NUM_MASK) < fifoDepth ↔ n < 8 := by
  interval_cases n <;> decide

/-- The peer pops a word, if there is one. -/
def pop (k : TxChannel) : TxChannel :=
  match k.fifo with
  | [] => k
  | _ :: rest => { k with fifo := rest, pops := k.pops + 1 }

/-- The task and the handler as senders: a call sends one word, an interrupt any list of
words. -/
def senders : Machine Ret TxChannel Answer Unit Word (List Word) where
  exec := exec
  env := fun _ => pop
  call := msgboxSendCall
  handler := Prog.forEach msgboxSendCall
  takes := fun k => !k.inIsr
  enter := fun k => { k with inIsr := true }
  leave := fun k => { k with inIsr := false }

/-- The channel after reset. -/
def init : TxChannel where
  fifo := []
  dropped := []
  inIsr := false
  cur := fun _ => 0
  put := fun _ => []
  results := []
  seen := 0
  puts := 0
  pops := 0

/-- No word has been written to a full FIFO, and every call has been honest. -/
def NoWordDropped (s : Config Ret TxChannel) : Prop :=
  s.k.dropped = [] ∧ ∀ r ∈ s.k.results, r.Honest

/-- When the task writes, the words the handler has put since the task's check are fewer than
the free slots the task saw and the words the peer has popped since. -/
def RoomLeft (s : Config Ret TxChannel) : Act Answer Unit Word (List Word) → Prop
  | .run _ => ∀ d, s.next = some (.writel .txFifo d) → s.k.inIsr = false →
      s.k.seen + s.k.puts < 8 + s.k.pops
  | _ => True

/-! ### The balance of the FIFO -/

/-- The occupancy is what the task has seen, plus what was put and less what was popped
since; it never exceeds the depth. -/
structure Balanced : Prop where
  balance : k.fifo.length + k.pops = k.seen + k.puts
  le : k.fifo.length ≤ 8

variable {k}

theorem Balanced.exec (h : k.Balanced) (o : Op) (x : Answer) : (exec o x k).2.Balanced := by
  have hb := h.balance
  have hle := h.le
  have hwrite : ∀ d, (k.write d).Balanced := by
    intro d
    unfold write
    split
    · refine ⟨?_, ?_⟩ <;> simp only [List.length_append, List.length_singleton] <;> omega
    · exact ⟨hb, hle⟩
  cases o with
  | readl r =>
    cases r with
    | txMsgStatus =>
      simp only [TxChannel.exec]
      split
      · exact h
      · exact ⟨rfl, hle⟩
    | _ => exact h
  | writel r d =>
    cases r with
    | txFifo => exact hwrite d
    | _ => exact h
  | sendEnter d => exact ⟨hb, hle⟩
  | sendReturn r => exact ⟨hb, hle⟩
  | _ => exact h

theorem Balanced.pop (h : k.Balanced) : k.pop.Balanced := by
  have hb := h.balance
  have hle := h.le
  unfold TxChannel.pop
  split
  · exact h
  · next heq =>
    rw [heq, List.length_cons] at hb hle
    exact ⟨by simp only; omega, by simp only; omega⟩

/-! ### The outline of a send -/

/-- A point of a call of `msgbox_send` with argument `d`. -/
inductive SendPoint
  | idle
  | running (d : Word)
  /-- A free slot has been seen. -/
  | checked (d : Word)
  | sent (d : Word)

/-- What the context `c` knows at a point. The handler knows that the slot it has seen is
still free, the task does not. -/
def SendPoint.Here (c : Bool) (k : TxChannel) : SendPoint → Prop
  | .idle => True
  | .running d => k.cur c = d ∧ k.put c = []
  | .checked d => (k.cur c = d ∧ k.put c = []) ∧ (c = true → k.fifo.length < 8)
  | .sent d => k.cur c = d ∧ k.put c = [d]

/-- The assertions of the context `c`; those of the handler include that the call it has
interrupted in `k₀` is as it was. -/
structure At (c : Bool) (k₀ : TxChannel) (p : SendPoint) (k : TxChannel) : Prop where
  context : k.inIsr = c
  balanced : k.Balanced
  dropped : k.dropped = []
  honest : ∀ r ∈ k.results, r.Honest
  frame : c = true → k.cur false = k₀.cur false ∧ k.put false = k₀.put false
  here : p.Here c k

variable {c : Bool} {k₀ : TxChannel} {p : SendPoint}

/-- Pops keep every assertion. -/
theorem At.pop (h : At c k₀ p k) : At c k₀ p k.pop := by
  have hlen : k.pop.fifo.length ≤ k.fifo.length := by
    unfold TxChannel.pop
    split
    · exact le_rfl
    · next heq => simp [heq]
  have hsame : k.pop.cur = k.cur ∧ k.pop.put = k.put ∧ k.pop.dropped = k.dropped ∧
      k.pop.results = k.results ∧ k.pop.inIsr = k.inIsr := by
    unfold TxChannel.pop
    split <;> exact ⟨rfl, rfl, rfl, rfl, rfl⟩
  obtain ⟨hcur, hput, hdropped, hresults, hisr⟩ := hsame
  refine ⟨hisr.trans h.context, h.balanced.pop, hdropped.trans h.dropped, ?_, ?_, ?_⟩
  · rw [hresults]
    exact h.honest
  · rw [hcur, hput]
    exact h.frame
  · have hhere := h.here
    cases p with
    | idle => trivial
    | running d => simpa only [SendPoint.Here, hcur, hput] using hhere
    | checked d =>
      refine ⟨by simpa only [hcur, hput] using hhere.1, fun hc => ?_⟩
      exact lt_of_le_of_lt hlen (hhere.2 hc)
    | sent d => simpa only [SendPoint.Here, hcur, hput] using hhere

/-- The status read keeps every assertion. -/
theorem At.status (h : At c k₀ p k) (x : Answer) :
    At c k₀ p (exec (.readl .txMsgStatus) x k).2 := by
  have hbal := h.balanced.exec (.readl .txMsgStatus) x
  cases hisr : k.inIsr with
  | true =>
    simp only [exec, hisr, if_true]
    exact h
  | false =>
    simp only [exec, hisr, Bool.false_eq_true, if_false] at hbal ⊢
    exact ⟨hisr.symm.trans h.context, hbal, h.dropped, h.honest, h.frame, by
      cases p <;> exact h.here⟩

/-- A free slot has been seen. -/
theorem At.check {d : Word} (h : At c k₀ (.running d) k) (hlt : k.fifo.length < 8) :
    At c k₀ (.checked d) k :=
  ⟨h.context, h.balanced, h.dropped, h.honest, h.frame, h.here, fun _ => hlt⟩

/-- A write that finds room puts the word. -/
theorem At.write {d : Word} (h : At c k₀ (.checked d) k) (hroom : k.fifo.length < 8)
    (x : Answer) : At c k₀ (.sent d) (exec (.writel .txFifo d) x k).2 := by
  have hbal := h.balanced.exec (.writel .txFifo d) x
  simp only [exec, TxChannel.write, if_pos hroom] at hbal ⊢
  refine ⟨h.context, hbal, h.dropped, h.honest, ?_, ?_⟩
  · intro hc
    have hne : false ≠ k.inIsr := by
      rw [h.context, hc]
      decide
    simp only [Function.update_of_ne hne]
    exact h.frame hc
  · refine ⟨h.here.1.1, ?_⟩
    simp [h.context, h.here.1.2]

/-- The begin of a call. -/
theorem At.enter (h : At c k₀ .idle k) (d : Word) (x : Answer) :
    At c k₀ (.running d) (exec (.sendEnter d) x k).2 := by
  refine ⟨h.context, h.balanced.exec (.sendEnter d) x, h.dropped, h.honest, ?_, ?_⟩
  · intro hc
    have hne : false ≠ k.inIsr := by
      rw [h.context, hc]
      decide
    simp only [exec, Function.update_of_ne hne]
    exact h.frame hc
  · simp [exec, SendPoint.Here, h.context]

/-- The return of a call that has been honest. -/
theorem At.leave {ret : ℤ} (h : At c k₀ p k) (x : Answer)
    (hr : SendResult.Honest ⟨k.cur c, ret, k.put c⟩) :
    At c k₀ .idle (exec (.sendReturn ret) x k).2 := by
  refine ⟨h.context, h.balanced.exec (.sendReturn ret) x, h.dropped, ?_, h.frame, trivial⟩
  intro r hmem
  simp only [exec, List.mem_append, List.mem_singleton, h.context] at hmem
  rcases hmem with hmem | rfl
  · exact h.honest r hmem
  · exact hr

/-- What the outline of a send needs of a contract. -/
structure SendContract (C : Contract Ret TxChannel Answer) (c : Bool) (k₀ : TxChannel) :
    Prop where
  exec : C.exec = TxChannel.exec
  inv : ∀ p k, At c k₀ p k → C.inv k
  ok : ∀ o k, C.ok o k
  room : ∀ d x k, C.cond (.writel .txFifo d) x k → c = false → k.inIsr = c → k.Balanced →
    k.fifo.length < 8

namespace SendContract

variable {C : Contract Ret TxChannel Answer}

/-- The wait loop ends with a free slot seen, or with no rounds left. -/
theorem wait (hC : SendContract C c k₀) (d : Word) (retry : ℕ) (hk : At c k₀ (.running d) k) :
    Outline C (At c k₀) (msgboxSendWait retry)
      (fun r k => At c k₀ (if r = 0 then .running d else .checked d) k) k := by
  induction retry generalizing k with
  | zero => exact Outline.ret (.running d) hk (hC.inv _) fun k hk => by simpa using hk
  | succ retry ih =>
    simp only [msgboxSendWait, regBitsGet, Prog.perform_bind, Prog.act_bind, Prog.pure_eq_ret,
      Prog.ret_bind]
    refine Outline.act (.running d) hk (hC.inv _) (fun k _ => hC.ok _ k) fun k x hk _ => ?_
    have hnum := lt_fifoDepth_iff hk.balanced.le
    rw [hC.exec]
    have hval : ((TxChannel.exec (.readl .txMsgStatus) x k).1 >>> MSG_NUM_SHIFT) &&&
        MSG_NUM_MASK = BitVec.ofNat 32 k.fifo.length &&& MSG_NUM_MASK := by
      simp only [TxChannel.exec, MSG_NUM_SHIFT, field_withField]
    rw [hval]
    by_cases hlt : k.fifo.length < 8
    · rw [if_pos (hnum.mpr hlt)]
      have hst := (hk.check hlt).status x
      exact Outline.ret (.checked d) hst (hC.inv _) fun k hk => by simpa using hk
    · rw [if_neg (mt hnum.mp hlt)]
      have hst := hk.status x
      refine Outline.act (.running d) hst (hC.inv _) (fun k _ => hC.ok _ k) fun k x hk _ => ?_
      rw [hC.exec]
      exact ih hk

/-- A call of `msgbox_send`, from its begin to its return. -/
theorem call (hC : SendContract C c k₀) (d : Word) (hk : At c k₀ .idle k) :
    Outline C (At c k₀) (msgboxSendCall d) (fun _ k => At c k₀ .idle k) k := by
  simp only [msgboxSendCall, msgboxSend, Prog.perform_bind, bind_assoc]
  refine Outline.act .idle hk (hC.inv _) (fun k _ => hC.ok _ k) fun k x hk _ => ?_
  rw [hC.exec]
  refine Outline.bind ((hC.wait d 5000 (hk.enter d x)).mono fun r k hk => ?_)
  by_cases hr : r = 0
  · simp only [hr, if_true, Prog.pure_eq_ret, Prog.ret_bind] at hk ⊢
    refine Outline.act (.running d) hk (hC.inv _) (fun k _ => hC.ok _ k) fun k x hk _ => ?_
    rw [hC.exec]
    refine Outline.ret .idle (hk.leave x ?_) (hC.inv _) fun _ h => h
    exact .inr ⟨rfl, hk.here.2⟩
  · simp only [hr, if_false, Prog.act_bind, Prog.pure_eq_ret,
      Prog.ret_bind] at hk ⊢
    refine Outline.act (.checked d) hk (hC.inv _) (fun k _ => hC.ok _ k) fun k x hk hx => ?_
    rw [hC.exec]
    have hroom : k.fifo.length < 8 := by
      cases hc : c with
      | false => exact hC.room d x k hx hc hk.context hk.balanced
      | true => exact hk.here.2 hc
    refine Outline.act (.sent d) (hk.write hroom x) (hC.inv _) (fun k _ => hC.ok _ k)
      fun k x hk _ => ?_
    rw [hC.exec]
    refine Outline.ret .idle (hk.leave x ?_) (hC.inv _) fun _ h => h
    exact .inl ⟨rfl, hk.here.2.trans (congrArg (fun w => [w]) hk.here.1.symm)⟩

end SendContract

/-! ### The task and the handler together -/

/-- What `RoomLeft` grants. -/
private def roomGrant : Grant Op TxChannel Answer Unit Word (List Word) where
  access o _ k := ∀ d, o = .writel .txFifo d → k.inIsr = false → k.seen + k.puts < 8 + k.pops

/-- Some assertion of the task or of the handler holds. -/
private def Somewhere (k : TxChannel) : Prop := ∃ c k₀ p, At c k₀ p k

private theorem sender_contract (c : Bool) (k₀ : TxChannel) :
    SendContract (senders.contract Somewhere (fun _ _ => True) roomGrant.access) c k₀ where
  exec := rfl
  inv := fun p _ h => ⟨c, k₀, p, h⟩
  ok := fun _ _ => trivial
  room := by
    intro d x k hx hc hisr hbal
    have hroom := hx d rfl (hisr.trans hc)
    have := hbal.balance
    omega

private theorem senders_verified :
    Verified senders Somewhere (fun _ _ => True) roomGrant (At false init)
      (fun i : TxChannel × SendPoint => At true i.1 i.2) (At false init .idle) where
  env := fun _ _ _ _ => ⟨fun _ h => At.pop h, fun _ h => At.pop h⟩
  call := fun d _ hk _ => (sender_contract false init).call d hk
  handler := by
    rintro ds k ⟨c, k₀, p, hp⟩ ht -
    have hisr : k.inIsr = false := by simpa [senders] using ht
    have henter : At true k .idle { k with inIsr := true } :=
      ⟨rfl, ⟨hp.balanced.balance, hp.balanced.le⟩, hp.dropped, hp.honest, fun _ => ⟨rfl, rfl⟩,
        trivial⟩
    have hC := sender_contract true k
    have hrun := Triple.forEach (P := At true k .idle)
      (fun k hk => Outline.ret .idle hk (hC.inv _) fun _ h => h)
      (fun d (_ : d ∈ ds) k hk => hC.call d hk)
    refine ((hrun _ henter).of_keeps fun a b hab q => hab (k, q)).mono fun _ k' hk' q hq => ?_
    obtain ⟨hcur, hput⟩ := hk'.frame rfl
    refine ⟨rfl, ⟨hk'.balanced.balance, hk'.balanced.le⟩, hk'.dropped, hk'.honest, nofun, ?_⟩
    -- the interrupted call is as it was
    have hhere := hq.here
    cases q with
    | idle => trivial
    | running d => exact ⟨hcur.trans hhere.1, hput.trans hhere.2⟩
    | checked d => exact ⟨⟨hcur.trans hhere.1.1, hput.trans hhere.1.2⟩, nofun⟩
    | sent d => exact ⟨hcur.trans hhere.1, hput.trans hhere.2⟩

theorem init_at : At false init .idle init where
  context := rfl
  balanced := ⟨rfl, by simp [init]⟩
  dropped := rfl
  honest := by simp [init]
  frame := nofun
  here := trivial

/-- A write of the task that the balance leaves no room for is discarded. -/
private theorem dropped_of_no_room {s : Config Ret TxChannel} {x : Answer} {d : Word}
    (hbal : s.k.Balanced) (hs : s.next = some (.writel .txFifo d))
    (hroom : ¬s.k.seen + s.k.puts < 8 + s.k.pops) :
    ¬NoWordDropped (senders.step s (.run x)) := by
  have hfull : ¬s.k.fifo.length < 8 := by
    have := hbal.balance
    omega
  have hk : (senders.step s (.run x)).k = { s.k with dropped := s.k.dropped ++ [d] } := by
    rw [senders.step_run_k hs x]
    simp only [senders, exec, write, if_neg hfull]
  rintro ⟨h, -⟩
  rw [hk] at h
  exact absurd h (by simp)

/-- **No word is written to a full transmit FIFO, and every call of `msgbox_send` is honest,
exactly if the task's writes find room left.** For every sequence of sends of the task, every
nesting of handler runs, and every sequence of pops. -/
theorem noWordDropped_iff (as : List (Act Answer Unit Word (List Word))) :
    Throughout senders.step NoWordDropped (.start init) as ↔
      EachStep senders.step RoomLeft (.start init) as := by
  constructor
  · intro has
    have hbal : Throughout senders.step (fun s => s.k.Balanced) (.start init) as :=
      throughout_of_eachStep (G := fun _ _ => True) (fun _ h => h)
        (fun s a h _ => senders.step_keeps (P := Balanced) (fun o x k h => h.exec o x)
          (fun _ k h => h.pop) (fun k h => ⟨h.balance, h.le⟩) (fun k h => ⟨h.balance, h.le⟩) h a)
        init_at.balanced (eachStep_true _ as)
    refine eachStep_of_throughout (fun s a hs hs' => ?_) (has.and hbal)
    cases a with
    | run x =>
      intro d hd hisr
      by_contra hroom
      exact dropped_of_no_room hs.2 hd hroom hs'.1
    | env e => trivial
    | call d => trivial
    | irq ds => trivial
  · intro has
    have hgrant : EachStep senders.step (roomGrant.Allows senders) (.start init) as := by
      refine has.mono fun s a ha => ?_
      cases a with
      | run x => exact fun o ho d hd hisr => ha d (hd ▸ ho) hisr
      | env e => trivial
      | call d => exact fun _ => trivial
      | irq ds => exact fun _ _ => trivial
    have hstart := Outline.ret (Q := fun _ k => At false init .idle k) (a := ()) .idle init_at
      ((sender_contract false init).inv _) fun _ h => h
    refine (senders_verified.throughout hstart hgrant).mono ?_
    rintro s ⟨⟨c, k₀, p, hp⟩, -⟩
    exact ⟨hp.dropped, hp.honest⟩

/-- Seven words are in the FIFO; the task sees the last free slot, and the handler fills it
before the task writes. -/
theorem word_dropped_on_last_slot :
    ¬∀ as : List (Act Answer Unit Word (List Word)),
      Throughout senders.step NoWordDropped (.start init) as := by
  intro h
  have hend := (h ((List.replicate 7 (.call 1 :: List.replicate 4 (.run default))).flatten ++
    [.call 2, .run default, .run default, .irq [3]] ++ List.replicate 6 (.run default))).last.1
  exact absurd hend (by decide +kernel)

end TxChannel

end C906Firmware
