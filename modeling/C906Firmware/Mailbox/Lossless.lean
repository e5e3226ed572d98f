import C906Firmware.Mailbox.PollOutline

/-!
# Words received by the polling task

The task calls `msgbox_poll` again and again (`platform_poll` in `main_task`; the calls made
by `msgbox_irq_handler` are calls of the same code) while the peer pushes words at any moment.

Every word is accounted for as long as the read that `msgbox_poll` makes although nothing is
pending (the "HW quirk" read) finds the FIFO empty; a word pushed between the two accesses is
popped by that read and lost. The condition is exact (`noWordLost_iff`).
-/

namespace C906Firmware

open Interaction

/-- What `mb->rx_cb` runs: any code that leaves the receive channel alone. -/
structure RxCallback where
  run : Word → Code Unit
  foreign : ∀ d, (run d).Only RxChannel.Foreign

/-- A foreground call that drains the message box, with the bound of the loop of
`msgbox_poll`. -/
inductive DrainCall
  | poll (fuel : ℕ)
  | irqHandler (fuel : ℕ)

/-- The code of a foreground call. -/
def DrainCall.code (cb : RxCallback) : DrainCall → Code Unit
  | .poll fuel => msgboxPoll cb.run fuel
  | .irqHandler fuel => msgboxIrqHandler cb.run fuel

namespace RxChannel

/-- The task alone with the message box and its peer: no interrupt is taken. -/
def taskAlone (cb : RxCallback) : Machine Ret RxChannel Answer Word DrainCall Empty where
  exec := exec
  env := push
  call := DrainCall.code cb
  handler := Empty.elim
  takes := fun _ => false
  enter := id
  leave := id

/-- Every word pushed has been passed to `rx_cb` once, in the order of the pushes, or is the
one word that a running `msgbox_poll` holds, or is in the FIFO. -/
def NoWordLost (s : Config Ret RxChannel) : Prop :=
  s.k.delivered ++ (s.k.held false).toList.map Sample.word ++ s.k.fifo = s.k.pushed ∧
    (s.Idle → s.k.held false = none)

/-- A read whose value is discarded finds the FIFO empty. -/
def QuirkReadsEmpty (s : Config Ret RxChannel) : Act Answer Word DrainCall Empty → Prop
  | .run _ => s.next = some (.readFifo .quirk) → s.k.nonempty = false
  | _ => True

/-- What `QuirkReadsEmpty` grants. -/
private def quirkGrant : Grant Op RxChannel Answer Word DrainCall Empty where
  access o _ k := o = .readFifo .quirk → k.nonempty = false

/-- The assertions of the task alone account for every word. -/
private theorem At.accounted {k : RxChannel} {p : Point} (h : At false true false p k) :
    k.delivered ++ (k.held false).toList.map Sample.word ++ k.fifo = k.pushed := by
  have hquiet (h : Quiet k false true) :
      k.delivered ++ (k.held false).toList.map Sample.word ++ k.fifo = k.pushed := by
    simp only [fifo, delivered, h.held, h.ledger.complete rfl, Option.toList_none, List.map_nil,
      List.append_nil, List.take_append_drop]
  cases p with
  | quiet => exact hquiet h
  | pending => exact hquiet h.1
  | holding n d v counted =>
    have hn : n < k.pushed.length := (List.getElem?_eq_some_iff.mp h.word).1
    have hd : k.pushed[n] = d := (List.getElem?_eq_some_iff.mp h.word).2
    simp only [fifo, delivered, h.held, h.popped, h.ledger.complete rfl, Function.update_self,
      Option.toList_some, List.map_cons, List.map_nil]
    rw [← hd, List.append_assoc, List.singleton_append, ← List.drop_eq_getElem_cons hn,
      List.take_append_drop]

private theorem taskAlone_contract (cb : RxCallback) :
    PollContract ((taskAlone cb).contract (fun k => ∃ p, At false true false p k)
      (fun _ _ => True) quirkGrant.access) false true false where
  exec := rfl
  inv := fun p _ h => ⟨p, h⟩
  ok := fun _ _ => trivial
  quirk := fun _ _ h _ => h rfl
  data := fun _ _ _ h _ => absurd h (by simp)

private theorem taskAlone_verified (cb : RxCallback) :
    Verified (taskAlone cb) (fun k => ∃ p, At false true false p k) (fun _ _ => True) quirkGrant
      (At false true false) (At false true false) (fun k => Quiet k false true) where
  env := fun w _ _ _ => ⟨fun _ h => At.push h w, fun _ h => At.push h w⟩
  call := by
    intro c k hk _
    cases c with
    | poll fuel => exact (taskAlone_contract cb).poll cb.foreign fuel hk
    | irqHandler fuel => exact (taskAlone_contract cb).irqHandler cb.foreign fuel hk
  handler := fun h => h.elim

theorem init_quiet (strict : Bool) : Quiet init false strict where
  context := rfl
  held := rfl
  ledger := ⟨by simp [init], by simp [init], by simp [init], by simp [init]⟩
  callback := by simp [init]
  count := by simp [init, nonzeroCalls, delivered]

/-- A discarding read of a FIFO that is not empty loses the word. -/
private theorem lost_of_quirk {cb : RxCallback} {s : Config Ret RxChannel} {x : Answer}
    (hs : NoWordLost s) (hq : s.next = some (.readFifo .quirk)) (hne : s.k.nonempty = true) :
    ¬NoWordLost ((taskAlone cb).step s (.run x)) := by
  have hlt : s.k.popped < s.k.pushed.length := by simpa [nonempty] using hne
  have hk : ((taskAlone cb).step s (.run x)).k = { s.k with popped := s.k.popped + 1 } := by
    rw [(taskAlone cb).step_run_k hq x]
    simp only [taskAlone, exec, pop, List.getElem?_eq_getElem hlt]
  rintro ⟨h, -⟩
  rw [hk] at h
  -- the two accounts have the same deliveries and differ by the popped word
  have hlen := congrArg List.length hs.1
  have hlen' := congrArg List.length h
  simp only [delivered, fifo, List.length_append, List.length_drop] at hlen hlen'
  omega

/-- **The receive channel loses no word exactly if every discarding read finds the FIFO
empty.** For every callback, every sequence of pushes and every interleaving of them with the
accesses of successive calls. -/
theorem noWordLost_iff (cb : RxCallback) (as : List (Act Answer Word DrainCall Empty)) :
    Throughout (taskAlone cb).step NoWordLost (.start init) as ↔
      EachStep (taskAlone cb).step QuirkReadsEmpty (.start init) as := by
  constructor
  · refine eachStep_of_throughout fun s a hs hs' => ?_
    cases a with
    | run x =>
      intro hq
      cases hne : s.k.nonempty with
      | false => rfl
      | true => exact absurd hs' (lost_of_quirk hs hq hne)
    | env w => trivial
    | call c => trivial
    | irq h => trivial
  · intro has
    have hgrant : EachStep (taskAlone cb).step (quirkGrant.Allows (taskAlone cb))
        (.start init) as := by
      refine has.mono fun s a ha => ?_
      cases a with
      | run x => exact fun o ho hq => ha (hq ▸ ho)
      | env w => trivial
      | call c => exact fun _ => trivial
      | irq h => exact h.elim
    have hstart := (taskAlone_contract cb).ret (Q := fun _ k => Quiet k false true) (a := ())
      .quiet (init_quiet true) fun _ h => h
    have hinv := (taskAlone_verified cb).throughout hstart hgrant
    have hidle := (taskAlone_verified cb).throughout_idle hstart hgrant
    refine (hinv.and hidle).mono fun s hs => ?_
    obtain ⟨⟨⟨p, hp⟩, -⟩, hq⟩ := hs
    exact ⟨hp.accounted, fun h => by simp [(hq h).held]⟩

/-- A word pushed between the status read that finds nothing and the discarding read is
lost. -/
theorem word_lost_between_status_and_quirk :
    ¬∀ (cb : RxCallback) (as : List (Act Answer Word DrainCall Empty)),
      Throughout (taskAlone cb).step NoWordLost (.start init) as := by
  intro h
  have hend := (h ⟨fun _ => pure (), fun _ => trivial⟩
    [.call (.poll 1), .run default, .env 1, .run default]).last.1
  exact absurd hend (by decide)

end RxChannel

end C906Firmware
