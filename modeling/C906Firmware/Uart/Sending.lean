import C906Firmware.Interaction.Run
import C906Firmware.Model.Uart

/-!
# Sending bytes

`uart_send_byte` polls the status register every second access until the transmitter is ready
or its rounds are used up. `sendEach` makes a series of calls; what it puts into the transmit
holding register is what the calls accepted, and all bytes are accepted if and only if the
transmitter gets ready in time for each (`InTime`).
-/

namespace C906Firmware

open Interaction

namespace Uart

/-- The transmitter is ready. -/
def Ready (x : Response) : Prop := x.status &&& UART_LSR_THRE ≠ 0

instance (x : Response) : Decidable (Ready x) := inferInstanceAs (Decidable (_ ≠ _))

/-- The first poll that finds the transmitter ready is poll `j`. -/
def FirstReady (j : ℕ) (xs : ℕ → Response) : Prop :=
  Ready (xs (2 * j)) ∧ ∀ i < j, ¬Ready (xs (2 * i))

/-- The transmitter gets ready in time for each of `n` bytes sent one after the other. -/
def InTime : ℕ → (ℕ → Response) → Prop
  | 0, _ => True
  | n + 1, xs => ∃ j ≤ UART_TIMEOUT_US, FirstReady j xs ∧ InTime n fun i => xs (i + (2 * j + 2))

/-- Call `uart_send_byte` for each byte; the result is the bytes for which it reported
`UART_OK`. -/
def sendEach : List Byte → UartCode (List Byte)
  | [] => pure []
  | b :: rest => do
    let status ← uartSendByte b
    let accepted ← sendEach rest
    pure (if status = .ok then b :: accepted else accepted)

variable {u : Uart} {xs : ℕ → Response}

/-! ### One byte -/

/-- Time passing leaves the latch as it is. -/
theorem latchOpen_settle (x : Response) : (u.settle x).latchOpen ↔ u.latchOpen := by
  unfold settle
  split <;> rfl

/-- Nothing has changed but the halt register, and `bytes` have been put into the transmit
holding register. -/
def Sent (u : Uart) (bytes : List Byte) (u' : Uart) : Prop :=
  u' = { u with halt := u'.halt, sent := u.sent ++ bytes }

theorem Sent.refl (u : Uart) : Sent u [] u := by simp [Sent]

/-- What is sent later comes behind what was sent before. -/
theorem Sent.trans {u' u'' : Uart} {bytes bytes' : List Byte} (h : Sent u bytes u')
    (h' : Sent u' bytes' u'') : Sent u (bytes ++ bytes') u'' := by
  rw [Sent] at h h' ⊢
  rw [h', h]
  simp

theorem Sent.settle (u : Uart) (x : Response) : Sent u [] (u.settle x) := by
  unfold Uart.settle
  split <;> simp [Sent]

/-- Sending leaves the latch as it is. -/
theorem Sent.latchOpen {u' : Uart} {bytes : List Byte} (h : Sent u bytes u') :
    u'.latchOpen ↔ u.latchOpen := by
  rw [Sent] at h
  rw [h]
  rfl

theorem read_lsr (x : Response) : u.read x UART_LSR = x.status := by
  simp [read, UART_LSR, UART_LCR, UART_HALT, UART_DLL, UART_DLH]

/-- The test of the polling loop of `uart_send_byte`. -/
private abbrev threSet (v : Byte) : Bool := v &&& UART_LSR_THRE ≠ 0

/-- The poll ends with the first status that says ready, if there is one in time. -/
theorem poll_ready {timeout j : ℕ} (hj : j ≤ timeout) (h : FirstReady j xs) :
    ∃ u', (uartPoll UART_LSR threSet timeout).run exec u xs = some (true, u') ∧
      (uartPoll UART_LSR threSet timeout).left exec u xs = (fun i => xs (i + (2 * j + 1))) ∧
      Sent u [] u' := by
  induction j generalizing timeout u xs with
  | zero =>
    have hready : threSet ((u.settle (xs 0)).read (xs 0) UART_LSR) = true := by
      rw [read_lsr]
      exact decide_eq_true h.1
    refine ⟨u.settle (xs 0), ?_⟩
    rcases timeout with - | timeout
    · exact ⟨congrArg (fun b => some (b, u.settle (xs 0))) hready, rfl, Sent.settle u _⟩
    · simp only [uartPoll, Prog.perform_bind, Prog.run, Prog.left, exec, hready, if_true]
      exact ⟨rfl, rfl, Sent.settle u _⟩
  | succ j ih =>
    obtain ⟨timeout, rfl⟩ : ∃ n, timeout = n + 1 := ⟨timeout - 1, by omega⟩
    have hnot : threSet ((u.settle (xs 0)).read (xs 0) UART_LSR) = false := by
      rw [read_lsr]
      exact decide_eq_false (h.2 0 (by omega))
    have hrest : FirstReady j fun i => xs (i + 2) := by
      refine ⟨h.1, fun i hi => ?_⟩
      exact h.2 (i + 1) (by omega)
    obtain ⟨u', hrun, hleft, hsent⟩ :=
      ih (u := (u.settle (xs 0)).settle (xs 1)) (Nat.le_of_succ_le_succ hj) hrest
    refine ⟨u', ?_, ?_, ?_⟩
    · simp only [uartPoll, Prog.perform_bind, Prog.run, exec, hnot]
      exact hrun
    · simp only [uartPoll, Prog.perform_bind, Prog.left, exec, hnot]
      exact hleft
    · exact (((Sent.settle u (xs 0)).trans (Sent.settle _ (xs 1))).trans hsent)

/-- The poll fails where no status in time says ready. -/
theorem poll_never {timeout : ℕ} (h : ∀ i ≤ timeout, ¬Ready (xs (2 * i))) :
    ∃ u', (uartPoll UART_LSR threSet timeout).run exec u xs = some (false, u') ∧
      Sent u [] u' := by
  induction timeout generalizing u xs with
  | zero =>
    have hnot : threSet ((u.settle (xs 0)).read (xs 0) UART_LSR) = false := by
      rw [read_lsr]
      exact decide_eq_false (h 0 le_rfl)
    exact ⟨_, congrArg (fun b => some (b, u.settle (xs 0))) hnot, Sent.settle u _⟩
  | succ timeout ih =>
    have hnot : threSet ((u.settle (xs 0)).read (xs 0) UART_LSR) = false := by
      rw [read_lsr]
      exact decide_eq_false (h 0 (Nat.zero_le _))
    obtain ⟨u', hrun, hsent⟩ := @ih ((u.settle (xs 0)).settle (xs 1)) (fun i => xs (i + 2))
      fun i hi => h (i + 1) (by omega)
    refine ⟨u', ?_, (((Sent.settle u (xs 0)).trans (Sent.settle _ (xs 1))).trans hsent)⟩
    simp only [uartPoll, Prog.perform_bind, Prog.run, exec, hnot]
    exact hrun

/-- Either some poll of a call finds the transmitter ready, or none does. -/
theorem firstReady_or_never (timeout : ℕ) (xs : ℕ → Response) :
    (∃ j ≤ timeout, FirstReady j xs) ∨ ∀ i ≤ timeout, ¬Ready (xs (2 * i)) := by
  by_cases h : ∃ i, i ≤ timeout ∧ Ready (xs (2 * i))
  · classical
    have hfind := Nat.find_spec h
    refine .inl ⟨Nat.find h, hfind.1, hfind.2, fun i hi hready => ?_⟩
    exact Nat.find_min h hi ⟨hi.le.trans hfind.1, hready⟩
  · push Not at h
    exact .inr h

/-- A byte for which the transmitter gets ready in time is put into the holding register. -/
theorem sendByte_ready {j : ℕ} (hlatch : ¬u.latchOpen) (hj : j ≤ UART_TIMEOUT_US)
    (h : FirstReady j xs) (ch : Byte) :
    ∃ u', (uartSendByte ch).run exec u xs = some (.ok, u') ∧
      (uartSendByte ch).left exec u xs = (fun i => xs (i + (2 * j + 2))) ∧ Sent u [ch] u' := by
  obtain ⟨u₁, hrun, hleft, hsent⟩ := poll_ready (u := u) hj h
  have hlatch₁ : ¬(u₁.settle (xs (2 * j + 1))).latchOpen := by
    rw [latchOpen_settle, hsent.latchOpen]
    exact hlatch
  have hwrite : Sent u [ch] ((u₁.settle (xs (2 * j + 1))).write UART_THR ch) := by
    have hput : Sent (u₁.settle (xs (2 * j + 1))) [ch]
        ((u₁.settle (xs (2 * j + 1))).write UART_THR ch) := by
      simp [Sent, write, hlatch₁]
    exact (hsent.trans (Sent.settle u₁ _)).trans hput
  have hfirst : (uartPoll UART_LSR threSet UART_TIMEOUT_US).left exec u xs 0 =
      xs (2 * j + 1) := by
    rw [hleft]
    exact congrArg xs (Nat.zero_add _)
  refine ⟨_, ?_, ?_, hwrite⟩
  · rw [uartSendByte, Prog.run_bind_of_run hrun]
    simp only [if_true, Prog.perform_bind, Prog.run, exec, hfirst, Prog.pure_eq_ret]
  · rw [uartSendByte, Prog.left_bind_of_run hrun]
    simp only [if_true, Prog.perform_bind, Prog.left, Prog.pure_eq_ret]
    rw [hleft]
    exact funext fun i => congrArg xs (by omega)

/-- A byte for which it does not is not. -/
theorem sendByte_timeout (h : ∀ i ≤ UART_TIMEOUT_US, ¬Ready (xs (2 * i))) (ch : Byte) :
    ∃ u', (uartSendByte ch).run exec u xs = some (.timeout, u') ∧ Sent u [] u' := by
  obtain ⟨u', hrun, hsent⟩ := poll_never (u := u) h
  refine ⟨u', ?_, hsent⟩
  rw [uartSendByte, Prog.run_bind_of_run hrun]
  rfl

/-! ### A series of bytes -/

/-- What a series of calls does. -/
structure SendsEach (u : Uart) (bytes : List Byte) (xs : ℕ → Response) (accepted : List Byte)
    (u' : Uart) : Prop where
  run : (sendEach bytes).run exec u xs = some (accepted, u')
  sent : Sent u accepted u'
  sublist : accepted.Sublist bytes
  all_iff : accepted = bytes ↔ InTime bytes.length xs

/-- The calls put into the holding register the bytes they accept, in order, and these are all
bytes if and only if the transmitter gets ready in time for each. -/
theorem sendEach_run (hlatch : ¬u.latchOpen) (bytes : List Byte) (xs : ℕ → Response) :
    ∃ accepted u', SendsEach u bytes xs accepted u' := by
  induction bytes generalizing u xs with
  | nil => exact ⟨[], u, rfl, Sent.refl u, List.Sublist.refl [], iff_of_true rfl trivial⟩
  | cons b bytes ih =>
    rcases firstReady_or_never UART_TIMEOUT_US xs with ⟨j, hj, hfirst⟩ | hnever
    · obtain ⟨u₁, hrun, hleft, hsent⟩ := sendByte_ready hlatch hj hfirst b
      obtain ⟨accepted, u', h⟩ := ih (mt hsent.latchOpen.1 hlatch) fun i => xs (i + (2 * j + 2))
      refine ⟨b :: accepted, u', ?_, hsent.trans h.sent, h.sublist.cons_cons b, ?_⟩
      · rw [sendEach, Prog.run_bind_of_run hrun, hleft, Prog.run_bind_of_run h.run]
        rfl
      · rw [List.cons_inj_right, h.all_iff]
        refine ⟨fun hrest => ⟨j, hj, hfirst, hrest⟩, ?_⟩
        rintro ⟨j', -, hfirst', hrest⟩
        obtain rfl : j' = j := by
          rcases lt_trichotomy j' j with hlt | heq | hlt
          · exact absurd hfirst'.1 (hfirst.2 j' hlt)
          · exact heq
          · exact absurd hfirst.1 (hfirst'.2 j hlt)
        exact hrest
    · obtain ⟨u₁, hrun, hsent⟩ := sendByte_timeout (u := u) hnever b
      obtain ⟨accepted, u', h⟩ :=
        ih (mt hsent.latchOpen.1 hlatch) ((uartSendByte b).left exec u xs)
      refine ⟨accepted, u', ?_, hsent.trans h.sent, h.sublist.cons b, ?_⟩
      · rw [sendEach, Prog.run_bind_of_run hrun, Prog.run_bind_of_run h.run]
        rfl
      · refine iff_of_false (fun heq => ?_) ?_
        · have hle := h.sublist.length_le
          rw [heq, List.length_cons] at hle
          omega
        · rintro ⟨j, hj, hfirst, -⟩
          exact hnever j hj hfirst.1

end Uart

end C906Firmware
