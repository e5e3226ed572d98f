import C906Firmware.Uart.Sending

/-!
# The console

`_write_r` sends the newline-expanded image of its buffer, does not look at what
`uart_send_byte` reports, and returns the length it was given; `uart_send` stops at the first
byte that times out. So the count `_write_r` returns is that of what has been sent if and only
if the transmitter gets ready in time for every byte of the image (`honest_iff`).
-/

namespace C906Firmware

open Interaction

namespace Uart

/-- The image of a buffer on the line: a carriage return before each newline. -/
def expand (buf : List Byte) : List Byte :=
  buf.flatMap fun b => if b = 0x0A then [0x0D, b] else [b]

@[simp]
theorem expand_nil : expand [] = [] := rfl

theorem expand_append (a b : List Byte) : expand (a ++ b) = expand a ++ expand b :=
  List.flatMap_append

theorem expand_cons (b : Byte) (buf : List Byte) :
    expand (b :: buf) = (if b = 0x0A then [0x0D, b] else [b]) ++ expand buf := List.flatMap_cons

/-- `n` is the length of a prefix of the buffer whose image has been sent, possibly with the
carriage return of a newline that timed out. -/
def Reported (u : Uart) (buf : List Byte) (n : ℤ) (u' : Uart) : Prop :=
  ∃ p cr, p <+: buf ∧ n = p.length ∧ u'.sent = u.sent ++ expand p ++ cr ∧
    (cr = [] ∨ cr = [0x0D] ∧ buf[p.length]? = some 0x0A)

/-- Console output is honest: `_write_r` sends the image of a prefix and returns its length, as
`uart_send` does for raw bytes; the whole buffer is sent when the transmitter always gets ready
in time; and it makes no difference whether the buffer is written in two pieces. -/
structure Honest (fd : ℤ) (buf : List Byte) (u : Uart) (xs : ℕ → Response) : Prop where
  reported : ∃ n u', (writeR fd buf).run exec u xs = some (.ok n, u') ∧ Reported u buf n u'
  raw : buf ≠ [] → ∃ n u', (uartSend (some buf)).run exec u xs = some (n, u') ∧
    ∃ p, p <+: buf ∧ n = p.length ∧ u'.sent = u.sent ++ p
  whole : (∀ i, ∃ j ≤ UART_TIMEOUT_US, Ready (xs (i + 2 * j))) →
    ∃ u', (writeR fd buf).run exec u xs = some (.ok buf.length, u') ∧
      u'.sent = u.sent ++ expand buf
  pieces : ∀ a b, buf = a ++ b → ∃ n m r u' u'',
    (writeR fd buf).run exec u xs = some (.ok n, u') ∧
    (writeR fd a >>= fun r => writeR fd b >>= fun r' => pure (r, r')).run exec u xs =
      some ((.ok m, .ok r), u'') ∧ n = m + r ∧ u'' = u'

variable {u : Uart} {xs : ℕ → Response} {fd : ℤ} {α : Type}

/-! ### The loops -/

/-- The first byte is sent first. -/
theorem sendEach_cons_bind (b : Byte) (bytes : List Byte) (p : UartCode α) :
    (sendEach (b :: bytes) >>= fun _ => p) =
      uartSendByte b >>= fun _ => sendEach bytes >>= fun _ => p := by
  simp only [sendEach, bind_assoc, pure_bind]

theorem sendEach_append_bind (a b : List Byte) (p : UartCode α) :
    (sendEach (a ++ b) >>= fun _ => p) = sendEach a >>= fun _ => sendEach b >>= fun _ => p := by
  induction a with
  | nil => rfl
  | cons c a ih => rw [List.cons_append, sendEach_cons_bind, ih, sendEach_cons_bind]

/-- The loop of `_write_r` sends the bytes of the image one after the other. -/
theorem writeLoop_bind (buf : List Byte) (p : UartCode α) :
    (Prog.forEach writeChar buf >>= fun _ => p) = sendEach (expand buf) >>= fun _ => p := by
  induction buf with
  | nil => rfl
  | cons b buf ih =>
    rw [expand_cons, sendEach_append_bind, ← ih, Prog.forEach, bind_assoc]
    by_cases hb : b = 0x0A
    · simp only [writeChar, hb, if_true, sendEach, bind_assoc, pure_bind]
    · simp only [writeChar, hb, if_false, sendEach, bind_assoc, pure_bind]

/-- What `_write_r` does: it returns the length of the buffer, whatever is sent. -/
theorem writeR_run (hlatch : ¬u.latchOpen) (hfd : fd < 3) (buf : List Byte)
    (xs : ℕ → Response) : ∃ accepted u', SendsEach u (expand buf) xs accepted u' ∧
      (writeR fd buf).run exec u xs = some (.ok buf.length, u') := by
  obtain ⟨accepted, u', h⟩ := sendEach_run hlatch (expand buf) xs
  refine ⟨accepted, u', h, ?_⟩
  rw [writeR, if_pos hfd, writeLoop_bind, Prog.run_bind_of_run h.run]
  rfl

/-- Writing in two pieces makes the accesses of writing at once. -/
theorem writeR_pieces (hfd : fd < 3) (a b : List Byte) :
    (writeR fd a >>= fun r => writeR fd b >>= fun r' => pure (r, r')) =
      sendEach (expand (a ++ b)) >>= fun _ => pure (.ok (a.length : ℤ), .ok (b.length : ℤ)) := by
  rw [expand_append, sendEach_append_bind]
  simp only [writeR, if_pos hfd, bind_assoc, pure_bind, writeLoop_bind]

/-- `uart_send` sends a prefix and returns its length. -/
theorem sendLoop_run (hlatch : ¬u.latchOpen) (sent : ℕ) (bytes : List Byte)
    (xs : ℕ → Response) : ∃ p u', p <+: bytes ∧ Sent u p u' ∧
      (uartSendLoop sent bytes).run exec u xs = some (sent + p.length, u') := by
  induction bytes generalizing u xs sent with
  | nil => exact ⟨[], u, List.prefix_rfl, Sent.refl u, rfl⟩
  | cons b bytes ih =>
    rcases firstReady_or_never UART_TIMEOUT_US xs with ⟨j, hj, hfirst⟩ | hnever
    · obtain ⟨u₁, hrun, hleft, hsent⟩ := sendByte_ready hlatch hj hfirst b
      obtain ⟨p, u', hp, hrest, hrun'⟩ :=
        ih (mt hsent.latchOpen.1 hlatch) (sent + 1) fun i => xs (i + (2 * j + 2))
      refine ⟨b :: p, u', List.prefix_cons_inj b |>.2 hp, hsent.trans hrest, ?_⟩
      rw [uartSendLoop, Prog.run_bind_of_run hrun, hleft, if_pos rfl, hrun', List.length_cons,
        Nat.add_assoc, Nat.add_comm 1]
    · obtain ⟨u', hrun, hsent⟩ := sendByte_timeout (u := u) hnever b
      refine ⟨[], u', List.nil_prefix, hsent, ?_⟩
      rw [uartSendLoop, Prog.run_bind_of_run hrun]
      rfl

/-- `uart_send` sends a prefix of the buffer and returns its length. -/
theorem uartSend_run (hlatch : ¬u.latchOpen) {buf : List Byte} (hbuf : buf ≠ [])
    (xs : ℕ → Response) : ∃ p u', p <+: buf ∧ Sent u p u' ∧
      (uartSend (some buf)).run exec u xs = some ((p.length : ℤ), u') := by
  obtain ⟨p, u', hp, hsent, hrun⟩ := sendLoop_run hlatch 0 buf xs
  obtain ⟨b, bytes, rfl⟩ := List.exists_cons_of_ne_nil hbuf
  refine ⟨p, u', hp, hsent, ?_⟩
  have hsend : uartSend (some (b :: bytes)) =
      uartSendLoop 0 (b :: bytes) >>= fun sent => pure (sent : ℤ) := rfl
  rw [hsend, Prog.run_bind_of_run hrun, Nat.zero_add]
  rfl

/-! ### Honest output -/

/-- A transmitter that always gets ready in time is ready in time for every byte. -/
theorem inTime_of_always (h : ∀ i, ∃ j ≤ UART_TIMEOUT_US, Ready (xs (i + 2 * j))) (n : ℕ) :
    InTime n xs := by
  induction n generalizing xs with
  | zero => trivial
  | succ n ih =>
    rcases firstReady_or_never UART_TIMEOUT_US xs with ⟨j, hj, hfirst⟩ | hnever
    · refine ⟨j, hj, hfirst, ih fun i => ?_⟩
      obtain ⟨k, hk, hready⟩ := h (i + (2 * j + 2))
      refine ⟨k, hk, ?_⟩
      have hidx : i + 2 * k + (2 * j + 2) = i + (2 * j + 2) + 2 * k := by omega
      rw [hidx]
      exact hready
    · obtain ⟨j, hj, hready⟩ := h 0
      rw [Nat.zero_add] at hready
      exact absurd hready (hnever j hj)

/-- Output of which the whole length is reported is honest only if all has been sent. -/
theorem Reported.all {buf : List Byte} {u' : Uart} (h : Reported u buf buf.length u') :
    u'.sent = u.sent ++ expand buf := by
  obtain ⟨p, cr, hp, hlen, hsent, hcr⟩ := h
  obtain rfl : p = buf := hp.eq_of_length (by exact_mod_cast hlen.symm)
  rcases hcr with rfl | ⟨-, hnext⟩
  · simpa using hsent
  · simp at hnext

/-- Console output is honest if and only if the transmitter gets ready in time for every byte
of the image. -/
theorem honest_iff (hlatch : ¬u.latchOpen) (hfd : fd < 3) (buf : List Byte)
    (xs : ℕ → Response) : Honest fd buf u xs ↔ InTime (expand buf).length xs := by
  obtain ⟨accepted, u', h, hrun⟩ := writeR_run hlatch hfd buf xs
  have hsent : u'.sent = u.sent ++ accepted := congrArg Uart.sent h.sent
  constructor
  · rintro ⟨⟨n, v, hrun', hreported⟩, -, -, -⟩
    obtain ⟨hn, rfl⟩ := Prod.mk.inj (Option.some.inj (hrun.symm.trans hrun'))
    obtain rfl : (buf.length : ℤ) = n := Except.ok.inj hn
    rw [← h.all_iff]
    exact List.append_cancel_left (hsent.symm.trans hreported.all)
  · intro hready
    obtain rfl : accepted = expand buf := h.all_iff.2 hready
    refine ⟨⟨_, u', hrun, buf, [], List.prefix_rfl, rfl, ?_, .inl rfl⟩, fun hbuf => ?_,
      fun _ => ⟨u', hrun, hsent⟩, ?_⟩
    · rw [hsent, List.append_nil]
    · obtain ⟨p, v, hp, hpsent, hprun⟩ := uartSend_run hlatch hbuf xs
      exact ⟨_, v, hprun, p, hp, rfl, congrArg Uart.sent hpsent⟩
    · rintro a b rfl
      refine ⟨_, a.length, b.length, u', u', hrun, ?_, by simp, rfl⟩
      rw [writeR_pieces hfd, Prog.run_bind_of_run h.run]
      rfl

/-- The registers of a UART that has been set up for 8 data bits. -/
def configured : Uart := ⟨0x03, UART_HALT_FORCECFG, 13, 0, 0, 0, []⟩

/-- A transmitter that is never ready, and an update of `LCR` that is never completed. -/
def silent : ℕ → Response := fun _ => ⟨false, 0⟩

/-- A transmitter that is ready at once. -/
theorem honest_iff_ready :
    Honest 1 [0x61, 0x0A] configured (fun _ => ⟨false, UART_LSR_THRE⟩) ↔
      InTime 3 fun _ => ⟨false, UART_LSR_THRE⟩ :=
  honest_iff (by decide) (by decide) [0x61, 0x0A] _

/-- To a transmitter that is never ready nothing is sent, and `_write_r` reports one byte. -/
theorem write_reports_unsent : ¬Honest 1 [0x61] configured silent := by
  rintro ⟨⟨n, v, hrun, hreported⟩, -, -, -⟩
  have hnever : ∀ i ≤ UART_TIMEOUT_US, ¬Ready (silent (2 * i)) :=
    fun _ _ => (by decide : ¬Ready ⟨false, 0⟩)
  obtain ⟨u', hsend, hsent⟩ := sendByte_timeout (u := configured) hnever 0x61
  have hwrite : (writeR 1 [0x61]).run exec configured silent =
      some (.ok 1, u') := by
    rw [writeR, if_pos (by decide), writeLoop_bind]
    have hexpand : expand [0x61] = [0x61] := by decide
    rw [hexpand, sendEach_cons_bind, Prog.run_bind_of_run hsend]
    rfl
  obtain ⟨hn, rfl⟩ := Prod.mk.inj (Option.some.inj (hwrite.symm.trans hrun))
  obtain rfl : (1 : ℤ) = n := Except.ok.inj hn
  have hsent' : u'.sent = [] := congrArg Uart.sent hsent
  have hall : u'.sent = configured.sent ++ expand [0x61] := hreported.all
  rw [hsent'] at hall
  exact absurd hall (by decide)

end Uart

end C906Firmware
