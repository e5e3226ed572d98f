import C906Firmware.Interaction.Run

/-!
# Accounts of accesses and simulation

An `Account` says what accesses do in terms of an abstract state: what a program has to see to
before it makes an access (`ok`), which answers and next states may then come of it (`step`),
and whether the program may stop short (`halt`). `Does` is correctness over an account, by
symbolic execution of the program.

A contract **simulates** an account through a relation of its states to abstract ones if each
access that the account permits meets the contract, and does something the account allows
(`Simulates`). What a program does over the account it then does over the contract, with the
contract's invariant at every state on the way (`Sure`), whatever the environment decides within
the contract's conditions (`Does.sure`).
-/

namespace Interaction

variable {Op : Type} {Ret : Op → Type} {α β σ K A S : Type}

/-- The program ends from `k`, with a result and a state satisfying `Q`, or stops short, where
that is allowed, and meets the contract at every access and at the end. -/
def Sure (C : Contract Ret K A) (halt : Prop) : Prog Ret α → (α → K → Prop) → K → Prop
  | .ret a, Q, k => C.inv k ∧ Q a k
  | .stop, _, k => C.inv k ∧ halt
  | .act o f, Q, k => C.inv k ∧ C.ok o k ∧
      ∀ x, C.cond o x k → Sure C halt (f (C.exec o x k).1) Q (C.exec o x k).2

namespace Sure

variable {C : Contract Ret K A} {halt : Prop} {Q R : α → K → Prop} {k : K}

theorem inv {p : Prog Ret α} (h : Sure C halt p Q k) : C.inv k := by
  cases p with
  | ret a => exact h.1
  | stop => exact h.1
  | act o f => exact h.1

theorem mono {p : Prog Ret α} (h : Sure C halt p Q k) (hQ : ∀ a k, Q a k → R a k) :
    Sure C halt p R k := by
  induction p generalizing k with
  | ret a => exact ⟨h.1, hQ a k h.2⟩
  | stop => exact h
  | act o f ih => exact ⟨h.1, h.2.1, fun x hx => ih _ (h.2.2 x hx)⟩

/-- Where a decision is always within the conditions, the contract is met when every decision is
that one. -/
theorem after {x : A} (hx : ∀ o k, C.cond o x k) {p : Prog Ret α} (h : Sure C halt p Q k) :
    C.inv (p.after C.exec x k) := by
  induction p generalizing k with
  | ret a => exact h.1
  | stop => exact h.1
  | act o f ih => exact ih _ (h.2.2 x (hx o k))

/-- The result and the last state of a piece that is evaluated. -/
theorem eval {x : A} (hx : ∀ o k, C.cond o x k) {p : Prog Ret α} (h : Sure C halt p Q k) {a : α}
    (hrun : (p.run C.exec k fun _ => x).map Prod.fst = some a) : Q a (p.after C.exec x k) := by
  induction p generalizing k with
  | ret b =>
    obtain rfl := Option.some.inj hrun
    exact h.2
  | stop => cases hrun
  | act o f ih => exact ih _ (h.2.2 x (hx o k)) hrun

/-- The rule of sequencing. -/
theorem bind {p : Prog Ret α} {f : α → Prog Ret β} {Q : β → K → Prop}
    (h : Sure C halt p (fun a => Sure C halt (f a) Q) k) : Sure C halt (p >>= f) Q k := by
  induction p generalizing k with
  | ret a => exact h.2
  | stop => exact h
  | act o g ih => exact ⟨h.1, h.2.1, fun x hx => ih _ (h.2.2 x hx)⟩

/-- A run in which every access is made on the conditions meets the contract throughout. -/
theorem visits {p : Prog Ret α} (h : Sure C halt p Q k) {xs : ℕ → A}
    (hcond : p.Visits C.exec C.cond (fun _ => True) k xs) :
    p.Visits C.exec (fun o x k => C.inv k ∧ C.ok o k ∧ C.cond o x k) C.inv k xs := by
  induction p generalizing k xs with
  | ret a => exact h.1
  | stop => exact h.1
  | act o f ih => exact ⟨⟨h.1, h.2.1, hcond.1⟩, ih _ (h.2.2 (xs 0) hcond.1) hcond.2⟩

/-- Without conditions, a program that may not stop short always ends. -/
theorem total {exec : (o : Op) → A → K → Ret o × K} {p : Prog Ret α}
    (h : Sure (Contract.free exec) False p Q k) : Total exec p Q k := by
  induction p generalizing k with
  | ret a => exact h.2
  | stop => exact h.2
  | act o f ih => exact fun x => ih _ (h.2.2 x trivial)

end Sure

/-- What accesses do, in terms of an abstract state. -/
structure Account (Ret : Op → Type) (S : Type) where
  /-- Programs may stop short. -/
  halt : Prop
  /-- The program has to see to this before the access. -/
  ok : Op → S → Prop
  /-- The answers and next states that may come of the access. -/
  step : (o : Op) → S → Ret o → S → Prop

/-- The program ends over the account, with a result and a state satisfying `R`, or stops short,
where that is allowed. -/
def Does (M : Account Ret S) : Prog Ret α → (α → S → Prop) → S → Prop
  | .ret a, R, s => R a s
  | .stop, _, _ => M.halt
  | .act o f, R, s => M.ok o s ∧ ∀ r s', M.step o s r s' → Does M (f r) R s'

namespace Does

variable {M : Account Ret S} {P R : α → S → Prop} {s : S}

theorem mono {p : Prog Ret α} (h : Does M p P s) (hR : ∀ a s, P a s → R a s) :
    Does M p R s := by
  induction p generalizing s with
  | ret a => exact hR a s h
  | stop => exact h
  | act o f ih => exact ⟨h.1, fun r s' hs => ih r (h.2 r s' hs)⟩

/-- The rule of sequencing. -/
theorem bind {p : Prog Ret α} {f : α → Prog Ret β} {R : β → S → Prop}
    (h : Does M p (fun a => Does M (f a) R) s) : Does M (p >>= f) R s := by
  induction p generalizing s with
  | ret a => exact h
  | stop => exact h
  | act o g ih => exact ⟨h.1, fun r s' hs => ih r (h.2 r s' hs)⟩

/-- The rule of sequencing, from a specification of the first part. -/
theorem seq {p : Prog Ret α} {f : α → Prog Ret β} {R : β → S → Prop} (h : Does M p P s)
    (hf : ∀ a s', P a s' → Does M (f a) R s') : Does M (p >>= f) R s :=
  bind (h.mono hf)

/-- A program's end as a step of its own. -/
theorem last {p : Prog Ret α} (h : Does M (p >>= .ret) R s) : Does M p R s := by
  rwa [Prog.bind_ret] at h

/-- The rule of an access. -/
theorem act {o : Op} {f : Ret o → Prog Ret α} (hok : M.ok o s)
    (h : ∀ r s', M.step o s r s' → Does M (f r) R s') : Does M (.act o f) R s :=
  ⟨hok, h⟩

theorem ite {c : Prop} [Decidable c] {p q : Prog Ret α} (hp : c → Does M p R s)
    (hq : ¬c → Does M q R s) : Does M (if c then p else q) R s := by
  split
  · next h => exact hp h
  · next h => exact hq h

/-- The rule for a list, for an assertion of what is still to be done. -/
theorem forEach {P : List σ → S → Prop} {body : σ → Prog Ret Unit}
    (hbody : ∀ x xs s, P (x :: xs) s → Does M (body x) (fun _ => P xs) s) {xs : List σ}
    (h : P xs s) : Does M (.forEach body xs) (fun _ => P []) s := by
  induction xs generalizing s with
  | nil => exact h
  | cons x xs ih => exact bind ((hbody x xs s h).mono fun _ _ => ih)

/-- The rule for a loop, for an assertion of the loop state and, unless the loop may stop short,
a measure that falls. -/
theorem iterate {P : σ → S → Prop} {Q : β → S → Prop} (f : σ → S → ℕ)
    {body : σ → Prog Ret (σ ⊕ β)}
    (hbody : ∀ x s, P x s → Does M (body x) (fun r s' =>
      (∀ x', r = .inl x' → P x' s' ∧ (M.halt ∨ f x' s' < f x s)) ∧ ∀ b, r = .inr b → Q b s') s)
    {fuel : ℕ} {x : σ} {s : S} (hfuel : M.halt ∨ f x s < fuel) (h : P x s) :
    Does M (.iterate body fuel x) Q s := by
  induction fuel generalizing x s with
  | zero => exact hfuel.resolve_right (Nat.not_lt_zero _)
  | succ fuel ih =>
    refine seq (hbody x s h) ?_
    rintro (x' | b) s' ⟨hnext, hdone⟩
    · obtain ⟨hP, hlt⟩ := hnext x' rfl
      refine ih ?_ hP
      rcases hfuel with hhalt | hfuel
      · exact .inl hhalt
      · exact hlt.imp_right fun hlt => by omega
    · exact hdone b rfl

end Does

/-- The contract does what the account says, through the relation `At`. -/
structure Simulates (C : Contract Ret K A) (M : Account Ret S) (At : S → K → Prop) : Prop where
  inv : ∀ s k, At s k → C.inv k
  ok : ∀ o s k, At s k → M.ok o s → C.ok o k
  step : ∀ o s k x, At s k → M.ok o s → C.cond o x k →
    ∃ s', M.step o s (C.exec o x k).1 s' ∧ At s' (C.exec o x k).2

/-- What a program does over the account it does over a contract that simulates it. -/
theorem Does.sure {C : Contract Ret K A} {M : Account Ret S} {At : S → K → Prop}
    (hsim : Simulates C M At) {p : Prog Ret α} {R : α → S → Prop} {s : S} {k : K}
    (h : Does M p R s) (hAt : At s k) :
    Sure C M.halt p (fun a k' => ∃ s', At s' k' ∧ R a s') k := by
  induction p generalizing s k with
  | ret a => exact ⟨hsim.inv s k hAt, s, hAt, h⟩
  | stop => exact ⟨hsim.inv s k hAt, h⟩
  | act o f ih =>
    obtain ⟨hok, hnext⟩ := h
    refine ⟨hsim.inv s k hAt, hsim.ok o s k hAt hok, fun x hx => ?_⟩
    obtain ⟨s', hstep, hAt'⟩ := hsim.step o s k x hAt hok hx
    exact ih _ (hnext _ s' hstep) hAt'

end Interaction
