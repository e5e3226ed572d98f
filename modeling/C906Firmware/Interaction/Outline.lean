import C906Firmware.Interaction.Prog

/-!
# Proof outlines under interference

A `Contract` gives the accesses of a signature a meaning over a state type `K` (`exec`; the
argument of type `A` is what the environment decides at that access) and says what is being
proved about them: `inv` has to hold at every access and at every end, `ok o` has to hold
whenever access `o` is about to be made, and `cond o` may be assumed of each access as it is
made.

Between two accesses of a program other parties may change the state. What they may do is
given by the assertions they **keep**: a family `F : ι → K → Prop` such that interference
takes no state satisfying `F i` to one that does not. An `Outline` of a program attaches facts
to each of its accesses that survive such interference. The proof rules are the usual ones of
sequential programs, with the members of `F` as the assertions of the outline.
-/

namespace Interaction

variable {Op : Type} {Ret : Op → Type} {α β σ K A ι κ : Type}

/-- The meaning of accesses over states `K`, and the properties an outline establishes. -/
structure Contract (Ret : Op → Type) (K A : Type) where
  /-- The answer and the effect of an access, for each decision of the environment. -/
  exec : (o : Op) → A → K → Ret o × K
  /-- Required at every point of the program. -/
  inv : K → Prop
  /-- Required whenever the access is about to be made. -/
  ok : Op → K → Prop
  /-- Granted whenever the access is made. -/
  cond : Op → A → K → Prop

/-- Interference from `k` to `k'` keeps every assertion of the family `F`. -/
def Keeps (F : ι → K → Prop) (k k' : K) : Prop := ∀ i, F i k → F i k'

theorem Keeps.refl (F : ι → K → Prop) (k : K) : Keeps F k k := fun _ h => h

theorem Keeps.trans {F : ι → K → Prop} {k k' k'' : K} (h : Keeps F k k')
    (h' : Keeps F k' k'') : Keeps F k k'' := fun i hi => h' i (h i hi)

variable (C : Contract Ret K A) (F : ι → K → Prop)

/-- A proof outline of a program from state `k` with postcondition `Q`: whatever the
interference has done, the contract is met at the next access, and again after it. -/
def Outline : Prog Ret α → (α → K → Prop) → K → Prop
  | .ret a, Q, k => ∀ k', Keeps F k k' → C.inv k' ∧ Q a k'
  | .stop, _, k => ∀ k', Keeps F k k' → C.inv k'
  | .act o f, Q, k => ∀ k', Keeps F k k' → C.inv k' ∧ C.ok o k' ∧
      ∀ x, C.cond o x k' → Outline (f (C.exec o x k').1) Q (C.exec o x k').2

/-- `Triple P p Q`: from every state satisfying `P`, the program `p` has an outline that ends
in `Q`. -/
def Triple (P : K → Prop) (p : Prog Ret α) (Q : α → K → Prop) : Prop :=
  ∀ k, P k → Outline C F p Q k

variable {C F} {P : K → Prop} {Q R : α → K → Prop}

namespace Outline

/-- The invariant holds now. -/
theorem inv {p : Prog Ret α} {k : K} (h : Outline C F p Q k) : C.inv k := by
  cases p with
  | ret a => exact (h k (Keeps.refl F k)).1
  | stop => exact h k (Keeps.refl F k)
  | act o f => exact (h k (Keeps.refl F k)).1

/-- The next access is safe now. -/
theorem ok_next {p : Prog Ret α} {k : K} (h : Outline C F p Q k) {o : Op}
    (ho : p.next = some o) : C.ok o k := by
  cases p with
  | ret a => cases ho
  | stop => cases ho
  | act o' f =>
    cases ho
    exact (h k (Keeps.refl F k)).2.1

/-- An outline survives interference. -/
theorem keeps {p : Prog Ret α} {k k' : K} (h : Outline C F p Q k) (hk : Keeps F k k') :
    Outline C F p Q k' := by
  cases p with
  | ret a => exact fun k'' h' => h k'' (hk.trans h')
  | stop => exact fun k'' h' => h k'' (hk.trans h')
  | act o f => exact fun k'' h' => h k'' (hk.trans h')

/-- The access made next takes an outline to an outline of the rest. -/
theorem step {o : Op} {f : Ret o → Prog Ret α} {k : K} (h : Outline C F (.act o f) Q k)
    {x : A} (hx : C.cond o x k) : Outline C F (f (C.exec o x k).1) Q (C.exec o x k).2 :=
  (h k (Keeps.refl F k)).2.2 x hx

/-- Weakening the postcondition. -/
theorem mono {p : Prog Ret α} {k : K} (h : Outline C F p Q k)
    (hQ : ∀ a k, Q a k → R a k) : Outline C F p R k := by
  induction p generalizing k with
  | ret a => exact fun k' hk => ⟨(h k' hk).1, hQ a k' (h k' hk).2⟩
  | stop => exact h
  | act o f ih =>
    intro k' hk
    obtain ⟨hinv, hok, hx⟩ := h k' hk
    exact ⟨hinv, hok, fun x hc => ih _ (hx x hc)⟩

/-- An outline for more interference is an outline for less: interference that keeps a larger
family of assertions does less. -/
theorem of_keeps {G : κ → K → Prop} {p : Prog Ret α} {k : K} (h : Outline C F p Q k)
    (hFG : ∀ k k', Keeps G k k' → Keeps F k k') : Outline C G p Q k := by
  induction p generalizing k with
  | ret a => exact fun k' hk => h k' (hFG k k' hk)
  | stop => exact fun k' hk => h k' (hFG k k' hk)
  | act o f ih =>
    intro k' hk
    obtain ⟨hinv, hok, hx⟩ := h k' (hFG k k' hk)
    exact ⟨hinv, hok, fun x hc => ih _ (hx x hc)⟩

/-- The rule of sequencing. -/
theorem bind {p : Prog Ret α} {f : α → Prog Ret β} {Q : β → K → Prop} {k : K}
    (h : Outline C F p (fun a => Outline C F (f a) Q) k) : Outline C F (p >>= f) Q k := by
  induction p generalizing k with
  | ret a => exact (h k (Keeps.refl F k)).2
  | stop => exact h
  | act o g ih =>
    intro k' hk
    obtain ⟨hinv, hok, hx⟩ := h k' hk
    exact ⟨hinv, hok, fun x hc => ih _ (hx x hc)⟩

/-- The end of a program, at an assertion `F i` that implies the postcondition. -/
theorem ret {a : α} {k : K} (i : ι) (hi : F i k) (hinv : ∀ k, F i k → C.inv k)
    (hQ : ∀ k, F i k → Q a k) : Outline C F (.ret a) Q k :=
  fun k' hk => ⟨hinv k' (hk i hi), hQ k' (hk i hi)⟩

/-- A program that never continues, at an assertion `F i`. -/
theorem stop {k : K} (i : ι) (hi : F i k) (hinv : ∀ k, F i k → C.inv k) :
    Outline C F (.stop : Prog Ret α) Q k :=
  fun k' hk => hinv k' (hk i hi)

/-- An access, made at an assertion `F i`. -/
theorem act {o : Op} {f : Ret o → Prog Ret α} {k : K} (i : ι) (hi : F i k)
    (hinv : ∀ k, F i k → C.inv k) (hok : ∀ k, F i k → C.ok o k)
    (hx : ∀ k x, F i k → C.cond o x k →
      Outline C F (f (C.exec o x k).1) Q (C.exec o x k).2) :
    Outline C F (.act o f) Q k :=
  fun k' hk => ⟨hinv k' (hk i hi), hok k' (hk i hi), fun x hc => hx k' x (hk i hi) hc⟩

/-- A single access, made at an assertion `F i`. -/
theorem perform {o : Op} {Q : Ret o → K → Prop} {k : K} (i : ι) (hi : F i k)
    (hinv : ∀ k, F i k → C.inv k) (hok : ∀ k, F i k → C.ok o k)
    (hx : ∀ k x, F i k → C.cond o x k →
      ∀ k', Keeps F (C.exec o x k).2 k' → C.inv k' ∧ Q (C.exec o x k).1 k') :
    Outline C F (.perform o) Q k :=
  act i hi hinv hok fun k x hi hc k' hk' => hx k x hi hc k' hk'

/-- **Frame rule.** A program whose accesses all keep an assertion keeps it. -/
theorem of_only {S : Op → Prop} (i : ι) (hinv : ∀ k, F i k → C.inv k)
    (hok : ∀ o k, S o → F i k → C.ok o k)
    (hexec : ∀ o x k, S o → F i k → C.cond o x k → F i (C.exec o x k).2)
    {p : Prog Ret α} (hp : p.Only S) {k : K} (hk : F i k) :
    Outline C F p (fun _ => F i) k := by
  induction p generalizing k with
  | ret a => exact Outline.ret i hk hinv fun _ h => h
  | stop => exact Outline.stop i hk hinv
  | act o f ih =>
    exact Outline.act i hk hinv (fun k' h => hok o k' hp.1 h) fun k' x h hc =>
      ih _ (hp.2 _) (hexec o x k' hp.1 h hc)

end Outline

namespace Triple

variable {P P' : K → Prop}

theorem conseq {p : Prog Ret α} (h : Triple C F P p Q) (hP : ∀ k, P' k → P k)
    (hQ : ∀ a k, Q a k → R a k) : Triple C F P' p R :=
  fun k hk => (h k (hP k hk)).mono hQ

theorem bind {p : Prog Ret α} {f : α → Prog Ret β} {Q : α → K → Prop} {R : β → K → Prop}
    (h : Triple C F P p Q) (hf : ∀ a, Triple C F (Q a) (f a) R) :
    Triple C F P (p >>= f) R :=
  fun k hk => Outline.bind ((h k hk).mono fun a k' hQ => hf a k' hQ)

/-- **Loop rule.** The loop invariant is a family of assertions indexed by the loop state;
each round keeps it or leaves with the postcondition. It covers every bound on the number of
rounds. -/
theorem iterate {f : σ → Prog Ret (σ ⊕ β)} {I : σ → K → Prop} {Q : β → K → Prop}
    (hstop : ∀ s, Triple C F (I s) (.stop : Prog Ret β) Q)
    (hret : ∀ b, Triple C F (Q b) (.ret b) Q)
    (hf : ∀ s, Triple C F (I s) (f s) fun r k =>
      match r with
      | .inl s' => I s' k
      | .inr b => Q b k) (fuel : ℕ) :
    ∀ s, Triple C F (I s) (.iterate f fuel s) Q := by
  induction fuel with
  | zero => exact hstop
  | succ fuel ih =>
    intro s
    refine Triple.bind (hf s) ?_
    rintro (s' | b)
    · exact ih s'
    · exact hret b

/-- The rule for running one body for each element of a list. -/
theorem forEach {f : σ → Prog Ret Unit} {ss : List σ}
    (hret : Triple C F P (.ret ()) fun _ => P)
    (hf : ∀ s ∈ ss, Triple C F P (f s) fun _ => P) :
    Triple C F P (.forEach f ss) fun _ => P := by
  induction ss with
  | nil => exact hret
  | cons s ss ih =>
    refine Triple.bind (hf s (by simp)) fun _ => ih fun t ht => hf t ?_
    exact List.mem_cons_of_mem s ht

end Triple

end Interaction
