import C906Firmware.Interaction.Outline
import C906Firmware.Interaction.Schedule

/-!
# One foreground program and its interrupt handler

A `Machine` runs on one processor: a foreground program, started call by call, and a handler
that may be entered between any two accesses of the foreground and then runs to completion
before the foreground goes on. Handlers do not nest. An environment acts on the state at any
moment.

`Machine.step` is total; an action that is impossible in a configuration (a call while the
foreground is busy, an interrupt that is not taken) leaves it unchanged. Schedules of these
actions are all the interleavings.

**Soundness** (`Verified.throughout`): if every foreground call has an outline under
interference by the environment and by whole handler runs, and every handler has an outline
under interference by the environment whose end keeps the assertions of the foreground, then
along every schedule whose actions meet the contract's conditions the invariant holds in
every configuration and no access is about to be made that the contract forbids.
-/

namespace Interaction

variable {Op : Type} {Ret : Op → Type} {α K A E L H ι κ : Type}

/-- A processor: what accesses do, what the environment does, which foreground calls and
which interrupt handlers there are, when an interrupt is taken, and what entering and leaving
the handler does to the state. -/
structure Machine (Ret : Op → Type) (K A E L H : Type) where
  exec : (o : Op) → A → K → Ret o × K
  env : E → K → K
  call : L → Prog Ret Unit
  handler : H → Prog Ret Unit
  takes : K → Bool
  enter : K → K
  leave : K → K

/-- A processor that runs one program, with no interrupt and no environment but the answers. -/
def Machine.alone (exec : (o : Op) → A → K → Ret o × K) : Machine Ret K A Empty Empty Empty where
  exec := exec
  env := Empty.elim
  call := Empty.elim
  handler := Empty.elim
  takes := fun _ => false
  enter := id
  leave := id

/-- What can happen next: the running program makes its access, the environment acts, the
foreground starts a call, an interrupt is taken. -/
inductive Act (A E L H : Type) : Type
  | run (x : A)
  | env (e : E)
  | call (c : L)
  | irq (h : H)

/-- The foreground program, the handler that has preempted it, if any, and the state. -/
structure Config (Ret : Op → Type) (K : Type) where
  fg : Prog Ret Unit
  bg : Option (Prog Ret Unit)
  k : K

namespace Config

/-- The program that is running: the handler, if it has been entered, else the foreground. -/
def running (s : Config Ret K) : Prog Ret Unit := s.bg.getD s.fg

/-- The access made next, if the running program makes one. -/
def next (s : Config Ret K) : Option Op := s.running.next

/-- No call is running and no handler has been entered. -/
def Idle (s : Config Ret K) : Prop := s.fg = .ret () ∧ s.bg = none

/-- The configuration in which nothing runs yet. -/
def start (k : K) : Config Ret K := ⟨.ret (), none, k⟩

end Config

namespace Machine

variable (m : Machine Ret K A E L H)

/-- One action of the processor or of its environment. -/
def step (s : Config Ret K) : Act A E L H → Config Ret K
  | .env e => { s with k := m.env e s.k }
  | .call c =>
    match s.bg, s.fg with
    | none, .ret _ => { s with fg := m.call c }
    | _, _ => s
  | .irq h =>
    match s.bg, m.takes s.k with
    | none, true => { s with bg := some (m.handler h), k := m.enter s.k }
    | _, _ => s
  | .run x =>
    match s.bg, s.fg with
    | some (.act o f), _ =>
      { s with bg := some (f (m.exec o x s.k).1), k := (m.exec o x s.k).2 }
    | some (.ret _), _ => { s with bg := none, k := m.leave s.k }
    | none, .act o f => { s with fg := f (m.exec o x s.k).1, k := (m.exec o x s.k).2 }
    | _, _ => s

/-- The running program makes the access that is next. -/
theorem step_run_k {s : Config Ret K} {o : Op} (h : s.next = some o) (x : A) :
    (m.step s (.run x)).k = (m.exec o x s.k).2 := by
  obtain ⟨fg, bg, k⟩ := s
  rcases bg with - | (u | - | ⟨o', f⟩)
  · rcases fg with u | - | ⟨o', f⟩
    · cases h
    · cases h
    · cases h
      rfl
  · cases h
  · cases h
  · cases h
    rfl

/-- A property of the state that accesses, the environment and the passage into and out of the
handler keep is kept by every action. -/
theorem step_keeps {P : K → Prop} (hexec : ∀ o x k, P k → P (m.exec o x k).2)
    (henv : ∀ e k, P k → P (m.env e k)) (henter : ∀ k, P k → P (m.enter k))
    (hleave : ∀ k, P k → P (m.leave k)) {s : Config Ret K} (h : P s.k) (a : Act A E L H) :
    P (m.step s a).k := by
  obtain ⟨fg, bg, k⟩ := s
  cases a with
  | env e => exact henv e k h
  | call c =>
    rcases bg with - | p
    · rcases fg with u | - | ⟨o, f⟩ <;> exact h
    · exact h
  | irq i =>
    rcases bg with - | p
    · cases ht : m.takes k with
      | false => simpa only [step, ht] using h
      | true =>
        simp only [step, ht]
        exact henter k h
    · exact h
  | run x =>
    rcases bg with - | (u | - | ⟨o, f⟩)
    · rcases fg with u | - | ⟨o, f⟩
      · exact h
      · exact h
      · exact hexec o x k h
    · exact hleave k h
    · exact h
    · exact hexec o x k h

/-- The contract of a machine that is to keep `inv` and to make only the accesses that `ok`
allows, along schedules whose accesses satisfy `cond`. -/
def contract (inv : K → Prop) (ok : Op → K → Prop) (cond : Op → A → K → Prop) :
    Contract Ret K A where
  exec := m.exec
  inv := inv
  ok := ok
  cond := cond

end Machine

/-- What is granted of each action of a schedule. -/
structure Grant (Op K A E L H : Type) where
  access : Op → A → K → Prop := fun _ _ _ => True
  env : E → K → Prop := fun _ _ => True
  call : L → K → Prop := fun _ _ => True
  irq : H → K → Prop := fun _ _ => True

/-- The action is one that is granted. An action that is impossible in the configuration is
granted as it does nothing. -/
def Grant.Allows (g : Grant Op K A E L H) (m : Machine Ret K A E L H) (s : Config Ret K) :
    Act A E L H → Prop
  | .run x => ∀ o, s.next = some o → g.access o x s.k
  | .env e => g.env e s.k
  | .call c => s.Idle → g.call c s.k
  | .irq h => s.bg = none → m.takes s.k = true → g.irq h s.k

/-- The proof obligations of a machine: `F` are the assertions of the foreground, `G` those
of the handler, and `idle` holds between calls. -/
structure Verified (m : Machine Ret K A E L H) (inv : K → Prop) (ok : Op → K → Prop)
    (g : Grant Op K A E L H) (F : ι → K → Prop) (G : κ → K → Prop) (idle : K → Prop) :
    Prop where
  env : ∀ e k, inv k → g.env e k → Keeps F k (m.env e k) ∧ Keeps G k (m.env e k)
  call : ∀ c k, idle k → g.call c k →
    Outline (m.contract inv ok g.access) F (m.call c) (fun _ => idle) k
  handler : ∀ h k, inv k → m.takes k = true → g.irq h k →
    Outline (m.contract inv ok g.access) G (m.handler h) (fun _ k' => Keeps F k (m.leave k'))
      (m.enter k)

namespace Verified

variable {m : Machine Ret K A E L H} {inv : K → Prop} {ok : Op → K → Prop}
  {g : Grant Op K A E L H} {F : ι → K → Prop} {G : κ → K → Prop} {idle : K → Prop}

/-- The running program has an outline; a preempted foreground has one from the state it was
preempted in, whose assertions the end of the handler keeps. -/
private def Outlined (m : Machine Ret K A E L H) (inv : K → Prop) (ok : Op → K → Prop)
    (g : Grant Op K A E L H) (F : ι → K → Prop) (G : κ → K → Prop) (idle : K → Prop)
    (s : Config Ret K) : Prop :=
  match s.bg with
  | none => Outline (m.contract inv ok g.access) F s.fg (fun _ => idle) s.k
  | some p => ∃ k₀, Outline (m.contract inv ok g.access) F s.fg (fun _ => idle) k₀ ∧
      Outline (m.contract inv ok g.access) G p (fun _ k' => Keeps F k₀ (m.leave k')) s.k

private theorem Outlined.holds {s : Config Ret K} (h : Outlined m inv ok g F G idle s) :
    inv s.k := by
  obtain ⟨fg, bg, k⟩ := s
  cases bg with
  | none => exact Outline.inv h
  | some p =>
    obtain ⟨k₀, -, hp⟩ := h
    exact Outline.inv hp

private theorem Outlined.ok_next {s : Config Ret K} (h : Outlined m inv ok g F G idle s)
    {o : Op} (ho : s.next = some o) : ok o s.k := by
  obtain ⟨fg, bg, k⟩ := s
  cases bg with
  | none => exact Outline.ok_next (C := m.contract inv ok g.access) h ho
  | some p =>
    obtain ⟨k₀, -, hp⟩ := h
    exact Outline.ok_next hp ho

/-- **Step lemma.** Every granted action keeps the outlines. -/
private theorem Outlined.step (hv : Verified m inv ok g F G idle) {s : Config Ret K}
    (h : Outlined m inv ok g F G idle s) {a : Act A E L H} (ha : g.Allows m s a) :
    Outlined m inv ok g F G idle (m.step s a) := by
  have hinv := h.holds
  obtain ⟨fg, bg, k⟩ := s
  cases a with
  | env e =>
    obtain ⟨hF, hG⟩ := hv.env e k hinv ha
    cases bg with
    | none => exact Outline.keeps h hF
    | some p =>
      obtain ⟨k₀, hfg, hp⟩ := h
      exact ⟨k₀, hfg, hp.keeps hG⟩
  | call c =>
    cases bg with
    | some p => exact h
    | none =>
      cases fg with
      | ret u => exact hv.call c k (h k (Keeps.refl F k)).2 (ha ⟨rfl, rfl⟩)
      | stop => exact h
      | act o f => exact h
  | irq i =>
    cases bg with
    | some p => exact h
    | none =>
      cases ht : m.takes k with
      | false => simpa only [Machine.step, ht] using h
      | true =>
        simp only [Machine.step, ht]
        exact ⟨k, h, hv.handler i k hinv ht (ha rfl ht)⟩
  | run x =>
    cases bg with
    | none =>
      cases fg with
      | ret u => exact h
      | stop => exact h
      | act o f => exact Outline.step h (ha o rfl)
    | some p =>
      obtain ⟨k₀, hfg, hp⟩ := h
      cases p with
      | ret u => exact hfg.keeps (hp k (Keeps.refl G k)).2
      | stop => exact ⟨k₀, hfg, hp⟩
      | act o f => exact ⟨k₀, hfg, hp.step (ha o rfl)⟩

/-- **Soundness.** Along every schedule of granted actions, from a foreground program with an
outline, the invariant holds and the next access is allowed. -/
theorem throughout (hv : Verified m inv ok g F G idle) {p : Prog Ret Unit} {k : K}
    (hp : Outline (m.contract inv ok g.access) F p (fun _ => idle) k) {as : List (Act A E L H)}
    (has : EachStep m.step (g.Allows m) ⟨p, none, k⟩ as) :
    Throughout m.step (fun s => inv s.k ∧ ∀ o, s.next = some o → ok o s.k) ⟨p, none, k⟩ as :=
  throughout_of_eachStep (I := Outlined m inv ok g F G idle)
    (fun _ h => ⟨h.holds, fun _ => h.ok_next⟩) (fun _ _ h ha => h.step hv ha) hp has

/-- Whenever nothing runs, the assertion that holds between calls does. -/
theorem throughout_idle (hv : Verified m inv ok g F G idle) {p : Prog Ret Unit} {k : K}
    (hp : Outline (m.contract inv ok g.access) F p (fun _ => idle) k) {as : List (Act A E L H)}
    (has : EachStep m.step (g.Allows m) ⟨p, none, k⟩ as) :
    Throughout m.step (fun s => s.Idle → idle s.k) ⟨p, none, k⟩ as := by
  refine throughout_of_eachStep (I := Outlined m inv ok g F G idle) ?_
    (fun _ _ h ha => h.step hv ha) hp has
  rintro ⟨fg, bg, k⟩ h ⟨rfl, rfl⟩
  exact (h k (Keeps.refl F k)).2

end Verified

end Interaction
