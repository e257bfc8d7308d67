import Mathlib.Tactic

/-!
# Programs over atomic operations

A handler of a concurrent server is sequential code whose only effects are calls of shared
operations, each of which is one critical section.  `Prog S α` is such code as a tree: it
returns, throws, or calls an operation of the signature `S` and continues with the result.
Every branch of the tree is finite, so a program always terminates; how its calls interleave
with those of other programs is the business of `Interleaving.lean`.

`Prog.run` executes a program alone, with the nondeterminism of the operations (random draws,
failures) resolved by a stream of choices.  `Prog.Only` says which operations a program can
call at all.  `Prog.Wp` is the weakest precondition under a `Spec`, which says what the calls
require and do and what happens between them over a view of the state that the proof chooses;
`Prog.Leads` is the same where what a call does to the view depends on the rest of the program.
`Prog.Path` is a list of calls that lead from a program to what is left of it.
-/

namespace Concurrency

/-- The interface of a shared state: its operations, what each of them returns, and the
exceptions that code between two operations may raise. -/
structure Signature where
  /-- The operations, with their arguments. -/
  Op : Type
  /-- What an operation returns. -/
  Res : Op → Type
  /-- What sequential code may throw. -/
  Exn : Type

/-- Sequential code over the operations of `S`, returning a value of type `α`. -/
inductive Prog (S : Signature) (α : Type) : Type
  /-- The code has returned. -/
  | ret (a : α)
  /-- An exception has escaped from the code. -/
  | fail (e : S.Exn)
  /-- The code calls an operation and continues with its result. -/
  | call (o : S.Op) (k : S.Res o → Prog S α)

namespace Prog

variable {S : Signature} {α β γ : Type}

/-- Sequential composition. -/
def bind : Prog S α → (α → Prog S β) → Prog S β
  | ret a, f => f a
  | fail e, _ => fail e
  | call o k, f => call o fun r => (k r).bind f

instance : Monad (Prog S) where
  pure := ret
  bind := bind

/-- A single call, returning what the operation returned. -/
def perform (o : S.Op) : Prog S (S.Res o) := call o ret

/-- Code that throws exactly when a computation without effects does. -/
def ofExcept : Except S.Exn α → Prog S α
  | .ok a => ret a
  | .error e => fail e

@[simp] lemma pure_def (a : α) : (pure a : Prog S α) = ret a := rfl

@[simp] lemma bind_def (p : Prog S α) (f : α → Prog S β) : p.bind f = p >>= f := rfl

@[simp] lemma ret_bind (a : α) (f : α → Prog S β) : ret a >>= f = f a := rfl

@[simp] lemma fail_bind (e : S.Exn) (f : α → Prog S β) : (fail e : Prog S α) >>= f = fail e := rfl

@[simp] lemma call_bind (o : S.Op) (k : S.Res o → Prog S α) (f : α → Prog S β) :
    call o k >>= f = call o fun r => k r >>= f := rfl

@[simp] lemma perform_bind (o : S.Op) (f : S.Res o → Prog S β) :
    perform o >>= f = call o f := rfl

@[simp] lemma ofExcept_ok (a : α) : (ofExcept (.ok a) : Prog S α) = ret a := rfl

@[simp] lemma ofExcept_error (e : S.Exn) : (ofExcept (.error e) : Prog S α) = fail e := rfl

lemma bind_ret (p : Prog S α) : p >>= ret = p := by
  induction p with
  | ret a => rfl
  | fail e => rfl
  | call o k ih =>
      simp only [call_bind]
      exact congrArg _ (funext ih)

lemma bind_assoc (p : Prog S α) (f : α → Prog S β) (g : β → Prog S γ) :
    p >>= f >>= g = p >>= fun a => f a >>= g := by
  induction p with
  | ret a => rfl
  | fail e => rfl
  | call o k ih =>
      simp only [call_bind]
      exact congrArg _ (funext ih)

/-- The program has nothing left to do. -/
def finished : Prog S α → Bool
  | call _ _ => false
  | _ => true

@[simp] lemma finished_ret (a : α) : (ret a : Prog S α).finished = true := rfl
@[simp] lemma finished_fail (e : S.Exn) : (fail e : Prog S α).finished = true := rfl
@[simp] lemma finished_call (o : S.Op) (k : S.Res o → Prog S α) :
    (call o k).finished = false := rfl

/-! ## Execution in isolation -/

section Run

variable {W χ : Type} (exec : (o : S.Op) → χ → W → S.Res o × W)

/-- Run a program alone; its `n`-th call resolves its nondeterminism by `xs n`. -/
def run : Prog S α → (ℕ → χ) → W → Except S.Exn α × W
  | ret a, _, w => (.ok a, w)
  | fail e, _, w => (.error e, w)
  | call o k, xs, w =>
      (k (exec o (xs 0) w).1).run (fun n => xs (n + 1)) (exec o (xs 0) w).2

@[simp] lemma run_ret (a : α) (xs : ℕ → χ) (w : W) :
    (ret a : Prog S α).run exec xs w = (.ok a, w) := rfl

@[simp] lemma run_call (o : S.Op) (k : S.Res o → Prog S α) (xs : ℕ → χ) (w : W) :
    (call o k).run exec xs w
      = (k (exec o (xs 0) w).1).run exec (fun n => xs (n + 1)) (exec o (xs 0) w).2 := rfl

end Run

/-! ## The calls a program can make -/

/-- Every call the program can make satisfies `P`. -/
def Only (P : S.Op → Prop) : Prog S α → Prop
  | ret _ => True
  | fail _ => True
  | call o k => P o ∧ ∀ r, (k r).Only P

@[simp] lemma only_ret (P : S.Op → Prop) (a : α) : (ret a : Prog S α).Only P := trivial

@[simp] lemma only_fail (P : S.Op → Prop) (e : S.Exn) : (fail e : Prog S α).Only P := trivial

@[simp] lemma only_call (P : S.Op → Prop) (o : S.Op) (k : S.Res o → Prog S α) :
    (call o k).Only P ↔ P o ∧ ∀ r, (k r).Only P := Iff.rfl

lemma Only.mono {P P' : S.Op → Prop} (h : ∀ o, P o → P' o) {p : Prog S α} (hp : p.Only P) :
    p.Only P' := by
  induction p with
  | ret a => trivial
  | fail e => trivial
  | call o k ih => exact ⟨h o hp.1, fun r => ih r (hp.2 r)⟩

lemma Only.perform {P : S.Op → Prop} {o : S.Op} (ho : P o) : (perform o).Only P :=
  ⟨ho, fun _ => trivial⟩

lemma Only.step {P : S.Op → Prop} {o : S.Op} {f : S.Res o → Prog S α} (ho : P o)
    (hf : ∀ r, (f r).Only P) : (Prog.perform o >>= f).Only P :=
  ⟨ho, hf⟩

lemma Only.ofExcept {P : S.Op → Prop} {a : Except S.Exn α} {f : α → Prog S β}
    (hf : ∀ r, a = .ok r → (f r).Only P) : (Prog.ofExcept a >>= f).Only P := by
  cases a with
  | ok r => exact hf r rfl
  | error e => trivial

lemma Only.ite {P : S.Op → Prop} {c : Prop} {_ : Decidable c} {p q : Prog S α}
    (hp : c → p.Only P) (hq : ¬ c → q.Only P) : (if c then p else q).Only P := by
  split
  · exact hp ‹_›
  · exact hq ‹_›

lemma Only.bind {P : S.Op → Prop} {p : Prog S α} {f : α → Prog S β} (hp : p.Only P)
    (hf : ∀ a, (f a).Only P) : (p >>= f).Only P := by
  induction p with
  | ret a => exact hf a
  | fail e => trivial
  | call o k ih => exact ⟨hp.1, fun r => ih r (hp.2 r)⟩

/-- What every allowed call preserves holds after a program of allowed calls, run alone. -/
lemma Only.run {W χ : Type} {exec : (o : S.Op) → χ → W → S.Res o × W} {P : S.Op → Prop}
    {J : W → Prop} (hstep : ∀ o x w, P o → J w → J (exec o x w).2) {p : Prog S α} :
    p.Only P → ∀ (xs : ℕ → χ) {w : W}, J w → J (p.run exec xs w).2 := by
  induction p with
  | ret a => exact fun _ _ _ h => h
  | fail e => exact fun _ _ _ h => h
  | call o k ih => exact fun hp xs w h => ih _ (hp.2 _) _ (hstep o (xs 0) w hp.1 h)

/-- What no call changes, no program changes. -/
lemma run_frame {W χ β : Type} {exec : (o : S.Op) → χ → W → S.Res o × W} {f : W → β}
    (hstep : ∀ o x w, f (exec o x w).2 = f w) (p : Prog S α) : ∀ (xs : ℕ → χ) (w : W),
      f (p.run exec xs w).2 = f w := by
  induction p with
  | ret a => exact fun _ _ => rfl
  | fail e => exact fun _ _ => rfl
  | call o k ih => exact fun xs w => (ih _ _ _).trans (hstep o (xs 0) w)

/-! ## Programs that return -/

/-- The program never throws. -/
def Total : Prog S α → Prop
  | ret _ => True
  | fail _ => False
  | call _ k => ∀ r, (k r).Total

lemma Total.perform (o : S.Op) : (perform o).Total := fun _ => trivial

lemma Total.step {o : S.Op} {f : S.Res o → Prog S α} (hf : ∀ r, (f r).Total) :
    (Prog.perform o >>= f).Total := hf

lemma Total.ite {c : Prop} {_ : Decidable c} {p q : Prog S α} (hp : c → p.Total)
    (hq : ¬ c → q.Total) : (if c then p else q).Total := by
  split
  · exact hp ‹_›
  · exact hq ‹_›

lemma Total.bind {p : Prog S α} {f : α → Prog S β} (hp : p.Total) (hf : ∀ a, (f a).Total) :
    (p >>= f).Total := by
  induction p with
  | ret a => exact hf a
  | fail e => exact hp.elim
  | call o k ih => exact fun r => ih r (hp r)

/-- A program that never throws returns, whatever the operations do. -/
lemma Total.run {W χ : Type} (exec : (o : S.Op) → χ → W → S.Res o × W) {p : Prog S α} :
    p.Total → ∀ (xs : ℕ → χ) (w : W), ∃ a, (p.run exec xs w).1 = .ok a := by
  induction p with
  | ret a => exact fun _ _ _ => ⟨a, rfl⟩
  | fail e => exact fun h => h.elim
  | call o k ih => exact fun h xs w => ih _ (h _) _ _

end Prog

/-! ## Weakest preconditions -/

/-- What a proof about one program takes the operations to be, over a view `σ` of the state:
what must hold for a call, what the call may do to the view, and what the rest of the system
may do to it between two calls. -/
structure Spec (S : Signature) (σ : Type) where
  pre : S.Op → σ → Prop
  step : (o : S.Op) → S.Res o → σ → σ → Prop
  stable : σ → σ → Prop
  refl : ∀ s, stable s s
  trans : ∀ {s₁ s₂ s₃}, stable s₁ s₂ → stable s₂ s₃ → stable s₁ s₃

/-- A specification over a view that only the program itself changes. -/
def Spec.private {S : Signature} {σ : Type} (pre : S.Op → σ → Prop)
    (step : (o : S.Op) → S.Res o → σ → σ → Prop) : Spec S σ :=
  ⟨pre, step, Eq, fun _ => rfl, Eq.trans⟩

/-- A call with its result. -/
abbrev Called (S : Signature) := (o : S.Op) × S.Res o

/-- A specification over the calls that a program has made, in order: what must hold of them at
each call, and what is known of its result. -/
def Spec.traced {S : Signature} (pre : S.Op → List (Called S) → Prop)
    (result : (o : S.Op) → S.Res o → Prop) : Spec S (List (Called S)) :=
  .private pre fun o r s s' => result o r ∧ s' = s ++ [⟨o, r⟩]

namespace Prog

variable {S : Signature} {α β : Type} {σ : Type} {L : Spec S σ}

/-- From `s`, however the calls turn out within `L`, every call meets its precondition and the
program ends with an outcome and a state that satisfy `Q`. -/
def Wp (L : Spec S σ) : Prog S α → (Except S.Exn α → σ → Prop) → σ → Prop
  | ret a, Q, s => Q (.ok a) s
  | fail e, Q, s => Q (.error e) s
  | call o k, Q, s =>
      ∀ s₁, L.stable s s₁ → L.pre o s₁ ∧ ∀ r s₂, L.step o r s₁ s₂ → (k r).Wp L Q s₂

@[simp] lemma wp_ret (a : α) (Q : Except S.Exn α → σ → Prop) (s : σ) :
    (ret a).Wp L Q s ↔ Q (.ok a) s := Iff.rfl

@[simp] lemma wp_fail (e : S.Exn) (Q : Except S.Exn α → σ → Prop) (s : σ) :
    (fail e).Wp L Q s ↔ Q (.error e) s := Iff.rfl

lemma wp_call (o : S.Op) (k : S.Res o → Prog S α) (Q : Except S.Exn α → σ → Prop) (s : σ) :
    (call o k).Wp L Q s ↔
      ∀ s₁, L.stable s s₁ → L.pre o s₁ ∧ ∀ r s₂, L.step o r s₁ s₂ → (k r).Wp L Q s₂ := Iff.rfl

@[simp] lemma wp_call_private {pre : S.Op → σ → Prop}
    {step : (o : S.Op) → S.Res o → σ → σ → Prop} (o : S.Op) (k : S.Res o → Prog S α)
    (Q : Except S.Exn α → σ → Prop) (s : σ) :
    (call o k).Wp (.private pre step) Q s ↔
      pre o s ∧ ∀ r s', step o r s s' → (k r).Wp (.private pre step) Q s' := by
  simp [wp_call, Spec.private]

lemma wp_call_traced {pre : S.Op → List (Called S) → Prop} {result : (o : S.Op) → S.Res o → Prop}
    (o : S.Op) (k : S.Res o → Prog S α) (Q : Except S.Exn α → List (Called S) → Prop)
    (s : List (Called S)) :
    (call o k).Wp (.traced pre result) Q s ↔
      pre o s ∧ ∀ r, result o r → (k r).Wp (.traced pre result) Q (s ++ [⟨o, r⟩]) := by
  rw [Spec.traced, wp_call_private]
  refine and_congr_right fun _ => forall_congr' fun r => ?_
  constructor
  · exact fun h hr => h _ ⟨hr, rfl⟩
  · rintro h _ ⟨hr, rfl⟩
    exact h hr

/-! ### The rules -/

/-- The rule of an operation: its precondition holds, and what it may do is enough for the
rest. -/
lemma Wp.step {Q : Except S.Exn α → σ → Prop} {o : S.Op} {f : S.Res o → Prog S α} {s : σ}
    (h : ∀ s₁, L.stable s s₁ → L.pre o s₁ ∧ ∀ r s₂, L.step o r s₁ s₂ → (f r).Wp L Q s₂) :
    (perform o >>= f).Wp L Q s := h

/-- The same over the calls made so far. -/
lemma Wp.traced {pre : S.Op → List (Called S) → Prop} {result : (o : S.Op) → S.Res o → Prop}
    {Q : Except S.Exn α → List (Called S) → Prop} {o : S.Op} {f : S.Res o → Prog S α}
    {s : List (Called S)} (hpre : pre o s)
    (hf : ∀ r, result o r → (f r).Wp (.traced pre result) Q (s ++ [⟨o, r⟩])) :
    (perform o >>= f).Wp (.traced pre result) Q s :=
  (wp_call_traced o f Q s).mpr ⟨hpre, hf⟩

lemma Wp.ofExcept {Q : Except S.Exn β → σ → Prop} {a : Except S.Exn α} {f : α → Prog S β} {s : σ}
    (hok : ∀ r, a = .ok r → (f r).Wp L Q s) (herror : ∀ e, a = .error e → Q (.error e) s) :
    (ofExcept a >>= f).Wp L Q s := by
  cases a with
  | ok r => exact hok r rfl
  | error e => exact herror e rfl

lemma Wp.ite {Q : Except S.Exn α → σ → Prop} {c : Prop} {_ : Decidable c} {p q : Prog S α} {s : σ}
    (hp : c → p.Wp L Q s) (hq : ¬ c → q.Wp L Q s) : (if c then p else q).Wp L Q s := by
  split
  · exact hp ‹_›
  · exact hq ‹_›

/-- The rule of invariants: what every allowed call and the rest of the system preserve holds at
the end of a program. -/
lemma Only.wp_of_invariant {P : S.Op → Prop} {J : σ → Prop} {Q : Except S.Exn α → σ → Prop}
    {p : Prog S α} (hp : p.Only P) (hstable : ∀ s s', L.stable s s' → J s → J s')
    (hpre : ∀ o s, P o → J s → L.pre o s)
    (hstep : ∀ o r s s', P o → J s → L.step o r s s' → J s') (hQ : ∀ out s, J s → Q out s) :
    ∀ {s : σ}, J s → p.Wp L Q s := by
  induction p with
  | ret a => exact fun {s} hs => hQ _ s hs
  | fail e => exact fun {s} hs => hQ _ s hs
  | call o k ih =>
      intro s hs s₁ h₁
      have hs₁ : J s₁ := hstable s s₁ h₁ hs
      refine ⟨hpre o s₁ hp.1 hs₁, fun r s₂ h₂ => ?_⟩
      exact ih r (hp.2 r) (hstep o r s₁ s₂ hp.1 hs₁ h₂)

/-- A program of allowed calls keeps whatever appending an allowed call keeps. -/
lemma Only.wp_traced {pre : S.Op → List (Called S) → Prop} {result : (o : S.Op) → S.Res o → Prop}
    {P : S.Op → Prop} {J : List (Called S) → Prop} {Q : Except S.Exn α → List (Called S) → Prop}
    {p : Prog S α} (hp : p.Only P) (hpre : ∀ o s, P o → J s → pre o s)
    (hstep : ∀ o r s, P o → J s → J (s ++ [⟨o, r⟩])) (hQ : ∀ out s, J s → Q out s)
    {s : List (Called S)} (hs : J s) : p.Wp (.traced pre result) Q s := by
  refine hp.wp_of_invariant ?_ hpre ?_ hQ hs
  · rintro s _ rfl h
    exact h
  · rintro o r s _ ho h ⟨-, rfl⟩
    exact hstep o r s ho h

/-- A program whose calls are all allowed and leave the view alone ends with the view it
started with. -/
lemma Only.wp {P : S.Op → Prop} {Q : Except S.Exn α → σ → Prop} {p : Prog S α} {s : σ}
    (hp : p.Only P) (hpre : ∀ o s₁, P o → L.stable s s₁ → L.pre o s₁)
    (hstep : ∀ o r s₁ s₂, P o → L.stable s s₁ → L.step o r s₁ s₂ → L.stable s s₂)
    (hQ : ∀ out s₁, L.stable s s₁ → Q out s₁) : p.Wp L Q s := by
  have hstable : ∀ s₁ s₂, L.stable s₁ s₂ → L.stable s s₁ → L.stable s s₂ :=
    fun s₁ s₂ h₁₂ h₁ => L.trans h₁ h₁₂
  exact hp.wp_of_invariant hstable hpre hstep hQ (L.refl s)

/-- Sequencing under an invariant. -/
lemma Wp.seq {J : σ → Prop} {p : Prog S α} {f : α → Prog S β} {s : σ}
    (hp : p.Wp L (fun _ => J) s) (hf : ∀ a s', J s' → (f a).Wp L (fun _ => J) s') :
    (p >>= f).Wp L (fun _ => J) s := by
  induction p generalizing s with
  | ret a => exact hf a s hp
  | fail e => exact hp
  | call o k ih => exact fun s₁ h₁ => ⟨(hp s₁ h₁).1, fun r s₂ h₂ => ih r ((hp s₁ h₁).2 r s₂ h₂)⟩

/-- The rule of consequence. -/
lemma Wp.mono {Q Q' : Except S.Exn α → σ → Prop} (hQ : ∀ out s, Q out s → Q' out s)
    {p : Prog S α} : ∀ {s : σ}, p.Wp L Q s → p.Wp L Q' s := by
  induction p with
  | ret a => exact fun h => hQ _ _ h
  | fail e => exact fun h => hQ _ _ h
  | call o k ih =>
      exact fun h s₁ hs => ⟨(h s₁ hs).1, fun r s₂ hr => ih r ((h s₁ hs).2 r s₂ hr)⟩

/-- The rule of composition: an exception of the first part skips the second. -/
lemma Wp.bind {Q : Except S.Exn β → σ → Prop} {f : α → Prog S β} {p : Prog S α} :
    ∀ {s : σ}, p.Wp L (fun out s' => match out with
        | .ok a => (f a).Wp L Q s'
        | .error e => Q (.error e) s') s → (p >>= f).Wp L Q s := by
  induction p with
  | ret a => exact fun h => h
  | fail e => exact fun h => h
  | call o k ih =>
      exact fun h s₁ hs => ⟨(h s₁ hs).1, fun r s₂ hr => ih r ((h s₁ hs).2 r s₂ hr)⟩

/-- What the rest of the system does before the next call of a program is allowed for. -/
lemma Wp.stable {Q : Except S.Exn α → σ → Prop}
    (hQ : ∀ out s s', L.stable s s' → Q out s → Q out s') {p : Prog S α} {s s' : σ}
    (h : p.Wp L Q s) (hs : L.stable s s') : p.Wp L Q s' := by
  cases p with
  | ret a => exact hQ _ _ _ hs h
  | fail e => exact hQ _ _ _ hs h
  | call o k => exact fun s₁ hs₁ => h s₁ (L.trans hs hs₁)

/-- A program run alone ends as its weakest precondition says, whenever the operations stay
within the specification. -/
lemma Wp.run {W χ : Type} {L : Spec S W} {exec : (o : S.Op) → χ → W → S.Res o × W}
    (hexec : ∀ o x w, L.step o (exec o x w).1 w (exec o x w).2)
    {Q : Except S.Exn α → W → Prop} {p : Prog S α} :
    ∀ {w : W} (xs : ℕ → χ), p.Wp L Q w →
      Q (p.run exec xs w).1 (p.run exec xs w).2 := by
  induction p with
  | ret a => exact fun _ h => h
  | fail e => exact fun _ h => h
  | call o k ih => exact fun {w} xs h => ih _ _ ((h w (L.refl w)).2 _ _ (hexec o (xs 0) w))

/-! ### Calls told apart by what follows them -/

/-- What a proof about one program takes its calls to be, over a view that nobody else changes,
where the effect of a call may depend on what the program goes on with. -/
structure Account (S : Signature) (α σ : Type) where
  pre : S.Op → σ → Prop
  step : (o : S.Op) → (S.Res o → Prog S α) → S.Res o → σ → σ → Prop

/-- From `s`, however the calls turn out within `A`, every call meets its precondition and the
program ends in a state that satisfies `Q`. -/
def Leads (A : Account S α σ) (Q : σ → Prop) : Prog S α → σ → Prop
  | ret _, s => Q s
  | fail _, s => Q s
  | call o k, s => A.pre o s ∧ ∀ r s', A.step o k r s s' → (k r).Leads A Q s'

section Leads

variable {A : Account S α σ} {Q : σ → Prop} {s : σ}

lemma Leads.step {o : S.Op} {f : S.Res o → Prog S α} (hpre : A.pre o s)
    (hf : ∀ r s', A.step o f r s s' → (f r).Leads A Q s') : (perform o >>= f).Leads A Q s :=
  ⟨hpre, hf⟩

lemma Leads.ofExcept {a : Except S.Exn β} {f : β → Prog S α} (hs : Q s)
    (hf : ∀ b, a = .ok b → (f b).Leads A Q s) : (ofExcept a >>= f).Leads A Q s := by
  cases a with
  | ok b => exact hf b rfl
  | error e => exact hs

lemma Leads.ite {c : Prop} {_ : Decidable c} {p q : Prog S α} (hp : c → p.Leads A Q s)
    (hq : ¬ c → q.Leads A Q s) : (if c then p else q).Leads A Q s := by
  split
  · exact hp ‹_›
  · exact hq ‹_›

/-- Calls that leave the view alone lead to what follows them. -/
lemma Only.leads_bind {P : S.Op → Prop} {p : Prog S β} {f : β → Prog S α} (hp : p.Only P)
    (hpre : ∀ o, P o → A.pre o s) (hstep : ∀ o k r s', P o → A.step o k r s s' → s' = s)
    (hs : Q s) (hf : ∀ b, (f b).Leads A Q s) : (p >>= f).Leads A Q s := by
  induction p with
  | ret a => exact hf a
  | fail e => exact hs
  | call o k ih =>
      refine ⟨hpre o hp.1, fun r s' h => ?_⟩
      rw [hstep o _ r s' hp.1 h]
      exact ih r (hp.2 r)

/-- A program of such calls ends with the view it started with. -/
lemma Only.leads {P : S.Op → Prop} {p : Prog S α} (hp : p.Only P)
    (hpre : ∀ o, P o → A.pre o s) (hstep : ∀ o k r s', P o → A.step o k r s s' → s' = s)
    (hs : Q s) : p.Leads A Q s := by
  rw [← bind_ret p]
  exact hp.leads_bind hpre hstep hs fun _ => hs

end Leads

/-! ## What a program has done -/

/-- The program can make these calls, with these results, and then has `q` left to do. -/
inductive Path : Prog S α → List (Called S) → Prog S α → Prop
  | nil (p : Prog S α) : Path p [] p
  | cons {o : S.Op} {k : S.Res o → Prog S α} {r : S.Res o} {es : List (Called S)} {q : Prog S α}
      (h : Path (k r) es q) : Path (.call o k) (⟨o, r⟩ :: es) q

/-- One more call. -/
lemma Path.snoc {p : Prog S α} {es : List (Called S)} {o : S.Op} {k : S.Res o → Prog S α}
    (h : Path p es (.call o k)) (r : S.Res o) : Path p (es ++ [⟨o, r⟩]) (k r) := by
  generalize hq : Prog.call o k = q at h
  induction h with
  | nil p =>
      subst hq
      exact .cons (.nil _)
  | cons _ ih => exact .cons (ih hq)

/-- A program that has ended has made its first call, and the rest of its calls. -/
lemma Path.perform_bind {o : S.Op} {f : S.Res o → Prog S α} {es : List (Called S)} {q : Prog S α}
    (h : Path (Prog.perform o >>= f) es q) (hq : q.finished = true) :
    ∃ r es', es = ⟨o, r⟩ :: es' ∧ Path (f r) es' q := by
  change Path (.call o f) es q at h
  cases h with
  | nil => simp at hq
  | cons h => exact ⟨_, _, rfl, h⟩

/-- The calls are among those the program can make. -/
lemma Only.path {P : S.Op → Prop} {p q : Prog S α} {es : List (Called S)} (hp : p.Only P)
    (h : Path p es q) : ∀ e ∈ es, P e.1 := by
  induction h with
  | nil p => simp
  | cons _ ih =>
      intro e he
      rcases List.mem_cons.mp he with rfl | he
      · exact hp.1
      · exact ih (hp.2 _) e he

/-- Before a call, the program is about to make it. -/
lemma Path.split {es₁ es₂ : List (Called S)} {o : S.Op} {r : S.Res o} {q : Prog S α} :
    ∀ {p : Prog S α}, Path p (es₁ ++ ⟨o, r⟩ :: es₂) q → ∃ k, Path p es₁ (.call o k) := by
  induction es₁ with
  | nil =>
      intro p h
      cases h with
      | cons h => exact ⟨_, .nil _⟩
  | cons e es₁ ih =>
      intro p h
      cases h with
      | cons h =>
          obtain ⟨k, hk⟩ := ih h
          exact ⟨k, .cons hk⟩

/-- A specification over the calls made so far is met by what is left of a program. -/
lemma Wp.path {pre : S.Op → List (Called S) → Prop} {Q : Except S.Exn α → List (Called S) → Prop}
    {p q : Prog S α} {es : List (Called S)} (h : Path p es q) : ∀ {s : List (Called S)},
      p.Wp (.traced pre fun _ _ => True) Q s →
        q.Wp (.traced pre fun _ _ => True) Q (s ++ es) := by
  induction h with
  | nil p => exact fun hp => by simpa using hp
  | @cons o k r es q _ ih =>
      intro s hp
      have hrest := ih (((wp_call_traced o k Q s).mp hp).2 r trivial)
      simpa using hrest

/-- Every call is made where its precondition holds. -/
lemma Wp.pre_of_path {pre : S.Op → List (Called S) → Prop}
    {Q : Except S.Exn α → List (Called S) → Prop} {p q : Prog S α} {s es₁ es₂ : List (Called S)}
    {o : S.Op} {r : S.Res o} (hp : p.Wp (.traced pre fun _ _ => True) Q s)
    (h : Path p (es₁ ++ ⟨o, r⟩ :: es₂) q) : pre o (s ++ es₁) := by
  obtain ⟨k, hk⟩ := h.split
  exact ((wp_call_traced o k Q _).mp (Wp.path hk hp)).1

/-- A program that has nothing to do makes no calls. -/
lemma Path.of_finished {p q : Prog S α} {es : List (Called S)} (h : Path p es q)
    (hp : p.finished = true) : es = [] ∧ q = p := by
  cases h with
  | nil => exact ⟨rfl, rfl⟩
  | cons h => simp at hp

end Prog

end Concurrency
