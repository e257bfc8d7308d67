import Mathlib.Logic.Relation

/-!
# Reactive components

A component that waits for events and answers each to its end is a partial function from states
and events to states: an event may be impossible in a state.  `Reach step guard s t` says that
events take the component from `s` to `t`, each of them meeting a condition on the state it finds.
-/

namespace Concurrency

variable {σ ε : Type}

/-- One event that meets the condition. -/
def Reacts (step : σ → ε → Option σ) (guard : σ → ε → Prop) (s t : σ) : Prop :=
  ∃ e, guard s e ∧ step s e = some t

/-- Any number of events that meet the condition. -/
def Reach (step : σ → ε → Option σ) (guard : σ → ε → Prop) : σ → σ → Prop :=
  Relation.ReflTransGen (Reacts step guard)

variable {step : σ → ε → Option σ} {guard : σ → ε → Prop} {s t : σ}

/-- What holds at first and is kept by every event holds ever after. -/
theorem Reach.invariant {I : σ → Prop} (h : Reach step guard s t) (hs : I s)
    (hstep : ∀ s e t, I s → guard s e → step s e = some t → I t) : I t := by
  induction h with
  | refl => exact hs
  | tail _ hreacts ih =>
      obtain ⟨e, hguard, he⟩ := hreacts
      exact hstep _ e _ ih hguard he

/-- Take events in order, as long as they are possible and pass a test. -/
def replayEvents (step : σ → ε → Option σ) (test : σ → ε → Bool) : σ → List ε → Option σ
  | s, [] => some s
  | s, e :: es => if test s e then (step s e).bind fun t => replayEvents step test t es else none

lemma reach_of_replayEvents {test : σ → ε → Bool} (htest : ∀ s e, test s e = true → guard s e)
    {es : List ε} : ∀ {s : σ}, replayEvents step test s es = some t → Reach step guard s t := by
  induction es with
  | nil =>
      intro s h
      rw [replayEvents, Option.some.injEq] at h
      exact h ▸ .refl
  | cons e es ih =>
      intro s h
      rw [replayEvents, Option.ite_none_right_eq_some] at h
      obtain ⟨hpass, h⟩ := h
      obtain ⟨u, hu, h⟩ := Option.bind_eq_some_iff.mp h
      exact .head ⟨e, htest s e hpass, hu⟩ (ih h)

/-- Events that can be taken from a state, each passing a test, and end with a property. -/
structure Scenario (step : σ → ε → Option σ) (test : σ → ε → Bool) (s : σ) (P : σ → Bool) where
  events : List ε
  taken : (replayEvents step test s events).map P = some true

/-- If the test implies the guard, then a state with the property can be reached. -/
theorem Scenario.exists_reach {test : σ → ε → Bool} {P : σ → Bool}
    (c : Scenario step test s P) (htest : ∀ s e, test s e = true → guard s e) :
    ∃ t, Reach step guard s t ∧ P t = true := by
  obtain ⟨t, ht, hP⟩ := Option.map_eq_some_iff.mp c.taken
  exact ⟨t, reach_of_replayEvents htest ht, hP⟩

end Concurrency
