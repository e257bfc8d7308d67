import HashHush.Concurrency.Interleaving

/-!
# Sequential objects inside a system

A sequential object is a state and a partial step function on events: a history is accepted if
every event is possible in the state that the ones before it lead to.  A part of a shared world
behaves as such an object when every transition of the system, seen as an event or as none,
changes the view of that part as the object says; then the events of every run are an accepted
history of the object, in the order in which the transitions came (`Run.accepted`).  What is known
of the accepted histories of the object, on its own, is so known of every run.

The object at hand is a queue that several elements enter at once, that loses its head, and that
may be emptied (`QueueEvent`).
-/

namespace Concurrency

variable {σ ε : Type}

/-- The state after a history, where every event of it is possible. -/
def accepts (step : σ → ε → Option σ) : σ → List ε → Option σ
  | s, [] => some s
  | s, e :: es => (step s e).bind fun s' => accepts step s' es

@[simp] lemma accepts_nil (step : σ → ε → Option σ) (s : σ) : accepts step s [] = some s := rfl

lemma accepts_singleton (step : σ → ε → Option σ) (s : σ) (e : ε) :
    accepts step s [e] = step s e := by
  exact Option.bind_fun_some _

lemma accepts_append (step : σ → ε → Option σ) (es es' : List ε) : ∀ s : σ,
    accepts step s (es ++ es') = (accepts step s es).bind fun s' => accepts step s' es' := by
  induction es with
  | nil => exact fun s => rfl
  | cons e es ih =>
      intro s
      rw [List.cons_append, accepts, accepts, Option.bind_assoc]
      exact congrArg _ (funext ih)

namespace System

variable {S : Signature} {M : System S} {ok : List M.Transition → M.Transition → Prop}
variable {init : M.Conf}

/-- **The events of a run are an accepted history**, if every transition is accepted by itself. -/
theorem Run.accepted {step : σ → ε → Option σ} {v : M.Conf → σ}
    {event : M.Transition → Option ε}
    (hstep : ∀ h c l c', Run ok init h c → System.step c l = some c' → ok h ⟨c, l, c'⟩ →
      accepts step (v c) (event ⟨c, l, c'⟩).toList = some (v c'))
    {h : List M.Transition} {c : M.Conf} (hr : Run ok init h c) :
    accepts step (v init) (h.filterMap event) = some (v c) := by
  induction hr with
  | nil => rfl
  | @snoc h c c' l hr hs hok ih =>
      have hlast : [(⟨c, l, c'⟩ : M.Transition)].filterMap event
          = (event ⟨c, l, c'⟩).toList := by
        cases hev : event ⟨c, l, c'⟩ <;> simp [hev]
      rw [List.filterMap_append, accepts_append, ih, Option.bind_some, hlast]
      exact hstep h c l c' hr hs hok

end System

/-! ## A queue -/

/-- What happens to a queue. -/
inductive QueueEvent (α : Type)
  /-- Elements enter at the end, in this order. -/
  | put (xs : List α)
  /-- The head is taken, if there is one. -/
  | take (x : Option α)
  /-- The queue is emptied. -/
  | clear
  deriving DecidableEq

namespace QueueEvent

variable {α : Type} [DecidableEq α]

/-- The queue after an event. -/
def step : List α → QueueEvent α → Option (List α)
  | q, put xs => some (q ++ xs)
  | q, take x => if q.head? = x then some q.tail else none
  | _, clear => some []

/-- The elements that entered in a history. -/
def entered : List (QueueEvent α) → List α
  | [] => []
  | put xs :: es => xs ++ entered es
  | take _ :: es | clear :: es => entered es

/-- The elements that were taken in a history. -/
def taken : List (QueueEvent α) → List α
  | [] => []
  | take x :: es => x.toList ++ taken es
  | put _ :: es | clear :: es => taken es

/-- **First in, first out.**  As long as a queue is not emptied, what was in it, followed by what
entered it, is what was taken from it, followed by what is left. -/
theorem conserved {es : List (QueueEvent α)} (hes : clear ∉ es) : ∀ {q q' : List α},
    accepts step q es = some q' → q ++ entered es = taken es ++ q' := by
  induction es with
  | nil =>
      intro q q' h
      rw [accepts_nil, Option.some.injEq] at h
      rw [h, entered, taken, List.append_nil, List.nil_append]
  | cons e es ih =>
      obtain ⟨he, hes⟩ := List.ne_and_not_mem_of_not_mem_cons hes
      have ih := @ih hes
      intro q q' h
      obtain ⟨q₁, hstep, hrest⟩ := Option.bind_eq_some_iff.mp h
      clear h
      cases e with
      | put xs =>
          obtain rfl : q ++ xs = q₁ := Option.some.inj hstep
          rw [entered, taken, ← ih hrest, List.append_assoc]
      | take x =>
          obtain ⟨hhead, hstep⟩ := Option.ite_none_right_eq_some.mp hstep
          obtain rfl : q.tail = q₁ := Option.some.inj hstep
          cases q with
          | nil =>
              obtain rfl : none = x := hhead
              exact ih hrest
          | cons y q =>
              obtain rfl : some y = x := hhead
              exact congrArg (y :: ·) (ih hrest)
      | clear => exact absurd rfl he

end QueueEvent

end Concurrency
