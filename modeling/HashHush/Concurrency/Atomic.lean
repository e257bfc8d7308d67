import HashHush.Concurrency.Interleaving

/-!
# Programs that are not interrupted

The runs in which a task that takes up an input performs its whole program before anything else
happens.  A `System.Round` is such an execution, or an event of the environment; `Run.round` says
that the interleaved system can do whatever a round does.

`Prog.trace` are the calls of a program that is run alone, and `Prog.trace_induction` the rule
that what every call keeps holds at the end of them.  A `Trail` is a run of any partial step
function that remembers the states it came through.
-/

namespace Concurrency

namespace Prog

variable {S : Signature} {α W χ : Type} (exec : (o : S.Op) → χ → W → S.Res o × W)

/-- The calls of a program that is run alone, with their results. -/
def trace : Prog S α → (ℕ → χ) → W → List (Called S)
  | ret _, _, _ => []
  | fail _, _, _ => []
  | call o k, xs, w =>
      ⟨o, (exec o (xs 0) w).1⟩ ::
        (k (exec o (xs 0) w).1).trace (fun n => xs (n + 1)) (exec o (xs 0) w).2

/-- What is left of a program that has ended. -/
def ended : Except S.Exn α → Prog S α
  | .ok a => ret a
  | .error e => fail e

@[simp] lemma finished_ended (out : Except S.Exn α) : (ended out : Prog S α).finished = true := by
  cases out <;> rfl

/-- The trace leads from the program to its end. -/
lemma path_trace (p : Prog S α) : ∀ (xs : ℕ → χ) (w : W),
    p.Path (p.trace exec xs w) (ended (p.run exec xs w).1) := by
  induction p with
  | ret a => exact fun _ _ => .nil _
  | fail e => exact fun _ _ => .nil _
  | call o k ih => exact fun xs w => .cons (ih _ _ _)

variable {exec}

/-- What holds at the start and what every call of the program keeps holds at its end, over the
calls made so far and the state they lead to. -/
lemma trace_induction {P : S.Op → Prop} {J : List (Called S) → W → Prop}
    (hstep : ∀ o x es w, P o → J es w → J (es ++ [⟨o, (exec o x w).1⟩]) (exec o x w).2)
    {p : Prog S α} (hp : p.Only P) (xs : ℕ → χ) {w : W} (h0 : J [] w) :
    J (p.trace exec xs w) (p.run exec xs w).2 := by
  suffices h : ∀ (p : Prog S α) (xs : ℕ → χ) (es : List (Called S)) (w : W), p.Only P → J es w →
      J (es ++ p.trace exec xs w) (p.run exec xs w).2 from h p xs [] w hp h0
  intro p
  induction p with
  | ret a =>
      intro xs es w _ h
      simpa [trace, run] using h
  | fail e =>
      intro xs es w _ h
      simpa [trace, run] using h
  | call o k ih =>
      intro xs es w hp h
      have hnext := ih (exec o (xs 0) w).1 (fun n => xs (n + 1)) _ _ (hp.2 _)
        (hstep o (xs 0) es w hp.1 h)
      simpa [trace, run] using hnext

end Prog

namespace System

variable {S : Signature} (M : System S)

/-- A task takes up an input and performs its program to the end, or the environment acts. -/
inductive Round
  | run (t : M.Task) (i : M.Input) (xs : ℕ → M.Choice)
  | env (e : M.Env)

variable {M}

/-- The configuration after a round, where the round is possible. -/
def round (c : M.Conf) : M.Round → Option M.Conf
  | .run t i xs =>
      if idle (c.task t) && M.admits c t i then
        some (resume { c with world := ((M.program t i).run M.exec xs c.world).2 } t
          (.ended ((M.program t i).run M.exec xs c.world).1))
      else none
  | .env e => (M.ambient e c).map fun w => { c with world := w }

/-- The calls of a round. -/
def Round.trace (c : M.Conf) : M.Round → List (Called S)
  | .run t i xs => (M.program t i).trace M.exec xs c.world
  | .env _ => []

lemma round_run {c c' : M.Conf} {t : M.Task} {i : M.Input} {xs : ℕ → M.Choice}
    (h : round c (.run t i xs) = some c') : idle (c.task t) = true ∧ M.admits c t i = true ∧
      c' = resume { c with world := ((M.program t i).run M.exec xs c.world).2 } t
        (.ended ((M.program t i).run M.exec xs c.world).1) := by
  simp only [round, Bool.and_eq_true, Option.ite_none_right_eq_some, Option.some.injEq] at h
  exact ⟨h.1.1, h.1.2, h.2.symm⟩

/-- An idle task performs the program of any input it may take up. -/
lemma exists_round {c : M.Conf} {t : M.Task} {i : M.Input} (hidle : idle (c.task t) = true)
    (hadmits : M.admits c t i = true) (xs : ℕ → M.Choice) :
    ∃ c', round c (.run t i xs) = some c' ∧ (∃ p, c'.task t = some p ∧ p.finished = true) ∧
      ∀ u, u ≠ t → c'.task u = c.task u := by
  refine ⟨_, if_pos (by simp [hidle, hadmits]), ⟨_, resume_task_self _ _ _, by simp⟩, ?_⟩
  intro u hu
  rw [resume_task_of_ne hu]

lemma round_world {c c' : M.Conf} {t : M.Task} {i : M.Input} {xs : ℕ → M.Choice}
    (h : round c (.run t i xs) = some c') :
    c'.world = ((M.program t i).run M.exec xs c.world).2 := by
  obtain ⟨-, -, rfl⟩ := round_run h
  rfl

lemma round_env {c c' : M.Conf} {e : M.Env} (h : round c (.env e) = some c') :
    ∃ w, M.ambient e c = some w ∧ c' = { c with world := w } := by
  simp only [round, Option.map_eq_some_iff] at h
  obtain ⟨w, hw, rfl⟩ := h
  exact ⟨w, hw, rfl⟩

variable {init : M.Conf}

/-- A task that is left to itself finishes its program. -/
lemma Run.finish {t : M.Task} (p : Prog S M.Out) : ∀ (xs : ℕ → M.Choice)
    {h : List M.Transition} {c : M.Conf}, Run anyStep init h c → c.task t = some p →
      ∃ h', Run anyStep init (h ++ h')
        (resume { c with world := (p.run M.exec xs c.world).2 } t
          (.ended (p.run M.exec xs c.world).1)) := by
  have hsame : ∀ {c : M.Conf} {p : Prog S M.Out}, c.task t = some p → resume c t p = c := by
    rintro ⟨world, task⟩ p hp
    have htask : Function.update task t (some p) = task := by rw [← hp, Function.update_eq_self]
    rw [resume, htask]
  induction p with
  | ret a =>
      intro xs h c hr ht
      refine ⟨[], ?_⟩
      rw [List.append_nil]
      exact (hsame ht).symm ▸ hr
  | fail e =>
      intro xs h c hr ht
      refine ⟨[], ?_⟩
      rw [List.append_nil]
      exact (hsame ht).symm ▸ hr
  | call o k ih =>
      intro xs h c hr ht
      obtain ⟨h', hr'⟩ := ih _ (fun n => xs (n + 1)) (hr.snoc (step_of_call ht (xs 0)) trivial)
        (resume_task_self _ _ _)
      rw [List.append_assoc] at hr'
      exact ⟨_, by simpa [resume] using hr'⟩

/-- **The interleaved system can do whatever a round does.** -/
theorem Run.round {h : List M.Transition} {c c' : M.Conf} {a : M.Round}
    (hr : Run anyStep init h c) (ha : System.round c a = some c') :
    ∃ h', Run anyStep init (h ++ h') c' := by
  cases a with
  | run t i xs =>
      obtain ⟨hidle, hadmits, rfl⟩ := round_run ha
      have hs : step c (.start t i) = some (resume c t (M.program t i)) := by
        simp [step, hidle, hadmits]
      obtain ⟨h', hr'⟩ := Run.finish (M.program t i) xs (hr.snoc hs trivial)
        (resume_task_self _ _ _)
      rw [List.append_assoc] at hr'
      exact ⟨_, by simpa [resume] using hr'⟩
  | env e =>
      have hs : step c (.env e) = some c' := ha
      exact ⟨_, hr.snoc hs trivial⟩

end System

/-! ## Trails -/

section Trail

variable {C A : Type}

/-- The runs of a partial step function whose steps all meet `ok`: the steps in order, each with
the state in which it was taken, and the state reached. -/
inductive Trail (step : C → A → Option C) (ok : C → A → Prop) (init : C) : List (C × A) → C → Prop
  | nil : Trail step ok init [] init
  | snoc {h : List (C × A)} {c c' : C} {a : A} (hr : Trail step ok init h c)
      (hs : step c a = some c') (hok : ok c a) : Trail step ok init (h ++ [(c, a)]) c'

variable {step : C → A → Option C} {ok : C → A → Prop} {init : C}

/-- A property of the history and the state that holds at the start and that every step keeps
holds at the end of every trail. -/
theorem Trail.invariant {I : List (C × A) → C → Prop} (h0 : I [] init)
    (hstep : ∀ h c a c', Trail step ok init h c → I h c → step c a = some c' → ok c a →
      I (h ++ [(c, a)]) c') {h : List (C × A)} {c : C} (hr : Trail step ok init h c) : I h c := by
  induction hr with
  | nil => exact h0
  | snoc hr hs hok ih => exact hstep _ _ _ _ hr ih hs hok

variable (step) in
/-- Take steps in order, as long as they are possible. -/
def follow : List (C × A) → C → List A → Option (List (C × A) × C)
  | h, c, [] => some (h, c)
  | h, c, a :: as => (step c a).bind fun c' => follow (h ++ [(c, a)]) c' as

lemma trail_of_follow (hok : ∀ c a, ok c a) {as : List A} : ∀ {h h' : List (C × A)} {c c' : C},
    Trail step ok init h c → follow step h c as = some (h', c') → Trail step ok init h' c' := by
  induction as with
  | nil =>
      intro h h' c c' hr hf
      obtain ⟨rfl, rfl⟩ : h = h' ∧ c = c' := by simpa [follow] using hf
      exact hr
  | cons a as ih =>
      intro h h' c c' hr hf
      obtain ⟨c₁, hs, hf⟩ := Option.bind_eq_some_iff.mp hf
      exact ih (hr.snoc hs (hok c a)) hf

/-- If a list of steps can be taken, each of which is allowed, and ends with a property, then some
trail ends with the property. -/
theorem exists_trail_of_follow (step : C → A → Option C) (ok : C → A → Prop) (init : C)
    (hok : ∀ c a, ok c a) (as : List A) (P : List (C × A) → C → Bool)
    (h : ((follow step [] init as).map fun r => P r.1 r.2) = some true) :
    ∃ hist c, Trail step ok init hist c ∧ P hist c = true := by
  obtain ⟨⟨hist, c⟩, hf, hP⟩ := Option.map_eq_some_iff.mp h
  exact ⟨hist, c, trail_of_follow hok .nil hf, hP⟩

end Trail

end Concurrency
