import HashHush.Concurrency.Program

/-!
# Interleaved runs of programs

A `System` is a shared world, the operations on it and a set of tasks, each of which executes
one program after another.  A configuration records the world and, for every task, what is left
of its current program.  One transition either starts a program on a task that is idle, lets one
task perform its next call, or changes the world by an event of the environment; nothing else
orders the tasks, so a `Run` is any interleaving of their calls.

Runs carry their transitions, so that a property may speak about what happened and not only
about the state reached, and a predicate `ok` that every transition meets: a run under a
condition is a run whose transitions all satisfy it.

Three ways to prove something about every run are given.  `Run.invariant` is the usual
induction.  `Run.only` bounds the operations a task can call by those its programs contain.
`Run.modular` looks at one task: from a view of the run, what the task's own calls do to it and
what the others may do to it, it reduces a property of the interleaved run to the weakest
precondition of the task's programs.
-/

namespace Concurrency

/-- The shared world and what is left of the program of every task.  A task that never started
has no program; one that ended keeps its outcome. -/
structure Config (S : Signature) (W T α : Type) where
  world : W
  task : T → Option (Prog S α)

/-- The task can take up a new program. -/
def idle {S : Signature} {α : Type} : Option (Prog S α) → Bool
  | none => true
  | some p => p.finished

/-- A world with atomic operations, shared by tasks that execute programs. -/
structure System (S : Signature) where
  World : Type
  /-- What resolves the nondeterminism of one operation. -/
  Choice : Type
  Task : Type
  /-- What makes a task start a program: a callback with its arguments, a request. -/
  Input : Type
  /-- Events of the environment. -/
  Env : Type
  /-- What programs return. -/
  Out : Type
  decTask : DecidableEq Task
  exec : (o : S.Op) → Choice → World → S.Res o × World
  program : Task → Input → Prog S Out
  /-- Whether an idle task may take up an input. -/
  admits : Config S World Task Out → Task → Input → Bool
  /-- The world after an event of the environment, where the event is possible. -/
  ambient : Env → Config S World Task Out → Option World

namespace System

variable {S : Signature} (M : System S)

instance : DecidableEq M.Task := M.decTask

/-- A configuration of the system. -/
abbrev Conf := Config S M.World M.Task M.Out

/-- The transitions of a system. -/
inductive Label
  /-- An idle task takes up an input. -/
  | start (t : M.Task) (i : M.Input)
  /-- A task performs the next call of its program. -/
  | advance (t : M.Task) (x : M.Choice)
  /-- The environment acts. -/
  | env (e : M.Env)

variable {M}

/-- Replace what is left of the program of one task. -/
def resume (c : M.Conf) (t : M.Task) (p : Prog S M.Out) : M.Conf :=
  { c with task := Function.update c.task t (some p) }

@[simp] lemma resume_world (c : M.Conf) (t : M.Task) (p : Prog S M.Out) :
    (resume c t p).world = c.world := rfl

@[simp] lemma resume_task_self (c : M.Conf) (t : M.Task) (p : Prog S M.Out) :
    (resume c t p).task t = some p := by simp [resume]

lemma resume_task_of_ne {t u : M.Task} (h : u ≠ t) (c : M.Conf) (p : Prog S M.Out) :
    (resume c t p).task u = c.task u := by simp [resume, h]

/-- The configuration after a transition, where the transition is possible. -/
def step (c : M.Conf) : M.Label → Option M.Conf
  | .start t i =>
      if idle (c.task t) && M.admits c t i then some (resume c t (M.program t i)) else none
  | .advance t x =>
      match c.task t with
      | some (.call o k) =>
          some (resume { c with world := (M.exec o x c.world).2 } t (k (M.exec o x c.world).1))
      | _ => none
  | .env e => (M.ambient e c).map fun w => { c with world := w }

lemma step_start {c c' : M.Conf} {t : M.Task} {i : M.Input} (h : step c (.start t i) = some c') :
    idle (c.task t) = true ∧ M.admits c t i = true ∧ c' = resume c t (M.program t i) := by
  simp only [step, Bool.and_eq_true, Option.ite_none_right_eq_some, Option.some.injEq] at h
  exact ⟨h.1.1, h.1.2, h.2.symm⟩

lemma step_advance {c c' : M.Conf} {t : M.Task} {x : M.Choice}
    (h : step c (.advance t x) = some c') :
    ∃ o k, c.task t = some (.call o k) ∧
      c' = resume { c with world := (M.exec o x c.world).2 } t (k (M.exec o x c.world).1) := by
  simp only [step] at h
  split at h
  · rename_i o k ht
    exact ⟨o, k, ht, by simpa using h.symm⟩
  · cases h

/-- A task that is about to call an operation can do so. -/
lemma step_of_call {c : M.Conf} {t : M.Task} {o : S.Op} {k : S.Res o → Prog S M.Out}
    (ht : c.task t = some (.call o k)) (x : M.Choice) : step c (.advance t x) =
      some (resume { c with world := (M.exec o x c.world).2 } t (k (M.exec o x c.world).1)) := by
  simp only [step, ht]

lemma step_env {c c' : M.Conf} {e : M.Env} (h : step c (.env e) = some c') :
    ∃ w, M.ambient e c = some w ∧ c' = { c with world := w } := by
  simp only [step, Option.map_eq_some_iff] at h
  obtain ⟨w, hw, rfl⟩ := h
  exact ⟨w, hw, rfl⟩

/-! ## Runs -/

variable (M) in
/-- One transition of a run, with the configurations around it. -/
structure Transition where
  pre : M.Conf
  label : M.Label
  post : M.Conf

/-- The transition is a call of `o` by `t` that returned `r`. -/
def Transition.Calls (m : M.Transition) (t : M.Task) (o : S.Op) (r : S.Res o) : Prop :=
  ∃ x k, m.label = .advance t x ∧ m.pre.task t = some (.call o k) ∧
    (M.exec o x m.pre.world).1 = r

/-- A transition calls the next operation of its task, and nothing else. -/
lemma Transition.Calls.inv {c c' : M.Conf} {l : M.Label} {t : M.Task} {o : S.Op} {r : S.Res o}
    (h : (⟨c, l, c'⟩ : M.Transition).Calls t o r) :
    (∃ x, l = .advance t x) ∧ ∃ k, c.task t = some (.call o k) := by
  obtain ⟨x, k, hl, ht, -⟩ := h
  exact ⟨⟨x, hl⟩, k, ht⟩

lemma Transition.Calls.eq_of_advance {c c' : M.Conf} {t u : M.Task} {x : M.Choice} {o o' : S.Op}
    {k : S.Res o → Prog S M.Out} {r : S.Res o'}
    (h : (⟨c, .advance t x, c'⟩ : M.Transition).Calls u o' r) (ht : c.task t = some (.call o k)) :
    u = t ∧ o' = o := by
  obtain ⟨x', k', hl, hu, -⟩ := h
  obtain ⟨rfl, rfl⟩ : t = u ∧ x = x' := by simpa using hl
  have hcall : Prog.call o' k' = Prog.call o k := Option.some.inj (hu.symm.trans ht)
  exact ⟨rfl, (Prog.call.inj hcall).1⟩

/-- The runs from `init` whose transitions all meet `ok`, which may depend on what went before:
the transitions in order, and the configuration reached. -/
inductive Run (ok : List M.Transition → M.Transition → Prop) (init : M.Conf) :
    List M.Transition → M.Conf → Prop
  | nil : Run ok init [] init
  | snoc {h : List M.Transition} {c c' : M.Conf} {l : M.Label} :
      Run ok init h c → step c l = some c' → ok h ⟨c, l, c'⟩ →
        Run ok init (h ++ [⟨c, l, c'⟩]) c'

/-- Any run at all. -/
def anyStep : List M.Transition → M.Transition → Prop := fun _ _ => True

variable {ok : List M.Transition → M.Transition → Prop} {init : M.Conf}

/-- A property of the history and the configuration that holds at the start and that every
transition keeps holds after every run. -/
theorem Run.invariant {I : List M.Transition → M.Conf → Prop} (h0 : I [] init)
    (hstep : ∀ h c l c', Run ok init h c → I h c → step c l = some c' → ok h ⟨c, l, c'⟩ →
      I (h ++ [⟨c, l, c'⟩]) c')
    {h : List M.Transition} {c : M.Conf} (hr : Run ok init h c) : I h c := by
  induction hr with
  | nil => exact h0
  | snoc hr hs hok ih => exact hstep _ _ _ _ hr ih hs hok

/-- A run under a condition is a run under every weaker one. -/
lemma Run.weaken {ok' : List M.Transition → M.Transition → Prop}
    (hok : ∀ h m, ok h m → ok' h m) {h : List M.Transition} {c : M.Conf}
    (hr : Run ok init h c) : Run ok' init h c := by
  induction hr with
  | nil => exact .nil
  | snoc hr hs hm ih => exact .snoc ih hs (hok _ _ hm)

/-- Every transition of a run was performed after the run that led to it. -/
lemma Run.of_append {h h' : List M.Transition} {m : M.Transition} {c : M.Conf}
    (hr : Run ok init (h ++ m :: h') c) :
    Run ok init h m.pre ∧ step m.pre m.label = some m.post ∧ ok h m := by
  generalize heq : h ++ m :: h' = hist at hr
  induction hr generalizing h' with
  | nil => simp at heq
  | @snoc h₁ c₁ c' l hr hs hm ih =>
      rcases List.eq_nil_or_concat h' with rfl | ⟨h', e, rfl⟩
      · obtain ⟨rfl, hlast⟩ := List.append_inj' heq rfl
        obtain rfl := (List.cons.inj hlast).1
        exact ⟨hr, hs, hm⟩
      · have heq : (h ++ m :: h') ++ [e] = h₁ ++ [⟨c₁, l, c'⟩] := by simpa using heq
        exact ih (List.append_inj' heq rfl).1

/-- A quantity that every transition changes by its own amount has changed by their sum after a
run. -/
theorem Run.total {f : M.Conf → ℤ} {δ : M.Transition → ℤ}
    (hstep : ∀ c l c', step c l = some c' → f c' = f c + δ ⟨c, l, c'⟩) {h : List M.Transition}
    {c : M.Conf} (hr : Run ok init h c) : f c = f init + (h.map δ).sum := by
  induction hr with
  | nil => simp
  | @snoc h c c' l hr hs hok ih =>
      rw [hstep c l c' hs, ih, List.map_append, List.sum_append, List.map_singleton,
        List.sum_singleton, add_assoc]

/-! ## Since when something has been there -/

/-- Something has been there since the start, where `initial` says so, or since a transition of
`begins`, and no transition of `ends` has come after. -/
def Since (initial : Prop) (begins ends : M.Transition → Prop) (h : List M.Transition) : Prop :=
  (initial ∧ ∀ m ∈ h, ¬ ends m) ∨
    ∃ h₁ m h₂, h = h₁ ++ m :: h₂ ∧ begins m ∧ ∀ m' ∈ h₂, ¬ ends m'

lemma Since.snoc {initial : Prop} {begins ends : M.Transition → Prop} {h : List M.Transition}
    (hs : Since initial begins ends h) {m : M.Transition} (hm : ¬ ends m) :
    Since initial begins ends (h ++ [m]) := by
  have hlast : ∀ {l : List M.Transition}, (∀ m' ∈ l, ¬ ends m') → ∀ m' ∈ l ++ [m], ¬ ends m' := by
    intro l hl m' hm'
    rcases List.mem_append.mp hm' with hm' | hm'
    · exact hl m' hm'
    · rw [List.mem_singleton.mp hm']
      exact hm
  rcases hs with ⟨hinit, hno⟩ | ⟨h₁, m₀, h₂, rfl, hb, hno⟩
  · exact .inl ⟨hinit, hlast hno⟩
  · exact .inr ⟨h₁, m₀, h₂ ++ [m], by simp, hb, hlast hno⟩

lemma Since.of_begins {initial : Prop} {begins ends : M.Transition → Prop} {m : M.Transition}
    (hm : begins m) (h : List M.Transition) : Since initial begins ends (h ++ [m]) :=
  .inr ⟨h, m, [], rfl, hm, by simp⟩

/-- If a transition leaves something behind only by beginning it, or where it was and the
transition does not end it, then whatever is there has been there since it began. -/
theorem Run.since {P : M.Conf → Prop} {begins ends : M.Transition → Prop}
    (hstep : ∀ c l c', step c l = some c' → P c' →
      P c ∧ ¬ ends ⟨c, l, c'⟩ ∨ begins ⟨c, l, c'⟩)
    {h : List M.Transition} {c : M.Conf} (hr : Run ok init h c) (hc : P c) :
    Since (P init) begins ends h := by
  refine hr.invariant (I := fun h c => P c → Since (P init) begins ends h)
    (fun hc => .inl ⟨hc, by simp⟩) ?_ hc
  intro h c l c' _ ih hs _ hc'
  rcases hstep c l c' hs hc' with ⟨hc, hends⟩ | hbegins
  · exact (ih hc).snoc hends
  · exact .of_begins hbegins h

/-! ## Runs from a list of labels -/

/-- Perform transitions in order, as long as they are possible and pass a test. -/
def replay (test : List M.Transition → M.Transition → Bool) :
    List M.Transition → M.Conf → List M.Label → Option (List M.Transition × M.Conf)
  | h, c, [] => some (h, c)
  | h, c, l :: ls =>
      (step c l).bind fun c' =>
        if test h ⟨c, l, c'⟩ then replay test (h ++ [⟨c, l, c'⟩]) c' ls else none

lemma run_of_replay {test : List M.Transition → M.Transition → Bool}
    (htest : ∀ h m, Run ok init h m.pre → test h m = true → ok h m) {ls : List M.Label} :
    ∀ {h h' : List M.Transition} {c c' : M.Conf}, Run ok init h c →
      replay test h c ls = some (h', c') → Run ok init h' c' := by
  induction ls with
  | nil =>
      intro h h' c c' hr hp
      obtain ⟨rfl, rfl⟩ : h = h' ∧ c = c' := by simpa [replay] using hp
      exact hr
  | cons l ls ih =>
      intro h h' c c' hr hp
      obtain ⟨c₁, hs, hp⟩ := Option.bind_eq_some_iff.mp hp
      split at hp
      · exact ih (hr.snoc hs (htest _ _ hr ‹_›)) hp
      · cases hp

/-- What is performed is appended to the history. -/
lemma labels_of_replay {test : List M.Transition → M.Transition → Bool} {ls : List M.Label} :
    ∀ {h h' : List M.Transition} {c c' : M.Conf}, replay test h c ls = some (h', c') →
      ∃ g, h' = h ++ g ∧ g.map Transition.label = ls := by
  induction ls with
  | nil =>
      intro h h' c c' hp
      obtain ⟨rfl, rfl⟩ : h = h' ∧ c = c' := by simpa [replay] using hp
      exact ⟨[], by simp, rfl⟩
  | cons l ls ih =>
      intro h h' c c' hp
      obtain ⟨c₁, hs, hp⟩ := Option.bind_eq_some_iff.mp hp
      split at hp
      · obtain ⟨g, rfl, hg⟩ := ih hp
        exact ⟨⟨c, l, c₁⟩ :: g, by simp, by simp [hg]⟩
      · cases hp

/-- Labels that can be performed from a configuration, each passing a test, and end with a
property. -/
structure Script (init : M.Conf) (test : List M.Transition → M.Transition → Bool)
    (P : List M.Transition → M.Conf → Bool) where
  labels : List M.Label
  performed : ((replay test [] init labels).map fun r => P r.1 r.2) = some true

/-- If the test implies the condition, then some run under the condition ends with the property. -/
theorem Script.exists_run {test : List M.Transition → M.Transition → Bool}
    {P : List M.Transition → M.Conf → Bool} (s : Script init test P)
    (htest : ∀ h m, Run ok init h m.pre → test h m = true → ok h m) :
    ∃ h c, Run ok init h c ∧ P h c = true := by
  obtain ⟨⟨h, c⟩, hp, hP⟩ := Option.map_eq_some_iff.mp s.performed
  exact ⟨h, c, run_of_replay htest .nil hp, hP⟩

/-- The task of a transition. -/
def Label.task? : M.Label → Option M.Task
  | .start t _ => some t
  | .advance t _ => some t
  | .env _ => none

/-- A task without transitions is where it was. -/
lemma task_of_replay {test : List M.Transition → M.Transition → Bool} {t : M.Task}
    {ls : List M.Label} (ht : t ∉ ls.filterMap Label.task?) :
    ∀ {h h' : List M.Transition} {c c' : M.Conf},
      replay test h c ls = some (h', c') → c'.task t = c.task t := by
  induction ls with
  | nil =>
      intro h h' c c' hp
      obtain ⟨rfl, rfl⟩ : h = h' ∧ c = c' := by simpa [replay] using hp
      rfl
  | cons l ls ih =>
      intro h h' c c' hp
      obtain ⟨c₁, hs, hp⟩ := Option.bind_eq_some_iff.mp hp
      have hl : l.task? ≠ some t := fun hl => ht (List.mem_filterMap.mpr ⟨l, by simp, hl⟩)
      have hls : t ∉ ls.filterMap Label.task? := fun hmem =>
        ht (List.mem_filterMap.mpr (by
          obtain ⟨l', hl', heq⟩ := List.mem_filterMap.mp hmem
          exact ⟨l', List.mem_cons_of_mem _ hl', heq⟩))
      split at hp
      · rw [ih hls hp]
        cases l with
        | start u i =>
            obtain ⟨-, -, rfl⟩ := step_start hs
            exact resume_task_of_ne (fun e => hl (congrArg some e.symm)) _ _
        | advance u x =>
            obtain ⟨o, k, -, rfl⟩ := step_advance hs
            exact resume_task_of_ne (fun e => hl (congrArg some e.symm)) _ _
        | env e =>
            obtain ⟨w, -, rfl⟩ := step_env hs
            rfl
      · cases hp

/-- No task with a transition in the history is executing a program. -/
def settled (h : List M.Transition) (c : M.Conf) : Bool :=
  (h.filterMap fun m => m.label.task?).all fun t => idle (c.task t)

/-- The same for a run after which no program is in progress. -/
theorem Script.exists_idle_run {test : List M.Transition → M.Transition → Bool}
    {P : List M.Transition → M.Conf → Bool} (s : Script init test fun h c => settled h c && P h c)
    (htest : ∀ h m, Run ok init h m.pre → test h m = true → ok h m)
    (hinit : ∀ t, idle (init.task t) = true) :
    ∃ h c, Run ok init h c ∧ (∀ t, idle (c.task t) = true) ∧ P h c = true := by
  obtain ⟨⟨h, c⟩, hp, hP⟩ := Option.map_eq_some_iff.mp s.performed
  obtain ⟨hsettled, hP⟩ := Bool.and_eq_true_iff.mp hP
  obtain ⟨g, rfl, hlabels⟩ := labels_of_replay hp
  refine ⟨_, c, run_of_replay htest .nil hp, fun t => ?_, hP⟩
  by_cases ht : t ∈ s.labels.filterMap Label.task?
  · rw [← hlabels, List.filterMap_map] at ht
    exact List.all_eq_true.mp hsettled t ht
  · rw [task_of_replay ht hp]
    exact hinit t

/-! ## One task among the others -/

/-- The transition is one of the task `t`. -/
def Label.IsOf (t : M.Task) : M.Label → Prop
  | .start u _ => u = t
  | .advance u _ => u = t
  | .env _ => False

lemma Label.task?_eq_some {l : M.Label} {t : M.Task} : l.task? = some t ↔ l.IsOf t := by
  cases l <;> simp [task?, IsOf]

lemma step_task_of_not_isOf {c c' : M.Conf} {l : M.Label} {t : M.Task}
    (h : step c l = some c') (hl : ¬ l.IsOf t) : c'.task t = c.task t := by
  cases l with
  | start u i =>
      obtain ⟨-, -, rfl⟩ := step_start h
      exact resume_task_of_ne (fun e => hl e.symm) _ _
  | advance u x =>
      obtain ⟨o, k, -, rfl⟩ := step_advance h
      exact resume_task_of_ne (fun e => hl e.symm) _ _
  | env e =>
      obtain ⟨w, -, rfl⟩ := step_env h
      rfl

/-- A task that has no program has had none. -/
theorem Run.not_isOf_of_none {h : List M.Transition} {c : M.Conf} (hr : Run ok init h c)
    {t : M.Task} (hc : c.task t = none) : ∀ m ∈ h, ¬ m.label.IsOf t := by
  refine hr.invariant (I := fun h c => c.task t = none → ∀ m ∈ h, ¬ m.label.IsOf t) (by simp) ?_ hc
  intro h c l c' hr ih hs _ hc m hm
  have hl : ¬ l.IsOf t := by
    intro hl
    cases l with
    | start u i =>
        obtain rfl : u = t := hl
        simp [(step_start hs).2.2] at hc
    | advance u x =>
        obtain rfl : u = t := hl
        obtain ⟨o, k, -, rfl⟩ := step_advance hs
        simp at hc
    | env e => exact hl
  rcases List.mem_append.mp hm with hm | hm
  · exact ih (step_task_of_not_isOf hs hl ▸ hc) m hm
  · rw [List.mem_singleton.mp hm]
    exact hl

/-- A task without transitions is where it was at the start. -/
theorem Run.task_of_not_isOf {h : List M.Transition} {c : M.Conf} (hr : Run ok init h c)
    {t : M.Task} (ht : ∀ m ∈ h, ¬ m.label.IsOf t) : c.task t = init.task t := by
  refine hr.invariant (I := fun h c => (∀ m ∈ h, ¬ m.label.IsOf t) → c.task t = init.task t)
    (fun _ => rfl) ?_ ht
  intro h c l c' hr ih hs _ hall
  have hl : ¬ l.IsOf t := hall ⟨c, l, c'⟩ (by simp)
  rw [step_task_of_not_isOf hs hl]
  exact ih fun m hm => hall m (List.mem_append_left _ hm)

/-- If the programs that a run starts make only calls that the history allows, and what is allowed
stays so, then whatever is left of them makes only calls that the history allows. -/
theorem Run.only_of_history {P : List M.Transition → M.Task → S.Op → Prop}
    (hmono : ∀ h m t o, P h t o → P (h ++ [m]) t o)
    (h0 : ∀ t p, init.task t = some p → p.Only (P [] t))
    (hstart : ∀ h c t i c', Run ok init h c → step c (.start t i) = some c' →
      ok h ⟨c, .start t i, c'⟩ → (M.program t i).Only (P (h ++ [⟨c, .start t i, c'⟩]) t))
    {h : List M.Transition} {c : M.Conf} (hr : Run ok init h c) :
    ∀ t p, c.task t = some p → p.Only (P h t) := by
  refine hr.invariant (I := fun h c => ∀ t p, c.task t = some p → p.Only (P h t)) h0 ?_
  intro h c l c' hr ih hs hok t p hp
  by_cases hl : l.IsOf t
  · cases l with
    | start u i =>
        obtain rfl : u = t := hl
        have hprog : p = M.program u i := by
          rw [(step_start hs).2.2, resume_task_self, Option.some.injEq] at hp
          exact hp.symm
        exact hprog ▸ hstart h c u i c' hr hs hok
    | advance u x =>
        obtain rfl : u = t := hl
        obtain ⟨o, k, ht, hc'⟩ := step_advance hs
        rw [hc', resume_task_self, Option.some.injEq] at hp
        have hrest : p.Only (P h u) := hp ▸ (ih u _ ht).2 _
        exact hrest.mono fun o => hmono h _ u o
    | env e => exact hl.elim
  · have hrest : p.Only (P h t) := ih t p (step_task_of_not_isOf hs hl ▸ hp)
    exact hrest.mono fun o => hmono h _ t o

/-- If the programs that a run starts make only calls in `P`, then so does whatever is left of
them at any time. -/
theorem Run.only {P : M.Task → S.Op → Prop}
    (h0 : ∀ t p, init.task t = some p → p.Only (P t))
    (hstart : ∀ h c t i c', Run ok init h c → step c (.start t i) = some c' →
      ok h ⟨c, .start t i, c'⟩ → (M.program t i).Only (P t))
    {h : List M.Transition} {c : M.Conf} (hr : Run ok init h c) :
    ∀ t p, c.task t = some p → p.Only (P t) :=
  hr.only_of_history (P := fun _ => P) (fun _ _ _ _ ho => ho) h0 hstart

/-- What holds of a task between two transitions: between programs the invariant of its view,
within a program its weakest precondition for that invariant. -/
def Serves {σ : Type} (L : Spec S σ) (I : σ → Prop) : Option (Prog S M.Out) → σ → Prop
  | none, s => I s
  | some p, s => p.Wp L (fun _ => I) s

section Serves

variable {σ : Type} {L : Spec S σ} {I : σ → Prop}

lemma Serves.of_idle {p : Option (Prog S M.Out)} {s : σ} (h : Serves (M := M) L I p s)
    (hp : idle p = true) : I s := by
  match p, h with
  | none, h => exact h
  | some (.ret _), h => exact h
  | some (.fail _), h => exact h
  | some (.call _ _), _ => simp [idle] at hp

lemma Serves.pre {p : Option (Prog S M.Out)} {s : σ} {o : S.Op} {k : S.Res o → Prog S M.Out}
    (h : Serves (M := M) L I p s) (hp : p = some (.call o k)) : L.pre o s := by
  subst hp
  exact (h s (L.refl s)).1

/-- **The modular rule.**  Let `view` be what a task can rely on: the others change it within
the stability of `L` only, and the task's own calls within its steps.  If every program of the
task, started where the invariant `I` of the view holds, meets its weakest precondition for `I`,
then in every run the invariant holds whenever the task is idle, and in the midst of a program
the weakest precondition of what is left of it. -/
theorem Run.modular (t : M.Task) (view : List M.Transition → M.Conf → σ)
    (hI : ∀ s s', L.stable s s' → I s → I s')
    (h0 : Serves (M := M) L I (init.task t) (view [] init))
    (hstart : ∀ h c i c', Run ok init h c → step c (.start t i) = some c' →
      ok h ⟨c, .start t i, c'⟩ → I (view h c) →
        (M.program t i).Wp L (fun _ => I) (view (h ++ [⟨c, .start t i, c'⟩]) c'))
    (hown : ∀ h c x c' o k, Run ok init h c → step c (.advance t x) = some c' →
      ok h ⟨c, .advance t x, c'⟩ → c.task t = some (.call o k) → L.pre o (view h c) →
        L.step o (M.exec o x c.world).1 (view h c) (view (h ++ [⟨c, .advance t x, c'⟩]) c'))
    (hother : ∀ h c l c', Run ok init h c → step c l = some c' → ok h ⟨c, l, c'⟩ →
      ¬ l.IsOf t → L.stable (view h c) (view (h ++ [⟨c, l, c'⟩]) c'))
    {h : List M.Transition} {c : M.Conf} (hr : Run ok init h c) :
    Serves (M := M) L I (c.task t) (view h c) := by
  refine hr.invariant (I := fun h c => Serves (M := M) L I (c.task t) (view h c)) h0 ?_
  intro h c l c' hr ih hs hok
  by_cases hl : l.IsOf t
  · cases l with
    | start u i =>
        obtain rfl : u = t := hl
        have hwp := hstart h c i c' hr hs hok (ih.of_idle (step_start hs).1)
        rw [(step_start hs).2.2, resume_task_self]
        rwa [(step_start hs).2.2] at hwp
    | advance u x =>
        obtain rfl : u = t := hl
        obtain ⟨o, k, ht, hc'⟩ := step_advance hs
        have hpre := ih.pre ht
        have hstep := hown h c x c' o k hr hs hok ht hpre
        rw [ht] at ih
        have htask : c'.task u = some (k (M.exec o x c.world).1) := by
          rw [hc', resume_task_self]
        rw [htask]
        exact (ih _ (L.refl _)).2 _ _ hstep
    | env e => exact hl.elim
  · rw [step_task_of_not_isOf hs hl]
    have hst := hother h c l c' hr hs hok hl
    cases ht : c.task t with
    | none =>
        rw [ht] at ih
        exact hI _ _ hst ih
    | some p =>
        rw [ht] at ih
        exact Prog.Wp.stable (fun _ => hI) ih hst

end Serves

/-- What holds of a task between two transitions, when its calls are told apart by what follows
them. -/
def Follows {σ : Type} (A : Prog.Account S M.Out σ) (I : σ → Prop) :
    Option (Prog S M.Out) → σ → Prop
  | none, s => I s
  | some p, s => p.Leads A I s

section Follows

variable {σ : Type} {A : Prog.Account S M.Out σ} {I : σ → Prop} {p : Option (Prog S M.Out)} {s : σ}

lemma Follows.of_idle (h : Follows (M := M) A I p s) (hp : idle p = true) : I s := by
  match p, h with
  | none, h => exact h
  | some (.ret _), h => exact h
  | some (.fail _), h => exact h
  | some (.call _ _), _ => simp [idle] at hp

lemma Follows.pre {o : S.Op} {k : S.Res o → Prog S M.Out} (h : Follows (M := M) A I p s)
    (hp : p = some (.call o k)) : A.pre o s := by
  subst hp
  exact h.1

/-- The modular rule for a view that the other tasks leave alone, and that a call of the task
changes as the program it goes on with says. -/
theorem Run.accounted (t : M.Task) (view : List M.Transition → M.Conf → σ)
    (h0 : Follows (M := M) A I (init.task t) (view [] init))
    (hstart : ∀ h c i c', Run ok init h c → step c (.start t i) = some c' → I (view h c) →
      (M.program t i).Leads A I (view (h ++ [⟨c, .start t i, c'⟩]) c'))
    (hown : ∀ h c x c' o k, Run ok init h c → step c (.advance t x) = some c' →
      c.task t = some (.call o k) → A.pre o (view h c) →
        A.step o k (M.exec o x c.world).1 (view h c) (view (h ++ [⟨c, .advance t x, c'⟩]) c'))
    (hother : ∀ h c l c', Run ok init h c → step c l = some c' → ¬ l.IsOf t →
      view (h ++ [⟨c, l, c'⟩]) c' = view h c)
    {h : List M.Transition} {c : M.Conf} (hr : Run ok init h c) :
    Follows (M := M) A I (c.task t) (view h c) := by
  refine hr.invariant (I := fun h c => Follows (M := M) A I (c.task t) (view h c)) h0 ?_
  intro h c l c' hr ih hs _
  by_cases hl : l.IsOf t
  · cases l with
    | start u i =>
        obtain rfl : u = t := hl
        have hidle : I (view h c) := ih.of_idle (step_start hs).1
        have htask : c'.task u = some (M.program u i) := by
          rw [(step_start hs).2.2, resume_task_self]
        rw [htask]
        exact hstart h c i c' hr hs hidle
    | advance u x =>
        obtain rfl : u = t := hl
        obtain ⟨o, k, ht, hc'⟩ := step_advance hs
        have hstep := hown h c x c' o k hr hs ht (ih.pre ht)
        have htask : c'.task u = some (k (M.exec o x c.world).1) := by
          rw [hc', resume_task_self]
        rw [ht] at ih
        rw [htask]
        exact ih.2 _ _ hstep
    | env e => exact hl.elim
  · rw [step_task_of_not_isOf hs hl, hother h c l c' hr hs hl]
    exact ih

end Follows

/-! ## The calls of one task -/

/-- The call that a transition performs for task `t`, with its result. -/
def Transition.called (t : M.Task) (m : M.Transition) : Option (Called S) :=
  match m.label with
  | .advance u x =>
      if u = t then
        match m.pre.task u with
        | some (.call o _) => some ⟨o, (M.exec o x m.pre.world).1⟩
        | _ => none
      else none
  | _ => none

/-- The call that a transition performs, with its result. -/
def Transition.performed (m : M.Transition) : Option (Called S) :=
  m.label.task?.bind fun t => m.called t

/-- The calls that task `t` has performed, in order. -/
def calls (t : M.Task) (h : List M.Transition) : List (Called S) := h.filterMap fun m => m.called t

lemma calls_snoc (t : M.Task) (h : List M.Transition) (m : M.Transition) :
    calls t (h ++ [m]) = calls t h ++ (m.called t).toList := by
  rw [calls, List.filterMap_append]
  cases hm : m.called t <;> simp [calls, hm]

lemma called_advance {c : M.Conf} {t : M.Task} {o : S.Op} {k : S.Res o → Prog S M.Out}
    (ht : c.task t = some (.call o k)) (x : M.Choice) (c' : M.Conf) :
    (⟨c, .advance t x, c'⟩ : M.Transition).called t = some ⟨o, (M.exec o x c.world).1⟩ := by
  simp [Transition.called, ht]

lemma called_of_not_isOf {t : M.Task} {m : M.Transition} (hm : ¬ m.label.IsOf t) :
    m.called t = none := by
  obtain ⟨c, l, c'⟩ := m
  cases l with
  | start u i => rfl
  | advance u x => exact if_neg hm
  | env e => rfl

lemma calls_advance {c : M.Conf} {t : M.Task} {o : S.Op} {k : S.Res o → Prog S M.Out}
    (ht : c.task t = some (.call o k)) (h : List M.Transition) (x : M.Choice) (c' : M.Conf) :
    calls t (h ++ [⟨c, .advance t x, c'⟩]) = calls t h ++ [⟨o, (M.exec o x c.world).1⟩] := by
  rw [calls_snoc, called_advance ht, Option.toList_some]

lemma calls_of_not_isOf {t : M.Task} {m : M.Transition} (hm : ¬ m.label.IsOf t)
    (h : List M.Transition) : calls t (h ++ [m]) = calls t h := by
  rw [calls_snoc, called_of_not_isOf hm, Option.toList_none, List.append_nil]

lemma calls_start (t u : M.Task) (i : M.Input) (h : List M.Transition) (c c' : M.Conf) :
    calls t (h ++ [⟨c, .start u i, c'⟩]) = calls t h := by
  rw [calls_snoc]
  exact List.append_nil _

lemma called_iff {t : M.Task} {m : M.Transition} {e : Called S} :
    m.called t = some e ↔ m.Calls t e.1 e.2 := by
  obtain ⟨o, r⟩ := e
  constructor
  · intro h
    unfold Transition.called at h
    split at h
    · rename_i u x hl
      split at h
      · rename_i hu
        subst hu
        split at h
        · rename_i o' k ht
          obtain ⟨rfl, hr⟩ := Sigma.mk.inj_iff.mp (Option.some.inj h)
          exact ⟨x, k, hl, ht, eq_of_heq hr⟩
        · cases h
      · cases h
    · cases h
  · rintro ⟨x, k, hl, ht, hr⟩
    have hr : (M.exec o x m.pre.world).1 = r := hr
    subst hr
    simp only [Transition.called, hl, ht, if_true]

lemma mem_calls {t : M.Task} {h : List M.Transition} {e : Called S} :
    e ∈ calls t h ↔ ∃ m ∈ h, m.Calls t e.1 e.2 := by
  simp only [calls, List.mem_filterMap, called_iff]

lemma performed_advance {c : M.Conf} {t : M.Task} {o : S.Op} {k : S.Res o → Prog S M.Out}
    (ht : c.task t = some (.call o k)) (x : M.Choice) (c' : M.Conf) :
    (⟨c, .advance t x, c'⟩ : M.Transition).performed = some ⟨o, (M.exec o x c.world).1⟩ :=
  called_advance ht x c'

lemma Transition.Calls.performed {m : M.Transition} {t : M.Task} {o : S.Op} {r : S.Res o}
    (h : m.Calls t o r) : m.performed = some ⟨o, r⟩ := by
  have hcalled : m.called t = some ⟨o, r⟩ := called_iff.mpr h
  obtain ⟨x, k, hl, -, -⟩ := h
  rw [Transition.performed, hl]
  exact hcalled

/-- A task that has no program has made no calls. -/
lemma Run.calls_of_none {h : List M.Transition} {c : M.Conf} (hr : Run ok init h c) {t : M.Task}
    (hc : c.task t = none) : calls t h = [] := by
  refine List.filterMap_eq_nil_iff.mpr fun m hm => ?_
  exact called_of_not_isOf (hr.not_isOf_of_none hc m hm)

/-- The modular rule over the calls that a task has made, which nobody else changes. -/
theorem Run.traced {pre : S.Op → List (Called S) → Prop} {result : (o : S.Op) → S.Res o → Prop}
    {I : List (Called S) → Prop} (t : M.Task)
    (h0 : Serves (M := M) (.traced pre result) I (init.task t) [])
    (hstart : ∀ h c i c', Run ok init h c → step c (.start t i) = some c' →
      I (calls t h) → (M.program t i).Wp (.traced pre result) (fun _ => I) (calls t h))
    (hresult : ∀ h c x c' o k, Run ok init h c → step c (.advance t x) = some c' →
      ok h ⟨c, .advance t x, c'⟩ → c.task t = some (.call o k) → pre o (calls t h) →
        result o (M.exec o x c.world).1)
    {h : List M.Transition} {c : M.Conf} (hr : Run ok init h c) :
    Serves (M := M) (.traced pre result) I (c.task t) (calls t h) := by
  refine hr.modular t (fun h _ => calls t h) ?_ h0 ?_ ?_ ?_
  · rintro s _ rfl hs
    exact hs
  · intro h c i c' hr hs _ hI
    rw [calls_snoc]
    simpa [Transition.called] using hstart h c i c' hr hs hI
  · intro h c x c' o k hr hs hok ht hpre
    rw [calls_snoc, called_advance ht]
    exact ⟨hresult h c x c' o k hr hs hok ht hpre, rfl⟩
  · intro h c l c' _ _ _ hl
    rw [calls_snoc, called_of_not_isOf hl, Option.toList_none, List.append_nil]
    rfl

/-! ## From one transition on -/

/-- Induction along what follows a transition of a run. -/
theorem Run.rest_induction {P : List M.Transition → M.Conf → Prop} {h h' : List M.Transition}
    {m : M.Transition} {c : M.Conf} (hr : Run ok init (h ++ m :: h') c) (h0 : P [] m.post)
    (hstep : ∀ g c l c', Run ok init (h ++ m :: g) c → P g c → step c l = some c' →
      P (g ++ [⟨c, l, c'⟩]) c') : P h' c := by
  generalize heq : h ++ m :: h' = hist at hr
  induction hr generalizing h' with
  | nil => simp at heq
  | @snoc h₁ c₁ c' l hr hs hok ih =>
      rcases List.eq_nil_or_concat h' with rfl | ⟨g, e, rfl⟩
      · obtain ⟨-, hlast⟩ := List.append_inj' heq rfl
        obtain rfl := (List.cons.inj hlast).1
        exact h0
      · have heq : (h ++ m :: g) ++ [e] = h₁ ++ [⟨c₁, l, c'⟩] := by simpa using heq
        obtain ⟨rfl, hlast⟩ := List.append_inj' heq rfl
        obtain rfl := (List.cons.inj hlast).1
        rw [List.concat_eq_append]
        exact hstep g c₁ l c' hr (ih rfl) hs

/-- What holds after a transition, and is only lost by transitions of one kind, holds until one of
these happens. -/
theorem Run.until {P : M.Conf → Prop} {ends : M.Transition → Prop}
    (hstep : ∀ c l c', step c l = some c' → P c → P c' ∨ ends ⟨c, l, c'⟩)
    {h h' : List M.Transition} {m : M.Transition} {c : M.Conf} (hr : Run ok init (h ++ m :: h') c)
    (hm : P m.post) : P c ∨ ∃ m' ∈ h', ends m' := by
  refine hr.rest_induction (P := fun g c => P c ∨ ∃ m' ∈ g, ends m') (.inl hm) ?_
  rintro g c l c' - (hc | ⟨m', hm', hends⟩) hs
  · refine (hstep c l c' hs hc).imp_right fun hends => ⟨_, ?_, hends⟩
    exact List.mem_append_right _ (List.mem_singleton_self _)
  · exact .inr ⟨m', List.mem_append_left _ hm', hends⟩

/-- A task that has a program has taken up an input, a last time. -/
theorem Run.exists_start {h : List M.Transition} {c : M.Conf} (hr : Run ok init h c) {t : M.Task}
    (hinit : init.task t = none) {p : Prog S M.Out} (hp : c.task t = some p) :
    ∃ h₁ c₀ i c₁ h₂, h = h₁ ++ ⟨c₀, .start t i, c₁⟩ :: h₂ ∧ ∀ m ∈ h₂, ∀ i', m.label ≠ .start t i' := by
  refine hr.invariant (I := fun h c => ∀ p, c.task t = some p → ∃ h₁ c₀ i c₁ h₂,
    h = h₁ ++ ⟨c₀, .start t i, c₁⟩ :: h₂ ∧ ∀ m ∈ h₂, ∀ i', m.label ≠ .start t i')
    (fun p hp => by rw [hinit] at hp; cases hp) ?_ p hp
  intro h c l c' _ ih hs _ p hp
  by_cases hstart : ∃ i, l = .start t i
  · obtain ⟨i, rfl⟩ := hstart
    exact ⟨h, c, i, c', [], rfl, by simp⟩
  · obtain ⟨q, hq⟩ : ∃ q, c.task t = some q := by
      by_cases hl : l.IsOf t
      · cases l with
        | start u i =>
            obtain rfl : u = t := hl
            exact absurd ⟨i, rfl⟩ hstart
        | advance u x =>
            obtain rfl : u = t := hl
            obtain ⟨o, k, ht, -⟩ := step_advance hs
            exact ⟨_, ht⟩
        | env e => exact hl.elim
      · exact ⟨p, (step_task_of_not_isOf hs hl).symm.trans hp⟩
    obtain ⟨h₁, c₀, i, c₁, h₂, rfl, hno⟩ := ih q hq
    refine ⟨h₁, c₀, i, c₁, h₂ ++ [⟨c, l, c'⟩], by simp, fun m hm i' hi => ?_⟩
    rcases List.mem_append.mp hm with hm | hm
    · exact hno m hm i' hi
    · rw [List.mem_singleton.mp hm] at hi
      exact hstart ⟨i', hi⟩

/-- Since a task took up an input, its calls lead from the program of the input to what is left
of it. -/
theorem Run.path {t : M.Task} {i : M.Input} {h h' : List M.Transition} {c₀ c₁ c : M.Conf}
    (hr : Run ok init (h ++ ⟨c₀, .start t i, c₁⟩ :: h') c)
    (hno : ∀ m ∈ h', ∀ i', m.label ≠ .start t i') :
    ∃ q, c.task t = some q ∧ (M.program t i).Path (calls t h') q := by
  refine hr.rest_induction (P := fun g c => (∀ m ∈ g, ∀ i', m.label ≠ .start t i') →
    ∃ q, c.task t = some q ∧ (M.program t i).Path (calls t g) q) ?_ ?_ hno
  · obtain ⟨-, hs, -⟩ := hr.of_append
    exact fun _ => ⟨_, by rw [(step_start hs).2.2, resume_task_self], .nil _⟩
  · intro g c l c' _ ih hs hno
    obtain ⟨q, hq, hpath⟩ := ih fun m hm => hno m (List.mem_append_left _ hm)
    by_cases hl : l.IsOf t
    · cases l with
      | start u i' =>
          obtain rfl : u = t := hl
          exact absurd rfl (hno ⟨c, .start u i', c'⟩ (by simp) i')
      | advance u x =>
          obtain rfl : u = t := hl
          obtain ⟨o, k, ht, hc'⟩ := step_advance hs
          obtain rfl : q = .call o k := Option.some.inj (hq.symm.trans ht)
          rw [calls_advance ht]
          exact ⟨_, by rw [hc', resume_task_self], hpath.snoc _⟩
      | env e => exact hl.elim
    · rw [calls_of_not_isOf hl, step_task_of_not_isOf hs hl]
      exact ⟨q, hq, hpath⟩

/-- The first call that a task makes for an input comes after transitions of other tasks. -/
theorem Run.first_call {t : M.Task} {i : M.Input} {h h' : List M.Transition} {c₀ c₁ c : M.Conf}
    (hr : Run ok init (h ++ ⟨c₀, .start t i, c₁⟩ :: h') c)
    (hno : ∀ m ∈ h', ∀ i', m.label ≠ .start t i') {e : Called S} {es : List (Called S)}
    (he : calls t h' = e :: es) :
    ∃ g m g', h' = g ++ m :: g' ∧ (∀ m' ∈ g, ¬ m'.label.IsOf t) ∧ m.Calls t e.1 e.2 := by
  obtain ⟨g, m, g', rfl, hg, hm, -⟩ := List.filterMap_eq_cons_iff.mp he
  refine ⟨g, m, g', rfl, fun m' hm' hof => ?_, called_iff.mp hm⟩
  obtain ⟨g₁, g₂, rfl⟩ := List.append_of_mem hm'
  have hrun : Run ok init ((h ++ ⟨c₀, .start t i, c₁⟩ :: g₁) ++ m' :: (g₂ ++ m :: g')) c := by
    simpa using hr
  obtain ⟨-, hs, -⟩ := hrun.of_append
  have hstart : ∀ i', m'.label ≠ .start t i' := hno m' (by simp)
  have hnone : m'.called t = none := hg m' hm'
  obtain ⟨c₂, l, c₃⟩ := m'
  cases l with
  | start u i' =>
      obtain rfl : u = t := hof
      exact hstart i' rfl
  | advance u x =>
      obtain rfl : u = t := hof
      obtain ⟨o, k, ht, -⟩ := step_advance hs
      rw [called_advance ht] at hnone
      cases hnone
  | env e => exact hof

end System

end Concurrency
