import HashHush.Concurrency.Interleaving

/-!
# Simulations between systems

A translation of signatures sends operations, their results and exceptions of one interface to
those of another.  `Prog.Image` says that a program over the second interface is what a program
over the first becomes: it makes the translated calls, continues in the same way with every
translated result, and ends in the same way, with related values.

A `Simulation` is a translation of two whole systems: worlds are related, the operations keep the
relation, and the programs that the second system runs are images of those of the first.  Then
every run of the first has a run of the second beside it (`Simulation.run`), transition by
transition, with related configurations and translated labels.
-/

namespace Concurrency

/-- A translation of operations, results and exceptions. -/
structure Signature.Hom (S T : Signature) where
  op : S.Op → T.Op
  res : {o : S.Op} → S.Res o → T.Res (op o)
  exn : S.Exn → T.Exn

namespace Prog

variable {S T : Signature} {α α' β β' : Type}

/-- The second program is the translation of the first, with results related by `R`. -/
def Image (φ : S.Hom T) (R : α → β → Prop) : Prog S α → Prog T β → Prop
  | ret a, q => ∃ b, q = ret b ∧ R a b
  | fail e, q => q = fail (φ.exn e)
  | call o k, q => ∃ k', q = call (φ.op o) k' ∧ ∀ r, (k r).Image φ R (k' (φ.res r))

section Image

variable {φ : S.Hom T} {R : α → β → Prop} {R' : α' → β' → Prop}

lemma Image.ret {a : α} {b : β} (h : R a b) : (ret a : Prog S α).Image φ R (ret b : Prog T β) :=
  ⟨b, rfl, h⟩

/-- An operation becomes its translation. -/
lemma Image.perform (o : S.Op) {R : S.Res o → T.Res (φ.op o) → Prop} (h : ∀ r, R r (φ.res r)) :
    (perform o).Image φ R (perform (φ.op o)) :=
  ⟨_, rfl, fun r => .ret (h r)⟩

/-- The rule of an operation. -/
lemma Image.step {o : S.Op} {f : S.Res o → Prog S α} {g : T.Res (φ.op o) → Prog T β}
    (h : ∀ r, (f r).Image φ R (g (φ.res r))) :
    (Prog.perform o >>= f).Image φ R (Prog.perform (φ.op o) >>= g) :=
  ⟨g, rfl, h⟩

/-- The rule of composition. -/
lemma Image.bind {p : Prog S α} {f : α → Prog S α'} {g : β → Prog T β'} :
    ∀ {q : Prog T β}, p.Image φ R q → (∀ a b, R a b → (f a).Image φ R' (g b)) →
      (p >>= f).Image φ R' (q >>= g) := by
  induction p with
  | ret a =>
      rintro q ⟨b, rfl, hab⟩ h
      exact h a b hab
  | fail e =>
      rintro q hq h
      obtain rfl : q = Prog.fail (φ.exn e) := hq
      rfl
  | call o k ih =>
      rintro q ⟨k', rfl, hk⟩ h
      exact ⟨_, rfl, fun r => ih r (hk r) h⟩

/-- Computations without effects that throw together, with related values. -/
lemma Image.ofExcept {γ δ : Type} {Q : γ → δ → Prop} {a : Except S.Exn γ} {b : Except T.Exn δ}
    {f : γ → Prog S α} {g : δ → Prog T β} (herror : ∀ e, a = .error e → b = .error (φ.exn e))
    (hok : ∀ c, a = .ok c → ∃ d, b = .ok d ∧ Q c d)
    (h : ∀ c d, Q c d → (f c).Image φ R (g d)) :
    (Prog.ofExcept a >>= f).Image φ R (Prog.ofExcept b >>= g) := by
  cases ha : a with
  | error e =>
      rw [herror e ha]
      rfl
  | ok c =>
      obtain ⟨d, hb, hcd⟩ := hok c ha
      rw [hb]
      exact h c d hcd

lemma Image.ite {c d : Prop} {_ : Decidable c} {_ : Decidable d} (hcd : c ↔ d)
    {p p' : Prog S α} {q q' : Prog T β} (h : c → p.Image φ R q) (h' : ¬ c → p'.Image φ R q') :
    (if c then p else p').Image φ R (if d then q else q') := by
  by_cases hc : c
  · rw [if_pos hc, if_pos (hcd.mp hc)]
    exact h hc
  · rw [if_neg hc, if_neg fun hd => hc (hcd.mpr hd)]
    exact h' hc

/-- A program and its translation end together. -/
lemma Image.finished {p : Prog S α} {q : Prog T β} (h : p.Image φ R q) :
    q.finished = p.finished := by
  cases p with
  | ret a =>
      obtain ⟨b, rfl, -⟩ := h
      rfl
  | fail e =>
      obtain rfl : q = Prog.fail (φ.exn e) := h
      rfl
  | call o k =>
      obtain ⟨k', rfl, -⟩ := h
      rfl

end Image

end Prog

/-! ## Systems -/

namespace System

variable {S : Signature} {M : System S}

/-- The labels of a run determine where it ends. -/
theorem Run.eq_of_labels {ok ok' : List M.Transition → M.Transition → Prop} {init : M.Conf}
    {h : List M.Transition} {c : M.Conf} (hr : Run ok init h c) :
    ∀ {h' : List M.Transition} {c' : M.Conf}, Run ok' init h' c' →
      h'.map Transition.label = h.map Transition.label → h' = h ∧ c' = c := by
  induction hr with
  | nil =>
      intro h' c' hr' hl
      cases hr' with
      | nil => exact ⟨rfl, rfl⟩
      | snoc hr' hs' _ => simp at hl
  | @snoc h c c₂ l hr hs _ ih =>
      intro h' c' hr' hl
      cases hr' with
      | nil => simp at hl
      | snoc hr' hs' _ =>
          rw [List.map_append, List.map_append] at hl
          obtain ⟨hl, hlast⟩ := List.append_inj' hl rfl
          obtain ⟨rfl, rfl⟩ := ih hr' hl
          obtain rfl := (List.cons.inj hlast).1
          obtain rfl := Option.some.inj (hs'.symm.trans hs)
          exact ⟨rfl, rfl⟩

end System

/-- A translation of the runs of one system into runs of another. -/
structure Simulation {S T : Signature} (M : System S) (N : System T) extends S.Hom T where
  task : M.Task → N.Task
  injective : Function.Injective task
  choice : M.Choice → N.Choice
  input : M.Input → N.Input
  env : M.Env → N.Env
  out : M.Out → N.Out → Prop
  /-- Which worlds of the second system stand for a world of the first. -/
  world : M.World → N.World → Prop
  exec_res : ∀ {o x w w'}, world w w' → (N.exec (op o) (choice x) w').1 = res (M.exec o x w).1
  exec_world : ∀ {o x w w'}, world w w' → world (M.exec o x w).2 (N.exec (op o) (choice x) w').2
  program : ∀ t i, (M.program t i).Image toHom out (N.program (task t) (input i))

namespace Simulation

open Concurrency.System

variable {S T : Signature} {M : System S} {N : System T} (f : Simulation M N)

/-- The label of the second system that stands for one of the first. -/
def label : M.Label → N.Label
  | .start t i => .start (f.task t) (f.input i)
  | .advance t x => .advance (f.task t) (f.choice x)
  | .env e => .env (f.env e)

/-- The worlds are related, and every task has the translation of its program left. -/
structure Related (c : M.Conf) (c' : N.Conf) : Prop where
  world : f.world c.world c'.world
  task : ∀ t, Option.Rel (Prog.Image f.toHom f.out) (c.task t) (c'.task (f.task t))

/-- Two transitions with related configurations around them and the same label up to
translation. -/
structure Matches (m : M.Transition) (m' : N.Transition) : Prop where
  pre : f.Related m.pre m'.pre
  label : m'.label = f.label m.label
  post : f.Related m.post m'.post

/-- What is admitted, and what the environment may do, is so in related configurations. -/
structure Open : Prop where
  admits : ∀ {c c'} t i, f.Related c c' → M.admits c t i = true →
    N.admits c' (f.task t) (f.input i) = true
  ambient : ∀ {c c'} e w, f.Related c c' → M.ambient e c = some w →
    ∃ w', N.ambient (f.env e) c' = some w' ∧ f.world w w'

variable {f}

/-- A task has a program in both systems or in neither. -/
lemma Related.cases {c : M.Conf} {c' : N.Conf} (h : f.Related c c') (t : M.Task) :
    c.task t = none ∧ c'.task (f.task t) = none ∨
      ∃ p q, c.task t = some p ∧ c'.task (f.task t) = some q ∧ p.Image f.toHom f.out q := by
  have ht := h.task t
  generalize c.task t = p, c'.task (f.task t) = q at ht
  cases ht with
  | none => exact .inl ⟨rfl, rfl⟩
  | some himage => exact .inr ⟨_, _, rfl, rfl, himage⟩

lemma Related.isSome {c : M.Conf} {c' : N.Conf} (h : f.Related c c') (t : M.Task) :
    (c'.task (f.task t)).isSome = (c.task t).isSome := by
  rcases h.cases t with ⟨hp, hq⟩ | ⟨p, q, hp, hq, -⟩ <;> rw [hp, hq] <;> rfl

/-- It has ended in both systems or in neither. -/
lemma Related.finished {c : M.Conf} {c' : N.Conf} (h : f.Related c c') (t : M.Task) :
    (c'.task (f.task t)).any Prog.finished = (c.task t).any Prog.finished := by
  rcases h.cases t with ⟨hp, hq⟩ | ⟨p, q, hp, hq, himage⟩ <;> rw [hp, hq]
  · rfl
  · exact himage.finished

/-- A task is idle in both systems or in neither. -/
lemma Related.idle {c : M.Conf} {c' : N.Conf} (h : f.Related c c') (t : M.Task) :
    idle (c'.task (f.task t)) = idle (c.task t) := by
  rcases h.cases t with ⟨hp, hq⟩ | ⟨p, q, hp, hq, himage⟩ <;> rw [hp, hq]
  · rfl
  · exact himage.finished

/-- A task that goes on with translated programs keeps the configurations related. -/
lemma Related.resume {c : M.Conf} {c' : N.Conf} (h : f.Related c c') {w : M.World} {w' : N.World}
    (hw : f.world w w') (t : M.Task) {p : Prog S M.Out} {q : Prog T N.Out}
    (hp : p.Image f.toHom f.out q) :
    f.Related (System.resume { c with world := w } t p)
      (System.resume { c' with world := w' } (f.task t) q) := by
  refine ⟨hw, fun u => ?_⟩
  by_cases hu : u = t
  · subst hu
    rw [resume_task_self, resume_task_self]
    exact .some hp
  · rw [resume_task_of_ne hu, resume_task_of_ne (f.injective.ne hu)]
    exact h.task u

/-- One transition is matched by one transition. -/
lemma step (hf : f.Open) {c₁ c₂ : M.Conf} {c₁' : N.Conf} {l : M.Label} (h : f.Related c₁ c₁')
    (hs : System.step c₁ l = some c₂) :
    ∃ c₂', System.step c₁' (f.label l) = some c₂' ∧ f.Related c₂ c₂' := by
  cases l with
  | start t i =>
      obtain ⟨hidle, hadmits, rfl⟩ := step_start hs
      refine ⟨_, ?_, h.resume h.world t (f.program t i)⟩
      have hidle' : Concurrency.idle (c₁'.task (f.task t)) = true := (h.idle t).trans hidle
      simp only [label, System.step, hidle', hf.admits t i h hadmits, Bool.and_self, if_true]
  | advance t x =>
      obtain ⟨o, k, ht, rfl⟩ := step_advance hs
      rcases h.cases t with ⟨hp, -⟩ | ⟨p, q, hp, hq, himage⟩
      · rw [ht] at hp
        cases hp
      · obtain rfl : p = .call o k := Option.some.inj (hp.symm.trans ht)
        obtain ⟨k', rfl, hk⟩ := himage
        refine ⟨_, step_of_call hq (f.choice x), ?_⟩
        rw [f.exec_res h.world]
        exact h.resume (f.exec_world h.world) t (hk _)
  | env e =>
      obtain ⟨w, hw, rfl⟩ := step_env hs
      obtain ⟨w', hw', hww⟩ := hf.ambient e w h hw
      refine ⟨{ c₁' with world := w' }, ?_, hww, h.task⟩
      simp only [label, System.step, hw', Option.map_some]

/-- **A simulation carries every run over.** -/
theorem run (hf : f.Open) {init : M.Conf} {init' : N.Conf} (h0 : f.Related init init')
    {h : List M.Transition} {c : M.Conf} (hr : Run anyStep init h c) :
    ∃ h' c', Run anyStep init' h' c' ∧ f.Related c c' ∧ List.Forall₂ f.Matches h h' := by
  refine hr.invariant (I := fun h c => ∃ h' c', Run anyStep init' h' c' ∧ f.Related c c' ∧
    List.Forall₂ f.Matches h h') ⟨[], init', .nil, h0, .nil⟩ ?_
  rintro h c l c₂ - ⟨h', c', hr', hrel, hmatches⟩ hs -
  obtain ⟨c₂', hs', hrel'⟩ := step hf hrel hs
  refine ⟨_, c₂', hr'.snoc hs' trivial, hrel', ?_⟩
  exact List.rel_append hmatches (.cons ⟨hrel, rfl, hrel'⟩ .nil)

/-- The labels of the run beside a run are the translated ones. -/
lemma labels_of_matches {h : List M.Transition} {h' : List N.Transition}
    (hm : List.Forall₂ f.Matches h h') :
    h'.map Transition.label = h.map fun m => f.label m.label := by
  induction hm with
  | nil => rfl
  | cons hm _ ih => rw [List.map_cons, List.map_cons, ih, hm.label]

end Simulation

end Concurrency
