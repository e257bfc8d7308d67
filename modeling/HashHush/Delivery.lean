import HashHush.Concurrency.EventLoop
import HashHush.Server

/-!
# From a call to the wire

How Crow brings what the handlers send to the wire.  Every connection, WebSocket or HTTP, lives
on the io_context of one worker thread, which runs the handlers of the connection and the jobs
queued there, one after the other.  `send_text` posts a job to the io_context of its connection,
`close` dispatches one, and a job appends its frame to the write buffer of the connection, which
is sent in order.  A job whose connection is gone by then does nothing.

A deployment says which worker each connection lives on.  `Deployed` is the server of
`Server.lean` together with the event loops of the workers; `deployed_run` forgets the loops.
-/

namespace HashHush

open Concurrency

/-- What a job appends to the write buffer of a connection.  The number of the call that made
the job, which is its position in `World.wire`, tells the jobs apart. -/
structure Buffered where
  conn : Conn
  call : ℕ
  out : Outgoing Str

/-- The worker threads on which the connections of the WebSocket route live, and those of the
HTTP requests. -/
structure Deployment (W : Type) where
  conn : Conn → W
  request : ℕ → W

variable {W : Type}

/-- The worker that runs a task; the purger has a thread that is none of them. -/
def Deployment.thread (D : Deployment W) : Task → Option W
  | .ws c => some (D.conn c)
  | .http n => some (D.request n)
  | .purger => none

/-- The server with the event loops of its workers. -/
structure Deployed (D : Deployment W) where
  conf : State
  loops : EventLoops fun b : Buffered => D.conn b.conn
  /-- The task whose handler a worker is in the midst of. -/
  busy : W → Option Task

/-- What happens next: the server takes a step, or a worker runs the next job of its queue. -/
inductive Turn (W : Type) (cfg : Config) (secret : List UInt8)
  | server (l : (server cfg secret).Label)
  | run (w : W)

/-- The turn is a step of the task. -/
def Turn.IsOf {cfg : Config} {secret : List UInt8} (t : Task) : Turn W cfg secret → Prop
  | .server l => l.IsOf t
  | .run _ => False

namespace Deployed

variable {D : Deployment W} [DecidableEq W]

/-- The frames that have been appended to the write buffer of a connection, in order. -/
def wire (s : Deployed D) (c : Conn) : List Buffered := s.loops.done.filter fun b => b.conn = c

/-- What a call does to the loops. -/
def handOver (s : Deployed D) (thread : Option W) :
    Op Str → EventLoops fun b : Buffered => D.conn b.conn
  | .sendText c f => s.loops.post ⟨c, s.conf.world.wire.length, .text f⟩
  | .close c reason => s.loops.dispatch thread ⟨c, s.conf.world.wire.length, .close reason⟩
  | _ => s.loops

/-- A worker is busy as long as the handler it runs has something left to do. -/
def occupy (D : Deployment W) (busy : W → Option Task) (t : Task) (conf : State) :
    W → Option Task :=
  match D.thread t with
  | some w => Function.update busy w (if idle (conf.task t) then none else some t)
  | none => busy

/-- The deployment after a turn, where the turn is possible. -/
def step {cfg : Config} {secret : List UInt8} (s : Deployed D) :
    Turn W cfg secret → Option (Deployed D)
  | .server (.start t i) =>
      if (D.thread t).all fun w => (s.busy w).isNone then
        (System.step (M := server cfg secret) s.conf (.start t i)).map fun conf =>
          { s with conf, busy := occupy D s.busy t conf }
      else none
  | .server (.advance t x) =>
      match s.conf.task t with
      | some (.call o _) =>
          (System.step (M := server cfg secret) s.conf (.advance t x)).map fun conf =>
            ⟨conf, s.handOver (D.thread t) o, occupy D s.busy t conf⟩
      | _ => none
  | .server (.env e) =>
      (System.step (M := server cfg secret) s.conf (.env e)).map fun conf => { s with conf }
  | .run w =>
      if (s.busy w).isNone then
        some { s with loops := s.loops.run (fun b => b.conn ∉ s.conf.world.destroyed) w }
      else none

/-- The deployment after a list of turns. -/
def after {cfg : Config} {secret : List UInt8} (s : Deployed D) :
    List (Turn W cfg secret) → Option (Deployed D)
  | [] => some s
  | e :: es => (s.step e).bind fun s' => s'.after es

/-- The deployment at the start of the process. -/
def start (D : Deployment W) (db : Database) (clock : ℤ) : Deployed D :=
  ⟨boot db clock, .initial, fun _ => none⟩

/-! ## What a turn does -/

section Turn

variable {cfg : Config} {secret : List UInt8} {s s' : Deployed D} {e : Turn W cfg secret}

/-- What happens to the loops: the job of a new call comes in, or a worker that is in the midst
of no handler runs a job. -/
def LoopStep (s s' : Deployed D) : Prop :=
  s.loops.Step
    (fun b => b.call = s.conf.world.wire.length ∧ b.call < s'.conf.world.wire.length)
    (fun b => b.conn ∉ s.conf.world.destroyed) (fun w => s.busy w = none) s'.loops

/-- What happens to the server. -/
def ServerStep (s s' : Deployed D) : Turn W cfg secret → Prop
  | .server l => System.step (M := server cfg secret) s.conf l = some s'.conf
  | .run _ => s'.conf = s.conf

/-- Which workers are busy. -/
def Occupied (s s' : Deployed D) : Turn W cfg secret → Prop
  | .server (.start t _) =>
      (∀ w, D.thread t = some w → s.busy w = none) ∧ s'.busy = occupy D s.busy t s'.conf
  | .server (.advance t _) => s'.busy = occupy D s.busy t s'.conf
  | _ => s'.busy = s.busy

/-- The three parts of a turn. -/
lemma step_spec (h : s.step e = some s') :
    ServerStep s s' e ∧ s.LoopStep s' ∧ Occupied s s' e := by
  cases e with
  | run w =>
      simp only [step, Option.ite_none_right_eq_some, Option.some.injEq] at h
      obtain ⟨hfree, rfl⟩ := h
      exact ⟨rfl, .run _ (Option.isNone_iff_eq_none.mp hfree), rfl⟩
  | server l =>
      cases l with
      | start t i =>
          simp only [step, Option.ite_none_right_eq_some] at h
          obtain ⟨conf, hconf, rfl⟩ := Option.map_eq_some_iff.mp h.2
          refine ⟨hconf, .idle _, fun w hw => ?_, rfl⟩
          have hfree := h.1
          rw [hw, Option.all_some] at hfree
          exact Option.isNone_iff_eq_none.mp hfree
      | advance t x =>
          simp only [step] at h
          split at h
          · rename_i o k ht
            obtain ⟨conf, hconf, rfl⟩ := Option.map_eq_some_iff.mp h
            refine ⟨hconf, ?_, rfl⟩
            obtain rfl := Option.some.inj ((System.step_of_call ht x).symm.trans hconf)
            have hwire := exec_wire_eq o x s.conf.world
            cases o with
            | sendText c f => exact .post _ ⟨rfl, by simp [hwire, Op.outgoing]⟩
            | close c reason => exact .dispatch _ _ ⟨rfl, by simp [hwire, Op.outgoing]⟩
            | _ => exact .idle _
          · cases h
      | env e =>
          simp only [step] at h
          obtain ⟨conf, hconf, rfl⟩ := Option.map_eq_some_iff.mp h
          exact ⟨hconf, .idle _, rfl⟩

/-- Calls are numbered in order, and a connection object that is gone stays gone. -/
lemma step_grows (h : s.step e = some s') :
    s.conf.world.wire.length ≤ s'.conf.world.wire.length ∧
      s.conf.world.destroyed ⊆ s'.conf.world.destroyed := by
  obtain ⟨hserver, -, -⟩ := step_spec h
  cases e with
  | run w =>
      have hconf : s'.conf = s.conf := hserver
      rw [hconf]
      exact ⟨le_rfl, List.Subset.refl _⟩
  | server l =>
      cases l with
      | start t i =>
          obtain ⟨-, -, hconf⟩ := System.step_start hserver
          rw [hconf]
          exact ⟨le_rfl, List.Subset.refl _⟩
      | advance t x =>
          obtain ⟨o, k, -, hconf⟩ := System.step_advance hserver
          rw [hconf, System.resume_world]
          refine ⟨?_, (exec_destroyed o x _).symm ▸ List.Subset.refl _⟩
          rw [exec_wire_eq, List.length_append]
          exact Nat.le_add_right _ _
      | env e =>
          obtain ⟨w, hw, hconf⟩ := System.step_env hserver
          rw [hconf, ambient_wire hw]
          exact ⟨le_rfl, ambient_destroyed hw⟩

/-- A turn of others leaves a task alone. -/
lemma step_task (h : s.step e = some s') {t : Task} (ht : ¬ e.IsOf t) :
    s'.conf.task t = s.conf.task t := by
  obtain ⟨hserver, -, -⟩ := step_spec h
  cases e with
  | run w => exact congrArg (fun conf : State => conf.task t) hserver
  | server l => exact System.step_task_of_not_isOf hserver ht

end Turn

/-! ## Runs of a deployment -/

section Run

variable {cfg : Config} {secret : List UInt8} {s s' : Deployed D} {es : List (Turn W cfg secret)}

/-- What every turn keeps, a list of turns keeps. -/
lemma after_induction {P : Deployed D → Prop} (h : s.after es = some s')
    (hstep : ∀ s e s', e ∈ es → step s e = some s' → P s → P s') (hs : P s) : P s' := by
  induction es generalizing s with
  | nil =>
      obtain rfl : s = s' := by simpa [after] using h
      exact hs
  | cons e es ih =>
      obtain ⟨s₁, h₁, h⟩ := Option.bind_eq_some_iff.mp h
      refine ih h (fun s e s' he => hstep s e s' (List.mem_cons_of_mem _ he)) ?_
      exact hstep s e s₁ List.mem_cons_self h₁ hs

/-- Without the loops, a run of a deployment is a run of the server. -/
theorem deployed_run {db : Database} {clock : ℤ} (h : (start D db clock).after es = some s) :
    ∃ hist, System.Run (M := server cfg secret) System.anyStep (boot db clock) hist s.conf := by
  refine after_induction (P := fun s => ∃ hist,
    System.Run (M := server cfg secret) System.anyStep (boot db clock) hist s.conf) h ?_ ⟨[], .nil⟩
  rintro s e s' - hstep ⟨hist, hr⟩
  obtain ⟨hserver, -, -⟩ := step_spec hstep
  cases e with
  | run w => exact ⟨hist, hserver ▸ hr⟩
  | server l => exact ⟨_, hr.snoc hserver trivial⟩

/-- The bookkeeping of the loops: the jobs stem from calls that have been made, and a worker is
busy with the handler that is in progress on it. -/
structure Sound (s : Deployed D) : Prop where
  numbered : ∀ b, b ∈ s.loops.line (D.conn b.conn) → b.call < s.conf.world.wire.length
  busy : ∀ t w, D.thread t = some w → idle (s.conf.task t) = false → s.busy w = some t

lemma busy_of_occupied {e : Turn W cfg secret} (hserver : ServerStep s s' e)
    (hocc : Occupied s s' e)
    (h : ∀ t w, D.thread t = some w → idle (s.conf.task t) = false → s.busy w = some t) (t : Task)
    (w : W) (hw : D.thread t = some w) (ht : idle (s'.conf.task t) = false) :
    s'.busy w = some t := by
  have hself : s'.busy = occupy D s.busy t s'.conf → s'.busy w = some t := by
    intro hbusy
    simp [hbusy, occupy, hw, ht]
  have hother : ∀ u, u ≠ t → s'.busy = occupy D s.busy u s'.conf → D.thread u ≠ some w →
      s'.busy w = s.busy w := by
    intro u _ hbusy hu
    rw [hbusy, occupy]
    cases hv : D.thread u with
    | none => rfl
    | some v => exact Function.update_of_ne (fun e => hu (hv.trans (congrArg some e.symm))) _ _
  cases e with
  | run v =>
      have hconf : s'.conf = s.conf := hserver
      have hbusy : s'.busy = s.busy := hocc
      rw [hbusy]
      exact h t w hw (hconf ▸ ht)
  | server l =>
      cases l with
      | start u i =>
          by_cases hut : u = t
          · exact hself (hut ▸ hocc.2)
          · have hprev : idle (s.conf.task t) = false :=
              System.step_task_of_not_isOf hserver hut ▸ ht
            have hbusy : s.busy w = some t := h t w hw hprev
            have hu : D.thread u ≠ some w := fun hu => by simp [hocc.1 w hu] at hbusy
            rw [hother u hut hocc.2 hu, hbusy]
      | advance u x =>
          by_cases hut : u = t
          · exact hself (hut ▸ hocc)
          · have hprev : idle (s.conf.task t) = false :=
              System.step_task_of_not_isOf hserver hut ▸ ht
            have hbusy : s.busy w = some t := h t w hw hprev
            have hu : D.thread u ≠ some w := by
              intro hu
              obtain ⟨o, k, hk, -⟩ := System.step_advance hserver
              have hbusy' : s.busy w = some u := h u w hu (by rw [hk]; rfl)
              exact hut (Option.some.inj (hbusy'.symm.trans hbusy))
            rw [hother u hut hocc hu, hbusy]
      | env e =>
          obtain ⟨v, -, hconf⟩ := System.step_env hserver
          have hbusy : s'.busy = s.busy := hocc
          rw [hbusy]
          exact h t w hw (by simpa [hconf] using ht)

lemma Sound.step {e : Turn W cfg secret} (hs : Sound s) (h : s.step e = some s') : Sound s' := by
  obtain ⟨hserver, hloops, hocc⟩ := step_spec h
  refine ⟨fun b hb => ?_, busy_of_occupied hserver hocc hs.busy⟩
  rcases hloops.mem_line hb with hb | hb
  · exact lt_of_lt_of_le (hs.numbered b hb) (step_grows h).1
  · exact hb.2

theorem sound_of_after {db : Database} {clock : ℤ} (h : (start D db clock).after es = some s) :
    Sound s := by
  refine after_induction (P := Sound) h (fun s e s' _ hstep hs => hs.step hstep) ⟨?_, ?_⟩
  · simp [start, EventLoops.line, EventLoops.initial]
  · simp [start, boot, idle]

end Run

end Deployed

end HashHush
