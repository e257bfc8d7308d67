import HashHush.Dialogue

/-!
# Sends to connections that are gone

`broadcast` and `closeRoom` collect their targets under the mutex and send to them after
releasing it, through pointers.  A target may be closed and deleted in between, so a send can
reach a connection object that no longer exists: `send_to_destroyed` is such a run.

The code is safe as long as no connection is deleted while a broadcast in progress still has it
among its remaining targets (`Spared`): then no send or close is ever performed on a deleted
connection (`no_send_to_destroyed`).  The remaining targets are read off the program, as the
connections it addresses before its next call of another kind (`sendsNext`); `Addresses` is the
structural property of the handlers behind this, that they address nobody but their own
connection and the targets they collected last.
-/

namespace HashHush

open Concurrency System

/-- The connection an operation sends to or closes. -/
def Op.sendsTo {π : Type} : Op π → Option Conn
  | .sendText c _ | .close c _ => some c
  | _ => none

/-- The connections that a handler has collected after a call: those it got from the registry,
and while it is sending those it had before. -/
def Op.collected {π : Type} : (o : Op π) → o.Res → List Conn → List Conn
  | .targets _ _, cs, _ => cs
  | .closeRoom _, cs, _ => cs
  | .sendText _ _, _, cs => cs
  | .close _ _, _, cs => cs
  | _, _, _ => []

/-- The connections that a program addresses before its next call of another kind. -/
def sendsNext {π α : Type} : Handler π α → List Conn
  | .call (.sendText c _) k => c :: sendsNext (k ())
  | .call (.close c _) k => c :: sendsNext (k ())
  | _ => []

/-- The program addresses connections of its own and those it has collected last, at first the
given ones. -/
def Addresses {π α : Type} (own : Conn → Prop) : List Conn → Handler π α → Prop
  | _, .ret _ => True
  | _, .fail _ => True
  | cs, .call o k =>
      (∀ c, o.sendsTo = some c → own c ∨ c ∈ cs) ∧ ∀ r, Addresses own (o.collected r cs) (k r)

section Addresses

variable {π α β : Type} {own : Conn → Prop} {cs : List Conn}

lemma Op.collected_mono {o : Op π} {r : o.Res} {cs cs' : List Conn} (h : cs ⊆ cs') :
    o.collected r cs ⊆ o.collected r cs' := by
  cases o <;> first | exact h | exact List.Subset.refl _

lemma Addresses.mono {p : Handler π α} :
    ∀ {cs cs' : List Conn}, cs ⊆ cs' → Addresses own cs p → Addresses own cs' p := by
  induction p with
  | ret a => exact fun _ _ => trivial
  | fail e => exact fun _ _ => trivial
  | call o k ih =>
      intro cs cs' hsub h
      refine ⟨fun c hc => (h.1 c hc).imp_right fun hmem => hsub hmem, fun r => ?_⟩
      exact ih r (Op.collected_mono hsub) (h.2 r)

lemma Addresses.step {o : Op π} {f : o.Res → Handler π α}
    (ho : ∀ c, o.sendsTo = some c → own c ∨ c ∈ cs)
    (hf : ∀ r, Addresses own (o.collected r cs) (f r)) : Addresses own cs (call o >>= f) :=
  ⟨ho, hf⟩

lemma Addresses.perform {o : Op π} (ho : ∀ c, o.sendsTo = some c → own c ∨ c ∈ cs) :
    Addresses own cs (call o) :=
  ⟨ho, fun _ => trivial⟩

lemma Addresses.ofExcept {a : Except JsonError α} {f : α → Handler π β}
    (hf : ∀ r, Addresses own cs (f r)) : Addresses own cs (json a >>= f) := by
  cases a with
  | ok r => exact hf r
  | error e => trivial

lemma Addresses.ite {c : Prop} {_ : Decidable c} {p q : Handler π α} (hp : Addresses own cs p)
    (hq : Addresses own cs q) : Addresses own cs (if c then p else q) := by
  split
  · exact hp
  · exact hq

/-- After the first program nothing is taken to be collected. -/
lemma Addresses.bind {p : Handler π α} {f : α → Handler π β} (hf : ∀ a, Addresses own [] (f a)) :
    ∀ {cs : List Conn}, Addresses own cs p → Addresses own cs (p >>= f) := by
  induction p with
  | ret a => exact fun _ => (hf a).mono (List.nil_subset _)
  | fail e => exact fun _ => trivial
  | call o k ih => exact fun h => ⟨h.1, fun r => ih r (h.2 r)⟩

/-- A program that sends to its own connections only addresses those. -/
lemma Addresses.of_only {p : Handler π α}
    (hp : p.Only fun o : Op π => ∀ c, o.sendsTo = some c → own c) :
    ∀ {cs : List Conn}, Addresses own cs p := by
  induction p with
  | ret a => exact fun {_} => trivial
  | fail e => exact fun {_} => trivial
  | call o k ih => exact fun {_} => ⟨fun c hc => .inl (hp.1 c hc), fun r => ih r (hp.2 r)⟩

lemma Addresses.sendsNext_subset {p : Handler π α} :
    ∀ {cs : List Conn}, Addresses own cs p → ∀ c ∈ sendsNext p, own c ∨ c ∈ cs := by
  induction p with
  | ret a => simp [sendsNext]
  | fail e => simp [sendsNext]
  | call o k ih =>
      intro cs h c hc
      cases o with
      | sendText d f =>
          rcases List.mem_cons.mp hc with rfl | hc
          · exact h.1 c rfl
          · exact ih () (h.2 ()) c hc
      | close d s =>
          rcases List.mem_cons.mp hc with rfl | hc
          · exact h.1 c rfl
          · exact ih () (h.2 ()) c hc
      | _ => simp [sendsNext] at hc

lemma sendEach_addresses (frame : Frame π) {cs cs' : List Conn} (h : cs' ⊆ cs) :
    Addresses own cs (sendEach frame cs') := by
  induction cs' with
  | nil => trivial
  | cons c cs' ih =>
      refine .step ?_ fun _ => ih fun d hd => h (List.mem_cons_of_mem c hd)
      rintro _ ⟨rfl⟩
      exact .inr (h List.mem_cons_self)

lemma closeEach_addresses (frame : Frame π) {cs cs' : List Conn} (h : cs' ⊆ cs) :
    Addresses own cs (closeEach frame cs') := by
  induction cs' with
  | nil => trivial
  | cons c cs' ih =>
      have hc : own c ∨ c ∈ cs := .inr (h List.mem_cons_self)
      refine .step ?_ fun _ => .step ?_ fun _ => ih fun d hd => h (List.mem_cons_of_mem c hd)
      · rintro _ ⟨rfl⟩
        exact hc
      · rintro _ ⟨rfl⟩
        exact hc

lemma broadcast_addresses (r : Str) (frame : Frame π) (except : Option Conn) :
    Addresses own cs (broadcast r frame except) :=
  .step (by simp [Op.sendsTo]) fun _ => sendEach_addresses frame (List.Subset.refl _)

/-- A program that sends nothing addresses nobody. -/
lemma Addresses.of_plain {p : Handler π α} (hp : p.Only Op.Plain) : Addresses own cs p :=
  .of_only <| hp.mono fun o ho c hc => by
    cases o <;> first | exact ho.elim | simp [Op.sendsTo] at hc

/-! ## The callbacks of a connection address it and what they collected -/

lemma own_of_sendsTo {c : Conn} (hc : own c) (d : Conn) (hd : some c = some d) :
    own d ∨ d ∈ cs :=
  .inl (Option.some.inj hd ▸ hc)

lemma sendErr_addresses {c : Conn} (hc : own c) (e : WsError) :
    Addresses own cs (sendErr (π := π) c e) :=
  .perform (own_of_sendsTo hc)

lemma sendErrAndClose_addresses {c : Conn} (hc : own c) (e : WsError) :
    Addresses own cs (sendErrAndClose (π := π) c e) :=
  .step (own_of_sendsTo hc) fun _ => .perform (own_of_sendsTo hc)

lemma finalizeJoin_addresses {c : Conn} (hc : own c) (peer : Peer) (token : Str) (isFresh : Bool) :
    Addresses own cs (finalizeJoin (π := π) c peer token isFresh) := by
  refine .step nofun fun _ => .step nofun fun roomRow => .step nofun fun history => ?_
  refine .step nofun fun members => .step (own_of_sendsTo hc) fun _ => ?_
  refine Addresses.bind (fun _ => ?_) (broadcast_addresses _ _ _)
  exact .perform nofun

lemma sendChallenge_addresses {c : Conn} (hc : own c) (pair : ChallengePair) :
    Addresses own cs (sendChallenge (π := π) c pair) :=
  .step nofun fun _ => .step nofun fun _ => .perform (own_of_sendsTo hc)

lemma helloWithoutToken_addresses {c : Conn} (hc : own c) (peer : Peer) :
    Addresses own cs (helloWithoutToken (π := π) c peer) := by
  refine Addresses.bind (fun pair => ?_) (.step nofun fun roomRow => ?_)
  · cases pair with
    | some pair => exact sendChallenge_addresses hc pair
    | none =>
        refine Addresses.bind (fun pair => sendChallenge_addresses hc pair) ?_
        exact .step nofun fun _ => .step nofun fun _ => .step nofun fun _ => trivial
  · cases roomRow with
    | none => trivial
    | some row => exact .step nofun fun live => .ite trivial (.perform nofun)

lemma unjoined_addresses {c : Conn} (hc : own c) (peer : Peer) (j : Json) (type : Str) :
    Addresses own cs (unjoined (π := π) c peer j type) := by
  unfold unjoined
  refine Addresses.ite ?_ (Addresses.ite ?_ (sendErrAndClose_addresses hc _))
  · refine .ofExcept fun token => Addresses.ite ?_ (helloWithoutToken_addresses hc peer)
    refine .step nofun fun owner => ?_
    exact Addresses.ite (finalizeJoin_addresses hc _ _ _) (sendErrAndClose_addresses hc _)
  · refine .ofExcept fun answer => Addresses.ite (sendErrAndClose_addresses hc _) ?_
    refine .step nofun fun _ => Addresses.ite (sendErrAndClose_addresses hc _) ?_
    refine .step nofun fun inserted => ?_
    exact Addresses.ite (finalizeJoin_addresses hc _ _ _) (sendErrAndClose_addresses hc _)

lemma joined_addresses {c : Conn} (hc : own c) (cfg : Config) (wrap : Str → π) (peer : Peer)
    (j : Json) (type : Str) : Addresses own cs (joined cfg wrap c peer j type) := by
  unfold joined
  refine Addresses.ite ?_ (Addresses.ite ?_ (sendErr_addresses hc _))
  · refine .ofExcept fun payload => Addresses.ite (sendErr_addresses hc _) ?_
    refine Addresses.ite (sendErr_addresses hc _) (Addresses.ite ?_ ?_)
    · refine .step nofun fun _ => .step nofun fun _ => .step nofun fun _ => ?_
      exact broadcast_addresses _ _ _
    · exact .step nofun fun _ => broadcast_addresses _ _ _
  · exact .perform (own_of_sendsTo hc)

lemma onmessage_addresses {c : Conn} (hc : own c) (cfg : Config) (wrap : Str → π)
    (data : Inbound) : Addresses own cs (onmessage cfg wrap c data) := by
  have hclose : ∀ reason cs, Addresses own cs (call (.close (π := π) c reason)) :=
    fun _ _ => .perform (own_of_sendsTo hc)
  unfold onmessage
  refine Addresses.ite (hclose _ _) (.step nofun fun peer => ?_)
  cases peer with
  | none => exact hclose _ _
  | some peer =>
      cases data.json with
      | none => exact sendErr_addresses hc _
      | some j =>
          refine .ofExcept fun hasType => Addresses.ite ?_ (sendErr_addresses hc _)
          refine .ofExcept fun v => .ofExcept fun type => ?_
          exact Addresses.ite (joined_addresses hc cfg wrap peer j type)
            (unjoined_addresses hc peer j type)

lemma onclose_addresses (c : Conn) : Addresses own cs (onclose (π := π) c) := by
  refine .step nofun fun peer => ?_
  cases peer with
  | none => trivial
  | some p => exact Addresses.ite (broadcast_addresses _ _ _) trivial

lemma removeRoom_addresses (id : Str) : Addresses own cs (removeRoom (π := π) id) := by
  refine Addresses.bind (fun _ => ?_) (.step nofun fun targets => ?_)
  · exact .step nofun fun _ => trivial
  · exact closeEach_addresses _ (List.Subset.refl _)

end Addresses

/-- The connection whose callbacks a task runs. -/
def Task.Own (t : Task) (c : Conn) : Prop := t = .ws c

lemma program_addresses (cfg : Config) (secret : List UInt8) (t : Task) (i : Input) :
    Addresses t.Own [] (program cfg secret t i) := by
  match t, i with
  | .ws c, .opened room =>
      exact Addresses.ite trivial (.step nofun fun _ => .perform nofun)
  | .ws c, .message data =>
      have hown : Task.Own (.ws c) c := rfl
      exact onmessage_addresses hown cfg id data
  | .ws c, .closed => exact onclose_addresses c
  | .http n, .getPowChallenge => exact .of_plain (getPowChallenge_plain n cfg secret)
  | .http n, .postRooms body => exact .of_plain (postRooms_plain n cfg secret body)
  | .http n, .activate id body =>
      refine .of_only ((activate_ofActivate n cfg id body).mono fun o ho c hc => ?_)
      cases o <;> first | exact ho.elim | cases hc
  | .http n, .isAlive body => exact .of_plain (isAlive_plain n body)
  | .http n, .deleteRoom id body =>
      cases body with
      | none => exact .of_plain (jsonError_plain n _)
      | some body =>
          refine .ofExcept fun token => Addresses.ite (.of_plain (jsonError_plain n _)) ?_
          refine .step nofun fun owner => Addresses.ite ?_ (.of_plain (jsonError_plain n _))
          refine Addresses.bind (fun _ => ?_) (removeRoom_addresses id)
          exact .perform nofun
  | .purger, .purge =>
      refine .step nofun fun now => .step nofun fun stale => ?_
      induction stale with
      | nil => trivial
      | cons id ids ih => exact Addresses.bind (fun _ => ih) (removeRoom_addresses id)
  | .ws _, .getPowChallenge | .ws _, .postRooms _ | .ws _, .activate _ _ | .ws _, .isAlive _
  | .ws _, .deleteRoom _ _ | .ws _, .purge => trivial
  | .http _, .opened _ | .http _, .message _ | .http _, .closed | .http _, .purge => trivial
  | .purger, .opened _ | .purger, .message _ | .purger, .closed | .purger, .getPowChallenge
  | .purger, .postRooms _ | .purger, .activate _ _ | .purger, .isAlive _
  | .purger, .deleteRoom _ _ => trivial

/-! ## Runs -/

section Run

variable {cfg : Config} {secret : List UInt8} {db : Database} {clock : ℤ}
variable {ok : List (server cfg secret).Transition → (server cfg secret).Transition → Prop}
variable {h : List (server cfg secret).Transition} {conf conf' : State}

/-- The transition deletes no connection that a program in progress still has among its next
targets. -/
def Spared (m : (server cfg secret).Transition) : Prop :=
  ∀ c, m.label = .env (.destroy c) → ∀ t p, m.pre.task t = some p → c ∉ sendsNext p

/-- The send or close that a transition performs: by which task and on which connection. -/
def addressed (m : (server cfg secret).Transition) : Option (Task × Conn) :=
  match m.label with
  | .advance t _ =>
      match m.pre.task t with
      | some (.call o _) => o.sendsTo.map (Prod.mk t)
      | _ => none
  | _ => none

lemma addressed_spec {m : (server cfg secret).Transition} {t : Task} {c : Conn}
    (h : addressed m = some (t, c)) :
    ∃ o k, m.pre.task t = some (.call o k) ∧ o.sendsTo = some c := by
  obtain ⟨pre, l, post⟩ := m
  unfold addressed at h
  cases l with
  | advance u x =>
      dsimp only at h
      split at h
      · rename_i o k hu
        obtain ⟨d, hd, heq⟩ := Option.map_eq_some_iff.mp h
        obtain ⟨rfl, rfl⟩ : u = t ∧ d = c := by simpa using heq
        exact ⟨o, k, hu, hd⟩
      · cases h
  | start u i => cases h
  | env e => cases h

/-- A deleted connection is neither registered nor running a callback. -/
def Retired (conf : State) : Prop :=
  ∀ c ∈ conf.world.destroyed,
    conf.world.mgr.peers c = none ∧ (conf.task (.ws c)).any Prog.finished = true

/-- The targets of a program in progress are not deleted. -/
def Pledged (conf : State) : Prop :=
  ∀ t p, conf.task t = some p → ∀ c ∈ sendsNext p, c ∉ conf.world.destroyed

lemma Retired.not_running (hret : Retired conf) {c : Conn} {o : Op Str}
    {k : o.Res → Handler Str Unit} (ht : conf.task (.ws c) = some (.call o k)) :
    c ∉ conf.world.destroyed := by
  intro hmem
  have hfin := (hret c hmem).2
  rw [ht] at hfin
  cases hfin

/-- A connection that takes up an input is not deleted. -/
lemma Retired.not_starting (hret : Retired conf) {c : Conn} {i : Input}
    (hadm : admits conf (.ws c) i = true) : c ∉ conf.world.destroyed := by
  intro hmem
  cases i with
  | opened room =>
      have hnone : conf.task (.ws c) = none := Option.isNone_iff_eq_none.mp hadm
      have hfin := (hret c hmem).2
      rw [hnone] at hfin
      cases hfin
  | message data => simp [admits, hmem] at hadm
  | closed => simp [admits, hmem] at hadm
  | _ => cases hadm

lemma retired_step (hr : Run (M := server cfg secret) ok (boot db clock) h conf)
    (hret : Retired conf) {l : (server cfg secret).Label} (hs : step conf l = some conf') :
    Retired conf' := by
  have hkeep : ∀ c, ¬ l.IsOf (Task.ws c) → c ∈ conf.world.destroyed →
      conf'.world.mgr.peers c = none ∧ (conf'.task (.ws c)).any Prog.finished = true := by
    intro c hl hmem
    obtain ⟨hpeer, hfin⟩ := hret c hmem
    rw [peers_of_not_isOf hr hs hl, step_task_of_not_isOf hs hl]
    exact ⟨hpeer, hfin⟩
  intro c hmem
  cases l with
  | start t i =>
      obtain ⟨-, hadm, rfl⟩ := step_start hs
      refine hkeep c ?_ hmem
      rintro rfl
      exact hret.not_starting hadm hmem
  | advance t x =>
      obtain ⟨o, k, ht, rfl⟩ := step_advance hs
      rw [resume_world, show (server cfg secret).exec = exec from rfl, exec_destroyed] at hmem
      refine hkeep c ?_ hmem
      rintro rfl
      exact hret.not_running ht hmem
  | env e =>
      obtain ⟨w, hw, rfl⟩ := step_env hs
      cases e with
      | clock t =>
          obtain rfl : { conf.world with clock := t } = w := by simpa [ambient] using hw
          exact hkeep c id hmem
      | destroy d =>
          simp only [ambient, Option.ite_none_right_eq_some, Option.some.injEq] at hw
          obtain ⟨⟨hfin, hpeer, -⟩, rfl⟩ := hw
          rcases List.mem_cons.mp hmem with rfl | hmem
          · exact ⟨hpeer, hfin⟩
          · exact hkeep c id hmem

/-- What a program addresses after a call: its own connection, or targets that were registered at
the call. -/
lemma sendsNext_call {t : Task} {cs : List Conn} {o : Op Str} {k : o.Res → Handler Str Unit}
    (ha : Addresses t.Own cs (.call o k)) (ho : o.sendsTo = none) {x : Choice} {w : World Str}
    (hw : w.mgr.Consistent) {c : Conn} (hc : c ∈ sendsNext (k (exec o x w).1)) :
    t = .ws c ∨ ∃ p, w.mgr.peers c = some p := by
  rcases (ha.2 (exec o x w).1).sendsNext_subset c hc with hown | hmem
  · exact .inl hown
  · right
    cases o with
    | targets r e =>
        have hmem : c ∈ w.mgr.targets r e := hmem
        obtain ⟨p, hp, -⟩ := (hw.mem_iff r c).mp (w.mgr.mem_targets.mp hmem).1
        exact ⟨p, hp⟩
    | closeRoom r =>
        have hmem : c ∈ w.mgr.connsOf r := hmem
        obtain ⟨p, hp, -⟩ := (hw.mem_iff r c).mp hmem
        exact ⟨p, hp⟩
    | sendText d f => cases ho
    | close d s => cases ho
    | _ => cases hmem

/-- Every program in progress addresses its own connection and what it collected. -/
theorem task_addresses (hr : Run (M := server cfg secret) ok (boot db clock) h conf) {t : Task}
    {p : Handler Str Unit} (hp : conf.task t = some p) : ∃ cs, Addresses t.Own cs p := by
  refine hr.invariant
    (I := fun _ (conf : State) => ∀ t p, conf.task t = some p → ∃ cs, Addresses t.Own cs p)
    (by simp [boot]) ?_ t p hp
  intro h conf l conf' hr ih hs _ t p hp
  by_cases hl : l.IsOf t
  · cases l with
    | start u i =>
        obtain rfl : u = t := hl
        rw [(step_start hs).2.2, resume_task_self, Option.some.injEq] at hp
        exact ⟨[], hp ▸ program_addresses cfg secret u i⟩
    | advance u x =>
        obtain rfl : u = t := hl
        obtain ⟨o, k, ht, hc'⟩ := step_advance hs
        rw [hc', resume_task_self, Option.some.injEq] at hp
        obtain ⟨cs, hcs⟩ := ih u _ ht
        exact ⟨_, hp ▸ hcs.2 _⟩
    | env e => exact hl.elim
  · exact ih t p (step_task_of_not_isOf hs hl ▸ hp)

lemma pledged_step (hr : Run (M := server cfg secret) ok (boot db clock) h conf)
    (hret : Retired conf) (hpl : Pledged conf) {l : (server cfg secret).Label}
    (hs : step conf l = some conf')
    (hm : Spared (⟨conf, l, conf'⟩ : (server cfg secret).Transition)) : Pledged conf' := by
  intro t p hp c hc
  cases l with
  | start u i =>
      obtain ⟨-, hadm, rfl⟩ := step_start hs
      by_cases htu : t = u
      · subst htu
        obtain rfl : program cfg secret t i = p := by simpa using hp
        rcases (program_addresses cfg secret t i).sendsNext_subset c hc with hown | hmem
        · obtain rfl : t = .ws c := hown
          exact hret.not_starting hadm
        · cases hmem
      · rw [resume_task_of_ne htu] at hp
        exact hpl t p hp c hc
  | advance u x =>
      obtain ⟨o, k, hu, rfl⟩ := step_advance hs
      rw [resume_world, show (server cfg secret).exec = exec from rfl, exec_destroyed]
      by_cases htu : t = u
      · subst htu
        obtain rfl : k (exec o x conf.world).1 = p := by simpa using hp
        cases ho : o.sendsTo with
        | some d =>
            -- the rest of a broadcast: its targets were pledged before
            refine hpl t _ hu c ?_
            cases o <;> first | exact List.mem_cons_of_mem _ hc | cases ho
        | none =>
            obtain ⟨cs, hcs⟩ := task_addresses hr hu
            rcases sendsNext_call hcs ho (registry_consistent hr) hc with rfl | ⟨q, hq⟩
            · exact hret.not_running hu
            · intro hmem
              rw [(hret c hmem).1] at hq
              cases hq
      · rw [resume_task_of_ne htu] at hp
        exact hpl t p hp c hc
  | env e =>
      obtain ⟨w, hw, rfl⟩ := step_env hs
      cases e with
      | clock t' =>
          obtain rfl : { conf.world with clock := t' } = w := by simpa [ambient] using hw
          exact hpl t p hp c hc
      | destroy d =>
          simp only [ambient, Option.ite_none_right_eq_some, Option.some.injEq] at hw
          obtain ⟨-, rfl⟩ := hw
          intro hmem
          rcases List.mem_cons.mp hmem with rfl | hmem
          · exact hm c rfl t p hp hc
          · exact hpl t p hp c hc hmem

/-- **No send reaches a deleted connection**, as long as no connection is deleted while it is among
the next targets of a program in progress. -/
theorem no_send_to_destroyed
    (hr : Run (M := server cfg secret) (fun _ => Spared) (boot db clock) h conf) :
    ∀ m ∈ h, ∀ t c, addressed m = some (t, c) → c ∉ m.pre.world.destroyed := by
  suffices Retired conf ∧ Pledged conf ∧
      ∀ m ∈ h, ∀ t c, addressed m = some (t, c) → c ∉ m.pre.world.destroyed from this.2.2
  refine hr.invariant (I := fun h (conf : State) => Retired conf ∧ Pledged conf ∧
    ∀ m ∈ h, ∀ t c, addressed m = some (t, c) → c ∉ m.pre.world.destroyed) ?_ ?_
  · exact ⟨by simp [Retired, boot, World.boot], by simp [Pledged, boot], by simp⟩
  · rintro h conf l conf' hr ⟨hret, hpl, hall⟩ hs hm
    refine ⟨retired_step hr hret hs, pledged_step hr hret hpl hs hm, fun m hmem t c hc => ?_⟩
    rcases List.mem_append.mp hmem with hmem | hmem
    · exact hall m hmem t c hc
    · obtain rfl := List.mem_singleton.mp hmem
      obtain ⟨o, k, ht, ho⟩ := addressed_spec hc
      refine hpl t _ ht c ?_
      cases o with
      | sendText d f =>
          obtain rfl := Option.some.inj ho
          exact List.mem_cons_self
      | close d s =>
          obtain rfl := Option.some.inj ho
          exact List.mem_cons_self
      | _ => cases ho

end Run

/-- Two clients are joined to the sample room, and the first has collected the targets of a
message: itself and the second. -/
def Sample.midBroadcast : List (server {} Sample.secret).Label :=
  Sample.opening 0 ++ Sample.joining 0 Sample.token 9
    ++ Sample.opening 1 ++ Sample.joining 1 (ascii "another token") 10
    ++ Sample.handle (.ws 0) (Sample.frame [("type", "msg"), ("payload", "hi")]) 5

/-- A transition performs a send or close for another connection, which satisfies `P`. -/
def sendsToAnother (P : World Str → Conn → Bool) (m : (server {} Sample.secret).Transition) :
    Bool :=
  (addressed m).any fun e => e.1 ≠ Task.ws e.2 && P m.pre.world e.2

/-- A test for transitions that delete no connection to which one of the tasks so far is about to
send. -/
def spares (h : List (server {} Sample.secret).Transition) (m : (server {} Sample.secret).Transition) :
    Bool :=
  match m.label with
  | .env (.destroy c) => h.all fun m' => m'.label.task?.all fun t =>
      (m.pre.task t).all fun p => c ∉ sendsNext p
  | _ => true

lemma spared_of_test {db : Database} (h : List (server {} Sample.secret).Transition)
    (m : (server {} Sample.secret).Transition)
    (hr : Run (M := server {} Sample.secret) (fun _ => Spared) (boot db 0) h m.pre)
    (hm : spares h m = true) : Spared m := by
  intro c hc t p hp
  by_cases hstarted : ∃ m' ∈ h, m'.label.task? = some t
  · obtain ⟨m', hm', htask⟩ := hstarted
    rw [spares, hc] at hm
    have hone := List.all_eq_true.mp hm m' hm'
    simpa [htask, hp] using hone
  · have hnone : m.pre.task t = none := hr.task_of_not_isOf fun m' hm' hof =>
      hstarted ⟨m', hm', Label.task?_eq_some.mpr hof⟩
    rw [hnone] at hp
    cases hp

/-- A third connection is closed and deleted in the midst of a broadcast to the two others. -/
def Sample.sendsToTwo : Script (M := server {} Sample.secret)
    (boot (Sample.store 2 [] [Sample.token, ascii "another token"]) 0) spares
    (fun h _ => h.any (sendsToAnother fun w c => c = 1 && 2 ∈ w.destroyed)) where
  labels := Sample.midBroadcast ++ Sample.opening 2 ++ Sample.handle (.ws 2) .closed 1
    ++ [.env (.destroy 2), .advance (.ws 0) (Sample.draw 0)]
  performed := by decide +kernel

/-- The message reaches the second client after the third connection has been deleted. -/
theorem no_send_to_destroyed_sample : ∃ h : List (server {} Sample.secret).Transition,
    h.any (sendsToAnother fun w c => c = 1 && 2 ∈ w.destroyed) = true ∧
      ∀ m ∈ h, ∀ t c, addressed m = some (t, c) → c ∉ m.pre.world.destroyed := by
  obtain ⟨h, conf, hr, hsent⟩ := Sample.sendsToTwo.exists_run spared_of_test
  exact ⟨h, hsent, no_send_to_destroyed hr⟩

/-- The second of the two is gone before its turn. -/
def Sample.sendsToGone : Script (M := server {} Sample.secret)
    (boot (Sample.store 2 [] [Sample.token, ascii "another token"]) 0) (fun _ _ => true)
    (fun h _ => h.any (sendsToAnother fun w c => c ∈ w.destroyed)) where
  labels := Sample.midBroadcast ++ Sample.handle (.ws 1) .closed 3 ++ [.env (.destroy 1),
    .advance (.ws 0) (Sample.draw 0)]
  performed := by decide +kernel

/-- The second client leaves and its connection is deleted before the message is sent to it. -/
theorem send_to_destroyed : ¬ ∀ (cfg : Config) (secret : List UInt8) (db : Database) (clock : ℤ)
    (h : List (server cfg secret).Transition) (conf : State),
    Run (M := server cfg secret) anyStep (boot db clock) h conf →
      ∀ m ∈ h, ∀ t c, addressed m = some (t, c) → t ≠ Task.ws c →
        c ∉ m.pre.world.destroyed := by
  intro hall
  obtain ⟨h, conf, hr, hsent⟩ := Sample.sendsToGone.exists_run fun _ _ _ _ => trivial
  obtain ⟨m, hm, hbad⟩ := List.any_eq_true.mp hsent
  cases he : addressed m with
  | none => simp [sendsToAnother, he] at hbad
  | some e =>
      obtain ⟨t, c⟩ := e
      obtain ⟨hne, hdead⟩ : t ≠ Task.ws c ∧ c ∈ m.pre.world.destroyed := by
        simpa [sendsToAnother, he] using hbad
      exact hall _ _ _ _ h conf hr m hm t c he hne hdead

end HashHush
