import HashHush.Dialogue

/-!
# What a deletion reaches

A room is deleted in two steps: `closeRoom` collects the connections of the room and closes them,
and `deleteRoom` removes its rows.  A connection that comes in between, with a token that is
still in the table, is in no list and is never told: `joined_unnoticed` is such a run.

Two facts about every run are behind the guarantee that remains.  Whoever `closeRoom` collects
has been sent the `deleted` frame and closed when the task is done (`told_of_collectedBy`).  And
when a room is gone, everybody who passed its admission check has been collected, provided that
each `deleteRoom` was `Evicting`: it found nobody past the check but those collected before
(`collected_of_gone`).  Together they give `deletion_reaches`.
-/

namespace HashHush

open Concurrency System

/-- The connection has been sent the `deleted` frame and has been closed for it. -/
def Told (c : Conn) (wire : List (Conn × Outgoing Str)) : Prop :=
  (c, .text .deleted) ∈ wire ∧ (c, .close (ascii "room deleted")) ∈ wire

lemma Told.mono {c : Conn} {wire wire' : List (Conn × Outgoing Str)} (h : Told c wire)
    (hsub : wire ⊆ wire') : Told c wire' :=
  ⟨hsub h.1, hsub h.2⟩

/-! ## Whoever is collected is told -/

/-- What one task does for the connections it collects: the wire, and the connections it has
collected so far. -/
def eviction : Spec (signature Str) (List (Conn × Outgoing Str) × List Conn) where
  pre _ _ := True
  step o r s s' := match o, r with
    | .closeRoom _, cs => s' = (s.1, s.2 ++ cs)
    | .sendText c f, _ => s' = (s.1 ++ [(c, .text f)], s.2)
    | .close c reason, _ => s' = (s.1 ++ [(c, .close reason)], s.2)
    | _, _ => s' = s
  stable s s' := s.1 ⊆ s'.1 ∧ s'.2 = s.2
  refl _ := ⟨List.Subset.refl _, rfl⟩
  trans h h' := ⟨List.Subset.trans h.1 h'.1, h'.2.trans h.2⟩

/-- Everybody collected has been told. -/
def AllTold (s : List (Conn × Outgoing Str) × List Conn) : Prop := ∀ c ∈ s.2, Told c s.1

/-- Everybody collected has been told or is still on the list. -/
def ToldBut (cs : List Conn) (s : List (Conn × Outgoing Str) × List Conn) : Prop :=
  ∀ c ∈ s.2, Told c s.1 ∨ c ∈ cs

lemma AllTold.stable {s s' : List (Conn × Outgoing Str) × List Conn} (h : eviction.stable s s')
    (hs : AllTold s) : AllTold s' := by
  intro c hc
  have hc : c ∈ s.2 := h.2 ▸ hc
  exact (hs c hc).mono h.1

lemma ToldBut.stable {cs : List Conn} {s s' : List (Conn × Outgoing Str) × List Conn}
    (h : eviction.stable s s') (hs : ToldBut cs s) : ToldBut cs s' := by
  intro c hc
  have hc : c ∈ s.2 := h.2 ▸ hc
  exact (hs c hc).imp_left fun htold => htold.mono h.1

/-- A program that evicts nobody keeps everybody told. -/
lemma eviction_of_only {p : Handler Str Unit} (hp : p.Only fun o : Op Str => ∀ r, o ≠ .closeRoom r)
    {s : List (Conn × Outgoing Str) × List Conn} (hs : AllTold s) :
    p.Wp eviction (fun _ => AllTold) s := by
  refine hp.wp (fun _ _ _ _ => trivial) ?_ fun _ s' h => hs.stable h
  intro o r s₁ s₂ ho h₁ h₂
  refine eviction.trans h₁ ?_
  cases o with
  | closeRoom id => exact absurd rfl (ho id)
  | sendText c f =>
      obtain rfl : s₂ = _ := h₂
      exact ⟨List.subset_append_left _ _, rfl⟩
  | close c reason =>
      obtain rfl : s₂ = _ := h₂
      exact ⟨List.subset_append_left _ _, rfl⟩
  | _ =>
      obtain rfl : s₂ = s₁ := h₂
      exact eviction.refl _

lemma closeEach_eviction (cs : List Conn) : ∀ {s : List (Conn × Outgoing Str) × List Conn},
    ToldBut cs s → (closeEach .deleted cs).Wp eviction (fun _ => AllTold) s := by
  induction cs with
  | nil => exact fun hs c hc => (hs c hc).resolve_right List.not_mem_nil
  | cons c cs ih =>
      intro s hs
      refine .step fun s₁ h₁ => ⟨trivial, fun _ s₂ h₂ => .step fun s₃ h₃ => ⟨trivial, ?_⟩⟩
      rintro _ s₄ h₄
      obtain rfl : s₂ = _ := h₂
      obtain rfl : s₄ = _ := h₄
      refine ih fun d hd => ?_
      have htext : (c, .text .deleted) ∈ s₃.1 := h₃.1 (List.mem_append_right _ List.mem_cons_self)
      have hsub : s₁.1 ⊆ s₃.1 := fun e he => h₃.1 (List.mem_append_left _ he)
      have hd : d ∈ s₁.2 := h₃.2 ▸ hd
      rcases (hs.stable h₁) d hd with htold | hmem
      · exact .inl (htold.mono fun e he => List.mem_append_left _ (hsub he))
      · rcases List.mem_cons.mp hmem with rfl | hmem
        · refine .inl ⟨List.mem_append_left _ htext, ?_⟩
          exact List.mem_append_right _ List.mem_cons_self
        · exact .inr hmem

lemma removeRoom_eviction (id : Str) {s : List (Conn × Outgoing Str) × List Conn}
    (hs : AllTold s) : (removeRoom id).Wp eviction (fun _ => AllTold) s := by
  refine Prog.Wp.bind (.step fun s₁ h₁ => ⟨trivial, fun cs s₂ h₂ => ?_⟩)
  obtain rfl : s₂ = _ := h₂
  have hbut : ToldBut cs (s₁.1, s₁.2 ++ cs) := by
    intro c hc
    rcases List.mem_append.mp hc with hc | hc
    · exact .inl (hs.stable h₁ c hc)
    · exact .inr hc
  refine (closeEach_eviction cs hbut).mono fun out s₃ h₃ => ?_
  cases out with
  | error e => exact h₃
  | ok a =>
      refine eviction_of_only ?_ h₃
      exact .step (by simp) fun _ => trivial

/-- Every program of the server tells whom it collects. -/
theorem program_eviction (cfg : Config) (secret : List UInt8) (t : Task) (i : Input)
    {s : List (Conn × Outgoing Str) × List Conn} (hs : AllTold s) :
    (program cfg secret t i).Wp eviction (fun _ => AllTold) s := by
  have hplain : ∀ p : Handler Str Unit, p.Only Op.Plain → p.Wp eviction (fun _ => AllTold) s := by
    intro p hp
    refine eviction_of_only (hp.mono fun o ho r => ?_) hs
    rintro rfl
    exact ho
  cases t with
  | ws c =>
      refine eviction_of_only ((program_of cfg secret (.ws c) i).mono fun o ho r => ?_) hs
      rintro rfl
      exact ho
  | http n =>
      cases i with
      | getPowChallenge => exact hplain _ (getPowChallenge_plain n cfg secret)
      | postRooms body => exact hplain _ (postRooms_plain n cfg secret body)
      | activate id body =>
          refine eviction_of_only ((activate_ofActivate n cfg id body).mono fun o ho r => ?_) hs
          rintro rfl
          exact ho
      | isAlive body => exact hplain _ (isAlive_plain n body)
      | deleteRoom id body =>
          cases body with
          | none => exact hplain _ (jsonError_plain n _)
          | some body =>
              refine .ofExcept (fun token _ => ?_) fun _ _ => hs
              refine .ite (fun _ => hplain _ (jsonError_plain n _)) fun _ => ?_
              refine .step fun s₁ h₁ => ⟨trivial, fun owner s₂ h₂ => ?_⟩
              obtain rfl : s₂ = s₁ := h₂
              have hs₁ := hs.stable h₁
              refine .ite (fun _ => Prog.Wp.bind ?_) fun _ => ?_
              · refine (removeRoom_eviction id hs₁).mono fun out s₃ h₃ => ?_
                cases out with
                | error e => exact h₃
                | ok a => exact eviction_of_only (.perform (by simp)) h₃
              · exact eviction_of_only (.perform (by simp)) hs₁
      | _ => exact hs
  | purger =>
      cases i with
      | purge =>
          refine .step fun s₁ h₁ => ⟨trivial, fun now s₂ h₂ => ?_⟩
          obtain rfl : s₂ = s₁ := h₂
          refine .step fun s₃ h₃ => ⟨trivial, fun stale s₄ h₄ => ?_⟩
          obtain rfl : s₄ = s₃ := h₄
          have hs₃ := (hs.stable h₁).stable h₃
          clear h₁ h₃
          revert hs₃
          induction stale generalizing s₄ with
          | nil => exact fun hs₃ => hs₃
          | cons id ids ih =>
              intro hs₃
              refine Prog.Wp.bind ((removeRoom_eviction id hs₃).mono fun out s₅ h₅ => ?_)
              cases out with
              | error e => exact h₅
              | ok a => exact ih s₅ h₅
      | _ => exact hs

section Run

variable {cfg : Config} {secret : List UInt8} {db : Database} {clock : ℤ}
variable {ok : List (server cfg secret).Transition → (server cfg secret).Transition → Prop}
variable {h : List (server cfg secret).Transition} {conf conf' : State} {r : Str}

/-- The room that a transition calls `closeRoom` for, and the task that does. -/
def closing (m : (server cfg secret).Transition) : Option (Task × Str) :=
  match m.label with
  | .advance t _ =>
      match m.pre.task t with
      | some (.call (.closeRoom r) _) => some (t, r)
      | _ => none
  | _ => none

/-- The connections that a transition of task `t` collects. -/
def collects (t : Task) (m : (server cfg secret).Transition) : List Conn :=
  match closing m with
  | some (u, r) => if u = t then m.pre.world.mgr.connsOf r else []
  | none => []

/-- The connections that task `t` has collected. -/
def collectedBy (t : Task) (h : List (server cfg secret).Transition) : List Conn :=
  h.flatMap (collects t)

/-- A `closeRoom` of room `r` has collected the connection. -/
def Collected (r : Str) (h : List (server cfg secret).Transition) (c : Conn) : Prop :=
  ∃ m ∈ h, ∃ t, closing m = some (t, r) ∧ c ∈ m.pre.world.mgr.connsOf r

/-- When the room is deleted, everybody who has passed its admission check has been collected. -/
def Evicting (r : Str) (h : List (server cfg secret).Transition)
    (m : (server cfg secret).Transition) : Prop :=
  ∀ t, m.Calls t (.deleteRoom r) true → ∀ c p, m.pre.world.mgr.peers c = some p → p.roomId = r →
    Passed r (events c h) → Collected r h c

lemma Collected.snoc {c : Conn} (hc : Collected r h c) (m : (server cfg secret).Transition) :
    Collected r (h ++ [m]) c := by
  obtain ⟨m', hm', hc⟩ := hc
  exact ⟨m', List.mem_append_left _ hm', hc⟩

lemma collectedBy_snoc (t : Task) (h : List (server cfg secret).Transition)
    (m : (server cfg secret).Transition) :
    collectedBy t (h ++ [m]) = collectedBy t h ++ collects t m := by
  simp [collectedBy]

lemma closing_advance {t : Task} {o : Op Str} {k : o.Res → Handler Str Unit}
    (ht : conf.task t = some (.call o k)) (x : Choice) (conf' : State) :
    closing (⟨conf, .advance t x, conf'⟩ : (server cfg secret).Transition)
      = match o with
        | .closeRoom r => some (t, r)
        | _ => none := by
  simp only [closing, ht]
  cases o <;> rfl

lemma closing_task {l : (server cfg secret).Label} {t : Task}
    (hc : closing (⟨conf, l, conf'⟩ : (server cfg secret).Transition) = some (t, r)) :
    l.IsOf t := by
  unfold closing at hc
  cases l with
  | advance u x =>
      dsimp only at hc
      split at hc
      · exact (Prod.mk.inj (Option.some.inj hc)).1
      · cases hc
  | start u i => cases hc
  | env e => cases hc

lemma collects_of_not_isOf {l : (server cfg secret).Label} {t : Task} (hl : ¬ l.IsOf t) :
    collects t (⟨conf, l, conf'⟩ : (server cfg secret).Transition) = [] := by
  unfold collects
  cases hc : closing (⟨conf, l, conf'⟩ : (server cfg secret).Transition) with
  | none => rfl
  | some e =>
      have hne : e.1 ≠ t := fun he => hl (he ▸ closing_task (r := e.2) hc)
      exact if_neg hne

/-- The wire only grows. -/
lemma wire_step {l : (server cfg secret).Label} (hs : step conf l = some conf') :
    conf.world.wire ⊆ conf'.world.wire := by
  cases l with
  | start t i =>
      obtain ⟨-, -, rfl⟩ := step_start hs
      exact List.Subset.refl _
  | advance t x =>
      obtain ⟨o, k, -, rfl⟩ := step_advance hs
      exact exec_wire o x conf.world
  | env e =>
      obtain ⟨w, hw, rfl⟩ := step_env hs
      have hwire : w.wire = conf.world.wire := ambient_wire hw
      exact hwire ▸ List.Subset.refl _

/-- In every run a task that is idle has told everybody it collected. -/
theorem serves_eviction (hr : Run (M := server cfg secret) ok (boot db clock) h conf) (t : Task) :
    Serves (M := server cfg secret) eviction AllTold (conf.task t)
      (conf.world.wire, collectedBy t h) := by
  refine hr.modular (M := server cfg secret) t
    (fun h (conf : State) => (conf.world.wire, collectedBy t h)) ?_ ?_ ?_ ?_ ?_
  · exact fun _ _ hst hs => hs.stable hst
  · exact fun _ hc => by cases hc
  · intro h conf i conf' _ hs _ hI
    have hnone : collects t (⟨conf, .start t i, conf'⟩ : (server cfg secret).Transition) = [] := rfl
    obtain ⟨-, -, rfl⟩ := step_start hs
    rw [collectedBy_snoc, hnone, List.append_nil]
    exact program_eviction cfg secret t i hI
  · intro h conf x conf' o k _ hs _ ht _
    obtain ⟨o', k', ht', rfl⟩ := step_advance hs
    obtain ⟨rfl, -⟩ : o' = o ∧ HEq k' k := by simpa [ht] using ht'.symm
    rw [collectedBy_snoc, collects, closing_advance ht]
    cases o' with
    | closeRoom r => simp [eviction, exec, RoomManager.closeRoom]
    | sendText c f => simp [eviction, exec]
    | close c reason => simp [eviction, exec]
    | _ =>
        simp only [eviction, exec, resume_world, List.append_nil]
        try split
        all_goals rfl
  · intro h conf l conf' _ hs _ hl
    rw [collectedBy_snoc, collects_of_not_isOf hl, List.append_nil]
    exact ⟨wire_step hs, rfl⟩

/-- Whoever has been collected has been told when no task is in the midst of a program. -/
theorem told_of_collected (hr : Run (M := server cfg secret) ok (boot db clock) h conf)
    (hidle : ∀ t, idle (conf.task t) = true) {c : Conn} (hc : Collected r h c) :
    Told c conf.world.wire := by
  obtain ⟨m, hm, t, hclosing, hmem⟩ := hc
  refine (serves_eviction hr t).of_idle (hidle t) c (List.mem_flatMap.mpr ⟨m, hm, ?_⟩)
  simpa [collects, hclosing] using hmem

/-! ## Whoever passed the check of a room that is gone has been collected -/

/-- A check is passed by finding the owner of a token or by storing one. -/
lemma Passed.of_snoc {es : List Event} {e : Event} (h : Passed r (es ++ [e])) :
    Passed r es ∨ (∃ token, e = .ownerFound token r) ∨ ∃ token, e = .tokenStored token r := by
  rcases h with ⟨pre, token, post, ht, heq⟩ | ⟨token, hmem⟩
  · rcases List.eq_nil_or_concat post with rfl | ⟨post, e', rfl⟩
    · have heq : es ++ [e] = (pre ++ [.hello token]) ++ [.ownerFound token r] := by simpa using heq
      exact .inr (.inl ⟨token, (List.append_inj' heq rfl).2 |> List.cons.inj |>.1⟩)
    · have heq : es ++ [e] = (pre ++ [.hello token, .ownerFound token r] ++ post) ++ [e'] := by
        simpa using heq
      exact .inl (.inl ⟨pre, token, post, ht, (List.append_inj' heq rfl).1⟩)
  · rcases List.mem_append.mp hmem with hmem | hmem
    · exact .inl (.inr ⟨token, hmem⟩)
    · exact .inr (.inr ⟨token, (List.mem_singleton.mp hmem).symm⟩)

/-- The ids of the rooms stay plain text. -/
lemma zero_notMem_roomIds (hdb : ∀ id ∈ db.roomIds, 0 ∉ id)
    (hr : Run (M := server cfg secret) ok (boot db clock) h conf) :
    ∀ id ∈ conf.world.db.roomIds, 0 ∉ id := by
  refine hr.invariant (I := fun _ (conf : State) => ∀ id ∈ conf.world.db.roomIds, 0 ∉ id) hdb ?_
  intro h conf l conf' hr ih hs _ id hid
  cases l with
  | start t i =>
      obtain ⟨-, -, rfl⟩ := step_start hs
      exact ih id hid
  | env e =>
      obtain ⟨w, hw, rfl⟩ := step_env hs
      have hw : w.db = conf.world.db := ambient_db hw
      exact ih id (hw ▸ hid)
  | advance t x =>
      obtain ⟨o, k, ht, rfl⟩ := step_advance hs
      have hof := (task_only hr ht).1
      have hid : id ∈ (exec o x conf.world).2.db.roomIds := hid
      rcases exec_roomIds o x conf.world with heq | ⟨row, rfl, heq⟩ | ⟨id', -, -, heq⟩
      · exact ih id (heq ▸ hid)
      · rw [heq] at hid
        rcases List.mem_append.mp hid with hid | hid
        · exact ih id hid
        · obtain rfl := List.mem_singleton.mp hid
          cases t with
          | ws c => exact hof.elim
          | http n => exact hof
          | purger => exact hof
      · rw [heq] at hid
        exact ih id (List.mem_filter.mp hid).1

/-- While a room is missing, nobody passes its check: whoever is registered for it and past the
check after a transition was so before. -/
lemma passed_of_step (hdb : ∀ id ∈ db.roomIds, 0 ∉ id)
    (hr : Run (M := server cfg secret) ok (boot db clock) h conf)
    {l : (server cfg secret).Label} (hs : step conf l = some conf')
    (hgone : r ∉ conf.world.db.roomIds) {c : Conn} {p : Peer}
    (hp : conf'.world.mgr.peers c = some p) (hpr : p.roomId = r)
    (hpassed : Passed r (events c (h ++ [(⟨conf, l, conf'⟩ : (server cfg secret).Transition)]))) :
    ∃ q, conf.world.mgr.peers c = some q ∧ q.roomId = r ∧ Passed r (events c h) := by
  by_cases hl : l.IsOf (Task.ws c)
  · cases l with
    | start t i =>
        have hold : Passed r (events c h) := by
          rw [events_snoc] at hpassed
          cases he : eventOf c (⟨conf, .start t i, conf'⟩ : (server cfg secret).Transition) with
          | none => simpa [he] using hpassed
          | some e =>
              rw [he, Option.toList_some] at hpassed
              rcases eventOf_start he with ⟨t, rfl⟩ | ⟨a, rfl⟩
              · simpa using hpassed.of_snoc
              · simpa using hpassed.of_snoc
        obtain ⟨-, -, rfl⟩ := step_start hs
        exact ⟨p, hp, hpr, hold⟩
    | advance t x =>
        obtain rfl : t = .ws c := hl
        obtain ⟨o, k, ht, -, -, hpre, hstep⟩ :=
          dialogue_advance True (fun _ _ _ => .inl trivial) hr hs
        have hold : Passed r (events c h) := by
          rw [events_snoc, eventOf_advance ht] at hpassed
          cases he : o.event x conf.world with
          | none => simpa [he] using hpassed
          | some e =>
              rw [he, Option.toList_some] at hpassed
              rcases hpassed.of_snoc with hold | ⟨token, rfl⟩ | ⟨token, rfl⟩
              · exact hold
              · have hfound := (Op.eq_of_event_ownerFound he).2
                have hplain := zero_notMem_roomIds hdb hr
                exact absurd (conf.world.db.mem_roomIds_of_roomForToken hplain hfound) hgone
              · have hstored := (Op.eq_of_event_tokenStored he).2
                exact absurd (conf.world.db.mem_roomIds_of_insertAccessToken hstored) hgone
        rcases dialogueStep_registered hstep hp with ⟨q, hq, hqr⟩ | ⟨d, id, rfl⟩
        · exact ⟨q, hq, hqr.trans hpr, hold⟩
        · have hnil : events c h = [] := congrArg Prod.snd hpre
          rw [hnil] at hold
          rcases hold with ⟨pre, token, post, -, heq⟩ | ⟨token, hmem⟩
          · simp at heq
          · cases hmem
    | env e => exact hl.elim
  · rw [peers_of_not_isOf hr hs hl] at hp
    rw [events_snoc, eventOf_of_not_isOf hl, Option.toList_none, List.append_nil] at hpassed
    exact ⟨p, hp, hpr, hpassed⟩

/-- A transition that removes a room is a successful `deleteRoom`. -/
lemma deletes_of_step {l : (server cfg secret).Label} (hs : step conf l = some conf')
    (hin : r ∈ conf.world.db.roomIds) (hout : r ∉ conf'.world.db.roomIds) :
    conf'.world.mgr.peers = conf.world.mgr.peers ∧
      (∀ c, eventOf c (⟨conf, l, conf'⟩ : (server cfg secret).Transition) = none) ∧ ∃ t, (⟨conf, l, conf'⟩ : (server cfg secret).Transition).Calls t (.deleteRoom r) true := by
  cases l with
  | start t i =>
      obtain ⟨-, -, rfl⟩ := step_start hs
      exact absurd hin hout
  | env e =>
      obtain ⟨w, hw, rfl⟩ := step_env hs
      have hw : w.db = conf.world.db := ambient_db hw
      exact absurd (hw ▸ hin) hout
  | advance t x =>
      obtain ⟨o, k, ht, rfl⟩ := step_advance hs
      have hout : r ∉ (exec o x conf.world).2.db.roomIds := hout
      rcases exec_roomIds o x conf.world with heq | ⟨row, rfl, heq⟩ | ⟨id, rfl, hx, heq⟩
      · exact absurd (heq ▸ hin) hout
      · exact absurd (heq ▸ List.mem_append_left _ hin) hout
      · rw [heq] at hout
        obtain rfl : r = id := by
          by_contra hne
          exact hout (List.mem_filter.mpr ⟨hin, by simpa using hne⟩)
        obtain ⟨row, hrow, hid⟩ := List.mem_map.mp hin
        have hfound : (conf.world.db.deleteRoom r).1 = true :=
          List.any_eq_true.mpr ⟨row, hrow, by simpa using hid⟩
        refine ⟨by simp [exec, hx], fun c => ?_, t, x, k, rfl, ht, ?_⟩
        · by_cases hl : t = .ws c
          · subst hl
            exact eventOf_advance ht x _
          · exact eventOf_of_not_isOf hl
        · simpa [exec, hx] using hfound

/-- If every deletion of a room is evicting, whoever is registered for it and past its check when
it is gone has been collected. -/
theorem collected_of_gone (hdb : ∀ id ∈ db.roomIds, 0 ∉ id)
    (hr : Run (M := server cfg secret) (Evicting r) (boot db clock) h conf)
    (hgone : r ∉ conf.world.db.roomIds) {c : Conn} {p : Peer}
    (hp : conf.world.mgr.peers c = some p) (hpr : p.roomId = r) (hpassed : Passed r (events c h)) :
    Collected r h c := by
  refine hr.invariant (I := fun h (conf : State) => r ∉ conf.world.db.roomIds → ∀ p,
    conf.world.mgr.peers c = some p → p.roomId = r → Passed r (events c h) → Collected r h c)
    ?_ ?_ hgone p hp hpr hpassed
  · intro _ p hp
    cases hp
  · intro h conf l conf' hr ih hs hm hgone p hp hpr hpassed
    refine Collected.snoc ?_ _
    by_cases hin : r ∈ conf.world.db.roomIds
    · obtain ⟨hpeers, hnone, t, hcall⟩ := deletes_of_step hs hin hgone
      rw [hpeers] at hp
      rw [events_snoc, hnone, Option.toList_none, List.append_nil] at hpassed
      exact hm t hcall c p hp hpr hpassed
    · obtain ⟨q, hq, hqr, hold⟩ := passed_of_step hdb hr hs hin hp hpr hpassed
      exact ih hin q hq hqr hold

/-- **Deletion reaches every participant**, if at each deletion of the room everybody past its
admission check has been collected: when no task is in the midst of a program and the room is
gone, every connection joined in it has been sent the `deleted` frame and has been closed.  The
ids of the rooms in the store are plain text, as `randomRoomId` makes them. -/
theorem deletion_reaches (hdb : ∀ id ∈ db.roomIds, 0 ∉ id)
    (hr : Run (M := server cfg secret) (Evicting r) (boot db clock) h conf)
    (hidle : ∀ t, idle (conf.task t) = true) (hgone : conf.world.db.findRoom r = none) :
    ∀ c p, conf.world.mgr.peers c = some p → p.roomId = r → p.joined = true →
      Told c conf.world.wire := by
  intro c p hp hpr hj
  have hpassed : Passed r (events c h) := hpr ▸ passed_of_joined hr hp hj
  have hout : r ∉ conf.world.db.roomIds := conf.world.db.findRoom_eq_none.mp hgone
  exact told_of_collected hr hidle (collected_of_gone hdb hr hout hp hpr hpassed)

end Run

/-- The request to delete the sample room. -/
def Sample.deletion : Input :=
  .deleteRoom Sample.room (some (.object [(ascii "token", .string Sample.token)]))

/-- A connection is joined in the sample room. -/
def Sample.isIn (conf : State) (c : Conn) : Bool :=
  (conf.world.mgr.peers c).any fun p => p.joined && p.roomId = Sample.room

lemma Sample.joined_of_isIn {conf : State} {c : Conn} (h : Sample.isIn conf c = true) :
    ∃ p, conf.world.mgr.peers c = some p ∧ p.joined = true ∧ p.roomId = Sample.room := by
  cases hp : conf.world.mgr.peers c with
  | none => simp [Sample.isIn, hp] at h
  | some p =>
      simp only [Sample.isIn, hp, Option.any_some, Bool.and_eq_true, decide_eq_true_eq] at h
      exact ⟨p, rfl, h.1, h.2⟩

/-- A connection has been sent the `deleted` frame. -/
def sentDeleted (c : Conn) (wire : List (Conn × Outgoing Str)) : Bool :=
  wire.any fun e => e.1 = c && match e.2 with
    | .text .deleted => true
    | _ => false

/-- A test for transitions that delete no room with connections that have not been collected. -/
def evictingTest (r : Str) (h : List (server {} Sample.secret).Transition)
    (m : (server {} Sample.secret).Transition) : Bool :=
  match m.label with
  | .advance t _ =>
      match m.pre.task t with
      | some (.call (.deleteRoom _) _) =>
          (m.pre.world.mgr.connsOf r).all fun c => h.any fun m' =>
            (closing m').any fun e => e.2 = r && c ∈ m'.pre.world.mgr.connsOf r
      | _ => true
  | _ => true

lemma evicting_of_test {r : Str} {db : Database} {clock : ℤ}
    {ok : List (server {} Sample.secret).Transition → (server {} Sample.secret).Transition → Prop}
    {h : List (server {} Sample.secret).Transition} {m : (server {} Sample.secret).Transition}
    (hr : Run ok (boot db clock) h m.pre) (hm : evictingTest r h m = true) : Evicting r h m := by
  rintro t ⟨x, k, hl, ht, -⟩ c p hp hpr -
  have hmem : c ∈ m.pre.world.mgr.connsOf r :=
    ((registry_consistent hr).mem_iff r c).mpr ⟨p, hp, hpr⟩
  simp only [evictingTest, hl, ht] at hm
  obtain ⟨m', hm', hclosed⟩ := List.any_eq_true.mp (List.all_eq_true.mp hm c hmem)
  cases hc : closing m' with
  | none => simp [hc] at hclosed
  | some e =>
      obtain ⟨hroom, hcoll⟩ : e.2 = r ∧ c ∈ m'.pre.world.mgr.connsOf r := by
        simpa [hc] using hclosed
      exact ⟨m', hm', e.1, by rw [hc, ← hroom], hcoll⟩

lemma Sample.zero_notMem_roomIds :
    ∀ id ∈ (Sample.store 2 [] [Sample.token]).roomIds, 0 ∉ id := by
  decide +kernel

/-- A client comes in, and then the room is deleted. -/
def Sample.joinsAndIsEvicted : Script (M := server {} Sample.secret)
    (boot (Sample.store 2 [] [Sample.token]) 0) (evictingTest Sample.room)
    (fun h conf => settled h conf &&
      (Sample.isIn conf 0 && (conf.world.db.findRoom Sample.room).isNone)) where
  labels := Sample.opening 0 ++ Sample.joining 0 Sample.token 9
    ++ Sample.handle (.http 0) Sample.deletion 6
  performed := by decide +kernel

/-- A client that is in the room when it is deleted is told. -/
theorem deletion_reaches_sample : ∃ conf : State,
    Sample.isIn conf 0 = true ∧ Told 0 conf.world.wire := by
  obtain ⟨h, conf, hr, hidle, hend⟩ := Sample.joinsAndIsEvicted.exists_idle_run
    (fun h m hr => evicting_of_test hr) (fun _ => rfl)
  obtain ⟨hin, hgone⟩ := Bool.and_eq_true_iff.mp hend
  obtain ⟨p, hp, hj, hroom⟩ := Sample.joined_of_isIn hin
  exact ⟨conf, hin, deletion_reaches Sample.zero_notMem_roomIds hr hidle
    (Option.isNone_iff_eq_none.mp hgone) 0 p hp hroom hj⟩

/-- A client comes in while the room is being deleted. -/
def Sample.joinsUnnoticed : Script (M := server {} Sample.secret)
    (boot (Sample.store 2 [] [Sample.token]) 0) (fun _ _ => true)
    (fun h conf => settled h conf && ((Sample.isIn conf 0 &&
      (conf.world.db.findRoom Sample.room).isNone) && !sentDeleted 0 conf.world.wire)) where
  labels := Sample.handle (.http 0) Sample.deletion 2
    ++ Sample.opening 0 ++ Sample.joining 0 Sample.token 9
    ++ List.replicate 2 (.advance (.http 0) (Sample.draw 0))
  performed := by decide +kernel

/-- A client comes in with its token after the connections of the room have been collected and
before the room is removed, and is never told. -/
theorem joined_unnoticed : ¬ ∀ (cfg : Config) (secret : List UInt8) (db : Database) (clock : ℤ)
    (h : List (server cfg secret).Transition) (conf : State) (r : Str),
    (∀ id ∈ db.roomIds, 0 ∉ id) → Run (M := server cfg secret) anyStep (boot db clock) h conf →
      (∀ t, idle (conf.task t) = true) → conf.world.db.findRoom r = none →
        ∀ c p, conf.world.mgr.peers c = some p → p.roomId = r → p.joined = true →
          Told c conf.world.wire := by
  intro hall
  obtain ⟨h, conf, hr, hidle, hend⟩ := Sample.joinsUnnoticed.exists_idle_run
    (fun _ _ _ _ => trivial) (fun _ => rfl)
  obtain ⟨hend, hsent⟩ := Bool.and_eq_true_iff.mp hend
  obtain ⟨hin, hgone⟩ := Bool.and_eq_true_iff.mp hend
  obtain ⟨p, hp, hj, hroom⟩ := Sample.joined_of_isIn hin
  have htold := hall _ _ _ _ h conf Sample.room Sample.zero_notMem_roomIds hr hidle
    (Option.isNone_iff_eq_none.mp hgone) 0 p hp hroom hj
  have hfound : sentDeleted 0 conf.world.wire = true := List.any_eq_true.mpr ⟨_, htold.1, rfl⟩
  simp [hfound] at hsent

end HashHush
