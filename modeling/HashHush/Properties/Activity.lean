import HashHush.Properties.Purge

/-!
# The times of a room

A room is stamped when it is created, activated and used.  A creation reads the clock before it
inserts the row, and other tasks may do anything in between; the other stamps are taken by the
statement itself.  Under a clock that never goes backwards the times of a room are in order all the
same, and what a room has been stamped with it keeps, or exceeds, until it is deleted
(`times_in_order`).
-/

namespace HashHush

open Concurrency System

/-! ## What an operation does to the rooms -/

/-- The rows are rewritten one by one: nothing but the stamp changes of their times, and the stamp
is the clock. -/
structure Restamps (now : ℤ) (f : RoomRow → RoomRow) : Prop where
  id_eq : ∀ r, (f r).id = r.id
  createdAt_eq : ∀ r, (f r).createdAt = r.createdAt
  lastActiveAt_eq : ∀ r, (f r).lastActiveAt = r.lastActiveAt ∨ (f r).lastActiveAt = now

/-- The rooms are rewritten, one is added or one is removed. -/
lemma exec_rooms (o : Op Str) (x : Choice) (w : World Str) :
    (∃ f, Restamps w.clock f ∧ (exec o x w).2.db.rooms = w.db.rooms.map f) ∨
      (∃ row, o = .createRoom row ∧ (exec o x w).2.db.rooms = w.db.rooms ++ [row]) ∨
      ∃ id, o = .deleteRoom id ∧
        (exec o x w).2.db.rooms = w.db.rooms.filter fun r => r.id ≠ id := by
  have hkept : (exec o x w).2.db.rooms = w.db.rooms →
      ∃ f, Restamps w.clock f ∧ (exec o x w).2.db.rooms = w.db.rooms.map f := by
    intro h
    exact ⟨id, ⟨fun _ => rfl, fun _ => rfl, fun _ => .inl rfl⟩, by rw [h, List.map_id]⟩
  have hupdated : ∀ (id : Str) {f : RoomRow → RoomRow}, Restamps w.clock f →
      Restamps w.clock fun r => if r.id = id then f r else r := by
    intro id f hf
    refine ⟨fun r => ?_, fun r => ?_, fun r => ?_⟩
    all_goals split
    · exact hf.id_eq r
    · rfl
    · exact hf.createdAt_eq r
    · rfl
    · exact hf.lastActiveAt_eq r
    · exact .inl rfl
  cases hx : x.sql with
  | false =>
      refine .inl (hkept ?_)
      cases o <;> simp [exec, hx]
  | true =>
      cases o with
      | touchRoom id =>
          refine .inl ⟨_, hupdated id (f := fun r => { r with lastActiveAt := w.clock })
            ⟨fun _ => rfl, fun _ => rfl, fun _ => .inr rfl⟩, ?_⟩
          simp only [exec, hx, if_true]
          rfl
      | activateRoom id =>
          refine .inl ⟨_, hupdated id
            (f := fun r => { r with activated := true, lastActiveAt := w.clock })
            ⟨fun _ => rfl, fun _ => rfl, fun _ => .inr rfl⟩, ?_⟩
          simp only [exec, hx, if_true]
          rfl
      | createRoom row =>
          by_cases hin : row.id ∈ w.db.rooms.map RoomRow.id
          · refine .inl (hkept ?_)
            simp only [exec, hx, if_true, Database.createRoom, dif_pos hin]
          · refine .inr (.inl ⟨row, rfl, ?_⟩)
            simp only [exec, hx, if_true, Database.createRoom, dif_neg hin]
      | deleteRoom id =>
          refine .inr (.inr ⟨id, rfl, ?_⟩)
          simp only [exec, hx, if_true]
          rfl
      | insertChallenges id pairs =>
          refine .inl (hkept ?_)
          simp only [exec, hx, if_true, Database.insertChallenges]
          split <;> rfl
      | consumeChallenge id =>
          refine .inl (hkept ?_)
          simp only [exec, hx, if_true, Database.consumeChallenge]
          split <;> rfl
      | insertAccessToken token id =>
          refine .inl (hkept ?_)
          simp only [exec, hx, if_true, Database.insertAccessToken]
          split <;> rfl
      | _ => exact .inl (hkept rfl)

/-! ## The row of a creation -/

/-- A row to insert has the time that the clock has shown. -/
def creationPre : Op Str → List (Called (signature Str)) → Prop
  | .createRoom row, es => row.createdAt = row.lastActiveAt ∧
      (⟨.nowSeconds, row.lastActiveAt⟩ : Called (signature Str)) ∈ es
  | _, _ => True

/-- The specification of a task with respect to the rows it inserts. -/
abbrev creating : Spec (signature Str) (List (Called (signature Str))) :=
  .traced creationPre fun _ _ => True

/-- The operation inserts no room. -/
def Op.Createless : Op Str → Prop
  | .createRoom _ => False
  | _ => True

section Handlers

variable {es : List (Called (signature Str))} {cfg : Config} {secret : List UInt8} {n : ℕ}

lemma wp_of_createless {α : Type} {p : Handler Str α} (hp : p.Only Op.Createless) :
    p.Wp creating (fun _ _ => True) es := by
  refine hp.wp_traced (J := fun _ => True) ?_ (fun _ _ _ _ _ => trivial) (fun _ _ _ => trivial)
    trivial
  intro o es ho _
  cases o with
  | createRoom => exact ho.elim
  | _ => trivial

lemma jsonError_createless (e : HttpError) : (jsonError n e : Handler Str Unit).Only Op.Createless :=
  ⟨trivial, fun _ => trivial⟩

lemma verifyChallenge_createless (challenge nonce : Str) (bits : ℤ) :
    (verifyChallenge secret challenge nonce bits : Handler Str _).Only Op.Createless := by
  unfold verifyChallenge
  cases Captcha.split3 challenge with
  | none => trivial
  | some parts =>
      refine Prog.Only.ite (fun _ => trivial) fun _ => Prog.Only.ite (fun _ => trivial) fun _ => ?_
      cases Captcha.stoll parts.2.1 with
      | none => trivial
      | some exp =>
          refine .step trivial fun now => Prog.Only.ite (fun _ => trivial) fun _ => ?_
          refine Prog.Only.ite (fun _ => trivial) fun _ => ?_
          exact .step trivial fun inserted => Prog.Only.ite (fun _ => trivial) fun _ => trivial

/-- A room is created with the time that was read last. -/
lemma createRoom_creating (body : Json) :
    (createRoom cfg n body : Handler Str Unit).Wp creating (fun _ _ => True) es := by
  refine Prog.Wp.ofExcept (fun name _ => ?_) fun _ _ => trivial
  refine Prog.Wp.ofExcept (fun requiresPassword _ => ?_) fun _ _ => trivial
  refine Prog.Wp.seq (J := fun _ => True) (wp_of_createless ?_) fun count es _ => ?_
  · exact Prog.Only.ite (fun _ => .perform trivial) fun _ => trivial
  · apply Prog.Wp.ite (fun _ => wp_of_createless (jsonError_createless _))
    intro _
    refine .traced trivial fun bytes _ => .traced trivial fun now _ => ?_
    refine .traced ⟨rfl, by simp⟩ fun inserted _ => wp_of_createless ?_
    exact Prog.Only.ite (fun _ => .perform trivial) fun _ => jsonError_createless _

lemma postRooms_creating (body : Option Json) :
    (postRooms cfg secret n body).Wp creating (fun _ _ => True) es := by
  have herror : ∀ (e : HttpError) {es : List (Called (signature Str))},
      (jsonError n e : Handler Str Unit).Wp creating (fun _ _ => True) es :=
    fun e => wp_of_createless (jsonError_createless e)
  cases body with
  | none => exact herror _
  | some body =>
      refine Prog.Wp.ofExcept (fun hasPow _ => ?_) fun _ _ => trivial
      apply Prog.Wp.ite _ fun _ => herror _
      intro _
      refine Prog.Wp.ofExcept (fun pow _ => ?_) fun _ _ => trivial
      cases pow with
      | object pow =>
          refine Prog.Wp.ofExcept (fun challenge _ => ?_) fun _ _ => trivial
          refine Prog.Wp.ofExcept (fun nonce _ => ?_) fun _ _ => trivial
          apply Prog.Wp.ite (fun _ => herror _)
          intro _
          apply Prog.Wp.ite (fun _ => herror _)
          intro _
          refine Prog.Wp.seq (J := fun _ => True)
            (wp_of_createless (verifyChallenge_createless _ _ _)) fun result es _ => ?_
          cases result with
          | ok => exact createRoom_creating body
          | _ => exact herror _
      | _ => exact herror _

lemma aliveAndGone_createless (items : List Json) :
    (aliveAndGone (π := Str) items).Only Op.Createless := by
  fun_induction aliveAndGone items with
  | case1 => trivial
  | case2 id items ih => exact .step trivial fun room => ih.bind fun _ => trivial
  | case3 item items _ ih => exact ih

lemma removeRoom_createless (id : Str) : (removeRoom (π := Str) id).Only Op.Createless := by
  refine Prog.Only.bind (.step trivial fun targets => ?_) fun _ => .step trivial fun _ => trivial
  exact closeEach_only (fun _ => trivial) (fun _ _ => trivial) targets

/-- Every task inserts rooms with a time that it has read. -/
lemma program_creating (t : Task) (i : Input) :
    (program cfg secret t i).Wp creating (fun _ _ => True) es := by
  have hws : ∀ {c : Conn} {p : Handler Str Unit}, p.Only (Op.OfWs c) →
      p.Wp creating (fun _ _ => True) es := by
    intro c p hp
    refine wp_of_createless (hp.mono fun o ho => ?_)
    cases o with
    | createRoom => exact ho.elim
    | _ => trivial
  match t, i with
  | .ws c, .opened room => exact hws (onopen_ofWs c room)
  | .ws c, .message data => exact hws ((onmessage_ofMessage c cfg id data).mono fun _ ho => ho.ofWs)
  | .ws c, .closed => exact hws (onclose_ofWs c)
  | .http n, .getPowChallenge =>
      refine wp_of_createless (Prog.Only.bind ?_ fun _ => .perform trivial)
      exact .step trivial fun _ => .step trivial fun _ => trivial
  | .http n, .postRooms body => exact postRooms_creating body
  | .http n, .activate id body =>
      refine wp_of_createless ((activate_ofActivate n cfg id body).mono fun o ho => ?_)
      cases o with
      | createRoom => exact ho.elim
      | _ => trivial
  | .http n, .isAlive body =>
      refine wp_of_createless (.ofExcept fun items _ => ?_)
      exact (aliveAndGone_createless items).bind fun _ => .perform trivial
  | .http n, .deleteRoom id body =>
      refine wp_of_createless ?_
      cases body with
      | none => exact jsonError_createless _
      | some body =>
          refine .ofExcept fun token _ => Prog.Only.ite (fun _ => jsonError_createless _) fun _ => ?_
          refine .step trivial fun owner => Prog.Only.ite (fun _ => ?_) fun _ => jsonError_createless _
          exact (removeRoom_createless id).bind fun _ => .perform trivial
  | .purger, .purge =>
      refine wp_of_createless (.step trivial fun now => .step trivial fun stale => ?_)
      induction stale with
      | nil => trivial
      | cons id ids ih => exact (removeRoom_createless id).bind fun _ => ih
  | .ws _, .getPowChallenge | .ws _, .postRooms _ | .ws _, .activate _ _ | .ws _, .isAlive _
  | .ws _, .deleteRoom _ _ | .ws _, .purge => trivial
  | .http _, .opened _ | .http _, .message _ | .http _, .closed | .http _, .purge => trivial
  | .purger, .opened _ | .purger, .message _ | .purger, .closed | .purger, .getPowChallenge
  | .purger, .postRooms _ | .purger, .activate _ _ | .purger, .isAlive _
  | .purger, .deleteRoom _ _ => trivial

end Handlers

section Run

variable {cfg : Config} {secret : List UInt8} {db : Database} {clock : ℤ}
variable {ok : List (server cfg secret).Transition → (server cfg secret).Transition → Prop}
variable {h : List (server cfg secret).Transition} {conf : State}

/-- A room that is about to be inserted has a time that its task has read off the clock. -/
lemma creation_of_run (hr : Run (M := server cfg secret) ok (boot db clock) h conf) {t : Task}
    {row : RoomRow} {k : Bool → Handler Str Unit}
    (ht : conf.task t = some (.call (.createRoom row) k)) : row.createdAt = row.lastActiveAt ∧
      ∃ m ∈ h, m.Calls (M := server cfg secret) t .nowSeconds row.lastActiveAt := by
  obtain ⟨h₁, c₀, i, c₁, h₂, rfl, hno⟩ := hr.exists_start rfl ht
  obtain ⟨q, hq, hpath⟩ := hr.path hno
  obtain rfl : q = .call (.createRoom row) k := Option.some.inj (hq.symm.trans ht)
  have hcreating : (program cfg secret t i).Wp creating (fun _ _ => True) [] := program_creating t i
  have hwp := Prog.Wp.path hpath hcreating
  obtain ⟨⟨hcreated, hread⟩, -⟩ := (Prog.wp_call_traced _ _ _ _).mp hwp
  rw [List.nil_append] at hread
  obtain ⟨m, hm, hcalls⟩ := mem_calls.mp hread
  exact ⟨hcreated, m, by simp [hm], hcalls⟩

/-! ## The clock -/

/-- A transition does not set the clock back. -/
lemma clock_step {conf' : State} {l : (server cfg secret).Label}
    (hs : step (M := server cfg secret) conf l = some conf') (hf : Forward h ⟨conf, l, conf'⟩) :
    conf.world.clock ≤ conf'.world.clock := by
  cases l with
  | start t i =>
      obtain ⟨-, -, rfl⟩ := step_start hs
      exact le_refl _
  | advance t x =>
      obtain ⟨o, k, ht, rfl⟩ := step_advance hs
      exact (exec_clock o x conf.world).ge
  | env e =>
      obtain ⟨w, hw, rfl⟩ := step_env hs
      cases e with
      | clock t =>
          obtain rfl := Option.some.inj hw
          exact hf t rfl
      | destroy c =>
          obtain ⟨-, hw⟩ := Option.ite_none_right_eq_some.mp hw
          obtain rfl := Option.some.inj hw
          exact le_refl _

/-- The clock shows at least what it has shown. -/
lemma clock_le (hr : Run (M := server cfg secret) Forward (boot db clock) h conf) :
    ∀ m ∈ h, m.pre.world.clock ≤ conf.world.clock := by
  refine hr.invariant (I := fun (h : List (server cfg secret).Transition) (conf : State) =>
    ∀ m ∈ h, m.pre.world.clock ≤ conf.world.clock) (by simp) ?_
  intro h conf l conf' _ ih hs hf m hm
  have hle : conf.world.clock ≤ conf'.world.clock := clock_step hs hf
  rcases List.mem_append.mp hm with hm | hm
  · exact (ih m hm).trans hle
  · rwa [List.mem_singleton.mp hm]

/-! ## The times -/

/-- The times of the rooms are in order. -/
def Chronological (conf : State) : Prop :=
  ∀ row ∈ conf.world.db.rooms, row.createdAt ≤ row.lastActiveAt ∧
    row.lastActiveAt ≤ conf.world.clock

instance : Decidable (Chronological conf) := inferInstanceAs (Decidable (∀ _ ∈ _, _))

/-- A world with the same rooms and no earlier clock. -/
lemma Chronological.later {conf' : State} (ht : Chronological conf)
    (hrooms : conf'.world.db.rooms = conf.world.db.rooms)
    (hclock : conf.world.clock ≤ conf'.world.clock) : Chronological conf' := by
  intro row hrow
  rw [hrooms] at hrow
  exact ⟨(ht row hrow).1, (ht row hrow).2.trans hclock⟩

/-- The times are in order after every run under a clock that never goes backwards. -/
lemma chronological_of_run (hdb : Chronological (boot db clock))
    (hr : Run (M := server cfg secret) Forward (boot db clock) h conf) : Chronological conf := by
  refine hr.invariant (I := fun _ conf => Chronological conf) hdb ?_
  intro h conf l conf' hr ih hs hf
  have hclock := clock_step hs hf
  cases l with
  | start t i =>
      obtain ⟨-, -, rfl⟩ := step_start hs
      exact ih.later rfl hclock
  | env e =>
      obtain ⟨w, hw, rfl⟩ := step_env hs
      exact ih.later (congrArg Database.rooms (ambient_db hw)) hclock
  | advance t x =>
      obtain ⟨o, k, ht, rfl⟩ := step_advance hs
      have hnow : (exec o x conf.world).2.clock = conf.world.clock := exec_clock o x conf.world
      have hall : ∀ row ∈ (exec o x conf.world).2.db.rooms,
          row.createdAt ≤ row.lastActiveAt ∧ row.lastActiveAt ≤ conf.world.clock := by
        intro row hrow
        rcases exec_rooms o x conf.world with ⟨f, hf, hrooms⟩ | ⟨row', rfl, hrooms⟩ | ⟨id, -, hrooms⟩
        · rw [hrooms] at hrow
          obtain ⟨row', hrow', rfl⟩ := List.mem_map.mp hrow
          obtain ⟨hcreated, hactive⟩ := ih row' hrow'
          rw [hf.createdAt_eq]
          rcases hf.lastActiveAt_eq row' with hsame | hstamped
          · rw [hsame]
            exact ⟨hcreated, hactive⟩
          · rw [hstamped]
            exact ⟨hcreated.trans hactive, le_refl _⟩
        · rw [hrooms] at hrow
          rcases List.mem_append.mp hrow with hrow | hrow
          · exact ih row hrow
          · obtain rfl := List.mem_singleton.mp hrow
            -- the time was read before, and the clock has not gone back since
            obtain ⟨hcreated, m, hm, hcalls⟩ := creation_of_run hr ht
            obtain ⟨y, k', -, -, hread⟩ := hcalls
            have hread : m.pre.world.clock = row.lastActiveAt := hread
            exact ⟨hcreated.le, hread ▸ clock_le hr m hm⟩
        · rw [hrooms] at hrow
          exact ih row (List.mem_filter.mp hrow).1
      intro row hrow
      obtain ⟨hcreated, hactive⟩ := hall row hrow
      exact ⟨hcreated, hactive.trans hnow.ge⟩

/-- The times of the rooms in a run. -/
structure TimesInOrder (h : List (server cfg secret).Transition) (conf : State) : Prop where
  ordered : Chronological conf
  /-- A room keeps its creation, and its stamp does not go back, until it is deleted. -/
  kept : ∀ h₁ m h₂, h = h₁ ++ m :: h₂ → ∀ row ∈ m.post.world.db.rooms,
    (∃ row' ∈ conf.world.db.rooms, row'.id = row.id ∧ row'.createdAt = row.createdAt ∧
      row.lastActiveAt ≤ row'.lastActiveAt) ∨
    ∃ m' ∈ h₂, ∃ t b, m'.Calls (M := server cfg secret) t (.deleteRoom row.id) b

/-- **The times of the rooms are in order** in every run under a clock that never goes backwards. -/
theorem times_in_order (hdb : Chronological (boot db clock))
    (hr : Run (M := server cfg secret) Forward (boot db clock) h conf) : TimesInOrder h conf := by
  refine ⟨chronological_of_run hdb hr, ?_⟩
  rintro h₁ m h₂ rfl row hrow
  refine hr.rest_induction (P := fun g (conf : State) => (∃ row' ∈ conf.world.db.rooms,
    row'.id = row.id ∧ row'.createdAt = row.createdAt ∧ row.lastActiveAt ≤ row'.lastActiveAt) ∨
      ∃ m' ∈ g, ∃ t b, m'.Calls (M := server cfg secret) t (.deleteRoom row.id) b)
    (.inl ⟨row, hrow, rfl, rfl, le_refl _⟩) ?_
  rintro g conf l conf' hr (⟨row', hrow', hid, hcreated, hle⟩ | ⟨m', hm', hdeleted⟩) hs
  · cases l with
    | start t i =>
        obtain ⟨-, -, rfl⟩ := step_start hs
        exact .inl ⟨row', hrow', hid, hcreated, hle⟩
    | env e =>
        obtain ⟨w, hw, rfl⟩ := step_env hs
        have hkept : w.db = conf.world.db := ambient_db hw
        exact .inl ⟨row', hkept ▸ hrow', hid, hcreated, hle⟩
    | advance t x =>
        obtain ⟨o, k, ht, rfl⟩ := step_advance hs
        rcases exec_rooms o x conf.world with ⟨f, hf, hrooms⟩ | ⟨new, -, hrooms⟩ | ⟨id, ho, hrooms⟩
        · refine .inl ⟨f row', hrooms ▸ List.mem_map_of_mem hrow', ?_, ?_, ?_⟩
          · rw [hf.id_eq, hid]
          · rw [hf.createdAt_eq, hcreated]
          · rcases hf.lastActiveAt_eq row' with hsame | hstamped
            · rwa [hsame]
            · rw [hstamped]
              exact hle.trans (chronological_of_run hdb hr row' hrow').2
        · exact .inl ⟨row', hrooms ▸ List.mem_append_left _ hrow', hid, hcreated, hle⟩
        · by_cases hrow : row'.id = id
          · subst ho
            obtain rfl : row.id = id := hid.symm.trans hrow
            refine .inr ⟨_, List.mem_append_right _ (List.mem_singleton_self _), t,
              (exec (.deleteRoom row.id) x conf.world).1, ?_⟩
            exact ⟨x, k, rfl, ht, rfl⟩
          · have hmem : row' ∈ conf.world.db.rooms.filter fun r => r.id ≠ id :=
              List.mem_filter.mpr ⟨hrow', by simpa using hrow⟩
            exact .inl ⟨row', hrooms ▸ hmem, hid, hcreated, hle⟩
  · exact .inr ⟨m', List.mem_append_left _ hm', hdeleted⟩

end Run

/-- The transition does not set the clock back. -/
def Sample.forwards (m : (server {} Sample.secret).Transition) : Bool :=
  match m.label with
  | .env (.clock t) => m.pre.world.clock ≤ t
  | _ => true

/-- A client joins the sample room after the clock has moved on. -/
def Sample.joinsLater : Script (M := server {} Sample.secret)
    (boot (Sample.store 2 [] [Sample.token]) 0) (fun _ m => Sample.forwards m)
    (fun _ (conf : State) => conf.world.db.rooms.any fun row => row.lastActiveAt = 7) where
  labels := [.env (.clock 7)] ++ Sample.opening 0 ++ Sample.joining 0 Sample.token 9
  performed := by decide +kernel

/-- The room has been stamped, and its times are in order. -/
theorem times_in_order_sample : ∃ (h : List (server {} Sample.secret).Transition) (conf : State),
    (conf.world.db.rooms.any fun row => row.lastActiveAt = 7) = true ∧ TimesInOrder h conf := by
  have hforward : ∀ h (m : (server {} Sample.secret).Transition),
      Run Forward (boot (Sample.store 2 [] [Sample.token]) 0) h m.pre →
        Sample.forwards m = true → Forward h m := by
    intro h m _ hm t hl
    simpa [Sample.forwards, hl] using hm
  obtain ⟨h, conf, hr, hstamped⟩ := Sample.joinsLater.exists_run hforward
  have hdb : Chronological (boot (Sample.store 2 [] [Sample.token]) 0) := by decide +kernel
  exact ⟨h, conf, hstamped, times_in_order hdb hr⟩

end HashHush
