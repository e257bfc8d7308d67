import HashHush.Server

/-!
# How many rooms the server holds

`total_rooms_cap` is the number of rooms allowed on the instance.  `POST /api/rooms` counts the
rooms and inserts the new one later, so requests that have counted at the same time may all
insert: `cap_exceeded` is such a run.

`roomsCap_iff` says when the cap holds: exactly if, whenever a request inserts its room, the rooms
that have been inserted since it counted, less those that have been deleted, are fewer than the
places that were left when it counted.  The answer `rooms_capacity_reached` is given only if there
was no place at that moment.
-/

namespace HashHush

open Concurrency System

/-! ## Rooms come and go -/

/-- What an operation adds to the number of rooms, by its result. -/
def Op.roomsDelta {π : Type} : (o : Op π) → o.Res → ℤ
  | .createRoom _, inserted => if inserted then 1 else 0
  | .deleteRoom _, deleted => if deleted then -1 else 0
  | _, _ => 0

/-- Deleting a room removes one row, if there is one. -/
lemma Database.countRooms_deleteRoom (d : Database) (id : Str) :
    (d.deleteRoom id).2.countRooms = d.countRooms + if (d.deleteRoom id).1 then -1 else 0 := by
  have hsplit : d.rooms.length = (d.deleteRoom id).2.rooms.length
      + d.rooms.countP fun r => r.id = id := by
    rw [List.length_eq_countP_add_countP (fun r : RoomRow => r.id = id), Nat.add_comm]
    simp [Database.deleteRoom, List.countP_eq_length_filter]
  have hone : d.rooms.countP (fun r => r.id = id) = if (d.deleteRoom id).1 then 1 else 0 := by
    have hcount : d.rooms.countP (fun r => r.id = id) = (d.rooms.map RoomRow.id).count id := by
      rw [List.count, List.countP_map]
      exact List.countP_congr fun r _ => by simp
    rw [hcount]
    split
    · rename_i hany
      obtain ⟨r, hr, hid⟩ := List.any_eq_true.mp hany
      have hid : r.id = id := by simpa using hid
      exact List.count_eq_one_of_mem d.roomKey (hid ▸ List.mem_map_of_mem hr)
    · rename_i hnone
      refine List.count_eq_zero.mpr fun hmem => hnone ?_
      obtain ⟨r, hr, hid⟩ := List.mem_map.mp hmem
      exact List.any_eq_true.mpr ⟨r, hr, by simpa using hid⟩
  rw [Database.countRooms, Database.countRooms, hsplit, hone]
  split <;> simp

lemma Database.countRooms_createRoom (d : Database) (row : RoomRow) :
    (d.createRoom row).2.countRooms = d.countRooms + if (d.createRoom row).1 then 1 else 0 := by
  unfold Database.createRoom
  split <;> simp [Database.countRooms]

/-- An operation changes the number of rooms by what its result says. -/
lemma countRooms_exec {π : Type} (o : Op π) (x : Choice) (w : World π) :
    (exec o x w).2.db.countRooms = w.db.countRooms + o.roomsDelta (exec o x w).1 := by
  cases hx : x.sql with
  | false => cases o <;> simp [exec, hx, Op.roomsDelta]
  | true =>
      cases o with
      | createRoom row => simpa [exec, hx, Op.roomsDelta] using w.db.countRooms_createRoom row
      | deleteRoom id => simpa [exec, hx, Op.roomsDelta] using w.db.countRooms_deleteRoom id
      | touchRoom id =>
          simp [exec, hx, Op.roomsDelta, Database.countRooms, Database.touchRoom,
            Database.updateRoom]
      | activateRoom id =>
          simp [exec, hx, Op.roomsDelta, Database.countRooms, Database.activateRoom,
            Database.updateRoom]
      | insertChallenges id pairs =>
          simp only [exec, hx, if_true, Op.roomsDelta, Database.insertChallenges, add_zero]
          split <;> rfl
      | consumeChallenge id =>
          simp only [exec, hx, if_true, Op.roomsDelta, Database.consumeChallenge, add_zero]
          cases w.db.nextUnused id <;> rfl
      | insertAccessToken t id =>
          simp only [exec, hx, if_true, Op.roomsDelta, Database.insertAccessToken, add_zero]
          split <;> rfl
      | _ => exact (add_zero _).symm

/-! ## The request -/

/-- What the calls of an HTTP request need: before it inserts a room it has counted them, and it
answers that there is no place for one only if it has counted as many as are allowed. -/
def capPre (cap : ℤ) : Op Str → List (Called (signature Str)) → Prop
  | .createRoom _, es => ∃ count, ⟨.countRooms, count⟩ ∈ es
  | .respond _ (.error .roomsCapacityReached), es => ∃ count ≥ cap, ⟨.countRooms, count⟩ ∈ es
  | _, _ => True

/-- The specification of the HTTP requests. -/
abbrev capping (cap : ℤ) : Spec (signature Str) (List (Called (signature Str))) :=
  .traced (capPre cap) fun _ _ => True

/-- The operation neither inserts a room nor answers that there is no place for one. -/
def Op.Capless {π : Type} : Op π → Prop
  | .createRoom _ => False
  | .respond _ answer => answer ≠ .error .roomsCapacityReached
  | _ => True

section Wp

variable {cap : ℤ} {cfg : Config} {n : ℕ} {s : List (Called (signature Str))}

lemma Op.Capless.capPre {o : Op Str} (ho : o.Capless) : capPre cap o s := by
  cases o with
  | createRoom row => exact ho.elim
  | respond k answer =>
      cases answer with
      | error e =>
          cases e with
          | roomsCapacityReached => exact absurd rfl ho
          | _ => trivial
      | _ => trivial
  | _ => trivial

lemma wp_of_capless {α : Type} {p : Handler Str α} (hp : p.Only Op.Capless) :
    p.Wp (capping cap) (fun _ _ => True) s :=
  hp.wp_traced (J := fun _ => True) (fun _ _ ho _ => ho.capPre) (fun _ _ _ _ _ => trivial)
    (fun _ _ _ => trivial) trivial

lemma jsonError_capless {e : HttpError} (he : e ≠ .roomsCapacityReached) :
    (jsonError (π := Str) n e).Only Op.Capless :=
  .perform fun h => he (Response.error.inj h)

lemma getPowChallenge_capless {secret : List UInt8} :
    (getPowChallenge (π := Str) cfg secret n).Only Op.Capless := by
  refine Prog.Only.bind ?_ fun challenge => .perform (by simp [Op.Capless])
  exact .step trivial fun bytes => .step trivial fun now => trivial

lemma isAlive_capless {body : Option Json} : (isAlive (π := Str) n body).Only Op.Capless := by
  have hitems : ∀ items, (aliveAndGone (π := Str) items).Only Op.Capless := by
    intro items
    fun_induction aliveAndGone (π := Str) items with
    | case1 => trivial
    | case2 id items ih => exact .step trivial fun room => ih.bind fun _ => trivial
    | case3 item items _ ih => exact ih
  refine .ofExcept fun items _ => (hitems items).bind fun _ => ?_
  exact ⟨by simp [Op.Capless], fun _ => trivial⟩

lemma removeRoom_capless {id : Str} : (removeRoom (π := Str) id).Only Op.Capless := by
  refine Prog.Only.bind (.step trivial fun targets => ?_) fun _ => .step trivial fun _ => trivial
  exact closeEach_only (fun _ => trivial) (fun _ _ => trivial) targets

lemma deleteRoom_capless {id : Str} {body : Option Json} :
    (deleteRoom (π := Str) n id body).Only Op.Capless := by
  cases body with
  | none => exact jsonError_capless (by simp)
  | some body =>
      refine .ofExcept fun token _ => Prog.Only.ite (fun _ => jsonError_capless (by simp)) fun _ => ?_
      refine .step trivial fun owner => ?_
      refine Prog.Only.ite (fun _ => ?_) fun _ => jsonError_capless (by simp)
      exact removeRoom_capless.bind fun _ => .perform (by simp [Op.Capless])

/-- The errors of the loop over the uploaded triples. -/
lemma error_of_challengePairs {e : HttpError} : ∀ {els : List Json},
    challengePairs cfg els = .ok (.error e) → e = .badChallengeField ∨ e = .challengeTooLarge
  | [], h => by cases h
  | el :: els, h => by
      obtain ⟨plaintext, -, h⟩ := ok_of_bind h
      obtain ⟨ciphertext, -, h⟩ := ok_of_bind h
      obtain ⟨nonce, -, h⟩ := ok_of_bind h
      dsimp only at h
      split at h
      · exact .inl (Except.error.inj (Except.ok.inj h)).symm
      · split at h
        · exact .inr (Except.error.inj (Except.ok.inj h)).symm
        · obtain ⟨rest, hrest, h⟩ := ok_of_bind h
          cases rest with
          | error e' =>
              obtain rfl : e' = e := Except.error.inj (Except.ok.inj h)
              exact error_of_challengePairs hrest
          | ok pairs => cases h

/-- The errors of the check of a pool. -/
lemma error_of_checkPool {row : RoomRow} {body : Option Json} {e : HttpError}
    (h : checkPool cfg row body = .ok (.error e)) : e ≠ .roomsCapacityReached := by
  cases body with
  | none =>
      obtain rfl := Except.error.inj (Except.ok.inj h)
      simp
  | some body =>
      obtain ⟨hasChallenges, -, h⟩ := ok_of_bind h
      split at h
      · obtain ⟨v, -, h⟩ := ok_of_bind h
        split at h
        · split at h
          · obtain rfl := Except.error.inj (Except.ok.inj h)
            simp
          · rcases error_of_challengePairs h with rfl | rfl <;> simp
        · obtain rfl := Except.error.inj (Except.ok.inj h)
          simp
      · obtain rfl := Except.error.inj (Except.ok.inj h)
        simp

lemma activate_capless {id : Str} {body : Option Json} :
    (activate (π := Str) cfg n id body).Only Op.Capless := by
  refine .step trivial fun roomOpt => ?_
  cases roomOpt with
  | none => exact jsonError_capless (by simp)
  | some row =>
      refine Prog.Only.ite (fun _ => jsonError_capless (by simp)) fun _ => ?_
      refine .ofExcept fun pool hpool => ?_
      cases pool with
      | error e => exact jsonError_capless (error_of_checkPool hpool)
      | ok pairs =>
          refine .step trivial fun inserted => ?_
          refine Prog.Only.ite (fun _ => ?_) fun _ => jsonError_capless (by simp)
          refine .step trivial fun activated => ?_
          exact Prog.Only.ite (fun _ => .perform (by simp [Op.Capless]))
            fun _ => jsonError_capless (by simp)

lemma verifyChallenge_capless {secret : List UInt8} {challenge nonce : Str} {bits : ℤ} :
    (verifyChallenge (π := Str) secret challenge nonce bits).Only Op.Capless := by
  unfold verifyChallenge
  split
  · trivial
  · refine Prog.Only.ite (fun _ => trivial) fun _ => Prog.Only.ite (fun _ => trivial) fun _ => ?_
    split
    · trivial
    · refine .step trivial fun now => ?_
      refine Prog.Only.ite (fun _ => trivial) fun _ => Prog.Only.ite (fun _ => trivial) fun _ => ?_
      refine .step trivial fun inserted => ?_
      exact Prog.Only.ite (fun _ => trivial) fun _ => trivial

lemma purge_capless : (purge (π := Str) cfg).Only Op.Capless := by
  refine .step trivial fun now => .step trivial fun stale => ?_
  induction stale with
  | nil => trivial
  | cons id ids ih => exact removeRoom_capless.bind fun _ => ih

/-- A request counts the rooms before it inserts one. -/
lemma createRoom_capping (hcap : 0 < cfg.totalRoomsCap) {body : Json} :
    (createRoom (π := Str) cfg n body).Wp (capping cfg.totalRoomsCap) (fun _ _ => True) s := by
  refine .ofExcept (fun name _ => ?_) fun _ _ => trivial
  refine .ofExcept (fun requiresPassword _ => ?_) fun _ _ => trivial
  rw [if_pos hcap]
  refine .traced trivial fun count _ => .ite (fun hfull => ?_) fun _ => ?_
  · exact .traced ⟨count, hfull.2, by simp⟩ fun _ _ => trivial
  · refine .traced trivial fun bytes _ => .traced trivial fun now _ => ?_
    refine .traced ⟨count, by simp⟩ fun inserted _ => wp_of_capless ?_
    exact Prog.Only.ite (fun _ => .perform (by simp [Op.Capless])) fun _ => jsonError_capless (by simp)

lemma postRooms_capping (hcap : 0 < cfg.totalRoomsCap) {secret : List UInt8} {body : Option Json} :
    (postRooms (π := Str) cfg secret n body).Wp (capping cfg.totalRoomsCap)
      (fun _ _ => True) s := by
  have herror : ∀ {e : HttpError} {s : List (Called (signature Str))}, e ≠ .roomsCapacityReached →
      (jsonError (π := Str) n e).Wp (capping cfg.totalRoomsCap) (fun _ _ => True) s :=
    fun he => wp_of_capless (jsonError_capless he)
  cases body with
  | none => exact herror (by simp)
  | some body =>
      refine .ofExcept (fun hasPow _ => ?_) fun _ _ => trivial
      refine .ite (fun _ => ?_) fun _ => herror (by simp)
      refine .ofExcept (fun pow _ => ?_) fun _ _ => trivial
      split
      · refine .ofExcept (fun challenge _ => ?_) fun _ _ => trivial
        refine .ofExcept (fun nonce _ => ?_) fun _ _ => trivial
        refine .ite (fun _ => herror (by simp)) fun _ => ?_
        refine .ite (fun _ => herror (by simp)) fun _ => ?_
        refine Prog.Wp.seq (J := fun _ => True) (wp_of_capless verifyChallenge_capless) ?_
        intro result s _
        cases result with
        | ok => exact createRoom_capping hcap
        | _ => exact herror (by simp)
      · exact herror (by simp)

end Wp

section Run

variable {cfg : Config} {secret : List UInt8} {db : Database} {clock : ℤ}
variable {ok : List (server cfg secret).Transition → (server cfg secret).Transition → Prop}
variable {h h₁ h₂ : List (server cfg secret).Transition} {conf conf' : State}

/-- What a transition adds to the number of rooms. -/
def roomsDelta (m : (server cfg secret).Transition) : ℤ :=
  (m.performed.map fun e : Called (signature Str) => e.1.roomsDelta e.2).getD 0

/-- By how much the number of rooms has grown: the rooms inserted less those deleted. -/
def growth (h : List (server cfg secret).Transition) : ℤ := (h.map roomsDelta).sum

lemma countRooms_step {l : (server cfg secret).Label}
    (hs : step (M := server cfg secret) conf l = some conf') : conf'.world.db.countRooms
      = conf.world.db.countRooms + roomsDelta (⟨conf, l, conf'⟩ : (server cfg secret).Transition) := by
  cases l with
  | start t i =>
      obtain ⟨-, -, rfl⟩ := step_start hs
      exact (add_zero _).symm
  | env e =>
      obtain ⟨w, hw, rfl⟩ := step_env hs
      have hdb : w.db = conf.world.db := ambient_db hw
      rw [hdb]
      exact (add_zero _).symm
  | advance t x =>
      obtain ⟨o, k, ht, rfl⟩ := step_advance hs
      rw [roomsDelta, performed_advance (M := server cfg secret) ht x]
      exact countRooms_exec o x conf.world

/-- Only inserting a room makes them more. -/
lemma roomsDelta_cases {l : (server cfg secret).Label}
    (hs : step (M := server cfg secret) conf l = some conf') :
    roomsDelta (⟨conf, l, conf'⟩ : (server cfg secret).Transition) ≤ 0 ∨
      ∃ t row, (⟨conf, l, conf'⟩ : (server cfg secret).Transition).Calls t (.createRoom row) true ∧
        roomsDelta (⟨conf, l, conf'⟩ : (server cfg secret).Transition) = 1 := by
  cases l with
  | start t i => exact .inl le_rfl
  | env e => exact .inl le_rfl
  | advance t x =>
      obtain ⟨o, k, ht, -⟩ := step_advance hs
      rw [roomsDelta, performed_advance (M := server cfg secret) ht x]
      cases o with
      | createRoom row =>
          cases hinserted : (exec (Op.createRoom row) x conf.world).1 with
          | true => exact .inr ⟨t, row, ⟨x, k, rfl, ht, hinserted⟩, by simp [Op.roomsDelta]⟩
          | false => exact .inl (by simp [Op.roomsDelta])
      | deleteRoom id =>
          refine .inl ?_
          simp only [Option.map_some, Option.getD_some, Op.roomsDelta]
          split <;> norm_num
      | _ => exact .inl le_rfl

/-- Since a transition the number of rooms has grown by the growth of what came after. -/
lemma countRooms_since {m : (server cfg secret).Transition}
    (hr : Run (M := server cfg secret) ok (boot db clock) (h₁ ++ m :: h₂) conf) :
    conf.world.db.countRooms = m.pre.world.db.countRooms + roomsDelta m + growth h₂ := by
  have hall := hr.total (f := fun conf : State => conf.world.db.countRooms)
    (δ := roomsDelta) fun _ _ _ => countRooms_step
  have hbefore := hr.of_append.1.total (f := fun conf : State => conf.world.db.countRooms)
    (δ := roomsDelta) fun _ _ _ => countRooms_step
  rw [List.map_append, List.map_cons, List.sum_append, List.sum_cons] at hall
  rw [growth]
  linarith

/-- In every run the HTTP requests keep to their specification. -/
theorem serves_capping (hcap : 0 < cfg.totalRoomsCap)
    (hr : Run (M := server cfg secret) ok (boot db clock) h conf) (n : ℕ) :
    Serves (M := server cfg secret) (capping cfg.totalRoomsCap) (fun _ => True)
      (conf.task (.http n)) (calls (M := server cfg secret) (.http n) h) := by
  refine hr.traced (M := server cfg secret) (Task.http n) ?_ ?_ ?_
  · trivial
  · intro h c i c' _ hs _
    obtain ⟨-, hadm, -⟩ := step_start hs
    cases i with
    | postRooms body => exact postRooms_capping hcap
    | getPowChallenge => exact wp_of_capless getPowChallenge_capless
    | activate id body => exact wp_of_capless activate_capless
    | isAlive body => exact wp_of_capless isAlive_capless
    | deleteRoom id body => exact wp_of_capless deleteRoom_capless
    | _ => trivial
  · exact fun _ _ _ _ _ _ _ _ _ _ _ => trivial

/-- What a task other than an HTTP request does not call. -/
def CaplessUnlessHttp (t : Task) (o : Op Str) : Prop := (∃ n, t = .http n) ∨ o.Capless

lemma Op.OfWs.capless {c : Conn} {o : Op Str} (h : o.OfWs c) : o.Capless := by
  cases o <;> trivial

/-- Only HTTP requests insert rooms and answer. -/
lemma http_of_not_capless (hr : Run (M := server cfg secret) ok (boot db clock) h conf) {t : Task}
    {o : Op Str} {k : o.Res → Handler Str Unit} (ht : conf.task t = some (.call o k))
    (ho : ¬ o.Capless) : ∃ n, t = .http n := by
  have honly : ∀ t i, (program cfg secret t i).Only (CaplessUnlessHttp t) := by
    intro t i
    cases t with
    | http n => exact (program_of cfg secret (.http n) i).mono fun _ _ => .inl ⟨n, rfl⟩
    | ws c =>
        exact (program_of cfg secret (.ws c) i).mono fun o ho => .inr (Op.OfWs.capless (c := c) ho)
    | purger =>
        cases i with
        | purge => exact purge_capless.mono fun _ ho => .inr ho
        | _ => trivial
  have hcall := (hr.only (P := CaplessUnlessHttp) (by simp [boot])
    (fun _ _ t i _ _ _ _ => honly t i) t _ ht).1
  exact hcall.resolve_right ho

/-- A request that inserts a room has counted them before. -/
lemma exists_countRooms (hcap : 0 < cfg.totalRoomsCap) {m : (server cfg secret).Transition}
    {t : Task} {row : RoomRow} {inserted : Bool}
    (hr : Run (M := server cfg secret) ok (boot db clock) h m.pre)
    (hm : m.Calls t (.createRoom row) inserted) :
    ∃ m₀ ∈ h, ∃ count, m₀.Calls t .countRooms count := by
  obtain ⟨x, k, -, ht, -⟩ := hm
  obtain ⟨n, rfl⟩ := http_of_not_capless hr ht id
  obtain ⟨count, hcount⟩ := (serves_capping hcap hr n).pre ht
  obtain ⟨m₀, hm₀, hcalls⟩ := mem_calls.mp hcount
  exact ⟨m₀, hm₀, count, hcalls⟩

/-- A request that is refused for the cap has counted as many rooms before. -/
lemma exists_full (hcap : 0 < cfg.totalRoomsCap) {m : (server cfg secret).Transition} {t : Task}
    {k : ℕ} (hr : Run (M := server cfg secret) ok (boot db clock) h m.pre)
    (hm : m.Calls t (.respond k (.error .roomsCapacityReached)) ()) :
    ∃ m₀ ∈ h, ∃ count, m₀.Calls t .countRooms count ∧
      cfg.totalRoomsCap ≤ m₀.pre.world.db.countRooms := by
  obtain ⟨x, k', -, ht, -⟩ := hm
  obtain ⟨n, rfl⟩ := http_of_not_capless hr ht fun h => h rfl
  obtain ⟨count, hfull, hcount⟩ := (serves_capping hcap hr n).pre ht
  obtain ⟨m₀, hm₀, hcalls⟩ := mem_calls.mp hcount
  refine ⟨m₀, hm₀, count, hcalls, ?_⟩
  obtain ⟨x, k, -, -, hres⟩ := hcalls
  have hread : (if x.sql then m₀.pre.world.db.countRooms else 0) = count := hres
  split at hread
  · omega
  · omega

/-- Since a request has counted the rooms there have been places left for all that were inserted. -/
def InTime (cap : ℤ) (t : Task) (h : List (server cfg secret).Transition) : Prop :=
  ∀ h₁ m h₂ count, h = h₁ ++ m :: h₂ → m.Calls t .countRooms count →
    m.pre.world.db.countRooms + growth h₂ < cap

/-- A request inserts its room in time exactly if there is a place when it does. -/
lemma inTime_iff (hcap : 0 < cfg.totalRoomsCap) {m : (server cfg secret).Transition} {t : Task}
    {row : RoomRow} {inserted : Bool}
    (hr : Run (M := server cfg secret) ok (boot db clock) h m.pre)
    (hm : m.Calls t (.createRoom row) inserted) :
    InTime cfg.totalRoomsCap t h ↔ m.pre.world.db.countRooms < cfg.totalRoomsCap := by
  have hsame : ∀ {h₁ m₀ h₂ count}, h = h₁ ++ m₀ :: h₂ → m₀.Calls t .countRooms count →
      m.pre.world.db.countRooms = m₀.pre.world.db.countRooms + growth h₂ := by
    rintro h₁ m₀ h₂ count rfl hcalls
    have hsince := countRooms_since hr
    rw [roomsDelta, hcalls.performed] at hsince
    exact hsince.trans (by simp [Op.roomsDelta])
  constructor
  · intro htime
    obtain ⟨m₀, hm₀, count, hcalls⟩ := exists_countRooms hcap hr hm
    obtain ⟨h₁, h₂, heq⟩ := List.append_of_mem hm₀
    rw [hsame heq hcalls]
    exact htime h₁ m₀ h₂ count heq hcalls
  · intro hplace h₁ m₀ h₂ count heq hcalls
    rw [← hsame heq hcalls]
    exact hplace

/-- **The cap holds exactly if every room is inserted in time.**  In every run of a server with a
cap, from a store within it, the store stays within the cap if and only if no room is inserted
after others have taken the places that were left when its request counted.  A request is refused
for the cap only if it has found no place. -/
theorem roomsCap_iff (hcap : 0 < cfg.totalRoomsCap) (hdb : db.countRooms ≤ cfg.totalRoomsCap)
    (hr : Run (M := server cfg secret) ok (boot db clock) h conf) :
    ((∀ m ∈ h, m.post.world.db.countRooms ≤ cfg.totalRoomsCap) ↔
      ∀ h₁ m h₂ t row, h = h₁ ++ m :: h₂ → m.Calls t (.createRoom row) true →
        InTime cfg.totalRoomsCap t h₁) ∧
    ∀ h₁ m h₂ t k, h = h₁ ++ m :: h₂ →
      m.Calls t (.respond k (.error .roomsCapacityReached)) () →
      ∃ m₀ ∈ h₁, ∃ count, m₀.Calls t .countRooms count ∧
        cfg.totalRoomsCap ≤ m₀.pre.world.db.countRooms := by
  refine ⟨⟨fun hall h₁ m h₂ t row heq hm => ?_, fun htime => ?_⟩, fun h₁ m h₂ t k heq hm => ?_⟩
  · subst heq
    obtain ⟨hr₁, hs, -⟩ := hr.of_append
    refine (inTime_iff hcap hr₁ hm).mpr ?_
    have hpost := hall m (by simp)
    have hstep := countRooms_step hs
    rw [roomsDelta, hm.performed] at hstep
    simp only [Option.map_some, Option.getD_some, Op.roomsDelta, if_true] at hstep
    omega
  · suffices (∀ m ∈ h, m.post.world.db.countRooms ≤ cfg.totalRoomsCap) ∧
        conf.world.db.countRooms ≤ cfg.totalRoomsCap from this.1
    induction hr with
    | nil => exact ⟨by simp, hdb⟩
    | @snoc h conf conf' l hr hs _ ih =>
        obtain ⟨hall, hbefore⟩ := ih fun h₁ m h₂ t row heq => htime h₁ m (h₂ ++ [_]) t row
          (by rw [heq, List.append_assoc, List.cons_append])
        have hafter : conf'.world.db.countRooms ≤ cfg.totalRoomsCap := by
          rw [countRooms_step hs]
          rcases roomsDelta_cases hs with hless | ⟨t, row, hm, hone⟩
          · omega
          · have hplace := (inTime_iff hcap hr hm).mp (htime h _ [] t row rfl hm)
            rw [hone]
            exact hplace
        exact ⟨List.forall_mem_append.mpr ⟨hall, by simpa using hafter⟩, hafter⟩
  · subst heq
    exact exists_full hcap hr.of_append.1 hm

end Run

/-! ## Two requests for one place -/

namespace Sample

/-- A server for one room, without a proof of work to speak of. -/
def oneRoom : Config := { totalRoomsCap := 1, powDifficultyBits := 0 }

/-- The body of a request with a token for a nonce. -/
def roomRequest (nonce : String) : Json :=
  let payload := ascii nonce ++ [Captcha.colon] ++ ascii "100"
  .object [(ascii "pow", .object
    [(ascii "challenge",
      .string (payload ++ [Captcha.colon] ++ Captcha.hmacHex secret payload)),
      (ascii "nonce", .string (ascii "0"))])]

/-- A request is taken up and performs its first calls: verifying the token, and the count. -/
def asks (n : ℕ) (nonce : String) : List (server oneRoom secret).Label :=
  .start (.http n) (.postRooms (some (roomRequest nonce)))
    :: List.replicate 3 (.advance (.http n) (draw 0))

/-- A request inserts its room and answers. -/
def inserts (n : ℕ) (b : UInt8) : List (server oneRoom secret).Label :=
  List.replicate 4 (.advance (.http n) (draw b))

/-- One request is answered. -/
def asksOnce : Script (M := server oneRoom secret) (boot .empty 0) (fun _ _ => true)
    (fun _ conf => conf.world.db.countRooms = 1) where
  labels := asks 0 "aa" ++ inserts 0 1
  performed := by decide +kernel

/-- Two requests count before either inserts. -/
def asksTwice : Script (M := server oneRoom secret) (boot .empty 0) (fun _ _ => true)
    (fun _ conf => conf.world.db.countRooms = 2) where
  labels := asks 0 "aa" ++ asks 1 "bb" ++ inserts 0 1 ++ inserts 1 2
  performed := by decide +kernel

end Sample

/-- The equivalence at a run with one request. -/
theorem roomsCap_iff_sample : ∃ (h : List (server Sample.oneRoom Sample.secret).Transition)
    (conf : State), conf.world.db.countRooms = 1 ∧
      ((∀ m ∈ h, m.post.world.db.countRooms ≤ 1) ↔
        ∀ h₁ m h₂ t row, h = h₁ ++ m :: h₂ → m.Calls t (.createRoom row) true →
          InTime 1 t h₁) := by
  obtain ⟨h, conf, hr, hone⟩ := Sample.asksOnce.exists_run fun _ _ _ _ => trivial
  have hrun : Run (M := server Sample.oneRoom Sample.secret) anyStep (boot .empty 0) h conf := hr
  exact ⟨h, conf, of_decide_eq_true hone, (roomsCap_iff (by decide) (by decide) hrun).1⟩

/-- Two requests that have found the one place both insert their rooms. -/
theorem cap_exceeded : ∃ (h : List (server Sample.oneRoom Sample.secret).Transition) (conf : State),
    Run (M := server Sample.oneRoom Sample.secret) anyStep (boot .empty 0) h conf ∧
      conf.world.db.countRooms = 2 := by
  obtain ⟨h, conf, hr, htwo⟩ := Sample.asksTwice.exists_run fun _ _ _ _ => trivial
  exact ⟨h, conf, hr, of_decide_eq_true htwo⟩

end HashHush
