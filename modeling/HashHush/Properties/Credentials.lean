import HashHush.Server

/-!
# Credentials die with their room

A challenge or a token is good for the room it was inserted for, until that room is deleted.
Rooms can be created again under an old id, and a handler may insert for a room that has been
deleted since it looked; so what has to be shown is about incarnations of a room, not about ids.

`credentials_die_with_room` traces everything that `roomForToken` and `consumeChallenge` return
back to its insertion: the room has not been deleted since.  It holds of every interleaving of
the operations, whatever programs call them, and therefore of the server.
-/

namespace HashHush

open Concurrency System

/-! ## What one operation does to the rows -/

/-- The row with its blobs, used or not, is one of these. -/
def ChallengeRow.Among (row : ChallengeRow) (rows : List ChallengeRow) : Prop :=
  ∃ used, { row with used } ∈ rows

lemma ChallengeRow.among_of_markUsed {row : ChallengeRow} {d : Database} {cid : ℕ}
    (h : row.Among (d.markUsed cid).challenges) : row.Among d.challenges := by
  obtain ⟨used, h⟩ := h
  obtain ⟨old, hold, heq⟩ := List.mem_map.mp h
  split at heq
  · have hrow := congrArg (fun r : ChallengeRow => { r with used := old.used }) heq
    exact ⟨old.used, hrow ▸ hold⟩
  · exact ⟨used, heq ▸ hold⟩

section Exec

variable {o : Op Str} {x : Choice} {w : World Str}

/-- A token row was there before and its room has not been deleted, or it is new. -/
lemma mem_accessTokens_exec {row : TokenRow} (h : row ∈ (exec o x w).2.db.accessTokens) :
    (row ∈ w.db.accessTokens ∧ ∀ room, o = .deleteRoom room → x.sql = true → row.roomId ≠ room) ∨
      (x.sql = true ∧ o = .insertAccessToken row.token row.roomId ∧
        (w.db.insertAccessToken row.token row.roomId w.clock).1 = true) := by
  cases hx : x.sql with
  | false =>
      refine .inl ⟨?_, by simp⟩
      cases o <;> simpa [exec, hx] using h
  | true =>
      cases o with
      | deleteRoom room =>
          simp only [exec, hx, if_true, Database.deleteRoom] at h
          obtain ⟨hrow, hne⟩ := List.mem_filter.mp h
          refine .inl ⟨hrow, fun room' ho _ => ?_⟩
          obtain rfl := Op.deleteRoom.inj ho
          simpa using hne
      | insertAccessToken token room =>
          simp only [exec, hx, if_true, Database.insertAccessToken] at h
          split at h
          · rename_i hin
            rcases List.mem_append.mp h with h | h
            · exact .inl ⟨h, by simp⟩
            · obtain rfl := List.mem_singleton.mp h
              exact .inr ⟨rfl, rfl, by simp only [Database.insertAccessToken, dif_pos hin]⟩
          · exact .inl ⟨h, by simp⟩
      | createRoom _ | insertChallenges _ _ | consumeChallenge _ =>
          simp only [exec, hx, if_true, Database.createRoom, Database.insertChallenges,
            Database.consumeChallenge] at h
          split at h <;> exact .inl ⟨h, by simp⟩
      | touchRoom _ | activateRoom _ =>
          simp only [exec, hx, if_true] at h
          exact .inl ⟨h, by simp⟩
      | _ => exact .inl ⟨h, by simp⟩

/-- The same for a challenge row. -/
lemma among_challenges_exec {row : ChallengeRow} (h : row.Among (exec o x w).2.db.challenges) :
    (row.Among w.db.challenges ∧ ∀ room, o = .deleteRoom room → x.sql = true → row.roomId ≠ room) ∨
      (x.sql = true ∧ ∃ pairs, o = .insertChallenges row.roomId pairs ∧
        (w.db.insertChallenges row.roomId pairs).1 = true ∧
        row.Among (Database.challengeRows row.roomId w.db.challengeSeq pairs)) := by
  cases hx : x.sql with
  | false =>
      refine .inl ⟨?_, by simp⟩
      cases o <;> simpa [exec, hx] using h
  | true =>
      cases o with
      | deleteRoom room =>
          obtain ⟨used, h⟩ := h
          simp only [exec, hx, if_true, Database.deleteRoom] at h
          obtain ⟨hrow, hne⟩ := List.mem_filter.mp h
          refine .inl ⟨⟨used, hrow⟩, fun room' ho _ => ?_⟩
          obtain rfl := Op.deleteRoom.inj ho
          simpa using hne
      | insertChallenges room pairs =>
          obtain ⟨used, h⟩ := h
          simp only [exec, hx, if_true, Database.insertChallenges] at h
          split at h
          · rename_i hin
            rcases List.mem_append.mp h with h | h
            · exact .inl ⟨⟨used, h⟩, by simp⟩
            · obtain rfl : row.roomId = room := (Database.mem_challengeRows h).1
              refine .inr ⟨rfl, pairs, rfl, ?_, used, h⟩
              simp only [Database.insertChallenges, dif_pos hin]
          · exact .inl ⟨⟨used, h⟩, by simp⟩
      | consumeChallenge _ =>
          refine .inl ⟨?_, by simp⟩
          simp only [exec, hx, if_true, Database.consumeChallenge] at h
          split at h
          · exact ChallengeRow.among_of_markUsed h
          · exact h
      | createRoom _ | insertAccessToken _ _ =>
          simp only [exec, hx, if_true, Database.createRoom, Database.insertAccessToken] at h
          split at h <;> exact .inl ⟨h, by simp⟩
      | touchRoom _ | activateRoom _ =>
          simp only [exec, hx, if_true] at h
          exact .inl ⟨h, by simp⟩
      | _ => exact .inl ⟨h, by simp⟩

end Exec

/-! ## Every credential is younger than the last deletion of its room -/

/-- Any programs over the operations of the server. -/
@[reducible] def running (program : Task → Input → Handler Str Unit) : System (signature Str) :=
  { server {} [] with program }

/-- The server is one such system. -/
lemma server_eq_running (cfg : Config) (secret : List UInt8) :
    server cfg secret = running (program cfg secret) := rfl

section Run

variable {program : Task → Input → Handler Str Unit}

/-- The transition deletes a room. -/
def Deletes (room : Str) (m : (running program).Transition) : Prop :=
  ∃ t, m.Calls t (.deleteRoom room) true

/-- The transition inserts a token for a room. -/
def InsertsToken (token room : Str) (m : (running program).Transition) : Prop :=
  ∃ t, m.Calls t (.insertAccessToken token room) true

/-- The transition inserts a challenge: the row, or one that differs in `used` only, is what the
upload of a pool adds to the table at this moment. -/
def InsertsChallenge (row : ChallengeRow) (m : (running program).Transition) : Prop :=
  ∃ t pairs, m.Calls t (.insertChallenges row.roomId pairs) true ∧
    row.Among (Database.challengeRows row.roomId m.pre.world.db.challengeSeq pairs)

variable {conf conf' : State} {l : (running program).Label}

/-- A step keeps the rows that survive it and deletes no room. -/
lemma not_deletes_of_step {o : Op Str} {k : Op.Res o → Handler Str Unit} {t : Task} {x : Choice}
    (ht : conf.task t = some (.call o k)) {room : Str}
    (hno : ∀ r, o = .deleteRoom r → x.sql = true → room ≠ r) :
    ¬ Deletes room (⟨conf, .advance t x, conf'⟩ : (running program).Transition) := by
  rintro ⟨u, hcall⟩
  obtain ⟨rfl, rfl⟩ := hcall.eq_of_advance ht
  obtain ⟨x', k', hl, -, hres⟩ := hcall
  obtain rfl : x = x' := by simpa using hl
  have hsql : x.sql = true := by
    by_contra hsql
    simp [exec, hsql] at hres
  exact hno room rfl hsql rfl

lemma mem_accessTokens_step (hs : step conf l = some conf') {row : TokenRow}
    (h : row ∈ conf'.world.db.accessTokens) :
    row ∈ conf.world.db.accessTokens ∧
        ¬ Deletes row.roomId (⟨conf, l, conf'⟩ : (running program).Transition) ∨
      InsertsToken row.token row.roomId (⟨conf, l, conf'⟩ : (running program).Transition) := by
  cases l with
  | start t i =>
      obtain ⟨-, -, rfl⟩ := step_start hs
      refine .inl ⟨h, ?_⟩
      rintro ⟨_, hcall⟩
      simpa using hcall.inv.1
  | advance t x =>
      obtain ⟨o, k, ht, rfl⟩ := step_advance hs
      rcases mem_accessTokens_exec h with ⟨hrow, hno⟩ | ⟨hsql, rfl, hin⟩
      · exact .inl ⟨hrow, not_deletes_of_step ht hno⟩
      · refine .inr ⟨t, x, k, rfl, ht, ?_⟩
        simpa [exec, hsql] using hin
  | env e =>
      obtain ⟨w, hw, rfl⟩ := step_env hs
      rw [ambient_db hw] at h
      refine .inl ⟨h, ?_⟩
      rintro ⟨_, hcall⟩
      simpa using hcall.inv.1

lemma among_challenges_step (hs : step conf l = some conf') {row : ChallengeRow}
    (h : row.Among conf'.world.db.challenges) :
    row.Among conf.world.db.challenges ∧
        ¬ Deletes row.roomId (⟨conf, l, conf'⟩ : (running program).Transition) ∨
      InsertsChallenge row (⟨conf, l, conf'⟩ : (running program).Transition) := by
  cases l with
  | start t i =>
      obtain ⟨-, -, rfl⟩ := step_start hs
      refine .inl ⟨h, ?_⟩
      rintro ⟨_, hcall⟩
      simpa using hcall.inv.1
  | advance t x =>
      obtain ⟨o, k, ht, rfl⟩ := step_advance hs
      rcases among_challenges_exec h with ⟨hrow, hno⟩ | ⟨hsql, pairs, rfl, hin, hrow⟩
      · exact .inl ⟨hrow, not_deletes_of_step ht hno⟩
      · refine .inr ⟨t, pairs, ⟨x, k, rfl, ht, ?_⟩, hrow⟩
        simpa [exec, hsql] using hin
  | env e =>
      obtain ⟨w, hw, rfl⟩ := step_env hs
      rw [ambient_db hw] at h
      refine .inl ⟨h, ?_⟩
      rintro ⟨_, hcall⟩
      simpa using hcall.inv.1

variable {db : Database} {clock : ℤ} {h : List (running program).Transition}

/-- **Credentials die with their room.**  In every interleaving of the operations, every
challenge and every token names a room that exists, and what `roomForToken` and
`consumeChallenge` return has been in the store, or was inserted, after every deletion of its
room. -/
theorem credentials_die_with_room
    (hr : Run (M := running program) anyStep (boot db clock) h conf) :
    (∀ row ∈ conf.world.db.challenges, row.roomId ∈ conf.world.db.roomIds) ∧
    (∀ row ∈ conf.world.db.accessTokens, row.roomId ∈ conf.world.db.roomIds) ∧
    (∀ token r, conf.world.db.roomForToken token = some r → ∃ room, cText room = r ∧
      Since (∃ row ∈ db.accessTokens, row.token = token ∧ row.roomId = room)
        (InsertsToken token room) (Deletes room) h) ∧
    ∀ room pair, (conf.world.db.consumeChallenge room).1 = some pair →
      ∃ row : ChallengeRow, row.roomId = room ∧ row.pair = pair ∧
        Since (row.Among db.challenges) (InsertsChallenge row) (Deletes room) h := by
  refine ⟨conf.world.db.challengeRoom, conf.world.db.tokenRoom, fun token r htoken => ?_,
    fun room pair hpair => ?_⟩
  · obtain ⟨row, hrow, rfl⟩ := Option.map_eq_some_iff.mp htoken
    obtain rfl : row.token = token := by simpa using List.find?_some hrow
    have hsince := hr.since (P := fun conf : State => row ∈ conf.world.db.accessTokens)
      (fun _ _ _ hs => mem_accessTokens_step hs) (List.mem_of_find?_eq_some hrow)
    exact ⟨row.roomId, rfl, hsince.imp_left (And.imp_left fun hrow => ⟨row, hrow, rfl, rfl⟩)⟩
  · unfold Database.consumeChallenge at hpair
    split at hpair
    · rename_i row hrow
      obtain ⟨hmem, rfl, -⟩ := conf.world.db.nextUnused_spec hrow
      have hsince := hr.since (P := fun conf : State => row.Among conf.world.db.challenges)
        (fun _ _ _ hs => among_challenges_step hs) ⟨row.used, hmem⟩
      exact ⟨row, rfl, Option.some.inj hpair, hsince⟩
    · cases hpair

end Run

namespace Sample

/-- Requests 0 and 1 delete the room and create it again; request 2 inserts a token. -/
def renewal : Task → Input → Handler Str Unit
  | .http 0, _ => do
      let _ ← call (.deleteRoom room)
  | .http 1, _ => do
      let _ ← call (.createRoom ⟨room, ascii "Secret chat", 2, 0, 0, true, false⟩)
  | .http 2, _ => do
      let _ ← call (.insertAccessToken (ascii "new") room)
  | _, _ => pure ()

/-- The insertion begins before the room is deleted and ends when there is a room again. -/
def renewed : List (running renewal).Label :=
  [.start (.http 2) .getPowChallenge, .start (.http 0) .getPowChallenge,
    .advance (.http 0) (draw 0), .start (.http 1) .getPowChallenge, .advance (.http 1) (draw 0),
    .advance (.http 2) (draw 0)]

/-- Then the old token is gone, and the new one counts. -/
def renews : Script (M := running renewal) (boot (store 2 [] [token]) 0) (fun _ _ => true)
    (fun _ conf => (conf.world.db.roomForToken token).isNone &&
      conf.world.db.roomForToken (ascii "new") = some room) where
  labels := renewed
  performed := by decide +kernel

end Sample

/-- After the room has been created again its old token is gone and the new one counts. -/
theorem credentials_die_with_room_sample : ∃ (h : List (running Sample.renewal).Transition)
    (conf : State), conf.world.db.roomForToken Sample.token = none ∧
      ∃ room, cText room = Sample.room ∧
        Since (∃ row ∈ (Sample.store 2 [] [Sample.token]).accessTokens,
          row.token = ascii "new" ∧ row.roomId = room)
          (InsertsToken (ascii "new") room) (Deletes room) h := by
  obtain ⟨h, conf, hr, hend⟩ := Sample.renews.exists_run fun _ _ _ _ => trivial
  obtain ⟨hold, hnew⟩ := Bool.and_eq_true_iff.mp hend
  have hnew : conf.world.db.roomForToken (ascii "new") = some Sample.room := by simpa using hnew
  exact ⟨h, conf, Option.isNone_iff_eq_none.mp hold,
    (credentials_die_with_room hr).2.2.1 (ascii "new") Sample.room hnew⟩

end HashHush
