import HashHush.Concurrency.Object
import HashHush.Properties.ReadBack
import HashHush.Server

/-!
# The challenges of a room are a queue

The pool of a room is a table with an autoincremented id and a flag, and three statements that
look at it: an upload inserts rows, `consumeChallenge` marks the first unused row and returns it,
and the deletion of the room removes them.  Seen from outside, the unused rows of a room are a
queue: uploads enter at the end, the head is handed out, and nothing else happens to them.

`challenges_queue` says so of every run of the server, with any number of tasks that upload, say
hello and delete at the same time.  As long as the room is not deleted, what was unused, followed
by what has been uploaded, is what has been handed out, in this order, followed by what is still
unused: no challenge is lost, and none is given to two connections.
-/

namespace HashHush

open Concurrency System

namespace Database

variable (d : Database)

/-! ## What the statements do to the unused rows -/

/-- An upload to another room, or one that fails, adds nothing. -/
lemma unused_insertChallenges_of_not {id r : Str} {ps : List ChallengePair}
    (h : ¬ (id = r ∧ (d.insertChallenges id ps).1 = true)) :
    (d.insertChallenges id ps).2.unused r = d.unused r := by
  by_cases hok : (d.insertChallenges id ps).1 = true
  · have hid : id ≠ r := fun hid => h ⟨hid, hok⟩
    unfold insertChallenges
    split
    · have hrows : ((challengeRows id d.challengeSeq ps).filter
          fun c => c.roomId = r && !c.used) = [] := by
        refine List.filter_eq_nil_iff.mpr fun c hc => ?_
        simp [(mem_challengeRows hc).1, hid]
      rw [unused, unused, List.filter_append, hrows, List.append_nil]
    · rfl
  · rw [d.insertChallenges_of_false (by simpa using hok)]

/-- A successful upload enters at the end, as it is read. -/
lemma pairs_insertChallenges {id : Str} {ps : List ChallengePair}
    (h : (d.insertChallenges id ps).1 = true) :
    ((d.insertChallenges id ps).2.unused id).map ChallengeRow.pair
      = (d.unused id).map ChallengeRow.pair ++ ps.map ChallengePair.asRead := by
  by_cases hid : id ∈ d.roomIds
  · rw [unused_insertChallenges hid, List.map_append, map_pair_challengeRows]
  · have hnil : ps = [] := by
      by_contra hps
      have hno : ¬ (id ∈ d.rooms.map RoomRow.id ∨ ps = []) := not_or.mpr ⟨hid, hps⟩
      rw [insertChallenges, dif_neg hno] at h
      cases h
    subst hnil
    simp [insertChallenges, unused, challengeRows]

/-- The head is handed out. -/
lemma pairs_consumeChallenge (r : Str) :
    (d.consumeChallenge r).1 = ((d.unused r).map ChallengeRow.pair).head? ∧
      ((d.consumeChallenge r).2.unused r).map ChallengeRow.pair
        = ((d.unused r).map ChallengeRow.pair).tail := by
  have hnext := d.nextUnused_eq_head? r
  cases hrows : d.unused r with
  | nil =>
      rw [hrows] at hnext
      have hnone : d.nextUnused r = none := hnext
      simp only [consumeChallenge, hnone, hrows]
      exact ⟨rfl, rfl⟩
  | cons row rest =>
      rw [hrows] at hnext
      have hsome : d.nextUnused r = some row := hnext
      simp only [consumeChallenge, hsome, unused_markUsed hrows]
      exact ⟨rfl, rfl⟩

/-- The challenges of another room stay. -/
lemma unused_consumeChallenge_of_ne {id r : Str} (h : id ≠ r) :
    (d.consumeChallenge id).2.unused r = d.unused r := by
  unfold consumeChallenge
  cases hrow : d.nextUnused id with
  | none => rfl
  | some row =>
      obtain ⟨hmem, hroom, -⟩ := d.nextUnused_spec hrow
      have hother : ∀ c ∈ d.challenges, c.id = row.id → c.roomId ≠ r := by
        intro c hc hid hcr
        obtain rfl := d.eq_of_challengeId hc hmem hid
        exact h (hroom.symm.trans hcr)
      simp only [unused, markUsed, List.filter_map]
      have hkept : ∀ c ∈ d.challenges,
          ((fun c : ChallengeRow => decide (c.roomId = r) && !c.used) ∘
            fun c => if c.id = row.id then { c with used := true } else c) c
          = (decide (c.roomId = r) && !c.used) := by
        intro c hc
        by_cases hid : c.id = row.id
        · simp [hid, hother c hc hid]
        · simp [hid]
      rw [List.filter_congr hkept]
      refine (List.map_congr_left fun c hc => ?_).trans (List.map_id _)
      apply if_neg
      intro hid
      obtain ⟨hc, hp⟩ := List.mem_filter.mp hc
      exact hother c hc hid (by simpa using (Bool.and_eq_true_iff.mp hp).1)

/-- The deletion of the room leaves nothing. -/
lemma unused_deleteRoom_self (r : Str) : (d.deleteRoom r).2.unused r = [] := by
  refine List.filter_eq_nil_iff.mpr fun c hc => ?_
  have hroom : c.roomId ≠ r := by simpa using (List.mem_filter.mp hc).2
  simp [hroom]

lemma unused_deleteRoom_of_ne {id r : Str} (h : id ≠ r) :
    (d.deleteRoom id).2.unused r = d.unused r := by
  simp only [unused, deleteRoom, List.filter_filter]
  refine List.filter_congr fun c _ => ?_
  by_cases hc : c.roomId = r
  · simp [hc, h.symm]
  · simp [hc]

end Database

/-! ## The operations -/

/-- What an operation whose SQL succeeds does to the queue of a room. -/
def Op.queueEvent (r : Str) : (o : Op Str) → o.Res → Option (QueueEvent ChallengePair)
  | .insertChallenges id pairs, inserted =>
      if id = r ∧ inserted = true then some (.put (pairs.map ChallengePair.asRead)) else none
  | .consumeChallenge id, pair => if id = r then some (.take pair) else none
  | .deleteRoom id, _ => if id = r then some .clear else none
  | _, _ => none

/-- The unused challenges of a room. -/
def World.queue (r : Str) (w : World Str) : List ChallengePair :=
  (w.db.unused r).map ChallengeRow.pair

/-- The operations treat the unused challenges as a queue. -/
lemma exec_queue (r : Str) (o : Op Str) {x : Choice} (hx : x.sql = true) (w : World Str) :
    accepts QueueEvent.step (w.queue r) (o.queueEvent r (exec o x w).1).toList
      = some ((exec o x w).2.queue r) := by
  cases o with
  | insertChallenges id ps =>
      simp only [exec, hx, if_true, Op.queueEvent, World.queue]
      split
      · rename_i h
        obtain ⟨rfl, hok⟩ := h
        rw [Option.toList_some, accepts_singleton, QueueEvent.step,
          w.db.pairs_insertChallenges hok]
      · rename_i h
        rw [w.db.unused_insertChallenges_of_not h]
        rfl
  | consumeChallenge id =>
      simp only [exec, hx, if_true, Op.queueEvent, World.queue]
      split
      · rename_i h
        subst h
        obtain ⟨hhead, htail⟩ := w.db.pairs_consumeChallenge id
        rw [Option.toList_some, accepts_singleton, QueueEvent.step, if_pos hhead.symm, htail]
      · rename_i h
        rw [w.db.unused_consumeChallenge_of_ne h]
        rfl
  | deleteRoom id =>
      simp only [exec, hx, if_true, Op.queueEvent, World.queue]
      split
      · rename_i h
        subst h
        rw [w.db.unused_deleteRoom_self]
        rfl
      · rename_i h
        rw [w.db.unused_deleteRoom_of_ne h]
        rfl
  | createRoom row =>
      simp only [exec, hx, if_true, Op.queueEvent, World.queue, Database.createRoom]
      split <;> rfl
  | insertAccessToken t id =>
      simp only [exec, hx, if_true, Op.queueEvent, World.queue, Database.insertAccessToken]
      split <;> rfl
  | touchRoom id | activateRoom id =>
      simp only [exec, hx, if_true]
      rfl
  | _ => rfl

/-- An operation whose SQL fails leaves the store alone. -/
lemma exec_db_of_failed (o : Op Str) {x : Choice} (hx : x.sql = false) (w : World Str) :
    (exec o x w).2.db = w.db := by
  cases o <;> simp [exec, hx]

section Run

variable {cfg : Config} {secret : List UInt8} {db : Database} {clock : ℤ}
variable {ok : List (server cfg secret).Transition → (server cfg secret).Transition → Prop}
variable {h : List (server cfg secret).Transition} {conf : State}

/-- The event of a transition at the queue of a room. -/
def queueEvent (r : Str) (m : (server cfg secret).Transition) :
    Option (QueueEvent ChallengePair) :=
  match m.label with
  | .advance _ x =>
      if x.sql then m.performed.bind fun e => Op.queueEvent r e.1 e.2 else none
  | _ => none

/-- **The challenges of a room are a queue.**  In every run, uploads, consumptions and deletions
of a room are a history of a queue that begins with the unused challenges of the store and ends
with those of the world reached; and along any stretch of a run without a deletion of the room,
what was unused and what was uploaded has been handed out in this order, or is still there. -/
theorem challenges_queue (hr : Run (M := server cfg secret) ok (boot db clock) h conf) (r : Str) :
    accepts QueueEvent.step ((World.boot db clock).queue r) (h.filterMap (queueEvent r))
      = some (conf.world.queue r) ∧
    ∀ (h₁ h₂ : List (server cfg secret).Transition) (conf₁ : State),
      h = h₁ ++ h₂ → Run (M := server cfg secret) ok (boot db clock) h₁ conf₁ →
      QueueEvent.clear ∉ h₂.filterMap (queueEvent r) →
        conf₁.world.queue r ++ QueueEvent.entered (h₂.filterMap (queueEvent r))
          = QueueEvent.taken (h₂.filterMap (queueEvent r)) ++ conf.world.queue r := by
  have haccepted : ∀ {h : List (server cfg secret).Transition} {conf : State},
      Run (M := server cfg secret) ok (boot db clock) h conf →
        accepts QueueEvent.step ((World.boot db clock).queue r) (h.filterMap (queueEvent r))
          = some (conf.world.queue r) := by
    intro h conf hr
    refine hr.accepted (M := server cfg secret) (v := fun conf : State => conf.world.queue r) ?_
    intro h conf l conf' _ hs _
    cases l with
    | start t i =>
        obtain ⟨-, -, rfl⟩ := step_start hs
        rfl
    | advance t x =>
        obtain ⟨o, k, ht, rfl⟩ := step_advance hs
        simp only [queueEvent, performed_advance ht, Option.bind_some]
        split
        · rename_i hx
          exact exec_queue r o hx conf.world
        · rename_i hx
          have hdb := exec_db_of_failed o (by simpa using hx) conf.world
          show some (conf.world.queue r) = some ((exec o x conf.world).2.queue r)
          rw [World.queue, World.queue, hdb]
    | env e =>
        obtain ⟨w, hw, rfl⟩ := step_env hs
        show some (conf.world.queue r) = some (w.queue r)
        rw [World.queue, World.queue, ambient_db hw]
  refine ⟨haccepted hr, ?_⟩
  rintro h₁ h₂ conf₁ rfl hr₁ hclear
  have hwhole := haccepted hr
  rw [List.filterMap_append, accepts_append, haccepted hr₁, Option.bind_some] at hwhole
  exact QueueEvent.conserved hclear hwhole

end Run

/-- Two connections are handed out two of three challenges. -/
def Sample.twoHellos : Script (M := server {} Sample.secret)
    (boot (Sample.store 5 [Sample.triple 1, Sample.triple 2, Sample.triple 3] []) 0)
    (fun _ _ => true) (fun h (_ : State) => h.filterMap (queueEvent Sample.room)
      = [.take (some (Sample.triple 1)), .take (some (Sample.triple 2))]) where
  labels := Sample.opening 0 ++ Sample.opening 1
    ++ Sample.handle (.ws 1) (Sample.frame [("type", "hello")]) 4
    ++ Sample.handle (.ws 0) (Sample.frame [("type", "hello")]) 7
    ++ List.replicate 3 (.advance (.ws 1) (Sample.draw 0))
  performed := by decide +kernel

/-- The third is left. -/
theorem challenges_queue_sample : ∃ (h : List (server {} Sample.secret).Transition) (conf : State),
    Run (M := server {} Sample.secret) anyStep
      (boot (Sample.store 5 [Sample.triple 1, Sample.triple 2, Sample.triple 3] []) 0) h conf ∧
    conf.world.queue Sample.room = [Sample.triple 3] := by
  obtain ⟨h, conf, hr, hevents⟩ := Sample.twoHellos.exists_run fun _ _ _ _ => trivial
  have hevents : h.filterMap (queueEvent Sample.room)
      = [.take (some (Sample.triple 1)), .take (some (Sample.triple 2))] :=
    of_decide_eq_true hevents
  have hqueue : (World.boot (Sample.store 5 [Sample.triple 1, Sample.triple 2, Sample.triple 3] [])
      0).queue Sample.room = [Sample.triple 1, Sample.triple 2, Sample.triple 3] := by
    decide +kernel
  obtain ⟨-, hconserved⟩ := challenges_queue hr Sample.room
  have hleft := hconserved [] h _ rfl .nil (by simp [hevents])
  rw [hevents] at hleft
  refine ⟨h, conf, hr, ?_⟩
  have hsplit : [Sample.triple 1, Sample.triple 2] ++ [Sample.triple 3]
      = [Sample.triple 1, Sample.triple 2] ++ conf.world.queue Sample.room :=
    (congrArg (· ++ []) hqueue).symm.trans hleft
  exact (List.append_cancel_left hsplit).symm

end HashHush
