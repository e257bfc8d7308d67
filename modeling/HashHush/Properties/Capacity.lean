import HashHush.Dialogue

/-!
# The capacity of a room

`max_participants` is documented as the capacity of a room, and `onmessage` tests `roomFull`
before it hands out a challenge.  It does not test it again when the handshake completes, and a
token is accepted without any test, so a room can hold more joined peers than its capacity:
`capacity_exceeded` is such a run.

What the code does guarantee is `withinCapacity_iff`: in a run of the WebSocket route a room
stays within its capacity exactly if none of its peers is promoted while the room is full.
-/

namespace HashHush

open Concurrency System

/-- The test of `onmessage` before it hands out a challenge. -/
def roomFull (w : World Str) (r : Str) : Bool :=
  (w.db.findRoom r).any fun row => w.mgr.liveCount r ≥ row.maxParticipants

/-- The joined peers of a room fit into it. -/
def WithinCapacity (w : World Str) (r : Str) : Prop :=
  ∀ row, w.db.findRoom r = some row → w.mgr.liveCount r ≤ row.maxParticipants

section Run

variable {cfg : Config} {secret : List UInt8} {db : Database} {clock : ℤ}
variable {ok : List (server cfg secret).Transition → (server cfg secret).Transition → Prop}
variable {h : List (server cfg secret).Transition} {conf conf' : State}

/-- The transition promotes a peer of room `r`. -/
def Promotes (r : Str) (m : (server cfg secret).Transition) : Prop :=
  ∃ t c id, m.Calls t (.markPeerJoined c id) () ∧
    ∃ p, m.pre.world.mgr.peers c = some p ∧ p.roomId = r

/-- A transition promotes a peer of the room and adds one to its live peers, or it does not and
adds none. -/
theorem liveCount_step (hr : Run (M := server cfg secret) ok (boot db clock) h conf)
    {l : (server cfg secret).Label} (hs : step conf l = some conf') (r : Str) :
    (Promotes r (⟨conf, l, conf'⟩ : (server cfg secret).Transition) ∧
      conf'.world.mgr.liveCount r = conf.world.mgr.liveCount r + 1) ∨
    (¬ Promotes r (⟨conf, l, conf'⟩ : (server cfg secret).Transition) ∧
      conf'.world.mgr.liveCount r ≤ conf.world.mgr.liveCount r) := by
  have hcons := registry_consistent hr
  cases l with
  | start t i =>
      obtain ⟨-, -, rfl⟩ := step_start hs
      refine .inr ⟨?_, le_refl _⟩
      rintro ⟨u, c, id, hcall, -⟩
      obtain ⟨⟨x, hl⟩, -⟩ := hcall.inv
      cases hl
  | env e =>
      obtain ⟨w, hw, rfl⟩ := step_env hs
      have hmgr : w.mgr = conf.world.mgr := ambient_mgr hw
      refine .inr ⟨?_, by rw [hmgr]⟩
      rintro ⟨u, c, id, hcall, -⟩
      obtain ⟨⟨x, hl⟩, -⟩ := hcall.inv
      cases hl
  | advance t x =>
      obtain ⟨o, k, ht, hc'⟩ := step_advance hs
      have hof := (task_only hr ht).1
      have hworld : conf'.world = (exec o x conf.world).2 := by rw [hc', resume_world]
      -- only `markPeerJoined` on a registered connection of the room promotes
      have hop : Promotes r (⟨conf, .advance t x, conf'⟩ : (server cfg secret).Transition) →
          ∃ c id p, o = .markPeerJoined c id ∧ conf.world.mgr.peers c = some p ∧ p.roomId = r := by
        rintro ⟨u, c, id, hcall, p, hp, hpr⟩
        obtain ⟨⟨y, hl⟩, k', ht'⟩ := hcall.inv
        obtain ⟨rfl, -⟩ : t = u ∧ x = y := by simpa using hl
        have hsame := ht.symm.trans ht'
        simp only [Option.some.injEq, Prog.call.injEq] at hsame
        exact ⟨c, id, p, hsame.1, hp, hpr⟩
      have hnot : (∀ c id, o ≠ .markPeerJoined c id) →
          ¬ Promotes r (⟨conf, .advance t x, conf'⟩ : (server cfg secret).Transition) := by
        intro ho hprom
        obtain ⟨c, id, p, hoc, -⟩ := hop hprom
        exact ho c id hoc
      rw [hworld]
      cases o with
      | markPeerJoined c id =>
          cases t with
          | ws d =>
              obtain rfl : c = d := hof
              have hpre := (serves_dialogue True (fun _ _ _ => .inl trivial) hr c).pre ht
              obtain ⟨p, hp, hj, -⟩ := hpre
              have hp : conf.world.mgr.peers c = some p := hp
              have hlive := hcons.liveCount_markPeerJoined hp hj id r
              by_cases hroom : p.roomId = r
              · rw [if_pos hroom] at hlive
                exact .inl ⟨⟨.ws c, c, id, ⟨x, k, rfl, ht, rfl⟩, p, hp, hroom⟩, hlive⟩
              · rw [if_neg hroom, add_zero] at hlive
                refine .inr ⟨fun hprom => ?_, hlive.le⟩
                obtain ⟨c', id', q, hoc, hq, hqr⟩ := hop hprom
                obtain ⟨rfl, -⟩ : c = c' ∧ id = id' := by simpa using hoc
                have hpq : p = q := by simpa [hp] using hq
                exact hroom (hpq ▸ hqr)
          | _ => exact hof.elim
      | onWsAccept c room id =>
          cases t with
          | ws d =>
              obtain rfl : c = d := hof
              have hpre := (serves_dialogue True (fun _ _ _ => .inl trivial) hr c).pre ht
              have hnone : conf.world.mgr.peers c = none := congrArg Prod.fst hpre
              have hlive := hcons.liveCount_onWsAccept hnone room id r
              exact .inr ⟨hnot (by simp), hlive.le⟩
          | _ => exact hof.elim
      | onWsClose c => exact .inr ⟨hnot (by simp), RoomManager.liveCount_onWsClose_le _ c r⟩
      | setPending c t e =>
          exact .inr ⟨hnot (by simp), (RoomManager.liveCount_setPending _ c t e r).le⟩
      | appendCachedMessage room sender payload n =>
          have hlive := conf.world.mgr.liveCount_appendCachedMessage room sender payload n
            conf.world.clock r
          exact .inr ⟨hnot (by simp), hlive.le⟩
      | closeRoom room => exact .inr ⟨hnot (by simp), le_refl _⟩
      | _ =>
          refine .inr ⟨hnot (by simp), ?_⟩
          simp only [exec]
          try split
          all_goals exact le_refl _

/-- The callbacks of a connection change the capacity of no room. -/
lemma capacity_exec {c : Conn} {o : Op Str} (ho : o.OfWs c) (x : Choice) (w : World Str) (r : Str) :
    ((exec o x w).2.db.findRoom r).map RoomRow.maxParticipants
      = (w.db.findRoom r).map RoomRow.maxParticipants := by
  cases o with
  | touchRoom id =>
      have htouch : ((w.db.touchRoom id w.clock).findRoom r).map RoomRow.maxParticipants
          = (w.db.findRoom r).map RoomRow.maxParticipants :=
        w.db.map_findRoom_updateRoom RoomRow.maxParticipants (fun _ _ _ => rfl)
          (f := fun row => { row with lastActiveAt := w.clock }) (fun _ => rfl) (fun _ => rfl) r
      simp only [exec]
      split
      · exact htouch
      · rfl
  | consumeChallenge id =>
      simp only [exec, Database.consumeChallenge]
      split
      · cases w.db.nextUnused id <;> rfl
      · rfl
  | insertAccessToken t id =>
      simp only [exec, Database.insertAccessToken]
      repeat' split
      all_goals rfl
  | _ => first | exact ho.elim | rfl

/-- In a run of the WebSocket route a room keeps its capacity. -/
lemma capacity_step (hr : Run (M := server cfg secret) ok (boot db clock) h conf)
    {l : (server cfg secret).Label} (hs : step conf l = some conf')
    (hm : OnRoute (⟨conf, l, conf'⟩ : (server cfg secret).Transition)) (r : Str) :
    (conf'.world.db.findRoom r).map RoomRow.maxParticipants
      = (conf.world.db.findRoom r).map RoomRow.maxParticipants := by
  cases l with
  | start t i =>
      obtain ⟨-, -, rfl⟩ := step_start hs
      rfl
  | advance t x =>
      obtain ⟨c, rfl⟩ := hm t rfl
      obtain ⟨o, k, ht, rfl⟩ := step_advance hs
      exact capacity_exec (task_only hr ht).1 x conf.world r
  | env e =>
      obtain ⟨w, hw, rfl⟩ := step_env hs
      have hdb : w.db = conf.world.db := ambient_db hw
      rw [hdb]

/-- What one transition needs to keep a room within its capacity, if it was. -/
lemma withinCapacity_step (hr : Run (M := server cfg secret) ok (boot db clock) h conf)
    {l : (server cfg secret).Label} (hs : step conf l = some conf')
    (hm : OnRoute (⟨conf, l, conf'⟩ : (server cfg secret).Transition)) {r : Str}
    (hw : WithinCapacity conf.world r) :
    WithinCapacity conf'.world r ↔
      (Promotes r (⟨conf, l, conf'⟩ : (server cfg secret).Transition) →
        roomFull conf.world r = false) := by
  have hcap := capacity_step hr hs hm r
  cases hrow : conf.world.db.findRoom r with
  | none =>
      have hnone : conf'.world.db.findRoom r = none := by simpa [hrow] using hcap
      simp [WithinCapacity, roomFull, hnone, hrow]
  | some row =>
      obtain ⟨row', hrow', hmax⟩ : ∃ row', conf'.world.db.findRoom r = some row' ∧
          row'.maxParticipants = row.maxParticipants := by simpa [hrow] using hcap
      have hle : conf.world.mgr.liveCount r ≤ row.maxParticipants := hw row hrow
      have hiff : WithinCapacity conf'.world r ↔
          conf'.world.mgr.liveCount r ≤ row.maxParticipants := by
        simp [WithinCapacity, hrow', hmax]
      have hfull : roomFull conf.world r = false ↔
          conf.world.mgr.liveCount r < row.maxParticipants := by
        simp [roomFull, hrow]
      rw [hiff, hfull]
      rcases liveCount_step hr hs r with ⟨hprom, hlive⟩ | ⟨hprom, hlive⟩
      · rw [hlive]
        simp only [hprom, forall_const]
        omega
      · simp only [hprom, false_implies, iff_true]
        omega

/-- **A room stays within its capacity exactly if no peer is promoted while it is full.**  In a
run of the WebSocket route the live peers of a room never exceed its capacity if and only if the
capacity is not negative and `roomFull` is false at every promotion into the room. -/
theorem withinCapacity_iff
    (hr : Run (M := server cfg secret) (fun _ => OnRoute) (boot db clock) h conf) (r : Str) :
    (WithinCapacity (boot db clock).world r ∧ ∀ m ∈ h, WithinCapacity m.post.world r) ↔
      (∀ row, db.findRoom r = some row → 0 ≤ row.maxParticipants) ∧
        ∀ m ∈ h, Promotes r m → roomFull m.pre.world r = false := by
  have h0 : WithinCapacity (boot db clock).world r ↔
      ∀ row, db.findRoom r = some row → 0 ≤ row.maxParticipants := Iff.rfl
  rw [h0]
  refine and_congr_right fun hcap => ?_
  suffices ((∀ m ∈ h, WithinCapacity m.post.world r) ↔
      ∀ m ∈ h, Promotes r m → roomFull m.pre.world r = false) ∧
      ((∀ m ∈ h, WithinCapacity m.post.world r) → WithinCapacity conf.world r) from this.1
  induction hr with
  | nil => exact ⟨by simp, fun _ => hcap⟩
  | @snoc h conf conf' l hr hs hm ih =>
      obtain ⟨hiff, hlast⟩ := ih
      simp only [List.forall_mem_append, List.forall_mem_singleton]
      refine ⟨?_, fun hall => hall.2⟩
      constructor
      · rintro ⟨hall, hpost⟩
        exact ⟨hiff.mp hall, (withinCapacity_step hr hs hm (hlast hall)).mp hpost⟩
      · rintro ⟨hall, hpost⟩
        have hall := hiff.mpr hall
        exact ⟨hall, (withinCapacity_step hr hs hm (hlast hall)).mpr hpost⟩

end Run

/-- The only place of a room is taken. -/
def Sample.takesPlace : Script (M := server {} Sample.secret)
    (boot (Sample.store 1 [] [Sample.token]) 0) (fun _ => onRoute)
    (fun _ conf => conf.world.mgr.liveCount Sample.room = 1) where
  labels := Sample.opening 0 ++ Sample.joining 0 Sample.token 3
  performed := by decide +kernel

/-- The equivalence at a run in which the only place of a room is taken. -/
theorem withinCapacity_iff_sample :
    ∃ (h : List (server {} Sample.secret).Transition) (conf : State),
      conf.world.mgr.liveCount Sample.room = 1 ∧
      let db := Sample.store 1 [] [Sample.token]
      ((WithinCapacity (boot db 0).world Sample.room ∧
          ∀ m ∈ h, WithinCapacity m.post.world Sample.room) ↔
        (∀ row, db.findRoom Sample.room = some row → 0 ≤ row.maxParticipants) ∧
          ∀ m ∈ h, Promotes Sample.room m → roomFull m.pre.world Sample.room = false) := by
  obtain ⟨h, conf, hr, hlive⟩ := Sample.takesPlace.exists_run fun _ _ _ => onRoute_of_test
  exact ⟨h, conf, of_decide_eq_true hlive, withinCapacity_iff hr Sample.room⟩

/-- Two clients with tokens join a room of one place. -/
def Sample.bothReturn : Script (M := server {} Sample.secret)
    (boot (Sample.store 1 [] [Sample.token, ascii "another token"]) 0) (fun _ => onRoute)
    (fun _ conf => (conf.world.db.findRoom Sample.room).any fun row =>
      row.maxParticipants < conf.world.mgr.liveCount Sample.room) where
  labels := Sample.opening 0 ++ Sample.joining 0 Sample.token 3
    ++ Sample.opening 1 ++ Sample.joining 1 (ascii "another token") 3
  performed := by decide +kernel

/-- Two returning clients fill a room of one place twice over. -/
theorem capacity_exceeded : ¬ ∀ (cfg : Config) (secret : List UInt8) (db : Database) (clock : ℤ)
    (h : List (server cfg secret).Transition) (conf : State) (r : Str),
    Run (M := server cfg secret) (fun _ => OnRoute) (boot db clock) h conf →
      WithinCapacity conf.world r := by
  intro hall
  obtain ⟨h, conf, hr, hfull⟩ := Sample.bothReturn.exists_run fun _ _ _ => onRoute_of_test
  obtain ⟨row, hrow, hlt⟩ : ∃ row, conf.world.db.findRoom Sample.room = some row ∧
      row.maxParticipants < conf.world.mgr.liveCount Sample.room := by
    cases hf : conf.world.db.findRoom Sample.room with
    | none => simp [hf] at hfull
    | some row => exact ⟨row, rfl, by simpa [hf] using hfull⟩
  have hle := hall _ _ _ _ h conf Sample.room hr row hrow
  omega

end HashHush
