import HashHush.Server

/-!
# The pool of a room

Activating a room is meant to be all-or-nothing: the whole pool is stored and the room goes
live, or nothing happens, and the pool is the hard cap on the tokens a room ever issues.  The
handler makes three separate calls, `findRoom`, `insertChallenges` and `activateRoom`.  Two
requests that both find the room inactive both store their pools (`pool_doubled`), and one whose
last call fails leaves a pool behind that a retry doubles.

What holds is `activation_all_or_nothing`: the guarantee stands in every run in which a pool is
stored only for a room that has none, with fewer than 2^31 triples, and activating the room does
not fail (`Orderly`).  The argument follows the calls a task has made: `Complete` says what these
are when the task is idle, and a room whose pool is stored but which is not yet active has a task
that is not idle.
-/

namespace HashHush

open Concurrency System

/-- The call stores a pool for room `r`. -/
def Uploads (r : Str) (e : Called (signature Str)) : Prop :=
  ∃ pairs, e = ⟨.insertChallenges r pairs, true⟩

/-- The call activates room `r`. -/
def Activates (r : Str) (e : Called (signature Str)) : Prop := e = ⟨.activateRoom r, true⟩

/-- The calls change neither the pool of room `r` nor its flag. -/
def Untouched (r : Str) (s : List (Called (signature Str))) : Prop :=
  ∀ e ∈ s, ¬ Uploads r e ∧ ¬ Activates r e

/-- The calls of request `n` when it activated room `r`. -/
def Activation (r : Str) (n : ℕ) (s : List (Called (signature Str))) : Prop :=
  ∃ row pairs, s = [⟨.findRoom r, some row⟩, ⟨.insertChallenges r pairs, true⟩,
    ⟨.activateRoom r, true⟩, ⟨.respond n .ok, ()⟩]

/-- The calls of request `n` when it is over: it left the room alone or activated it. -/
def Complete (r : Str) (n : ℕ) (s : List (Called (signature Str))) : Prop :=
  Untouched r s ∨ Activation r n s

lemma Untouched.snoc {r : Str} {s : List (Called (signature Str))} (h : Untouched r s)
    {e : Called (signature Str)} (hu : ¬ Uploads r e) (ha : ¬ Activates r e) :
    Untouched r (s ++ [e]) := by
  intro e' he'
  rcases List.mem_append.mp he' with he' | he'
  · exact h e' he'
  · rw [List.mem_singleton.mp he']
    exact ⟨hu, ha⟩

/-! ## The size of an upload -/

/-- The loop over the uploaded triples drops none. -/
lemma length_challengePairs {cfg : Config} : ∀ {els : List Json} {pairs : List ChallengePair},
    challengePairs cfg els = .ok (.ok pairs) → pairs.length = els.length := by
  intro els
  induction els with
  | nil =>
      intro pairs h
      obtain rfl : [] = pairs := by simpa [challengePairs] using h
      rfl
  | cons el els ih =>
      intro pairs h
      rw [challengePairs] at h
      obtain ⟨plaintext, -, h⟩ := ok_of_bind h
      obtain ⟨ciphertext, -, h⟩ := ok_of_bind h
      obtain ⟨nonce, -, h⟩ := ok_of_bind h
      dsimp only at h
      split at h
      · cases h
      · split at h
        · cases h
        · obtain ⟨rest, hrest, h⟩ := ok_of_bind h
          cases rest with
          | error e => cases h
          | ok ps =>
              obtain rfl : _ :: ps = pairs := by simpa [pure, Except.pure] using h
              rw [List.length_cons, List.length_cons, ih hrest]

/-- The pool that passes the checks has the size the room requires. -/
lemma checkPool_size {cfg : Config} {row : RoomRow} {body : Option Json}
    {pairs : List ChallengePair} (h : checkPool cfg row body = .ok (.ok pairs)) :
    castInt pairs.length = required row := by
  cases body with
  | none => cases h
  | some body =>
      rw [checkPool] at h
      obtain ⟨has, -, h⟩ := ok_of_bind h
      split at h
      · obtain ⟨v, -, h⟩ := ok_of_bind h
        split at h
        · rename_i arr
          split at h
          · cases h
          · rename_i hlen
            rw [length_challengePairs h]
            exact not_not.mp hlen
        · cases h
      · cases h

/-! ## What a request calls -/

/-- What the calls of a task need: a pool that is stored is as large as the room requires, and
precedes the activation. -/
def uploadPre (r : Str) (req : ℤ) : Op Str → List (Called (signature Str)) → Prop
  | .insertChallenges id pairs, s => id = r → castInt pairs.length = req ∧ ∀ e ∈ s, ¬ Activates r e
  | .activateRoom id, s => id = r → ∃ e ∈ s, Uploads r e
  | _, _ => True

/-- What is known of the results: the room is found with what it requires, and activating it does
not fail. -/
def uploadResult (r : Str) (req : ℤ) : (o : Op Str) → o.Res → Prop
  | .findRoom id, some row => id = r → required row = req
  | .activateRoom id, b => id = r → b = true
  | _, _ => True

/-- The operation neither stores a pool for room `r` nor activates it. -/
def Op.Spares (r : Str) (o : Op Str) : Prop :=
  (∀ pairs, o ≠ .insertChallenges r pairs) ∧ o ≠ .activateRoom r

section Wp

variable {r : Str} {req : ℤ} {s : List (Called (signature Str))}

lemma Op.Spares.not_uploads {o : Op Str} (ho : o.Spares r) (a : o.Res) : ¬ Uploads r ⟨o, a⟩ := by
  rintro ⟨pairs, he⟩
  exact ho.1 pairs (congrArg Sigma.fst he)

lemma Op.Spares.not_activates {o : Op Str} (ho : o.Spares r) (a : o.Res) :
    ¬ Activates r ⟨o, a⟩ :=
  fun he => ho.2 (congrArg Sigma.fst he)

/-- A program that spares the room leaves it untouched. -/
lemma spares_upload {n : ℕ} {p : Handler Str Unit} (hp : p.Only (Op.Spares r)) (hs : Untouched r s) :
    p.Wp (.traced (uploadPre r req) (uploadResult r req)) (fun _ => Complete r n) s := by
  refine hp.wp_traced ?_ ?_ (fun _ _ h => .inl h) hs
  · intro o s ho _
    cases o with
    | insertChallenges id pairs => exact fun hid => absurd (hid ▸ rfl) (ho.1 pairs)
    | activateRoom id => exact fun hid => absurd (hid ▸ rfl) ho.2
    | _ => trivial
  · exact fun o a s ho hs => hs.snoc (ho.not_uploads a) (ho.not_activates a)

lemma jsonError_spares (n : ℕ) (e : HttpError) : (jsonError n e).Only (Op.Spares r) :=
  .perform ⟨by simp, by simp⟩

/-- A request that has just found the room with what it requires stores a pool of that size and
activates the room, or leaves it alone. -/
lemma storePool_upload (n : ℕ) {row : RoomRow} {pairs : List ChallengePair}
    (hlen : castInt pairs.length = req) :
    (storePool n r pairs).Wp (.traced (uploadPre r req) (uploadResult r req))
      (fun _ => Complete r n) [⟨.findRoom r, some row⟩] := by
  have hfound : Untouched r [⟨.findRoom r, some row⟩] := by
    intro e he
    rw [List.mem_singleton.mp he]
    exact ⟨by simp [Uploads], by simp [Activates]⟩
  refine .traced (fun _ => ⟨hlen, fun e he => (hfound e he).2⟩) fun inserted _ => ?_
  refine .ite (fun hins => ?_) fun hins => spares_upload (jsonError_spares n _) ?_
  · obtain rfl : inserted = true := hins
    refine .traced (fun _ => ⟨_, List.mem_append_right _ List.mem_cons_self, pairs, rfl⟩) ?_
    intro activated hact
    obtain rfl : activated = true := hact rfl
    refine (Prog.wp_call_traced _ _ _ _).mpr ⟨trivial, fun _ _ => .inr ⟨row, pairs, rfl⟩⟩
  · refine hfound.snoc ?_ (by simp [Activates])
    rintro ⟨pairs', he⟩
    have hb : HEq inserted true := (Sigma.mk.inj_iff.mp he).2
    exact hins (eq_of_heq hb)

lemma activate_upload (cfg : Config) (n : ℕ) (body : Option Json) :
    (activate cfg n r body).Wp (.traced (uploadPre r req) (uploadResult r req))
      (fun _ => Complete r n) [] := by
  have hnil : Untouched r [] := nofun
  have hfound : ∀ room : Option RoomRow, Untouched r [⟨.findRoom r, room⟩] := fun room =>
    hnil.snoc (by simp [Uploads]) (by simp [Activates])
  refine .traced trivial fun room hroom => ?_
  have hrefuse : ∀ e, (jsonError n e).Wp (.traced (uploadPre r req) (uploadResult r req))
      (fun _ => Complete r n) [⟨.findRoom r, room⟩] := fun e =>
    spares_upload (jsonError_spares n e) (hfound room)
  cases room with
  | none => exact hrefuse _
  | some row =>
      have hreq : required row = req := hroom rfl
      refine .ite (fun _ => hrefuse _) fun _ => .ofExcept (fun pool hpool => ?_) fun _ _ => ?_
      · cases pool with
        | error e => exact hrefuse e
        | ok pairs => exact storePool_upload n ((checkPool_size hpool).trans hreq)
      · exact .inl (hfound _)

end Wp

/-- Every program of the server but the activation of the room spares it. -/
lemma program_spares (cfg : Config) (secret : List UInt8) (r : Str) (t : Task) (i : Input) :
    (∃ n body, t = .http n ∧ i = .activate r body) ∨
      (program cfg secret t i).Only (Op.Spares r) := by
  have hremoval : ∀ {p : Handler Str Unit}, p.Only Op.OfRemoval → p.Only (Op.Spares r) := by
    refine fun hp => hp.mono fun o ho => ⟨?_, ?_⟩
    · rintro pairs rfl
      exact ho
    · rintro rfl
      exact ho
  have hplain : ∀ {p : Handler Str Unit}, p.Only Op.Plain → p.Only (Op.Spares r) := fun hp =>
    hremoval (hp.mono fun _ ho => ho.ofRemoval)
  cases t with
  | ws c =>
      refine .inr ((program_of cfg secret (.ws c) i).mono fun o ho => ⟨?_, ?_⟩)
      · rintro pairs rfl
        exact ho
      · rintro rfl
        exact ho
  | http n =>
      cases i with
      | activate id body =>
          by_cases hid : id = r
          · exact .inl ⟨n, body, rfl, by rw [hid]⟩
          · refine .inr ((activate_ofActivate n cfg id body).mono fun o ho => ⟨?_, ?_⟩)
            · rintro pairs rfl
              exact hid ho.symm
            · rintro rfl
              exact hid ho.symm
      | getPowChallenge => exact .inr (hplain (getPowChallenge_plain n cfg secret))
      | postRooms body => exact .inr (hplain (postRooms_plain n cfg secret body))
      | isAlive body => exact .inr (hplain (isAlive_plain n body))
      | deleteRoom id body => exact .inr (hremoval (deleteRoom_ofRemoval n id body))
      | _ => exact .inr trivial
  | purger =>
      cases i with
      | purge => exact .inr (hremoval (purge_ofRemoval cfg))
      | _ => exact .inr trivial

/-! ## What a call does to the pool -/

/-- The columns of a room that the guarantee is about. -/
def columns (row : RoomRow) : ℤ × Bool := (poolCap row, row.activated)

/-- An operation that neither fills the pool of a room nor activates or removes it leaves both
the pool and the columns of the room alone. -/
lemma exec_spares {r : Str} {o : Op Str} (ho : o.Spares r) (x : Choice) {w : World Str}
    (hin : r ∈ w.db.roomIds)
    (hkept : (⟨o, (exec o x w).1⟩ : Called (signature Str)) ≠ ⟨.deleteRoom r, true⟩) :
    (exec o x w).2.db.poolSize r = w.db.poolSize r ∧
      ((exec o x w).2.db.findRoom r).map columns = (w.db.findRoom r).map columns := by
  cases hx : x.sql with
  | false => cases o <;> simp [exec, hx]
  | true =>
      cases o with
      | createRoom row =>
          have hfind := w.db.findRoom_createRoom hin row
          have hpool : (w.db.createRoom row).2.poolSize r = w.db.poolSize r := by
            unfold Database.createRoom
            split <;> rfl
          simp [exec, hx, hfind, hpool]
      | deleteRoom id =>
          have hne : id ≠ r := by
            rintro rfl
            obtain ⟨row, hrow, hid⟩ := List.mem_map.mp hin
            have hfound : (w.db.deleteRoom id).1 = true :=
              List.any_eq_true.mpr ⟨row, hrow, by simpa using hid⟩
            exact hkept (by simp [exec, hx, hfound])
          simp [exec, hx, w.db.findRoom_deleteRoom hne, w.db.poolSize_deleteRoom hne]
      | touchRoom id =>
          have hfind : ((w.db.touchRoom id w.clock).findRoom r).map columns
              = (w.db.findRoom r).map columns :=
            w.db.map_findRoom_updateRoom columns (fun _ _ _ => rfl)
              (f := fun row => { row with lastActiveAt := w.clock }) (fun _ => rfl)
              (fun _ => rfl) r
          have hpool : (w.db.touchRoom id w.clock).poolSize r = w.db.poolSize r := rfl
          simp [exec, hx, hfind, hpool]
      | activateRoom id =>
          have hne : id ≠ r := fun h => ho.2 (h ▸ rfl)
          have hfind : (w.db.activateRoom id w.clock).2.findRoom r = w.db.findRoom r :=
            w.db.findRoom_updateRoom_of_ne hne
              (fun row => { row with activated := true, lastActiveAt := w.clock }) fun _ => rfl
          have hpool : (w.db.activateRoom id w.clock).2.poolSize r = w.db.poolSize r := rfl
          simp [exec, hx, hfind, hpool]
      | insertChallenges id pairs =>
          have hne : id ≠ r := fun h => ho.1 pairs (h ▸ rfl)
          have hpool := w.db.poolSize_insertChallenges id r pairs
          rw [if_neg fun h => hne h.1, add_zero] at hpool
          simp [exec, hx, hpool, w.db.findRoom_insertChallenges id r pairs]
      | consumeChallenge id =>
          have hfind : (w.db.consumeChallenge id).2.findRoom r = w.db.findRoom r := by
            unfold Database.consumeChallenge
            split <;> rfl
          simp [exec, hx, hfind, w.db.poolSize_consumeChallenge id r]
      | insertAccessToken t id =>
          have hfind : (w.db.insertAccessToken t id w.clock).2.findRoom r = w.db.findRoom r := by
            unfold Database.insertAccessToken
            split <;> rfl
          have hpool : (w.db.insertAccessToken t id w.clock).2.poolSize r = w.db.poolSize r := by
            unfold Database.insertAccessToken
            split <;> rfl
          simp [exec, hx, hfind, hpool]
      | _ => exact ⟨rfl, rfl⟩

/-- Storing a pool adds to it as many rows as triples, or nothing. -/
lemma exec_insertChallenges (r : Str) (pairs : List ChallengePair) (x : Choice) (w : World Str) :
    (exec (.insertChallenges r pairs) x w).2.db.findRoom r = w.db.findRoom r ∧
      (exec (.insertChallenges r pairs) x w).2.db.poolSize r = w.db.poolSize r
        + if (exec (.insertChallenges r pairs) x w).1 = true then pairs.length else 0 := by
  have hpool := w.db.poolSize_insertChallenges r r pairs
  have hfind := w.db.findRoom_insertChallenges r r pairs
  cases hx : x.sql <;> simp_all [exec]

/-- Activating a room sets its flag and keeps its pool. -/
lemma exec_activateRoom {r : Str} {x : Choice} {w : World Str}
    (h : (exec (.activateRoom r) x w).1 = true) :
    (exec (.activateRoom r) x w).2.db.poolSize r = w.db.poolSize r ∧
      ((exec (.activateRoom r) x w).2.db.findRoom r).map columns
        = (w.db.findRoom r).map fun row => (poolCap row, true) := by
  cases hx : x.sql with
  | false => simp [exec, hx] at h
  | true =>
      have hfind := w.db.findRoom_activateRoom r w.clock
      simp only [exec, hx, if_true, hfind, Option.map_map]
      exact ⟨rfl, rfl⟩

section Run

variable {cfg : Config} {secret : List UInt8} {db : Database} {clock : ℤ}
variable {ok : List (server cfg secret).Transition → (server cfg secret).Transition → Prop}
variable {h : List (server cfg secret).Transition} {conf conf' : State} {r : Str} {row : RoomRow}

/-- Request `n` asks for the activation of room `r`. -/
def Requested (r : Str) (n : ℕ) (h : List (server cfg secret).Transition) : Prop :=
  ∃ m ∈ h, ∃ body, m.label = .start (.http n) (.activate r body)

/-- The transition does not remove room `r`; it stores a pool for it only where there is none, and
of fewer than 2^31 triples; and it does not fail to activate it. -/
structure Orderly (r : Str) (m : (server cfg secret).Transition) : Prop where
  kept : ∀ t, ¬ m.Calls t (.deleteRoom r) true
  vacant : ∀ t pairs, m.Calls t (.insertChallenges r pairs) true →
    m.pre.world.db.poolSize r = 0 ∧ pairs.length < 2 ^ 31
  activates : ∀ t, ¬ m.Calls t (.activateRoom r) false

lemma Requested.snoc {n : ℕ} (hn : Requested r n h) (m : (server cfg secret).Transition) :
    Requested r n (h ++ [m]) := by
  obtain ⟨m', hm', hbody⟩ := hn
  exact ⟨m', List.mem_append_left _ hm', hbody⟩

/-- Whoever has not been asked to activate the room spares it. -/
theorem spares_of_not_requested
    (hr : Run (M := server cfg secret) ok (boot db clock) h conf) (t : Task) :
    (∃ n, t = .http n ∧ Requested r n h) ∨
      (∀ p, conf.task t = some p → p.Only (Op.Spares r)) ∧ Untouched r (calls t h) := by
  refine hr.invariant (I := fun h (conf : State) => (∃ n, t = .http n ∧ Requested r n h) ∨
    (∀ p, conf.task t = some p → p.Only (Op.Spares r)) ∧ Untouched r (calls t h)) ?_ ?_
  · exact .inr ⟨by simp [boot], nofun⟩
  · intro h conf l conf' hr ih hs _
    rcases ih with ⟨n, ht, hreq⟩ | ⟨hspares, huntouched⟩
    · exact .inl ⟨n, ht, hreq.snoc _⟩
    · by_cases hl : l.IsOf t
      · cases l with
        | start u i =>
            obtain rfl : u = t := hl
            rcases program_spares cfg secret r u i with ⟨n, body, ht, hi⟩ | honly
            · refine .inl ⟨n, ht, _, List.mem_append_right _ List.mem_cons_self, body, ?_⟩
              rw [ht, hi]
            · refine .inr ⟨fun p hp => ?_, by simpa [calls_snoc, Transition.called] using huntouched⟩
              rw [(step_start hs).2.2, resume_task_self, Option.some.injEq] at hp
              exact hp ▸ honly
        | advance u x =>
            obtain rfl : u = t := hl
            obtain ⟨o, k, ht, hc'⟩ := step_advance hs
            obtain ⟨ho, hk⟩ := hspares _ ht
            refine .inr ⟨fun p hp => ?_, ?_⟩
            · rw [hc', resume_task_self, Option.some.injEq] at hp
              exact hp ▸ hk _
            · rw [calls_snoc, called_advance ht]
              exact huntouched.snoc (ho.not_uploads _) (ho.not_activates _)
        | env e => exact hl.elim
      · refine .inr ⟨fun p hp => hspares p (step_task_of_not_isOf hs hl ▸ hp), ?_⟩
        rw [calls_snoc, called_of_not_isOf hl, Option.toList_none, List.append_nil]
        exact huntouched

/-- What an orderly transition does to a room: nothing, or it stores the pool, or it activates. -/
theorem pool_step (hin : r ∈ conf.world.db.roomIds) {l : (server cfg secret).Label}
    (hs : step conf l = some conf')
    (hm : Orderly r (⟨conf, l, conf'⟩ : (server cfg secret).Transition)) :
    ((∀ t e, (⟨conf, l, conf'⟩ : (server cfg secret).Transition).called t = some e →
        ¬ Uploads r e ∧ ¬ Activates r e) ∧
      conf'.world.db.poolSize r = conf.world.db.poolSize r ∧
      (conf'.world.db.findRoom r).map columns = (conf.world.db.findRoom r).map columns) ∨
    (∃ t pairs k, conf.task t = some (.call (.insertChallenges r pairs) k) ∧
      (⟨conf, l, conf'⟩ : (server cfg secret).Transition).called t
        = some ⟨.insertChallenges r pairs, true⟩ ∧
      conf.world.db.poolSize r = 0 ∧ pairs.length < 2 ^ 31 ∧
      conf'.world.db.poolSize r = pairs.length ∧
      (conf'.world.db.findRoom r).map columns = (conf.world.db.findRoom r).map columns) ∨
    (∃ t k, conf.task t = some (.call (.activateRoom r) k) ∧
      conf'.world.db.poolSize r = conf.world.db.poolSize r ∧
      (conf'.world.db.findRoom r).map columns
        = (conf.world.db.findRoom r).map fun row => (poolCap row, true)) := by
  cases l with
  | start t i =>
      obtain ⟨-, -, rfl⟩ := step_start hs
      exact .inl ⟨by simp [Transition.called], rfl, rfl⟩
  | env e =>
      obtain ⟨w, hw, rfl⟩ := step_env hs
      have hw : w.db = conf.world.db := ambient_db hw
      exact .inl ⟨by simp [Transition.called], by rw [hw], by rw [hw]⟩
  | advance t x =>
      obtain ⟨o, k, ht, rfl⟩ := step_advance hs
      have hcalls : ∀ (c' : State) u e,
          (⟨conf, .advance t x, c'⟩ : (server cfg secret).Transition).called u = some e →
            e = ⟨o, (exec o x conf.world).1⟩ := by
        intro c' u e he
        by_cases hu : t = u
        · subst hu
          rw [called_advance ht] at he
          exact (Option.some.inj he).symm
        · have hl : ¬ (Label.advance t x : (server cfg secret).Label).IsOf u := hu
          rw [called_of_not_isOf hl] at he
          cases he
      by_cases ho : o.Spares r
      · have hkept : (⟨o, (exec o x conf.world).1⟩ : Called (signature Str))
            ≠ ⟨.deleteRoom r, true⟩ := by
          intro he
          exact hm.kept t (called_iff.mp ((called_advance ht x _).trans (congrArg some he)))
        refine .inl ⟨fun u e he => ?_, exec_spares ho x hin hkept⟩
        rw [hcalls _ u e he]
        exact ⟨ho.not_uploads _, ho.not_activates _⟩
      · by_cases hact : o = .activateRoom r
        · subst hact
          have hok : (exec (.activateRoom r) x conf.world).1 = true := by
            by_contra hfail
            rw [Bool.not_eq_true] at hfail
            exact hm.activates t ⟨x, k, rfl, ht, hfail⟩
          exact .inr (.inr ⟨t, k, ht, exec_activateRoom hok⟩)
        · obtain ⟨pairs, rfl⟩ : ∃ pairs, o = .insertChallenges r pairs := by
            by_contra hne
            exact ho ⟨fun pairs h => hne ⟨pairs, h⟩, hact⟩
          obtain ⟨hfind, hpool⟩ := exec_insertChallenges r pairs x conf.world
          cases hb : (exec (.insertChallenges r pairs) x conf.world).1 with
          | false =>
              rw [hb] at hpool
              refine .inl ⟨fun u e he => ?_, hpool, congrArg _ hfind⟩
              rw [hcalls _ u e he, hb]
              exact ⟨by simp [Uploads], by simp [Activates]⟩
          | true =>
              rw [hb] at hpool
              obtain ⟨hempty, hsmall⟩ := hm.vacant t pairs ⟨x, k, rfl, ht, hb⟩
              have hempty : conf.world.db.poolSize r = 0 := hempty
              have hcalled := called_advance ht x
                (resume { conf with world := (exec (.insertChallenges r pairs) x conf.world).2 } t
                  (k (exec (.insertChallenges r pairs) x conf.world).1))
              refine .inr (.inl ⟨t, pairs, k, ht, hcalled.trans ?_, hempty, hsmall, ?_, ?_⟩)
              · exact congrArg some (Sigma.ext rfl (heq_of_eq hb))
              · exact hpool.trans (by simp [hempty])
              · exact congrArg _ hfind

/-- A room that is not removed keeps the size of its pool. -/
theorem poolCap_of_run (hrow : db.findRoom r = some row)
    (hr : Run (M := server cfg secret) (fun _ => Orderly r) (boot db clock) h conf) :
    (conf.world.db.findRoom r).map poolCap = some (poolCap row) := by
  refine hr.invariant (I := fun _ (conf : State) =>
    (conf.world.db.findRoom r).map poolCap = some (poolCap row)) ?_ ?_
  · exact congrArg (Option.map poolCap) hrow
  · intro h conf l conf' hr ih hs hm
    obtain ⟨room, hroom, hreq⟩ := Option.map_eq_some_iff.mp ih
    have hin : r ∈ conf.world.db.roomIds := by
      by_contra hout
      rw [conf.world.db.findRoom_eq_none.mpr hout] at hroom
      cases hroom
    have hfst : ∀ d : Database, (d.findRoom r).map poolCap
        = ((d.findRoom r).map columns).map Prod.fst := by
      intro d
      rw [Option.map_map]
      rfl
    rcases pool_step hin hs hm with ⟨-, -, hcol⟩ | ⟨t, pairs, k, -, -, -, -, -, hcol⟩ |
      ⟨t, k, -, -, hcol⟩
    · rw [hfst, hcol, ← hfst, ih]
    · rw [hfst, hcol, ← hfst, ih]
    · rw [hfst, hcol, hroom]
      exact congrArg some hreq

/-- The calls of a request are complete when it is not in progress. -/
theorem serves_upload (hrow : db.findRoom r = some row)
    (hr : Run (M := server cfg secret) (fun _ => Orderly r) (boot db clock) h conf) (n : ℕ) :
    Serves (M := server cfg secret) (.traced (uploadPre r (required row))
      (uploadResult r (required row))) (Complete r n) (conf.task (.http n)) (calls (Task.http n) h) := by
  refine hr.traced (M := server cfg secret) (Task.http n) ?_ ?_ ?_
  · exact .inl nofun
  · intro h conf i conf' hr hs _
    obtain ⟨-, hadm, -⟩ := step_start hs
    have hnone : conf.task (.http n) = none := by
      cases i <;> first | exact Option.isNone_iff_eq_none.mp hadm | cases hadm
    rw [hr.calls_of_none hnone]
    rcases program_spares cfg secret r (.http n) i with ⟨-, body, -, rfl⟩ | hspares
    · exact activate_upload cfg n body
    · exact spares_upload hspares nofun
  · intro h conf x conf' o k hr hs hm ht _
    cases o with
    | findRoom id =>
        have hcap := poolCap_of_run hrow hr
        show uploadResult r (required row) (.findRoom id) (exec (.findRoom id) x conf.world).1
        cases hx : x.sql with
        | false => simp [exec, hx, uploadResult]
        | true =>
            cases hfind : conf.world.db.findRoom id with
            | none => simp [exec, hx, hfind, uploadResult]
            | some room =>
                have hgoal : id = r → required room = required row := by
                  rintro rfl
                  have hroom : poolCap room = poolCap row := by simpa [hfind] using hcap
                  exact congrArg wrapInt hroom
                simpa [exec, hx, hfind, uploadResult] using hgoal
    | activateRoom id =>
        rintro rfl
        by_contra hfail
        rw [Bool.not_eq_true] at hfail
        exact hm.activates (.http n) ⟨x, k, rfl, ht, hfail⟩
    | _ => trivial

/-- The call of an activation that changes the store stores the pool or sets the flag. -/
lemma exec_ofActivate {o : Op Str} (ho : o.OfActivate r) (x : Choice) (w : World Str) :
    (exec o x w).2.db = w.db ∨ Uploads r ⟨o, (exec o x w).1⟩ ∨ Activates r ⟨o, (exec o x w).1⟩ := by
  cases o with
  | insertChallenges id pairs =>
      obtain rfl : id = r := ho
      cases hb : (exec (.insertChallenges id pairs) x w).1 with
      | true => exact .inr (.inl ⟨pairs, rfl⟩)
      | false =>
          left
          cases hx : x.sql with
          | false => simp [exec, hx]
          | true =>
              simp only [exec, hx, if_true] at hb ⊢
              exact w.db.insertChallenges_of_false hb
  | activateRoom id =>
      obtain rfl : id = r := ho
      cases hb : (exec (.activateRoom id) x w).1 with
      | true => exact .inr (.inr rfl)
      | false =>
          left
          cases hx : x.sql with
          | false => simp [exec, hx]
          | true =>
              simp only [exec, hx, if_true] at hb ⊢
              exact w.db.activateRoom_of_false hb
  | findRoom id => exact .inl rfl
  | respond n a => exact .inl rfl
  | _ => exact ho.elim

/-- A request for the activation of the room is working on it, and the calls that changed the store
are among those that store the pool or set the flag. -/
theorem requested_of_run (hr : Run (M := server cfg secret) ok (boot db clock) h conf) {n : ℕ}
    (hn : Requested r n h) :
    (∃ p, conf.task (.http n) = some p ∧ p.Only (Op.OfActivate r)) ∧
      ∀ m ∈ h, m.label.IsOf (Task.http n) → m.post.world.db = m.pre.world.db ∨
        ∃ e ∈ calls (Task.http n) h, Uploads r e ∨ Activates r e := by
  refine hr.invariant (I := fun h (conf : State) => Requested r n h →
    (∃ p, conf.task (.http n) = some p ∧ p.Only (Op.OfActivate r)) ∧
      ∀ m ∈ h, m.label.IsOf (Task.http n) → m.post.world.db = m.pre.world.db ∨
        ∃ e ∈ calls (Task.http n) h, Uploads r e ∨ Activates r e) ?_ ?_ hn
  · rintro ⟨m, hm, -⟩
    cases hm
  · rintro h conf l conf' hr ih hs - ⟨m, hm, body, hbody⟩
    have hkeep : (∀ m ∈ h, m.label.IsOf (Task.http n) → m.post.world.db = m.pre.world.db ∨
        ∃ e ∈ calls (Task.http n) h, Uploads r e ∨ Activates r e) →
        ∀ m' ∈ h, m'.label.IsOf (Task.http n) → m'.post.world.db = m'.pre.world.db ∨
          ∃ e ∈ calls (Task.http n) (h ++ [⟨conf, l, conf'⟩]), Uploads r e ∨ Activates r e := by
      intro hall m' hm' hof
      refine (hall m' hm' hof).imp_right ?_
      rintro ⟨e, he, hchange⟩
      exact ⟨e, by simp [calls_snoc, he], hchange⟩
    rcases List.mem_append.mp hm with hm | hm
    · obtain ⟨⟨p, hp, honly⟩, hall⟩ := ih ⟨m, hm, body, hbody⟩
      by_cases hl : l.IsOf (Task.http n)
      · cases l with
        | start u i =>
            obtain rfl : u = .http n := hl
            obtain ⟨-, hadm, -⟩ := step_start hs
            have hnone : conf.task (.http n) = none := by
              cases i <;> first | exact Option.isNone_iff_eq_none.mp hadm | cases hadm
            rw [hnone] at hp
            cases hp
        | advance u x =>
            obtain rfl : u = .http n := hl
            obtain ⟨o, k, ht, rfl⟩ := step_advance hs
            obtain rfl : p = .call o k := Option.some.inj (hp.symm.trans ht)
            refine ⟨⟨_, resume_task_self _ _ _, honly.2 _⟩, fun m' hm' hof => ?_⟩
            rcases List.mem_append.mp hm' with hm' | hm'
            · exact hkeep hall m' hm' hof
            · rw [List.mem_singleton.mp hm']
              refine (exec_ofActivate honly.1 x conf.world).imp_right fun hchange => ?_
              exact ⟨_, by simp [calls_snoc, called_advance ht], hchange⟩
        | env e => exact hl.elim
      · refine ⟨⟨p, (step_task_of_not_isOf hs hl).trans hp, honly⟩, fun m' hm' hof => ?_⟩
        rcases List.mem_append.mp hm' with hm' | hm'
        · exact hkeep hall m' hm' hof
        · rw [List.mem_singleton.mp hm'] at hof
          exact absurd hof hl
    · -- the request has just been taken up
      obtain rfl := List.mem_singleton.mp hm
      obtain rfl : l = .start (.http n) (.activate r body) := hbody
      obtain ⟨-, hadm, rfl⟩ := step_start hs
      have hnone : conf.task (.http n) = none := Option.isNone_iff_eq_none.mp hadm
      refine ⟨⟨_, resume_task_self _ _ _, activate_ofActivate n cfg r body⟩, fun m' hm' hof => ?_⟩
      rcases List.mem_append.mp hm' with hm' | hm'
      · exact absurd hof (hr.not_isOf_of_none hnone m' hm')
      · rw [List.mem_singleton.mp hm']
        exact .inl rfl

/-- The pool of a room is empty and the room is inactive, or the pool has the size required and
the room is active or about to be activated by a request. -/
def PoolSound (r : Str) (cap : ℤ) (h : List (server cfg secret).Transition) (conf : State) : Prop :=
  ∃ room, conf.world.db.findRoom r = some room ∧ poolCap room = cap ∧
    ((conf.world.db.poolSize r = 0 ∧ room.activated = false ∧
        ∀ t, ∀ e ∈ calls t h, ¬ Uploads r e) ∨
      ((conf.world.db.poolSize r : ℤ) = wrapInt cap ∧ (room.activated = true ∨
        ∃ n, Requested r n h ∧ (∃ e ∈ calls (Task.http n) h, Uploads r e) ∧
          ∀ e ∈ calls (Task.http n) h, ¬ Activates r e)))

lemma room_of_columns {d d' : Database} {room : RoomRow} {a : ℤ × Bool}
    (hroom : d.findRoom r = some room)
    (h : (d'.findRoom r).map columns = (d.findRoom r).map fun _ => a) :
    ∃ room', d'.findRoom r = some room' ∧ columns room' = a := by
  rw [hroom] at h
  exact Option.map_eq_some_iff.mp h

theorem poolSound_step (hrow : db.findRoom r = some row) {l : (server cfg secret).Label}
    (hr : Run (M := server cfg secret) (fun _ => Orderly r) (boot db clock) h conf)
    (hpool : PoolSound r (poolCap row) h conf) (hs : step conf l = some conf')
    (hm : Orderly r (⟨conf, l, conf'⟩ : (server cfg secret).Transition)) :
    PoolSound r (poolCap row) (h ++ [⟨conf, l, conf'⟩]) conf' := by
  obtain ⟨room, hroom, hreq, hcases⟩ := hpool
  have hin : r ∈ conf.world.db.roomIds := by
    by_contra hout
    rw [conf.world.db.findRoom_eq_none.mpr hout] at hroom
    cases hroom
  -- whoever calls one of the two has been asked to
  have hasked : ∀ t o k, conf.task t = some (.call o k) → ¬ o.Spares r →
      ∃ n, t = .http n ∧ Requested r n h := by
    intro t o k ht ho
    rcases spares_of_not_requested (r := r) hr t with hn | ⟨hspares, -⟩
    · exact hn
    · exact absurd (hspares _ ht).1 ho
  rcases pool_step hin hs hm with ⟨hcalls, hsize, hcol⟩ |
    ⟨t, pairs, k, ht, hcalled, hempty, hsmall, hsize, hcol⟩ | ⟨t, k, ht, hsize, hcol⟩
  · obtain ⟨room', hroom', hcol'⟩ := room_of_columns (a := columns room) hroom (by simpa [hroom] using hcol)
    obtain ⟨hreq', hact'⟩ : poolCap room' = poolCap room ∧ room'.activated = room.activated := by
      simpa [columns] using hcol'
    have hmem : ∀ t, ∀ e ∈ calls t (h ++ [(⟨conf, l, conf'⟩ : (server cfg secret).Transition)]),
        e ∈ calls t h ∨ ¬ Uploads r e ∧ ¬ Activates r e := by
      intro t e he
      rw [calls_snoc] at he
      rcases List.mem_append.mp he with he | he
      · exact .inl he
      · exact .inr (hcalls t e (by simpa using he))
    refine ⟨room', hroom', hreq'.trans hreq, ?_⟩
    rw [hsize, hact']
    rcases hcases with ⟨hzero, hact, hnone⟩ | ⟨hfull, hact⟩
    · refine .inl ⟨hzero, hact, fun t e he => ?_⟩
      rcases hmem t e he with he | he
      · exact hnone t e he
      · exact he.1
    · refine .inr ⟨hfull, hact.imp_right ?_⟩
      rintro ⟨n, hn, ⟨e, he, hup⟩, hno⟩
      refine ⟨n, hn.snoc _, ⟨e, by simp [calls_snoc, he], hup⟩, fun e he => ?_⟩
      rcases hmem _ e he with he | he
      · exact hno e he
      · exact he.2
  · obtain ⟨n, rfl, hn⟩ := hasked t _ k ht fun ho => ho.1 pairs rfl
    obtain ⟨hlen, hno⟩ := (serves_upload hrow hr n).pre ht rfl
    obtain ⟨room', hroom', hcol'⟩ := room_of_columns (a := columns room) hroom (by simpa [hroom] using hcol)
    obtain ⟨hreq', -⟩ : poolCap room' = poolCap room ∧ room'.activated = room.activated := by
      simpa [columns] using hcol'
    refine ⟨room', hroom', hreq'.trans hreq, .inr ⟨?_, .inr ⟨n, hn.snoc _, ?_, fun e he => ?_⟩⟩⟩
    · have hrequired : castInt pairs.length = wrapInt (poolCap row) := hlen
      rw [hsize, ← hrequired, castInt_of_lt hsmall]
    · exact ⟨_, by simp [calls_snoc, hcalled], pairs, rfl⟩
    · rw [calls_snoc, hcalled] at he
      rcases List.mem_append.mp he with he | he
      · exact hno e he
      · rw [Option.toList_some, List.mem_singleton] at he
        rw [he]
        simp [Activates]
  · obtain ⟨n, rfl, hn⟩ := hasked t _ k ht fun ho => ho.2 rfl
    obtain ⟨e, he, hup⟩ := (serves_upload hrow hr n).pre ht rfl
    obtain ⟨room', hroom', hcol'⟩ := room_of_columns (a := (poolCap room, true)) hroom
      (by simpa [hroom] using hcol)
    obtain ⟨hreq', hact'⟩ : poolCap room' = poolCap room ∧ room'.activated = true := by
      simpa [columns] using hcol'
    refine ⟨room', hroom', hreq'.trans hreq, .inr ?_⟩
    rcases hcases with ⟨-, -, hnone⟩ | ⟨hfull, -⟩
    · exact absurd hup (hnone _ e he)
    · exact ⟨by rw [hsize]; exact hfull, .inl hact'⟩

/-- Activation is all-or-nothing for room `r`. -/
structure AllOrNothing (r : Str) (h : List (server cfg secret).Transition) (conf : State) :
    Prop where
  /-- The pool never exceeds the size it is meant to have. -/
  hardCap : ∀ room, conf.world.db.findRoom r = some room →
    (conf.world.db.poolSize r : ℤ) ≤ poolCap room
  /-- When no request for the room is in progress, the pool is empty and the room inactive, or the
  pool has the size it is meant to have and the room is active. -/
  settled : (∀ n, Requested r n h → idle (conf.task (.http n)) = true) →
    ∀ room, conf.world.db.findRoom r = some room →
      (conf.world.db.poolSize r = 0 ∧ room.activated = false) ∨
        ((conf.world.db.poolSize r : ℤ) = poolCap room ∧ room.activated = true)
  /-- A request that is over and has not answered `ok`, or has answered anything else, has left
  the store as it was. -/
  refused : ∀ n, Requested r n h → idle (conf.task (.http n)) = true →
    (⟨.respond n .ok, ()⟩ ∉ calls (Task.http n) h ∨
      ∃ n' a, a ≠ .ok ∧ ⟨.respond n' a, ()⟩ ∈ calls (Task.http n) h) →
    ∀ m ∈ h, m.label.IsOf (Task.http n) → m.post.world.db = m.pre.world.db

/-- **Activation is all-or-nothing**, in every run that is orderly for the room, from a store in
which its pool is empty and it is inactive, or its pool is complete and it is active; provided that
the size of the pool is an `int`. -/
theorem activation_all_or_nothing (hrow : db.findRoom r = some row)
    (hcap : 0 ≤ row.maxParticipants) (hint : poolCap row < 2 ^ 31)
    (hinit : db.poolSize r = 0 ∧ row.activated = false ∨
      (db.poolSize r : ℤ) = poolCap row ∧ row.activated = true)
    (hr : Run (M := server cfg secret) (fun _ => Orderly r) (boot db clock) h conf) :
    AllOrNothing r h conf := by
  have hnonneg : 0 ≤ poolCap row := by
    unfold poolCap
    split <;> omega
  have hwrap : wrapInt (poolCap row) = poolCap row := wrapInt_of_mem (by omega) hint
  have hsound : PoolSound r (poolCap row) h conf := by
    refine hr.invariant (I := fun h (conf : State) => PoolSound r (poolCap row) h conf) ?_ ?_
    · refine ⟨row, hrow, rfl, hinit.imp ?_ ?_⟩
      · exact fun h0 => ⟨h0.1, h0.2, nofun⟩
      · exact fun h1 => ⟨h1.1.trans hwrap.symm, .inl h1.2⟩
    · exact fun h conf l conf' hr ih hs hm => poolSound_step hrow hr ih hs hm
  obtain ⟨room, hroom, hreq, hcases⟩ := hsound
  rw [hwrap] at hcases
  have hdone : ∀ n, idle (conf.task (.http n)) = true → Complete r n (calls (Task.http n) h) :=
    fun n hidle => (serves_upload hrow hr n).of_idle hidle
  constructor
  · intro room' hroom'
    obtain rfl : room = room' := Option.some.inj (hroom.symm.trans hroom')
    rcases hcases with ⟨hzero, -, -⟩ | ⟨hfull, -⟩
    · rw [hzero, hreq]
      exact_mod_cast hnonneg
    · rw [hfull, hreq]
  · intro hidle room' hroom'
    obtain rfl : room = room' := Option.some.inj (hroom.symm.trans hroom')
    rcases hcases with ⟨hzero, hact, -⟩ | ⟨hfull, hact | ⟨n, hn, ⟨e, he, hup⟩, hno⟩⟩
    · exact .inl ⟨hzero, hact⟩
    · exact .inr ⟨hreq ▸ hfull, hact⟩
    · -- the request that stored the pool is over, so it has activated the room
      rcases hdone n (hidle n hn) with huntouched | ⟨found, pairs, hcalls⟩
      · exact absurd hup (huntouched e he).1
      · exact absurd rfl (hno ⟨.activateRoom r, true⟩ (by simp [hcalls]))
  · intro n hn hidle hnot m hm hof
    rcases hdone n hidle with huntouched | ⟨found, pairs, hcalls⟩
    · rcases (requested_of_run hr hn).2 m hm hof with hsame | ⟨e, he, hup | hact⟩
      · exact hsame
      · exact absurd hup (huntouched e he).1
      · exact absurd hact (huntouched e he).2
    · rcases hnot with hnot | ⟨n', a, ha, hmem⟩
      · exact absurd (by simp [hcalls]) hnot
      · rw [hcalls] at hmem
        exact absurd (by simpa using hmem : n' = n ∧ a = .ok).2 ha

end Run

/-- A room with one place, as `POST /api/rooms` leaves it. -/
def Sample.inactive : Database :=
  (Database.empty.createRoom ⟨Sample.room, ascii "Secret chat", 1, 0, 0, false, false⟩).2

/-- The upload of the five triples that it requires. -/
def Sample.upload : Input :=
  let triple := Json.object [(ascii "plaintext", .string (ascii "p")),
    (ascii "ciphertext", .string (ascii "c")), (ascii "nonce", .string (ascii "n"))]
  .activate Sample.room (some (.object [(ascii "challenges", .list (List.replicate 5 triple))]))

/-- A test for orderly transitions. -/
def orderlyTest (r : Str) (m : (server {} Sample.secret).Transition) : Bool :=
  match m.label with
  | .advance t x =>
      match m.pre.task t with
      | some (.call (.deleteRoom _) _) => false
      | some (.call (.insertChallenges _ pairs) _) =>
          m.pre.world.db.poolSize r = 0 && decide (pairs.length < 2 ^ 31)
      | some (.call (.activateRoom id) _) => (exec (.activateRoom id) x m.pre.world).1
      | _ => true
  | _ => true

lemma orderly_of_test {r : Str} {m : (server {} Sample.secret).Transition}
    (hm : orderlyTest r m = true) : Orderly r m := by
  refine ⟨?_, ?_, ?_⟩
  · rintro t ⟨x, k, hl, ht, -⟩
    simp [orderlyTest, hl, ht] at hm
  · rintro t pairs ⟨x, k, hl, ht, -⟩
    simpa only [orderlyTest, hl, ht, Bool.and_eq_true, decide_eq_true_eq] using hm
  · rintro t ⟨x, k, hl, ht, hfail⟩
    have hok : (exec (.activateRoom r) x m.pre.world).1 = true := by
      simpa only [orderlyTest, hl, ht] using hm
    exact absurd (hok.symm.trans hfail) (by simp)

/-- The sample room has no challenges yet. -/
lemma Sample.inactive_room :
    Sample.inactive.findRoom Sample.room
      = some ⟨Sample.room, ascii "Secret chat", 1, 0, 0, false, false⟩ ∧
    Sample.inactive.poolSize Sample.room = 0 := by
  decide +kernel

/-- A pool is uploaded. -/
def Sample.uploads : Script (M := server {} Sample.secret) (boot Sample.inactive 0)
    (fun _ => orderlyTest Sample.room)
    (fun _ conf => conf.world.db.poolSize Sample.room = 5) where
  labels := Sample.handle (.http 0) Sample.upload 4
  performed := by decide +kernel

/-- One upload activates the sample room. -/
theorem activation_all_or_nothing_sample :
    ∃ (h : List (server {} Sample.secret).Transition) (conf : State),
      conf.world.db.poolSize Sample.room = 5 ∧ AllOrNothing Sample.room h conf := by
  obtain ⟨h, conf, hr, hsize⟩ := Sample.uploads.exists_run fun _ _ _ => orderly_of_test
  obtain ⟨hrow, hempty⟩ := Sample.inactive_room
  exact ⟨h, conf, of_decide_eq_true hsize,
    activation_all_or_nothing hrow (by decide) (by decide) (.inl ⟨hempty, rfl⟩) hr⟩

/-- Nothing but requests for activation is taken up. -/
def Activating {cfg : Config} {secret : List UInt8} (m : (server cfg secret).Transition) : Prop :=
  ∀ t i, m.label = .start t i → ∃ id body, i = .activate id body

/-- A test for such transitions. -/
def activatingTest {cfg : Config} {secret : List UInt8} (m : (server cfg secret).Transition) :
    Bool :=
  match m.label with
  | .start _ (.activate _ _) | .advance _ _ | .env _ => true
  | _ => false

lemma activating_of_test {cfg : Config} {secret : List UInt8}
    {m : (server cfg secret).Transition} (hm : activatingTest m = true) : Activating m := by
  intro t i hl
  rw [activatingTest, hl] at hm
  cases i with
  | activate id body => exact ⟨id, body, rfl⟩
  | _ => cases hm

/-- Two uploads find the room inactive. -/
def Sample.uploadsTwice : Script (M := server {} Sample.secret) (boot Sample.inactive 0)
    (fun _ => activatingTest) (fun _ conf => (conf.world.db.findRoom Sample.room).any fun room =>
      poolCap room < conf.world.db.poolSize Sample.room) where
  labels := Sample.handle (.http 0) Sample.upload 1 ++ Sample.handle (.http 1) Sample.upload 4
    ++ List.replicate 3 (.advance (.http 0) (Sample.draw 0))
  performed := by decide +kernel

/-- Two uploads that both find the room inactive fill its pool twice over. -/
theorem pool_doubled : ¬ ∀ (cfg : Config) (secret : List UInt8) (db : Database) (clock : ℤ)
    (h : List (server cfg secret).Transition) (conf : State) (r : Str) (row : RoomRow),
    db.findRoom r = some row → 0 ≤ row.maxParticipants → poolCap row < 2 ^ 31 →
      (db.poolSize r = 0 ∧ row.activated = false ∨
        (db.poolSize r : ℤ) = poolCap row ∧ row.activated = true) →
      Run (M := server cfg secret) (fun _ => Activating) (boot db clock) h conf →
        AllOrNothing r h conf := by
  intro hall
  obtain ⟨h, conf, hr, hover⟩ := Sample.uploadsTwice.exists_run fun _ _ _ => activating_of_test
  obtain ⟨hrow, hempty⟩ := Sample.inactive_room
  have hsound :=
    hall _ _ _ _ h conf Sample.room _ hrow (by decide) (by decide) (.inl ⟨hempty, rfl⟩) hr
  cases hfind : conf.world.db.findRoom Sample.room with
  | none => simp [hfind] at hover
  | some room =>
      have hle := hsound.hardCap room hfind
      have hlt : poolCap room < conf.world.db.poolSize Sample.room := by simpa [hfind] using hover
      omega

end HashHush
