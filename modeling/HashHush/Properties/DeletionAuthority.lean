import HashHush.Properties.Admission
import HashHush.Properties.Credentials

/-!
# Who may delete a room

A room disappears in two ways: the purger removes it, or a request does that shows a token of the
room.  Tokens are given out by the server alone, and to a connection alone that has answered a
challenge of the room; so behind every deletion by request stands somebody who knew the key, or a
token that was in the store when the process started.

`deletion_authorised` follows this chain back through a run, over the calls of all tasks and in
any interleaving: from the deletion to the request and the token in its body, from the token to
the row it was found in, from the row to the connection it was inserted for, and from there to
the challenge that the connection asked for and answered at the first attempt.
-/

namespace HashHush

open Concurrency System

/-! ## From the deletion to the token -/

/-- The body shows a token. -/
def Shows (token : Str) (body : Option Json) : Prop :=
  ∃ b, body = some b ∧ b.js_str (ascii "token") = .ok token ∧ token ≠ []

/-- A request that deletes a room has found a token of the room, from its body. -/
def deletingPre (id : Str) (body : Option Json) : Op Str → List (Called (signature Str)) → Prop
  | .deleteRoom r, es => r = id ∧ ∃ token, Shows token body ∧ ⟨.roomForToken token, some id⟩ ∈ es
  | _, _ => True

/-- The specification of a request to delete a room. -/
abbrev deleting (id : Str) (body : Option Json) :
    Spec (signature Str) (List (Called (signature Str))) :=
  .traced (deletingPre id body) fun _ _ => True

/-- The operations other than deletions. -/
def Op.Sparing : Op Str → Prop
  | .deleteRoom _ => False
  | _ => True

section Request

variable {n : ℕ} {id : Str} {body : Option Json} {es : List (Called (signature Str))}

lemma wp_of_sparing {p : Handler Str Unit} (hp : p.Only Op.Sparing) :
    p.Wp (deleting id body) (fun _ _ => True) es := by
  refine hp.wp_traced (J := fun _ => True) ?_ (fun _ _ _ _ _ => trivial) (fun _ _ _ => trivial)
    trivial
  intro o es ho _
  cases o <;> trivial

lemma jsonError_sparing (e : HttpError) : (jsonError n e : Handler Str Unit).Only Op.Sparing :=
  ⟨trivial, fun _ => trivial⟩

lemma deleteRoom_deleting : (deleteRoom n id body).Wp (deleting id body) (fun _ _ => True) [] := by
  cases body with
  | none => exact wp_of_sparing (jsonError_sparing _)
  | some body =>
      refine Prog.Wp.ofExcept (fun token htoken => ?_) fun _ _ => trivial
      apply Prog.Wp.ite (fun _ => wp_of_sparing (jsonError_sparing _))
      intro hne
      refine .traced trivial fun owner _ => ?_
      apply Prog.Wp.ite _ fun _ => wp_of_sparing (jsonError_sparing _)
      intro howner
      obtain rfl : owner = some id := howner
      have hremove : (removeRoom id >>= fun _ => call (.respond n .ok) : Handler Str Unit).Only
          fun o : Op Str => o = Op.deleteRoom id ∨ o.Sparing := by
        refine Prog.Only.bind (Prog.Only.bind ?_ fun _ => .step (.inl rfl) fun _ => trivial) fun _ => ?_
        · refine .step (.inr trivial) fun cs => ?_
          exact closeEach_only (fun _ => .inr trivial) (fun _ _ => .inr trivial) cs
        · exact ⟨.inr trivial, fun _ => trivial⟩
      refine hremove.wp_traced (J := fun es => ⟨.roomForToken token, some id⟩ ∈ es) ?_
        (fun _ _ _ _ hes => List.mem_append_left _ hes) (fun _ _ _ => trivial) (by simp)
      intro o es ho hes
      cases o with
      | deleteRoom r =>
          obtain rfl : r = id := by simpa [Op.Sparing] using ho
          exact ⟨rfl, token, ⟨body, rfl, htoken, hne⟩, hes⟩
      | _ => trivial

/-- The other requests delete nothing. -/
lemma sparing_of_plain {p : Handler Str Unit} (hp : p.Only Op.Plain) : p.Only Op.Sparing :=
  hp.mono fun o ho => by cases o <;> first | exact ho.elim | trivial

end Request

section Run

variable {cfg : Config} {secret : List UInt8} {db : Database} {clock : ℤ}
variable {ok : List (server cfg secret).Transition → (server cfg secret).Transition → Prop}
variable {h : List (server cfg secret).Transition} {conf conf' : State}

/-- A request that is about to delete a room was asked to, and has found the token of its body
among those of the room. -/
lemma shown_of_deleteRoom (hr : Run (M := server cfg secret) ok (boot db clock) h conf) {n : ℕ}
    {r : Str} {k : Bool → Handler Str Unit}
    (ht : conf.task (.http n) = some (.call (.deleteRoom r) k)) :
    ∃ h₁ c₀ c₁ h₂ body token, h = h₁ ++ ⟨c₀, .start (.http n) (.deleteRoom r body), c₁⟩ :: h₂ ∧
      Shows token body ∧
      ⟨.roomForToken token, some r⟩ ∈ calls (M := server cfg secret) (Task.http n) h₂ := by
  obtain ⟨h₁, c₀, i, c₁, h₂, rfl, hno⟩ := hr.exists_start rfl ht
  obtain ⟨q, hq, hpath⟩ := hr.path hno
  obtain rfl : q = .call (.deleteRoom r) k := Option.some.inj (hq.symm.trans ht)
  obtain ⟨-, hs, -⟩ := hr.of_append
  obtain ⟨-, hadmits, -⟩ := step_start hs
  have hother : ¬ (program cfg secret (.http n) i).Only Op.Sparing := fun honly =>
    honly.path (hpath.snoc true) ⟨.deleteRoom r, true⟩ (by simp)
  cases i with
  | deleteRoom id body =>
      have hwp := Prog.Wp.path hpath (deleteRoom_deleting : (deleteRoom n id body).Wp _ _ [])
      obtain ⟨⟨rfl, token, hshows, hfound⟩, -⟩ := (Prog.wp_call_traced _ _ _ _).mp hwp
      exact ⟨h₁, c₀, c₁, h₂, body, token, rfl, hshows, hfound⟩
  | getPowChallenge => exact absurd (sparing_of_plain (getPowChallenge_plain n cfg secret)) hother
  | postRooms body => exact absurd (sparing_of_plain (postRooms_plain n cfg secret body)) hother
  | isAlive body => exact absurd (sparing_of_plain (isAlive_plain n body)) hother
  | activate id body =>
      refine absurd ((activate_ofActivate n cfg id body).mono fun o ho => ?_) hother
      cases o <;> first | exact ho.elim | trivial
  | _ => cases hadmits

/-! ## From the token to the challenge -/

/-- A challenge of room `r` was asked for, the row handed out was answered at the first attempt,
and for that this token was stored. -/
def Earned (token r : Str) (es : List Event) : Prop :=
  ∃ row es' post, Challenged r row es' ∧
    es = es' ++ [.response row.pair.plaintextB64, .tokenStored token r] ++ post

lemma Earned.append {token r : Str} {es : List Event} (hes : Earned token r es)
    (es₂ : List Event) : Earned token r (es ++ es₂) := by
  obtain ⟨row, es', post, hch, rfl⟩ := hes
  exact ⟨row, es', post ++ es₂, hch, by simp⟩

/-- A token is stored for a connection that has answered a challenge at the first attempt. -/
lemma earned_of_stored (hok : ∀ h m, ok h m → Honest h m)
    (hr : Run (M := server cfg secret) ok (boot db clock) h conf) {c : Conn} {token r : Str}
    (hstored : .tokenStored token r ∈ events c h) : Earned token r (events c h) := by
  refine hr.invariant (I := fun h _ => ∀ token r, .tokenStored token r ∈ events c h →
    Earned token r (events c h)) (by simp [events, log]) ?_ token r hstored
  intro h conf l conf' hr ih hs hm token r hmem
  rw [events_snoc] at hmem ⊢
  rcases List.mem_append.mp hmem with hmem | hmem
  · exact (ih token r hmem).append _
  · have he : eventOf c (⟨conf, l, conf'⟩ : (server cfg secret).Transition)
        = some (.tokenStored token r) := by simpa using hmem
    obtain ⟨k, ht⟩ := task_of_tokenStored hs he
    have hpre := (serves_dialogue False (fun _ _ hm => .inr (hok _ _ hm)) hr c).pre ht
    obtain ⟨-, ⟨row, es', hch, hes⟩ | hd⟩ := hpre
    · refine ⟨row, es', [], hch, ?_⟩
      rw [he, show events c h = _ from hes]
      simp
    · exact hd.elim

/-- A stored token was stored at the start, or for a connection. -/
lemma stored_token (hr : Run (M := server cfg secret) ok (boot db clock) h conf) {row : TokenRow}
    (hrow : row ∈ conf.world.db.accessTokens) :
    row ∈ db.accessTokens ∨ ∃ c, .tokenStored row.token row.roomId ∈ events c h := by
  refine hr.invariant (I := fun h (conf : State) => row ∈ conf.world.db.accessTokens →
    row ∈ db.accessTokens ∨ ∃ c, .tokenStored row.token row.roomId ∈ events c h) .inl ?_ hrow
  intro h conf l conf' hr ih hs _ hrow
  have hold : row ∈ conf.world.db.accessTokens →
      row ∈ db.accessTokens ∨ ∃ c, .tokenStored row.token row.roomId
        ∈ events c (h ++ [(⟨conf, l, conf'⟩ : (server cfg secret).Transition)]) := by
    intro hrow
    refine (ih hrow).imp_right fun ⟨c, hc⟩ => ⟨c, ?_⟩
    rw [events_snoc]
    exact List.mem_append_left _ hc
  cases l with
  | start t i =>
      obtain ⟨-, -, rfl⟩ := step_start hs
      exact hold hrow
  | env e =>
      obtain ⟨w, hw, rfl⟩ := step_env hs
      exact hold ((ambient_db hw : w.db = _) ▸ hrow)
  | advance t x =>
      obtain ⟨o, k, ht, rfl⟩ := step_advance hs
      rcases mem_accessTokens_exec hrow with ⟨hrow, -⟩ | ⟨hsql, rfl, hin⟩
      · exact hold hrow
      · have ho := (task_only hr ht).1
        cases t with
        | ws c =>
            refine .inr ⟨c, ?_⟩
            rw [events_snoc, eventOf_advance ht]
            simp [Op.event, hsql, hin]
        | http n => exact ho.elim
        | purger => exact ho.elim

/-- A token that is found has a row. -/
lemma row_of_found {m : (server cfg secret).Transition} {t : Task} {token r : Str}
    (hm : m.Calls t (.roomForToken token) (some r)) :
    ∃ row ∈ m.pre.world.db.accessTokens, row.token = token ∧ cText row.roomId = r := by
  obtain ⟨x, k, -, -, hres⟩ := hm
  have hfound : m.pre.world.db.roomForToken token = some r := by
    by_cases hx : x.sql = true <;> simp_all [exec]
  obtain ⟨row, hrow, hroom⟩ := Option.map_eq_some_iff.mp hfound
  exact ⟨row, List.mem_of_find?_eq_some hrow, by simpa using List.find?_some hrow, hroom⟩

lemma events_append (c : Conn) (h h' : List (server cfg secret).Transition) :
    events c (h ++ h') = events c h ++ events c h' := by
  simp [events, log]

/-- **Deletion is authorised.**  In every run in which no decoy is answered, a room is deleted by
the purger or by a request to delete it that shows a token of the room; and that token was in the
store at the start, or it was stored for a connection that had answered a challenge of the room
at the first attempt. -/
theorem deletion_authorised (hr : Run (M := server cfg secret) Honest (boot db clock) h conf)
    {g g' : List (server cfg secret).Transition} {m : (server cfg secret).Transition} {t : Task}
    {r : Str} (hh : h = g ++ m :: g') (hm : m.Calls t (.deleteRoom r) true) :
    t = .purger ∨ ∃ n body token room, t = .http n ∧
      (∃ m' ∈ g, m'.label = .start (.http n) (.deleteRoom r body)) ∧ Shows token body ∧
      cText room = r ∧ ((∃ row ∈ db.accessTokens, row.token = token ∧ row.roomId = room) ∨
        ∃ c, Earned token room (events c g)) := by
  subst hh
  obtain ⟨hrun, -, -⟩ := hr.of_append
  obtain ⟨x, k, -, ht, -⟩ := hm
  have ho := (task_only hrun ht).1
  cases t with
  | purger => exact .inl rfl
  | ws c => exact ho.elim
  | http n =>
      obtain ⟨g₁, c₀, c₁, g₂, body, token, rfl, hshows, hfound⟩ := shown_of_deleteRoom hrun ht
      obtain ⟨m', hm', hcall⟩ := mem_calls.mp hfound
      obtain ⟨g₃, g₄, rfl⟩ := List.append_of_mem hm'
      rw [← List.cons_append, ← List.append_assoc] at hrun
      obtain ⟨hrun', -, -⟩ := hrun.of_append
      obtain ⟨row, hrow, htoken, hroom⟩ := row_of_found hcall
      have hstart : (⟨c₀, .start (.http n) (.deleteRoom r body), c₁⟩ :
          (server cfg secret).Transition) ∈ g₁ ++ ⟨c₀, .start (.http n) (.deleteRoom r body), c₁⟩ ::
            (g₃ ++ m' :: g₄) := by simp
      refine .inr ⟨n, body, token, row.roomId, rfl, ⟨_, hstart, rfl⟩, hshows, hroom, ?_⟩
      refine (stored_token hrun' hrow).imp (fun hrow => ⟨row, hrow, htoken, rfl⟩) ?_
      rintro ⟨c, hc⟩
      rw [htoken] at hc
      have hearned := (earned_of_stored (fun _ _ hm => hm) hrun' hc).append (events c (m' :: g₄))
      refine ⟨c, ?_⟩
      rw [← events_append] at hearned
      simpa using hearned

end Run

/-- A test for runs in which no decoy is answered. -/
def honestTest {cfg : Config} {secret : List UInt8} (h : List (server cfg secret).Transition)
    (m : (server cfg secret).Transition) : Bool :=
  match m.label with
  | .start (.ws c) (.message data) => undeceived (events c h) (data.event cfg)
  | _ => true

lemma honest_of_test {cfg : Config} {secret : List UInt8} (h : List (server cfg secret).Transition)
    (m : (server cfg secret).Transition) (hm : honestTest h m = true) : Honest h m := by
  obtain ⟨conf, l, conf'⟩ := m
  rintro c data a rfl ha ⟨pre, mid, -, hes⟩
  have hframe : undeceived (events c h) (data.event cfg) = true := hm
  rw [ha] at hframe
  exact of_decide_eq_true hframe ⟨pre, mid, hes.symm⟩

/-- The sample room is deleted. -/
def Sample.isDeletion : Called (signature Str) → Bool
  | ⟨.deleteRoom r, deleted⟩ => decide (r = room) && deleted
  | _ => false

/-- A client answers the one challenge of the sample room, and then deletes the room with the
token it was given. -/
def Sample.earnsAndDeletes : Script (M := server {} Sample.secret)
    (boot (Sample.store 2 [⟨ascii "p", ascii "c", ascii "n"⟩] []) 0) honestTest
    (fun h _ => (calls (M := server {} Sample.secret) (Task.http 0) h).any Sample.isDeletion) where
  labels := Sample.opening 0 ++ Sample.handle (.ws 0) (Sample.frame [("type", "hello")]) 7
    ++ Sample.handle (.ws 0) (Sample.frame [("type", "challenge_response"), ("plaintext", "p")]) 10
    ++ Sample.handle (.http 0) (.deleteRoom Sample.room (some (.object
      [(ascii "token", .string (List.replicate 64 48))]))) 6
  performed := by decide +kernel

/-- The client that deletes the sample room has earned its token. -/
theorem deletion_authorised_sample : ∃ (g : List (server {} Sample.secret).Transition)
    (m : (server {} Sample.secret).Transition) (n : ℕ),
    m.Calls (.http n) (.deleteRoom Sample.room) true ∧
      ∃ token room c, cText room = Sample.room ∧ Earned token room (events c g) := by
  obtain ⟨h, conf, hr, hend⟩ := Sample.earnsAndDeletes.exists_run fun h m _ => honest_of_test h m
  obtain ⟨e, he, hdel⟩ := List.any_eq_true.mp hend
  obtain ⟨m, hm, hcall⟩ := mem_calls.mp he
  obtain ⟨g, g', rfl⟩ := List.append_of_mem hm
  obtain ⟨o, res⟩ := e
  cases o with
  | deleteRoom r =>
      obtain ⟨rfl, rfl⟩ : r = Sample.room ∧ res = true := by simpa [Sample.isDeletion] using hdel
      refine ⟨g, m, 0, hcall, ?_⟩
      rcases deletion_authorised hr rfl hcall with ht | ⟨n, body, token, room, -, -, -, hroom, h⟩
      · cases ht
      · have hnone : (Sample.store 2 [⟨ascii "p", ascii "c", ascii "n"⟩] []).accessTokens = [] := by
          decide +kernel
        rcases h with ⟨row, hrow, -⟩ | ⟨c, hc⟩
        · rw [hnone] at hrow
          cases hrow
        · exact ⟨token, room, c, hroom, hc⟩
  | _ => cases hdel

end HashHush
