import HashHush.Properties.Credentials
import HashHush.Properties.Isolation

/-!
# A token that was handed out is good

The browser keeps the access token of the `joined` frame and shows it whenever it comes back; it has
no second chance, since the challenge it answered is used up.  So the server must not hand out a
token that it has not stored, or store it for another room, or lose it while the room exists.

`token_durable` says this of every run: behind every token in a `joined` frame is its insertion by
the same connection, for the room that the connection was opened for, and from the insertion on
`roomForToken` finds that room until the room is deleted, whatever the other tasks do in between.
-/

namespace HashHush

open Concurrency System

/-! ## Behind the frame is an insertion -/

/-- The token that a call hands out, and to whom. -/
def Op.grant : Op Str → Option (Conn × Str)
  | .sendText d (.joined _ _ (some token) _ _) => some (d, token)
  | _ => none

/-- The token has been inserted among these calls, for the room under which the connection is
registered. -/
def Deposited (c : Conn) (token : Str) (es : List (Called (signature Str))) : Prop :=
  ∃ peer : Peer, ⟨.findByConn c, some peer⟩ ∈ es ∧ ⟨.insertAccessToken token peer.roomId, true⟩ ∈ es

/-- A connection hands out a token to itself, once it is stored. -/
def grantingPre (c : Conn) (o : Op Str) (es : List (Called (signature Str))) : Prop :=
  ∀ d token, o.grant = some (d, token) → d = c ∧ Deposited c token es

/-- The specification of a connection that hands out tokens. -/
abbrev granting (c : Conn) : Spec (signature Str) (List (Called (signature Str))) :=
  .traced (grantingPre c) fun _ _ => True

/-- The operations that hand out no token. -/
def Op.Grantless (o : Op Str) : Prop := o.grant = none

section Granting

variable {c : Conn} {es : List (Called (signature Str))}

lemma wp_of_grantless {p : Handler Str Unit} (hp : p.Only Op.Grantless) :
    p.Wp (granting c) (fun _ _ => True) es := by
  refine hp.wp_traced (J := fun _ => True) ?_ (fun _ _ _ _ _ => trivial) (fun _ _ _ => trivial)
    trivial
  intro o es ho _ d token hgrant
  have ho : o.grant = none := ho
  rw [ho] at hgrant
  cases hgrant

variable (c)

lemma sendErr_grantless (e : WsError) : (sendErr c e).Only Op.Grantless := .perform rfl

lemma sendErrAndClose_grantless (e : WsError) : (sendErrAndClose c e).Only Op.Grantless :=
  .step rfl fun _ => .perform rfl

lemma joined_grantless (cfg : Config) (peer : Peer) (j : Json) (type : Str) :
    (joined cfg id c peer j type).Only Op.Grantless := by
  unfold joined
  refine Prog.Only.ite (fun _ => ?_) fun _ => ?_
  · refine .ofExcept fun payload _ => ?_
    refine Prog.Only.ite (fun _ => sendErr_grantless c _) fun _ => ?_
    refine Prog.Only.ite (fun _ => sendErr_grantless c _) fun _ => Prog.Only.ite (fun _ => ?_) fun _ => ?_
    · refine .step rfl fun _ => .step rfl fun _ => .step rfl fun ts => ?_
      exact broadcast_only (fun _ _ => rfl) (fun _ => rfl) _ _
    · exact .step rfl fun ts => broadcast_only (fun _ _ => rfl) (fun _ => rfl) _ _
  · exact Prog.Only.ite (fun _ => .perform rfl) fun _ => sendErr_grantless c _

/-- The end of a join hands out the token it is given, to its own connection. -/
lemma finalizeJoin_grants (peer : Peer) (token : Str) (isFresh : Bool) :
    (finalizeJoin c peer token isFresh).Only fun o : Op Str =>
      o.Grantless ∨ isFresh = true ∧ o.grant = some (c, token) := by
  refine .step (.inl rfl) fun _ => .step (.inl rfl) fun _ => .step (.inl rfl) fun _ => ?_
  refine .step (.inl rfl) fun _ => .step ?_ fun _ => Prog.Only.bind ?_ fun _ => .perform (.inl rfl)
  · cases isFresh with
    | true => exact .inr ⟨rfl, rfl⟩
    | false => exact .inl rfl
  · exact broadcast_only (fun _ _ => .inl rfl) (fun _ => .inl rfl) _ _

variable {c}

lemma challengeResponse_granting {peer : Peer} (hpeer : ⟨.findByConn c, some peer⟩ ∈ es)
    (answer : Str) :
    (challengeResponse c peer answer).Wp (granting c) (fun _ _ => True) es := by
  have herr : ∀ {es} e, (sendErrAndClose c e : Handler Str Unit).Wp (granting c)
      (fun _ _ => True) es := fun e => wp_of_grantless (sendErrAndClose_grantless c e)
  apply Prog.Wp.ite (fun _ => herr _)
  intro _
  refine .traced (by rintro d token ⟨⟩) fun _ _ => ?_
  apply Prog.Wp.ite (fun _ => herr _)
  intro _
  refine .traced (by rintro d token ⟨⟩) fun inserted _ => ?_
  apply Prog.Wp.ite _ fun _ => herr _
  rintro rfl
  refine (finalizeJoin_grants c peer peer.pendingToken true).wp_traced
    (J := Deposited c peer.pendingToken) ?_ ?_ (fun _ _ _ => trivial) ⟨peer, by simp [hpeer], by simp⟩
  · rintro o es (ho | ⟨-, ho⟩) hes d token hgrant
    · exact absurd (hgrant.symm.trans ho) (by simp)
    · obtain ⟨rfl, rfl⟩ : d = c ∧ token = peer.pendingToken := by
        simpa using hgrant.symm.trans ho
      exact ⟨rfl, hes⟩
  · rintro o a es - ⟨peer, hpeer, hmem⟩
    exact ⟨peer, List.mem_append_left _ hpeer, List.mem_append_left _ hmem⟩

lemma unjoined_granting {peer : Peer} (hpeer : ⟨.findByConn c, some peer⟩ ∈ es) (j : Json)
    (type : Str) : (unjoined c peer j type).Wp (granting c) (fun _ _ => True) es := by
  unfold unjoined
  apply Prog.Wp.ite
  · intro _
    refine .ofExcept (fun token _ => ?_) fun _ _ => trivial
    apply Prog.Wp.ite (fun _ => wp_of_grantless ?_) fun _ => wp_of_grantless ?_
    · refine .step rfl fun owner => Prog.Only.ite (fun _ => ?_) fun _ => sendErrAndClose_grantless c _
      exact (finalizeJoin_grants c peer token false).mono fun o ho => ho.resolve_right (by simp)
    · exact helloWithoutToken_only (fun _ => rfl) (fun _ => rfl) (fun _ => rfl) (fun _ => rfl)
        (fun _ _ => rfl) (fun _ _ => rfl) peer
  · intro _
    apply Prog.Wp.ite
    · intro _
      exact .ofExcept (fun answer _ => challengeResponse_granting hpeer answer) fun _ _ => trivial
    · exact fun _ => wp_of_grantless (sendErrAndClose_grantless c _)

/-- The message handler hands out no token that it has not stored. -/
lemma onmessage_granting (cfg : Config) (data : Inbound) :
    (onmessage cfg id c data).Wp (granting c) (fun _ _ => True) es := by
  have hclose : ∀ reason, (call (.close c reason) : Handler Str Unit).Only Op.Grantless :=
    fun _ => ⟨rfl, fun _ => trivial⟩
  unfold onmessage
  apply Prog.Wp.ite (fun _ => wp_of_grantless (hclose _))
  intro _
  refine .traced (by rintro d token ⟨⟩) fun found _ => ?_
  cases found with
  | none => exact wp_of_grantless (hclose _)
  | some peer =>
      have hpeer : (⟨.findByConn c, some peer⟩ : Called (signature Str))
          ∈ es ++ [⟨.findByConn c, some peer⟩] := List.mem_append_right _ (List.mem_singleton_self _)
      cases data.json with
      | none => exact wp_of_grantless (sendErr_grantless c _)
      | some j =>
          refine .ofExcept (fun hasType _ => ?_) fun _ _ => trivial
          apply Prog.Wp.ite _ fun _ => wp_of_grantless (sendErr_grantless c _)
          intro _
          refine .ofExcept (fun v _ => ?_) fun _ _ => trivial
          refine .ofExcept (fun type _ => ?_) fun _ _ => trivial
          apply Prog.Wp.ite (fun _ => wp_of_grantless (joined_grantless c cfg peer j type))
          exact fun _ => unjoined_granting hpeer j type

lemma onopen_grantless (c : Conn) (room : Option Str) : (onopen c room).Only Op.Grantless :=
  Prog.Only.ite (fun _ => trivial) fun _ => .step rfl fun _ => .perform rfl

lemma onclose_grantless (c : Conn) : (onclose c).Only Op.Grantless := by
  refine .step rfl fun peer => ?_
  cases peer with
  | none => trivial
  | some p =>
      refine Prog.Only.ite (fun _ => ?_) fun _ => trivial
      exact broadcast_only (fun _ _ => rfl) (fun _ => rfl) _ _

end Granting

section Run

variable {cfg : Config} {secret : List UInt8} {db : Database} {clock : ℤ}
variable {ok : List (server cfg secret).Transition → (server cfg secret).Transition → Prop}
variable {h : List (server cfg secret).Transition} {conf : State}

/-- In every run, the callbacks of a connection hand out no token that they have not stored. -/
lemma serves_granting (hr : Run (M := server cfg secret) ok (boot db clock) h conf) (c : Conn) :
    Serves (M := server cfg secret) (granting c) (fun _ => True) (conf.task (.ws c))
      (calls (M := server cfg secret) (Task.ws c) h) := by
  refine hr.traced (M := server cfg secret) (Task.ws c) ?_ ?_ fun _ _ _ _ _ _ _ _ _ _ _ => trivial
  · trivial
  intro h conf i conf' _ hs _
  obtain ⟨-, hadmits, -⟩ := step_start hs
  cases i with
  | opened room => exact wp_of_grantless (onopen_grantless c room)
  | message data => exact onmessage_granting cfg data
  | closed => exact wp_of_grantless (onclose_grantless c)
  | _ => cases hadmits

/-! ## What is stored stays -/

/-- The token of a row is found in its room. -/
lemma roomForToken_of_mem {d : Database} {row : TokenRow} (hrow : row ∈ d.accessTokens) :
    d.roomForToken row.token = some (cText row.roomId) := by
  obtain ⟨found, hfind⟩ : ∃ found, d.accessTokens.find? (fun t => t.token = row.token) = some found :=
    Option.isSome_iff_exists.mp (List.find?_isSome.mpr ⟨row, hrow, by simp⟩)
  have htoken : found.token = row.token := by simpa using List.find?_some hfind
  obtain rfl : found = row :=
    List.inj_on_of_nodup_map d.tokenKey (List.mem_of_find?_eq_some hfind) hrow htoken
  rw [Database.roomForToken, hfind, Option.map_some]

/-- An operation loses a token row only if it deletes the room. -/
lemma mem_accessTokens_exec_or {o : Op Str} {x : Choice} {w : World Str} {row : TokenRow}
    (hrow : row ∈ w.db.accessTokens) : row ∈ (exec o x w).2.db.accessTokens ∨
      x.sql = true ∧ o = .deleteRoom row.roomId := by
  cases hx : x.sql with
  | false =>
      left
      cases o <;> simpa [exec, hx] using hrow
  | true =>
      cases o with
      | deleteRoom room =>
          simp only [exec, hx, if_true, Database.deleteRoom]
          by_cases hroom : row.roomId = room
          · exact .inr ⟨trivial, by rw [hroom]⟩
          · exact .inl (List.mem_filter.mpr ⟨hrow, by simpa using hroom⟩)
      | insertAccessToken token room =>
          simp only [exec, hx, if_true, Database.insertAccessToken]
          split
          · exact .inl (List.mem_append_left _ hrow)
          · exact .inl hrow
      | createRoom _ | insertChallenges _ _ | consumeChallenge _ =>
          simp only [exec, hx, if_true, Database.createRoom, Database.insertChallenges,
            Database.consumeChallenge]
          split <;> exact .inl hrow
      | touchRoom _ | activateRoom _ =>
          simp only [exec, hx, if_true]
          exact .inl hrow
      | _ => exact .inl hrow

/-- A token row is lost by the deletion of its room alone. -/
lemma mem_accessTokens_or_deletes {conf conf' : State} {l : (server cfg secret).Label}
    (hs : step (M := server cfg secret) conf l = some conf') {row : TokenRow}
    (hrow : row ∈ conf.world.db.accessTokens) : row ∈ conf'.world.db.accessTokens ∨
      ∃ t, (⟨conf, l, conf'⟩ : (server cfg secret).Transition).Calls t (.deleteRoom row.roomId)
        true := by
  cases l with
  | start t i =>
      obtain ⟨-, -, rfl⟩ := step_start hs
      exact .inl hrow
  | env e =>
      obtain ⟨w, hw, rfl⟩ := step_env hs
      exact .inl ((ambient_db hw : w.db = _) ▸ hrow)
  | advance t x =>
      obtain ⟨o, k, ht, rfl⟩ := step_advance hs
      rcases mem_accessTokens_exec_or (o := o) (x := x) hrow with hrow | ⟨hx, rfl⟩
      · exact .inl hrow
      · have hroom : ∃ r ∈ conf.world.db.rooms, r.id = row.roomId :=
          List.mem_map.mp (conf.world.db.tokenRoom row hrow)
        exact .inr ⟨t, x, k, rfl, ht, by simpa [exec, hx, Database.deleteRoom] using hroom⟩

/-- An insertion that succeeds leaves a row. -/
lemma row_of_inserted {m : (server cfg secret).Transition} {t : Task} {token room : Str}
    (hs : step (M := server cfg secret) m.pre m.label = some m.post)
    (hm : m.Calls t (.insertAccessToken token room) true) :
    ∃ row ∈ m.post.world.db.accessTokens, row.token = token ∧ row.roomId = room := by
  obtain ⟨x, k, hl, ht, hres⟩ := hm
  rw [hl] at hs
  obtain ⟨o, k', ht', hpost⟩ := step_advance hs
  obtain ⟨rfl, -⟩ : o = .insertAccessToken token room ∧ HEq k' k := by
    simpa [ht] using ht'.symm
  refine ⟨⟨token, room, m.pre.world.clock⟩, ?_, rfl, rfl⟩
  rw [hpost, resume_world]
  by_cases hx : x.sql = true
  · simp only [exec, hx, if_true, Database.insertAccessToken] at hres ⊢
    split at hres
    · rename_i hin
      rw [dif_pos hin]
      exact List.mem_append_right _ (List.mem_singleton_self _)
    · cases hres
  · simp [exec, hx] at hres

/-- **Tokens are durable.**  In every run, a token in a `joined` frame is sent by the callbacks of a
connection, to that connection; it has been inserted by them before, for the room that the
connection was opened for, and from the insertion on it belongs to that room until the room is
deleted. -/
theorem token_durable (hr : Run (M := server cfg secret) ok (boot db clock) h conf)
    {g g' : List (server cfg secret).Transition} {m : (server cfg secret).Transition} {t : Task}
    {c : Conn} {peerId token : Str} {roomName : Option Str} {history : List (CachedMessage Str)}
    {members : List Str} (hh : h = g ++ m :: g') {x : Unit}
    (hm : m.Calls t (.sendText c (.joined peerId roomName (some token) history members)) x) :
    t = .ws c ∧ ∃ room, home t g = some room ∧ ∃ g₁ m₁ g₂, g = g₁ ++ m₁ :: g₂ ∧
      m₁.Calls t (.insertAccessToken token room) true ∧
      (conf.world.db.roomForToken token = some (cText room) ∨
        ∃ m₂ ∈ g₂ ++ m :: g', ∃ u, m₂.Calls u (.deleteRoom room) true) := by
  subst hh
  obtain ⟨hrun, -, -⟩ := hr.of_append
  obtain ⟨y, k, -, ht, -⟩ := hm
  obtain ⟨d, rfl⟩ : ∃ d, t = .ws d := by
    have hof := (task_only hrun ht).1
    cases t with
    | ws d => exact ⟨d, rfl⟩
    | http n => cases hof
    | purger => cases hof
  obtain ⟨rfl, peer, hfound, hinserted⟩ := (serves_granting hrun d).pre ht c token rfl
  refine ⟨rfl, peer.roomId, ?_, ?_⟩
  · obtain ⟨m₀, hm₀, hcall₀⟩ := mem_calls.mp hfound
    obtain ⟨g₁, g₂, rfl⟩ := List.append_of_mem hm₀
    obtain ⟨hrun₀, -, -⟩ := hrun.of_append
    obtain ⟨_, _, _, _, hpeer⟩ := hcall₀
    have hhome := home_of_peer hrun₀ (show m₀.pre.world.mgr.peers c = some peer from hpeer)
    rw [home, List.findSome?_append]
    rw [home] at hhome
    rw [hhome, Option.some_or]
  · obtain ⟨m₁, hm₁, hcall₁⟩ := mem_calls.mp hinserted
    obtain ⟨g₁, g₂, rfl⟩ := List.append_of_mem hm₁
    refine ⟨g₁, m₁, g₂, rfl, hcall₁, ?_⟩
    rw [List.append_assoc, List.cons_append] at hr
    obtain ⟨-, hs, -⟩ := hr.of_append
    obtain ⟨row, hrow, rfl, hroom⟩ := row_of_inserted hs hcall₁
    rw [← hroom]
    refine (hr.until (P := fun conf : State => row ∈ conf.world.db.accessTokens)
      (fun _ _ _ hs hrow => mem_accessTokens_or_deletes hs hrow) hrow).imp_left ?_
    exact fun hrow => roomForToken_of_mem hrow

end Run

/-- A token is handed out. -/
def Sample.granted : Called (signature Str) → Bool
  | ⟨.sendText _ (.joined _ _ (some _) _ _), _⟩ => true
  | _ => false

/-- A client answers the one challenge of the sample room, and is handed its token. -/
def Sample.isGranted : Script (M := server {} Sample.secret)
    (boot (Sample.store 2 [⟨ascii "p", ascii "c", ascii "n"⟩] []) 0) (fun _ _ => true)
    (fun h _ => (calls (M := server {} Sample.secret) (Task.ws 0) h).any Sample.granted) where
  labels := Sample.opening 0 ++ Sample.handle (.ws 0) (Sample.frame [("type", "hello")]) 7
    ++ Sample.handle (.ws 0) (Sample.frame [("type", "challenge_response"), ("plaintext", "p")]) 10
  performed := by decide +kernel

/-- The token that is handed to the client of the sample room is good, or the room is deleted. -/
theorem token_durable_sample : ∃ (h : List (server {} Sample.secret).Transition) (conf : State)
    (token room : Str), conf.world.db.roomForToken token = some (cText room) ∨
      ∃ m ∈ h, ∃ t, m.Calls t (.deleteRoom room) true := by
  obtain ⟨h, conf, hr, hend⟩ := Sample.isGranted.exists_run fun _ _ _ _ => trivial
  obtain ⟨⟨o, x⟩, he, hgranted⟩ := List.any_eq_true.mp hend
  obtain ⟨m, hm, hcall⟩ := mem_calls.mp he
  obtain ⟨g, g', rfl⟩ := List.append_of_mem hm
  cases o with
  | sendText d f =>
      cases f with
      | joined peerId roomName token history members =>
          cases token with
          | none => cases hgranted
          | some token =>
              obtain ⟨-, room, -, g₁, m₁, g₂, rfl, -, hgood⟩ := token_durable hr rfl hcall
              refine ⟨g₁ ++ m₁ :: g₂ ++ m :: g', conf, token, room, hgood.imp_right ?_⟩
              rintro ⟨m₂, hm₂, hdel⟩
              refine ⟨m₂, ?_, hdel⟩
              rw [List.append_assoc, List.cons_append]
              exact List.mem_append_right _ (List.mem_cons_of_mem _ hm₂)
      | _ => cases hgranted
  | _ => cases hgranted

end HashHush
