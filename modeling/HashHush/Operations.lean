import HashHush.Concurrency.Program
import HashHush.Captcha
import HashHush.Config
import HashHush.Database
import HashHush.Json
import HashHush.Room

/-!
# The shared world and its atomic operations

Everything the handlers share: the store, the room manager, the ledger of spent tokens, the
clock, and what has been handed to Crow for sending.  An operation is one critical section of
the source (a member function of `Database`, a locked block of `RoomManager`, the locked end of
`verifyChallenge`), one draw from the generator, one read of the clock, or one call of Crow.

`exec` is the meaning of the operations.  What the code cannot foresee is in a `Choice`: the
bytes a draw returns and whether the SQL of the operation succeeds.  An operation whose SQL
fails changes nothing and returns what the source returns then.

`insertChallenges` and `consumeChallenge` are transactions of several statements, and here they are
one step that succeeds or fails as a whole.  The statements themselves are in `Statements.lean`;
`insertChallenges_refines` and `consumeChallenge_refines` say that they amount to such a step as long
as they are atomic, which they are unless a `BEGIN`, an `UPDATE`, a `COMMIT` or a `ROLLBACK` fails.
-/

namespace HashHush

open Concurrency

/-! ## What is sent -/

/-- The codes of error frames on the WebSocket. -/
inductive WsError
  | badFrame
  | invalidKey
  | noChallenge
  | notJoined
  | internal
  | badPayload
  | payloadTooLarge
  | unknownType
  deriving DecidableEq

/-- The code as it stands in the frame. -/
def WsError.code : WsError → Str
  | badFrame => ascii "bad_frame"
  | invalidKey => ascii "invalid_key"
  | noChallenge => ascii "no_challenge"
  | notJoined => ascii "not_joined"
  | internal => ascii "internal"
  | badPayload => ascii "bad_payload"
  | payloadTooLarge => ascii "payload_too_large"
  | unknownType => ascii "unknown_type"

/-- The text frames the server sends. -/
inductive Frame (π : Type)
  | error (e : WsError)
  | challenge (ciphertext nonce : Str)
  | joined (peerId : Str) (roomName token : Option Str) (history : List (CachedMessage π))
      (members : List Str)
  | peerJoin (peerId : Str)
  | peerLeave (peerId : Str)
  | msg (peerId : Str) (payload : π) (ts : ℤ)
  | presence (peerId : Str) (payload : π) (ts : ℤ)
  | deleted
  | pong

/-- What a connection is asked to do: send a text frame, or close for a reason. -/
inductive Outgoing (π : Type)
  | text (f : Frame π)
  | close (reason : Str)

/-- The error answers of the HTTP endpoints. -/
inductive HttpError
  | badJson
  | powRequired
  | powInvalid
  | powExpired
  | powReused
  | roomsCapacityReached
  | dbCreateFailed
  | roomNotFound
  | alreadyActivated
  | wrongChallengeCount
  | badChallengeField
  | challengeTooLarge
  | dbInsertFailed
  | dbActivateFailed
  | missingToken
  | invalidToken
  deriving DecidableEq

/-- Status and `error_code` of an error answer. -/
def HttpError.status : HttpError → ℕ × Str
  | badJson => (400, ascii "bad_json")
  | powRequired => (400, ascii "pow_required")
  | powInvalid => (400, ascii "pow_invalid")
  | powExpired => (400, ascii "pow_expired")
  | powReused => (400, ascii "pow_reused")
  | roomsCapacityReached => (503, ascii "rooms_capacity_reached")
  | dbCreateFailed => (500, ascii "db_create_failed")
  | roomNotFound => (404, ascii "room_not_found")
  | alreadyActivated => (409, ascii "already_activated")
  | wrongChallengeCount => (400, ascii "wrong_challenge_count")
  | badChallengeField => (400, ascii "bad_challenge_field")
  | challengeTooLarge => (400, ascii "challenge_too_large")
  | dbInsertFailed => (500, ascii "db_insert_failed")
  | dbActivateFailed => (500, ascii "db_activate_failed")
  | missingToken => (401, ascii "missing_token")
  | invalidToken => (401, ascii "invalid_token")

/-- The answers of the HTTP endpoints. -/
inductive Response
  | error (e : HttpError)
  | ok
  | powChallenge (challenge : Str) (difficulty : ℤ)
  | created (roomId : Str) (maxParticipants challengesRequired : ℤ) (requiresPassword : Bool)
  | alive (alive gone : List Str)
  deriving DecidableEq

/-! ## The world -/

/-- The state the handlers share. -/
structure World (π : Type) where
  db : Database
  mgr : RoomManager π
  ledger : Captcha.Ledger
  clock : ℤ
  /-- Every send and close performed so far, in order. -/
  wire : List (Conn × Outgoing π)
  /-- The connection objects that Crow has deleted. -/
  destroyed : List Conn
  /-- The HTTP answers given so far, by request. -/
  answers : List (ℕ × Response)

/-- What resolves the nondeterminism of one operation. -/
structure Choice where
  /-- The bytes a draw returns. -/
  bytes : ℕ → UInt8
  /-- Whether the SQL of the operation succeeds. -/
  sql : Bool := true

/-- The atomic operations. -/
inductive Op (π : Type)
  | createRoom (row : RoomRow)
  | findRoom (id : Str)
  | deleteRoom (id : Str)
  | countRooms
  | touchRoom (id : Str)
  | roomsIdleSince (cutoff : ℤ)
  | activateRoom (id : Str)
  | insertChallenges (roomId : Str) (pairs : List ChallengePair)
  | consumeChallenge (roomId : Str)
  | insertAccessToken (token roomId : Str)
  | roomForToken (token : Str)
  | onWsAccept (c : Conn) (roomId peerId : Str)
  | onWsClose (c : Conn)
  | findByConn (c : Conn)
  | markPeerJoined (c : Conn) (peerId : Str)
  | setPending (c : Conn) (pendingToken expectedPlaintext : Str)
  | liveCount (roomId : Str)
  | targets (roomId : Str) (except : Option Conn)
  | closeRoom (roomId : Str)
  | appendCachedMessage (roomId senderPeerId : Str) (payload : π) (cacheSize : ℤ)
  | recentMessages (roomId : Str)
  | joinedPeerIds (roomId : Str)
  | commit (nonceHex : Str) (exp now : ℤ)
  | nowSeconds
  | randomBytes (n : ℕ)
  | sendText (c : Conn) (f : Frame π)
  | close (c : Conn) (reason : Str)
  | respond (request : ℕ) (answer : Response)

/-- What an operation returns. -/
@[reducible] def Op.Res {π : Type} : Op π → Type
  | createRoom _ | deleteRoom _ | activateRoom _ | insertChallenges _ _
  | insertAccessToken _ _ | commit _ _ _ => Bool
  | findRoom _ => Option RoomRow
  | countRooms | liveCount _ | nowSeconds => ℤ
  | roomsIdleSince _ | joinedPeerIds _ => List Str
  | consumeChallenge _ => Option ChallengePair
  | roomForToken _ => Option Str
  | onWsClose _ | findByConn _ => Option Peer
  | targets _ _ | closeRoom _ => List Conn
  | recentMessages _ => List (CachedMessage π)
  | randomBytes _ => List UInt8
  | touchRoom _ | onWsAccept _ _ _ | markPeerJoined _ _ | setPending _ _ _
  | appendCachedMessage _ _ _ _ | sendText _ _ | close _ _ | respond _ _ => Unit

/-- The interface of the world to the handlers; the JSON accessors may throw. -/
abbrev signature (π : Type) : Signature := ⟨Op π, Op.Res, JsonError⟩

variable {π : Type}

/-- The meaning of the operations. -/
def exec : (o : Op π) → Choice → World π → o.Res × World π
  | .createRoom row, x, w =>
      if x.sql then ((w.db.createRoom row).1, { w with db := (w.db.createRoom row).2 })
      else (false, w)
  | .findRoom id, x, w => (if x.sql then w.db.findRoom id else none, w)
  | .deleteRoom id, x, w =>
      if x.sql then ((w.db.deleteRoom id).1, { w with db := (w.db.deleteRoom id).2 })
      else (false, w)
  | .countRooms, x, w => (if x.sql then w.db.countRooms else 0, w)
  | .touchRoom id, x, w => ((), if x.sql then { w with db := w.db.touchRoom id w.clock } else w)
  | .roomsIdleSince cutoff, x, w => (if x.sql then w.db.roomsIdleSince cutoff else [], w)
  | .activateRoom id, x, w =>
      if x.sql then
        ((w.db.activateRoom id w.clock).1, { w with db := (w.db.activateRoom id w.clock).2 })
      else (false, w)
  | .insertChallenges roomId pairs, x, w =>
      if x.sql then
        ((w.db.insertChallenges roomId pairs).1,
          { w with db := (w.db.insertChallenges roomId pairs).2 })
      else (false, w)
  | .consumeChallenge roomId, x, w =>
      if x.sql then
        ((w.db.consumeChallenge roomId).1, { w with db := (w.db.consumeChallenge roomId).2 })
      else (none, w)
  | .insertAccessToken token roomId, x, w =>
      if x.sql then
        ((w.db.insertAccessToken token roomId w.clock).1,
          { w with db := (w.db.insertAccessToken token roomId w.clock).2 })
      else (false, w)
  | .roomForToken token, x, w => (if x.sql then w.db.roomForToken token else none, w)
  | .onWsAccept c roomId peerId, _, w => ((), { w with mgr := w.mgr.onWsAccept c roomId peerId })
  | .onWsClose c, _, w => ((w.mgr.onWsClose c).1, { w with mgr := (w.mgr.onWsClose c).2 })
  | .findByConn c, _, w => (w.mgr.findByConn c, w)
  | .markPeerJoined c peerId, _, w => ((), { w with mgr := w.mgr.markPeerJoined c peerId })
  | .setPending c token expected, _, w => ((), { w with mgr := w.mgr.setPending c token expected })
  | .liveCount roomId, _, w => (w.mgr.liveCount roomId, w)
  | .targets roomId except, _, w => (w.mgr.targets roomId except, w)
  | .closeRoom roomId, _, w => ((w.mgr.closeRoom roomId).1, { w with mgr := (w.mgr.closeRoom roomId).2 })
  | .appendCachedMessage roomId sender payload cacheSize, _, w =>
      ((), { w with mgr := w.mgr.appendCachedMessage roomId sender payload cacheSize w.clock })
  | .recentMessages roomId, _, w => (w.mgr.recentMessages roomId, w)
  | .joinedPeerIds roomId, _, w => (w.mgr.joinedPeerIds roomId, w)
  | .commit nonceHex exp now, _, w =>
      ((Captcha.commit w.ledger nonceHex exp now).1,
        { w with ledger := (Captcha.commit w.ledger nonceHex exp now).2 })
  | .nowSeconds, _, w => (w.clock, w)
  | .randomBytes n, x, w => ((List.range n).map x.bytes, w)
  | .sendText c f, _, w => ((), { w with wire := w.wire ++ [(c, .text f)] })
  | .close c reason, _, w => ((), { w with wire := w.wire ++ [(c, .close reason)] })
  | .respond n answer, _, w => ((), { w with answers := w.answers ++ [(n, answer)] })

/-! ## What the operations leave alone -/

/-- The connection whose record an operation writes. -/
def Op.writes : Op π → Option Conn
  | .onWsAccept c _ _ | .onWsClose c | .markPeerJoined c _ | .setPending c _ _ => some c
  | _ => none

lemma exec_clock (o : Op π) (x : Choice) (w : World π) : (exec o x w).2.clock = w.clock := by
  cases o <;> simp only [exec] <;> split <;> rfl

lemma exec_destroyed (o : Op π) (x : Choice) (w : World π) :
    (exec o x w).2.destroyed = w.destroyed := by
  cases o <;> simp only [exec] <;> split <;> rfl

/-- What an operation asks of Crow. -/
def Op.outgoing : Op π → Option (Conn × Outgoing π)
  | .sendText c f => some (c, .text f)
  | .close c reason => some (c, .close reason)
  | _ => none

lemma exec_wire_eq (o : Op π) (x : Choice) (w : World π) :
    (exec o x w).2.wire = w.wire ++ o.outgoing.toList := by
  cases o with
  | sendText c f => rfl
  | close c reason => rfl
  | _ =>
      simp only [exec, Op.outgoing, Option.toList_none, List.append_nil]
      try split
      all_goals rfl

/-- What has been sent stays sent. -/
lemma exec_wire (o : Op π) (x : Choice) (w : World π) : w.wire ⊆ (exec o x w).2.wire := by
  rw [exec_wire_eq]
  exact List.subset_append_left _ _

/-- An operation leaves the records of all connections but one alone. -/
lemma exec_peers {o : Op π} {c : Conn} (h : o.writes ≠ some c) (x : Choice) (w : World π) :
    (exec o x w).2.mgr.peers c = w.mgr.peers c := by
  have hne : ∀ e : Conn, some e ≠ some c → c ≠ e := fun e he hce => he (hce ▸ rfl)
  cases o with
  | onWsAccept e r id =>
      simp only [exec, RoomManager.onWsAccept]
      cases w.mgr.peers e with
      | none => exact Function.update_of_ne (hne e h) _ _
      | some p => rfl
  | onWsClose e =>
      simp only [exec, RoomManager.peers_onWsClose]
      exact Function.update_of_ne (hne e h) _ _
  | markPeerJoined e id => exact Function.update_of_ne (hne e h) _ _
  | setPending e t p => exact Function.update_of_ne (hne e h) _ _
  | closeRoom r => rfl
  | appendCachedMessage r s p n => simp [exec]
  | _ => simp only [exec] <;> split <;> rfl

/-- Rooms come and go by `createRoom` and `deleteRoom` alone. -/
lemma exec_roomIds (o : Op π) (x : Choice) (w : World π) :
    (exec o x w).2.db.roomIds = w.db.roomIds ∨
    (∃ row, o = .createRoom row ∧ (exec o x w).2.db.roomIds = w.db.roomIds ++ [row.id]) ∨
    ∃ id, o = .deleteRoom id ∧ x.sql = true ∧
      (exec o x w).2.db.roomIds = w.db.roomIds.filter (· ≠ id) := by
  cases hx : x.sql with
  | false =>
      refine .inl ?_
      cases o <;> simp [exec, hx]
  | true =>
      cases o with
      | createRoom row =>
          rcases w.db.roomIds_createRoom row with h | h
          · exact .inl (by simpa [exec, hx] using h)
          · exact .inr (.inl ⟨row, rfl, by simpa [exec, hx] using h⟩)
      | deleteRoom id =>
          refine .inr (.inr ⟨id, rfl, rfl, ?_⟩)
          simpa [exec, hx] using w.db.roomIds_deleteRoom id
      | touchRoom id => exact .inl (by simpa [exec, hx] using w.db.roomIds_touchRoom id _)
      | activateRoom id => exact .inl (by simpa [exec, hx] using w.db.roomIds_activateRoom id _)
      | insertChallenges id pairs =>
          refine .inl ?_
          simp only [exec, hx, Database.insertChallenges, if_true]
          split <;> rfl
      | consumeChallenge id =>
          refine .inl ?_
          simp only [exec, hx, Database.consumeChallenge, if_true]
          cases w.db.nextUnused id <;> rfl
      | insertAccessToken t id =>
          refine .inl ?_
          simp only [exec, hx, Database.insertAccessToken, if_true]
          split <;> rfl
      | _ => exact .inl rfl

/-- Cached messages come by `appendCachedMessage` and go by `closeRoom` alone. -/
lemma exec_msgCache (o : Op π) (x : Choice) (w : World π) :
    (exec o x w).2.mgr.msgCache = w.mgr.msgCache ∨
    (∃ r sender payload n messages, o = .appendCachedMessage r sender payload n ∧ 0 < n ∧
      (exec o x w).2.mgr.msgCache = Function.update w.mgr.msgCache r (some messages)) ∨
    ∃ r, o = .closeRoom r ∧
      (exec o x w).2.mgr.msgCache = Function.update w.mgr.msgCache r none := by
  cases o with
  | appendCachedMessage r sender payload n =>
      by_cases hn : n ≤ 0
      · exact .inl (by simp [exec, RoomManager.appendCachedMessage, hn])
      · obtain ⟨messages, h⟩ :=
          w.mgr.msgCache_appendCachedMessage r sender payload (by omega : 0 < n) w.clock
        exact .inr (.inl ⟨r, sender, payload, n, messages, rfl, by omega, h⟩)
  | closeRoom r => exact .inr (.inr ⟨r, rfl, rfl⟩)
  | onWsClose c =>
      refine .inl ?_
      simp only [exec, RoomManager.onWsClose]
      split <;> rfl
  | onWsAccept c r id => exact .inl rfl
  | markPeerJoined c id => exact .inl rfl
  | setPending c t e => exact .inl rfl
  | _ =>
      refine .inl ?_
      simp only [exec]
      try split
      all_goals rfl

/-- The room whose `last_active_at` an operation sets when its SQL succeeds, and the value. -/
def Op.stamp (w : World π) : Op π → Option (Str × ℤ)
  | .touchRoom id | .activateRoom id => if id ∈ w.db.roomIds then some (id, w.clock) else none
  | .createRoom row => if row.id ∈ w.db.roomIds then none else some (row.id, row.lastActiveAt)
  | _ => none

/-- A room keeps its `last_active_at`, unless the operation sets it. -/
lemma exec_stamp (o : Op π) (x : Choice) (w : World π) {row : RoomRow}
    (hrow : row ∈ (exec o x w).2.db.rooms) :
    (∃ row' ∈ w.db.rooms, row'.id = row.id ∧ row'.lastActiveAt = row.lastActiveAt) ∨
      (x.sql = true ∧ o.stamp w = some (row.id, row.lastActiveAt)) := by
  have hkept : row ∈ w.db.rooms → (∃ row' ∈ w.db.rooms, row'.id = row.id ∧
      row'.lastActiveAt = row.lastActiveAt) := fun h => ⟨row, h, rfl, rfl⟩
  cases hx : x.sql with
  | false =>
      refine .inl (hkept ?_)
      cases o <;> simpa [exec, hx] using hrow
  | true =>
      cases o with
      | touchRoom id =>
          simp only [exec, hx, if_true] at hrow
          rcases w.db.mem_rooms_touchRoom hrow with h | ⟨hid, hin, hstamp⟩
          · exact .inl (hkept h)
          · exact .inr ⟨rfl, (if_pos hin).trans (by rw [hid, hstamp])⟩
      | activateRoom id =>
          simp only [exec, hx, if_true] at hrow
          rcases w.db.mem_rooms_activateRoom hrow with h | ⟨hid, hin, hstamp⟩
          · exact .inl (hkept h)
          · exact .inr ⟨rfl, (if_pos hin).trans (by rw [hid, hstamp])⟩
      | createRoom r =>
          simp only [exec, hx, if_true, Database.createRoom] at hrow
          split at hrow
          · exact .inl (hkept hrow)
          · rename_i hout
            rcases List.mem_append.mp hrow with h | h
            · exact .inl (hkept h)
            · obtain rfl := List.mem_singleton.mp h
              exact .inr ⟨rfl, if_neg hout⟩
      | deleteRoom id =>
          simp only [exec, hx, if_true, Database.deleteRoom] at hrow
          exact .inl (hkept (List.mem_filter.mp hrow).1)
      | insertChallenges id pairs =>
          refine .inl (hkept ?_)
          simp only [exec, hx, if_true, Database.insertChallenges] at hrow
          split at hrow <;> exact hrow
      | consumeChallenge id =>
          refine .inl (hkept ?_)
          simp only [exec, hx, if_true, Database.consumeChallenge] at hrow
          split at hrow <;> exact hrow
      | insertAccessToken t id =>
          refine .inl (hkept ?_)
          simp only [exec, hx, if_true, Database.insertAccessToken] at hrow
          split at hrow <;> exact hrow
      | _ => exact .inl (hkept hrow)

end HashHush
