import HashHush.Operations

/-!
# The handlers

The callbacks of the WebSocket route and of the HTTP routes in `webapi.cpp`, the parts of
`RoomManager` that run outside its mutex, `captcha::verifyChallenge` and the pass of the purger
thread, each as a program over the operations.  Between two calls of a program anything that
another thread does may happen.

A WebSocket callback works with `peer`, the copy of its record that `findByConn` returned.  The
source holds a pointer; the fields read through it are written by the callbacks of the same
connection only, which never run at the same time.

The payload of a message enters as a string and is stored and sent as `wrap payload`; the
server itself runs with `wrap` the identity.
-/

namespace HashHush

open Concurrency

variable {π : Type}

/-- A program of the server. -/
abbrev Handler (π α : Type) := Prog (signature π) α

/-- Call an operation. -/
abbrev call (o : Op π) : Handler π o.Res := .perform (S := signature π) o

/-- Evaluate a JSON accessor, which may throw. -/
abbrev json {α : Type} (a : Except JsonError α) : Handler π α := .ofExcept (S := signature π) a

lemma run_call (o : Op π) (xs : ℕ → Choice) (w : World π) : (call o).run exec xs w
    = (.ok (exec o (xs 0) w).1, (exec o (xs 0) w).2) := rfl

/-- A handler that is run alone performs its first call. -/
lemma run_call_bind {α : Type} (o : Op π) (f : o.Res → Handler π α) (xs : ℕ → Choice)
    (w : World π) : (call o >>= f).run exec xs w
      = (f (exec o (xs 0) w).1).run exec (fun n => xs (n + 1)) (exec o (xs 0) w).2 := rfl

/-- An accessor that does not throw is its value. -/
lemma json_ok_bind {α β : Type} (a : α) (f : α → Handler π β) : (json (.ok a) >>= f) = f a := rfl

/-! ## Sending to many connections -/

/-- Send a frame to each connection in turn. -/
def sendEach (frame : Frame π) : List Conn → Handler π Unit
  | [] => .ret ()
  | c :: cs => do
      call (.sendText c frame)
      sendEach frame cs

/-- `RoomManager::broadcast`: collect the targets under the mutex, send after releasing it. -/
def broadcast (roomId : Str) (frame : Frame π) (except : Option Conn) : Handler π Unit := do
  let targets : List Conn ← call (.targets roomId except)
  sendEach frame targets

/-- Send a frame to each connection in turn and close it. -/
def closeEach (frame : Frame π) : List Conn → Handler π Unit
  | [] => .ret ()
  | c :: cs => do
      call (.sendText c frame)
      call (.close c (ascii "room deleted"))
      closeEach frame cs

/-- `RoomManager::closeRoom`. -/
def closeRoom (roomId : Str) (reasonFrame : Frame π) : Handler π Unit := do
  let targets : List Conn ← call (.closeRoom roomId)
  closeEach reasonFrame targets

/-! ## The WebSocket: opening and closing -/

/-- `onaccept` and `onopen`: any non-empty room id is accepted, whether or not the room exists. -/
def onopen (c : Conn) (room : Option Str) : Handler π Unit :=
  let roomId := room.getD []
  if roomId = [] then .ret ()
  else do
    let bytes : List UInt8 ← call (.randomBytes 8)
    call (.onWsAccept c roomId (toHex bytes))

/-- `RoomManager::onWsClose`, which `onclose` and `onerror` run. -/
def onclose (c : Conn) : Handler π Unit := do
  let peer : Option Peer ← call (.onWsClose c)
  match peer with
  | none => .ret ()
  | some p => if p.joined then broadcast p.roomId (.peerLeave p.peerId) none else .ret ()

/-! ## The WebSocket: a frame -/

/-- What the message handler is given: the number of bytes received and what
`crow::json::load` makes of them. -/
structure Inbound where
  size : ℕ
  json : Option Json

/-- The helper `sendErr`. -/
def sendErr (c : Conn) (e : WsError) : Handler π Unit := call (.sendText c (.error e))

/-- The helper `sendErrAndClose`. -/
def sendErrAndClose (c : Conn) (e : WsError) : Handler π Unit := do
  sendErr c e
  call (.close c e.code)

/-- What `finalizeJoin` does once the peer is promoted: send the joiner its snapshot of the room
and tell the others. -/
def announceJoin (c : Conn) (roomId newPeerId : Str) (token : Option Str) : Handler π Unit := do
  let roomRow : Option RoomRow ← call (.findRoom roomId)
  let history : List (CachedMessage π) ← call (.recentMessages roomId)
  let members : List Str ← call (.joinedPeerIds roomId)
  call (.sendText c (.joined newPeerId (roomRow.map RoomRow.name) token history members))
  broadcast roomId (.peerJoin newPeerId) (some c)
  call (.touchRoom roomId)

/-- The helper `finalizeJoin`. -/
def finalizeJoin (c : Conn) (peer : Peer) (token : Str) (isFresh : Bool) : Handler π Unit := do
  let newPeerId := peerIdFromToken token
  call (.markPeerJoined c newPeerId)
  announceJoin c peer.roomId newPeerId (if isFresh then some token else none)

/-- `hello` with a token. -/
def helloWithToken (c : Conn) (peer : Peer) (token : Str) : Handler π Unit := do
  let owner : Option Str ← call (.roomForToken token)
  if owner = some peer.roomId then finalizeJoin c peer token false
  else sendErrAndClose c .invalidKey

/-- The challenge of a room that exists, is not full and has an unused one. -/
def takeChallenge (roomId : Str) : Handler π (Option ChallengePair) := do
  let roomRow : Option RoomRow ← call (.findRoom roomId)
  match roomRow with
  | none => .ret none
  | some row => do
      let live : ℤ ← call (.liveCount roomId)
      if live ≥ row.maxParticipants then .ret none else call (.consumeChallenge roomId)

/-- A challenge of random bytes, sent where no real one can be. -/
def decoyChallenge : Handler π ChallengePair := do
  let plaintext : List UInt8 ← call (.randomBytes 32)
  let ciphertext : List UInt8 ← call (.randomBytes 48)
  let nonce : List UInt8 ← call (.randomBytes 24)
  .ret ⟨base64Encode plaintext, base64Encode ciphertext, base64Encode nonce⟩

/-- `hello` without a token: remember what is expected and send the challenge. -/
def sendChallenge (c : Conn) (pair : ChallengePair) : Handler π Unit := do
  let bytes : List UInt8 ← call (.randomBytes 32)
  call (.setPending c (toHex bytes) pair.plaintextB64)
  call (.sendText c (.challenge pair.ciphertextB64 pair.nonceB64))

/-- `hello` without a token. -/
def helloWithoutToken (c : Conn) (peer : Peer) : Handler π Unit := do
  match ← takeChallenge peer.roomId with
  | some pair => sendChallenge c pair
  | none => do
      let pair ← decoyChallenge
      sendChallenge c pair

/-- What follows once it is known whether there is a challenge to send. -/
def offerChallenge (c : Conn) : Option ChallengePair → Handler π Unit
  | some pair => sendChallenge c pair
  | none => do
      let pair ← decoyChallenge
      sendChallenge c pair

lemma helloWithoutToken_eq (c : Conn) (peer : Peer) : (helloWithoutToken c peer : Handler π Unit)
    = takeChallenge peer.roomId >>= offerChallenge c := rfl

/-- `challenge_response`. -/
def challengeResponse (c : Conn) (peer : Peer) (answer : Str) : Handler π Unit :=
  if peer.pendingToken = [] ∨ peer.expectedPlaintext = [] then sendErrAndClose c .noChallenge
  else do
    call (.setPending c [] [])
    if answer = [] ∨ answer ≠ peer.expectedPlaintext then sendErrAndClose c .invalidKey
    else do
      let inserted : Bool ← call (.insertAccessToken peer.pendingToken peer.roomId)
      if inserted then finalizeJoin c peer peer.pendingToken true
      else sendErrAndClose c .internal

/-- A frame of a connection that has not joined. -/
def unjoined (c : Conn) (peer : Peer) (j : Json) (type : Str) : Handler π Unit :=
  if type = ascii "hello" then do
    let token ← json (j.js_str (ascii "token"))
    if token ≠ [] then helloWithToken c peer token else helloWithoutToken c peer
  else if type = ascii "challenge_response" then do
    let answer ← json (j.js_str (ascii "plaintext"))
    challengeResponse c peer answer
  else sendErrAndClose c .notJoined

/-- Relay a chat message: cache it and send it to every joined peer of the room. -/
def relayMsg (cfg : Config) (peer : Peer) (payload : π) : Handler π Unit := do
  call (.appendCachedMessage peer.roomId peer.peerId payload cfg.messageCacheSize)
  call (.touchRoom peer.roomId)
  let ts : ℤ ← call .nowSeconds
  broadcast peer.roomId (.msg peer.peerId payload ts) none

/-- Relay ephemeral metadata to the other joined peers of the room. -/
def relayPresence (c : Conn) (peer : Peer) (payload : π) : Handler π Unit := do
  let ts : ℤ ← call .nowSeconds
  broadcast peer.roomId (.presence peer.peerId payload ts) (some c)

/-- A frame of a connection that has joined. -/
def joined (cfg : Config) (wrap : Str → π) (c : Conn) (peer : Peer) (j : Json) (type : Str) :
    Handler π Unit :=
  if type = ascii "msg" ∨ type = ascii "presence" then do
    let payload ← json (j.js_str (ascii "payload"))
    if payload = [] then sendErr c .badPayload
    else if castInt payload.length > cfg.wsMaxPayloadBytes then sendErr c .payloadTooLarge
    else if type = ascii "msg" then relayMsg cfg peer (wrap payload)
    else relayPresence c peer (wrap payload)
  else if type = ascii "ping" then call (.sendText c .pong)
  else sendErr c .unknownType

/-- `onmessage`. -/
def onmessage (cfg : Config) (wrap : Str → π) (c : Conn) (data : Inbound) : Handler π Unit :=
  if castInt data.size > cfg.wsMaxPayloadBytes then call (.close c (ascii "payload too large"))
  else do
    let peer : Option Peer ← call (.findByConn c)
    match peer with
    | none => call (.close c (ascii "no peer"))
    | some peer =>
        match data.json with
        | none => sendErr c .badFrame
        | some j => do
            if ← json (j.has (ascii "type")) then
              let type ← json (j.at' (ascii "type"))
              let type ← json type.s
              if peer.joined then joined cfg wrap c peer j type else unjoined c peer j type
            else sendErr c .badFrame

/-! ## The captcha -/

/-- `captcha::issueChallenge`. -/
def issueChallenge (secret : List UInt8) (validityWindowSeconds : ℤ := 60) : Handler π Str := do
  let nonceBytes : List UInt8 ← call (.randomBytes 16)
  let now : ℤ ← call .nowSeconds
  let payload := toHex nonceBytes ++ [Captcha.colon]
    ++ ascii (toString (now + validityWindowSeconds))
  .ret (payload ++ [Captcha.colon] ++ Captcha.hmacHex secret payload)

/-- `captcha::verifyChallenge`: the clock is read once, before the ledger is locked. -/
def verifyChallenge (secret : List UInt8) (challenge nonce : Str) (difficultyBits : ℤ) :
    Handler π Captcha.VerifyResult :=
  match Captcha.split3 challenge with
  | none => .ret .malformed
  | some (nonceHex, expStr, macHex) =>
      if nonceHex = [] ∨ expStr = [] ∨ macHex = [] then .ret .malformed
      else if Captcha.ctEqualStr (Captcha.hmacHex secret (nonceHex ++ [Captcha.colon] ++ expStr))
          macHex = false then .ret .badHmac
      else match Captcha.stoll expStr with
        | none => .ret .malformed
        | some exp => do
            let now : ℤ ← call .nowSeconds
            if exp ≤ now then .ret .expired
            else if Captcha.meetsDifficulty (Captcha.proofDigest challenge nonce) difficultyBits
                = false then .ret .badProof
            else
              let inserted : Bool ← call (.commit nonceHex exp now)
              if inserted then .ret .ok else .ret .reused

/-! ## The HTTP routes -/

/-- Answer request `n` with an error. -/
def jsonError (n : ℕ) (e : HttpError) : Handler π Unit := call (.respond n (.error e))

/-- `GET /api/pow_challenge`. -/
def getPowChallenge (cfg : Config) (secret : List UInt8) (n : ℕ) : Handler π Unit := do
  let challenge ← issueChallenge secret
  call (.respond n (.powChallenge challenge cfg.powDifficultyBits))

/-- The rest of `POST /api/rooms` once the proof of work has been accepted. -/
def createRoom (cfg : Config) (n : ℕ) (body : Json) : Handler π Unit := do
  let name ← json (body.js_str (ascii "name") (ascii "Secret chat"))
  let capacity := min cfg.maxParticipants cfg.maxParticipantsCap
  let requiresPassword ← json (body.js_bool (ascii "requires_password") false)
  let count ← (if cfg.totalRoomsCap > 0 then call .countRooms else .ret 0 : Handler π ℤ)
  if cfg.totalRoomsCap > 0 ∧ count ≥ cfg.totalRoomsCap then jsonError n .roomsCapacityReached
  else
    let bytes : List UInt8 ← call (.randomBytes 8)
    let now : ℤ ← call .nowSeconds
    let inserted : Bool ← call (.createRoom ⟨roomIdOfBytes bytes, name.take 80, capacity, now, now,
      false, requiresPassword⟩)
    if inserted then
      call (.respond n (.created (roomIdOfBytes bytes) capacity
        (wrapInt (capacity * if requiresPassword then 10 else 5)) requiresPassword))
    else jsonError n .dbCreateFailed

/-- `POST /api/rooms`. -/
def postRooms (cfg : Config) (secret : List UInt8) (n : ℕ) (body : Option Json) :
    Handler π Unit :=
  match body with
  | none => jsonError n .badJson
  | some body => do
      if ← json (body.has (ascii "pow")) then
        match ← json (body.at' (ascii "pow")) with
        | .object pow => do
            let challenge ← json ((Json.object pow).js_str (ascii "challenge"))
            let nonce ← json ((Json.object pow).js_str (ascii "nonce"))
            if challenge = [] ∨ nonce = [] then jsonError n .powRequired
            else if challenge.length > 256 ∨ nonce.length > 64 then jsonError n .powInvalid
            else
              match ← verifyChallenge secret challenge nonce cfg.powDifficultyBits with
              | .ok => createRoom cfg n body
              | .expired => jsonError n .powExpired
              | .reused => jsonError n .powReused
              | .malformed | .badHmac | .badProof => jsonError n .powInvalid
        | _ => jsonError n .powRequired
      else jsonError n .powRequired

/-- The loop of the activate handler over the uploaded triples. -/
def challengePairs (cfg : Config) :
    List Json → Except JsonError (Except HttpError (List ChallengePair))
  | [] => .ok (.ok [])
  | el :: els => do
      let plaintext ← el.js_str (ascii "plaintext")
      let ciphertext ← el.js_str (ascii "ciphertext")
      let nonce ← el.js_str (ascii "nonce")
      let cap := wrapInt (cfg.challengeMaxBlobBytes * 2)
      if plaintext = [] ∨ ciphertext = [] ∨ nonce = [] then return .error .badChallengeField
      else if castInt plaintext.length > cap ∨ castInt ciphertext.length > cap
          ∨ castInt nonce.length > cap then return .error .challengeTooLarge
      else match ← challengePairs cfg els with
        | .error e => return .error e
        | .ok pairs => return .ok (⟨plaintext, ciphertext, nonce⟩ :: pairs)

/-- The size of the pool that a room is meant to have. -/
def poolCap (row : RoomRow) : ℤ := row.maxParticipants * if row.requiresPassword then 10 else 5

/-- How many challenges an upload must have: the size of the pool, as an `int`. -/
def required (row : RoomRow) : ℤ := wrapInt (poolCap row)

/-- The last step of the activate handler. -/
def finishActivation (n : ℕ) (id : Str) : Handler π Unit := do
  let activated : Bool ← call (.activateRoom id)
  if activated then call (.respond n .ok) else jsonError n .dbActivateFailed

/-- Store the pool, then activate the room. -/
def storePool (n : ℕ) (id : Str) (pairs : List ChallengePair) : Handler π Unit := do
  let inserted : Bool ← call (.insertChallenges id pairs)
  if inserted then finishActivation n id else jsonError n .dbInsertFailed

/-- The part of the activate handler that looks at the body: the triples to store, or the error
to answer. -/
def checkPool (cfg : Config) (row : RoomRow) (body : Option Json) :
    Except JsonError (Except HttpError (List ChallengePair)) :=
  match body with
  | none => .ok (.error .badJson)
  | some body => do
      if ← body.has (ascii "challenges") then
        match ← body.at' (ascii "challenges") with
        | .list arr =>
            if castInt arr.length ≠ required row then return .error .wrongChallengeCount
            else challengePairs cfg arr
        | _ => return .error .badJson
      else return .error .badJson

/-- `POST /api/rooms/<id>/activate`. -/
def activate (cfg : Config) (n : ℕ) (id : Str) (body : Option Json) : Handler π Unit := do
  let roomOpt : Option RoomRow ← call (.findRoom id)
  match roomOpt with
  | none => jsonError n .roomNotFound
  | some row =>
      if row.activated then jsonError n .alreadyActivated
      else
        match ← json (checkPool cfg row body) with
        | .error e => jsonError n e
        | .ok pairs => storePool n id pairs

/-- The loop of the status check over the submitted ids. -/
def aliveAndGone : List Json → Handler π (List Str × List Str)
  | [] => .ret ([], [])
  | .string id :: items => do
      let room : Option RoomRow ← call (.findRoom id)
      let (alive, gone) ← aliveAndGone items
      .ret (if room.isSome then (id :: alive, gone) else (alive, id :: gone))
  | _ :: items => aliveAndGone items

/-- The items submitted for a status check. -/
def submittedIds : Option Json → Except JsonError (List Json)
  | none => .ok []
  | some body => do
      if ← body.has (ascii "room_ids") then
        match ← body.at' (ascii "room_ids") with
        | .list items => return items
        | _ => return []
      else return []

/-- `POST /api/is_alive`. -/
def isAlive (n : ℕ) (body : Option Json) : Handler π Unit := do
  let items ← json (submittedIds body)
  let (alive, gone) ← aliveAndGone items
  call (.respond n (.alive alive gone))

/-- Evict the peers of a room and remove its rows. -/
def removeRoom (id : Str) : Handler π Unit := do
  closeRoom id .deleted
  let _ ← call (.deleteRoom id)

/-- `DELETE /api/rooms/<id>`. -/
def deleteRoom (n : ℕ) (id : Str) (body : Option Json) : Handler π Unit :=
  match body with
  | none => jsonError n .badJson
  | some body => do
      let token ← json (body.js_str (ascii "token"))
      if token = [] then jsonError n .missingToken
      else
        let owner : Option Str ← call (.roomForToken token)
        if owner = some id then do
          removeRoom id
          call (.respond n .ok)
        else jsonError n .invalidToken

/-! ## The purger thread -/

/-- Remove the stale rooms one by one. -/
def purgeEach : List Str → Handler π Unit
  | [] => .ret ()
  | id :: ids => do
      removeRoom id
      purgeEach ids

/-- One pass of the purger. -/
def purge (cfg : Config) : Handler π Unit := do
  let now : ℤ ← call .nowSeconds
  let stale : List Str ← call (.roomsIdleSince (now - cfg.idleTtlSeconds))
  purgeEach stale

end HashHush
