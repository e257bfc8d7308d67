import HashHush.Web.ChatClient
import HashHush.Web.JsJson
import HashHush.Web.TextDecoder

/-!
# Chat content

The part of `ChatClient` in `lib/ws.js` that carries content: `sendChat` and `announcePresence` with
the encryption behind them, and what `#onFrame` calls the view back with.  What the browser throws
inside `#decryptPayload` is caught there, so that the result is `none` for it as for `null`.
-/

namespace HashHush.Web

/-- A client with its nickname and the id that the server gave it. -/
structure ContentClient extends ChatClient where
  nickname : JsString
  peerId : Option Str := none

/-- A message with content, as `ws.send` is given it. -/
structure ContentMessage where
  type : Str
  payload : Str

/-- The fields of the object, as the server reads them. -/
def ContentMessage.fields (m : ContentMessage) : List (Str × Json) :=
  [(ascii "type", .string m.type), (ascii "payload", .string m.payload)]

/-- An entry of the history that is handed to the view. -/
structure HistoryItem where
  peerId : Option Str
  fromSelf : Bool
  text : Option JsValue
  nick : Option JsValue
  ts : ℤ

/-- The callbacks of the view.  What an object lacks is `undefined`. -/
inductive Callback
  | onJoined (peerId : Str) (token : Option Str) (roomName : Str) (members : List Str)
      (history : List HistoryItem)
  | onMessage (peerId : Str) (fromSelf : Bool) (text nick : Option JsValue) (ts : ℤ)
  | onPresence (peerId : Str) (nick : Option JsValue)
  | onPeerJoin (peerId : Str)
  | onPeerLeave (peerId : Str)
  | onDeleted
  | onError (code : Str)

/-- The field of the name. -/
def JsValue.field (obj : JsValue) (name : String) : Option JsValue := obj.get? (text (ascii name))

/-- `obj.kind === kind`. -/
def JsValue.hasKind (obj : JsValue) (kind : String) : Bool :=
  match obj.field "kind" with
  | some (.string s) => s = text (ascii kind)
  | _ => false

namespace ContentClient

variable (c : ContentClient) (S : Sodium)

/-- The length of a nonce. -/
def NPUB : ℕ := 24

/-- `#sendEncrypted` with the nonce it drew; `none` where nothing is sent. -/
def sendEncrypted (nonce : List UInt8) (wsType : String) (payloadObj : List (JsString × JsString)) :
    Option ContentMessage :=
  if !c.joined then none
  else do
    let bytes := encode (JSON.stringify payloadObj)
    let key ← c.key
    let ciphertext := S.encrypt bytes nonce key
    return ⟨ascii wsType, S.toB64 (nonce ++ ciphertext)⟩

def chatObj (message nick : JsString) : List (JsString × JsString) :=
  [(text (ascii "kind"), text (ascii "chat")), (text (ascii "text"), message),
    (text (ascii "nick"), nick)]

def presenceObj (nick : JsString) : List (JsString × JsString) :=
  [(text (ascii "kind"), text (ascii "presence")), (text (ascii "nick"), nick)]

def sendChat (nonce : List UInt8) (message : JsString) : Option ContentMessage :=
  c.sendEncrypted S nonce "msg" (chatObj message c.nickname)

def announcePresence (nonce : List UInt8) : Option ContentMessage :=
  c.sendEncrypted S nonce "presence" (presenceObj c.nickname)

/-- `#decryptPayload`. -/
def decryptPayload (b64 : JsString) : Option JsValue := do
  let blob ← S.fromB64 (encode b64)
  let nonce := blob.take NPUB
  let ct := blob.drop NPUB
  let key ← c.key
  let pt ← S.decrypt ct nonce key
  let obj ← JSON.parse (decode pt)
  if obj.hasKind "chat" || obj.hasKind "presence" then some obj else none

/-- An entry of the history of a `joined` frame. -/
def historyItem (peerId : Str) (m : CachedMessage JsString) : Option HistoryItem :=
  match c.decryptPayload S m.payloadB64 with
  | none => none
  | some obj =>
      if obj.hasKind "chat" then
        some ⟨truthy (some m.senderPeerId), m.senderPeerId ≠ [] && m.senderPeerId = peerId,
          obj.field "text", obj.field "nick", m.createdAt⟩
      else none

/-- The callbacks of `#onFrame`. -/
def callbacks : Frame JsString → List Callback
  | .challenge ciphertext nonce =>
      match c.solve S ciphertext nonce with
      | some _ => []
      | none => [.onError (ascii "invalid_key")]
  | .joined peerId roomName token history members =>
      [.onJoined peerId (truthy token <|> c.token) (roomName.getD []) members
        (history.filterMap (c.historyItem S peerId))]
  | .msg peerId payload ts =>
      match c.decryptPayload S payload with
      | none => []
      | some obj =>
          if obj.hasKind "chat" then
            [.onMessage peerId (c.peerId = some peerId) (obj.field "text") (obj.field "nick") ts]
          else []
  | .presence peerId payload _ =>
      match c.decryptPayload S payload with
      | none => []
      | some obj =>
          if obj.hasKind "presence" then [.onPresence peerId (obj.field "nick")] else []
  | .peerJoin peerId => [.onPeerJoin peerId]
  | .peerLeave peerId => [.onPeerLeave peerId]
  | .deleted => [.onDeleted]
  | .error e => [.onError e.code]
  | .pong => []

end ContentClient

/-! ## What the handshake sees of it -/

/-- A frame of the server, with its payloads as the page reads them. -/
def readFrame : Frame Str → Frame JsString
  | .error e => .error e
  | .challenge ciphertext nonce => .challenge ciphertext nonce
  | .joined peerId roomName token history members =>
      .joined peerId roomName token
        (history.map fun m => ⟨m.senderPeerId, text m.payloadB64, m.createdAt⟩) members
  | .peerJoin peerId => .peerJoin peerId
  | .peerLeave peerId => .peerLeave peerId
  | .msg peerId payload ts => .msg peerId (text payload) ts
  | .presence peerId payload ts => .presence peerId (text payload) ts
  | .deleted => .deleted
  | .pong => .pong

/-- The callbacks that the handshake is about. -/
def Callback.report : Callback → Option Report
  | .onJoined _ token _ _ _ => some (.joined token)
  | .onDeleted => some .deleted
  | .onError code => some (.error code)
  | .onMessage _ _ _ _ _ | .onPresence _ _ | .onPeerJoin _ | .onPeerLeave _ => none

/-- The client of the handshake reports what the callbacks of this one say about it. -/
lemma ContentClient.filterMap_report (c : ContentClient) (S : Sodium) (f : Frame Str) :
    (c.callbacks S (readFrame f)).filterMap Callback.report
      = (c.toChatClient.onFrame S f).2.toList := by
  cases f with
  | challenge ciphertext nonce =>
      simp only [readFrame, callbacks, ChatClient.onFrame]
      cases c.solve S ciphertext nonce <;> rfl
  | msg peerId payload ts =>
      simp only [readFrame, callbacks, ChatClient.onFrame]
      split
      · rfl
      · split <;> rfl
  | presence peerId payload ts =>
      simp only [readFrame, callbacks, ChatClient.onFrame]
      split
      · rfl
      · split <;> rfl
  | _ => rfl

end HashHush.Web
