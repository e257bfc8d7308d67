import HashHush.Handlers
import HashHush.Web.Crypto
import HashHush.Web.Storage

/-!
# The protocol client of the page

`ChatClient` of `lib/ws.js`: one WebSocket, with the join handshake behind it.  The handlers of
the socket's events are functions of the client; what they report to the view is their second
result.  libsodium is ready before a view is mounted, so a handler runs to its end before the
next event, its awaits notwithstanding.

Of the frames that only carry chat content or members to the view nothing is kept here, and
neither are the presence frames that answer them.
-/

namespace HashHush.Web

/-- `WebSocket.readyState`. -/
inductive ReadyState
  | connecting
  | opened
  | closing
  | closed
  deriving DecidableEq

/-- The messages of the handshake. -/
inductive ClientMessage
  | hello (token : Option Str)
  | challengeResponse (plaintext : Str)
  deriving DecidableEq

namespace ClientMessage

/-- `JSON.stringify`; tokens and base64 need no escapes. -/
def text : ClientMessage → Str
  | hello none => ascii "\x7b\"type\":\"hello\"\x7d"
  | hello (some token) =>
      ascii "\x7b\"type\":\"hello\",\"token\":\"" ++ token ++ ascii "\"\x7d"
  | challengeResponse plaintext =>
      ascii "\x7b\"type\":\"challenge_response\",\"plaintext\":\"" ++ plaintext
        ++ ascii "\"\x7d"

/-- The fields of the object. -/
def fields : ClientMessage → List (Str × Json)
  | hello none => [(ascii "type", .string (ascii "hello"))]
  | hello (some token) =>
      [(ascii "type", .string (ascii "hello")), (ascii "token", .string token)]
  | challengeResponse plaintext =>
      [(ascii "type", .string (ascii "challenge_response")), (ascii "plaintext", .string plaintext)]

/-- What the server makes of a message. -/
def inbound (m : ClientMessage) : Inbound := ⟨m.text.length, some (.object m.fields)⟩

end ClientMessage

/-- A client with its socket. -/
structure ChatClient where
  key : Option (List UInt8)
  token : Option Str
  joined : Bool := false
  closedByUs : Bool := false
  readyState : ReadyState := .connecting
  /-- What has been sent of the handshake, in order. -/
  sent : List ClientMessage := []
  deriving DecidableEq

/-- What a client tells the view. -/
inductive Report
  | joined (token : Option Str)
  | deleted
  | error (code : Str)
  | close (clean : Bool)

namespace ChatClient

variable (c : ChatClient)

/-- The constructor and `connect`. -/
def connect (key : Option (List UInt8)) (token : Option Str) : ChatClient := { key, token }

/-- `close`: the socket is closed if it is not closed or closing. -/
def close : ChatClient :=
  { c with
    closedByUs := true
    readyState :=
      match c.readyState with
      | .connecting | .opened => .closing
      | state => state }

/-- The socket has opened. -/
def onOpen : ChatClient :=
  { c with readyState := .opened, sent := c.sent ++ [.hello c.token] }

/-- The answer to a challenge, unless something throws. -/
def solve (S : Sodium) (ciphertext nonce : Str) : Option Str := do
  let ct ← S.fromB64 ciphertext
  let nc ← S.fromB64 nonce
  let key ← c.key
  let plaintext ← S.decrypt ct nc key
  return S.toB64 plaintext

/-- A frame has come in. -/
def onFrame (S : Sodium) : Frame Str → ChatClient × Option Report
  | .challenge ciphertext nonce =>
      match c.solve S ciphertext nonce with
      | some plaintext => ({ c with sent := c.sent ++ [.challengeResponse plaintext] }, none)
      | none => (c.close, some (.error (ascii "invalid_key")))
  | .joined _ _ token _ _ =>
      let token := truthy token <|> c.token
      ({ c with joined := true, token }, some (.joined token))
  | .deleted => ({ c with closedByUs := true }, some .deleted)
  | .error e => (c, some (.error e.code))
  | .msg _ _ _ | .presence _ _ _ | .peerJoin _ | .peerLeave _ | .pong => (c, none)

/-- The socket has closed. -/
def onClose : ChatClient × Report := ({ c with readyState := .closed }, .close c.closedByUs)

/-- The frame that lets a client in. -/
def IsJoined : Frame Str → Prop
  | .joined _ _ _ _ _ => True
  | _ => False

instance : DecidablePred IsJoined
  | .joined _ _ _ _ _ => isTrue trivial
  | .error _ | .challenge _ _ | .peerJoin _ | .peerLeave _ | .msg _ _ _ | .presence _ _ _
  | .deleted | .pong => isFalse not_false

/-- A key with which the answer to a challenge is found. -/
def Opens (S : Sodium) (key : List UInt8) (ciphertext nonce : Str) : Prop :=
  (connect (some key) none).solve S ciphertext nonce ≠ none

/-! ## What the handlers do to the socket -/

/-- The socket is open or about to open. -/
def Live : Prop := c.readyState = .connecting ∨ c.readyState = .opened

instance : Decidable c.Live := inferInstanceAs (Decidable (_ ∨ _))

/-- The client has answered a challenge. -/
def Answered : Prop := ∃ plaintext, ClientMessage.challengeResponse plaintext ∈ c.sent

instance : Decidable c.Answered :=
  decidable_of_iff (∃ m ∈ c.sent, m matches .challengeResponse _) <| by
    constructor
    · rintro ⟨m, hm, hmatches⟩
      cases m with
      | hello token => cases hmatches
      | challengeResponse plaintext => exact ⟨plaintext, hm⟩
    · rintro ⟨plaintext, hm⟩
      exact ⟨_, hm, rfl⟩

variable {c} {S : Sodium} {f : Frame Str}

@[simp] lemma sent_connect (key : Option (List UInt8)) (token : Option Str) :
    (connect key token).sent = [] := rfl

@[simp] lemma key_connect (key : Option (List UInt8)) (token : Option Str) :
    (connect key token).key = key := rfl

@[simp] lemma readyState_connect (key : Option (List UInt8)) (token : Option Str) :
    (connect key token).readyState = .connecting := rfl

@[simp] lemma key_close : c.close.key = c.key := rfl

@[simp] lemma joined_close : c.close.joined = c.joined := rfl

@[simp] lemma closedByUs_close : c.close.closedByUs = true := rfl

@[simp] lemma sent_close : c.close.sent = c.sent := rfl

lemma not_live_close : ¬ c.close.Live := by
  cases h : c.readyState <;> simp [close, Live, h]

@[simp] lemma readyState_close_eq_closed :
    c.close.readyState = .closed ↔ c.readyState = .closed := by
  cases h : c.readyState <;> simp [close, h]

/-- A client answers with its own key only. -/
lemma opens_of_solve {ct nonce plaintext : Str} (h : c.solve S ct nonce = some plaintext) :
    ∃ k, c.key = some k ∧ Opens S k ct nonce := by
  cases hkey : c.key with
  | none => simp [solve, hkey] at h
  | some k =>
      refine ⟨k, rfl, ?_⟩
      have hsame : (connect (some k) none).solve S ct nonce = c.solve S ct nonce := by
        simp [solve, hkey]
      rw [Opens, hsame, h]
      exact Option.some_ne_none _

@[simp] lemma answered_close : c.close.Answered ↔ c.Answered := Iff.rfl

lemma not_answered_connect (key : Option (List UInt8)) (token : Option Str) :
    ¬ (connect key token).Answered := by
  simp [Answered]

lemma answered_onOpen : c.onOpen.Answered ↔ c.Answered := by
  simp [Answered, onOpen]

/-- Only a challenge is answered, and only under the key of the client. -/
lemma answered_onFrame (h : (c.onFrame S f).1.Answered) : c.Answered ∨
    ∃ ct nonce k, f = .challenge ct nonce ∧ c.key = some k ∧ Opens S k ct nonce := by
  cases f with
  | challenge ct nonce =>
      cases hsolve : c.solve S ct nonce with
      | none =>
          simp only [onFrame, hsolve, answered_close] at h
          exact .inl h
      | some plaintext =>
          obtain ⟨k, hk, hopens⟩ := opens_of_solve hsolve
          exact .inr ⟨ct, nonce, k, rfl, hk, hopens⟩
  | _ => exact .inl h

/-- A client reports that it has joined when it is let in. -/
lemma isJoined_of_report {token : Option Str} (h : (c.onFrame S f).2 = some (.joined token)) :
    IsJoined f := by
  cases f with
  | joined _ _ _ _ _ => trivial
  | challenge ct nonce =>
      simp only [onFrame] at h
      split at h <;> simp at h
  | _ => simp [onFrame] at h

@[simp] lemma key_onFrame : (c.onFrame S f).1.key = c.key := by
  cases f with
  | challenge ct nc =>
      simp only [onFrame]
      split <;> rfl
  | _ => rfl

end ChatClient

end HashHush.Web
