import HashHush.Web.Content
import Mathlib.Data.List.DropRight

/-!
# What the chat view shows

The rest of `components/Chat.svelte`: the messages, the members and the nicknames that the view
shows, what the callbacks of a client do to them, and the user's change of nickname.  A system entry
for a peer whose nickname is not known yet is completed by the next presence frame of the peer.

Peer ids are hex digits, so that looking one up in `peerNicks` finds no property that every object
has.
-/

namespace HashHush.Web

/-! ## What counts as true -/

namespace JSON

/-- The digits of a text, read as one number. -/
def digitsNumber (s : JsString) : ℕ :=
  Nat.ofDigits 10 ((s.filter isDigit).map fun u => (u - codeUnit '0').toNat).reverse

def isExponent (u : UInt16) : Bool := u = codeUnit 'e' || u = codeUnit 'E'

/-- The absolute value of a number literal, before it is rounded. -/
def magnitude (literal : JsString) : ℚ :=
  let significand := literal.takeWhile fun u => !isExponent u
  let exponent := (literal.dropWhile fun u => !isExponent u).drop 1
  let fraction := (significand.dropWhile fun u => u ≠ codeUnit '.').drop 1
  let shift : ℤ := if exponent.head? = some (codeUnit '-') then -digitsNumber exponent
    else digitsNumber exponent
  digitsNumber significand * 10 ^ (shift - fraction.length)

end JSON

/-- A value that counts as true.  A number that is at most half of the least positive double is
rounded to 0. -/
def JsValue.isTrue : JsValue → Bool
  | .null => false
  | .bool b => b
  | .number literal => 2 ^ (-1075 : ℤ) < JSON.magnitude literal
  | .string s => s ≠ []
  | .array _ | .object _ => true

/-- A nickname that counts as true: neither undefined nor a value that is no nickname. -/
def known (nick : Option JsValue) : Option JsValue := nick.filter JsValue.isTrue

/-! ## The state -/

/-- The field `kind` of a system entry. -/
inductive SystemKind
  | join
  | leave
  deriving DecidableEq

/-- An entry of `messages`. -/
inductive Entry
  | chat (peerId : Option Str) (fromSelf : Bool) (text nick : Option JsValue) (ts : ℤ)
  | system (kind : SystemKind) (peerId : Str) (nick : Option JsValue) (ts : ℤ)

/-- An entry of the history that a `joined` frame carries. -/
def HistoryItem.entry (m : HistoryItem) : Entry := .chat m.peerId m.fromSelf m.text m.nick m.ts

/-- The variables that the markup reads; `peerNicks` gives `none` for undefined. -/
structure Transcript where
  messages : List Entry := []
  members : List Str := []
  peerNicks : Str → Option JsValue := fun _ => none
  myPeerId : Option Str := none
  roomName : Str := []
  nickname : JsString

namespace Transcript

variable (t : Transcript)

/-! ## The callbacks -/

def handleJoined (peerId roomName : Str) (members : List Str) (history : List HistoryItem) :
    Transcript :=
  { t with
    myPeerId := some peerId
    roomName
    members
    peerNicks := Function.update t.peerNicks peerId (some (.string t.nickname))
    messages := history.map HistoryItem.entry }

def handleMessage (peerId : Str) (fromSelf : Bool) (text nick : Option JsValue) (ts : ℤ) :
    Transcript :=
  { t with
    peerNicks := if peerId ≠ [] ∧ (known nick).isSome then Function.update t.peerNicks peerId nick
      else t.peerNicks
    messages := t.messages ++ [.chat (some peerId) fromSelf text nick ts] }

/-- A system entry of the peer that has no nickname is given this one. -/
def patch (peerId : Str) (nick : Option JsValue) : Entry → Entry
  | .system kind id old ts =>
      .system kind id (if id = peerId ∧ known old = none then nick else old) ts
  | m => m

def onPresence (peerId : Str) (nick : Option JsValue) : Transcript :=
  { t with
    peerNicks := Function.update t.peerNicks peerId nick
    messages := t.messages.map (patch peerId nick) }

def appendSystemEvent (now : ℤ) (kind : SystemKind) (peerId : Str) : Transcript :=
  { t with
    messages := t.messages ++
      [.system kind peerId (some ((known (t.peerNicks peerId)).getD .null)) now] }

def onPeerJoin (now : ℤ) (id : Str) : Transcript :=
  { t with members := if id ∈ t.members then t.members else t.members ++ [id] }.appendSystemEvent
    now .join id

def onPeerLeave (now : ℤ) (id : Str) : Transcript :=
  let t := t.appendSystemEvent now .leave id
  { t with
    members := t.members.filter (· ≠ id)
    peerNicks := Function.update t.peerNicks id none }

/-- The callbacks that a view gives its clients, at a time of its clock. -/
def onCallback (now : ℤ) : Callback → Transcript
  | .onJoined peerId _ roomName members history => t.handleJoined peerId roomName members history
  | .onMessage peerId fromSelf text nick ts => t.handleMessage peerId fromSelf text nick ts
  | .onPresence peerId nick => t.onPresence peerId nick
  | .onPeerJoin id => t.onPeerJoin now id
  | .onPeerLeave id => t.onPeerLeave now id
  | .onDeleted | .onError _ => t

/-- `String.prototype.trim`. -/
def trim (s : JsString) : JsString := (s.dropWhile isWhite).rdropWhile isWhite

/-- The user has edited the nickname. -/
def commitNick (nickDraft : JsString) : Transcript :=
  let trimmed := (trim nickDraft).take 40
  if trimmed ≠ [] ∧ trimmed ≠ t.nickname then
    { t with
      nickname := trimmed
      peerNicks := match t.myPeerId with
        | some id => if id ≠ [] then Function.update t.peerNicks id (some (.string trimmed))
            else t.peerNicks
        | none => t.peerNicks }
  else t

/-! ## Events -/

/-- What changes the transcript. -/
inductive Event
  | callback (now : ℤ) (cb : Callback)
  | commitNick (nickDraft : JsString)

def step (t : Transcript) : Event → Transcript
  | .callback now cb => t.onCallback now cb
  | .commitNick nickDraft => t.commitNick nickDraft

/-- The transcript after some events. -/
def run (t : Transcript) (es : List Event) : Transcript := es.foldl step t

end Transcript

end HashHush.Web
