import HashHush.Concurrency.Simulation
import HashHush.Server

/-!
# The server reads no payload

The payload of a `msg` or a `presence` frame is a ciphertext of which the server looks at the
length alone: it refuses an empty payload and one that is too long, and stores or sends any other
as it came.

Replace every submitted payload by another of the same length.  The operations commute with the
replacement (`exec_map`), every handler becomes the handler of the changed frame
(`onmessage_image`, `program_image`), and so every run becomes a run of the same steps with the
same draws (`oblivious`).  In the world it reaches, only the payloads of cached messages and of
relayed frames have been replaced: the same rooms, challenges and tokens are stored, the same
connections have joined, every frame is sent to the same connections in the same order, and every
request is answered alike.
-/

namespace HashHush

open Concurrency

variable {π π' : Type}

/-! ## Replacing the payloads -/

/-- The cached message with another payload. -/
def CachedMessage.map (g : π → π') (m : CachedMessage π) : CachedMessage π' :=
  ⟨m.senderPeerId, g m.payloadB64, m.createdAt⟩

/-- The frame with other payloads. -/
def Frame.map (g : π → π') : Frame π → Frame π'
  | .error e => .error e
  | .challenge ciphertext nonce => .challenge ciphertext nonce
  | .joined peerId roomName token history members =>
      .joined peerId roomName token (history.map (CachedMessage.map g)) members
  | .peerJoin peerId => .peerJoin peerId
  | .peerLeave peerId => .peerLeave peerId
  | .msg peerId payload ts => .msg peerId (g payload) ts
  | .presence peerId payload ts => .presence peerId (g payload) ts
  | .deleted => .deleted
  | .pong => .pong

def Outgoing.map (g : π → π') : Outgoing π → Outgoing π'
  | .text f => .text (f.map g)
  | .close reason => .close reason

/-- The manager with other payloads in its cache. -/
def RoomManager.map (g : π → π') (m : RoomManager π) : RoomManager π' :=
  ⟨m.peers, m.byRoom, fun r => (m.msgCache r).map (List.map (CachedMessage.map g))⟩

/-- The world with other payloads, cached and sent. -/
def World.map (g : π → π') (w : World π) : World π' :=
  ⟨w.db, w.mgr.map g, w.ledger, w.clock, w.wire.map (Prod.map id (Outgoing.map g)), w.destroyed,
    w.answers⟩

/-- The operation on the replaced payload. -/
def Op.map (g : π → π') : Op π → Op π'
  | .createRoom row => .createRoom row
  | .findRoom id => .findRoom id
  | .deleteRoom id => .deleteRoom id
  | .countRooms => .countRooms
  | .touchRoom id => .touchRoom id
  | .roomsIdleSince cutoff => .roomsIdleSince cutoff
  | .activateRoom id => .activateRoom id
  | .insertChallenges id pairs => .insertChallenges id pairs
  | .consumeChallenge id => .consumeChallenge id
  | .insertAccessToken token id => .insertAccessToken token id
  | .roomForToken token => .roomForToken token
  | .onWsAccept c id peerId => .onWsAccept c id peerId
  | .onWsClose c => .onWsClose c
  | .findByConn c => .findByConn c
  | .markPeerJoined c peerId => .markPeerJoined c peerId
  | .setPending c token expected => .setPending c token expected
  | .liveCount id => .liveCount id
  | .targets id except => .targets id except
  | .closeRoom id => .closeRoom id
  | .appendCachedMessage id sender payload n => .appendCachedMessage id sender (g payload) n
  | .recentMessages id => .recentMessages id
  | .joinedPeerIds id => .joinedPeerIds id
  | .commit nonceHex exp now => .commit nonceHex exp now
  | .nowSeconds => .nowSeconds
  | .randomBytes n => .randomBytes n
  | .sendText c f => .sendText c (f.map g)
  | .close c reason => .close c reason
  | .respond n answer => .respond n answer

/-- What the operation on the replaced payload returns: only cached messages carry payloads. -/
def Op.mapRes (g : π → π') : {o : Op π} → o.Res → (o.map g).Res
  | .recentMessages _, history => history.map (CachedMessage.map g)
  | .createRoom _, r | .deleteRoom _, r | .activateRoom _, r | .insertChallenges _ _, r
  | .insertAccessToken _ _, r | .commit _ _ _, r | .findRoom _, r | .countRooms, r
  | .liveCount _, r | .nowSeconds, r | .roomsIdleSince _, r | .joinedPeerIds _, r
  | .consumeChallenge _, r | .roomForToken _, r | .onWsClose _, r | .findByConn _, r
  | .targets _ _, r | .closeRoom _, r | .randomBytes _, r | .touchRoom _, r
  | .onWsAccept _ _ _, r | .markPeerJoined _ _, r | .setPending _ _ _, r
  | .appendCachedMessage _ _ _ _, r | .sendText _ _, r | .close _ _, r | .respond _ _, r => r

/-- The translation of the interface. -/
def payloads (g : π → π') : (signature π).Hom (signature π') := ⟨Op.map g, Op.mapRes g, id⟩

/-! ## The operations commute with it -/

section Operations

variable (g : π → π')

lemma evict_map (n : ℤ) (dq : List (CachedMessage π)) :
    RoomManager.evict n (dq.map (CachedMessage.map g))
      = (RoomManager.evict n dq).map (CachedMessage.map g) := by
  induction dq with
  | nil => rfl
  | cons m dq ih =>
      simp only [List.map_cons, RoomManager.evict, List.length_map]
      split
      · exact ih
      · rfl

lemma map_appendCachedMessage (m : RoomManager π) (r s : Str) (p : π) (n now : ℤ) :
    (m.map g).appendCachedMessage r s (g p) n now = (m.appendCachedMessage r s p n now).map g := by
  simp only [RoomManager.appendCachedMessage]
  split
  · rfl
  · have hold : ((m.map g).msgCache r).getD [] ++ [(⟨s, g p, now⟩ : CachedMessage π')]
        = ((m.msgCache r).getD [] ++ [(⟨s, p, now⟩ : CachedMessage π)]).map
          (CachedMessage.map g) := by
      rw [List.map_append]
      cases hr : m.msgCache r <;> simp [RoomManager.map, hr, CachedMessage.map]
    rw [hold, evict_map]
    simp only [RoomManager.map, RoomManager.mk.injEq, true_and]
    funext r'
    by_cases hr : r' = r
    · rw [hr, Function.update_self, Function.update_self, Option.map_some]
    · rw [Function.update_of_ne hr, Function.update_of_ne hr]

lemma map_closeRoom (m : RoomManager π) (r : Str) :
    (m.map g).closeRoom r = ((m.closeRoom r).1, (m.closeRoom r).2.map g) := by
  simp only [RoomManager.closeRoom, RoomManager.map, RoomManager.connsOf, Prod.mk.injEq,
    RoomManager.mk.injEq, true_and]
  funext r'
  by_cases hr : r' = r
  · rw [hr, Function.update_self, Function.update_self, Option.map_none]
  · rw [Function.update_of_ne hr, Function.update_of_ne hr]

lemma map_onWsClose (m : RoomManager π) (c : Conn) :
    (m.map g).onWsClose c = ((m.onWsClose c).1, (m.onWsClose c).2.map g) := by
  have hpeers : (m.map g).peers c = m.peers c := rfl
  unfold RoomManager.onWsClose
  rw [hpeers]
  cases m.peers c <;> rfl

lemma map_recentMessages (m : RoomManager π) (r : Str) :
    (m.map g).recentMessages r = (m.recentMessages r).map (CachedMessage.map g) := by
  unfold RoomManager.recentMessages
  cases hr : m.msgCache r <;> simp [RoomManager.map, hr]

/-- An operation on replaced payloads, in a world with replaced payloads, does the same. -/
theorem exec_map (o : Op π) (x : Choice) (w : World π) :
    exec (o.map g) x (w.map g) = (Op.mapRes g (exec o x w).1, (exec o x w).2.map g) := by
  cases o with
  | appendCachedMessage r s p n =>
      simp only [exec, Op.map, World.map, map_appendCachedMessage]
      rfl
  | closeRoom r =>
      simp only [exec, Op.map, World.map, map_closeRoom]
      rfl
  | onWsClose c =>
      simp only [exec, Op.map, World.map, map_onWsClose]
      rfl
  | recentMessages r =>
      simp only [exec, Op.map, World.map, map_recentMessages]
      rfl
  | sendText c f | close c reason =>
      simp only [exec, Op.map, World.map, List.map_append]
      rfl
  | createRoom _ | findRoom _ | deleteRoom _ | countRooms | touchRoom _ | roomsIdleSince _
  | activateRoom _ | insertChallenges _ _ | consumeChallenge _ | insertAccessToken _ _
  | roomForToken _ =>
      simp only [exec, Op.map]
      split <;> rfl
  | _ => rfl

end Operations

/-! ## The handlers -/

/-- The second program does with replaced payloads what the first one does. -/
abbrev Alike (g : π → π') {α : Type} (p : Handler π α) (q : Handler π' α) : Prop :=
  p.Image (payloads g) Eq q

section Handlers

variable {g : π → π'} {α β : Type}

lemma Alike.bind {p : Handler π β} {q : Handler π' β} {f : β → Handler π α}
    {f' : β → Handler π' α} (h : Alike g p q) (hf : ∀ b, Alike g (f b) (f' b)) :
    Alike g (p >>= f) (q >>= f') :=
  Prog.Image.bind h fun b _ hb => hb ▸ hf b

/-- The same accessor throws the same exception. -/
lemma Alike.json {a : Except JsonError β} {f : β → Handler π α} {f' : β → Handler π' α}
    (hf : ∀ b, a = .ok b → Alike g (f b) (f' b)) :
    Alike g (HashHush.json a >>= f) (HashHush.json a >>= f') := by
  cases a with
  | error e => exact Eq.refl (Prog.fail (S := signature π') e)
  | ok b => exact hf b rfl

lemma Alike.ite {c : Prop} [Decidable c] {p p' : Handler π α} {q q' : Handler π' α}
    (h : c → Alike g p q) (h' : ¬ c → Alike g p' q') :
    Alike g (if c then p else p') (if c then q else q') :=
  Prog.Image.ite Iff.rfl h h'

lemma Alike.call (o : Op π) {f : o.Res → Handler π α} {f' : (o.map g).Res → Handler π' α}
    (h : ∀ r, Alike g (f r) (f' (Op.mapRes g r))) :
    Alike g (call o >>= f) (call (o.map g) >>= f') :=
  Prog.Image.step h

lemma sendText_alike (c : Conn) (f : Frame π) :
    Alike g (call (.sendText c f)) (call (.sendText c (f.map g))) :=
  Alike.call (.sendText c f) fun _ => Prog.Image.ret rfl

lemma sendEach_alike (f : Frame π) (cs : List Conn) :
    Alike g (sendEach f cs) (sendEach (f.map g) cs) := by
  induction cs with
  | nil => exact .ret rfl
  | cons c cs ih => exact .step fun _ => ih

lemma broadcast_alike (r : Str) (f : Frame π) (except : Option Conn) :
    Alike g (broadcast r f except) (broadcast r (f.map g) except) :=
  .step fun targets => sendEach_alike f targets

lemma closeEach_alike (f : Frame π) (cs : List Conn) :
    Alike g (closeEach f cs) (closeEach (f.map g) cs) := by
  induction cs with
  | nil => exact .ret rfl
  | cons c cs ih => exact .step fun _ => .step fun _ => ih

lemma removeRoom_alike (r : Str) : Alike g (removeRoom r) (removeRoom r) := by
  refine Alike.bind (.step fun targets => closeEach_alike .deleted targets) fun _ => ?_
  exact .step fun _ => .ret rfl

section Ws

variable (c : Conn)

lemma onopen_alike (room : Option Str) : Alike g (onopen c room) (onopen c room) :=
  Alike.ite (fun _ => .ret rfl) fun _ => .step fun _ => .perform _ fun _ => rfl

lemma onclose_alike : Alike g (onclose c) (onclose c) := by
  refine .step fun peer => ?_
  cases (peer : Option Peer) with
  | none => exact .ret rfl
  | some p => exact Alike.ite (fun _ => broadcast_alike _ (.peerLeave p.peerId) _) fun _ => .ret rfl

lemma sendErr_alike (e : WsError) : Alike g (sendErr c e) (sendErr c e) :=
  sendText_alike c (.error e)

lemma sendErrAndClose_alike (e : WsError) : Alike g (sendErrAndClose c e) (sendErrAndClose c e) :=
  (sendErr_alike c e).bind fun _ => .perform _ fun _ => rfl

/-- The joiner is sent the history with replaced payloads. -/
lemma announceJoin_alike (r newPeerId : Str) (token : Option Str) :
    Alike g (announceJoin c r newPeerId token) (announceJoin c r newPeerId token) := by
  refine .step fun roomRow => .step fun history => .step fun members => ?_
  let frame : Frame π := .joined newPeerId (Option.map RoomRow.name roomRow) token history members
  refine Alike.call (.sendText c frame) fun _ => ?_
  exact (broadcast_alike r (.peerJoin newPeerId) (some c)).bind fun _ => .perform _ fun _ => rfl

lemma finalizeJoin_alike (peer : Peer) (token : Str) (isFresh : Bool) :
    Alike g (finalizeJoin c peer token isFresh) (finalizeJoin c peer token isFresh) :=
  .step fun _ => announceJoin_alike c _ _ _

lemma helloWithToken_alike (peer : Peer) (token : Str) :
    Alike g (helloWithToken c peer token) (helloWithToken c peer token) :=
  .step fun _ => Alike.ite (fun _ => finalizeJoin_alike c peer token false)
    fun _ => sendErrAndClose_alike c _

lemma takeChallenge_alike (r : Str) : Alike g (takeChallenge r) (takeChallenge r) := by
  refine .step fun roomRow => ?_
  cases (roomRow : Option RoomRow) with
  | none => exact .ret rfl
  | some row =>
      exact .step fun live => Alike.ite (fun _ => .ret rfl) fun _ => .perform _ fun _ => rfl

lemma sendChallenge_alike (pair : ChallengePair) :
    Alike g (sendChallenge c pair) (sendChallenge c pair) :=
  .step fun _ => .step fun _ =>
    sendText_alike c (.challenge pair.ciphertextB64 pair.nonceB64)

lemma helloWithoutToken_alike (peer : Peer) :
    Alike g (helloWithoutToken c peer) (helloWithoutToken c peer) := by
  rw [helloWithoutToken_eq, helloWithoutToken_eq]
  refine (takeChallenge_alike peer.roomId).bind fun pair => ?_
  cases pair with
  | some pair => exact sendChallenge_alike c pair
  | none =>
      refine Alike.bind ?_ fun pair => sendChallenge_alike c pair
      exact .step fun _ => .step fun _ => .step fun _ => .ret rfl

lemma challengeResponse_alike (peer : Peer) (answer : Str) :
    Alike g (challengeResponse c peer answer) (challengeResponse c peer answer) := by
  refine Alike.ite (fun _ => sendErrAndClose_alike c _) fun _ => .step fun _ => ?_
  refine Alike.ite (fun _ => sendErrAndClose_alike c _) fun _ => .step fun inserted => ?_
  exact Alike.ite (fun _ => finalizeJoin_alike c peer _ true) fun _ => sendErrAndClose_alike c _

lemma relayMsg_alike (cfg : Config) (peer : Peer) (payload : π) :
    Alike g (relayMsg cfg peer payload) (relayMsg cfg peer (g payload)) :=
  Alike.call (.appendCachedMessage peer.roomId peer.peerId payload cfg.messageCacheSize) fun _ =>
    .step fun _ => .step fun ts => broadcast_alike _ (.msg peer.peerId payload ts) none

lemma relayPresence_alike (peer : Peer) (payload : π) :
    Alike g (relayPresence c peer payload) (relayPresence c peer (g payload)) :=
  .step fun ts => broadcast_alike _ (.presence peer.peerId payload ts) _

end Ws

section Http

variable (n : ℕ)

lemma jsonError_alike (e : HttpError) : Alike g (jsonError n e) (jsonError n e) :=
  .perform _ fun _ => rfl

lemma getPowChallenge_alike (cfg : Config) (secret : List UInt8) :
    Alike g (getPowChallenge cfg secret n) (getPowChallenge cfg secret n) := by
  refine Alike.bind ?_ fun challenge => .perform _ fun _ => rfl
  exact .step fun bytes => .step fun now => .ret rfl

lemma verifyChallenge_alike (secret : List UInt8) (challenge nonce : Str) (bits : ℤ) :
    Alike g (verifyChallenge secret challenge nonce bits)
      (verifyChallenge secret challenge nonce bits) := by
  unfold verifyChallenge
  cases Captcha.split3 challenge with
  | none => exact .ret rfl
  | some parts =>
      refine Alike.ite (fun _ => .ret rfl) fun _ => Alike.ite (fun _ => .ret rfl) fun _ => ?_
      cases Captcha.stoll parts.2.1 with
      | none => exact .ret rfl
      | some exp =>
          refine .step fun now => Alike.ite (fun _ => .ret rfl) fun _ => ?_
          refine Alike.ite (fun _ => .ret rfl) fun _ => .step fun inserted => ?_
          exact Alike.ite (fun _ => .ret rfl) fun _ => .ret rfl

lemma createRoom_alike (cfg : Config) (body : Json) :
    Alike g (createRoom cfg n body) (createRoom cfg n body) := by
  refine Alike.json fun name _ => Alike.json fun requiresPassword _ => Alike.bind ?_ fun count => ?_
  · exact Alike.ite (fun _ => .perform _ fun _ => rfl) fun _ => .ret rfl
  · refine Alike.ite (fun _ => jsonError_alike n _) fun _ => ?_
    refine .step fun bytes => .step fun now => .step fun inserted => ?_
    exact Alike.ite (fun _ => .perform _ fun _ => rfl) fun _ => jsonError_alike n _

lemma postRooms_alike (cfg : Config) (secret : List UInt8) (body : Option Json) :
    Alike g (postRooms cfg secret n body) (postRooms cfg secret n body) := by
  cases body with
  | none => exact jsonError_alike n _
  | some body =>
      refine Alike.json fun hasPow _ => Alike.ite (fun _ => ?_) fun _ => jsonError_alike n _
      refine Alike.json fun pow _ => ?_
      cases pow with
      | object fields =>
          refine Alike.json fun challenge _ => Alike.json fun nonce _ => ?_
          refine Alike.ite (fun _ => jsonError_alike n _) fun _ => ?_
          refine Alike.ite (fun _ => jsonError_alike n _) fun _ => ?_
          refine (verifyChallenge_alike secret challenge nonce _).bind fun result => ?_
          cases result with
          | ok => exact createRoom_alike n cfg body
          | _ => exact jsonError_alike n _
      | _ => exact jsonError_alike n _

lemma activate_alike (cfg : Config) (id : Str) (body : Option Json) :
    Alike g (activate cfg n id body) (activate cfg n id body) := by
  refine .step fun roomOpt => ?_
  cases (roomOpt : Option RoomRow) with
  | none => exact jsonError_alike n _
  | some row =>
      refine Alike.ite (fun _ => jsonError_alike n _) fun _ => Alike.json fun pool _ => ?_
      cases pool with
      | error e => exact jsonError_alike n e
      | ok pairs =>
          refine .step fun inserted => Alike.ite (fun _ => .step fun activated => ?_)
            fun _ => jsonError_alike n _
          exact Alike.ite (fun _ => .perform _ fun _ => rfl) fun _ => jsonError_alike n _

lemma aliveAndGone_alike (items : List Json) :
    Alike g (aliveAndGone items) (aliveAndGone items) := by
  induction items with
  | nil => exact .ret rfl
  | cons item items ih =>
      cases item with
      | string id => exact .step fun room => ih.bind fun _ => .ret rfl
      | _ => exact ih

lemma isAlive_alike (body : Option Json) : Alike g (isAlive n body) (isAlive n body) :=
  Alike.json fun items _ => (aliveAndGone_alike items).bind fun _ => .perform _ fun _ => rfl

lemma deleteRoom_alike (id : Str) (body : Option Json) :
    Alike g (deleteRoom n id body) (deleteRoom n id body) := by
  cases body with
  | none => exact jsonError_alike n _
  | some body =>
      refine Alike.json fun token _ => Alike.ite (fun _ => jsonError_alike n _) fun _ => ?_
      refine .step fun owner => Alike.ite (fun _ => ?_) fun _ => jsonError_alike n _
      exact (removeRoom_alike id).bind fun _ => .perform _ fun _ => rfl

lemma purge_alike (cfg : Config) : Alike g (purge cfg) (purge cfg) := by
  refine .step fun now => .step fun stale => ?_
  induction (stale : List Str) with
  | nil => exact .ret rfl
  | cons id ids ih => exact (removeRoom_alike id).bind fun _ => ih

end Http

end Handlers

/-! ## Frames with another payload -/

/-- Another string in the place of a string. -/
def Json.mapString (s : Str → Str) : Json → Json
  | .string t => .string (s t)
  | j => j

/-- The object with its payload replaced. -/
def Json.mapPayload (s : Str → Str) : Json → Json
  | .object fields =>
      .object (fields.map fun f =>
        if f.1 = ascii "payload" then (f.1, f.2.mapString s) else f)
  | j => j

/-- The frame with its payload replaced. -/
def Inbound.mapPayload (s : Str → Str) (data : Inbound) : Inbound :=
  ⟨data.size, data.json.map (Json.mapPayload s)⟩

section Frames

variable (s : Str → Str) (j : Json)

private lemma key_mapPayload (f : Str × Json) :
    (if f.1 = ascii "payload" then (f.1, f.2.mapString s) else f).1 = f.1 := by
  split <;> rfl

lemma has_mapPayload (key : Str) : (j.mapPayload s).has key = j.has key := by
  cases j with
  | object fields =>
      rw [Json.mapPayload, Json.has, Json.has, List.any_map]
      refine congrArg _ (congrArg (List.any fields) (funext fun f => ?_))
      rw [Function.comp, key_mapPayload]
  | _ => rfl

lemma at_mapPayload (key : Str) : (j.mapPayload s).at' key
    = (j.at' key).map fun v => if key = ascii "payload" then v.mapString s else v := by
  cases j with
  | object fields =>
      have hfind : (fun f : Str × Json => decide (f.1 = key)) ∘
          (fun f => if f.1 = ascii "payload" then (f.1, f.2.mapString s) else f)
          = fun f => decide (f.1 = key) := by
        funext f
        rw [Function.comp, key_mapPayload]
      simp only [Json.mapPayload, Json.at', List.find?_map, hfind]
      cases hf : fields.find? fun f => decide (f.1 = key) with
      | none => rfl
      | some f =>
          obtain rfl : f.1 = key := by simpa using List.find?_some hf
          by_cases hkey : f.1 = ascii "payload" <;> simp [hkey, Except.map]
  | _ => rfl

lemma js_str_mapPayload_of_ne {key : Str} (hkey : key ≠ ascii "payload") (dflt : Str) :
    (j.mapPayload s).js_str key dflt = j.js_str key dflt := by
  have hat : (j.mapPayload s).at' key = j.at' key := by
    rw [at_mapPayload]
    cases j.at' key <;> simp [Except.map, hkey]
  rw [Json.js_str, Json.js_str, has_mapPayload, hat]

lemma js_str_mapPayload (hs : s [] = []) : (j.mapPayload s).js_str (ascii "payload")
    = (j.js_str (ascii "payload")).map s := by
  rw [Json.js_str, Json.js_str, has_mapPayload, at_mapPayload]
  cases j.has (ascii "payload") with
  | error e => rfl
  | ok b =>
      cases b with
      | false => exact congrArg Except.ok hs.symm
      | true =>
          cases j.at' (ascii "payload") with
          | error e => rfl
          | ok v =>
              rw [Except.map, if_pos rfl]
              cases v with
              | string t => rfl
              | _ => exact congrArg Except.ok hs.symm

end Frames

section Messages

variable {g : π → π'} {s : Str → Str} {wrap : Str → π} {wrap' : Str → π'} (c : Conn)

lemma unjoined_alike (peer : Peer) (j : Json) (type : Str) :
    Alike g (unjoined c peer j type) (unjoined c peer (j.mapPayload s) type) := by
  have htoken : ascii "token" ≠ ascii "payload" := by simp [ascii]
  have hplaintext : ascii "plaintext" ≠ ascii "payload" := by simp [ascii]
  unfold unjoined
  refine Alike.ite (fun _ => ?_) fun _ => Alike.ite (fun _ => ?_) fun _ => sendErrAndClose_alike c _
  · rw [js_str_mapPayload_of_ne s j htoken]
    refine Alike.json fun token _ => Alike.ite (fun _ => helloWithToken_alike c peer token) fun _ => ?_
    exact helloWithoutToken_alike c peer
  · rw [js_str_mapPayload_of_ne s j hplaintext]
    exact Alike.json fun answer _ => challengeResponse_alike c peer answer

variable (hs : ∀ t, (s t).length = t.length) (hwrap : ∀ t, wrap' (s t) = g (wrap t))

include hs hwrap

lemma joined_alike (cfg : Config) (peer : Peer) (j : Json) (type : Str) :
    Alike g (joined cfg wrap c peer j type) (joined cfg wrap' c peer (j.mapPayload s) type) := by
  have hnil : ∀ t, s t = [] ↔ t = [] := fun t => by
    rw [← List.length_eq_zero_iff, hs, List.length_eq_zero_iff]
  unfold joined
  refine Alike.ite (fun _ => ?_) fun _ => Alike.ite (fun _ => ?_) fun _ => sendErr_alike c _
  · rw [js_str_mapPayload s j ((hnil []).mpr rfl)]
    cases j.js_str (ascii "payload") with
    | error e => exact Eq.refl (Prog.fail (S := signature π') e)
    | ok payload =>
        refine Prog.Image.ite (hnil payload).symm (fun _ => sendErr_alike c _) fun _ => ?_
        refine Prog.Image.ite (by rw [hs]) (fun _ => sendErr_alike c _) fun _ => ?_
        rw [hwrap]
        refine Alike.ite (fun _ => relayMsg_alike cfg peer _) fun _ => relayPresence_alike c peer _
  · exact sendText_alike c .pong

/-- The frame with another payload is handled with that payload. -/
theorem onmessage_alike (cfg : Config) (data : Inbound) :
    Alike g (onmessage cfg wrap c data) (onmessage cfg wrap' c (data.mapPayload s)) := by
  have htype : ascii "type" ≠ ascii "payload" := by simp [ascii]
  refine Alike.ite (fun _ => .perform _ fun _ => rfl) fun _ => .step fun peer => ?_
  cases (peer : Option Peer) with
  | none => exact .perform _ fun _ => rfl
  | some peer =>
      obtain ⟨size, json⟩ := data
      cases json with
      | none => exact sendErr_alike c _
      | some j =>
          change Alike g (json _ >>= _) (json ((j.mapPayload s).has _) >>= _)
          rw [has_mapPayload]
          refine Alike.json fun hasType _ => Alike.ite (fun _ => ?_) fun _ => sendErr_alike c _
          have hat : (j.mapPayload s).at' (ascii "type") = j.at' (ascii "type") := by
            rw [at_mapPayload]
            cases j.at' (ascii "type") <;> simp [Except.map, htype]
          rw [hat]
          refine Alike.json fun v _ => Alike.json fun type _ => Alike.ite (fun _ => ?_) fun _ => ?_
          · exact joined_alike c hs hwrap cfg peer j type
          · exact unjoined_alike c peer j type

end Messages

/-! ## Runs -/

/-- The input with its payload replaced. -/
def Input.mapPayload (s : Str → Str) : Input → Input
  | .message data => .message (data.mapPayload s)
  | i => i

open System

section Run

variable {cfg : Config} {secret : List UInt8} {db : Database} {clock : ℤ} {s : Str → Str}

lemma program_alike (hs : ∀ t, (s t).length = t.length) (t : Task) (i : Input) :
    Alike s (program cfg secret t i) (program cfg secret t (i.mapPayload s)) := by
  cases t with
  | ws c =>
      cases i with
      | opened room => exact onopen_alike c room
      | message data =>
          show Alike s (onmessage cfg id c data) (onmessage cfg id c (data.mapPayload s))
          exact onmessage_alike (g := s) c hs (fun t => (rfl : id (s t) = s (id t))) cfg data
      | closed => exact onclose_alike c
      | _ => exact .ret rfl
  | http n =>
      cases i with
      | getPowChallenge => exact getPowChallenge_alike n cfg secret
      | postRooms body => exact postRooms_alike n cfg secret body
      | activate id body => exact activate_alike n cfg id body
      | isAlive body => exact isAlive_alike n body
      | deleteRoom id body => exact deleteRoom_alike n id body
      | _ => exact .ret rfl
  | purger =>
      cases i with
      | purge => exact purge_alike cfg
      | _ => exact .ret rfl

/-- The server beside itself, on replaced payloads. -/
@[reducible] def replacing (cfg : Config) (secret : List UInt8) (s : Str → Str)
    (hs : ∀ t, (s t).length = t.length) : Simulation (server cfg secret) (server cfg secret) where
  toHom := payloads s
  task := id
  injective := Function.injective_id
  choice := id
  input := Input.mapPayload s
  env := id
  out := Eq
  world w w' := w' = w.map s
  exec_res := by
    rintro o x w _ rfl
    exact congrArg Prod.fst (exec_map s o x w)
  exec_world := by
    rintro o x w _ rfl
    exact congrArg Prod.snd (exec_map s o x w)
  program t i := program_alike hs t i

/-- The label with the payload of its input replaced. -/
def replaced (s : Str → Str) : (server cfg secret).Label → (server cfg secret).Label
  | .start t i => .start t (i.mapPayload s)
  | l => l

lemma label_replacing (hs : ∀ t, (s t).length = t.length) (l : (server cfg secret).Label) :
    (replacing cfg secret s hs).label l = replaced s l := by
  cases l <;> rfl

/-- Admission and the environment look at no payload. -/
lemma replacing_open (hs : ∀ t, (s t).length = t.length) : (replacing cfg secret s hs).Open where
  admits := by
    intro c c' t i hrel hadmits
    have htask : (c'.task t).isSome = (c.task t).isSome := hrel.isSome t
    have hnone : (c'.task t).isNone = (c.task t).isNone := by
      rw [← Option.not_isSome, ← Option.not_isSome, htask]
    have hdestroyed : c'.world.destroyed = c.world.destroyed := by
      rw [show c'.world = c.world.map s from hrel.world]
      rfl
    show HashHush.admits c' t (i.mapPayload s) = true
    have hadmits : HashHush.admits c t i = true := hadmits
    cases t with
    | ws d =>
        cases i with
        | opened room => exact hnone.trans hadmits
        | message data =>
            simp only [Input.mapPayload, HashHush.admits, htask, hdestroyed]
            exact hadmits
        | closed =>
            simp only [Input.mapPayload, HashHush.admits, htask, hdestroyed]
            exact hadmits
        | _ => exact hadmits
    | http n =>
        cases i with
        | getPowChallenge => exact hnone.trans hadmits
        | postRooms body => exact hnone.trans hadmits
        | activate id body => exact hnone.trans hadmits
        | isAlive body => exact hnone.trans hadmits
        | deleteRoom id body => exact hnone.trans hadmits
        | _ => exact hadmits
    | purger => cases i <;> exact hadmits
  ambient := by
    intro c c' e w hrel hw
    have hworld : c'.world = c.world.map s := hrel.world
    show ∃ w', HashHush.ambient e c' = some w' ∧ w' = w.map s
    cases e with
    | clock t =>
        obtain rfl : { c.world with clock := t } = w := Option.some.inj hw
        exact ⟨_, rfl, by rw [hworld]; rfl⟩
    | destroy d =>
        have hfinished : (c'.task (.ws d)).any Prog.finished
            = (c.task (.ws d)).any Prog.finished := hrel.finished (Task.ws d)
        have hpeers : c'.world.mgr.peers d = c.world.mgr.peers d := by
          rw [hworld]
          rfl
        have hdestroyed : c'.world.destroyed = c.world.destroyed := by
          rw [hworld]
          rfl
        simp only [HashHush.ambient, hfinished, hpeers, hdestroyed]
        obtain ⟨hcond, hw⟩ := Option.ite_none_right_eq_some.mp hw
        obtain rfl := Option.some.inj hw
        rw [if_pos hcond]
        exact ⟨_, rfl, by rw [hworld]; rfl⟩

/-- **The server reads no payload.**  Replace every submitted payload of a run by another one of
the same length: the same steps with the same draws can be taken, and they lead to a world that
differs in the payloads of cached and relayed messages only, with the same tasks at rest. -/
theorem payloads_unread (hs : ∀ t, (s t).length = t.length)
    {h : List (server cfg secret).Transition} {conf : State}
    (hr : Run anyStep (boot db clock) h conf) :
    ∃ (h' : List (server cfg secret).Transition) (conf' : State),
      Run anyStep (boot db clock) h' conf' ∧
      h'.map Transition.label = h.map (fun m => replaced s m.label) ∧
      conf'.world = conf.world.map s ∧ (∀ t, idle (conf'.task t) = idle (conf.task t)) ∧
      ∀ h'' conf'', Run (M := server cfg secret) anyStep (boot db clock) h'' conf'' →
        h''.map Transition.label = h.map (fun m => replaced s m.label) →
          conf''.world = conf.world.map s := by
  have hboot : (replacing cfg secret s hs).Related (boot db clock) (boot db clock) :=
    ⟨rfl, fun t => .none⟩
  obtain ⟨h', conf', hr', hrel, hmatches⟩ := Simulation.run (replacing_open hs) hboot hr
  have hlabels : h'.map Transition.label = h.map fun m => replaced s m.label := by
    rw [Simulation.labels_of_matches hmatches]
    exact List.map_congr_left fun m _ => label_replacing hs m.label
  refine ⟨h', conf', hr', hlabels, hrel.world, fun t => hrel.idle t, ?_⟩
  intro h'' conf'' hr'' hlabels''
  obtain ⟨-, rfl⟩ := hr'.eq_of_labels hr'' (hlabels''.trans hlabels.symm)
  exact hrel.world

end Run

/-- A connection joins and submits a message. -/
def Sample.submitted : Script (M := server {} Sample.secret)
    (boot (Sample.store 2 [] [Sample.token]) 0) (fun _ _ => true)
    (fun _ (conf : State) => (conf.world.mgr.recentMessages Sample.room).map
      CachedMessage.payloadB64 = [ascii "hi"]) where
  labels := Sample.opening 0 ++ Sample.joining 0 Sample.token 9
    ++ Sample.handle (.ws 0) (Sample.frame [("type", "msg"), ("payload", "hi")]) 3
  performed := by decide +kernel

/-- The same connection could have submitted two NULs. -/
theorem payloads_unread_sample : ∃ (h : List (server {} Sample.secret).Transition) (conf : State),
    System.Run System.anyStep (boot (Sample.store 2 [] [Sample.token]) 0) h conf ∧
      (conf.world.mgr.recentMessages Sample.room).map CachedMessage.payloadB64 = [[0, 0]] := by
  obtain ⟨h, conf, hr, hhi⟩ := Sample.submitted.exists_run fun _ _ _ _ => trivial
  obtain ⟨h', conf', hr', -, hworld, -, -⟩ :=
    payloads_unread (s := fun t => List.replicate t.length 0) (fun t => List.length_replicate) hr
  refine ⟨h', conf', hr', ?_⟩
  have hhi : (conf.world.mgr.recentMessages Sample.room).map CachedMessage.payloadB64
      = [ascii "hi"] := of_decide_eq_true hhi
  have hmap : (conf'.world.mgr.recentMessages Sample.room).map CachedMessage.payloadB64
      = ((conf.world.mgr.recentMessages Sample.room).map CachedMessage.payloadB64).map
        fun t => List.replicate t.length 0 := by
    rw [hworld, World.map, map_recentMessages, List.map_map, List.map_map]
    rfl
  rw [hmap, hhi]
  simp [ascii]

end HashHush
