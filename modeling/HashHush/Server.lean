import HashHush.Concurrency.Interleaving
import HashHush.Handlers

/-!
# The server

The server as a system of tasks.  Every connection is a task that takes up the callbacks of the
WebSocket route one after the other: it is opened once, and then handles frames and closings for
as long as the object lives.  Every HTTP request is a task of its own, and so is the purger
thread.  The environment moves the clock and deletes connection objects: Crow may do so once
none of the connection's callbacks is running and `onWsClose` has forgotten it.

`Op.OfWs` and `Op.OfHttp` list the operations that the two kinds of tasks can call, and
`program_of` shows that the handlers keep to them.  What follows for every run is in the last
section: in particular the record of a connection is written by its own callbacks alone.
-/

namespace HashHush

open Concurrency

/-- What executes programs. -/
inductive Task
  /-- The callbacks of one connection. -/
  | ws (c : Conn)
  /-- One HTTP request. -/
  | http (n : ℕ)
  | purger
  deriving DecidableEq

/-- What makes a task start a program. -/
inductive Input
  | opened (room : Option Str)
  | message (data : Inbound)
  | closed
  | getPowChallenge
  | postRooms (body : Option Json)
  | activate (id : Str) (body : Option Json)
  | isAlive (body : Option Json)
  | deleteRoom (id : Str) (body : Option Json)
  | purge

/-- Events of the environment. -/
inductive Env
  /-- The clock of the machine shows a new time. -/
  | clock (t : ℤ)
  /-- Crow deletes a connection object. -/
  | destroy (c : Conn)

/-- The program a task runs on an input. -/
def program (cfg : Config) (secret : List UInt8) : Task → Input → Handler Str Unit
  | .ws c, .opened room => onopen c room
  | .ws c, .message data => onmessage cfg id c data
  | .ws c, .closed => onclose c
  | .http n, .getPowChallenge => getPowChallenge cfg secret n
  | .http n, .postRooms body => postRooms cfg secret n body
  | .http n, .activate id body => activate cfg n id body
  | .http n, .isAlive body => isAlive n body
  | .http n, .deleteRoom id body => deleteRoom n id body
  | .purger, .purge => purge cfg
  | _, _ => .ret ()

/-- What every task is doing, and the world they share. -/
abbrev State := Concurrency.Config (signature Str) (World Str) Task Unit

/-- Which inputs an idle task takes up: a connection is opened once and lives until it is
deleted, and a request is handled once. -/
def admits (c : State) : Task → Input → Bool
  | .ws d, .opened _ => (c.task (.ws d)).isNone
  | .ws d, .message _ | .ws d, .closed => (c.task (.ws d)).isSome && d ∉ c.world.destroyed
  | .http n, .getPowChallenge | .http n, .postRooms _ | .http n, .activate _ _
  | .http n, .isAlive _ | .http n, .deleteRoom _ _ => (c.task (.http n)).isNone
  | .purger, .purge => true
  | _, _ => false

/-- The events of the environment.  `Connection::check_destroy` deletes the object of a
connection that has been opened and closed. -/
def ambient : Env → State → Option (World Str)
  | .clock t, c => some { c.world with clock := t }
  | .destroy d, c =>
      if (c.task (.ws d)).any Prog.finished ∧ c.world.mgr.peers d = none ∧ d ∉ c.world.destroyed
      then some { c.world with destroyed := d :: c.world.destroyed }
      else none

/-- The server under a configuration and the secret of the process. -/
@[reducible] def server (cfg : Config) (secret : List UInt8) : System (signature Str) where
  World := World Str
  Choice := Choice
  Task := Task
  Input := Input
  Env := Env
  Out := Unit
  decTask := inferInstance
  exec := exec
  program := program cfg secret
  admits := admits
  ambient := ambient

/-- The world at the start of the process, over the store left by an earlier one. -/
def World.boot (db : Database) (clock : ℤ) : World Str :=
  ⟨db, .empty, fun _ => none, clock, [], [], []⟩

/-- The server at the start of the process. -/
def boot (db : Database) (clock : ℤ) : State := ⟨.boot db clock, fun _ => none⟩

/-! ## Which operations a task can call -/

/-- The operations of the callbacks of a connection. -/
def Op.OfWs {π : Type} (c : Conn) : Op π → Prop
  | .onWsAccept d _ _ | .onWsClose d | .findByConn d | .markPeerJoined d _
  | .setPending d _ _ => d = c
  | .findRoom _ | .touchRoom _ | .consumeChallenge _ | .insertAccessToken _ _ | .roomForToken _
  | .liveCount _ | .targets _ _ | .appendCachedMessage _ _ _ _ | .recentMessages _
  | .joinedPeerIds _ | .nowSeconds | .randomBytes _ | .sendText _ _ | .close _ _ => True
  | _ => False

/-- The operations that read, draw or send. -/
def Op.OfReply {π : Type} : Op π → Prop
  | .findRoom _ | .touchRoom _ | .liveCount _ | .targets _ _ | .recentMessages _ | .joinedPeerIds _
  | .nowSeconds | .randomBytes _ | .sendText _ _ | .close _ _ => True
  | _ => False

/-- The operations of a `hello` without a token. -/
def Op.OfHello {π : Type} (c : Conn) : Op π → Prop
  | .setPending d _ _ => d = c
  | .consumeChallenge _ => True
  | o => o.OfReply

/-- The operations of a frame of a connection that has not joined. -/
def Op.OfUnjoined {π : Type} (c : Conn) : Op π → Prop
  | .markPeerJoined d _ => d = c
  | .roomForToken _ | .insertAccessToken _ _ => True
  | o => o.OfHello c

/-- The operations that read, draw or send, but change nothing that decides who is admitted. -/
def Op.Passive {π : Type} : Op π → Prop
  | .findRoom _ | .touchRoom _ | .liveCount _ | .targets _ _ | .appendCachedMessage _ _ _ _
  | .recentMessages _ | .joinedPeerIds _ | .nowSeconds | .randomBytes _ | .sendText _ _
  | .close _ _ => True
  | _ => False

/-- The operations of the message handler of a connection. -/
def Op.OfMessage {π : Type} (c : Conn) : Op π → Prop
  | .onWsAccept _ _ _ | .onWsClose _ => False
  | o => o.OfWs c

lemma Op.OfMessage.ofWs {π : Type} {o : Op π} {c : Conn} (h : o.OfMessage c) : o.OfWs c := by
  cases o <;> first | exact h | exact h.elim

lemma Op.OfReply.passive {π : Type} {o : Op π} (h : o.OfReply) : o.Passive := by
  cases o <;> first | exact h | exact h.elim

lemma Op.OfReply.ofHello {π : Type} {o : Op π} (h : o.OfReply) (c : Conn) : o.OfHello c := by
  cases o <;> first | exact h | exact h.elim

lemma Op.OfHello.ofUnjoined {π : Type} {o : Op π} {c : Conn} (h : o.OfHello c) : o.OfUnjoined c := by
  cases o <;> first | exact h | exact h.elim

lemma Op.OfUnjoined.ofMessage {π : Type} {o : Op π} {c : Conn} (h : o.OfUnjoined c) :
    o.OfMessage c := by
  cases o <;> first | exact h | exact h.elim

lemma Op.Passive.ofMessage {π : Type} {o : Op π} (h : o.Passive) (c : Conn) : o.OfMessage c := by
  cases o <;> first | exact h | exact h.elim

lemma Op.Passive.ofWs {π : Type} {o : Op π} (h : o.Passive) (c : Conn) : o.OfWs c :=
  (h.ofMessage c).ofWs

/-- A passive operation changes no record, and no token. -/
lemma Op.Passive.frame {π : Type} {o : Op π} (h : o.Passive) (x : Choice) (w : World π) :
    (exec o x w).2.mgr.peers = w.mgr.peers ∧
      (exec o x w).2.db.accessTokens = w.db.accessTokens := by
  cases o with
  | appendCachedMessage _ _ _ _ => simp [exec]
  | touchRoom _ =>
      simp only [exec]
      split <;> exact ⟨rfl, rfl⟩
  | findRoom _ | liveCount _ | targets _ _ | recentMessages _ | joinedPeerIds _ | nowSeconds
  | randomBytes _ | sendText _ _ | close _ _ => exact ⟨rfl, rfl⟩
  | _ => exact h.elim

/-- The operations of the HTTP routes that neither evict anybody nor fill a pool; the ids of new
rooms are plain text. -/
def Op.Plain {π : Type} : Op π → Prop
  | .createRoom row => 0 ∉ row.id
  | .findRoom _ | .countRooms | .roomForToken _ | .commit _ _ _ | .nowSeconds | .randomBytes _
  | .respond _ _ => True
  | _ => False

/-- The operations of the activation of room `id`. -/
def Op.OfActivate {π : Type} (id : Str) : Op π → Prop
  | .activateRoom id' | .insertChallenges id' _ => id' = id
  | .findRoom _ | .respond _ _ => True
  | _ => False

/-- The operations of the removal of rooms, by request or by the purger. -/
def Op.OfRemoval {π : Type} : Op π → Prop
  | .deleteRoom _ | .roomsIdleSince _ | .closeRoom _ | .close _ _ => True
  | .sendText _ f => f = .deleted
  | o => o.Plain

/-- The operations of the HTTP routes and of the purger. -/
def Op.OfHttp {π : Type} : Op π → Prop
  | .activateRoom _ | .insertChallenges _ _ => True
  | o => o.OfRemoval

lemma Op.Plain.ofRemoval {π : Type} {o : Op π} (h : o.Plain) : o.OfRemoval := by
  cases o <;> first | exact h | exact h.elim

lemma Op.OfRemoval.ofHttp {π : Type} {o : Op π} (h : o.OfRemoval) : o.OfHttp := by
  cases o <;> first | exact h | exact h.elim

lemma Op.OfActivate.ofHttp {π : Type} {o : Op π} {id : Str} (h : o.OfActivate id) : o.OfHttp := by
  cases o <;> trivial

section Only

variable {π : Type} {P : Op π → Prop}

lemma sendEach_only {frame : Frame π} (h : ∀ c, P (.sendText c frame)) (cs : List Conn) :
    (sendEach frame cs).Only P := by
  induction cs with
  | nil => trivial
  | cons c cs ih => exact ⟨h c, fun _ => ih⟩

lemma broadcast_only {frame : Frame π} (ht : ∀ r e, P (.targets r e))
    (h : ∀ c, P (.sendText c frame)) (r : Str) (except : Option Conn) :
    (broadcast r frame except).Only P :=
  ⟨ht r except, fun cs => sendEach_only h cs⟩

lemma closeEach_only {frame : Frame π} (h : ∀ c, P (.sendText c frame)) (hc : ∀ c s, P (.close c s))
    (cs : List Conn) : (closeEach frame cs).Only P := by
  induction cs with
  | nil => trivial
  | cons c cs ih => exact ⟨h c, fun _ => ⟨hc c _, fun _ => ih⟩⟩

lemma sendChallenge_only {c : Conn} (hdraw : ∀ n, P (.randomBytes n))
    (hset : ∀ t e, P (.setPending c t e)) (hsend : ∀ x n, P (.sendText c (.challenge x n)))
    (pair : ChallengePair) : (sendChallenge c pair).Only P :=
  .step (hdraw _) fun _ => .step (hset _ _) fun _ => .perform (hsend _ _)

/-- What a `hello` without a token calls. -/
lemma helloWithoutToken_only {c : Conn} (hfind : ∀ r, P (.findRoom r)) (hlive : ∀ r, P (.liveCount r))
    (hconsume : ∀ r, P (.consumeChallenge r)) (hdraw : ∀ n, P (.randomBytes n))
    (hset : ∀ t e, P (.setPending c t e)) (hsend : ∀ x n, P (.sendText c (.challenge x n)))
    (peer : Peer) : (helloWithoutToken c peer).Only P := by
  refine Prog.Only.bind (.step (hfind _) fun roomRow => ?_) fun pair => ?_
  · cases roomRow with
    | none => trivial
    | some row =>
        refine .step (hlive _) fun live => Prog.Only.ite (fun _ => trivial) fun _ => ?_
        exact .perform (hconsume _)
  · cases pair with
    | some pair => exact sendChallenge_only hdraw hset hsend pair
    | none =>
        refine Prog.Only.bind ?_ fun pair => sendChallenge_only hdraw hset hsend pair
        exact .step (hdraw _) fun _ => .step (hdraw _) fun _ => .step (hdraw _) fun _ => trivial

end Only

section Ws

variable {π : Type} (c : Conn)

lemma broadcast_ofReply (r : Str) (frame : Frame π) (except : Option Conn) :
    (broadcast r frame except).Only Op.OfReply :=
  broadcast_only (fun _ _ => trivial) (fun _ => trivial) r except

lemma sendErr_ofReply (e : WsError) : (sendErr (π := π) c e).Only Op.OfReply :=
  .perform trivial

lemma sendErrAndClose_ofReply (e : WsError) : (sendErrAndClose (π := π) c e).Only Op.OfReply :=
  .step trivial fun _ => .perform trivial

lemma announceJoin_ofReply (r newPeerId : Str) (token : Option Str) :
    (announceJoin (π := π) c r newPeerId token).Only Op.OfReply := by
  refine .step trivial fun roomRow => .step trivial fun history => .step trivial fun members => ?_
  exact .step trivial fun _ => (broadcast_ofReply _ _ _).bind fun _ => .perform trivial

lemma broadcast_passive (r : Str) (frame : Frame π) (except : Option Conn) :
    (broadcast r frame except).Only Op.Passive :=
  (broadcast_ofReply r frame except).mono fun _ ho => ho.passive

lemma sendErr_passive (e : WsError) : (sendErr (π := π) c e).Only Op.Passive :=
  (sendErr_ofReply c e).mono fun _ ho => ho.passive

lemma sendErrAndClose_passive (e : WsError) : (sendErrAndClose (π := π) c e).Only Op.Passive :=
  (sendErrAndClose_ofReply c e).mono fun _ ho => ho.passive

lemma announceJoin_passive (r newPeerId : Str) (token : Option Str) :
    (announceJoin (π := π) c r newPeerId token).Only Op.Passive :=
  (announceJoin_ofReply c r newPeerId token).mono fun _ ho => ho.passive

lemma joined_passive (cfg : Config) (wrap : Str → π) (peer : Peer) (j : Json) (type : Str) :
    (joined cfg wrap c peer j type).Only Op.Passive := by
  unfold joined
  refine Prog.Only.ite (fun _ => ?_) fun _ => ?_
  · refine .ofExcept fun payload _ => ?_
    refine Prog.Only.ite (fun _ => sendErr_passive c _) fun _ => ?_
    refine Prog.Only.ite (fun _ => sendErr_passive c _) fun _ => Prog.Only.ite (fun _ => ?_) fun _ => ?_
    · refine .step trivial fun _ => .step trivial fun _ => .step trivial fun ts => ?_
      exact broadcast_passive _ _ _
    · exact .step trivial fun ts => broadcast_passive _ _ _
  · exact Prog.Only.ite (fun _ => .perform trivial) fun _ => sendErr_passive c _

lemma sendErr_ofMessage (e : WsError) : (sendErr (π := π) c e).Only (Op.OfMessage c) :=
  (sendErr_passive c e).mono fun _ ho => ho.ofMessage c

lemma sendErrAndClose_ofUnjoined (e : WsError) :
    (sendErrAndClose (π := π) c e).Only (Op.OfUnjoined c) :=
  (sendErrAndClose_ofReply c e).mono fun _ ho => (ho.ofHello c).ofUnjoined

lemma finalizeJoin_ofUnjoined (peer : Peer) (token : Str) (isFresh : Bool) :
    (finalizeJoin (π := π) c peer token isFresh).Only (Op.OfUnjoined c) :=
  .step rfl fun _ => (announceJoin_ofReply c _ _ _).mono fun _ ho => (ho.ofHello c).ofUnjoined

lemma helloWithToken_ofUnjoined (peer : Peer) (token : Str) :
    (helloWithToken (π := π) c peer token).Only (Op.OfUnjoined c) := by
  refine .step trivial fun owner => ?_
  exact Prog.Only.ite (fun _ => finalizeJoin_ofUnjoined c peer token false)
    fun _ => sendErrAndClose_ofUnjoined c _

lemma helloWithoutToken_ofHello (peer : Peer) :
    (helloWithoutToken (π := π) c peer).Only (Op.OfHello c) :=
  helloWithoutToken_only (fun _ => trivial) (fun _ => trivial) (fun _ => trivial)
    (fun _ => trivial) (fun _ _ => rfl) (fun _ _ => trivial) peer

lemma challengeResponse_ofUnjoined (peer : Peer) (answer : Str) :
    (challengeResponse (π := π) c peer answer).Only (Op.OfUnjoined c) := by
  refine Prog.Only.ite (fun _ => sendErrAndClose_ofUnjoined c _) fun _ => .step rfl fun _ => ?_
  refine Prog.Only.ite (fun _ => sendErrAndClose_ofUnjoined c _) fun _ => .step trivial fun inserted => ?_
  exact Prog.Only.ite (fun _ => finalizeJoin_ofUnjoined c peer _ true)
    fun _ => sendErrAndClose_ofUnjoined c _

lemma unjoined_ofUnjoined (peer : Peer) (j : Json) (type : Str) :
    (unjoined (π := π) c peer j type).Only (Op.OfUnjoined c) := by
  unfold unjoined
  refine Prog.Only.ite (fun _ => ?_) fun _ => Prog.Only.ite (fun _ => ?_) fun _ => ?_
  · refine .ofExcept fun token _ => ?_
    refine Prog.Only.ite (fun _ => helloWithToken_ofUnjoined c peer token) fun _ => ?_
    exact (helloWithoutToken_ofHello c peer).mono fun _ ho => ho.ofUnjoined
  · exact .ofExcept fun answer _ => challengeResponse_ofUnjoined c peer answer
  · exact sendErrAndClose_ofUnjoined c _

lemma onmessage_ofMessage (cfg : Config) (wrap : Str → π) (data : Inbound) :
    (onmessage cfg wrap c data).Only (Op.OfMessage c) := by
  unfold onmessage
  refine Prog.Only.ite (fun _ => .perform trivial) fun _ => ?_
  refine .step rfl fun peer => ?_
  cases peer with
  | none => exact .perform trivial
  | some peer =>
      cases data.json with
      | none => exact sendErr_ofMessage c _
      | some j =>
          refine .ofExcept fun hasType _ => Prog.Only.ite (fun _ => ?_) fun _ => sendErr_ofMessage c _
          refine .ofExcept fun v _ => .ofExcept fun type _ => ?_
          refine Prog.Only.ite (fun _ => ?_) fun _ => ?_
          · exact (joined_passive c cfg wrap peer j type).mono fun _ ho => ho.ofMessage c
          · exact (unjoined_ofUnjoined c peer j type).mono fun _ ho => ho.ofMessage

lemma onopen_ofWs (room : Option Str) : (onopen (π := π) c room).Only (Op.OfWs c) := by
  exact Prog.Only.ite (fun _ => trivial) fun _ => .step trivial fun bytes => .perform rfl

lemma onclose_ofWs : (onclose (π := π) c).Only (Op.OfWs c) := by
  refine .step rfl fun peer => ?_
  cases peer with
  | none => trivial
  | some p =>
      refine Prog.Only.ite (fun _ => ?_) fun _ => trivial
      exact (broadcast_passive _ _ _).mono fun _ ho => ho.ofWs c

end Ws

section Http

variable {π : Type} (n : ℕ)

lemma jsonError_plain (e : HttpError) : (jsonError (π := π) n e).Only Op.Plain :=
  .perform trivial

lemma getPowChallenge_plain (cfg : Config) (secret : List UInt8) :
    (getPowChallenge (π := π) cfg secret n).Only Op.Plain := by
  refine Prog.Only.bind ?_ fun challenge => .perform trivial
  exact .step trivial fun bytes => .step trivial fun now => trivial

lemma verifyChallenge_plain (secret : List UInt8) (challenge nonce : Str) (bits : ℤ) :
    (verifyChallenge (π := π) secret challenge nonce bits).Only Op.Plain := by
  unfold verifyChallenge
  split
  · trivial
  · refine Prog.Only.ite (fun _ => trivial) fun _ => Prog.Only.ite (fun _ => trivial) fun _ => ?_
    split
    · trivial
    · refine .step trivial fun now => ?_
      refine Prog.Only.ite (fun _ => trivial) fun _ => Prog.Only.ite (fun _ => trivial) fun _ => ?_
      refine .step trivial fun inserted => ?_
      exact Prog.Only.ite (fun _ => trivial) fun _ => trivial

lemma createRoom_plain (cfg : Config) (body : Json) :
    (createRoom (π := π) cfg n body).Only Op.Plain := by
  refine .ofExcept fun name _ => .ofExcept fun requiresPassword _ => ?_
  refine Prog.Only.bind ?_ fun count => ?_
  · split
    · exact .perform trivial
    · trivial
  · refine Prog.Only.ite (fun _ => jsonError_plain n _) fun _ => ?_
    refine .step trivial fun bytes => .step trivial fun now => ?_
    refine .step (zero_notMem_roomIdOfBytes bytes) fun inserted => ?_
    exact Prog.Only.ite (fun _ => .perform trivial) fun _ => jsonError_plain n _

lemma postRooms_plain (cfg : Config) (secret : List UInt8) (body : Option Json) :
    (postRooms (π := π) cfg secret n body).Only Op.Plain := by
  cases body with
  | none => exact jsonError_plain n _
  | some body =>
      refine .ofExcept fun hasPow _ => ?_
      refine Prog.Only.ite (fun _ => ?_) fun _ => jsonError_plain n _
      refine .ofExcept fun pow _ => ?_
      split
      · refine .ofExcept fun challenge _ => .ofExcept fun nonce _ => ?_
        refine Prog.Only.ite (fun _ => jsonError_plain n _) fun _ => ?_
        refine Prog.Only.ite (fun _ => jsonError_plain n _) fun _ => ?_
        refine (verifyChallenge_plain secret challenge nonce _).bind fun result => ?_
        cases result with
        | ok => exact createRoom_plain n cfg body
        | _ => exact jsonError_plain n _
      · exact jsonError_plain n _

lemma jsonError_ofActivate (id : Str) (e : HttpError) :
    (jsonError (π := π) n e).Only (Op.OfActivate id) :=
  .perform trivial

lemma finishActivation_ofActivate (id : Str) :
    (finishActivation (π := π) n id).Only (Op.OfActivate id) :=
  .step rfl fun _ => Prog.Only.ite (fun _ => .perform trivial) fun _ => jsonError_ofActivate n id _

lemma activate_ofActivate (cfg : Config) (id : Str) (body : Option Json) :
    (activate (π := π) cfg n id body).Only (Op.OfActivate id) := by
  refine .step trivial fun roomOpt => ?_
  cases roomOpt with
  | none => exact jsonError_ofActivate n id _
  | some row =>
      refine Prog.Only.ite (fun _ => jsonError_ofActivate n id _) fun _ => .ofExcept fun pool _ => ?_
      cases pool with
      | error e => exact jsonError_ofActivate n id e
      | ok pairs =>
          refine .step rfl fun inserted => ?_
          exact Prog.Only.ite (fun _ => finishActivation_ofActivate n id)
            fun _ => jsonError_ofActivate n id _

lemma aliveAndGone_plain (items : List Json) :
    (aliveAndGone (π := π) items).Only Op.Plain := by
  fun_induction aliveAndGone items with
  | case1 => trivial
  | case2 id items ih => exact .step trivial fun room => ih.bind fun _ => trivial
  | case3 item items _ ih => exact ih

lemma isAlive_plain (body : Option Json) : (isAlive (π := π) n body).Only Op.Plain := by
  refine .ofExcept fun items _ => (aliveAndGone_plain items).bind fun _ => ?_
  exact ⟨trivial, fun _ => trivial⟩

lemma removeRoom_ofRemoval (id : Str) : (removeRoom (π := π) id).Only Op.OfRemoval := by
  refine Prog.Only.bind (.step trivial fun targets => ?_) fun _ => .step trivial fun _ => trivial
  exact closeEach_only (fun _ => rfl) (fun _ _ => trivial) targets

lemma deleteRoom_ofRemoval (id : Str) (body : Option Json) :
    (deleteRoom (π := π) n id body).Only Op.OfRemoval := by
  have herror : ∀ e, (jsonError (π := π) n e).Only Op.OfRemoval := fun e =>
    (jsonError_plain n e).mono fun _ ho => ho.ofRemoval
  cases body with
  | none => exact herror _
  | some body =>
      refine .ofExcept fun token _ => Prog.Only.ite (fun _ => herror _) fun _ => ?_
      refine .step trivial fun owner => Prog.Only.ite (fun _ => ?_) fun _ => herror _
      exact (removeRoom_ofRemoval id).bind fun _ => .perform trivial

lemma purge_ofRemoval (cfg : Config) : (purge (π := π) cfg).Only Op.OfRemoval := by
  refine .step trivial fun now => .step trivial fun stale => ?_
  induction stale with
  | nil => trivial
  | cons id ids ih => exact (removeRoom_ofRemoval id).bind fun _ => ih

end Http

/-- The operations of a task. -/
def Op.Of : Task → Op Str → Prop
  | .ws c => Op.OfWs c
  | _ => Op.OfHttp

lemma program_of (cfg : Config) (secret : List UInt8) (t : Task) (i : Input) :
    (program cfg secret t i).Only (Op.Of t) := by
  have hplain : ∀ {p : Handler Str Unit}, p.Only Op.Plain → p.Only Op.OfHttp := fun hp =>
    hp.mono fun _ ho => ho.ofRemoval.ofHttp
  match t, i with
  | .ws c, .opened room => exact onopen_ofWs c room
  | .ws c, .message data => exact (onmessage_ofMessage c cfg id data).mono fun _ ho => ho.ofWs
  | .ws c, .closed => exact onclose_ofWs c
  | .http n, .getPowChallenge => exact hplain (getPowChallenge_plain n cfg secret)
  | .http n, .postRooms body => exact hplain (postRooms_plain n cfg secret body)
  | .http n, .activate id body => exact (activate_ofActivate n cfg id body).mono fun _ ho => ho.ofHttp
  | .http n, .isAlive body => exact hplain (isAlive_plain n body)
  | .http n, .deleteRoom id body => exact (deleteRoom_ofRemoval n id body).mono fun _ ho => ho.ofHttp
  | .purger, .purge => exact (purge_ofRemoval cfg).mono fun _ ho => ho.ofHttp
  | .ws _, .getPowChallenge | .ws _, .postRooms _ | .ws _, .activate _ _ | .ws _, .isAlive _
  | .ws _, .deleteRoom _ _ | .ws _, .purge => trivial
  | .http _, .opened _ | .http _, .message _ | .http _, .closed | .http _, .purge => trivial
  | .purger, .opened _ | .purger, .message _ | .purger, .closed | .purger, .getPowChallenge
  | .purger, .postRooms _ | .purger, .activate _ _ | .purger, .isAlive _
  | .purger, .deleteRoom _ _ => trivial

lemma Op.Of.writes_ne {t : Task} {o : Op Str} {c : Conn} (ho : Op.Of t o) (ht : t ≠ .ws c) :
    o.writes ≠ some c := by
  intro h
  cases t with
  | ws d =>
      have hd : d ≠ c := fun e => ht (e ▸ rfl)
      cases o <;> simp only [Op.writes, Option.some.injEq, reduceCtorEq] at h
      all_goals exact hd (ho.symm.trans h)
  | http n => cases o <;> first | exact ho | simp [Op.writes] at h
  | purger => cases o <;> first | exact ho | simp [Op.writes] at h

/-! ## Runs of the WebSocket route -/

/-- The transition is one of the callbacks of a connection, or of the environment. -/
def OnRoute {cfg : Config} {secret : List UInt8} (m : (server cfg secret).Transition) : Prop :=
  ∀ t, m.label.IsOf t → ∃ c, t = Task.ws c

/-- A test for such transitions. -/
def onRoute {cfg : Config} {secret : List UInt8} (m : (server cfg secret).Transition) : Bool :=
  match m.label with
  | .start (.ws _) _ | .advance (.ws _) _ | .env _ => true
  | _ => false

lemma onRoute_of_test {cfg : Config} {secret : List UInt8} {m : (server cfg secret).Transition}
    (hm : onRoute m = true) : OnRoute m := by
  obtain ⟨conf, l, conf'⟩ := m
  intro t ht
  cases l with
  | start u i =>
      obtain rfl : u = t := ht
      cases u with
      | ws c => exact ⟨c, rfl⟩
      | _ => cases hm
  | advance u x =>
      obtain rfl : u = t := ht
      cases u with
      | ws c => exact ⟨c, rfl⟩
      | _ => cases hm
  | env e => exact ht.elim

/-! ## What this means for every run -/

section Run

variable {cfg : Config} {secret : List UInt8} {db : Database} {clock : ℤ}
variable {ok : List (server cfg secret).Transition → (server cfg secret).Transition → Prop}
variable {h : List (server cfg secret).Transition} {conf conf' : State}

open System

/-- The environment sets the clock and deletes connections. -/
lemma ambient_spec {e : Env} {w : World Str} (h : ambient e conf = some w) :
    ∃ clock destroyed, w = { conf.world with clock, destroyed } := by
  cases e with
  | clock t =>
      obtain rfl : { conf.world with clock := t } = w := by simpa [ambient] using h
      exact ⟨t, _, rfl⟩
  | destroy d =>
      simp only [ambient, Option.ite_none_right_eq_some, Option.some.injEq] at h
      exact ⟨_, _, h.2.symm⟩

lemma ambient_mgr {e : Env} {w : World Str} (h : ambient e conf = some w) :
    w.mgr = conf.world.mgr := by
  obtain ⟨clock, destroyed, rfl⟩ := ambient_spec h
  rfl

lemma ambient_db {e : Env} {w : World Str} (h : ambient e conf = some w) :
    w.db = conf.world.db := by
  obtain ⟨clock, destroyed, rfl⟩ := ambient_spec h
  rfl

lemma ambient_wire {e : Env} {w : World Str} (h : ambient e conf = some w) :
    w.wire = conf.world.wire := by
  obtain ⟨clock, destroyed, rfl⟩ := ambient_spec h
  rfl

/-- Whatever is left of a program calls operations of its task only. -/
theorem task_only (hr : Run (M := server cfg secret) ok (boot db clock) h conf) {t : Task}
    {p : Handler Str Unit} (hp : conf.task t = some p) : p.Only (Op.Of t) :=
  hr.only (P := Op.Of) (by simp [boot]) (fun _ _ t i _ _ _ _ => program_of cfg secret t i) t p hp

/-- The record of a connection is written by its own callbacks alone. -/
theorem peers_of_not_isOf (hr : Run (M := server cfg secret) ok (boot db clock) h conf)
    {l : (server cfg secret).Label} (hs : step conf l = some conf') {c : Conn}
    (hl : ¬ l.IsOf (Task.ws c)) : conf'.world.mgr.peers c = conf.world.mgr.peers c := by
  cases l with
  | start t i =>
      obtain ⟨-, -, rfl⟩ := step_start hs
      rfl
  | advance t x =>
      obtain ⟨o, k, ht, rfl⟩ := step_advance hs
      exact exec_peers ((task_only hr ht).1.writes_ne hl) x _
  | env e =>
      obtain ⟨w, hw, rfl⟩ := step_env hs
      exact congrFun (congrArg RoomManager.peers (ambient_mgr hw)) c

/-- A connection that has not been opened is not registered. -/
theorem peers_of_unopened (hr : Run (M := server cfg secret) ok (boot db clock) h conf)
    {c : Conn} (hc : conf.task (.ws c) = none) : conf.world.mgr.peers c = none := by
  refine hr.invariant
    (I := fun _ (conf : State) => conf.task (.ws c) = none → conf.world.mgr.peers c = none)
    (fun _ => rfl) ?_ hc
  intro h conf l conf' hr ih hs _ hc
  by_cases hl : l.IsOf (Task.ws c)
  · cases l with
    | start t i =>
        obtain rfl : t = .ws c := hl
        simp [(step_start hs).2.2] at hc
    | advance t x =>
        obtain rfl : t = .ws c := hl
        obtain ⟨o, k, -, rfl⟩ := step_advance hs
        simp at hc
    | env e => exact hl.elim
  · rw [peers_of_not_isOf hr hs hl]
    exact ih (step_task_of_not_isOf hs hl ▸ hc)

/-- A connection object that is gone stays gone. -/
lemma ambient_destroyed {e : Env} {w : World Str} (h : ambient e conf = some w) :
    conf.world.destroyed ⊆ w.destroyed := by
  cases e with
  | clock t =>
      obtain rfl : { conf.world with clock := t } = w := by simpa [ambient] using h
      exact List.Subset.refl _
  | destroy d =>
      simp only [ambient, Option.ite_none_right_eq_some, Option.some.injEq] at h
      obtain ⟨-, rfl⟩ := h
      exact List.subset_cons_self _ _

end Run

/-! ## A small server

A room with two places, one challenge and one token, for examples of runs. -/

namespace Sample

def room : Str := ascii "room"

def token : Str := ascii "token"

def secret : List UInt8 := ascii "secret"

/-- A room of a capacity with its pool and the tokens stored for it. -/
def store (capacity : ℤ) (pool : List ChallengePair) (tokens : List Str) : Database :=
  tokens.foldl (fun d t => (d.insertAccessToken t room 0).2)
    ((Database.empty.createRoom ⟨room, ascii "Secret chat", capacity, 0, 0, true, false⟩).2
      |>.insertChallenges room pool).2

/-- A frame with the given string fields. -/
def frame (fields : List (String × String)) : Input :=
  .message ⟨100, some (.object (fields.map fun f => (ascii f.1, .string (ascii f.2))))⟩

/-- A draw of the bytes `b`, `b`, … under which the SQL succeeds. -/
def draw (b : UInt8) : Choice := ⟨fun _ => b, true⟩

/-- A task takes up an input and performs `n` calls. -/
def handle (t : Task) (i : Input) (n : ℕ) : List (server {} secret).Label :=
  .start t i :: List.replicate n (.advance t (draw 0))

/-- A connection is opened for the room. -/
def opening (c : Conn) : List (server {} secret).Label := handle (.ws c) (.opened (some room)) 2

/-- A connection presents a token and performs `n` calls: two to look it up, and a third that
promotes the peer. -/
def joining (c : Conn) (token : Str) (n : ℕ) : List (server {} secret).Label :=
  handle (.ws c) (.message ⟨100, some (.object
    [(ascii "type", .string (ascii "hello")), (ascii "token", .string token)])⟩) n

end Sample

end HashHush
