import HashHush.Dialogue
import HashHush.Properties.FrameHandling

/-!
# The registry, and whom a relayed frame reaches

`RoomManager` keeps two maps that say the same thing in two ways, and its readers go through one
of them and look things up in the other.  `RoomManager.Reachable` are the registries that any
sequence of calls can lead to, as long as a connection is accepted only while it is not
registered; `RoomManager.Reachable.consistent` says that the maps agree in all of them.

What the message handler relays follows from that: `registry_exact` says to whom it sends, how
often and what, for a handler that is run alone from any such registry, and for a handler of the
server whose calls interleave with those of any other tasks.
-/

namespace HashHush

open Concurrency System

/-! ## Calls of the registry -/

namespace RoomManager

variable {π : Type}

/-- The calls of the registry.  `broadcast` stands for its critical section, and `closeRoom` too:
like the other readers they find connections to send to. -/
inductive Call (π : Type)
  | onWsAccept (c : Conn) (roomId peerId : Str)
  | markPeerJoined (c : Conn) (peerId : Str)
  | setPending (c : Conn) (pendingToken expectedPlaintext : Str)
  | onWsClose (c : Conn)
  | broadcast (roomId : Str) (except : Option Conn)
  | closeRoom (roomId : Str)
  | appendCachedMessage (roomId senderPeerId : Str) (payload : π) (cacheSize now : ℤ)
  | recentMessages (roomId : Str)
  | dropMessageCache (roomId : Str)

/-- The registry after a call. -/
def perform (m : RoomManager π) : Call π → RoomManager π
  | .onWsAccept c roomId peerId => m.onWsAccept c roomId peerId
  | .markPeerJoined c peerId => m.markPeerJoined c peerId
  | .setPending c token expected => m.setPending c token expected
  | .onWsClose c => (m.onWsClose c).2
  | .broadcast _ _ | .recentMessages _ => m
  | .closeRoom roomId => (m.closeRoom roomId).2
  | .appendCachedMessage roomId sender payload n now =>
      m.appendCachedMessage roomId sender payload n now
  | .dropMessageCache roomId => m.dropMessageCache roomId

/-- The registries that calls lead to: any calls in any order, but a connection is accepted only
while it is not registered. -/
inductive Reachable : RoomManager π → Prop
  | empty : Reachable .empty
  | call {m : RoomManager π} (h : Reachable m) (a : Call π)
      (ha : ∀ c roomId peerId, a = .onWsAccept c roomId peerId → m.peers c = none) :
      Reachable (m.perform a)

/-- The connection has joined the room. -/
def joinedIn (m : RoomManager π) (r : Str) (c : Conn) : Bool :=
  (m.peers c).any fun p => p.roomId = r && p.joined

variable {m : RoomManager π}

lemma joinedIn_eq_true {r : Str} {c : Conn} :
    m.joinedIn r c = true ↔ ∃ p, m.peers c = some p ∧ p.roomId = r ∧ p.joined = true := by
  cases hp : m.peers c <;> simp [joinedIn, hp]

/-- A call keeps the registry consistent. -/
lemma Consistent.perform (hm : m.Consistent) (a : Call π)
    (ha : ∀ c roomId peerId, a = .onWsAccept c roomId peerId → m.peers c = none) :
    (m.perform a).Consistent := by
  cases a with
  | onWsAccept c r id => exact hm.onWsAccept (ha c r id rfl) r id
  | markPeerJoined c id => exact hm.modify c fun _ => rfl
  | setPending c token expected => exact hm.modify c fun _ => rfl
  | onWsClose c => exact hm.onWsClose c
  | broadcast r except => exact hm
  | closeRoom r => exact hm.closeRoom r
  | appendCachedMessage r sender payload n now => exact hm.appendCachedMessage r sender payload n now
  | recentMessages r => exact hm
  | dropMessageCache r => exact hm.dropMessageCache r

/-- The maps of the registry agree, whatever calls have been made. -/
theorem Reachable.consistent (h : m.Reachable) : m.Consistent := by
  induction h with
  | empty => exact .empty
  | call _ a ha ih => exact ih.perform a ha

/-! ## The readers -/

/-- A connection is listed under a room by exactly the entry of the room. -/
lemma mem_connsOf {r : Str} {c : Conn} : c ∈ m.connsOf r ↔ ∃ l, m.byRoom r = some l ∧ c ∈ l := by
  cases hr : m.byRoom r <;> simp [connsOf, hr]

/-- No connection is listed under two rooms. -/
lemma Consistent.unique (hm : m.Consistent) {r s : Str} {c : Conn} (hr : c ∈ m.connsOf r)
    (hs : c ∈ m.connsOf s) : r = s := by
  obtain ⟨p, hp, rfl⟩ := (hm.mem_iff r c).mp hr
  obtain ⟨q, hq, rfl⟩ := (hm.mem_iff s c).mp hs
  have hpq : p = q := Option.some.inj (hp.symm.trans hq)
  rw [hpq]

/-- A broadcast goes to the joined connections of the room. -/
lemma Consistent.mem_targets_iff (hm : m.Consistent) {r : Str} {except : Option Conn} {c : Conn} :
    c ∈ m.targets r except ↔ m.joinedIn r c = true ∧ some c ≠ except := by
  rw [mem_targets, hm.mem_iff, joinedIn_eq_true]
  constructor
  · rintro ⟨⟨p, hp, hr⟩, hne, hj⟩
    have hjoined : p.joined = true := by simpa [isJoined, hp] using hj
    exact ⟨⟨p, hp, hr, hjoined⟩, hne⟩
  · rintro ⟨⟨p, hp, hr, hj⟩, hne⟩
    have hjoined : m.isJoined c = true := by simp [isJoined, hp, hj]
    exact ⟨⟨p, hp, hr⟩, hne, hjoined⟩

lemma Consistent.nodup_targets (hm : m.Consistent) (r : Str) (except : Option Conn) :
    (m.targets r except).Nodup :=
  (hm.nodup r).filter _

/-- The members of a room are as many as the connections that count as live. -/
lemma length_joinedPeerIds (m : RoomManager π) (r : Str) :
    ((m.joinedPeerIds r).length : ℤ) = m.liveCount r := by
  have hlength : ∀ l : List Conn, (l.filterMap fun c =>
      ((m.peers c).filter Peer.joined).map Peer.peerId).length = (l.filter m.isJoined).length := by
    intro l
    induction l with
    | nil => rfl
    | cons c l ih =>
        cases hp : m.peers c with
        | none => simpa [hp, isJoined] using ih
        | some p => cases hj : p.joined <;> simpa [hp, hj, isJoined] using ih
  rw [joinedPeerIds, hlength, liveCount]

/-- So are the targets of a broadcast that leaves out nobody. -/
lemma length_targets (m : RoomManager π) (r : Str) :
    ((m.targets r none).length : ℤ) = m.liveCount r := by
  simp [targets, liveCount]

end RoomManager

/-! ## What a program asks of a connection -/

/-- What is asked of connection `d`, in order. -/
def addressedTo (d : Conn) (out : List (Conn × Outgoing Str)) : List (Outgoing Str) :=
  out.filterMap fun o => if o.1 = d then some o.2 else none

/-- What these calls ask of Crow, in order. -/
def outgoing (es : List (Called (signature Str))) : List (Conn × Outgoing Str) :=
  es.filterMap fun e => Op.outgoing e.1

/-- The frame is sent once to every connection that has joined the room, but one, and nothing is
sent to any other. -/
def DeliversTo (m : RoomManager Str) (r : Str) (except : Option Conn) (f : Frame Str)
    (out : List (Conn × Outgoing Str)) : Prop :=
  ∀ d, addressedTo d out
    = if m.joinedIn r d = true ∧ some d ≠ except then [.text f] else []

lemma addressedTo_map (x : Outgoing Str) (d : Conn) {cs : List Conn} (hcs : cs.Nodup) :
    addressedTo d (cs.map fun c => (c, x)) = if d ∈ cs then [x] else [] := by
  induction cs with
  | nil => rfl
  | cons c cs ih =>
      obtain ⟨hc, hcs⟩ := List.nodup_cons.mp hcs
      have ih := ih hcs
      by_cases hd : c = d
      · subst hd
        rw [if_neg hc] at ih
        simpa [addressedTo] using ih
      · have hmem : d ∈ c :: cs ↔ d ∈ cs := by simp [Ne.symm hd]
        simp only [hmem]
        simpa [addressedTo, hd] using ih

/-- Sending to the targets of a broadcast delivers. -/
lemma deliversTo_targets {m : RoomManager Str} (hm : m.Consistent) (r : Str)
    (except : Option Conn) (f : Frame Str) :
    DeliversTo m r except f ((m.targets r except).map fun c => (c, .text f)) := by
  intro d
  rw [addressedTo_map _ d (hm.nodup_targets r except)]
  simp only [hm.mem_targets_iff]

/-! ## The frames that are relayed -/

/-- The frame is an object with this type and this payload. -/
def Inbound.Carries (data : Inbound) (type payload : Str) : Prop :=
  ∃ j, data.json = some j ∧ j.type? = some type ∧ j.js_str (ascii "payload") = .ok payload

/-- The frame is relayed: a message or a presence, with a payload, within the limits. -/
structure Inbound.Relayed (cfg : Config) (data : Inbound) (type payload : Str) : Prop where
  type_mem : type = ascii "msg" ∨ type = ascii "presence"
  carries : data.Carries type payload
  nonempty : payload ≠ []
  size_le : castInt data.size ≤ cfg.wsMaxPayloadBytes
  payload_le : castInt payload.length ≤ cfg.wsMaxPayloadBytes

/-- The frame that the room gets. -/
def relayedFrame (type peerId payload : Str) (ts : ℤ) : Frame Str :=
  if type = ascii "msg" then .msg peerId payload ts else .presence peerId payload ts

/-- The connection that does not get it. -/
def spared (c : Conn) (type : Str) : Option Conn := if type = ascii "msg" then none else some c

/-- The part of the handler that relays. -/
def relay (cfg : Config) (c : Conn) (peer : Peer) (type payload : Str) : Handler Str Unit :=
  if type = ascii "msg" then relayMsg cfg peer payload else relayPresence c peer payload

/-- A value with a type trips no accessor. -/
lemma Json.not_trips {j : Json} {t : Str} (h : j.type? = some t) : j.trips = false := by
  cases j with
  | object fields =>
      simp only [type?] at h
      split at h
      · rename_i key t' hf
        simp [trips, hf]
      · cases h
  | _ => cases h

/-- A passive operation writes no record. -/
lemma Op.Passive.writes {o : Op Str} (h : o.Passive) : o.writes = none := by
  cases o <;> first | rfl | exact h.elim

section Relay

variable {cfg : Config} {c : Conn} {data : Inbound} {type payload : Str} {peer : Peer}

lemma joined_relayed (h : data.Relayed cfg type payload) {j : Json}
    (hpayload : j.js_str (ascii "payload") = .ok payload) :
    joined cfg id c peer j type = relay cfg c peer type payload := by
  unfold joined
  rw [if_pos h.type_mem, hpayload, json_ok_bind, if_neg h.nonempty, if_neg (not_lt.mpr h.payload_le)]
  rfl

lemma relay_passive (cfg : Config) (type payload : Str) :
    (relay cfg c peer type payload).Only Op.Passive := by
  refine Prog.Only.ite (fun _ => ?_) fun _ => .step trivial fun ts => broadcast_passive _ _ _
  exact .step trivial fun _ => .step trivial fun _ => .step trivial fun ts => broadcast_passive _ _ _

/-- What the handler does with a frame that has a type, once it has read the record. -/
lemma onmessage_typed (hsize : castInt data.size ≤ cfg.wsMaxPayloadBytes) {j : Json}
    (hj : data.json = some j) (htype : j.type? = some type) :
    ∃ f : Option Peer → Handler Str Unit, onmessage cfg id c data = (call (.findByConn c) >>= f) ∧
      ∀ peer, f (some peer)
        = if peer.joined = true then joined cfg id c peer j type else unjoined c peer j type := by
  have htrips : j.trips = false := j.not_trips htype
  unfold onmessage
  rw [if_neg (not_lt.mpr hsize)]
  refine ⟨_, rfl, fun peer => ?_⟩
  rcases j.reads with ⟨ht, -⟩ | ⟨-, hnone, -⟩ | ⟨ht, -⟩ | ⟨fields, t, -, -, ht, hhas, hat⟩
  · simp [htrips] at ht
  · simp [htype] at hnone
  · simp [htrips] at ht
  · obtain rfl : type = t := Option.some.inj (htype.symm.trans ht)
    simp only [hj, hhas, hat]
    rw [json_ok_bind, if_pos rfl, json_ok_bind]
    change (json (.ok type) >>= fun type => _) = _
    rw [json_ok_bind]

/-- What it does with a frame that is relayed. -/
lemma onmessage_relayed (h : data.Relayed cfg type payload) :
    ∃ f : Option Peer → Handler Str Unit, onmessage cfg id c data = (call (.findByConn c) >>= f) ∧
      ∀ peer, peer.joined = true → f (some peer) = relay cfg c peer type payload := by
  obtain ⟨j, hj, htype, hpayload⟩ := h.carries
  obtain ⟨f, hf, hpeer⟩ := onmessage_typed (c := c) h.size_le hj htype
  refine ⟨f, hf, fun peer hjoined => ?_⟩
  rw [hpeer, if_pos hjoined, joined_relayed h hpayload]

/-! ## What the relay calls -/

lemma sendEach_path {f : Frame Str} {q : Handler Str Unit} (hq : q.finished = true)
    {cs : List Conn} : ∀ {es : List (Called (signature Str))},
      (sendEach f cs).Path (S := signature Str) es q →
        es = cs.map fun d => ⟨.sendText d f, ()⟩ := by
  induction cs with
  | nil => exact fun h => (h.of_finished rfl).1
  | cons d cs ih =>
      intro es h
      obtain ⟨-, es', rfl, h⟩ := Prog.Path.perform_bind h hq
      rw [ih h]
      rfl

lemma outgoing_sendEach (f : Frame Str) (cs : List Conn) :
    outgoing (cs.map fun d => (⟨.sendText d f, ()⟩ : Called (signature Str)))
      = cs.map fun d => (d, .text f) := by
  induction cs with
  | nil => rfl
  | cons d cs ih =>
      rw [List.map_cons, List.map_cons, ← ih]
      rfl

/-- A broadcast finds its targets and sends to each of them. -/
lemma broadcast_path {r : Str} {f : Frame Str} {except : Option Conn} {q : Handler Str Unit}
    (hq : q.finished = true) {es : List (Called (signature Str))}
    (h : (broadcast r f except).Path es q) : ∃ cs : List Conn,
      es = ⟨.targets r except, cs⟩ :: cs.map fun d => ⟨.sendText d f, ()⟩ := by
  obtain ⟨cs, es', rfl, hsend⟩ := Prog.Path.perform_bind h hq
  exact ⟨cs, congrArg _ (sendEach_path hq hsend)⟩

/-- The relay finds its targets, once, and sends them the frame. -/
lemma relay_path {q : Handler Str Unit} (hq : q.finished = true)
    {es : List (Called (signature Str))} (h : (relay cfg c peer type payload).Path es q) :
    ∃ ts, ∃ cs : List Conn, ⟨.targets peer.roomId (spared c type), cs⟩ ∈ es ∧
      outgoing es = cs.map fun d => (d, .text (relayedFrame type peer.peerId payload ts)) := by
  unfold relay at h
  unfold relayedFrame spared
  split at h
  · rename_i ht
    rw [if_pos ht]
    obtain ⟨-, es₁, rfl, h₁⟩ := Prog.Path.perform_bind h hq
    obtain ⟨-, es₂, rfl, h₂⟩ := Prog.Path.perform_bind h₁ hq
    obtain ⟨ts, es₃, rfl, h₃⟩ := Prog.Path.perform_bind h₂ hq
    obtain ⟨cs, rfl⟩ := broadcast_path hq h₃
    refine ⟨ts, cs, by simp, ?_⟩
    rw [if_pos ht, ← outgoing_sendEach]
    rfl
  · rename_i ht
    rw [if_neg ht]
    obtain ⟨ts, es₁, rfl, h₁⟩ := Prog.Path.perform_bind h hq
    obtain ⟨cs, rfl⟩ := broadcast_path hq h₁
    refine ⟨ts, cs, by simp, ?_⟩
    rw [if_neg ht, ← outgoing_sendEach]
    rfl

end Relay

/-! ## The id of a joined peer -/

/-- The id is derived from a token that was looked up with success, or stored, in these calls. -/
def Identified (id : Str) (es : List (Called (signature Str))) : Prop :=
  ∃ token r, id = peerIdFromToken token ∧
    (⟨.roomForToken token, some r⟩ ∈ es ∨ ⟨.insertAccessToken token r, true⟩ ∈ es)

lemma Identified.snoc {id : Str} {es : List (Called (signature Str))} (h : Identified id es)
    (es' : List (Called (signature Str))) : Identified id (es ++ es') := by
  obtain ⟨token, r, hid, hes⟩ := h
  exact ⟨token, r, hid, hes.imp (List.mem_append_left _) (List.mem_append_left _)⟩

/-- A peer is promoted under an id that is derived from its token. -/
def identifiedPre : Op Str → List (Called (signature Str)) → Prop
  | .markPeerJoined _ id, es => Identified id es
  | _, _ => True

/-- The specification of a task with respect to the ids of peers. -/
abbrev identified : Spec (signature Str) (List (Called (signature Str))) :=
  .traced identifiedPre fun _ _ => True

/-- The operations that promote nobody. -/
def Op.Nameless : Op Str → Prop
  | .markPeerJoined _ _ => False
  | _ => True

lemma Op.Passive.nameless {o : Op Str} (h : o.Passive) : o.Nameless := by
  cases o <;> trivial

lemma Op.OfHttp.nameless {o : Op Str} (h : o.OfHttp) : o.Nameless := by
  cases o <;> trivial

lemma Op.OfHello.nameless {o : Op Str} {c : Conn} (h : o.OfHello c) : o.Nameless := by
  cases o <;> trivial

section Wp

variable {c : Conn} {s : List (Called (signature Str))}

lemma wp_of_nameless {p : Handler Str Unit} (hp : p.Only Op.Nameless) :
    p.Wp identified (fun _ _ => True) s := by
  refine hp.wp_traced (J := fun _ => True) ?_ (fun _ _ _ _ _ => trivial) (fun _ _ _ => trivial)
    trivial
  intro o es ho _
  cases o <;> trivial

lemma wp_of_passive_identified {p : Handler Str Unit} (hp : p.Only Op.Passive) :
    p.Wp identified (fun _ _ => True) s :=
  wp_of_nameless (hp.mono fun _ ho => ho.nameless)

lemma finalizeJoin_identified (peer : Peer) (token : Str) (isFresh : Bool)
    (h : Identified (peerIdFromToken token) s) :
    (finalizeJoin c peer token isFresh).Wp identified (fun _ _ => True) s :=
  .traced h fun _ _ => wp_of_passive_identified (announceJoin_passive c _ _ _)

lemma unjoined_identified (peer : Peer) (j : Json) (type : Str) :
    (unjoined c peer j type).Wp identified (fun _ _ => True) s := by
  unfold unjoined
  refine Prog.Wp.ite (fun _ => ?_) fun _ => Prog.Wp.ite (fun _ => ?_) fun _ => ?_
  · refine .ofExcept (fun token _ => ?_) fun _ _ => trivial
    refine Prog.Wp.ite (fun _ => ?_) fun _ =>
      wp_of_nameless ((helloWithoutToken_ofHello c peer).mono fun _ ho => ho.nameless)
    refine .traced trivial fun owner _ => ?_
    refine Prog.Wp.ite (fun howner => ?_) fun _ =>
      wp_of_passive_identified (sendErrAndClose_passive c _)
    obtain rfl : owner = some peer.roomId := howner
    exact finalizeJoin_identified peer token false ⟨token, peer.roomId, rfl, .inl (by simp)⟩
  · refine .ofExcept (fun answer _ => ?_) fun _ _ => trivial
    unfold challengeResponse
    refine Prog.Wp.ite (fun _ => wp_of_passive_identified (sendErrAndClose_passive c _)) fun _ => ?_
    refine .traced trivial fun _ _ => Prog.Wp.ite
      (fun _ => wp_of_passive_identified (sendErrAndClose_passive c _)) fun _ => ?_
    refine .traced trivial fun inserted _ => ?_
    refine Prog.Wp.ite (fun hinserted => ?_) fun _ =>
      wp_of_passive_identified (sendErrAndClose_passive c _)
    obtain rfl : inserted = true := hinserted
    exact finalizeJoin_identified peer _ true ⟨_, peer.roomId, rfl, .inr (by simp)⟩
  · exact wp_of_passive_identified (sendErrAndClose_passive c _)

lemma onmessage_identified (cfg : Config) (data : Inbound) :
    (onmessage cfg id c data).Wp identified (fun _ _ => True) s := by
  unfold onmessage
  refine Prog.Wp.ite (fun _ => wp_of_passive_identified (.perform trivial)) fun _ => ?_
  refine .traced trivial fun peer _ => ?_
  cases peer with
  | none => exact wp_of_passive_identified (.perform trivial)
  | some peer =>
      cases data.json with
      | none => exact wp_of_passive_identified (sendErr_passive c _)
      | some j =>
          refine .ofExcept (fun hasType _ => ?_) fun _ _ => trivial
          refine Prog.Wp.ite (fun _ => ?_) fun _ => wp_of_passive_identified (sendErr_passive c _)
          refine .ofExcept (fun v _ => .ofExcept (fun type _ => ?_) fun _ _ => trivial)
            fun _ _ => trivial
          refine Prog.Wp.ite (fun _ => ?_) fun _ => unjoined_identified peer j type
          exact wp_of_passive_identified (joined_passive c cfg id peer j type)

lemma onopen_nameless (room : Option Str) : (onopen c room).Only Op.Nameless :=
  Prog.Only.ite (fun _ => trivial) fun _ => .step trivial fun _ => .perform trivial

lemma onclose_nameless : (onclose c : Handler Str Unit).Only Op.Nameless := by
  refine .step trivial fun peer => ?_
  cases peer with
  | none => trivial
  | some p =>
      refine Prog.Only.ite (fun _ => ?_) fun _ => trivial
      exact (broadcast_passive _ _ _).mono fun _ ho => ho.nameless

end Wp

/-- A peer that has joined after an operation had joined before under the same id, or the
operation promoted it. -/
lemma exec_joined (o : Op Str) (x : Choice) (w : World Str) {c : Conn} {p : Peer}
    (hp : (exec o x w).2.mgr.peers c = some p) (hj : p.joined = true) :
    (∃ q, w.mgr.peers c = some q ∧ q.joined = true ∧ q.peerId = p.peerId ∧ q.roomId = p.roomId) ∨
      o = .markPeerJoined c p.peerId := by
  have hsame : w.mgr.peers c = some p → (∃ q, w.mgr.peers c = some q ∧ q.joined = true ∧
      q.peerId = p.peerId ∧ q.roomId = p.roomId) := fun h => ⟨p, h, hj, rfl, rfl⟩
  by_cases hwrites : o.writes = some c
  · cases o with
    | onWsAccept d r id =>
        obtain rfl : d = c := Option.some.inj hwrites
        cases hd : w.mgr.peers d with
        | none =>
            simp only [exec, RoomManager.peers_onWsAccept _ hd, Function.update_self,
              Option.some.injEq] at hp
            subst hp
            cases hj
        | some q =>
            simp only [exec, RoomManager.onWsAccept, hd] at hp
            exact .inl ⟨p, hp, hj, rfl, rfl⟩
    | onWsClose d =>
        obtain rfl : d = c := Option.some.inj hwrites
        simp [exec, RoomManager.peers_onWsClose] at hp
    | markPeerJoined d id =>
        obtain rfl : d = c := Option.some.inj hwrites
        simp only [exec, RoomManager.markPeerJoined, RoomManager.peers_modify, if_true,
          Option.map_eq_some_iff] at hp
        obtain ⟨q, -, rfl⟩ := hp
        exact .inr rfl
    | setPending d t e =>
        obtain rfl : d = c := Option.some.inj hwrites
        simp only [exec, RoomManager.setPending, RoomManager.peers_modify, if_true,
          Option.map_eq_some_iff] at hp
        obtain ⟨q, hq, rfl⟩ := hp
        exact .inl ⟨q, hq, hj, rfl, rfl⟩
    | _ => cases hwrites
  · exact .inl (hsame (by rwa [exec_peers hwrites] at hp))

section Run

variable {cfg : Config} {secret : List UInt8} {db : Database} {clock : ℤ}
variable {ok : List (server cfg secret).Transition → (server cfg secret).Transition → Prop}
variable {h : List (server cfg secret).Transition} {conf : State}

/-- Every connection promotes itself under the id of its token. -/
lemma serves_identified (hr : Run (M := server cfg secret) ok (boot db clock) h conf) (c : Conn) :
    Serves (M := server cfg secret) identified (fun _ => True) (conf.task (.ws c))
      (calls (M := server cfg secret) (Task.ws c) h) := by
  refine hr.traced (M := server cfg secret) (Task.ws c) ?_ ?_ ?_
  · trivial
  rotate_left
  · exact fun _ _ _ _ _ _ _ _ _ _ _ => trivial
  intro h conf i conf' hr hs _
  obtain ⟨-, hadm, -⟩ := step_start hs
  cases i with
  | opened room => exact wp_of_nameless (onopen_nameless room)
  | message data => exact onmessage_identified cfg data
  | closed => exact wp_of_nameless onclose_nameless
  | _ => exact absurd hadm (by simp [admits])

/-- A joined peer bears the id of the token that its connection presented or was given. -/
theorem identified_of_joined (hr : Run (M := server cfg secret) ok (boot db clock) h conf)
    {c : Conn} {p : Peer} (hp : conf.world.mgr.peers c = some p) (hj : p.joined = true) :
    Identified p.peerId (calls (M := server cfg secret) (Task.ws c) h) := by
  refine hr.invariant (I := fun h (conf : State) => ∀ p, conf.world.mgr.peers c = some p →
    p.joined = true → Identified p.peerId (calls (M := server cfg secret) (Task.ws c) h))
    (by simp [boot, World.boot, RoomManager.empty]) ?_ p hp hj
  intro h conf l conf' hr ih hs _ p hp hj
  rw [calls_snoc]
  refine Identified.snoc ?_ _
  cases l with
  | start t i =>
      obtain ⟨-, -, rfl⟩ := step_start hs
      exact ih p hp hj
  | advance t x =>
      obtain ⟨o, k, ht, rfl⟩ := step_advance hs
      rcases exec_joined o x conf.world hp hj with ⟨q, hq, hqj, hid, -⟩ | rfl
      · exact hid ▸ ih q hq hqj
      · have ho : Op.Of t (.markPeerJoined c p.peerId) := (task_only hr ht).1
        cases t with
        | ws d =>
            obtain rfl : c = d := ho
            exact (serves_identified hr c).pre ht
        | _ => exact ho.elim
  | env e =>
      obtain ⟨w, hw, rfl⟩ := step_env hs
      rw [ambient_mgr hw] at hp
      exact ih p hp hj

section Callback

variable {h' : List (server cfg secret).Transition} {conf₀ conf₁ : State} {c : Conn} {i : Input}

/-- As long as a callback has not written its connection's record, the record is what it was. -/
lemma peers_of_unwritten (hr : Run (M := server cfg secret) ok (boot db clock)
      (h ++ ⟨conf₀, .start (Task.ws c) i, conf₁⟩ :: h') conf)
    (hno : ∀ m ∈ h', ∀ i', m.label ≠ .start (Task.ws c) i')
    (hwrites : ∀ e ∈ calls (M := server cfg secret) (Task.ws c) h', Op.writes e.1 ≠ some c) :
    conf.world.mgr.peers c = conf₀.world.mgr.peers c := by
  refine hr.rest_induction (P := fun g (conf : State) =>
    (∀ m ∈ g, ∀ i', m.label ≠ .start (Task.ws c) i') →
    (∀ e ∈ calls (M := server cfg secret) (Task.ws c) g, Op.writes e.1 ≠ some c) →
      conf.world.mgr.peers c = conf₀.world.mgr.peers c) ?_ ?_ hno hwrites
  · obtain ⟨-, hs, -⟩ := hr.of_append
    obtain ⟨-, -, hconf₁⟩ := step_start hs
    rw [hconf₁]
    exact fun _ _ => rfl
  · intro g conf l conf' hr ih hs hno hwrites
    rw [calls_snoc] at hwrites
    have ih := ih (fun m hm => hno m (List.mem_append_left _ hm))
      fun e he => hwrites e (List.mem_append_left _ he)
    by_cases hl : l.IsOf (Task.ws c)
    · cases l with
      | start t i' =>
          obtain rfl : t = Task.ws c := hl
          exact absurd rfl (hno ⟨conf, .start (Task.ws c) i', conf'⟩ (by simp) i')
      | advance t x =>
          obtain rfl : t = Task.ws c := hl
          obtain ⟨o, k, ht, rfl⟩ := step_advance hs
          rw [called_advance ht] at hwrites
          have ho : o.writes ≠ some c := hwrites ⟨o, (exec o x conf.world).1⟩ (by simp)
          rw [← ih]
          exact exec_peers ho x conf.world
      | env e => exact hl.elim
    · rw [peers_of_not_isOf hr hs hl, ih]

/-- A callback reads the record that its connection had when it began. -/
lemma findByConn_eq (hr : Run (M := server cfg secret) ok (boot db clock)
      (h ++ ⟨conf₀, .start (Task.ws c) i, conf₁⟩ :: h') conf)
    (hno : ∀ m ∈ h', ∀ i', m.label ≠ .start (Task.ws c) i') {found : Option Peer}
    {es : List (Called (signature Str))}
    (hes : calls (M := server cfg secret) (Task.ws c) h' = ⟨.findByConn c, found⟩ :: es) :
    found = conf₀.world.mgr.peers c := by
  obtain ⟨g, m, g', rfl, hg, x, k, -, -, hfound⟩ := hr.first_call hno hes
  have hrun : Run (M := server cfg secret) ok (boot db clock)
      ((h ++ ⟨conf₀, .start (Task.ws c) i, conf₁⟩ :: g) ++ m :: g') conf := by simpa using hr
  obtain ⟨hr₁, -, -⟩ := hrun.of_append
  have hnone : calls (M := server cfg secret) (Task.ws c) g = [] :=
    List.filterMap_eq_nil_iff.mpr fun m' hm' => called_of_not_isOf (hg m' hm')
  rw [← peers_of_unwritten hr₁ (fun m hm => hno m (by simp [hm])) (by simp [hnone])]
  exact hfound.symm

end Callback

end Run

/-! ## A relay that is run alone -/

section Alone

variable {c : Conn} {peer : Peer} {type payload : Str} {xs : ℕ → Choice} {w : World Str}

lemma run_sendEach (f : Frame Str) (cs : List Conn) : ∀ (xs : ℕ → Choice) (w : World Str),
    ((sendEach f cs).run (S := signature Str) exec xs w).2.wire
      = w.wire ++ cs.map fun d => (d, .text f) := by
  induction cs with
  | nil => simp [sendEach]
  | cons d cs ih =>
      intro xs w
      unfold sendEach
      rw [run_call_bind, ih]
      simp [exec]

lemma run_broadcast (r : Str) (f : Frame Str) (except : Option Conn) :
    ((broadcast r f except).run (S := signature Str) exec xs w).2.wire
      = w.wire ++ (w.mgr.targets r except).map fun d => (d, .text f) := by
  unfold broadcast
  rw [run_call_bind, run_sendEach]
  rfl

lemma targets_appendCachedMessage (m : RoomManager Str) (room s p : Str) (n now : ℤ) (r : Str)
    (except : Option Conn) :
    (m.appendCachedMessage room s p n now).targets r except = m.targets r except := by
  have hsame : (m.appendCachedMessage room s p n now).isJoined = m.isJoined := by
    funext d
    simp [RoomManager.isJoined]
  rw [RoomManager.targets, RoomManager.targets, hsame, RoomManager.connsOf_appendCachedMessage]

/-- The relay sends the frame to its targets. -/
lemma run_relay (cfg : Config) :
    ((relay cfg c peer type payload).run (S := signature Str) exec xs w).2.wire
      = w.wire ++ (w.mgr.targets peer.roomId (spared c type)).map fun d =>
          (d, .text (relayedFrame type peer.peerId payload w.clock)) := by
  unfold relay relayedFrame spared
  split
  · unfold relayMsg
    rw [run_call_bind, run_call_bind, run_call_bind, run_broadcast]
    cases hsql : (xs (0 + 1)).sql <;> simp [exec, hsql, targets_appendCachedMessage]
  · unfold relayPresence
    rw [run_call_bind, run_broadcast]
    rfl

end Alone

/-! ## The result -/

/-- What consistency of the registry amounts to. -/
structure RoomManager.Exact {π : Type} (m : RoomManager π) : Prop where
  /-- A connection stands in the entry of a room exactly if its peer belongs to the room. -/
  listed : ∀ r c, (∃ l, m.byRoom r = some l ∧ c ∈ l) ↔ ∃ p, m.peers c = some p ∧ p.roomId = r
  ne_nil : ∀ r, m.byRoom r ≠ some []
  /-- A connection stands in one entry at most, and there once. -/
  unique : ∀ r s l k c, m.byRoom r = some l → m.byRoom s = some k → c ∈ l → c ∈ k → r = s
  nodup : ∀ r l, m.byRoom r = some l → l.Nodup
  live : ∀ r, m.liveCount r = (m.joinedPeerIds r).length ∧
    m.liveCount r = (m.targets r none).length

lemma RoomManager.Consistent.exact {π : Type} {m : RoomManager π} (hm : m.Consistent) :
    m.Exact where
  listed r c := mem_connsOf.symm.trans (hm.mem_iff r c)
  ne_nil := hm.ne_nil
  unique r s l k c hl hk hcl hck :=
    hm.unique (mem_connsOf.mpr ⟨l, hl, hcl⟩) (mem_connsOf.mpr ⟨k, hk, hck⟩)
  nodup r l hl := by
    have hnodup := hm.nodup r
    rwa [connsOf, hl, Option.getD_some] at hnodup
  live r := ⟨(length_joinedPeerIds m r).symm, (length_targets m r).symm⟩

/-- From a consistent registry, a handler that is run alone relays to the joined connections of
the room, and to them once. -/
lemma handleFrame_delivers {cfg : Config} {c : Conn} {data : Inbound} {type payload : Str}
    (h : data.Relayed cfg type payload) {w : World Str} (hw : w.mgr.Consistent) {peer : Peer}
    (hpeer : w.mgr.peers c = some peer) (hj : peer.joined = true) (xs : ℕ → Choice) :
    ∃ out ts, (handleFrame cfg c data xs w).2.wire = w.wire ++ out ∧
      DeliversTo w.mgr peer.roomId (spared c type) (relayedFrame type peer.peerId payload ts)
        out := by
  obtain ⟨f, hf, hrelay⟩ := onmessage_relayed (c := c) h
  refine ⟨_, w.clock, ?_, deliversTo_targets hw peer.roomId (spared c type) _⟩
  rw [handleFrame, hf, run_call_bind]
  change ((f (w.mgr.peers c)).run (S := signature Str) exec (fun n => xs (n + 1)) w).2.wire = _
  rw [hpeer, hrelay peer hj, run_relay]

/-- In a run the handler relays, once, to the connections that have joined the room when it looks
for its targets. -/
lemma run_delivers {cfg : Config} {secret : List UInt8} {db : Database} {clock : ℤ}
    {h h' : List (server cfg secret).Transition} {conf₀ conf₁ conf : State} {c : Conn}
    {data : Inbound} {type payload : Str} {peer : Peer}
    (hr : Run (M := server cfg secret) anyStep (boot db clock)
      (h ++ ⟨conf₀, .start (Task.ws c) (Input.message data), conf₁⟩ :: h') conf)
    (hno : ∀ m ∈ h', ∀ i, m.label ≠ .start (Task.ws c) i) (hidle : idle (conf.task (.ws c)) = true)
    (hrelayed : data.Relayed cfg type payload) (hpeer : conf₀.world.mgr.peers c = some peer)
    (hj : peer.joined = true) : ∃ m ∈ h', ∃ (cs : List Conn) (ts : ℤ),
      m.Calls (Task.ws c) (.targets peer.roomId (spared c type)) cs ∧
      m.pre.world.mgr.joinedIn peer.roomId c = true ∧
      DeliversTo m.pre.world.mgr peer.roomId (spared c type)
        (relayedFrame type peer.peerId payload ts)
        (outgoing (calls (M := server cfg secret) (Task.ws c) h')) := by
  obtain ⟨q, hq, hpath⟩ := hr.path hno
  have hfinished : q.finished = true := by simpa [hq, idle] using hidle
  obtain ⟨f, hf, hrelay⟩ := onmessage_relayed (c := c) hrelayed
  change (onmessage cfg id c data).Path _ q at hpath
  rw [hf] at hpath
  obtain ⟨found, es, hes, hrest⟩ := Prog.Path.perform_bind hpath hfinished
  obtain rfl : found = some peer := (findByConn_eq hr hno hes).trans hpeer
  rw [hrelay peer hj] at hrest
  obtain ⟨ts, cs, htargets, hout⟩ := relay_path hfinished hrest
  obtain ⟨m, hm, hcalls⟩ := mem_calls.mp (hes ▸ List.mem_cons_of_mem _ htargets)
  obtain ⟨g, g', rfl⟩ := List.append_of_mem hm
  have hrun : Run (M := server cfg secret) anyStep (boot db clock)
      ((h ++ ⟨conf₀, .start (Task.ws c) (Input.message data), conf₁⟩ :: g) ++ m :: g') conf := by
    simpa using hr
  obtain ⟨hr₁, -, -⟩ := hrun.of_append
  have hwrites : ∀ e ∈ calls (M := server cfg secret) (Task.ws c) g, Op.writes e.1 ≠ some c := by
    intro e he
    have hmem : e ∈ calls (M := server cfg secret) (Task.ws c) (g ++ m :: g') := by
      rw [calls, List.filterMap_append]
      exact List.mem_append_left _ he
    rw [hes] at hmem
    rcases List.mem_cons.mp hmem with rfl | hmem
    · simp [Op.writes]
    · have hpassive : Op.Passive e.1 := (relay_passive cfg type payload).path hrest e hmem
      simp [hpassive.writes]
  have hpre : m.pre.world.mgr.peers c = some peer :=
    (peers_of_unwritten hr₁ (fun m hm => hno m (by simp [hm])) hwrites).trans hpeer
  refine ⟨m, hm, cs, ts, hcalls, RoomManager.joinedIn_eq_true.mpr ⟨peer, hpre, rfl, hj⟩, ?_⟩
  have hcs : cs = m.pre.world.mgr.targets peer.roomId (spared c type) := by
    obtain ⟨x, k, -, -, hcs⟩ := hcalls
    exact hcs.symm
  have hsent : outgoing (calls (M := server cfg secret) (Task.ws c) (g ++ m :: g'))
      = cs.map fun d => (d, .text (relayedFrame type peer.peerId payload ts)) := by
    rw [hes, ← hout]
    rfl
  rw [hsent, hcs]
  exact deliversTo_targets (registry_consistent hr₁) _ _ _

/-- **The registry is consistent, and relayed frames reach exactly the room.**  In every registry
that calls lead to, the maps agree and the readers count the same peers.  A `msg` or `presence`
frame with a payload within the limits, from a connection that has joined, is sent once, with the
peer id and the payload, to every connection that has joined the room, the sender itself included
or not, and nothing is sent to anybody else: by a handler that is run alone from any world with
such a registry, and by a handler of the server, however its calls interleave with those of other
tasks, at the moment at which it looks for its targets.  In a run of the server the peer id is
that of the token which the connection presented or was given. -/
theorem registry_exact :
    (∀ (π : Type) (m : RoomManager π), m.Reachable → m.Exact) ∧
    (∀ (cfg : Config) (c : Conn) (data : Inbound) (type payload : Str) (w : World Str) (peer : Peer)
      (xs : ℕ → Choice), data.Relayed cfg type payload → w.mgr.Reachable →
      w.mgr.peers c = some peer → peer.joined = true →
        ∃ out ts, (handleFrame cfg c data xs w).2.wire = w.wire ++ out ∧
          DeliversTo w.mgr peer.roomId (spared c type)
            (relayedFrame type peer.peerId payload ts) out) ∧
    ∀ (cfg : Config) (secret : List UInt8) (db : Database) (clock : ℤ)
      (h h' : List (server cfg secret).Transition) (conf₀ conf₁ conf : State) (c : Conn)
      (data : Inbound) (type payload : Str) (peer : Peer),
      Run (M := server cfg secret) anyStep (boot db clock)
        (h ++ ⟨conf₀, .start (Task.ws c) (Input.message data), conf₁⟩ :: h') conf →
      (∀ m ∈ h', ∀ i, m.label ≠ .start (Task.ws c) i) → idle (conf.task (.ws c)) = true →
      data.Relayed cfg type payload → conf₀.world.mgr.peers c = some peer → peer.joined = true →
        conf₀.world.mgr.Exact ∧
        Identified peer.peerId (calls (M := server cfg secret) (Task.ws c) h) ∧
        ∃ m ∈ h', ∃ (cs : List Conn) (ts : ℤ),
          m.Calls (Task.ws c) (.targets peer.roomId (spared c type)) cs ∧
          m.pre.world.mgr.joinedIn peer.roomId c = true ∧
          DeliversTo m.pre.world.mgr peer.roomId (spared c type)
            (relayedFrame type peer.peerId payload ts)
            (outgoing (calls (M := server cfg secret) (Task.ws c) h')) := by
  refine ⟨fun π m hm => hm.consistent.exact, ?_, ?_⟩
  · intro cfg c data type payload w peer xs h hw hpeer hj
    exact handleFrame_delivers h hw.consistent hpeer hj xs
  · intro cfg secret db clock h h' conf₀ conf₁ conf c data type payload peer hr hno hidle hrelayed
      hpeer hj
    obtain ⟨hr₀, -, -⟩ := hr.of_append
    exact ⟨(registry_consistent hr₀).exact, identified_of_joined hr₀ hpeer hj,
      run_delivers hr hno hidle hrelayed hpeer hj⟩

namespace Sample

/-- The text `hi`, sent to the room. -/
def hi : Inbound :=
  ⟨100, some (.object [(ascii "type", .string (ascii "msg")),
    (ascii "payload", .string (ascii "hi"))])⟩

/-- A nickname, announced to the room. -/
def nick : Inbound :=
  ⟨100, some (.object [(ascii "type", .string (ascii "presence")),
    (ascii "payload", .string (ascii "hi"))])⟩

/-- Three connections have been accepted and two of them have joined. -/
def joinedRegistry : RoomManager Str :=
  ((((RoomManager.empty.perform (.onWsAccept 0 room [])).perform (.onWsAccept 1 room [])).perform
    (.onWsAccept 2 room [])).perform (.markPeerJoined 0 (ascii "id"))).perform
      (.markPeerJoined 1 (ascii "other"))

/-- Two clients join the room and a third is let in but does not. -/
def gathering : List (server {} secret).Label :=
  opening 0 ++ joining 0 token 9 ++ opening 1 ++ joining 1 (ascii "another token") 10 ++ opening 2

end Sample

lemma castInt_length_hi {n : ℕ} (hn : n ≤ 8192) : castInt n ≤ ({} : Config).wsMaxPayloadBytes := by
  change castInt n ≤ 8192
  rw [castInt_of_lt (by omega)]
  omega

lemma relayed_hi : Sample.hi.Relayed {} (ascii "msg") (ascii "hi") where
  type_mem := .inl rfl
  carries := ⟨_, rfl, by decide +kernel, by rw [Json.js_str_object]; exact congrArg _ (by decide +kernel)⟩
  nonempty := by decide +kernel
  size_le := castInt_length_hi (by decide +kernel)
  payload_le := castInt_length_hi (by decide +kernel)

lemma relayed_nick : Sample.nick.Relayed {} (ascii "presence") (ascii "hi") where
  type_mem := .inr rfl
  carries := ⟨_, rfl, by decide +kernel, by rw [Json.js_str_object]; exact congrArg _ (by decide +kernel)⟩
  nonempty := by decide +kernel
  size_le := castInt_length_hi (by decide +kernel)
  payload_le := castInt_length_hi (by decide +kernel)

/-- A script that ends with a frame of a connection that has joined, and with the steps of the
handler, is a run of that kind. -/
lemma exists_run_handled (db : Database) (ls : List (server {} Sample.secret).Label) (c : Conn)
    (data : Inbound) (n : ℕ) (P : List (server {} Sample.secret).Transition → Bool)
    (hreplay : (replay (M := server {} Sample.secret) (fun _ _ => true) [] (boot db 0)
      (ls ++ Sample.handle (.ws c) (.message data) n)).map (fun r => idle (r.2.task (.ws c)) &&
        ((r.1[ls.length]?.any fun m => (m.pre.world.mgr.peers c).any Peer.joined) &&
          P (r.1.drop (ls.length + 1)))) = some true) :
    ∃ (h h' : List (server {} Sample.secret).Transition) (conf₀ conf₁ conf : State) (peer : Peer),
      Run (M := server {} Sample.secret) anyStep (boot db 0)
        (h ++ ⟨conf₀, .start (Task.ws c) (Input.message data), conf₁⟩ :: h') conf ∧
      (∀ m ∈ h', ∀ i, m.label ≠ .start (Task.ws c) i) ∧ idle (conf.task (.ws c)) = true ∧
      conf₀.world.mgr.peers c = some peer ∧ peer.joined = true ∧ P h' = true := by
  obtain ⟨⟨hist, conf⟩, hp, hP⟩ := Option.map_eq_some_iff.mp hreplay
  obtain ⟨hidle, hP⟩ := Bool.and_eq_true_iff.mp hP
  obtain ⟨hjoined, hP⟩ := Bool.and_eq_true_iff.mp hP
  have hr : Run (M := server {} Sample.secret) anyStep (boot db 0) hist conf :=
    run_of_replay (fun _ _ _ _ => trivial) .nil hp
  obtain ⟨g, rfl, hlabels⟩ := labels_of_replay hp
  obtain ⟨h, g', rfl, hh, hg'⟩ := List.map_eq_append_iff.mp hlabels
  obtain ⟨⟨conf₀, l, conf₁⟩, h', rfl, rfl, hh'⟩ := List.map_eq_cons_iff.mp hg'
  have hlength : h.length = ls.length := by rw [← hh, List.length_map]
  have hnext : (h ++ ⟨conf₀, .start (Task.ws c) (Input.message data), conf₁⟩ :: h'
      : List (server {} Sample.secret).Transition)[ls.length]?
      = some ⟨conf₀, .start (Task.ws c) (Input.message data), conf₁⟩ := by
    simp [← hlength]
  have hdrop : (h ++ ⟨conf₀, .start (Task.ws c) (Input.message data), conf₁⟩ :: h'
      : List (server {} Sample.secret).Transition).drop (ls.length + 1) = h' := by
    simp [← hlength, List.drop_append]
  rw [hnext, Option.any_some] at hjoined
  rw [hdrop] at hP
  obtain ⟨peer, hpeer, hj⟩ := (Option.any_eq_true _ _).mp hjoined
  refine ⟨h, h', conf₀, conf₁, conf, peer, hr, fun m hm i hi => ?_, hidle, hpeer, hj, hP⟩
  have hlabel : m.label ∈ List.replicate n (.advance (Task.ws c) (Sample.draw 0)) :=
    hh' ▸ List.mem_map_of_mem hm
  rw [hi] at hlabel
  cases List.eq_of_mem_replicate hlabel

/-- A registry with two joined peers and a third, and a run in which one of two joined peers
announces its nickname: the other gets it, and neither the sender nor the third connection does. -/
theorem registry_exact_sample : Sample.joinedRegistry.Exact ∧
    (∃ out ts, (handleFrame {} 0 Sample.hi (fun _ => Sample.draw 0)
        { World.boot Database.empty 0 with mgr := Sample.joinedRegistry }).2.wire = out ∧
      DeliversTo Sample.joinedRegistry Sample.room none
        (.msg (ascii "id") (ascii "hi") ts) out) ∧
    ∃ (h h' : List (server {} Sample.secret).Transition) (conf₀ : State) (peer : Peer),
      conf₀.world.mgr.peers 0 = some peer ∧
      Identified peer.peerId (calls (M := server {} Sample.secret) (Task.ws 0) h) ∧
      (∃ m ∈ h', ∃ ts, DeliversTo m.pre.world.mgr peer.roomId (some 0)
        (.presence peer.peerId (ascii "hi") ts)
        (outgoing (calls (M := server {} Sample.secret) (Task.ws 0) h'))) ∧
      (outgoing (calls (M := server {} Sample.secret) (Task.ws 0) h')).map Prod.fst = [1] := by
  obtain ⟨hexact, halone, hruns⟩ := registry_exact
  have hreach : Sample.joinedRegistry.Reachable := by
    refine .call (.call (.call (.call (.call .empty _ ?_) _ ?_) _ ?_) _ ?_) _ ?_
    · rintro _ _ _ ⟨⟩
      rfl
    · rintro _ _ _ ⟨⟩
      rfl
    · rintro _ _ _ ⟨⟩
      rfl
    · exact fun _ _ _ h => by cases h
    · exact fun _ _ _ h => by cases h
  refine ⟨hexact _ _ hreach, ?_, ?_⟩
  · obtain ⟨out, ts, hwire, hout⟩ := halone {} 0 Sample.hi (ascii "msg") (ascii "hi")
      { World.boot Database.empty 0 with mgr := Sample.joinedRegistry }
      ⟨ascii "id", Sample.room, true, [], []⟩ (fun _ => Sample.draw 0) relayed_hi hreach
      (by decide +kernel) rfl
    simp only [spared, relayedFrame, if_true] at hout
    exact ⟨out, ts, hwire, hout⟩
  · have hne : ascii "presence" ≠ ascii "msg" := by simp [ascii]
    obtain ⟨h, h', conf₀, conf₁, conf, peer, hr, hno, hidle, hpeer, hj, hsent⟩ :=
      exists_run_handled (Sample.store 2 [] [Sample.token, ascii "another token"])
        Sample.gathering 0 Sample.nick 4 (fun h' =>
          (outgoing (calls (M := server {} Sample.secret) (Task.ws 0) h')).map Prod.fst = [1])
        (by decide +kernel)
    obtain ⟨-, hid, m, hm, -, ts, -, -, hout⟩ := hruns {} Sample.secret _ 0 h h' conf₀ conf₁ conf 0
      Sample.nick (ascii "presence") (ascii "hi") peer hr hno hidle relayed_nick hpeer hj
    simp only [spared, relayedFrame, if_neg hne] at hout
    exact ⟨h, h', conf₀, peer, hpeer, hid, ⟨m, hm, ts, hout⟩, of_decide_eq_true hsent⟩

end HashHush
