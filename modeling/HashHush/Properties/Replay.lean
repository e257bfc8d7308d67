import HashHush.Concurrency.Atomic
import HashHush.Properties.Registry

/-!
# What a joiner is shown of the past

Who joins a room is sent its recent messages.  In runs whose handlers are not interrupted these
are the end of a log that nothing ever forgets: `messageLog` are the `msg` frames that the room has
accepted since its cache was last erased, and the ring buffer of the room holds the last
`messageCacheSize` of them.

The loop that keeps the buffer short compares its length after a cast to `int`.  The cast is
exact up to `2 ^ 31 - 1`, which is also the largest value of the setting, and one message more
than that is never evicted.  `replay_recent` is the statement for the runs in which the cast is
exact whenever a message is accepted, which are all runs if the setting is any smaller.
-/

namespace HashHush

open Concurrency System

variable {cfg : Config} {secret : List UInt8}

/-! ## Runs of uninterrupted handlers -/

variable (cfg secret) in
/-- What can happen: a round of the server, or a call of `dropMessageCache`, which no handler
makes. -/
inductive Happening
  | round (a : (server cfg secret).Round)
  | dropMessageCache (roomId : Str)

/-- The server afterwards, where it is possible. -/
def happen (conf : State) : Happening cfg secret → Option State
  | .round a => System.round (M := server cfg secret) conf a
  | .dropMessageCache roomId =>
      some { conf with
        world := { conf.world with mgr := conf.world.mgr.dropMessageCache roomId } }

/-- The calls that are made. -/
def Happening.trace (conf : State) : Happening cfg secret → List (Called (signature Str))
  | .round a => Round.trace (M := server cfg secret) conf a
  | .dropMessageCache _ => []

/-! ## The log of a room -/

/-- The payload of a frame that is accepted as a message. -/
def Inbound.message (cfg : Config) (data : Inbound) : Option Str :=
  if castInt data.size > cfg.wsMaxPayloadBytes then none
  else data.json.bind fun j =>
    if j.type? = some (ascii "msg") then
      (j.js_str (ascii "payload")).toOption.filter fun payload =>
        payload ≠ [] ∧ castInt payload.length ≤ cfg.wsMaxPayloadBytes
    else none

/-- The message that is accepted for a room: the peer id of the sender, and the payload. -/
def accepted (r : Str) (conf : State) : Happening cfg secret → Option (Str × Str)
  | .round (.run (.ws c) (.message data) _) =>
      (conf.world.mgr.peers c).bind fun p =>
        if p.joined = true ∧ p.roomId = r then (data.message cfg).map (Prod.mk p.peerId) else none
  | _ => none

/-- Some of the calls close the room. -/
def closes (r : Str) (es : List (Called (signature Str))) : Bool :=
  es.any fun e => match (e.1 : Op Str) with
    | .closeRoom r' => r' = r
    | _ => false

/-- The cache of a room is erased: by `closeRoom`, or by `dropMessageCache`. -/
def erases (r : Str) (conf : State) (a : Happening cfg secret) : Bool :=
  match a with
  | .round _ => closes r (a.trace conf)
  | .dropMessageCache r' => r' = r

/-- The log after one more happening. -/
def logged (r : Str) (l : List (Str × Str)) (e : State × Happening cfg secret) :
    List (Str × Str) :=
  if erases r e.1 e.2 then [] else l ++ (accepted r e.1 e.2).toList

/-- The messages accepted for a room since its cache was last erased. -/
def messageLog (r : Str) (h : List (State × Happening cfg secret)) : List (Str × Str) :=
  h.foldl (logged r) []

/-- The last `min (max n 0) k` of `k` messages. -/
def latest (n : ℤ) (l : List (Str × Str)) : List (Str × Str) :=
  l.drop (l.length - (min (max n 0) l.length).toNat)

/-- A cached message without its time. -/
def CachedMessage.entry (m : CachedMessage Str) : Str × Str := (m.senderPeerId, m.payloadB64)

/-- The length of the cache of a room does not leave the range of `int` when a message is
accepted. -/
def Fits (conf : State) (a : Happening cfg secret) : Prop :=
  ∀ r, accepted r conf a ≠ none →
    cfg.messageCacheSize < 2 ^ 31 - 1 ∨ (conf.world.mgr.recentMessages r).length < 2 ^ 31 - 1

lemma Inbound.message_eq_some {data : Inbound} {payload : Str} :
    data.message cfg = some payload ↔ data.Relayed cfg (ascii "msg") payload := by
  unfold Inbound.message
  constructor
  · intro h
    split at h
    · cases h
    · rename_i hsize
      obtain ⟨j, hj, h⟩ := Option.bind_eq_some_iff.mp h
      split at h
      · rename_i htype
        obtain ⟨hpayload, hok⟩ := Option.filter_eq_some_iff.mp h
        have hok : payload ≠ [] ∧ castInt payload.length ≤ cfg.wsMaxPayloadBytes := by
          simpa using hok
        cases hp : j.js_str (ascii "payload") with
        | error e => simp [hp, Except.toOption] at hpayload
        | ok p =>
            obtain rfl : p = payload := by simpa [hp, Except.toOption] using hpayload
            exact ⟨.inl rfl, ⟨j, hj, htype, hp⟩, hok.1, not_lt.mp hsize, hok.2⟩
      · cases h
  · intro h
    obtain ⟨j, hj, htype, hpayload⟩ := h.carries
    rw [if_neg (not_lt.mpr h.size_le), hj, Option.bind_some, if_pos htype, hpayload]
    simp [Except.toOption, h.nonempty, h.payload_le]

lemma messageLog_snoc (r : Str) (h : List (State × Happening cfg secret)) (conf : State)
    (a : Happening cfg secret) :
    messageLog r (h ++ [(conf, a)]) = logged r (messageLog r h) (conf, a) := by
  simp [messageLog]

lemma latest_eq (n : ℤ) (l : List (Str × Str)) : latest n l = l.drop (l.length - n.toNat) := by
  rw [latest]
  congr 1
  omega

/-! ## What a handler does to the cache -/

/-- The operations that cache no message. -/
def Op.Uncached : Op Str → Prop
  | .appendCachedMessage _ _ _ _ => False
  | _ => True

lemma Op.OfReply.uncached {o : Op Str} (h : o.OfReply) : o.Uncached := by
  cases o <;> trivial

lemma Op.OfUnjoined.uncached {o : Op Str} {c : Conn} (h : o.OfUnjoined c) : o.Uncached := by
  cases o <;> trivial

lemma Op.OfHttp.uncached {o : Op Str} (h : o.OfHttp) : o.Uncached := by
  cases o <;> trivial

lemma closes_append (r : Str) (es es' : List (Called (signature Str))) :
    closes r (es ++ es') = (closes r es || closes r es') := by
  simp [closes]

/-- The callbacks of a connection close no room. -/
lemma closes_eq_false {r : Str} {c : Conn} {es : List (Called (signature Str))}
    (h : ∀ e ∈ es, Op.OfWs c e.1) : closes r es = false := by
  refine List.any_eq_false.mpr fun e he => ?_
  have ho := h e he
  obtain ⟨o, a⟩ := e
  cases o with
  | closeRoom r' => exact ho.elim
  | _ => simp

/-- An operation that caches nothing erases the cache of a room or leaves it alone. -/
lemma exec_recentMessages {o : Op Str} (ho : o.Uncached) (x : Choice) (w : World Str) (r : Str)
    (a : o.Res) : (exec o x w).2.mgr.recentMessages r
      = if closes r [⟨o, a⟩] then [] else w.mgr.recentMessages r := by
  have hcache := exec_msgCache o x w
  cases o with
  | closeRoom r' =>
      by_cases hr : r = r'
      · simp [RoomManager.recentMessages, exec, RoomManager.closeRoom, closes, hr]
      · simp [RoomManager.recentMessages, exec, RoomManager.closeRoom, closes, hr, Ne.symm hr]
  | appendCachedMessage r' sender payload n => exact ho.elim
  | _ =>
      rcases hcache with h | ⟨_, _, _, _, _, heq, _⟩ | ⟨_, heq, _⟩
      · simp [RoomManager.recentMessages, h, closes]
      · cases heq
      · cases heq

/-- A handler that caches nothing erases the cache of a room or leaves it alone. -/
lemma run_recentMessages {p : Handler Str Unit} (hp : p.Only Op.Uncached) (xs : ℕ → Choice)
    (w : World Str) (r : Str) : (p.run exec xs w).2.mgr.recentMessages r
      = if closes r (p.trace (S := signature Str) exec xs w) then []
        else w.mgr.recentMessages r := by
  refine Prog.trace_induction (S := signature Str) (P := Op.Uncached)
    (J := fun es (w' : World Str) => w'.mgr.recentMessages r
      = if closes r es then [] else w.mgr.recentMessages r) ?_ hp xs rfl
  intro o x es w' ho hes
  rw [exec_recentMessages ho x w' r (exec o x w').1, closes_append, hes]
  cases closes r [⟨o, (exec o x w').1⟩] <;> simp

/-! ## What a frame does to the cache -/

section Frame

variable {c : Conn} {data : Inbound} {w : World Str} {peer : Peer} {payload : Str}

/-- An operation of a frame that is no message leaves the caches alone. -/
lemma exec_recentMessages_ofUnjoined {o : Op Str} (ho : o.OfUnjoined c) (x : Choice) (w : World Str)
    (r : Str) : (exec o x w).2.mgr.recentMessages r = w.mgr.recentMessages r := by
  have hopen : closes r [⟨o, (exec o x w).1⟩] = false := by
    refine closes_eq_false (c := c) fun e he => ?_
    obtain rfl := List.mem_singleton.mp he
    exact ho.ofMessage.ofWs
  rw [exec_recentMessages ho.uncached x w r (exec o x w).1, hopen]
  rfl

/-- So does a frame that is no message. -/
lemma run_recentMessages_ofUnjoined {p : Handler Str Unit} (hp : p.Only (Op.OfUnjoined c))
    (xs : ℕ → Choice) (w : World Str) (r : Str) :
    (p.run exec xs w).2.mgr.recentMessages r = w.mgr.recentMessages r := by
  refine Prog.Only.run (J := fun w' : World Str => w'.mgr.recentMessages r = w.mgr.recentMessages r)
    (P := Op.OfUnjoined c) (fun o x w' ho hw' => ?_) hp xs rfl
  rw [exec_recentMessages_ofUnjoined ho, hw']

lemma joined_ofReply {j : Json} {type : Str} (cfg : Config)
    (h : ∀ payload, type = ascii "msg" → j.js_str (ascii "payload") = .ok payload →
      payload ≠ [] → ¬ castInt payload.length ≤ cfg.wsMaxPayloadBytes) :
    (joined cfg id c peer j type).Only (Op.OfReply (π := Str)) := by
  unfold joined
  refine Prog.Only.ite (fun _ => ?_) fun _ =>
    Prog.Only.ite (fun _ => .perform trivial) fun _ => sendErr_ofReply c _
  refine .ofExcept fun payload hpayload => Prog.Only.ite (fun _ => sendErr_ofReply c _) fun hne => ?_
  refine Prog.Only.ite (fun _ => sendErr_ofReply c _) fun hlen =>
    Prog.Only.ite (fun ht => ?_) fun _ => ?_
  · exact absurd (not_lt.mp hlen) (h payload ht hpayload hne)
  · exact .step trivial fun ts => broadcast_ofReply _ _ _

/-- A frame that is not accepted as a message leaves the caches alone. -/
lemma readFrame_ofUnjoined (cfg : Config) (hsize : ¬ castInt data.size > cfg.wsMaxPayloadBytes)
    (h : peer.joined = true → data.message cfg = none) :
    (readFrame cfg c data peer).Only (Op.OfUnjoined c) := by
  have hreply : ∀ {p : Handler Str Unit}, p.Only Op.OfReply → p.Only (Op.OfUnjoined c) := fun hp =>
    hp.mono fun _ ho => (ho.ofHello c).ofUnjoined
  unfold readFrame
  cases hj : data.json with
  | none => exact hreply (sendErr_ofReply c _)
  | some j =>
      refine .ofExcept fun hasType hhas => Prog.Only.ite (fun ht => ?_)
        fun _ => hreply (sendErr_ofReply c _)
      refine .ofExcept fun v hv => .ofExcept fun type htype => ?_
      refine Prog.Only.ite (fun hjoined => hreply (joined_ofReply cfg ?_))
        fun _ => unjoined_ofUnjoined c peer j type
      rintro payload rfl hpayload hne hlen
      have hnone := h hjoined
      have hmsg : j.type? = some (ascii "msg") := by
        obtain rfl : hasType = true := ht
        rcases j.reads with ⟨-, e, he⟩ | ⟨-, -, he⟩ | ⟨-, -, v', e, hv', he⟩ | ⟨_, t, -, -, ht, -, hv'⟩
        · simp [hhas] at he
        · simp [hhas] at he
        · obtain rfl : v = v' := Except.ok.inj (hv.symm.trans hv')
          simp [htype] at he
        · obtain rfl : v = .string t := Except.ok.inj (hv.symm.trans hv')
          obtain rfl : t = ascii "msg" := Except.ok.inj htype
          exact ht
      have hsome : data.message cfg = some payload :=
        Inbound.message_eq_some.mpr ⟨.inl rfl, ⟨j, hj, hmsg, hpayload⟩, hne, not_lt.mp hsize, hlen⟩
      simp [hnone] at hsome

lemma handleFrame_recentMessages (cfg : Config)
    (h : ∀ peer, w.mgr.peers c = some peer → peer.joined = true → data.message cfg = none)
    (xs : ℕ → Choice) (r : Str) :
    (handleFrame cfg c data xs w).2.mgr.recentMessages r = w.mgr.recentMessages r := by
  rw [handleFrame_eq]
  split
  · rfl
  · rename_i hsize
    cases hp : w.mgr.peers c with
    | none => rfl
    | some peer => exact run_recentMessages_ofUnjoined (readFrame_ofUnjoined cfg hsize (h peer hp)) _ w r

/-- Sending leaves the registry alone. -/
lemma run_sendEach_mgr (f : Frame Str) (cs : List Conn) : ∀ (xs : ℕ → Choice) (w : World Str),
    ((sendEach f cs).run (S := signature Str) exec xs w).2.mgr = w.mgr := by
  induction cs with
  | nil => exact fun _ _ => rfl
  | cons d cs ih =>
      intro xs w
      unfold sendEach
      rw [run_call_bind, ih]
      rfl

/-- A frame that is accepted as a message is cached. -/
lemma handleFrame_mgr (cfg : Config) (hpeer : w.mgr.peers c = some peer) (hj : peer.joined = true)
    (h : data.message cfg = some payload) (xs : ℕ → Choice) :
    (handleFrame cfg c data xs w).2.mgr = w.mgr.appendCachedMessage peer.roomId peer.peerId payload
      cfg.messageCacheSize w.clock := by
  have hrelayed : data.Relayed cfg (ascii "msg") payload := Inbound.message_eq_some.mp h
  obtain ⟨f, hf, hrelay⟩ := onmessage_relayed (c := c) hrelayed
  rw [handleFrame, hf, run_call_bind]
  change ((f (w.mgr.peers c)).run (S := signature Str) exec (fun n => xs (n + 1)) w).2.mgr = _
  rw [hpeer, hrelay peer hj, relay, if_pos rfl, relayMsg]
  unfold broadcast
  rw [run_call_bind, run_call_bind, run_call_bind, run_call_bind, run_sendEach_mgr]
  cases hsql : (xs (0 + 1 + 1)).sql <;> simp [exec, hsql]

/-- A frame that is accepted stores no token. -/
lemma handleFrame_accessTokens {type : Str} (h : data.Relayed cfg type payload)
    (hpeer : w.mgr.peers c = some peer) (hj : peer.joined = true) (xs : ℕ → Choice) :
    (handleFrame cfg c data xs w).2.db.accessTokens = w.db.accessTokens := by
  obtain ⟨f, hf, hrelay⟩ := onmessage_relayed (c := c) h
  rw [handleFrame, hf, run_call_bind]
  change ((f (w.mgr.peers c)).run (S := signature Str) exec (fun n => xs (n + 1)) w).2.db.accessTokens
    = _
  rw [hpeer, hrelay peer hj]
  refine Prog.Only.run (J := fun w' : World Str => w'.db.accessTokens = w.db.accessTokens)
    (P := Op.Passive) (fun o x w' ho hw' => ?_) (relay_passive cfg type payload) _ rfl
  rw [(ho.frame x w').2, hw']

end Frame

/-! ## What can happen to a cache -/

/-- The programs that are not message handlers cache nothing. -/
lemma program_uncached {t : Task} {i : Input} (h : ∀ c data, t = .ws c → i ≠ .message data) :
    (program cfg secret t i).Only Op.Uncached := by
  cases t with
  | ws c =>
      cases i with
      | opened room =>
          exact Prog.Only.ite (fun _ => trivial) fun _ => .step trivial fun _ => .perform trivial
      | message data => exact absurd rfl (h c data rfl)
      | closed =>
          refine .step trivial fun peer => ?_
          cases peer with
          | none => trivial
          | some p =>
              refine Prog.Only.ite (fun _ => ?_) fun _ => trivial
              exact (broadcast_ofReply _ _ _).mono fun _ ho => ho.uncached
      | _ => trivial
  | http n =>
      have honly : (program cfg secret (.http n) i).Only Op.OfHttp := program_of cfg secret (.http n) i
      exact honly.mono fun _ ho => ho.uncached
  | purger =>
      have honly : (program cfg secret .purger i).Only Op.OfHttp := program_of cfg secret .purger i
      exact honly.mono fun _ ho => ho.uncached

/-- What happens to the cache of a room: it is erased, it stays, or it takes up the message that
is accepted for the room. -/
def CacheStep (r : Str) (conf conf' : State) (a : Happening cfg secret) : Prop :=
  (erases r conf a = true ∧ conf'.world.mgr.recentMessages r = []) ∨
  (erases r conf a = false ∧ accepted r conf a = none ∧
    conf'.world.mgr.recentMessages r = conf.world.mgr.recentMessages r) ∨
  (erases r conf a = false ∧ ∃ id payload, accepted r conf a = some (id, payload) ∧
    conf'.world.mgr.recentMessages r = (conf.world.mgr.appendCachedMessage r id payload
      cfg.messageCacheSize conf.world.clock).recentMessages r)

lemma recentMessages_append_of_ne (m : RoomManager Str) {r s : Str} (h : s ≠ r) (id p : Str)
    (n now : ℤ) : (m.appendCachedMessage r id p n now).recentMessages s = m.recentMessages s := by
  unfold RoomManager.appendCachedMessage
  split
  · rfl
  · simp [RoomManager.recentMessages, h]

lemma accepted_message (r : Str) (conf : State) (c : Conn) (data : Inbound) (xs : ℕ → Choice) :
    accepted r conf (.round (.run (M := server cfg secret) (Task.ws c) (Input.message data) xs))
      = (conf.world.mgr.peers c).bind fun p =>
          if p.joined = true ∧ p.roomId = r then (data.message cfg).map (Prod.mk p.peerId)
          else none := rfl

/-- A frame leaves the cache of a room alone, or is accepted for the room and cached. -/
lemma handleFrame_cache (w : World Str) (c : Conn) (data : Inbound) (xs : ℕ → Choice) (r : Str) :
    (((w.mgr.peers c).bind fun p => if p.joined = true ∧ p.roomId = r then
        (data.message cfg).map (Prod.mk p.peerId) else none) = none ∧
      (handleFrame cfg c data xs w).2.mgr.recentMessages r = w.mgr.recentMessages r) ∨
      ∃ id payload, ((w.mgr.peers c).bind fun p => if p.joined = true ∧ p.roomId = r then
          (data.message cfg).map (Prod.mk p.peerId) else none) = some (id, payload) ∧
        (handleFrame cfg c data xs w).2.mgr.recentMessages r = (w.mgr.appendCachedMessage r id payload
          cfg.messageCacheSize w.clock).recentMessages r := by
  cases hp : w.mgr.peers c with
  | none => exact .inl ⟨rfl, handleFrame_recentMessages cfg (by simp [hp]) xs r⟩
  | some peer =>
      rw [Option.bind_some]
      by_cases hj : peer.joined = true
      · cases hm : data.message cfg with
        | none =>
            refine .inl ⟨by simp, ?_⟩
            exact handleFrame_recentMessages cfg (fun _ _ _ => hm) xs r
        | some payload =>
            have hmgr := handleFrame_mgr cfg hp hj hm xs
            by_cases hr : peer.roomId = r
            · refine .inr ⟨peer.peerId, payload, by simp [hj, hr], ?_⟩
              rw [hmgr, hr]
            · refine .inl ⟨by simp [hr], ?_⟩
              rw [hmgr, recentMessages_append_of_ne _ (Ne.symm hr)]
      · refine .inl ⟨by simp [hj], ?_⟩
        refine handleFrame_recentMessages cfg (fun q hq hqj => ?_) xs r
        obtain rfl : peer = q := Option.some.inj (hp.symm.trans hq)
        exact absurd hqj hj

/-- What a round of a task does to the world. -/
lemma round_exec {conf conf' : State} {t : Task} {i : Input} {xs : ℕ → Choice}
    (hs : System.round (M := server cfg secret) conf (.run t i xs) = some conf') :
    conf'.world = ((program cfg secret t i).run exec xs conf.world).2 := by
  have hexec : ∀ p : Handler Str Unit, (p.run (server cfg secret).exec xs conf.world).2
      = (p.run exec xs conf.world).2 := fun _ => rfl
  exact (round_world hs).trans (hexec (program cfg secret t i))

/-- A round of a message handler. -/
lemma round_message {conf conf' : State} {c : Conn} {data : Inbound} {xs : ℕ → Choice}
    (hs : System.round (M := server cfg secret) conf
      (.run (Task.ws c) (Input.message data) xs) = some conf') :
    conf'.world = (handleFrame cfg c data xs conf.world).2 := by
  have hprogram : program cfg secret (Task.ws c) (Input.message data) = onmessage cfg id c data :=
    rfl
  rw [round_exec hs, hprogram, handleFrame]

theorem happen_cache {conf conf' : State} {a : Happening cfg secret}
    (hs : happen conf a = some conf') (r : Str) : CacheStep r conf conf' a := by
  cases a with
  | dropMessageCache r' =>
      obtain rfl := Option.some.inj hs
      by_cases hr : r' = r
      · exact .inl ⟨by simp [erases, hr], by
          simp [RoomManager.recentMessages, RoomManager.dropMessageCache, hr]⟩
      · refine .inr (.inl ⟨by simp [erases, hr], rfl, ?_⟩)
        simp [RoomManager.recentMessages, RoomManager.dropMessageCache, Ne.symm hr]
  | round b =>
      cases b with
      | env e =>
          obtain ⟨w, hw, rfl⟩ := round_env hs
          refine .inr (.inl ⟨rfl, rfl, ?_⟩)
          exact congrArg (fun m : RoomManager Str => m.recentMessages r) (ambient_mgr hw)
      | run t i xs =>
          have hs : System.round (M := server cfg secret) conf (.run t i xs) = some conf' := hs
          by_cases hmsg : ∃ c data, t = .ws c ∧ i = .message data
          · obtain ⟨c, data, rfl, rfl⟩ := hmsg
            have hopen : erases r conf (.round (.run (M := server cfg secret) (Task.ws c)
                (Input.message data) xs)) = false := by
              have hpath := Prog.path_trace (server cfg secret).exec
                (onmessage cfg id c data) xs conf.world
              refine closes_eq_false (c := c) fun e he => ?_
              exact ((onmessage_ofMessage c cfg id data).path hpath e he).ofWs
            unfold CacheStep
            rw [accepted_message, round_message hs]
            rcases handleFrame_cache conf.world c data xs r with h | h
            · exact .inr (.inl ⟨hopen, h⟩)
            · exact .inr (.inr ⟨hopen, h⟩)
          · have honly : (program cfg secret t i).Only Op.Uncached := program_uncached
              fun c data ht hi => hmsg ⟨c, data, ht, hi⟩
            have hrun := run_recentMessages honly xs conf.world r
            have hnone : accepted r conf (.round (.run (M := server cfg secret) t i xs)) = none := by
              unfold accepted
              split
              · rename_i heq
                cases heq
                exact absurd ⟨_, _, rfl, rfl⟩ hmsg
              · rfl
            rw [← round_exec hs] at hrun
            have herases : erases r conf (.round (.run (M := server cfg secret) t i xs))
                = closes r ((program cfg secret t i).trace (S := signature Str) exec xs conf.world) :=
              rfl
            rw [← herases] at hrun
            cases hcl : erases r conf (.round (.run (M := server cfg secret) t i xs)) with
            | true => exact .inl ⟨hcl, hrun.trans (if_pos hcl)⟩
            | false => exact .inr (.inl ⟨hcl, hnone, hrun.trans (if_neg (by simp [hcl]))⟩)

/-! ## The cache is the end of the log -/

lemma latest_snoc {n : ℤ} (hn : 0 < n) (l : List (Str × Str)) (x : Str × Str) :
    (latest n l ++ [x]).drop ((latest n l ++ [x]).length - n.toNat) = latest n (l ++ [x]) := by
  have hle : (latest n l ++ [x]).length - n.toNat ≤ (latest n l).length := by
    simp only [List.length_append, List.length_singleton]
    omega
  rw [List.drop_append_of_le_length hle, latest_eq, latest_eq, List.drop_drop,
    List.drop_append_of_le_length (by simp; omega)]
  congr 2
  simp only [List.length_append, List.length_drop, List.length_singleton]
  omega

lemma recentMessages_appendCachedMessage {n : ℤ} (hn : 0 < n) (m : RoomManager Str)
    (r id payload : Str) (now : ℤ) :
    (m.appendCachedMessage r id payload n now).recentMessages r
      = RoomManager.evict n (m.recentMessages r ++ [⟨id, payload, now⟩]) := by
  have hnot : ¬ n ≤ 0 := by omega
  simp [RoomManager.appendCachedMessage, hnot, RoomManager.recentMessages]

/-- A message that is cached is the last one of those that are kept. -/
lemma recentMessages_append {m : RoomManager Str} {r : Str} {n : ℤ} {l : List (Str × Str)}
    (hm : (m.recentMessages r).map CachedMessage.entry = latest n l)
    (hfits : n < 2 ^ 31 - 1 ∨ (m.recentMessages r).length < 2 ^ 31 - 1) (id payload : Str)
    (now : ℤ) : ((m.appendCachedMessage r id payload n now).recentMessages r).map
      CachedMessage.entry = latest n (l ++ [(id, payload)]) := by
  by_cases hn : n ≤ 0
  · have hnone : ∀ l : List (Str × Str), latest n l = [] := by
      intro l
      rw [latest_eq, List.drop_eq_nil_iff]
      omega
    rw [RoomManager.appendCachedMessage, if_pos hn, hm, hnone, hnone]
  · have hlength : (m.recentMessages r).length = (latest n l).length := by
      rw [← hm, List.length_map]
    have hcast : (m.recentMessages r ++ [(⟨id, payload, now⟩ : CachedMessage Str)]).length < 2 ^ 31 := by
      have hlatest : (latest n l).length ≤ n.toNat := by
        rw [latest_eq, List.length_drop]
        omega
      rw [List.length_append, List.length_singleton]
      omega
    rw [recentMessages_appendCachedMessage (by omega), RoomManager.evict_eq_drop (by omega) hcast, List.map_drop, List.map_append, hm,
      ← latest_snoc (by omega) l (id, payload), List.length_append, List.length_append, hlength]
    rfl

/-- **The ring buffer holds the end of the log.** -/
theorem cache_eq_latest {db : Database} {clock : ℤ} {h : List (State × Happening cfg secret)}
    {conf : State} (hr : Trail happen Fits (boot db clock) h conf) (r : Str) :
    (conf.world.mgr.recentMessages r).map CachedMessage.entry
      = latest cfg.messageCacheSize (messageLog r h) := by
  refine hr.invariant (I := fun h (conf : State) =>
    (conf.world.mgr.recentMessages r).map CachedMessage.entry
      = latest cfg.messageCacheSize (messageLog r h)) ?_ ?_
  · simp [boot, World.boot, RoomManager.empty, RoomManager.recentMessages, messageLog, latest]
  intro h conf a conf' _ ih hs hfits
  rw [messageLog_snoc, logged]
  rcases happen_cache hs r with ⟨her, hnil⟩ | ⟨her, hnone, hsame⟩ | ⟨her, id, payload, hacc, hcached⟩
  · rw [hnil, if_pos her]
    simp [latest]
  · rw [hsame, if_neg (by simp [her]), hnone, Option.toList_none, List.append_nil, ih]
  · have hroom := hfits r (by simp [hacc])
    rw [hcached, if_neg (by simp [her]), hacc, Option.toList_some]
    exact recentMessages_append ih hroom id payload _

/-! ## The joined frame -/

/-- A joined frame goes to the connection itself, and its history has been read from the cache of
the room. -/
def showingPre (c : Conn) (r : Str) : Op Str → List (Called (signature Str)) → Prop
  | .sendText d (.joined _ _ _ history _), es => d = c ∧ ⟨.recentMessages r, history⟩ ∈ es
  | _, _ => True

/-- The specification of a handler with respect to the joined frames it sends. -/
abbrev showing (c : Conn) (r : Str) : Spec (signature Str) (List (Called (signature Str))) :=
  .traced (showingPre c r) fun _ _ => True

/-- The operations that show nobody the past. -/
def Op.Unshown : Op Str → Prop
  | .sendText _ (.joined _ _ _ _ _) => False
  | _ => True

section Showing

variable {c : Conn} {r : Str} {s : List (Called (signature Str))}

lemma wp_of_unshown {p : Handler Str Unit} (hp : p.Only Op.Unshown) :
    p.Wp (showing c r) (fun _ _ => True) s := by
  refine hp.wp_traced (J := fun _ => True) ?_ (fun _ _ _ _ _ => trivial) (fun _ _ _ => trivial)
    trivial
  intro o es ho _
  cases o with
  | sendText d f => cases f <;> trivial
  | _ => trivial

lemma sendErr_unshown (e : WsError) : (sendErr (π := Str) c e).Only Op.Unshown := .perform trivial

lemma sendErrAndClose_unshown (e : WsError) : (sendErrAndClose (π := Str) c e).Only Op.Unshown :=
  .step trivial fun _ => .perform trivial

lemma joined_unshown (cfg : Config) (peer : Peer) (j : Json) (type : Str) :
    (joined cfg id c peer j type).Only Op.Unshown := by
  unfold joined
  refine Prog.Only.ite (fun _ => ?_) fun _ =>
    Prog.Only.ite (fun _ => .perform trivial) fun _ => sendErr_unshown _
  refine .ofExcept fun payload _ => Prog.Only.ite (fun _ => sendErr_unshown _) fun _ => ?_
  refine Prog.Only.ite (fun _ => sendErr_unshown _) fun _ => Prog.Only.ite (fun _ => ?_) fun _ => ?_
  · refine .step trivial fun _ => .step trivial fun _ => .step trivial fun ts => ?_
    exact broadcast_only (fun _ _ => trivial) (fun _ => trivial) _ _
  · exact .step trivial fun ts => broadcast_only (fun _ _ => trivial) (fun _ => trivial) _ _

lemma helloWithoutToken_unshown (peer : Peer) : (helloWithoutToken c peer).Only Op.Unshown :=
  helloWithoutToken_only (fun _ => trivial) (fun _ => trivial) (fun _ => trivial)
    (fun _ => trivial) (fun _ _ => trivial) (fun _ _ => trivial) peer

/-- The joiner is shown what is cached. -/
lemma finalizeJoin_showing (peer : Peer) (token : Str) (isFresh : Bool) :
    (finalizeJoin c peer token isFresh).Wp (showing c peer.roomId) (fun _ _ => True) s := by
  refine .traced trivial fun _ _ => .traced trivial fun roomRow _ => ?_
  refine .traced trivial fun history _ => .traced trivial fun members _ => ?_
  refine .traced ⟨rfl, by simp⟩ fun _ _ => wp_of_unshown ?_
  refine Prog.Only.bind ?_ fun _ => .perform trivial
  exact broadcast_only (fun _ _ => trivial) (fun _ => trivial) _ _

lemma unjoined_showing (peer : Peer) (j : Json) (type : Str) :
    (unjoined c peer j type).Wp (showing c peer.roomId) (fun _ _ => True) s := by
  have herror : ∀ e s, (sendErrAndClose c e).Wp (showing c peer.roomId) (fun _ _ => True) s :=
    fun e s => wp_of_unshown (sendErrAndClose_unshown e)
  unfold unjoined
  refine Prog.Wp.ite (fun _ => ?_) fun _ => Prog.Wp.ite (fun _ => ?_) fun _ => herror _ _
  · refine .ofExcept (fun token _ => ?_) fun _ _ => trivial
    refine Prog.Wp.ite (fun _ => ?_) fun _ => wp_of_unshown (helloWithoutToken_unshown peer)
    refine .traced trivial fun owner _ => Prog.Wp.ite (fun _ => ?_) fun _ => herror _ _
    exact finalizeJoin_showing peer token false
  · refine .ofExcept (fun answer _ => ?_) fun _ _ => trivial
    unfold challengeResponse
    refine Prog.Wp.ite (fun _ => herror _ _) fun _ => .traced trivial fun _ _ => ?_
    refine Prog.Wp.ite (fun _ => herror _ _) fun _ => .traced trivial fun inserted _ => ?_
    exact Prog.Wp.ite (fun _ => finalizeJoin_showing peer _ true) fun _ => herror _ _

lemma readFrame_showing (cfg : Config) (data : Inbound) (peer : Peer) :
    (readFrame cfg c data peer).Wp (showing c peer.roomId) (fun _ _ => True) s := by
  unfold readFrame
  cases data.json with
  | none => exact wp_of_unshown (sendErr_unshown _)
  | some j =>
      refine .ofExcept (fun hasType _ => ?_) fun _ _ => trivial
      refine Prog.Wp.ite (fun _ => ?_) fun _ => wp_of_unshown (sendErr_unshown _)
      refine .ofExcept (fun v _ => .ofExcept (fun type _ => ?_) fun _ _ => trivial)
        fun _ _ => trivial
      refine Prog.Wp.ite (fun _ => ?_) fun _ => unjoined_showing peer j type
      exact wp_of_unshown (joined_unshown cfg peer j type)

/-- A connection that has joined is shown nothing more. -/
lemma readFrame_unshown (cfg : Config) (data : Inbound) {peer : Peer} (hj : peer.joined = true) :
    (readFrame cfg c data peer).Only Op.Unshown := by
  unfold readFrame
  cases data.json with
  | none => exact sendErr_unshown _
  | some j =>
      refine .ofExcept fun hasType _ => Prog.Only.ite (fun _ => ?_) fun _ => sendErr_unshown _
      refine .ofExcept fun v _ => .ofExcept fun type _ => ?_
      exact Prog.Only.ite (fun _ => joined_unshown cfg peer j type) fun hnot => absurd hj hnot

end Showing

/-! ## Who is shown the past -/

lemma Op.Plain.unshown {o : Op Str} (h : o.Plain) : o.Unshown := by
  cases o <;> trivial

lemma Op.OfActivate.unshown {o : Op Str} {id : Str} (h : o.OfActivate id) : o.Unshown := by
  cases o <;> trivial

lemma removeRoom_unshown (id : Str) : (removeRoom (π := Str) id).Only Op.Unshown := by
  refine Prog.Only.bind (.step trivial fun targets => ?_) fun _ => .step trivial fun _ => trivial
  exact closeEach_only (fun _ => trivial) (fun _ _ => trivial) targets

lemma deleteRoom_unshown (n : ℕ) (id : Str) (body : Option Json) :
    (deleteRoom (π := Str) n id body).Only Op.Unshown := by
  have herror : ∀ e, (jsonError (π := Str) n e).Only Op.Unshown := fun e => .perform trivial
  cases body with
  | none => exact herror _
  | some body =>
      refine .ofExcept fun token _ => Prog.Only.ite (fun _ => herror _) fun _ => ?_
      refine .step trivial fun owner => Prog.Only.ite (fun _ => ?_) fun _ => herror _
      exact (removeRoom_unshown id).bind fun _ => .perform trivial

lemma purge_unshown (cfg : Config) : (purge (π := Str) cfg).Only Op.Unshown := by
  refine .step trivial fun now => .step trivial fun stale => ?_
  induction stale with
  | nil => trivial
  | cons id ids ih => exact (removeRoom_unshown id).bind fun _ => ih

/-- The programs that are not message handlers show nobody the past. -/
lemma program_unshown {t : Task} {i : Input} (h : ∀ c data, t = .ws c → i ≠ .message data) :
    (program cfg secret t i).Only Op.Unshown := by
  have hplain : ∀ {p : Handler Str Unit}, p.Only Op.Plain → p.Only Op.Unshown := fun hp =>
    hp.mono fun _ ho => ho.unshown
  cases t with
  | ws c =>
      cases i with
      | opened room =>
          exact Prog.Only.ite (fun _ => trivial) fun _ => .step trivial fun _ => .perform trivial
      | message data => exact absurd rfl (h c data rfl)
      | closed =>
          refine .step trivial fun peer => ?_
          cases peer with
          | none => trivial
          | some p =>
              refine Prog.Only.ite (fun _ => ?_) fun _ => trivial
              exact broadcast_only (fun _ _ => trivial) (fun _ => trivial) _ _
      | _ => trivial
  | http n =>
      cases i with
      | getPowChallenge => exact hplain (getPowChallenge_plain n cfg secret)
      | postRooms body => exact hplain (postRooms_plain n cfg secret body)
      | activate id body =>
          exact (activate_ofActivate n cfg id body).mono fun _ ho => ho.unshown
      | isAlive body => exact hplain (isAlive_plain n body)
      | deleteRoom id body => exact deleteRoom_unshown n id body
      | _ => trivial
  | purger =>
      cases i with
      | purge => exact purge_unshown cfg
      | _ => trivial

lemma mem_outgoing {d : Conn} {f : Frame Str} {es : List (Called (signature Str))}
    (h : (d, .text f) ∈ outgoing es) : ∃ es₁ es₂, es = es₁ ++ ⟨.sendText d f, ()⟩ :: es₂ := by
  obtain ⟨⟨o, a⟩, he, hout⟩ := List.mem_filterMap.mp h
  obtain ⟨es₁, es₂, rfl⟩ := List.append_of_mem he
  cases o <;> simp [Op.outgoing] at hout
  obtain ⟨rfl, rfl⟩ := hout
  exact ⟨es₁, es₂, rfl⟩

lemma outgoing_of_mem {d : Conn} {f : Frame Str} {es : List (Called (signature Str))}
    (h : ⟨.sendText d f, ()⟩ ∈ es) : (d, .text f) ∈ outgoing es :=
  List.mem_filterMap.mpr ⟨_, h, rfl⟩

/-- What a handler that leaves the caches alone reads is what is cached. -/
lemma recentMessages_of_trace {p : Handler Str Unit} {c : Conn} (hp : p.Only (Op.OfUnjoined c))
    (xs : ℕ → Choice) (w : World Str) (r : Str) (history : List (CachedMessage Str))
    (h : ⟨.recentMessages r, history⟩ ∈ p.trace (S := signature Str) exec xs w) :
    history = w.mgr.recentMessages r := by
  refine (Prog.trace_induction (S := signature Str) (P := Op.OfUnjoined c)
    (J := fun es (w' : World Str) => w'.mgr.recentMessages r = w.mgr.recentMessages r ∧
      ∀ history, ⟨.recentMessages r, history⟩ ∈ es → history = w.mgr.recentMessages r) ?_ hp xs
    ⟨rfl, by simp⟩).2 history h
  rintro o x es w' ho ⟨hsame, hes⟩
  refine ⟨(exec_recentMessages_ofUnjoined ho x w' r).trans hsame, fun history hmem => ?_⟩
  rcases List.mem_append.mp hmem with hmem | hmem
  · exact hes history hmem
  · obtain ⟨rfl, hhistory⟩ := Sigma.mk.inj_iff.mp (List.mem_singleton.mp hmem)
    exact (eq_of_heq hhistory).trans hsame

lemma trace_call_bind {α : Type} (o : Op Str) (f : o.Res → Handler Str α) (xs : ℕ → Choice)
    (w : World Str) : (call o >>= f).trace (S := signature Str) exec xs w
      = ⟨o, (exec o (xs 0) w).1⟩ ::
        (f (exec o (xs 0) w).1).trace (S := signature Str) exec (fun n => xs (n + 1))
          (exec o (xs 0) w).2 := rfl

/-- A program that shows nobody the past sends no joined frame. -/
lemma not_shown {p : Handler Str Unit} (hp : p.Only Op.Unshown) (xs : ℕ → Choice) (w : World Str)
    {d : Conn} {f : Frame Str} (hf : ¬ (Op.sendText d f).Unshown) :
    (d, .text f) ∉ outgoing (p.trace (S := signature Str) exec xs w) := by
  intro h
  obtain ⟨es₁, es₂, hes⟩ := mem_outgoing h
  have hcall : (⟨.sendText d f, ()⟩ : Called (signature Str)) ∈
      p.trace (S := signature Str) exec xs w := by
    rw [hes]
    simp
  exact hf (hp.path (Prog.path_trace exec p xs w) _ hcall)

/-- What a frame does, once its connection has been looked up. -/
def readAs (cfg : Config) (c : Conn) (data : Inbound) : Option Peer → Handler Str Unit
  | none => call (.close c (ascii "no peer"))
  | some peer => readFrame cfg c data peer

/-- A frame shows its connection what is cached for its room. -/
lemma frame_shows {c d : Conn} {data : Inbound} {xs : ℕ → Choice} {w : World Str} {peerId : Str}
    {name token : Option Str} {history : List (CachedMessage Str)} {members : List Str}
    (h : (d, .text (.joined peerId name token history members)) ∈
      outgoing ((onmessage cfg id c data).trace (S := signature Str) exec xs w)) :
    ∃ p, w.mgr.peers d = some p ∧ history = w.mgr.recentMessages p.roomId := by
  have hclose : ∀ reason xs, (d, .text (.joined peerId name token history members)) ∉
      outgoing ((call (.close c reason)).trace (S := signature Str) exec xs w) := fun reason xs =>
    not_shown (.perform trivial) xs w id
  unfold onmessage at h
  split at h
  · exact absurd h (hclose _ _)
  · rename_i hsize
    rw [trace_call_bind] at h
    change _ ∈ outgoing ((readAs cfg c data (w.mgr.peers c)).trace (S := signature Str) exec
      (fun n => xs (n + 1)) w) at h
    cases hp : w.mgr.peers c with
    | none =>
        rw [hp] at h
        exact absurd h (hclose _ _)
    | some peer =>
        rw [hp, readAs] at h
        by_cases hj : peer.joined = true
        · exact absurd h (not_shown (readFrame_unshown cfg data hj) _ w id)
        obtain ⟨es₁, es₂, hes⟩ := mem_outgoing h
        have hpath := Prog.path_trace exec (readFrame cfg c data peer) (fun n => xs (n + 1)) w
        rw [hes] at hpath
        obtain ⟨rfl, hread⟩ := Prog.Wp.pre_of_path (readFrame_showing (s := []) cfg data peer) hpath
        refine ⟨peer, hp, recentMessages_of_trace (readFrame_ofUnjoined (c := d) cfg hsize
          fun hj' => absurd hj' hj) (fun n => xs (n + 1)) w peer.roomId history ?_⟩
        rw [hes]
        exact List.mem_append_left _ hread

/-- Whoever is sent a joined frame is shown what is cached for its room. -/
lemma happening_shows {conf : State} {a : Happening cfg secret} {d : Conn} {peerId : Str}
    {name token : Option Str} {history : List (CachedMessage Str)} {members : List Str}
    (h : (d, .text (.joined peerId name token history members)) ∈ outgoing (a.trace conf)) :
    ∃ p, conf.world.mgr.peers d = some p ∧ history = conf.world.mgr.recentMessages p.roomId := by
  cases a with
  | dropMessageCache r => simp [Happening.trace, outgoing] at h
  | round b =>
      cases b with
      | env e => simp [Happening.trace, Round.trace, outgoing] at h
      | run t i xs =>
          have h : (d, .text (.joined peerId name token history members)) ∈ outgoing
              ((program cfg secret t i).trace (S := signature Str) exec xs conf.world) := h
          by_cases hmsg : ∃ c data, t = .ws c ∧ i = .message data
          · obtain ⟨c, data, rfl, rfl⟩ := hmsg
            exact frame_shows h
          · have honly : (program cfg secret t i).Only Op.Unshown := program_unshown
              fun c data ht hi => hmsg ⟨c, data, ht, hi⟩
            exact absurd h (not_shown honly xs conf.world id)

/-- **A joiner is shown the recent past.**  In every run of uninterrupted handlers in which the
cast to `int` is exact whenever a message is accepted: the history of a joined frame is, in
order, the last `min (max n 0) k` of the `k` messages accepted for the room of the connection
since its cache was last erased, where `n` is `messageCacheSize`.  And what neither erases the
cache of a room nor is accepted for it leaves the cache as it is. -/
theorem replay_recent {db : Database} {clock : ℤ} {h : List (State × Happening cfg secret)}
    {conf conf' : State} {a : Happening cfg secret}
    (hr : Trail happen Fits (boot db clock) h conf) (hs : happen conf a = some conf') :
    (∀ d peerId name token history members,
      (d, .text (.joined peerId name token history members)) ∈ outgoing (a.trace conf) →
        ∃ p, conf.world.mgr.peers d = some p ∧ history.map CachedMessage.entry
          = latest cfg.messageCacheSize (messageLog p.roomId h)) ∧
    ∀ r, erases r conf a = false → accepted r conf a = none →
      conf'.world.mgr.recentMessages r = conf.world.mgr.recentMessages r := by
  constructor
  · intro d peerId name token history members hsent
    obtain ⟨p, hp, rfl⟩ := happening_shows hsent
    exact ⟨p, hp, cache_eq_latest hr p.roomId⟩
  · intro r her hacc
    rcases happen_cache hs r with ⟨her', -⟩ | ⟨-, -, hsame⟩ | ⟨-, id, payload, hacc', -⟩
    · simp [her] at her'
    · exact hsame
    · simp [hacc] at hacc'

namespace Sample

/-- A `hello` frame that presents the token. -/
def helloFrame : Inbound :=
  ⟨100, some (.object [(ascii "type", .string (ascii "hello")), (ascii "token", .string token)])⟩

/-- A connection takes up an input, alone. -/
def callback (cfg : Config) (c : Conn) (i : Input) : Happening cfg Sample.secret :=
  .round (.run (Task.ws c) i fun _ => draw 0)

/-- Two connections are opened, and the first of them joins. -/
def entering (cfg : Config) : List (Happening cfg Sample.secret) :=
  [callback cfg 0 (.opened (some room)), callback cfg 1 (.opened (some room)),
    callback cfg 0 (.message helloFrame)]

/-- A joined frame is among what is asked of Crow. -/
def shows (out : List (Conn × Outgoing Str)) : Bool :=
  out.any fun o => match o.2 with
    | .text (.joined _ _ _ _ _) => true
    | _ => false

lemma exists_of_shows {out : List (Conn × Outgoing Str)} (h : shows out = true) :
    ∃ d peerId name token history members,
      (d, .text (.joined peerId name token history members)) ∈ out := by
  obtain ⟨⟨d, f⟩, hmem, hf⟩ := List.any_eq_true.mp h
  cases f with
  | close reason => simp at hf
  | text f => cases f <;> first | exact ⟨_, _, _, _, _, _, hmem⟩ | simp at hf

end Sample

/-- Somebody says `hi`, and the next one to join is shown it. -/
theorem replay_recent_sample : ∃ (h : List (State × Happening {} Sample.secret)) (conf conf' : State)
    (a : Happening {} Sample.secret), happen conf a = some conf' ∧
      (messageLog Sample.room h).length = 1 ∧
      ∃ d peerId name token history members,
        (d, .text (.joined peerId name token history members)) ∈ outgoing (a.trace conf) ∧
        ∃ p, conf.world.mgr.peers d = some p ∧
          history.map CachedMessage.entry = latest 5 (messageLog p.roomId h) := by
  let last : Happening {} Sample.secret := Sample.callback {} 1 (.message Sample.helloFrame)
  obtain ⟨h, conf, hr, hP⟩ := exists_trail_of_follow (A := Happening {} Sample.secret) happen Fits
    (boot (Sample.store 2 [] [Sample.token]) 0) (fun _ _ _ _ => .inl (by norm_num))
    (Sample.entering {} ++ [Sample.callback {} 0 (.message Sample.hi)])
    (fun h conf => (happen conf last).isSome && (messageLog Sample.room h).length = 1 &&
      Sample.shows (outgoing (last.trace conf))) (by decide +kernel)
  simp only [Bool.and_eq_true, decide_eq_true_eq] at hP
  obtain ⟨⟨hs, hlog⟩, hshown⟩ := hP
  obtain ⟨conf', hs⟩ := Option.isSome_iff_exists.mp hs
  obtain ⟨d, peerId, name, token, history, members, hsent⟩ := Sample.exists_of_shows hshown
  exact ⟨h, conf, conf', _, hs, hlog, d, peerId, name, token, history, members, hsent,
    (replay_recent hr hs).1 _ _ _ _ _ _ hsent⟩

/-! ## One message too many -/

section Full

/-- The largest setting. -/
def Sample.full : Config := { messageCacheSize := 2 ^ 31 - 1 }

/-- One connection has joined the room and another waits for it. -/
structure Ready (conf : State) : Prop where
  idle : ∀ c < 2, (conf.task (.ws c)).any Prog.finished = true
  alive : conf.world.destroyed = []
  sender : (conf.world.mgr.peers 0).any (fun p => p.joined && p.roomId = Sample.room) = true
  joiner : (conf.world.mgr.peers 1).any (fun p => !p.joined && p.roomId = Sample.room) = true
  owner : conf.world.db.roomForToken Sample.token = some Sample.room

/-- A connection that is ready takes up a frame. -/
lemma Ready.happen {conf : State} (h : Ready conf) {c : Conn} (hc : c < 2) (cfg : Config)
    (data : Inbound) : ∃ conf', HashHush.happen conf (Sample.callback cfg c (.message data)) = some conf' ∧
      ∀ d < 2, (conf'.task (.ws d)).any Prog.finished = true := by
  obtain ⟨p, hp, hfinished⟩ := (Option.any_eq_true _ _).mp (h.idle c hc)
  have hidle : Concurrency.idle (conf.task (.ws c)) = true := by
    rw [hp]
    exact hfinished
  have hadmits : (server cfg Sample.secret).admits conf (.ws c) (.message data) = true := by
    simp [admits, hp, h.alive]
  obtain ⟨conf', hs, ⟨q, hq, hfin⟩, hother⟩ :=
    exists_round (M := server cfg Sample.secret) hidle hadmits fun _ => Sample.draw 0
  refine ⟨conf', hs, fun d hd => ?_⟩
  by_cases hdc : d = c
  · rw [hdc, hq]
    exact hfin
  · rw [hother (.ws d) (by simpa using hdc)]
    exact h.idle d hd

/-- The message is cached, and none is evicted. -/
lemma Ready.message {conf conf' : State} (h : Ready conf)
    (hs : HashHush.happen conf (Sample.callback Sample.full 0 (.message Sample.hi)) = some conf')
    (hidle : ∀ c < 2, (conf'.task (.ws c)).any Prog.finished = true) :
    Ready conf' ∧ (conf'.world.mgr.recentMessages Sample.room).length
      = (conf.world.mgr.recentMessages Sample.room).length + 1 := by
  obtain ⟨peer, hpeer, hsender⟩ := (Option.any_eq_true _ _).mp h.sender
  obtain ⟨hj, hr⟩ : peer.joined = true ∧ peer.roomId = Sample.room := by simpa using hsender
  have hrelayed : Sample.hi.Relayed Sample.full (ascii "msg") (ascii "hi") :=
    ⟨relayed_hi.type_mem, relayed_hi.carries, relayed_hi.nonempty, relayed_hi.size_le,
      relayed_hi.payload_le⟩
  have hworld : conf'.world
      = (handleFrame Sample.full 0 Sample.hi (fun _ => Sample.draw 0) conf.world).2 :=
    round_message hs
  have hmgr : conf'.world.mgr = conf.world.mgr.appendCachedMessage Sample.room peer.peerId
      (ascii "hi") (2 ^ 31 - 1) conf.world.clock := by
    rw [hworld, handleFrame_mgr Sample.full hpeer hj (Inbound.message_eq_some.mpr hrelayed), hr]
    rfl
  have halive : conf'.world.destroyed = conf.world.destroyed := by
    rw [hworld]
    exact Prog.run_frame (f := World.destroyed) exec_destroyed _ _ _
  have hpeers : conf'.world.mgr.peers = conf.world.mgr.peers := by
    rw [hmgr, RoomManager.peers_appendCachedMessage]
  have htokens : conf'.world.db.accessTokens = conf.world.db.accessTokens := by
    rw [hworld]
    exact handleFrame_accessTokens hrelayed hpeer hj _
  refine ⟨⟨hidle, halive.trans h.alive, hpeers ▸ h.sender, hpeers ▸ h.joiner, ?_⟩, ?_⟩
  · rw [Database.roomForToken, htokens]
    exact h.owner
  · rw [hmgr, recentMessages_appendCachedMessage (by norm_num),
      RoomManager.evict_of_le (castInt_le _), List.length_append, List.length_singleton]

/-- Any number of messages can be cached. -/
lemma exists_filled (n : ℕ) : ∃ (h : List (State × Happening Sample.full Sample.secret))
    (conf : State), Trail happen (fun _ _ => True) (boot (Sample.store 2 [] [Sample.token]) 0) h conf ∧
      Ready conf ∧ (conf.world.mgr.recentMessages Sample.room).length = n := by
  induction n with
  | zero =>
      obtain ⟨h, conf, hr, hP⟩ := exists_trail_of_follow (A := Happening Sample.full Sample.secret)
        happen (fun _ _ => True) (boot (Sample.store 2 [] [Sample.token]) 0) (fun _ _ => trivial)
        (Sample.entering Sample.full) (fun _ conf =>
          (conf.task (.ws 0)).any Prog.finished && (conf.task (.ws 1)).any Prog.finished &&
          conf.world.destroyed = [] &&
          (conf.world.mgr.peers 0).any (fun p => p.joined && p.roomId = Sample.room) &&
          (conf.world.mgr.peers 1).any (fun p => !p.joined && p.roomId = Sample.room) &&
          conf.world.db.roomForToken Sample.token = some Sample.room &&
          (conf.world.mgr.recentMessages Sample.room).length = 0) (by decide +kernel)
      simp only [Bool.and_eq_true, decide_eq_true_eq] at hP
      obtain ⟨⟨⟨⟨⟨⟨h₀, h₁⟩, halive⟩, hsender⟩, hjoiner⟩, howner⟩, hlength⟩ := hP
      refine ⟨h, conf, hr, ⟨fun c hc => ?_, halive, ?_, ?_, howner⟩, hlength⟩
      · interval_cases c
        · exact h₀
        · exact h₁
      · simpa using hsender
      · simpa using hjoiner
  | succ n ih =>
      obtain ⟨h, conf, hr, hready, hlength⟩ := ih
      obtain ⟨conf', hs, hidle⟩ := hready.happen (c := 0) (by norm_num) Sample.full Sample.hi
      obtain ⟨hready', hlength'⟩ := hready.message hs hidle
      exact ⟨_, conf', hr.snoc hs trivial, hready', by rw [hlength', hlength]⟩

/-- Whoever presents a token of the room is shown the past. -/
lemma Ready.shown {conf : State} (h : Ready conf) :
    ∃ peerId name token history members,
      (1, .text (.joined peerId name token history members)) ∈ outgoing
        (Happening.trace conf (Sample.callback Sample.full 1 (.message Sample.helloFrame))) := by
  obtain ⟨peer, hpeer, hjoiner⟩ := (Option.any_eq_true _ _).mp h.joiner
  obtain ⟨hj, hr⟩ : peer.joined = false ∧ peer.roomId = Sample.room := by simpa using hjoiner
  let j : Json :=
    .object [(ascii "type", .string (ascii "hello")), (ascii "token", .string Sample.token)]
  have htype : j.type? = some (ascii "hello") := by simp [j, Json.type?]
  have htoken : j.js_str (ascii "token") = .ok Sample.token := by
    rw [Json.js_str_object]
    exact congrArg _ (by decide +kernel)
  have hsize : castInt Sample.helloFrame.size ≤ Sample.full.wsMaxPayloadBytes := relayed_hi.size_le
  obtain ⟨f, hf, hpeers⟩ := onmessage_typed (c := 1) hsize rfl htype
  have hne : Sample.token ≠ [] := by decide +kernel
  have hhello : f (some peer) = helloWithToken 1 peer Sample.token := by
    rw [hpeers, if_neg (by simp [hj]), unjoined, if_pos rfl, htoken, json_ok_bind, if_pos hne]
  have hround : Happening.trace conf (Sample.callback Sample.full 1 (.message Sample.helloFrame))
      = (onmessage Sample.full id 1 Sample.helloFrame).trace (S := signature Str) exec
        (fun _ => Sample.draw 0) conf.world := rfl
  rw [hround, hf, trace_call_bind]
  change ∃ peerId name token history members, _ ∈ outgoing (_ ::
    (f (conf.world.mgr.peers 1)).trace (S := signature Str) exec (fun _ => Sample.draw 0) conf.world)
  have howner : (exec (.roomForToken Sample.token) (Sample.draw 0) conf.world).1
      = some peer.roomId := h.owner.trans (congrArg some hr.symm)
  rw [hpeer, hhello, helloWithToken, trace_call_bind, howner, if_pos rfl, finalizeJoin,
    announceJoin, trace_call_bind, trace_call_bind, trace_call_bind, trace_call_bind,
    trace_call_bind]
  exact ⟨_, _, _, _, _, outgoing_of_mem
    (.tail _ (.tail _ (.tail _ (.tail _ (.tail _ (.tail _ (.head _)))))))⟩

/-- With the largest setting, one message more than it allows is cached, and the next one to join
is shown all of them. -/
theorem replay_exceeds : ¬ ∀ (cfg : Config) (secret : List UInt8) (db : Database) (clock : ℤ)
    (h : List (State × Happening cfg secret)) (conf conf' : State) (a : Happening cfg secret),
    Trail happen (fun _ _ => True) (boot db clock) h conf → happen conf a = some conf' →
      ∀ d peerId name token history members,
        (d, .text (.joined peerId name token history members)) ∈ outgoing (a.trace conf) →
          ∃ p, conf.world.mgr.peers d = some p ∧ history.map CachedMessage.entry
            = latest cfg.messageCacheSize (messageLog p.roomId h) := by
  intro hall
  obtain ⟨h, conf, hr, hready, hlength⟩ := exists_filled (2 ^ 31)
  obtain ⟨conf', hs, -⟩ := hready.happen (c := 1) (by norm_num) Sample.full Sample.helloFrame
  obtain ⟨peerId, name, token, history, members, hsent⟩ := hready.shown
  obtain ⟨p, hp, hlatest⟩ := hall _ _ _ _ h conf conf' _ hr hs 1 peerId name token history members hsent
  obtain ⟨q, hq, rfl⟩ := happening_shows hsent
  have hroom : q.roomId = Sample.room := by
    have hjoiner := hready.joiner
    rw [hq, Option.any_some, Bool.and_eq_true, decide_eq_true_eq] at hjoiner
    exact hjoiner.2
  have hlength' := congrArg List.length hlatest
  rw [List.length_map, hroom, hlength, latest_eq, List.length_drop] at hlength'
  have hfull : Sample.full.messageCacheSize.toNat = 2 ^ 31 - 1 := rfl
  omega

end Full

end HashHush
