import HashHush.Properties.Isolation
import HashHush.Properties.ReadBack
import HashHush.Properties.RoomsCap
import HashHush.Util.Utf8

/-!
# The names of rooms

`POST /api/rooms` keeps the first 80 bytes of the name it is given, wherever they end.
`shortened_take_iff` says when what is left is still a text: exactly if the cut falls before a character
or behind the name.

`postRooms_names` and `joins_as_found` are about the two handlers: what is inserted is such a
prefix, and what a joined frame calls the room is what `findRoom` has returned for it.  Between the
two a name stays in its row (`named_rooms`) and is read up to its first NUL, so `roomName_iff` can
say for every run what becomes of a name.
-/

namespace HashHush

open Concurrency System

/-! ## Cutting a name -/

/-- What may become of a name. -/
structure Shortened (name stored : Str) : Prop where
  text : IsUtf8 stored
  isPrefix : stored <+: name
  length_le : stored.length ≤ 80
  whole : name.length ≤ 80 → stored = name

/-- The byte behind the cut, if there is one, begins a character. -/
def CutsWell (name : Str) : Prop := ∀ b, name[80]? = some b → b.IsUTF8FirstByte

lemma shortened_take_iff {name : Str} (h : IsUtf8 name) : Shortened name (name.take 80) ↔ CutsWell name := by
  rw [CutsWell, ← isUtf8_take_iff h]
  constructor
  · exact Shortened.text
  · intro htext
    exact ⟨htext, List.take_prefix 80 name, List.length_take_le 80 name, List.take_of_length_le⟩

/-! ## The handlers -/

section Handlers

variable {cfg : Config} {secret : List UInt8} {n : ℕ} {body : Json}

/-- The name that a request asks for. -/
def requested (body : Json) : Except JsonError Str := body.js_str (ascii "name") (ascii "Secret chat")

/-- A room is inserted under the first 80 bytes of the name. -/
def Op.Names (body : Json) : Op Str → Prop
  | .createRoom row => ∃ name, requested body = .ok name ∧ row.name = name.take 80
  | _ => True

lemma Op.Capless.names {o : Op Str} (h : o.Capless) : o.Names body := by
  cases o <;> trivial

lemma jsonError_names (e : HttpError) : (jsonError (π := Str) n e).Only (Op.Names body) :=
  .perform trivial

lemma createRoom_names : (createRoom (π := Str) cfg n body).Only (Op.Names body) := by
  refine .ofExcept fun name hname => .ofExcept fun requiresPassword _ => ?_
  refine Prog.Only.bind ?_ fun count => ?_
  · split
    · exact .perform trivial
    · trivial
  · refine Prog.Only.ite (fun _ => jsonError_names _) fun _ => ?_
    refine .step trivial fun bytes => .step trivial fun now => ?_
    refine .step ⟨name, hname, rfl⟩ fun inserted => ?_
    exact Prog.Only.ite (fun _ => .perform trivial) fun _ => jsonError_names _

lemma postRooms_names : (postRooms (π := Str) cfg secret n (some body)).Only (Op.Names body) := by
  refine .ofExcept fun hasPow _ => Prog.Only.ite (fun _ => ?_) fun _ => jsonError_names _
  refine .ofExcept fun pow _ => ?_
  split
  · refine .ofExcept fun challenge _ => .ofExcept fun nonce _ => ?_
    refine Prog.Only.ite (fun _ => jsonError_names _) fun _ => ?_
    refine Prog.Only.ite (fun _ => jsonError_names _) fun _ => ?_
    refine (verifyChallenge_capless.mono fun _ ho => ho.names).bind fun result => ?_
    cases result with
    | ok => exact createRoom_names
    | _ => exact jsonError_names _
  · exact jsonError_names _

/-- What the calls of a task need: a joined frame calls the room what `findRoom` has returned for
the room of the connection. -/
def joinPre : Op Str → List (Called (signature Str)) → Prop
  | .sendText c (.joined _ (some name) _ _ _), es => ∃ peer row,
      (⟨.findByConn c, some peer⟩ : Called (signature Str)) ∈ es ∧
      (⟨.findRoom peer.roomId, some row⟩ : Called (signature Str)) ∈ es ∧ name = row.name
  | _, _ => True

/-- The specification of a task with respect to the joined frames. -/
abbrev joining : Spec (signature Str) (List (Called (signature Str))) :=
  .traced joinPre fun _ _ => True

/-- The operation sends no joined frame. -/
def Op.Joinless : Op Str → Prop
  | .sendText _ (.joined _ _ _ _ _) => False
  | _ => True

variable {c : Conn} {peer : Peer} {es : List (Called (signature Str))}

lemma Op.Joinless.joinPre {o : Op Str} (h : o.Joinless) : joinPre o es := by
  cases o with
  | sendText c f =>
      cases f with
      | joined => exact h.elim
      | _ => trivial
  | _ => trivial

lemma wp_of_joinless {α : Type} {p : Handler Str α} (hp : p.Only Op.Joinless) :
    p.Wp joining (fun _ _ => True) es :=
  hp.wp_traced (J := fun _ => True) (fun _ _ ho _ => ho.joinPre) (fun _ _ _ _ _ => trivial)
    (fun _ _ _ => trivial) trivial

lemma sendErrAndClose_joinless (e : WsError) :
    (sendErrAndClose (π := Str) c e).Only Op.Joinless :=
  .step trivial fun _ => .perform trivial

/-- A joined frame is sent after the room has been looked up. -/
lemma finalizeJoin_joining (hpeer : (⟨.findByConn c, some peer⟩ : Called (signature Str)) ∈ es)
    (token : Str) (isFresh : Bool) :
    (finalizeJoin c peer token isFresh).Wp joining (fun _ _ => True) es := by
  refine .traced trivial fun _ _ => .traced trivial fun roomRow _ => ?_
  refine .traced trivial fun history _ => .traced trivial fun members _ => ?_
  refine .traced ?_ fun _ _ => wp_of_joinless ?_
  · cases roomRow with
    | none => trivial
    | some row => exact ⟨peer, row, by simp [hpeer], by simp, rfl⟩
  · exact (broadcast_only (fun _ _ => trivial) (fun _ => trivial) _ _).bind fun _ =>
      .perform trivial

lemma unjoined_joining (hpeer : (⟨.findByConn c, some peer⟩ : Called (signature Str)) ∈ es)
    (j : Json) (type : Str) : (unjoined c peer j type).Wp joining (fun _ _ => True) es := by
  refine .ite (fun _ => ?_) fun _ => .ite (fun _ => ?_) fun _ => ?_
  · refine .ofExcept (fun token _ => ?_) fun _ _ => trivial
    refine .ite (fun _ => ?_) fun _ => wp_of_joinless ?_
    · refine .traced trivial fun owner _ => .ite (fun _ => ?_) fun _ => ?_
      · exact finalizeJoin_joining (List.mem_append_left _ hpeer) token false
      · exact wp_of_joinless (sendErrAndClose_joinless _)
    · exact helloWithoutToken_only (fun _ => trivial) (fun _ => trivial) (fun _ => trivial)
        (fun _ => trivial) (fun _ _ => trivial) (fun _ _ => trivial) peer
  · refine .ofExcept (fun answer _ => ?_) fun _ _ => trivial
    have herror : ∀ (e : WsError) (es : List (Called (signature Str))),
        (sendErrAndClose c e).Wp joining (fun _ _ => True) es := fun e _ =>
      wp_of_joinless (sendErrAndClose_joinless e)
    refine .ite (fun _ => herror _ _) fun _ => .traced trivial fun _ _ => ?_
    refine .ite (fun _ => herror _ _) fun _ => .traced trivial fun inserted _ => ?_
    refine .ite (fun _ => ?_) fun _ => herror _ _
    exact finalizeJoin_joining (by simp [hpeer]) _ true
  · exact wp_of_joinless (sendErrAndClose_joinless _)

lemma joined_joinless (j : Json) (type : Str) :
    (joined (π := Str) cfg id c peer j type).Only Op.Joinless := by
  refine Prog.Only.ite (fun _ => ?_) fun _ => Prog.Only.ite (fun _ => .perform trivial) fun _ => ?_
  · refine .ofExcept fun payload _ => Prog.Only.ite (fun _ => .perform trivial) fun _ => ?_
    refine Prog.Only.ite (fun _ => .perform trivial) fun _ => Prog.Only.ite (fun _ => ?_) fun _ => ?_
    · refine .step trivial fun _ => .step trivial fun _ => .step trivial fun ts => ?_
      exact broadcast_only (fun _ _ => trivial) (fun _ => trivial) _ _
    · refine .step trivial fun ts => ?_
      exact broadcast_only (fun _ _ => trivial) (fun _ => trivial) _ _
  · exact .perform trivial

lemma onmessage_joining (data : Inbound) :
    (onmessage cfg id c data).Wp joining (fun _ _ => True) es := by
  refine .ite (fun _ => wp_of_joinless (.perform trivial)) fun _ => .traced trivial fun found _ => ?_
  cases found with
  | none => exact wp_of_joinless (.perform trivial)
  | some peer =>
      dsimp only
      split
      · exact wp_of_joinless (.perform trivial)
      · refine .ofExcept (fun hasType _ => ?_) fun _ _ => trivial
        refine .ite (fun _ => ?_) fun _ => wp_of_joinless (.perform trivial)
        refine .ofExcept (fun type _ => ?_) fun _ _ => trivial
        refine .ofExcept (fun type _ => ?_) fun _ _ => trivial
        refine .ite (fun _ => wp_of_joinless (joined_joinless _ _)) fun _ => ?_
        exact unjoined_joining (by simp) _ _

lemma removeRoom_joinless (id : Str) : (removeRoom (π := Str) id).Only Op.Joinless := by
  refine Prog.Only.bind (.step trivial fun targets => ?_) fun _ => .step trivial fun _ => trivial
  exact closeEach_only (fun _ => trivial) (fun _ _ => trivial) targets

/-- Of the tasks, only the message handler of a connection sends joined frames. -/
lemma program_joining (t : Task) (i : Input) :
    (program cfg secret t i).Wp joining (fun _ _ => True) es := by
  have hplain : ∀ {p : Handler Str Unit}, p.Only Op.Plain → p.Wp joining (fun _ _ => True) es :=
    fun hp => wp_of_joinless (hp.mono fun o ho => by cases o <;> trivial)
  match t, i with
  | .ws c, .opened room =>
      refine .ite (fun _ => trivial) fun _ => wp_of_joinless ?_
      exact .step trivial fun _ => .perform trivial
  | .ws c, .message data => exact onmessage_joining data
  | .ws c, .closed =>
      refine wp_of_joinless (.step trivial fun peer => ?_)
      cases peer with
      | none => trivial
      | some p =>
          refine Prog.Only.ite (fun _ => ?_) fun _ => trivial
          exact broadcast_only (fun _ _ => trivial) (fun _ => trivial) _ _
  | .http n, .getPowChallenge => exact hplain (getPowChallenge_plain n cfg secret)
  | .http n, .postRooms body => exact hplain (postRooms_plain n cfg secret body)
  | .http n, .activate id body =>
      refine wp_of_joinless ((activate_ofActivate n cfg id body).mono fun o ho => ?_)
      cases o <;> trivial
  | .http n, .isAlive body => exact hplain (isAlive_plain n body)
  | .http n, .deleteRoom id body =>
      have herror : ∀ e, (jsonError (π := Str) n e).Only Op.Joinless := fun _ => .perform trivial
      refine wp_of_joinless ?_
      cases body with
      | none => exact herror _
      | some body =>
          refine .ofExcept fun token _ => Prog.Only.ite (fun _ => herror _) fun _ => ?_
          refine .step trivial fun owner => Prog.Only.ite (fun _ => ?_) fun _ => herror _
          exact (removeRoom_joinless id).bind fun _ => .perform trivial
  | .purger, .purge =>
      refine wp_of_joinless (.step trivial fun now => .step trivial fun stale => ?_)
      induction stale with
      | nil => trivial
      | cons id ids ih => exact (removeRoom_joinless id).bind fun _ => ih
  | .ws _, .getPowChallenge | .ws _, .postRooms _ | .ws _, .activate _ _ | .ws _, .isAlive _
  | .ws _, .deleteRoom _ _ | .ws _, .purge => trivial
  | .http _, .opened _ | .http _, .message _ | .http _, .closed | .http _, .purge => trivial
  | .purger, .opened _ | .purger, .message _ | .purger, .closed | .purger, .getPowChallenge
  | .purger, .postRooms _ | .purger, .activate _ _ | .purger, .isAlive _
  | .purger, .deleteRoom _ _ => trivial

end Handlers

/-! ## The rows -/

/-- A room keeps its name. -/
lemma exec_name (o : Op Str) (x : Choice) (w : World Str) {row : RoomRow}
    (hrow : row ∈ (exec o x w).2.db.rooms) :
    (∃ row' ∈ w.db.rooms, row'.id = row.id ∧ row'.name = row.name) ∨
      o = .createRoom row ∧ (exec (.createRoom row) x w).1 = true := by
  have hkept : row ∈ w.db.rooms → (∃ row' ∈ w.db.rooms, row'.id = row.id ∧
      row'.name = row.name) := fun h => ⟨row, h, rfl, rfl⟩
  have hupdated : ∀ {id : Str} {f : RoomRow → RoomRow} {hf : ∀ r, (f r).id = r.id},
      row ∈ (w.db.updateRoom id f hf).rooms → (∀ r, (f r).name = r.name) →
        ∃ row' ∈ w.db.rooms, row'.id = row.id ∧ row'.name = row.name := by
    intro id f hf h hname
    obtain ⟨row', hrow', rfl⟩ := List.mem_map.mp h
    refine ⟨row', hrow', ?_⟩
    split
    · exact ⟨(hf row').symm, (hname row').symm⟩
    · exact ⟨rfl, rfl⟩
  cases hx : x.sql with
  | false =>
      refine .inl (hkept ?_)
      cases o <;> simpa [exec, hx] using hrow
  | true =>
      cases o with
      | touchRoom id =>
          simp only [exec, hx, if_true, Database.touchRoom] at hrow
          exact .inl (hupdated hrow fun _ => rfl)
      | activateRoom id =>
          simp only [exec, hx, if_true, Database.activateRoom] at hrow
          exact .inl (hupdated hrow fun _ => rfl)
      | createRoom r =>
          simp only [exec, hx, if_true, Database.createRoom] at hrow
          split at hrow
          · exact .inl (hkept hrow)
          · rename_i hout
            rcases List.mem_append.mp hrow with h | h
            · exact .inl (hkept h)
            · obtain rfl := List.mem_singleton.mp h
              exact .inr ⟨rfl, by simp [exec, hx, Database.createRoom, hout]⟩
      | deleteRoom id =>
          simp only [exec, hx, if_true, Database.deleteRoom] at hrow
          exact .inl (hkept (List.mem_filter.mp hrow).1)
      | insertChallenges id pairs =>
          refine .inl (hkept ?_)
          simp only [exec, hx, if_true, Database.insertChallenges] at hrow
          split at hrow <;> exact hrow
      | consumeChallenge id =>
          refine .inl (hkept ?_)
          simp only [exec, hx, if_true, Database.consumeChallenge] at hrow
          split at hrow <;> exact hrow
      | insertAccessToken t id =>
          refine .inl (hkept ?_)
          simp only [exec, hx, if_true, Database.insertAccessToken] at hrow
          split at hrow <;> exact hrow
      | _ => exact .inl (hkept hrow)

section Run

variable {cfg : Config} {secret : List UInt8} {db : Database} {clock : ℤ}
variable {ok : List (server cfg secret).Transition → (server cfg secret).Transition → Prop}
variable {h : List (server cfg secret).Transition} {conf conf' : State}

/-- A task has taken up a request for a room of that name. -/
def Submitted (t : Task) (name : Str) (h : List (server cfg secret).Transition) : Prop :=
  ∃ m ∈ h, ∃ body, m.label = .start t (.postRooms (some body)) ∧ requested body = .ok name

/-- A request has inserted the room. -/
def Stored (row : RoomRow) (h : List (server cfg secret).Transition) : Prop :=
  ∃ m ∈ h, ∃ t, m.Calls t (.createRoom row) true

/-- What is inserted are the first 80 bytes of a name that was submitted. -/
theorem submitted_of_createRoom
    (hr : Run (M := server cfg secret) ok (boot db clock) h conf) {t : Task} {row : RoomRow}
    {k : Bool → Handler Str Unit} (ht : conf.task t = some (.call (.createRoom row) k)) :
    ∃ name, Submitted t name h ∧ row.name = name.take 80 := by
  refine (hr.only_of_history (P := fun h t (o : Op Str) => ∀ row, o = .createRoom row →
    ∃ name, Submitted t name h ∧ row.name = name.take 80) ?_ ?_ ?_ t _ ht).1 row rfl
  · intro h m t o ho row he
    obtain ⟨name, ⟨m', hm', hbody⟩, hname⟩ := ho row he
    exact ⟨name, ⟨m', List.mem_append_left _ hm', hbody⟩, hname⟩
  · exact fun t p hp => by cases hp
  · intro h conf t i conf' hr hs _
    have hother : ∀ {p : Handler Str Unit}, p.Only Op.Capless →
        p.Only fun o : Op Str => ∀ row, o = .createRoom row → ∃ name,
          Submitted t name (h ++ [(⟨conf, .start t i, conf'⟩ : (server cfg secret).Transition)]) ∧
            row.name = name.take 80 :=
      fun hp => hp.mono fun o ho row he => (he ▸ ho : Op.Capless (.createRoom row)).elim
    obtain ⟨-, hadm, -⟩ := step_start hs
    cases t with
    | ws c => exact hother ((program_of cfg secret (.ws c) i).mono fun _ ho => ho.capless)
    | purger =>
        cases i with
        | purge => exact hother purge_capless
        | _ => trivial
    | http n =>
        cases i with
        | postRooms body =>
            cases body with
            | none => exact hother (jsonError_capless (by simp))
            | some body =>
                refine postRooms_names.mono fun o ho row he => ?_
                obtain ⟨name, hbody, hname⟩ := (he ▸ ho : Op.Names body (.createRoom row))
                exact ⟨name, ⟨_, List.mem_concat_self, body, rfl, hbody⟩, hname⟩
        | getPowChallenge => exact hother getPowChallenge_capless
        | activate id body => exact hother activate_capless
        | isAlive body => exact hother isAlive_capless
        | deleteRoom id body => exact hother deleteRoom_capless
        | _ => trivial

/-- A room has the name under which it was inserted, in this run or before it. -/
theorem named_rooms (hr : Run (M := server cfg secret) ok (boot db clock) h conf) {r : RoomRow}
    (hmem : r ∈ conf.world.db.rooms) :
    ∃ row, (Stored row h ∨ row ∈ db.rooms) ∧ row.id = r.id ∧ row.name = r.name := by
  refine hr.invariant (I := fun h (conf : State) => ∀ r ∈ conf.world.db.rooms,
    ∃ row, (Stored row h ∨ row ∈ db.rooms) ∧ row.id = r.id ∧ row.name = r.name) ?_ ?_ r hmem
  · exact fun r hmem => ⟨r, .inr hmem, rfl, rfl⟩
  · intro h conf l conf' _ ih hs _ r hmem
    have hkept : ∀ r ∈ conf.world.db.rooms, ∃ row, (Stored row (h ++
        [(⟨conf, l, conf'⟩ : (server cfg secret).Transition)]) ∨ row ∈ db.rooms) ∧
          row.id = r.id ∧ row.name = r.name := by
      intro r hmem
      obtain ⟨row, hrow, hsame⟩ := ih r hmem
      refine ⟨row, hrow.imp_left ?_, hsame⟩
      exact fun ⟨m, hm, hcalls⟩ => ⟨m, List.mem_append_left _ hm, hcalls⟩
    cases l with
    | start t i =>
        obtain ⟨-, -, rfl⟩ := step_start hs
        exact hkept r hmem
    | env e =>
        obtain ⟨w, hw, rfl⟩ := step_env hs
        exact hkept r (ambient_db hw ▸ hmem)
    | advance t x =>
        obtain ⟨o, k, ht, rfl⟩ := step_advance hs
        rcases exec_name o x conf.world hmem with ⟨r', hr', hid, hname⟩ | ⟨rfl, hinserted⟩
        · obtain ⟨row, hrow, hsame⟩ := hkept r' hr'
          exact ⟨row, hrow, hsame.1.trans hid, hsame.2.trans hname⟩
        · exact ⟨r, .inl ⟨_, List.mem_concat_self, t, x, k, rfl, ht, hinserted⟩, rfl, rfl⟩

/-- In every run the tasks keep to their specification. -/
theorem serves_joining (hr : Run (M := server cfg secret) ok (boot db clock) h conf) (t : Task) :
    Serves (M := server cfg secret) joining (fun _ => True) (conf.task t)
      (calls (M := server cfg secret) t h) := by
  refine hr.traced (M := server cfg secret) t ?_ ?_ ?_
  · trivial
  · exact fun _ _ i _ _ _ _ => program_joining t i
  · exact fun _ _ _ _ _ _ _ _ _ _ _ => trivial

/-- A joined frame repeats a name that was stored for the room of the connection, up to its first
NUL. -/
theorem stored_of_joined (hr : Run (M := server cfg secret) ok (boot db clock) h conf) {t : Task}
    {c : Conn} {peerId name : Str} {token : Option Str} {history : List (CachedMessage Str)}
    {members : List Str} {k : Unit → Handler Str Unit} (ht : conf.task t =
      some (.call (.sendText c (.joined peerId (some name) token history members)) k)) :
    ∃ row, (Stored row h ∨ row ∈ db.rooms) ∧ home (.ws c) h = some row.id ∧
      name = cText row.name := by
  obtain ⟨peer, row, hpeer, hrow, rfl⟩ := (serves_joining hr t).pre ht
  obtain ⟨m, hm, x, k₁, -, -, hfound⟩ := mem_calls.mp hpeer
  obtain ⟨m', hm', x', k₂, -, -, hread⟩ := mem_calls.mp hrow
  have hhome : home (.ws c) h = some peer.roomId := by
    obtain ⟨h₁, h₂, rfl⟩ := List.append_of_mem hm
    have hbefore : home (.ws c) h₁ = some peer.roomId := home_of_peer hr.of_append.1 hfound
    rw [home, List.findSome?_append, ← home, hbefore, Option.some_or]
  have hfind : m'.pre.world.db.findRoom peer.roomId = some row := by
    have hread : (if x'.sql then m'.pre.world.db.findRoom peer.roomId else none) = some row := hread
    split at hread
    · exact hread
    · cases hread
  obtain ⟨r, hr', rfl⟩ := Option.map_eq_some_iff.mp hfind
  have hid : r.id = peer.roomId := by simpa using List.find?_some hr'
  obtain ⟨h₁, h₂, rfl⟩ := List.append_of_mem hm'
  obtain ⟨stored, hstored, hsame⟩ := named_rooms hr.of_append.1 (List.mem_of_find?_eq_some hr')
  refine ⟨stored, hstored.imp_left ?_, ?_, ?_⟩
  · rintro ⟨m, hm, hcalls⟩
    exact ⟨m, List.mem_append_left _ hm, hcalls⟩
  · rw [hhome, hsame.1, hid]
  · rw [hsame.2]

/-- **What becomes of the name of a room.**  In every run a request inserts its room under a prefix
of the name that was submitted, which is a text of at most 80 bytes, and the whole name where that
is as short, exactly if the cut falls before a character or behind the name.  A joined frame calls
the room by the name that was stored exactly if that has no NUL. -/
theorem roomName_iff (hr : Run (M := server cfg secret) ok (boot db clock) h conf) :
    (∀ m ∈ h, ∀ t row inserted, m.Calls t (.createRoom row) inserted →
      ∃ name, Submitted t name h ∧ row.name = name.take 80 ∧
        (IsUtf8 name → (Shortened name row.name ↔ CutsWell name))) ∧
    ∀ m ∈ h, ∀ t c peerId name token history members,
      m.Calls t (.sendText c (.joined peerId (some name) token history members)) () →
      ∃ row, (Stored row h ∨ row ∈ db.rooms) ∧ home (.ws c) h = some row.id ∧
        (name = row.name ↔ 0 ∉ row.name) := by
  constructor
  · intro m hm t row inserted hcalls
    obtain ⟨x, k, -, ht, -⟩ := hcalls
    obtain ⟨h₁, h₂, rfl⟩ := List.append_of_mem hm
    obtain ⟨name, ⟨m', hm', hbody⟩, hname⟩ := submitted_of_createRoom hr.of_append.1 ht
    refine ⟨name, ⟨m', List.mem_append_left _ hm', hbody⟩, hname, fun htext => ?_⟩
    rw [hname]
    exact shortened_take_iff htext
  · intro m hm t c peerId name token history members hcalls
    obtain ⟨x, k, -, ht, -⟩ := hcalls
    obtain ⟨h₁, h₂, rfl⟩ := List.append_of_mem hm
    obtain ⟨row, hrow, hhome, rfl⟩ := stored_of_joined hr.of_append.1 ht
    refine ⟨row, hrow.imp_left ?_, ?_, cText_eq_iff⟩
    · rintro ⟨m, hm, hcalls⟩
      exact ⟨m, List.mem_append_left _ hm, hcalls⟩
    · rw [home, List.findSome?_append, ← home, hhome, Option.some_or]

end Run

/-! ## A name that is cut inside a character -/

namespace Sample

/-- 79 letters and one character of two bytes. -/
def longName : Str := List.replicate 79 97 ++ [0xC3, 0xA9]

/-- The body of a request with a name. -/
def namedRequest (name : Str) : Json :=
  match roomRequest "aa" with
  | .object fields => .object (fields ++ [(ascii "name", .string name)])
  | j => j

/-- The body of a request with that name. -/
def longNameRequest : Json := namedRequest longName

/-- The request is taken up, passes the proof of work, is within the cap and inserts its room. -/
def longNameRun : List (server oneRoom secret).Label :=
  .start (.http 0) (.postRooms (some longNameRequest))
    :: List.replicate 7 (.advance (.http 0) (draw 0))

/-- The transition takes up that request. -/
def submitsLongName (m : (server oneRoom secret).Transition) : Bool :=
  match m.label with
  | .start (.http 0) (.postRooms (some body)) =>
      match requested body with
      | .ok name => name = longName
      | .error _ => false
  | _ => false

end Sample

lemma isUtf8_longName : IsUtf8 Sample.longName :=
  ⟨List.replicate 79 'a' ++ ['é'], by decide +kernel⟩

lemma submitted_longName {h : List (server Sample.oneRoom Sample.secret).Transition}
    (hsubmits : h.any Sample.submitsLongName = true) : Submitted (.http 0) Sample.longName h := by
  obtain ⟨m, hm, hlabel⟩ := List.any_eq_true.mp hsubmits
  unfold Sample.submitsLongName at hlabel
  split at hlabel
  · rename_i body hl
    split at hlabel
    · rename_i name hname
      obtain rfl : name = Sample.longName := of_decide_eq_true hlabel
      exact ⟨m, hm, body, hl, hname⟩
    · cases hlabel
  · cases hlabel

namespace Sample

/-- No proof of work is asked for. -/
def easy : Config := { powDifficultyBits := 0 }

/-- A connection joins the room that is there, and another room is created. -/
def joinsAndCreates : Script (M := server easy secret) (boot (store 2 [] [token]) 0) (fun _ _ => true)
    (fun _ conf => conf.world.wire.length = 1 &&
      conf.world.db.rooms.any fun r => r.name = longName.take 80) where
  labels := .start (.ws 0) (.opened (some room)) :: List.replicate 2 (.advance (.ws 0) (draw 0))
    ++ .start (.ws 0) (frame [("type", "hello"), ("token", "token")])
      :: List.replicate 7 (.advance (.ws 0) (draw 0))
    ++ .start (.http 0) (.postRooms (some longNameRequest))
      :: List.replicate 6 (.advance (.http 0) (draw 0))
  performed := by decide +kernel

end Sample

/-- The equivalence at a run with one connection that joins and one room that is created. -/
theorem roomName_iff_sample : ∃ (h : List (server Sample.easy Sample.secret).Transition) (conf : State),
    (conf.world.wire.length = 1 ∧
      (conf.world.db.rooms.any fun r => r.name = Sample.longName.take 80) = true) ∧
    (∀ m ∈ h, ∀ t row inserted, m.Calls t (.createRoom row) inserted →
      ∃ name, Submitted t name h ∧ row.name = name.take 80 ∧
        (IsUtf8 name → (Shortened name row.name ↔ CutsWell name))) ∧
    ∀ m ∈ h, ∀ t c peerId name token history members,
      m.Calls t (.sendText c (.joined peerId (some name) token history members)) () →
      ∃ row, (Stored row h ∨ row ∈ (Sample.store 2 [] [Sample.token]).rooms) ∧
        home (.ws c) h = some row.id ∧ (name = row.name ↔ 0 ∉ row.name) := by
  obtain ⟨h, conf, hr, hend⟩ := Sample.joinsAndCreates.exists_run fun _ _ _ _ => trivial
  obtain ⟨hone, hcreated⟩ := Bool.and_eq_true_iff.mp hend
  have hrun : Run (M := server Sample.easy Sample.secret) anyStep
      (boot (Sample.store 2 [] [Sample.token]) 0) h conf := hr
  exact ⟨h, conf, ⟨of_decide_eq_true hone, hcreated⟩, roomName_iff hrun⟩

/-- The room with that name is stored. -/
def Sample.storesLongName : Script (M := server Sample.oneRoom Sample.secret) (boot .empty 0)
    (fun _ _ => true) (fun h conf => h.any Sample.submitsLongName &&
      conf.world.db.rooms.any fun r => r.name = Sample.longName.take 80) where
  labels := Sample.longNameRun
  performed := by decide +kernel

/-- A request for a room with that name stores one that is no text. -/
theorem roomName_broken : ∃ (h : List (server Sample.oneRoom Sample.secret).Transition)
    (conf : State),
    Run (M := server Sample.oneRoom Sample.secret) anyStep (boot .empty 0) h conf ∧
    IsUtf8 Sample.longName ∧ Submitted (.http 0) Sample.longName h ∧
    ∃ row, Stored row h ∧ row.name = Sample.longName.take 80 ∧ ¬ IsUtf8 row.name := by
  obtain ⟨h, conf, hr, hend⟩ := Sample.storesLongName.exists_run fun _ _ _ _ => trivial
  obtain ⟨hsubmits, hrooms⟩ := Bool.and_eq_true_iff.mp hend
  obtain ⟨r, hmem, hname⟩ := List.any_eq_true.mp hrooms
  obtain ⟨row, hstored, -, hsame⟩ := named_rooms hr hmem
  have hrow : row.name = Sample.longName.take 80 := hsame.trans (of_decide_eq_true hname)
  refine ⟨h, conf, hr, isUtf8_longName, submitted_longName hsubmits, row,
    hstored.resolve_right List.not_mem_nil, hrow, fun htext => ?_⟩
  rw [hrow, isUtf8_take_iff isUtf8_longName] at htext
  exact absurd (htext 0xA9 (by decide)) (by decide)

end HashHush
