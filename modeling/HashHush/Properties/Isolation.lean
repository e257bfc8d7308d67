import HashHush.Dialogue

/-!
# Rooms do not touch each other

Everything the server keeps is keyed by a room: the rows of the three tables, the cached
messages, the list of connections and the record of each of them.  `World.share` is the part that
belongs to one room.

`home` reads off the history which room a task is about: the room a connection was opened for, or
the room in the path of a request.  `territory` is the specification of such a task: its calls
are keyed by its own room and it sends to connections of its own room only.  `room_isolation`
concludes that no step of a task about one room changes the share of another.
-/

namespace HashHush

open Concurrency System

/-! ## What belongs to a room -/

/-- The rows of a room. -/
structure Rows where
  rooms : List RoomRow
  challenges : List ChallengeRow
  accessTokens : List TokenRow

/-- The part of the store that belongs to a room. -/
def Database.rowsOf (d : Database) (r : Str) : Rows where
  rooms := d.rooms.filter fun row => row.id = r
  challenges := d.challenges.filter fun row => row.roomId = r
  accessTokens := d.accessTokens.filter fun row => row.roomId = r

/-- What the room manager keeps for a room. -/
structure Desk where
  cached : Option (List (CachedMessage Str))
  registered : Option (List Conn)
  peers : Conn → Option Peer

/-- The part of the room manager that belongs to a room. -/
def RoomManager.deskOf (m : RoomManager Str) (r : Str) : Desk where
  cached := m.msgCache r
  registered := m.byRoom r
  peers c := (m.peers c).filter fun p => p.roomId = r

/-- Everything that belongs to a room. -/
def World.share (w : World Str) (r : Str) : Rows × Desk := (w.db.rowsOf r, w.mgr.deskOf r)

section Rows

variable (d : Database) {a b : Str}

/-- Two filters of a list agree if they differ on nothing they could keep. -/
lemma filter_filter_of_imp {α : Type} {l : List α} {f g : α → Bool}
    (h : ∀ e, f e = true → g e = true) : (l.filter g).filter f = l.filter f := by
  rw [List.filter_filter]
  refine List.filter_congr fun e _ => ?_
  cases hf : f e with
  | false => rfl
  | true => simp [h e hf]

lemma rowsOf_deleteRoom (hab : a ≠ b) : (d.deleteRoom a).2.rowsOf b = d.rowsOf b := by
  have hne : ∀ {s : Str}, s = b → s ≠ a := fun hs h => hab (h.symm.trans hs)
  simp only [Database.rowsOf, Database.deleteRoom]
  congr 1
  · exact filter_filter_of_imp fun row h => by simpa using hne (of_decide_eq_true h)
  · exact filter_filter_of_imp fun row h => by simpa using hne (of_decide_eq_true h)
  · exact filter_filter_of_imp fun row h => by simpa using hne (of_decide_eq_true h)

lemma rowsOf_updateRoom (hab : a ≠ b) (f : RoomRow → RoomRow) (hf : ∀ r, (f r).id = r.id) :
    (d.updateRoom a f hf).rowsOf b = d.rowsOf b := by
  simp only [Database.rowsOf, Database.updateRoom]
  congr 1
  induction d.rooms with
  | nil => rfl
  | cons row rows ih =>
      by_cases hrow : row.id = a
      · simp [hrow, hf, ih, hab]
      · simp only [List.map_cons, if_neg hrow, List.filter_cons, ih]

lemma rowsOf_touchRoom (hab : a ≠ b) (now : ℤ) : (d.touchRoom a now).rowsOf b = d.rowsOf b :=
  rowsOf_updateRoom d hab (fun r => { r with lastActiveAt := now }) fun _ => rfl

lemma rowsOf_activateRoom (hab : a ≠ b) (now : ℤ) :
    (d.activateRoom a now).2.rowsOf b = d.rowsOf b :=
  rowsOf_updateRoom d hab (fun r => { r with activated := true, lastActiveAt := now }) fun _ => rfl

lemma rowsOf_insertChallenges (hab : a ≠ b) (pairs : List ChallengePair) :
    (d.insertChallenges a pairs).2.rowsOf b = d.rowsOf b := by
  unfold Database.insertChallenges
  split
  · simp only [Database.rowsOf]
    congr 1
    have hnone : (Database.challengeRows a d.challengeSeq pairs).filter
        (fun row => decide (row.roomId = b)) = [] := by
      refine List.filter_eq_nil_iff.mpr fun row hrow => ?_
      have hroom := (Database.mem_challengeRows hrow).1
      simpa [hroom] using hab
    rw [List.filter_append, hnone, List.append_nil]
  · rfl

lemma rowsOf_consumeChallenge (hab : a ≠ b) : (d.consumeChallenge a).2.rowsOf b = d.rowsOf b := by
  unfold Database.consumeChallenge
  split
  · rename_i row hrow
    obtain ⟨hmem, hroom, -⟩ := d.nextUnused_spec hrow
    simp only [Database.rowsOf, Database.markUsed]
    congr 1
    rw [List.filter_map]
    have hid : ∀ e ∈ d.challenges.filter ((fun c => decide (c.roomId = b)) ∘
        fun c => if c.id = row.id then { c with used := true } else c), e.id ≠ row.id := by
      intro e he heq
      obtain ⟨hin, hb⟩ := List.mem_filter.mp he
      obtain rfl := d.eq_of_challengeId hin hmem heq
      simp [hroom, hab] at hb
    rw [List.map_congr_left fun e he => if_neg (hid e he), List.map_id']
    refine List.filter_congr fun e _ => ?_
    by_cases he : e.id = row.id <;> simp [he]
  · rfl

lemma rowsOf_insertAccessToken (hab : a ≠ b) (token : Str) (now : ℤ) :
    (d.insertAccessToken token a now).2.rowsOf b = d.rowsOf b := by
  unfold Database.insertAccessToken
  split
  · simp only [Database.rowsOf, List.filter_append]
    simp [hab]
  · rfl

end Rows

section Desk

variable (m : RoomManager Str) {a b : Str} {c : Conn}

lemma filter_eq_none {p : Option Peer} (hp : ∀ q, p = some q → q.roomId ≠ b) :
    (p.filter fun q => q.roomId = b) = none := by
  cases p with
  | none => rfl
  | some q => simp [Option.filter, hp q rfl]

lemma deskOf_modify (hc : ∀ p, m.peers c = some p → p.roomId ≠ b) {f : Peer → Peer}
    (hf : ∀ p, (f p).roomId = p.roomId) : (m.modify c f).deskOf b = m.deskOf b := by
  simp only [RoomManager.deskOf, RoomManager.modify]
  congr 1
  funext e
  by_cases he : e = c
  · subst he
    rw [Function.update_self, filter_eq_none hc, filter_eq_none]
    intro q hq
    obtain ⟨p, hp, rfl⟩ := Option.map_eq_some_iff.mp hq
    rw [hf]
    exact hc p hp
  · rw [Function.update_of_ne he]

lemma deskOf_onWsAccept (hab : a ≠ b) (id : Str) : (m.onWsAccept c a id).deskOf b = m.deskOf b := by
  simp only [RoomManager.deskOf, RoomManager.onWsAccept]
  congr 1
  · exact Function.update_of_ne hab.symm _ _
  · funext e
    cases hp : m.peers c with
    | some p => rfl
    | none =>
        dsimp only
        by_cases he : e = c
        · subst he
          rw [Function.update_self, hp]
          exact filter_eq_none fun q hq => by
            obtain rfl := Option.some.inj hq
            exact hab
        · rw [Function.update_of_ne he]

lemma deskOf_onWsClose (hc : ∀ p, m.peers c = some p → p.roomId ≠ b) :
    (m.onWsClose c).2.deskOf b = m.deskOf b := by
  unfold RoomManager.onWsClose
  split
  · rfl
  · rename_i p hp
    have hpb : b ≠ p.roomId := fun h => hc p hp h.symm
    simp only [RoomManager.deskOf]
    congr 1
    · cases m.byRoom p.roomId with
      | none => rfl
      | some l => exact Function.update_of_ne hpb _ _
    · funext e
      by_cases he : e = c
      · subst he
        rw [Function.update_self, filter_eq_none hc]
        rfl
      · rw [Function.update_of_ne he]

lemma deskOf_closeRoom (hab : a ≠ b) : (m.closeRoom a).2.deskOf b = m.deskOf b := by
  simp only [RoomManager.deskOf, RoomManager.closeRoom, Function.update_of_ne hab.symm]

lemma deskOf_appendCachedMessage (hab : a ≠ b) (sender payload : Str) (n now : ℤ) :
    (m.appendCachedMessage a sender payload n now).deskOf b = m.deskOf b := by
  unfold RoomManager.appendCachedMessage
  split
  · rfl
  · simp only [RoomManager.deskOf, Function.update_of_ne hab.symm]

end Desk

/-! ## The calls of a task that is about one room -/

/-- The room an input is about. -/
def Input.room : Input → Option Str
  | .opened room => room
  | .activate id _ | .deleteRoom id _ => some id
  | _ => none

/-- The connection whose callbacks a task runs. -/
def Task.conn : Task → Option Conn
  | .ws c => some c
  | _ => none

/-- A call that is keyed by room `a`, made by the callbacks of connection `own`, if any, and sent
to connections in `homes` only. -/
def Op.Within (a : Str) (own : Option Conn) (homes : Conn → Prop) : Op Str → Prop
  | .onWsAccept c r _ => own = some c ∧ r = a
  | .onWsClose c | .findByConn c | .markPeerJoined c _ | .setPending c _ _ => own = some c
  | .deleteRoom r | .touchRoom r | .activateRoom r | .insertChallenges r _ | .consumeChallenge r
  | .insertAccessToken _ r | .targets r _ | .closeRoom r | .appendCachedMessage r _ _ _ => r = a
  | .sendText c _ | .close c _ => homes c
  | .createRoom _ | .commit _ _ _ => False
  | _ => True

lemma Op.Within.mono {a : Str} {own : Option Conn} {homes homes' : Conn → Prop} {o : Op Str}
    (h : ∀ c, homes c → homes' c) (ho : o.Within a own homes) : o.Within a own homes' := by
  cases o with
  | sendText c f => exact h c ho
  | close c reason => exact h c ho
  | _ => exact ho

/-- A call keyed by one room leaves the share of another alone, if the connection that makes it
is not registered for the other. -/
lemma exec_share {a b : Str} (hab : a ≠ b) {own : Option Conn} {homes : Conn → Prop} {o : Op Str}
    (ho : o.Within a own homes) (x : Choice) {w : World Str}
    (hown : ∀ c p, own = some c → w.mgr.peers c = some p → p.roomId ≠ b) :
    (exec o x w).2.share b = w.share b := by
  have hdb : ∀ {d : Database}, d.rowsOf b = w.db.rowsOf b →
      ({ w with db := d } : World Str).share b = w.share b := fun hd =>
    congrArg (fun rows => (rows, w.mgr.deskOf b)) hd
  have hmgr : ∀ {m : RoomManager Str}, m.deskOf b = w.mgr.deskOf b →
      ({ w with mgr := m } : World Str).share b = w.share b := fun hm =>
    congrArg (fun desk => (w.db.rowsOf b, desk)) hm
  cases o with
  | createRoom row => exact ho.elim
  | commit nonceHex exp now => exact ho.elim
  | onWsAccept c r id => exact hmgr (deskOf_onWsAccept w.mgr (ho.2 ▸ hab) id)
  | onWsClose c => exact hmgr (deskOf_onWsClose w.mgr fun p hp => hown c p ho hp)
  | markPeerJoined c id => exact hmgr (deskOf_modify w.mgr (fun p hp => hown c p ho hp) fun _ => rfl)
  | setPending c t e => exact hmgr (deskOf_modify w.mgr (fun p hp => hown c p ho hp) fun _ => rfl)
  | closeRoom r => exact hmgr (deskOf_closeRoom w.mgr (ho ▸ hab))
  | appendCachedMessage r sender payload n =>
      exact hmgr (deskOf_appendCachedMessage w.mgr (ho ▸ hab) sender payload n w.clock)
  | deleteRoom r =>
      obtain rfl : r = a := ho
      simp only [exec]
      split
      · exact hdb (rowsOf_deleteRoom w.db hab)
      · rfl
  | touchRoom r =>
      obtain rfl : r = a := ho
      simp only [exec]
      split
      · exact hdb (rowsOf_touchRoom w.db hab w.clock)
      · rfl
  | activateRoom r =>
      obtain rfl : r = a := ho
      simp only [exec]
      split
      · exact hdb (rowsOf_activateRoom w.db hab w.clock)
      · rfl
  | insertChallenges r pairs =>
      obtain rfl : r = a := ho
      simp only [exec]
      split
      · exact hdb (rowsOf_insertChallenges w.db hab pairs)
      · rfl
  | consumeChallenge r =>
      obtain rfl : r = a := ho
      simp only [exec]
      split
      · exact hdb (rowsOf_consumeChallenge w.db hab)
      · rfl
  | insertAccessToken token r =>
      obtain rfl : r = a := ho
      simp only [exec]
      split
      · exact hdb (rowsOf_insertAccessToken w.db hab token w.clock)
      · rfl
  | _ => rfl

/-! ## The specification -/

/-- What a task relies on: which room every task is about, and its own record. -/
structure View where
  homes : Task → Option Str
  peer : Option Peer

/-- The tasks keep the rooms they are about. -/
def View.Extends (s s' : View) : Prop := ∀ t a, s.homes t = some a → s'.homes t = some a

/-- What the calls of a task return and do to its record. -/
def territoryStep (a : Str) : (o : Op Str) → o.Res → View → View → Prop
  | .onWsAccept _ roomId peerId, _, s, s' => s'.peer = s.peer ∨ s'.peer = some { peerId, roomId }
  | .onWsClose _, r, s, s' => r = s.peer ∧ s'.peer = none
  | .findByConn _, r, s, s' => r = s.peer ∧ s'.peer = s.peer
  | .markPeerJoined _ peerId, _, s, s' =>
      s'.peer = s.peer.map fun p => { p with peerId, joined := true }
  | .setPending _ pendingToken expectedPlaintext, _, s, s' =>
      s'.peer = s.peer.map fun p => { p with pendingToken, expectedPlaintext }
  | .targets r _, cs, s, s' | .closeRoom r, cs, s, s' =>
      (r = a → ∀ c ∈ cs, s'.homes (.ws c) = some a) ∧ s'.peer = s.peer
  | _, _, s, s' => s'.peer = s.peer

/-- The specification of a task that is about room `a`, and of no other. -/
def territory (t : Task) (a : Str) : Spec (signature Str) View where
  pre o s := s.homes t = some a → o.Within a t.conn fun c => s.homes (.ws c) = some a
  step o r s s' := s.Extends s' ∧ s'.homes t = s.homes t ∧ territoryStep a o r s s'
  stable s s' := s.Extends s' ∧ s'.homes t = s.homes t ∧ s'.peer = s.peer
  refl _ := ⟨fun _ _ h => h, rfl, rfl⟩
  trans h h' := ⟨fun u b hu => h'.1 u b (h.1 u b hu), h'.2.1.trans h.2.1, h'.2.2.trans h.2.2⟩

/-- The task is about room `a`, and so is its record. -/
def AtHome (t : Task) (a : Str) (s : View) : Prop :=
  s.homes t = some a ∧ ∀ p, s.peer = some p → p.roomId = a

section Wp

variable {t : Task} {a : Str} {s : View}

lemma AtHome.stable {s' : View} (h : (territory t a).stable s s') (hs : AtHome t a s) :
    AtHome t a s' :=
  ⟨h.2.1.trans hs.1, fun p hp => hs.2 p (h.2.2 ▸ hp)⟩

/-- A call keyed by the room keeps the task at home. -/
lemma AtHome.step {s' : View} {o : Op Str} {homes : Conn → Prop} (ho : o.Within a t.conn homes)
    {r : o.Res} (h : (territory t a).step o r s s') (hs : AtHome t a s) : AtHome t a s' := by
  obtain ⟨-, hhome, hstep⟩ := h
  have hsame : s'.peer = s.peer → AtHome t a s' := fun hp =>
    ⟨hhome.trans hs.1, fun p hp' => hs.2 p (hp ▸ hp')⟩
  have hmap : ∀ f : Peer → Peer, (∀ p, (f p).roomId = p.roomId) → s'.peer = s.peer.map f →
      AtHome t a s' := by
    intro f hf hp
    refine ⟨hhome.trans hs.1, fun p hp' => ?_⟩
    obtain ⟨q, hq, rfl⟩ := Option.map_eq_some_iff.mp (hp ▸ hp')
    rw [hf]
    exact hs.2 q hq
  cases o with
  | onWsAccept c room id =>
      rcases hstep with hp | hp
      · exact hsame hp
      · refine ⟨hhome.trans hs.1, fun p hp' => ?_⟩
        obtain rfl := Option.some.inj (hp.symm.trans hp')
        exact ho.2
  | onWsClose c =>
      refine ⟨hhome.trans hs.1, fun p hp => ?_⟩
      rw [hstep.2] at hp
      cases hp
  | findByConn c => exact hsame hstep.2
  | markPeerJoined c id =>
      exact hmap (fun p => { p with peerId := id, joined := true }) (fun _ => rfl) hstep
  | setPending c token e =>
      exact hmap (fun p => { p with pendingToken := token, expectedPlaintext := e })
        (fun _ => rfl) hstep
  | targets room e => exact hsame hstep.2
  | closeRoom room => exact hsame hstep.2
  | _ => exact hsame hstep

/-- The calls of a task that send to its own connection, if they send at all. -/
abbrev Op.Own (t : Task) (a : Str) (o : Op Str) : Prop := o.Within a t.conn fun c => t = .ws c

lemma AtHome.within (hs : AtHome t a s) {o : Op Str} (ho : o.Own t a) :
    o.Within a t.conn fun c => s.homes (.ws c) = some a :=
  ho.mono fun c hc => (congrArg s.homes (show t = .ws c from hc)).symm.trans hs.1

/-- A program of calls keyed by the room. -/
lemma territory_of_own {p : Handler Str Unit} (hp : p.Only (Op.Own t a)) (hs : AtHome t a s) :
    p.Wp (territory t a) (fun _ => AtHome t a) s := by
  refine hp.wp_of_invariant (J := AtHome t a) ?_ ?_ ?_ ?_ hs
  · exact fun _ _ h hs => hs.stable h
  · exact fun o s ho hs _ => hs.within ho
  · exact fun o r s s' ho hs h => hs.step ho h
  · exact fun _ _ hs => hs

/-- One call keyed by the room. -/
lemma territory_step {α : Type} {o : Op Str} {f : o.Res → Handler Str α} (ho : o.Own t a)
    (hs : AtHome t a s)
    (hf : ∀ r s', AtHome t a s' → (f r).Wp (territory t a) (fun _ => AtHome t a) s') :
    (Prog.perform (S := signature Str) o >>= f).Wp (territory t a) (fun _ => AtHome t a) s := by
  refine .step fun s₁ h₁ => ?_
  have hs₁ := hs.stable h₁
  exact ⟨fun _ => hs₁.within ho, fun r s₂ h₂ => hf r s₂ (hs₁.step ho h₂)⟩

/-- Sending to connections of the room. -/
lemma sendEach_territory (frame : Frame Str) (cs : List Conn) : ∀ {s : View}, AtHome t a s →
    (∀ c ∈ cs, s.homes (.ws c) = some a) →
      (sendEach frame cs).Wp (territory t a) (fun _ => AtHome t a) s := by
  induction cs with
  | nil => exact fun hs _ => hs
  | cons c cs ih =>
      intro s hs hcs
      refine .step fun s₁ h₁ => ⟨fun _ => h₁.1 _ _ (hcs c (by simp)), fun r s₂ h₂ => ?_⟩
      have ho : (Op.sendText c frame).Within a t.conn fun _ => True := trivial
      refine ih ((hs.stable h₁).step ho h₂) fun d hd => ?_
      exact h₂.1 _ _ (h₁.1 _ _ (hcs d (by simp [hd])))

lemma broadcast_territory (frame : Frame Str) (except : Option Conn) (hs : AtHome t a s) :
    (broadcast a frame except).Wp (territory t a) (fun _ => AtHome t a) s := by
  refine .step fun s₁ h₁ => ⟨fun _ => rfl, fun cs s₂ h₂ => ?_⟩
  have ho : (Op.targets a except : Op Str).Own t a := rfl
  exact sendEach_territory frame cs ((hs.stable h₁).step ho h₂) (h₂.2.2.1 rfl)

/-! ### The callbacks of a connection -/

variable {c : Conn}

lemma sendErr_own (e : WsError) : (sendErr c e).Only (Op.Own (.ws c) a) := .perform rfl

lemma sendErrAndClose_own (e : WsError) : (sendErrAndClose c e).Only (Op.Own (.ws c) a) :=
  .step rfl fun _ => .perform rfl

lemma finalizeJoin_territory {peer : Peer} (hpeer : peer.roomId = a) (token : Str) (isFresh : Bool)
    (hs : AtHome (.ws c) a s) :
    (finalizeJoin c peer token isFresh).Wp (territory (.ws c) a) (fun _ => AtHome (.ws c) a) s := by
  subst hpeer
  refine territory_step rfl hs fun _ s₁ h₁ => ?_
  refine territory_step trivial h₁ fun roomRow s₂ h₂ => ?_
  refine territory_step trivial h₂ fun history s₃ h₃ => ?_
  refine territory_step trivial h₃ fun members s₄ h₄ => ?_
  refine territory_step rfl h₄ fun _ s₅ h₅ => ?_
  refine (broadcast_territory _ _ h₅).seq fun _ s₆ h₆ => ?_
  exact territory_of_own (.perform rfl) h₆

lemma sendChallenge_own (pair : ChallengePair) :
    (sendChallenge c pair).Only (Op.Own (.ws c) a) :=
  .step trivial fun _ => .step rfl fun _ => .perform rfl

lemma helloWithoutToken_own {peer : Peer} (hpeer : peer.roomId = a) :
    (helloWithoutToken c peer).Only (Op.Own (.ws c) a) := by
  refine Prog.Only.bind (.step trivial fun roomRow => ?_) fun pair => ?_
  · cases roomRow with
    | none => trivial
    | some row =>
        exact .step trivial fun live => Prog.Only.ite (fun _ => trivial) fun _ => .perform hpeer
  · cases pair with
    | some pair => exact sendChallenge_own pair
    | none =>
        refine Prog.Only.bind ?_ fun pair => sendChallenge_own pair
        exact .step trivial fun _ => .step trivial fun _ => .step trivial fun _ => trivial

lemma unjoined_territory {peer : Peer} (hpeer : peer.roomId = a) (j : Json) (type : Str)
    (hs : AtHome (.ws c) a s) :
    (unjoined c peer j type).Wp (territory (.ws c) a) (fun _ => AtHome (.ws c) a) s := by
  unfold unjoined
  refine Prog.Wp.ite (fun _ => ?_) fun _ => Prog.Wp.ite (fun _ => ?_) fun _ => ?_
  · refine .ofExcept (fun token _ => ?_) fun _ _ => hs
    refine Prog.Wp.ite (fun _ => ?_) fun _ => territory_of_own (helloWithoutToken_own hpeer) hs
    refine territory_step trivial hs fun owner s₁ h₁ => ?_
    refine Prog.Wp.ite (fun _ => finalizeJoin_territory hpeer token false h₁) fun _ => ?_
    exact territory_of_own (sendErrAndClose_own _) h₁
  · refine .ofExcept (fun answer _ => ?_) fun _ _ => hs
    refine Prog.Wp.ite (fun _ => territory_of_own (sendErrAndClose_own _) hs) fun _ => ?_
    refine territory_step rfl hs fun _ s₁ h₁ => ?_
    refine Prog.Wp.ite (fun _ => territory_of_own (sendErrAndClose_own _) h₁) fun _ => ?_
    refine territory_step hpeer h₁ fun inserted s₂ h₂ => ?_
    refine Prog.Wp.ite (fun _ => finalizeJoin_territory hpeer _ true h₂) fun _ => ?_
    exact territory_of_own (sendErrAndClose_own _) h₂
  · exact territory_of_own (sendErrAndClose_own _) hs

lemma joined_territory (cfg : Config) {peer : Peer} (hpeer : peer.roomId = a) (j : Json)
    (type : Str) (hs : AtHome (.ws c) a s) :
    (joined cfg id c peer j type).Wp (territory (.ws c) a) (fun _ => AtHome (.ws c) a) s := by
  subst hpeer
  unfold joined
  refine Prog.Wp.ite (fun _ => .ofExcept (fun payload _ => ?_) fun _ _ => hs) fun _ => ?_
  · refine Prog.Wp.ite (fun _ => territory_of_own (sendErr_own _) hs) fun _ => ?_
    refine Prog.Wp.ite (fun _ => territory_of_own (sendErr_own _) hs) fun _ => ?_
    refine Prog.Wp.ite (fun _ => ?_) fun _ => ?_
    · refine territory_step rfl hs fun _ s₁ h₁ => territory_step rfl h₁ fun _ s₂ h₂ => ?_
      exact territory_step trivial h₂ fun ts s₃ h₃ => broadcast_territory _ _ h₃
    · exact territory_step trivial hs fun ts s₁ h₁ => broadcast_territory _ _ h₁
  · refine Prog.Wp.ite (fun _ => territory_of_own (.perform rfl) hs) fun _ => ?_
    exact territory_of_own (sendErr_own _) hs

lemma onmessage_territory (cfg : Config) (data : Inbound) (hs : AtHome (.ws c) a s) :
    (onmessage cfg id c data).Wp (territory (.ws c) a) (fun _ => AtHome (.ws c) a) s := by
  unfold onmessage
  refine Prog.Wp.ite (fun _ => territory_of_own (.perform rfl) hs) fun _ => ?_
  refine .step fun s₁ h₁ => ⟨fun _ => rfl, fun found s₂ h₂ => ?_⟩
  have hs₁ := hs.stable h₁
  have hs₂ : AtHome (.ws c) a s₂ := hs₁.step (show (Op.findByConn c).Own (.ws c) a from rfl) h₂
  cases found with
  | none => exact territory_of_own (.perform rfl) hs₂
  | some peer =>
      have hpeer : peer.roomId = a := hs₁.2 peer h₂.2.2.1.symm
      cases data.json with
      | none => exact territory_of_own (sendErr_own _) hs₂
      | some j =>
          refine .ofExcept (fun hasType _ => ?_) fun _ _ => hs₂
          refine Prog.Wp.ite (fun _ => ?_) fun _ => territory_of_own (sendErr_own _) hs₂
          refine .ofExcept (fun v _ => .ofExcept (fun type _ => ?_) fun _ _ => hs₂) fun _ _ => hs₂
          refine Prog.Wp.ite (fun _ => joined_territory cfg hpeer j type hs₂) fun _ => ?_
          exact unjoined_territory hpeer j type hs₂

lemma onopen_own (c : Conn) (a : Str) : (onopen c (some a)).Only (Op.Own (.ws c) a) := by
  refine Prog.Only.ite (fun _ => trivial) fun _ => .step trivial fun bytes => .perform ⟨rfl, rfl⟩

lemma onclose_territory (hs : AtHome (.ws c) a s) :
    (onclose c).Wp (territory (.ws c) a) (fun _ => AtHome (.ws c) a) s := by
  refine .step fun s₁ h₁ => ⟨fun _ => rfl, fun peer s₂ h₂ => ?_⟩
  have hs₁ := hs.stable h₁
  have hs₂ : AtHome (.ws c) a s₂ := hs₁.step (show (Op.onWsClose c).Own (.ws c) a from rfl) h₂
  cases peer with
  | none => exact hs₂
  | some p =>
      obtain rfl : p.roomId = a := hs₁.2 p h₂.2.2.1.symm
      exact Prog.Wp.ite (fun _ => broadcast_territory _ _ hs₂) fun _ => hs₂

/-! ### The requests -/

variable {n : ℕ}

lemma jsonError_own (e : HttpError) : (jsonError n e).Only (Op.Own (.http n) a) :=
  .perform trivial

lemma activate_own (cfg : Config) (body : Option Json) :
    (activate cfg n a body).Only (Op.Own (.http n) a) := by
  refine (activate_ofActivate n cfg a body).mono fun o ho => ?_
  cases o <;> first | exact ho | exact ho.elim

lemma closeEach_territory (frame : Frame Str) (cs : List Conn) : ∀ {s : View}, AtHome t a s →
    (∀ c ∈ cs, s.homes (.ws c) = some a) →
      (closeEach frame cs).Wp (territory t a) (fun _ => AtHome t a) s := by
  induction cs with
  | nil => exact fun hs _ => hs
  | cons c cs ih =>
      intro s hs hcs
      have hsend : (Op.sendText c frame).Within a t.conn fun _ => True := trivial
      have hclose : (Op.close c (ascii "room deleted") : Op Str).Within a t.conn fun _ => True :=
        trivial
      refine .step fun s₁ h₁ => ⟨fun _ => h₁.1 _ _ (hcs c (by simp)), fun _ s₂ h₂ => ?_⟩
      have hin : ∀ d ∈ c :: cs, s₂.homes (.ws d) = some a := fun d hd =>
        h₂.1 _ _ (h₁.1 _ _ (hcs d hd))
      refine .step fun s₃ h₃ => ⟨fun _ => h₃.1 _ _ (hin c (by simp)), fun _ s₄ h₄ => ?_⟩
      refine ih ((((hs.stable h₁).step hsend h₂).stable h₃).step hclose h₄) fun d hd => ?_
      exact h₄.1 _ _ (h₃.1 _ _ (hin d (by simp [hd])))

lemma removeRoom_territory (hs : AtHome t a s) :
    (removeRoom a).Wp (territory t a) (fun _ => AtHome t a) s := by
  have hdelete : ∀ s', AtHome t a s' →
      (Prog.perform (S := signature Str) (.deleteRoom a) >>= fun _ => .ret ()).Wp (territory t a)
        (fun _ => AtHome t a) s' := fun s' h' => territory_of_own ⟨rfl, fun _ => trivial⟩ h'
  refine Prog.Wp.seq ?_ fun _ => hdelete
  refine .step fun s₁ h₁ => ⟨fun _ => rfl, fun cs s₂ h₂ => ?_⟩
  have ho : (Op.closeRoom a : Op Str).Own t a := rfl
  exact closeEach_territory _ cs ((hs.stable h₁).step ho h₂) (h₂.2.2.1 rfl)

lemma deleteRoom_territory (body : Option Json) (hs : AtHome (.http n) a s) :
    (deleteRoom n a body).Wp (territory (.http n) a) (fun _ => AtHome (.http n) a) s := by
  cases body with
  | none => exact territory_of_own (jsonError_own _) hs
  | some body =>
      refine .ofExcept (fun token _ => ?_) fun _ _ => hs
      refine Prog.Wp.ite (fun _ => territory_of_own (jsonError_own _) hs) fun _ => ?_
      refine territory_step trivial hs fun owner s₁ h₁ => ?_
      refine Prog.Wp.ite (fun _ => ?_) fun _ => territory_of_own (jsonError_own _) h₁
      refine (removeRoom_territory h₁).seq fun _ s₂ h₂ => ?_
      exact territory_of_own (.perform trivial) h₂

end Wp

section Run

variable {cfg : Config} {secret : List UInt8} {db : Database} {clock : ℤ}
variable {ok : List (server cfg secret).Transition → (server cfg secret).Transition → Prop}
variable {h : List (server cfg secret).Transition} {conf conf' : State}

/-! ## Which room a task is about -/

/-- The room that task `t` is about from this transition on. -/
def startedFor (t : Task) (m : (server cfg secret).Transition) : Option Str :=
  match m.label with
  | .start u i => if u = t then i.room else none
  | _ => none

/-- The room that a task is about. -/
def home (t : Task) (h : List (server cfg secret).Transition) : Option Str :=
  h.findSome? (startedFor t)

lemma home_snoc (t : Task) (h : List (server cfg secret).Transition)
    (m : (server cfg secret).Transition) : home t (h ++ [m]) = (home t h).or (startedFor t m) := by
  rw [home, List.findSome?_append]
  cases hm : startedFor t m <;> simp [home, hm]

lemma home_extends {t : Task} {a : Str} (ha : home t h = some a)
    (m : (server cfg secret).Transition) : home t (h ++ [m]) = some a := by
  rw [home_snoc, ha, Option.some_or]

lemma startedFor_of_not_isOf {t : Task} {m : (server cfg secret).Transition}
    (hm : ¬ m.label.IsOf t) : startedFor t m = none := by
  unfold startedFor
  split
  · rename_i u i hl
    rw [hl] at hm
    exact if_neg hm
  · rfl

lemma home_of_none (hr : Run (M := server cfg secret) ok (boot db clock) h conf) {t : Task}
    (ht : conf.task t = none) : home t h = none :=
  List.findSome?_eq_none_iff.mpr fun m hm =>
    startedFor_of_not_isOf (hr.not_isOf_of_none ht m hm)

lemma onopen_accepts (c : Conn) (room : Option Str) :
    (onopen c room).Only fun o : Op Str => ∀ d r id, o = .onWsAccept d r id → room = some r := by
  cases room with
  | none => trivial
  | some room =>
      refine Prog.Only.ite (fun _ => trivial) fun _ => .step (by simp) fun bytes => .perform ?_
      intro d r id he
      obtain ⟨-, rfl, -⟩ := Op.onWsAccept.inj he
      rfl

/-- A connection is registered for the room it was opened for. -/
theorem home_of_accept (hr : Run (M := server cfg secret) ok (boot db clock) h conf) {t : Task}
    {c : Conn} {r peerId : Str} {k : Unit → Handler Str Unit}
    (ht : conf.task t = some (.call (.onWsAccept c r peerId) k)) : home t h = some r := by
  refine (hr.only_of_history (P := fun h t (o : Op Str) => ∀ c r id, o = .onWsAccept c r id →
    home t h = some r) ?_ ?_ ?_ t _ ht).1 c r peerId rfl
  · exact fun h m t o ho c r id he => home_extends (ho c r id he) m
  · exact fun t p hp => by cases hp
  · intro h conf t i conf' hr hs _
    have hother : ∀ {p : Handler Str Unit},
        (p.Only fun o : Op Str => ∀ c r id, o ≠ .onWsAccept c r id) →
        p.Only fun o : Op Str => ∀ c r id, o = .onWsAccept c r id →
          home t (h ++ [(⟨conf, .start t i, conf'⟩ : (server cfg secret).Transition)]) = some r :=
      fun hp => hp.mono fun o ho c r id he => absurd he (ho c r id)
    cases t with
    | http n =>
        refine hother ((program_of cfg secret (.http n) i).mono fun o ho c r id => ?_)
        rintro rfl
        exact ho
    | purger =>
        refine hother ((program_of cfg secret .purger i).mono fun o ho c r id => ?_)
        rintro rfl
        exact ho
    | ws d =>
        cases i with
        | opened room =>
            have hnone : conf.task (.ws d) = none := Option.isNone_iff_eq_none.mp (step_start hs).2.1
            refine (onopen_accepts d room).mono fun o ho c r id he => ?_
            rw [home_snoc, home_of_none hr hnone, ho c r id he]
            simp [startedFor, Input.room]
        | message data =>
            refine hother ((onmessage_ofMessage d cfg id data).mono fun o ho c r id => ?_)
            rintro rfl
            exact ho
        | closed =>
            refine hother (.step (by simp) fun peer => ?_)
            cases peer with
            | none => trivial
            | some p =>
                refine Prog.Only.ite (fun _ => ?_) fun _ => trivial
                exact broadcast_only (by simp) (by simp) _ _
        | _ => trivial

/-- A connection is registered under the room it was opened for. -/
theorem home_of_peer (hr : Run (M := server cfg secret) ok (boot db clock) h conf) {c : Conn}
    {p : Peer} (hp : conf.world.mgr.peers c = some p) : home (.ws c) h = some p.roomId := by
  refine hr.invariant (I := fun h (conf : State) => ∀ p, conf.world.mgr.peers c = some p →
    home (.ws c) h = some p.roomId) (by simp [boot, World.boot, RoomManager.empty]) ?_ p hp
  intro h conf l conf' hr ih hs _ p hp
  by_cases hl : l.IsOf (Task.ws c)
  · cases l with
    | start t i =>
        obtain ⟨-, -, rfl⟩ := step_start hs
        exact home_extends (ih p hp) _
    | advance t x =>
        obtain rfl : t = .ws c := hl
        obtain ⟨o, k, ht, hof, rfl, hpre, hstep⟩ :=
          dialogue_advance True (fun _ _ _ => .inl trivial) hr hs
        refine home_extends ?_ _
        rcases dialogueStep_registered hstep hp with ⟨q, hq, hqr⟩ | ⟨d, id, rfl⟩
        · exact hqr ▸ ih q hq
        · exact home_of_accept hr ht
    | env e => exact hl.elim
  · rw [peers_of_not_isOf hr hs hl] at hp
    exact home_extends (ih p hp) _

/-! ## Every run keeps to the rooms -/

/-- What a task relies on in a run. -/
def viewOf (t : Task) (h : List (server cfg secret).Transition) (conf : State) : View where
  homes u := home u h
  peer := t.conn.bind conf.world.mgr.peers

lemma viewOf_extends (t : Task) (m : (server cfg secret).Transition) :
    (viewOf t h conf).Extends (viewOf t (h ++ [m]) conf') :=
  fun _ _ ha => home_extends ha m

/-- The connections that are registered for a room were opened for it. -/
lemma home_of_mem_connsOf (hr : Run (M := server cfg secret) ok (boot db clock) h conf) {a : Str}
    {c : Conn} (hc : c ∈ conf.world.mgr.connsOf a) : home (.ws c) h = some a := by
  obtain ⟨p, hp, rfl⟩ := ((registry_consistent hr).mem_iff a c).mp hc
  exact home_of_peer hr hp

/-- The operations do what the specification says. -/
lemma exec_territory (hr : Run (M := server cfg secret) ok (boot db clock) h conf) {t : Task}
    {a : Str} {o : Op Str} {x : Choice} (ho : o.Of t)
    (hworld : conf'.world = (exec o x conf.world).2) (m : (server cfg secret).Transition) :
    territoryStep a o (exec o x conf.world).1 (viewOf t h conf) (viewOf t (h ++ [m]) conf') := by
  have hsame : o.writes = none → (viewOf t (h ++ [m]) conf').peer = (viewOf t h conf).peer := by
    intro hw
    have hpeers : conf'.world.mgr.peers = conf.world.mgr.peers := by
      rw [hworld]
      exact funext fun c => exec_peers (by simp [hw]) x _
    simp only [viewOf, hpeers]
  have hpeers : conf'.world.mgr.peers = (exec o x conf.world).2.mgr.peers := by rw [hworld]
  cases o with
  | targets r e =>
      refine ⟨?_, hsame rfl⟩
      rintro rfl c hc
      exact home_extends (home_of_mem_connsOf hr (RoomManager.mem_targets _ |>.mp hc).1) m
  | closeRoom r =>
      refine ⟨?_, hsame rfl⟩
      rintro rfl c hc
      exact home_extends (home_of_mem_connsOf hr hc) m
  | onWsAccept d r id =>
      cases t with
      | ws c =>
          obtain rfl : d = c := ho
          simp only [territoryStep, viewOf, Task.conn, Option.bind_some, hpeers, exec,
            RoomManager.onWsAccept]
          cases hp : conf.world.mgr.peers d with
          | none => exact .inr (Function.update_self ..)
          | some p => exact .inl hp
      | _ => exact ho.elim
  | onWsClose d =>
      cases t with
      | ws c =>
          obtain rfl : d = c := ho
          simp [territoryStep, viewOf, Task.conn, hpeers, exec, RoomManager.fst_onWsClose,
            RoomManager.peers_onWsClose]
      | _ => exact ho.elim
  | findByConn d =>
      cases t with
      | ws c =>
          obtain rfl : d = c := ho
          exact ⟨rfl, hsame rfl⟩
      | _ => exact ho.elim
  | markPeerJoined d id =>
      cases t with
      | ws c =>
          obtain rfl : d = c := ho
          simp [territoryStep, viewOf, Task.conn, hpeers, exec, RoomManager.markPeerJoined,
            RoomManager.peers_modify]
      | _ => exact ho.elim
  | setPending d token e =>
      cases t with
      | ws c =>
          obtain rfl : d = c := ho
          simp [territoryStep, viewOf, Task.conn, hpeers, exec, RoomManager.setPending,
            RoomManager.peers_modify]
      | _ => exact ho.elim
  | _ => exact hsame rfl

/-- A task that is not about room `a` keeps to anything. -/
lemma territory_of_not_home {t : Task} {a : Str} {s : View} (p : Handler Str Unit)
    (hs : s.homes t ≠ some a) :
    p.Wp (territory t a) (fun _ s => s.homes t = some a → AtHome t a s) s := by
  have hany : p.Only fun _ => True := by
    induction p with
    | ret a => trivial
    | fail e => trivial
    | call o k ih => exact ⟨trivial, ih⟩
  refine hany.wp_of_invariant (J := fun s => s.homes t ≠ some a) ?_ ?_ ?_ ?_ hs
  · exact fun s s' h hs => h.2.1 ▸ hs
  · exact fun _ _ _ hs he => absurd he hs
  · exact fun _ _ s s' _ hs h => h.2.1 ▸ hs
  · exact fun _ _ hs he => absurd he hs

/-- The purger is about no room. -/
lemma home_purger (hr : Run (M := server cfg secret) ok (boot db clock) h conf) :
    home .purger h = none := by
  refine hr.invariant (I := fun h _ => home .purger h = none) rfl ?_
  intro h conf l conf' _ ih hs _
  rw [home_snoc, ih, Option.none_or]
  cases l with
  | start t i =>
      obtain ⟨-, hadm, -⟩ := step_start hs
      cases t with
      | purger =>
          cases i with
          | purge => rfl
          | _ => cases hadm
      | ws c => exact startedFor_of_not_isOf (m := ⟨conf, .start (.ws c) i, conf'⟩) (by rintro ⟨⟩)
      | http n =>
          exact startedFor_of_not_isOf (m := ⟨conf, .start (.http n) i, conf'⟩) (by rintro ⟨⟩)
  | _ => rfl

/-- A program that a task takes up, once it is about a room, keeps to its territory. -/
lemma program_territory (hr : Run (M := server cfg secret) ok (boot db clock) h conf) {t : Task}
    {i : Input} {a : Str} {s : View}
    (hstart : step (M := server cfg secret) conf (.start t i) = some conf')
    (ha : (home t h).or i.room = some a) (hs : AtHome t a s) :
    (program cfg secret t i).Wp (territory t a) (fun _ => AtHome t a) s := by
  obtain ⟨-, hadm, -⟩ := step_start hstart
  have hfirst : conf.task t = none → i.room = some a := by
    intro hnone
    rw [home_of_none hr hnone] at ha
    exact ha
  cases t with
  | ws c =>
      cases i with
      | opened room =>
          obtain rfl : room = some a := hfirst (Option.isNone_iff_eq_none.mp hadm)
          exact territory_of_own (onopen_own c a) hs
      | message data => exact onmessage_territory cfg data hs
      | closed => exact onclose_territory hs
      | _ => exact hs
  | http n =>
      cases i with
      | activate id body =>
          obtain rfl : id = a := Option.some.inj (hfirst (Option.isNone_iff_eq_none.mp hadm))
          exact territory_of_own (activate_own cfg body) hs
      | deleteRoom id body =>
          obtain rfl : id = a := Option.some.inj (hfirst (Option.isNone_iff_eq_none.mp hadm))
          exact deleteRoom_territory body hs
      | getPowChallenge => cases hfirst (Option.isNone_iff_eq_none.mp hadm)
      | postRooms body => cases hfirst (Option.isNone_iff_eq_none.mp hadm)
      | isAlive body => cases hfirst (Option.isNone_iff_eq_none.mp hadm)
      | _ => exact hs
  | purger =>
      rw [home_purger hr, Option.none_or] at ha
      cases i with
      | purge => cases ha
      | _ => exact hs

/-- In every run a task that is about a room keeps to its territory. -/
theorem serves_territory (hr : Run (M := server cfg secret) ok (boot db clock) h conf) (t : Task)
    (a : Str) :
    Serves (M := server cfg secret) (territory t a)
      (fun s => s.homes t = some a → AtHome t a s) (conf.task t) (viewOf t h conf) := by
  refine hr.modular (M := server cfg secret) t (viewOf t) ?_ ?_ ?_ ?_ ?_
  · intro s s' hst hs ha
    exact (hs (hst.2.1 ▸ ha)).stable hst
  · intro ha
    cases ha
  · intro h conf i conf' hr hs _ hI
    by_cases ha : (viewOf t (h ++ [(⟨conf, .start t i, conf'⟩ : (server cfg secret).Transition)])
        conf').homes t = some a
    · have hor : (home t h).or i.room = some a := by
        have ha : home t (h ++ [(⟨conf, .start t i, conf'⟩ : (server cfg secret).Transition)])
          = some a := ha
        rw [home_snoc] at ha
        simpa [startedFor] using ha
      have hpeer : ∀ p, (t.conn.bind conf'.world.mgr.peers) = some p → p.roomId = a := by
        intro p hp
        obtain ⟨c, hc, hp⟩ := Option.bind_eq_some_iff.mp hp
        obtain rfl : t = .ws c := by
          cases t with
          | ws d => exact congrArg Task.ws (Option.some.inj hc)
          | _ => cases hc
        have hworld : conf'.world = conf.world := by rw [(step_start hs).2.2, resume_world]
        rw [home_of_peer hr (hworld ▸ hp), Option.some_or] at hor
        exact Option.some.inj hor
      refine Prog.Wp.mono ?_ (program_territory hr hs hor ⟨ha, hpeer⟩)
      exact fun _ _ hs _ => hs
    · exact territory_of_not_home _ ha
  · intro h conf x conf' o k hr hs _ ht _
    obtain ⟨o', k', ht', rfl⟩ := step_advance hs
    obtain ⟨rfl, -⟩ : o' = o ∧ HEq k' k := by simpa [ht] using ht'.symm
    refine ⟨viewOf_extends t _, ?_, exec_territory hr (task_only hr ht).1 rfl _⟩
    simp only [viewOf, home_snoc]
    exact Option.or_none
  · intro h conf l conf' hr hs _ hl
    refine ⟨viewOf_extends t _, ?_, ?_⟩
    · simp only [viewOf, home_snoc]
      rw [startedFor_of_not_isOf hl, Option.or_none]
    · cases t with
      | ws c => exact peers_of_not_isOf hr hs hl
      | _ => rfl

/-! ## Who deletes a room holds a token of it -/

/-- Among these calls a token of the room has been looked up and found. -/
def Found (r : Str) (es : List (Called (signature Str))) : Prop :=
  ∃ token : Str, (⟨.roomForToken token, some r⟩ : Called (signature Str)) ∈ es

/-- A request deletes a room after it has found a token of the room. -/
def authorisedPre : Op Str → List (Called (signature Str)) → Prop
  | .deleteRoom r, es => Found r es
  | _, _ => True

/-- The specification of a request with respect to deletions. -/
abbrev authorised : Spec (signature Str) (List (Called (signature Str))) :=
  .traced authorisedPre fun _ _ => True

lemma deleteRoom_authorised (n : ℕ) (r : Str) (body : Option Json)
    {es : List (Called (signature Str))} :
    (deleteRoom n r body).Wp authorised (fun _ _ => True) es := by
  have hrespond : ∀ {es : List (Called (signature Str))} (p : Handler Str Unit),
      p.Only Op.Plain → p.Wp authorised (fun _ _ => True) es := by
    intro es p hp
    refine hp.wp_traced (J := fun _ => True) (fun o es ho _ => ?_) (fun _ _ _ _ _ => trivial)
      (fun _ _ _ => trivial) trivial
    cases o <;> trivial
  cases body with
  | none => exact hrespond _ (jsonError_plain n _)
  | some body =>
      refine .ofExcept (fun token _ => ?_) fun _ _ => trivial
      refine .ite (fun _ => hrespond _ (jsonError_plain n _)) fun _ => ?_
      refine .traced trivial fun owner _ => .ite (fun howner => ?_) fun _ => ?_
      · have hfound : Found r (es ++ [⟨.roomForToken token, owner⟩]) :=
          ⟨token, List.mem_append_right _ (by rw [howner]; exact List.mem_singleton_self _)⟩
        have hremove : (removeRoom (π := Str) r).Only fun o : Op Str =>
            o = .deleteRoom r ∨ ∀ r', o ≠ .deleteRoom r' := by
          refine Prog.Only.bind (.step (by simp) fun cs => ?_) fun _ => .step (.inl rfl) fun _ => trivial
          exact closeEach_only (by simp) (by simp) cs
        have hall := hremove.bind (f := fun _ => call (.respond n .ok)) fun _ => .perform (by simp)
        refine hall.wp_traced (J := Found r) ?_ ?_ (fun _ _ _ => trivial) hfound
        · intro o es ho hes
          cases o with
          | deleteRoom r' =>
              obtain rfl : r' = r := by simpa using ho
              exact hes
          | _ => trivial
        · rintro o a es - ⟨token, hmem⟩
          exact ⟨token, List.mem_append_left _ hmem⟩
      · exact hrespond _ (jsonError_plain n _)

/-- A request deletes a room only after it has found that its token belongs to the room. -/
theorem token_of_deleteRoom (hr : Run (M := server cfg secret) ok (boot db clock) h conf) {n : ℕ}
    {r : Str} {k : Bool → Handler Str Unit}
    (ht : conf.task (.http n) = some (.call (.deleteRoom r) k)) :
    Found r (calls (M := server cfg secret) (Task.http n) h) := by
  have hserves : Serves (M := server cfg secret) authorised (fun _ => True)
      (conf.task (.http n)) (calls (M := server cfg secret) (Task.http n) h) := by
    refine hr.traced (M := server cfg secret) (Task.http n) ?_ ?_ ?_
    · trivial
    · intro h conf i conf' _ _ _
      have hother : ∀ p : Handler Str Unit, (p.Only fun o : Op Str => ∀ r, o ≠ .deleteRoom r) →
          p.Wp authorised (fun _ _ => True) (calls (M := server cfg secret) (Task.http n) h) := by
        intro p hp
        refine hp.wp_traced (J := fun _ => True) (fun o es ho _ => ?_) (fun _ _ _ _ _ => trivial)
          (fun _ _ _ => trivial) trivial
        cases o with
        | deleteRoom r => exact absurd rfl (ho r)
        | _ => trivial
      have hplain : ∀ p : Handler Str Unit, p.Only Op.Plain → p.Wp authorised (fun _ _ => True)
          (calls (M := server cfg secret) (Task.http n) h) := fun p hp =>
        hother p (hp.mono fun o ho r he => by subst he; exact ho)
      cases i with
      | deleteRoom r body => exact deleteRoom_authorised n r body
      | getPowChallenge => exact hplain _ (getPowChallenge_plain n cfg secret)
      | postRooms body => exact hplain _ (postRooms_plain n cfg secret body)
      | isAlive body => exact hplain _ (isAlive_plain n body)
      | activate r body =>
          refine hother _ ((activate_ofActivate n cfg r body).mono fun o ho r he => ?_)
          subst he
          exact ho
      | _ => trivial
    · exact fun _ _ _ _ _ _ _ _ _ _ _ => trivial
  exact hserves.pre ht

/-! ## The theorem -/

/-- A step of a task that is about one room leaves the share of another alone. -/
theorem share_step (hr : Run (M := server cfg secret) ok (boot db clock) h conf)
    {l : (server cfg secret).Label} (hs : step conf l = some conf') {t : Task} (hl : l.IsOf t)
    {a b : Str} (hab : a ≠ b)
    (ha : home t (h ++ [(⟨conf, l, conf'⟩ : (server cfg secret).Transition)]) = some a) :
    conf'.world.share b = conf.world.share b ∧ ∃ sent, conf'.world.wire = conf.world.wire ++ sent ∧
      ∀ e ∈ sent, home (.ws e.1) h = some a := by
  cases l with
  | start u i =>
      obtain ⟨-, -, rfl⟩ := step_start hs
      exact ⟨rfl, [], (List.append_nil _).symm, by simp⟩
  | env e => exact hl.elim
  | advance u x =>
      obtain rfl : u = t := hl
      obtain ⟨o, k, ht, rfl⟩ := step_advance hs
      have ha : home u h = some a := by
        rw [home_snoc] at ha
        simpa [startedFor] using ha
      have hwithin : o.Within a u.conn fun c => home (.ws c) h = some a :=
        (serves_territory hr u a).pre ht ha
      constructor
      · refine exec_share hab hwithin x fun c p hc hp => ?_
        obtain rfl : u = .ws c := by
          cases u with
          | ws d => exact congrArg Task.ws (Option.some.inj hc)
          | _ => cases hc
        have hpa : some p.roomId = some a := (home_of_peer hr hp).symm.trans ha
        exact fun hpb => hab ((Option.some.inj hpa).symm.trans hpb)
      · have hquiet : (exec o x conf.world).2.wire = conf.world.wire →
            ∃ sent, (exec o x conf.world).2.wire = conf.world.wire ++ sent ∧
              ∀ e ∈ sent, home (.ws e.1) h = some a := fun hw => ⟨[], by simp [hw], by simp⟩
        cases o with
        | sendText c f =>
            refine ⟨[(c, .text f)], rfl, fun e he => ?_⟩
            obtain rfl := List.mem_singleton.mp he
            exact hwithin
        | close c reason =>
            refine ⟨[(c, .close reason)], rfl, fun e he => ?_⟩
            obtain rfl := List.mem_singleton.mp he
            exact hwithin
        | _ =>
            refine hquiet ?_
            simp only [exec]
            try split
            all_goals rfl

/-- **Rooms are isolated.**  Whatever a task about room `a` does (the callbacks of a connection
that was opened for it, its activation, its deletion with any token), each step leaves the rows,
the cached messages, the list of connections and the records of every other room `b` unchanged,
and sends to and closes no connection of `b`.  In particular whoever is joined in `a` has passed
the check of `a`, and who deletes `a` has presented a token of `a`. -/
theorem room_isolation (hr : Run (M := server cfg secret) anyStep (boot db clock) h conf)
    {l : (server cfg secret).Label} (hs : step conf l = some conf') {t : Task} (hl : l.IsOf t)
    {a b : Str} (hab : a ≠ b)
    (ha : home t (h ++ [(⟨conf, l, conf'⟩ : (server cfg secret).Transition)]) = some a) :
    conf'.world.share b = conf.world.share b ∧
    (∃ sent, conf'.world.wire = conf.world.wire ++ sent ∧ ∀ e ∈ sent, ∀ p,
      conf.world.mgr.peers e.1 = some p → p.roomId ≠ b) ∧
    (∀ c p, conf'.world.mgr.peers c = some p → p.roomId = a → p.joined = true → Passed a (events c
      (h ++ [(⟨conf, l, conf'⟩ : (server cfg secret).Transition)]))) ∧
    ∀ n r, (⟨conf, l, conf'⟩ : (server cfg secret).Transition).Calls (Task.http n) (.deleteRoom a) r →
      Found a (calls (M := server cfg secret) (Task.http n) h) := by
  obtain ⟨hshare, sent, hwire, hsent⟩ := share_step hr hs hl hab ha
  refine ⟨hshare, ⟨sent, hwire, fun e he p hp hpb => ?_⟩, ?_, ?_⟩
  · have hpa : some p.roomId = some a := (home_of_peer hr hp).symm.trans (hsent e he)
    exact hab ((Option.some.inj hpa).symm.trans hpb)
  · rintro c p hp rfl hj
    exact passed_of_joined (hr.snoc hs trivial) hp hj
  · rintro n r ⟨x, k, -, ht, -⟩
    exact token_of_deleteRoom hr ht

end Run

/-- The small server with a second room. -/
def Sample.twoRooms : Database :=
  ((Sample.store 2 [] [Sample.token]).createRoom
    ⟨ascii "other", ascii "Secret chat", 2, 0, 0, true, false⟩).2

/-- A request that is about to delete the sample room. -/
def Sample.aboutToDelete (h : List (server {} Sample.secret).Transition) (conf : State) : Bool :=
  (match conf.task (.http 0) with
    | some (.call (.deleteRoom r) _) => r = Sample.room
    | _ => false) && home (.http 0) h = some Sample.room

/-- A connection is open when its room is about to be deleted. -/
def Sample.deletesOne : Script (boot Sample.twoRooms 0) (fun _ _ => true)
    (fun h (conf : State) => Sample.aboutToDelete h conf &&
      (Sample.room ∈ conf.world.db.roomIds && ascii "other" ∈ conf.world.db.roomIds)) where
  labels := Sample.opening 0 ++ Sample.joining 0 Sample.token 9
    ++ Sample.handle (.http 0)
      (.deleteRoom Sample.room (some (.object [(ascii "token", .string Sample.token)]))) 4
  performed := by decide +kernel

/-- A room is deleted and another one is not touched. -/
theorem room_isolation_sample : ∃ conf conf' : State,
    Sample.room ∈ conf.world.db.roomIds ∧ Sample.room ∉ conf'.world.db.roomIds ∧
      ascii "other" ∈ conf.world.db.roomIds ∧
      conf'.world.share (ascii "other") = conf.world.share (ascii "other") := by
  obtain ⟨h, conf, hr, hend⟩ := Sample.deletesOne.exists_run fun _ _ _ _ => trivial
  obtain ⟨hnext, hrooms⟩ := Bool.and_eq_true_iff.mp hend
  obtain ⟨hroom, hother⟩ : Sample.room ∈ conf.world.db.roomIds ∧
    ascii "other" ∈ conf.world.db.roomIds := by simpa using hrooms
  obtain ⟨hnext, hhome⟩ := Bool.and_eq_true_iff.mp hnext
  have hhome : home (.http 0) h = some Sample.room := of_decide_eq_true hhome
  split at hnext
  · rename_i r k ht
    obtain rfl : r = Sample.room := of_decide_eq_true hnext
    have hs := step_of_call (M := server {} Sample.secret) ht (Sample.draw 0)
    have hab : Sample.room ≠ ascii "other" := by simp [Sample.room, ascii]
    have hshare := (room_isolation hr hs (t := Task.http 0) rfl hab (home_extends hhome _)).1
    refine ⟨conf, _, hroom, ?_, hother, hshare⟩
    have hgone : Sample.room ∉ (conf.world.db.deleteRoom Sample.room).2.roomIds := by
      rw [Database.roomIds_deleteRoom]
      simp
    exact hgone
  · cases hnext

end HashHush
