import HashHush.Properties.Registry

/-!
# What the others are told about a connection

A connection is announced to its room twice: by `peer_join` at the end of its join and by
`peer_leave` when `onWsClose` forgets it.  Both are decided from the record of the connection and
sent after the mutex is released, and Crow may run `onclose` and `onerror` any number of times.

An `Announcement` is such a frame with the room and the connection left out; `announcements` are
those a task has begun to broadcast, `owed` the frames that their recipients are to get, and `told`
the frames that were sent.  The law of a connection between its callbacks is `Standing.Law`: its
record, what has been announced, what has been sent and what the first closing found fit together.
Every callback keeps it (`onopen_leads`, `onclose_leads`, `onmessage_leads`), nobody else touches any
part of it, and `membership_balanced` reads off what that means for every run.
-/

namespace HashHush

open Concurrency System Prog

/-! ## Announcements -/

/-- What the members of a room are told about a connection. -/
inductive News
  | join (peerId : Str)
  | leave (peerId : Str)
  deriving DecidableEq

/-- The news that a frame brings. -/
def Frame.news {π : Type} : Frame π → Option News
  | .peerJoin peerId => some (.join peerId)
  | .peerLeave peerId => some (.leave peerId)
  | _ => none

/-- News for the members of a room but one. -/
structure Announcement where
  room : Str
  except : Option Conn
  news : News
  deriving DecidableEq

/-- The announcement that a program is about to broadcast: it collects the recipients next.  Which
frame they are to get is read off what the program would do with a single one. -/
def announces (p : Handler Str Unit) : Option Announcement :=
  match p with
  | .call (.targets room except) k =>
      match k [0] with
      | .call (.sendText _ f) _ => f.news.map (Announcement.mk room except)
      | _ => none
  | _ => none

lemma announces_broadcast (r : Str) (f : Frame Str) (except : Option Conn)
    (k : Unit → Handler Str Unit) :
    announces (broadcast r f except >>= k) = f.news.map (Announcement.mk r except) := rfl

/-- The news that a call sends, and to whom. -/
def Op.news : Op Str → Option (Conn × News)
  | .sendText d f => f.news.map (Prod.mk d)
  | _ => none

section Transitions

variable {cfg : Config} {secret : List UInt8}

/-- The announcement whose broadcast a task begins with a transition. -/
def announced (t : Task) (m : (server cfg secret).Transition) : Option Announcement :=
  match m.label with
  | .advance u _ => if u = t then (m.pre.task u).bind announces else none
  | _ => none

/-- The announcements that a task has broadcast, in order. -/
def announcements (t : Task) (h : List (server cfg secret).Transition) : List Announcement :=
  h.filterMap (announced t)

/-- The connections that an announcement is for. -/
def Announcement.recipients (a : Announcement) (w : World Str) : List Conn :=
  w.mgr.targets a.room a.except

/-- The news that a task owes to others for what it has announced. -/
def owed (t : Task) (h : List (server cfg secret).Transition) : List (Conn × News) :=
  h.flatMap fun m => (announced t m).toList.flatMap fun a =>
    (a.recipients m.pre.world).map fun d => (d, a.news)

/-- The news that a task has sent, in order. -/
def told (t : Task) (h : List (server cfg secret).Transition) : List (Conn × News) :=
  (calls (M := server cfg secret) t h).filterMap fun e => Op.news e.1

/-- The transition starts a close callback, `onclose` or `onerror`, of the connection. -/
def isClosing (c : Conn) (m : (server cfg secret).Transition) : Bool :=
  match m.label with
  | .start (.ws d) .closed => d = c
  | _ => false

/-- The room of a record, and the peer id under which it has joined. -/
def Peer.badge (p : Peer) : Str × Option Str := (p.roomId, if p.joined then some p.peerId else none)

/-- The badge of a registered connection. -/
def badge (c : Conn) (w : World Str) : Option (Str × Option Str) := (w.mgr.peers c).map Peer.badge

/-- The room and the peer id under which a connection with this badge has joined. -/
def membership (b : Option (Str × Option Str)) : Option (Str × Str) :=
  b.bind fun b => b.2.map (Prod.mk b.1)

/-- Once the first close callback of the connection has started: the room and the peer id under
which the connection had joined then. -/
def firstClosing (c : Conn) (h : List (server cfg secret).Transition) : Option (Option (Str × Str)) :=
  (h.find? (isClosing c)).map fun m => membership (badge c m.pre.world)

/-- The operation promotes a peer. -/
def Op.promotes : Op Str → Bool
  | .markPeerJoined _ _ => true
  | _ => false

/-- The connection has finished its join at some time. -/
def promoted (c : Conn) (h : List (server cfg secret).Transition) : Bool :=
  (calls (M := server cfg secret) (.ws c) h).any fun e => e.1.promotes

end Transitions

/-! ## The law of a connection -/

/-- What the law of a connection is about. -/
structure Standing where
  badge : Option (Str × Option Str)
  announcements : List Announcement
  owed : List (Conn × News)
  told : List (Conn × News)
  closing : Option (Option (Str × Str))
  promoted : Bool

/-- The announcements of a connection in its lifetime: the others in the room learn that it has
joined, and those who are left that it has gone. -/
def lifetime (c : Conn) (room peerId : Str) : List Announcement :=
  [⟨room, some c, .join peerId⟩, ⟨room, none, .leave peerId⟩]

namespace Standing

/-- An un-joined connection has announced nothing, a joined one its join, and one that is no longer
registered has announced its leaving too, if the first closing found it joined, and otherwise
nothing. -/
def Accords (c : Conn) (s : Standing) : Prop :=
  match s.badge with
  | none => (s.announcements = [] ∧ ∀ m, s.closing ≠ some (some m)) ∨
      ∃ room peerId, s.announcements = lifetime c room peerId ∧
        s.closing = some (some (room, peerId)) ∧ s.promoted = true
  | some (_, none) => s.announcements = [] ∧ s.closing = none
  | some (room, some peerId) => s.announcements = [⟨room, some c, .join peerId⟩] ∧
      s.closing = none ∧ s.promoted = true

/-- Between two callbacks: what has been announced accords with the record, and all of it has been
sent. -/
def Law (c : Conn) (s : Standing) : Prop := s.Accords c ∧ s.told = s.owed

/-- At any time: a join and a leaving under one peer id at most, in this order, the leaving only if
the first closing found the connection joined, and nothing sent that has not been announced. -/
structure Fair (c : Conn) (s : Standing) : Prop where
  ordered : ∃ room peerId, s.announcements <+: lifetime c room peerId
  justified : ∀ room except peerId, ⟨room, except, .leave peerId⟩ ∈ s.announcements →
    s.closing = some (some (room, peerId))
  told_prefix : s.told <+: s.owed

variable {c : Conn} {s : Standing}

lemma fair_of_nil (h : s.announcements = []) (htold : s.told <+: s.owed) : s.Fair c := by
  refine ⟨⟨[], [], ?_⟩, ?_, htold⟩ <;> simp [h]

lemma fair_of_join {room peerId : Str} (h : s.announcements = [⟨room, some c, .join peerId⟩])
    (htold : s.told <+: s.owed) : s.Fair c := by
  refine ⟨⟨room, peerId, ?_⟩, ?_, htold⟩ <;> simp [h, lifetime]

lemma Law.fair (h : s.Law c) : s.Fair c := by
  obtain ⟨haccords, htold⟩ := h
  have hprefix : s.told <+: s.owed := htold ▸ List.prefix_refl _
  unfold Accords at haccords
  split at haccords
  · rcases haccords with ⟨h, -⟩ | ⟨room, peerId, h, hclosing, -⟩
    · exact fair_of_nil h hprefix
    · refine ⟨⟨room, peerId, by rw [h]⟩, fun room' except peerId' hmem => ?_, hprefix⟩
      rw [h] at hmem
      obtain ⟨rfl, -, rfl⟩ : room' = room ∧ except = none ∧ peerId' = peerId := by
        simpa [lifetime] using hmem
      exact hclosing
  · exact fair_of_nil haccords.1 hprefix
  · exact fair_of_join haccords.1 hprefix

/-- The connection is told to close. -/
def closed (s : Standing) : Standing :=
  { s with closing := some (s.closing.getD (membership s.badge)) }

/-- A closing does not change what an earlier one found. -/
lemma Law.fair_closed (h : s.Law c) : s.closed.Fair c := by
  obtain ⟨hordered, hjustified, htold⟩ := h.fair
  refine ⟨hordered, fun room except peerId hmem => ?_, htold⟩
  have hclosing : s.closing = some (some (room, peerId)) := hjustified room except peerId hmem
  simp [closed, hclosing]

end Standing

/-! ## What the calls of a callback do to it -/

/-- The badge of a connection after an operation. -/
def Op.badgeAfter (c : Conn) : Op Str → Option (Str × Option Str) → Option (Str × Option Str)
  | .onWsAccept d room _, b => if d = c then some (b.getD (room, none)) else b
  | .onWsClose d, b => if d = c then none else b
  | .markPeerJoined d peerId, b => if d = c then b.map fun b => (b.1, some peerId) else b
  | _, b => b

/-- What an operation returns tells the badge that it found. -/
def Op.Tells (c : Conn) : (o : Op Str) → o.Res → Option (Str × Option Str) → Prop
  | .findByConn d, r, b | .onWsClose d, r, b => d = c → Option.map Peer.badge r = b
  | _, _, _ => True

/-- The connections that an operation has collected. -/
def Op.gathered : (o : Op Str) → o.Res → List Conn
  | .targets _ _, cs => cs
  | _, _ => []

/-- What a call leaves of the standing of a connection, when the program goes on with `k`. -/
def Standing.after (c : Conn) (o : Op Str) (k : o.Res → Handler Str Unit) (r : o.Res)
    (s : Standing) : Standing where
  badge := o.badgeAfter c s.badge
  announcements := s.announcements ++ (announces (.call o k)).toList
  owed := s.owed ++ (announces (.call o k)).toList.flatMap fun a =>
    (o.gathered r).map fun d => (d, a.news)
  told := s.told ++ o.news.toList
  closing := s.closing
  promoted := s.promoted || o.promotes

/-- The law is kept by calls of fair callbacks, which send to other connections only once theirs
has been promoted. -/
def account (c : Conn) : Account (signature Str) Unit Standing where
  pre o s := s.Fair c ∧ ∀ d out, o.outgoing = some (d, out) → d = c ∨ s.promoted = true
  step o k r s s' := o.Tells c r s.badge ∧ s' = s.after c o k r

/-- The operation neither broadcasts nor sends news, and accepts, promotes or forgets no
connection. -/
def Op.Inert : Op Str → Prop
  | .targets _ _ | .onWsAccept _ _ _ | .onWsClose _ | .markPeerJoined _ _ => False
  | .sendText _ f => f.news = none
  | _ => True

/-- The operation is inert and sends to no other connection. -/
def Op.Discreet (c : Conn) : Op Str → Prop
  | .sendText d f => d = c ∧ f.news = none
  | .close d _ => d = c
  | o => o.Inert

lemma Op.Discreet.inert {c : Conn} {o : Op Str} (h : o.Discreet c) : o.Inert := by
  cases o with
  | sendText d f => exact h.2
  | _ => trivial

lemma Op.Discreet.eq_of_outgoing {c : Conn} {o : Op Str} (h : o.Discreet c) {d : Conn}
    {out : Outgoing Str} (hout : o.outgoing = some (d, out)) : d = c := by
  cases o <;> simp only [Op.outgoing, Option.some.injEq, Prod.mk.injEq, reduceCtorEq] at hout
  · exact hout.1 ▸ h.1
  · exact hout.1 ▸ h

lemma badge_exec (c : Conn) (o : Op Str) (x : Choice) (w : World Str) :
    badge c (exec o x w).2 = o.badgeAfter c (badge c w) := by
  by_cases ho : o.writes = some c
  · cases o with
    | onWsAccept d r peerId =>
        obtain rfl : d = c := Option.some.inj ho
        simp only [badge, exec, RoomManager.onWsAccept, Op.badgeAfter, if_true]
        cases hp : w.mgr.peers d with
        | none => simp [Peer.badge]
        | some p => simp [hp]
    | onWsClose d =>
        obtain rfl : d = c := Option.some.inj ho
        simp [badge, exec, RoomManager.peers_onWsClose, Op.badgeAfter]
    | markPeerJoined d peerId =>
        obtain rfl : d = c := Option.some.inj ho
        cases hp : w.mgr.peers d <;>
          simp [badge, exec, RoomManager.markPeerJoined, RoomManager.peers_modify, Op.badgeAfter, hp,
            Peer.badge]
    | setPending d t e =>
        obtain rfl : d = c := Option.some.inj ho
        cases hp : w.mgr.peers d <;>
          simp [badge, exec, RoomManager.setPending, RoomManager.peers_modify, Op.badgeAfter, hp,
            Peer.badge]
    | _ => simp [Op.writes] at ho
  · have hkept : o.badgeAfter c (badge c w) = badge c w := by
      cases o with
      | onWsAccept d r peerId => exact if_neg fun hd => ho (congrArg some hd)
      | onWsClose d => exact if_neg fun hd => ho (congrArg some hd)
      | markPeerJoined d peerId => exact if_neg fun hd => ho (congrArg some hd)
      | _ => rfl
    rw [hkept, badge, exec_peers ho]
    rfl

lemma tells_exec (c : Conn) (o : Op Str) (x : Choice) (w : World Str) :
    o.Tells c (exec o x w).1 (badge c w) := by
  cases o with
  | findByConn d =>
      rintro rfl
      rfl
  | onWsClose d =>
      rintro rfl
      simp only [exec, RoomManager.fst_onWsClose]
      rfl
  | _ => trivial

/-- An inert call changes nothing. -/
lemma after_of_inert {c : Conn} {o : Op Str} (ho : o.Inert) (k : o.Res → Handler Str Unit)
    (r : o.Res) (s : Standing) : s.after c o k r = s := by
  cases o with
  | sendText d f =>
      have hf : f.news = none := ho
      simp [Standing.after, Op.badgeAfter, announces, Op.news, hf, Op.promotes]
  | _ => first
    | exact ho.elim
    | simp [Standing.after, Op.badgeAfter, announces, Op.news, Op.promotes]

section Callbacks

variable {c : Conn} {s : Standing}

lemma inert_leads {P : Op Str → Prop} (hinert : ∀ o, P o → o.Inert) {p : Handler Str Unit}
    (hp : p.Only P) (hout : ∀ o, P o → ∀ d out, o.outgoing = some (d, out) → d = c ∨ s.promoted)
    (hs : s.Law c) : p.Leads (account c) (Standing.Law c) s := by
  refine hp.leads (fun o ho => ⟨hs.fair, hout o ho⟩) (fun o k r _ ho h => ?_) hs
  exact h.2.trans (after_of_inert (hinert o ho) k r s)

lemma discreet_leads {p : Handler Str Unit} (hp : p.Only (Op.Discreet c)) (hs : s.Law c) :
    p.Leads (account c) (Standing.Law c) s :=
  inert_leads (fun _ ho => ho.inert) hp (fun _ ho _ _ hout => .inl (ho.eq_of_outgoing hout)) hs

/-- A call leads to what follows it. -/
lemma call_leads (o : Op Str) (hs : s.Fair c)
    (hout : ∀ d out, o.outgoing = some (d, out) → d = c ∨ s.promoted = true)
    {f : o.Res → Handler Str Unit} (hf : ∀ r, o.Tells c r s.badge →
      (f r).Leads (account c) (Standing.Law c) (s.after c o f r)) :
    (call o >>= f).Leads (account c) (Standing.Law c) s := by
  refine .step ⟨hs, hout⟩ ?_
  rintro r _ ⟨htells, rfl⟩
  exact hf r htells

/-- A discreet call leads to what follows it. -/
lemma step_leads {o : Op Str} (ho : o.Discreet c) (hs : s.Fair c) {f : o.Res → Handler Str Unit}
    (hf : ∀ r, o.Tells c r s.badge → (f r).Leads (account c) (Standing.Law c) s) :
    (call o >>= f).Leads (account c) (Standing.Law c) s := by
  refine call_leads o hs (fun _ _ hout => .inl (ho.eq_of_outgoing hout)) fun r htells => ?_
  rw [after_of_inert ho.inert]
  exact hf r htells

/-- The news is sent to everybody to whom it is owed. -/
lemma sendEach_leads {frame : Frame Str} {news : News} (hframe : frame.news = some news)
    {f : Unit → Handler Str Unit} (cs : List Conn) : ∀ {s : Standing}, s.Fair c →
      s.promoted = true → s.owed = s.told ++ cs.map (fun d => (d, news)) →
      (f ()).Leads (account c) (Standing.Law c) { s with told := s.owed } →
      (sendEach frame cs >>= f).Leads (account c) (Standing.Law c) s := by
  induction cs with
  | nil =>
      intro s _ _ howed hf
      have hsame : { s with told := s.owed } = s := by
        obtain ⟨b, announcements, owed, told, closing, promoted⟩ := s
        obtain rfl : owed = told := by simpa using howed
        rfl
      exact hsame ▸ hf
  | cons d cs ih =>
      intro s hs hpromoted howed hf
      refine call_leads (.sendText d frame) hs (fun _ _ _ => .inr hpromoted) fun r _ => ?_
      have hafter : ∀ k, s.after c (.sendText d frame) k r
          = { s with told := s.told ++ [(d, news)] } := by
        intro k
        simp [Standing.after, Op.badgeAfter, announces, Op.news, hframe, Op.promotes]
      rw [hafter]
      have howed' : s.owed = (s.told ++ [(d, news)]) ++ cs.map (fun d => (d, news)) := by
        rw [howed, List.map_cons, List.append_assoc, List.singleton_append]
      exact ih ⟨hs.ordered, hs.justified, ⟨_, howed'.symm⟩⟩ hpromoted howed' hf

/-- The standing of a connection when an announcement has been sent to these. -/
def Standing.announce (s : Standing) (a : Announcement) (cs : List Conn) : Standing :=
  { s with
    announcements := s.announcements ++ [a]
    owed := s.owed ++ cs.map fun d => (d, a.news)
    told := s.owed ++ cs.map fun d => (d, a.news) }

/-- An announcement of a promoted connection. -/
lemma announcement_leads (frame : Frame Str) {room : Str} {except : Option Conn} {news : News}
    (hframe : frame.news = some news) (hs : s.Fair c) (hpromoted : s.promoted = true)
    (htold : s.told = s.owed) (hlaw : ∀ cs, (s.announce ⟨room, except, news⟩ cs).Law c)
    {f : Unit → Handler Str Unit} (hf : ∀ cs, (f ()).Leads (account c) (Standing.Law c)
      (s.announce ⟨room, except, news⟩ cs)) :
    (broadcast room frame except >>= f).Leads (account c) (Standing.Law c) s := by
  refine call_leads (.targets room except) hs (fun _ _ _ => .inr hpromoted) fun cs _ => ?_
  have hannounces : announces (.call (.targets room except) fun cs => sendEach frame cs >>= f)
      = some ⟨room, except, news⟩ :=
    (announces_broadcast room frame except f).trans (by rw [hframe]; rfl)
  have hafter : s.after c (.targets room except) (fun cs => sendEach frame cs >>= f) cs
      = { s.announce ⟨room, except, news⟩ cs with told := s.told } := by
    simp [Standing.after, Standing.announce, Op.badgeAfter, hannounces, Op.news, Op.promotes,
      Op.gathered]
  change Leads (account c) (Standing.Law c) (sendEach frame cs >>= f)
    (s.after c (.targets room except) (fun cs => sendEach frame cs >>= f) cs)
  rw [hafter]
  have hfair : (s.announce ⟨room, except, news⟩ cs).Fair c := (hlaw cs).fair
  have howed : (s.announce ⟨room, except, news⟩ cs).owed
      = s.told ++ cs.map (fun d => (d, news)) := by
    rw [htold]
    rfl
  exact sendEach_leads hframe cs ⟨hfair.ordered, hfair.justified, ⟨_, howed.symm⟩⟩ hpromoted howed
    (hf cs)

/-- A broadcast that brings no news. -/
lemma relay_leads {frame : Frame Str} (hframe : frame.news = none) (room : Str)
    (except : Option Conn) (hs : s.Law c) (hpromoted : s.promoted = true) :
    (broadcast room frame except).Leads (account c) (Standing.Law c) s := by
  rw [← bind_ret (broadcast room frame except)]
  refine call_leads (.targets room except) hs.fair (fun _ _ _ => .inr hpromoted) fun cs _ => ?_
  have hannounces : announces (.call (.targets room except) fun cs => sendEach frame cs >>= .ret)
      = none :=
    (announces_broadcast room frame except .ret).trans (by rw [hframe]; rfl)
  have hafter : s.after c (.targets room except) (fun cs => sendEach frame cs >>= .ret) cs = s := by
    simp [Standing.after, Op.badgeAfter, hannounces, Op.news, Op.promotes]
  change Leads (account c) (Standing.Law c) (sendEach frame cs >>= .ret)
    (s.after c (.targets room except) (fun cs => sendEach frame cs >>= .ret) cs)
  rw [hafter, bind_ret]
  refine inert_leads (P := fun o => ∃ d, o = Op.sendText d frame) ?_
    (sendEach_only (fun d => ⟨d, rfl⟩) cs) (fun _ _ _ _ _ => .inr hpromoted) hs
  rintro _ ⟨d, rfl⟩
  exact hframe

/-! ## The callbacks -/

/-- Opening a connection that has never been opened. -/
lemma onopen_leads (room : Option Str) (hs : s = ⟨none, [], [], [], none, false⟩) :
    (onopen c room).Leads (account c) (Standing.Law c) s := by
  have hlaw : s.Law c := by
    subst hs
    exact ⟨.inl ⟨rfl, by simp⟩, rfl⟩
  refine .ite (fun _ => hlaw) fun _ => step_leads (o := .randomBytes 8) trivial hlaw.fair ?_
  refine fun bytes _ => ⟨⟨hlaw.fair, by simp [Op.outgoing]⟩, fun _ s' h => ?_⟩
  obtain ⟨-, rfl⟩ := h
  subst hs
  simp [Leads, Standing.Law, Standing.Accords, Standing.after, Op.badgeAfter, announces, Op.news]

/-- A closing. -/
lemma onclose_leads (hs : s.Law c) :
    (onclose c).Leads (account c) (Standing.Law c) s.closed := by
  obtain ⟨b, announcements, owed, told, closing, promoted⟩ := s
  refine call_leads (.onWsClose c) hs.fair_closed (by simp [Op.outgoing]) fun peer htells => ?_
  obtain ⟨haccords, htold⟩ := hs
  obtain rfl : told = owed := htold
  have hpeer : Option.map Peer.badge peer = b := htells rfl
  have hafter : ∀ k, (Standing.mk b announcements told told closing promoted).closed.after c
      (.onWsClose c) k peer
        = ⟨none, announcements, told, told, some (closing.getD (membership b)), promoted⟩ := by
    intro k
    simp [Standing.after, Standing.closed, Op.badgeAfter, announces, Op.news, Op.promotes]
  rw [hafter]
  cases peer with
  | none =>
      obtain rfl : b = none := hpeer.symm
      refine ⟨?_, rfl⟩
      rcases haccords with ⟨hnone, hclosing⟩ | ⟨room, peerId, hboth, hclosing, hpromoted⟩
      · refine .inl ⟨hnone, fun m h => ?_⟩
        cases closing with
        | none => simp [membership] at h
        | some found => exact hclosing m (by simpa using h)
      · obtain rfl : closing = some (some (room, peerId)) := hclosing
        exact .inr ⟨room, peerId, hboth, rfl, hpromoted⟩
  | some p =>
      obtain rfl : b = some p.badge := hpeer.symm
      cases hp : p.joined with
      | false =>
          have hbadge : p.badge = (p.roomId, none) := by simp [Peer.badge, hp]
          simp only [Standing.Accords, hbadge] at haccords
          obtain ⟨rfl, rfl⟩ := haccords
          have hlaw : (⟨none, [], told, told, some none, promoted⟩ : Standing).Law c :=
            ⟨.inl ⟨rfl, by simp⟩, rfl⟩
          simpa [Leads, hp, hbadge, membership] using hlaw
      | true =>
          have hbadge : p.badge = (p.roomId, some p.peerId) := by simp [Peer.badge, hp]
          simp only [Standing.Accords, hbadge] at haccords
          obtain ⟨rfl, rfl, rfl⟩ := haccords
          have hstart : (⟨none, [⟨p.roomId, some c, .join p.peerId⟩], told, told,
              some (some (p.roomId, p.peerId)), true⟩ : Standing).Fair c :=
            Standing.fair_of_join rfl (List.prefix_refl _)
          have hlaw : ∀ cs, ((⟨none, [⟨p.roomId, some c, .join p.peerId⟩], told, told,
              some (some (p.roomId, p.peerId)), true⟩ : Standing).announce
                ⟨p.roomId, none, .leave p.peerId⟩ cs).Law c :=
            fun cs => ⟨.inr ⟨p.roomId, p.peerId, rfl, rfl, rfl⟩, rfl⟩
          have hleft := announcement_leads (.peerLeave p.peerId) (f := .ret) rfl hstart rfl
            rfl hlaw hlaw
          rw [bind_ret] at hleft
          simpa [hp, hbadge, membership] using hleft

/-- The promotion of a connection that has not joined, and its announcement. -/
lemma finalizeJoin_leads (hs : s.Law c) (peer : Peer) (hb : s.badge = some (peer.roomId, none))
    (token : Str) (isFresh : Bool) :
    (finalizeJoin c peer token isFresh).Leads (account c) (Standing.Law c) s := by
  have hstart : s.Fair c := hs.fair
  obtain ⟨b, announcements, owed, told, closing, promoted⟩ := s
  obtain ⟨haccords, htold⟩ := hs
  obtain rfl : told = owed := htold
  obtain rfl : b = some (peer.roomId, none) := hb
  obtain ⟨rfl, rfl⟩ : announcements = [] ∧ closing = none := haccords
  refine call_leads (.markPeerJoined c _) hstart (by simp [Op.outgoing]) fun r _ => ?_
  have hafter : ∀ k, (Standing.mk (some (peer.roomId, none)) [] told told none promoted).after c
      (.markPeerJoined c (peerIdFromToken token)) k r
        = ⟨some (peer.roomId, some (peerIdFromToken token)), [], told, told, none, true⟩ := by
    intro k
    simp [Standing.after, Op.badgeAfter, announces, Op.news, Op.promotes]
  rw [hafter]
  have hfair : (⟨some (peer.roomId, some (peerIdFromToken token)), [], told, told, none, true⟩ :
      Standing).Fair c := Standing.fair_of_nil rfl (List.prefix_refl _)
  refine step_leads (o := .findRoom _) trivial hfair fun roomRow _ => ?_
  refine step_leads (o := .recentMessages _) trivial hfair fun history _ => ?_
  refine step_leads (o := .joinedPeerIds _) trivial hfair fun members _ => ?_
  refine step_leads (o := .sendText c _) ⟨rfl, rfl⟩ hfair fun _ _ => ?_
  have hlaw : ∀ cs, ((⟨some (peer.roomId, some (peerIdFromToken token)), [], told, told, none,
      true⟩ : Standing).announce ⟨peer.roomId, some c, .join (peerIdFromToken token)⟩ cs).Law c :=
    fun cs => ⟨⟨rfl, rfl, rfl⟩, rfl⟩
  refine announcement_leads (.peerJoin _) rfl hfair rfl rfl hlaw fun cs => ?_
  exact discreet_leads (.perform trivial) (hlaw cs)

lemma sendErrAndClose_leads (hs : s.Law c) (e : WsError) :
    (sendErrAndClose c e).Leads (account c) (Standing.Law c) s :=
  discreet_leads (.step ⟨rfl, rfl⟩ fun _ => .perform rfl) hs

/-- A frame of a connection that has not joined. -/
lemma unjoined_leads (hs : s.Law c) (peer : Peer) (hb : s.badge = some (peer.roomId, none))
    (j : Json) (type : Str) :
    (unjoined c peer j type).Leads (account c) (Standing.Law c) s := by
  unfold unjoined
  refine .ite (fun _ => .ofExcept hs fun token _ => .ite (fun _ => ?_) fun _ => ?_) fun _ =>
    .ite (fun _ => .ofExcept hs fun answer _ => ?_) fun _ => sendErrAndClose_leads hs _
  · refine step_leads (o := .roomForToken token) trivial hs.fair fun owner _ => ?_
    exact .ite (fun _ => finalizeJoin_leads hs peer hb token false) fun _ => sendErrAndClose_leads hs _
  · refine discreet_leads ?_ hs
    exact helloWithoutToken_only (fun _ => trivial) (fun _ => trivial) (fun _ => trivial)
      (fun _ => trivial) (fun _ _ => trivial) (fun _ _ => ⟨rfl, rfl⟩) peer
  · refine .ite (fun _ => sendErrAndClose_leads hs _) fun _ => ?_
    refine step_leads (o := .setPending c [] []) trivial hs.fair fun _ _ => ?_
    refine .ite (fun _ => sendErrAndClose_leads hs _) fun _ => ?_
    refine step_leads (o := .insertAccessToken _ _) trivial hs.fair fun inserted _ => ?_
    exact .ite (fun _ => finalizeJoin_leads hs peer hb _ true) fun _ => sendErrAndClose_leads hs _

/-- A frame of a connection that has joined. -/
lemma joined_leads (hs : s.Law c) (hpromoted : s.promoted = true) (cfg : Config) (peer : Peer)
    (j : Json) (type : Str) :
    (joined cfg id c peer j type).Leads (account c) (Standing.Law c) s := by
  have hsend : ∀ e, (sendErr c e).Leads (account c) (Standing.Law c) s := fun e =>
    discreet_leads (.perform ⟨rfl, rfl⟩) hs
  unfold joined
  refine .ite (fun _ => .ofExcept hs fun payload _ => ?_) fun _ => .ite (fun _ => ?_) fun _ => hsend _
  · refine .ite (fun _ => hsend _) fun _ => .ite (fun _ => hsend _) fun _ => .ite (fun _ => ?_) fun _ => ?_
    · refine step_leads (o := .appendCachedMessage _ _ _ _) trivial hs.fair fun _ _ => ?_
      refine step_leads (o := .touchRoom _) trivial hs.fair fun _ _ => ?_
      exact step_leads (o := .nowSeconds) trivial hs.fair fun ts _ =>
        relay_leads rfl _ _ hs hpromoted
    · exact step_leads (o := .nowSeconds) trivial hs.fair fun ts _ =>
        relay_leads rfl _ _ hs hpromoted
  · exact discreet_leads (.perform ⟨rfl, rfl⟩) hs

/-- A frame. -/
lemma onmessage_leads (hs : s.Law c) (cfg : Config) (data : Inbound) :
    (onmessage cfg id c data).Leads (account c) (Standing.Law c) s := by
  unfold onmessage
  refine .ite (fun _ => discreet_leads (.perform rfl) hs) fun _ => ?_
  refine step_leads (o := .findByConn c) trivial hs.fair fun peer htells => ?_
  have hpeer : Option.map Peer.badge peer = s.badge := htells rfl
  cases peer with
  | none => exact discreet_leads (.perform rfl) hs
  | some peer =>
      cases data.json with
      | none => exact discreet_leads (.perform ⟨rfl, rfl⟩) hs
      | some j =>
          refine .ofExcept hs fun hasType _ => .ite (fun _ => ?_) fun _ =>
            discreet_leads (.perform ⟨rfl, rfl⟩) hs
          refine .ofExcept hs fun v _ => .ofExcept hs fun type _ => .ite (fun hjoined => ?_) fun hout => ?_
          · have hb : s.badge = some (peer.roomId, some peer.peerId) := by
              simp [← hpeer, Peer.badge, hjoined]
            have hpromoted : s.promoted = true := by
              have haccords := hs.1
              simp only [Standing.Accords, hb] at haccords
              exact haccords.2.2
            exact joined_leads hs hpromoted cfg peer j type
          · have hb : s.badge = some (peer.roomId, none) := by simp [← hpeer, Peer.badge, hout]
            exact unjoined_leads hs peer hb j type

end Callbacks

/-! ## Every run -/

section Run

variable {cfg : Config} {secret : List UInt8} {db : Database} {clock : ℤ}
variable {ok : List (server cfg secret).Transition → (server cfg secret).Transition → Prop}
variable {h : List (server cfg secret).Transition} {conf conf' : State} {c : Conn}

/-- The standing of a connection in a run. -/
def standing (c : Conn) (h : List (server cfg secret).Transition) (conf : State) : Standing :=
  ⟨badge c conf.world, announcements (.ws c) h, owed (.ws c) h, told (.ws c) h, firstClosing c h,
    promoted c h⟩

lemma announcements_snoc (t : Task) (h : List (server cfg secret).Transition)
    (m : (server cfg secret).Transition) :
    announcements t (h ++ [m]) = announcements t h ++ (announced t m).toList := by
  rw [announcements, List.filterMap_append]
  cases hm : announced t m <;> simp [announcements, hm]

lemma owed_snoc (t : Task) (h : List (server cfg secret).Transition)
    (m : (server cfg secret).Transition) : owed t (h ++ [m]) = owed t h ++
      (announced t m).toList.flatMap fun a =>
        (a.recipients m.pre.world).map fun d => (d, a.news) := by
  rw [owed, List.flatMap_append, List.flatMap_singleton]
  rfl

lemma told_snoc (t : Task) (h : List (server cfg secret).Transition)
    (m : (server cfg secret).Transition) : told t (h ++ [m]) = told t h ++
      (m.called (M := server cfg secret) t).toList.filterMap fun e => Op.news e.1 := by
  rw [told, told, calls, calls, List.filterMap_append, List.filterMap_append]
  cases hm : m.called (M := server cfg secret) t <;> simp [hm]

lemma announced_of_not_isOf {t : Task} {m : (server cfg secret).Transition}
    (hm : ¬ m.label.IsOf t) : announced t m = none := by
  obtain ⟨conf, l, conf'⟩ := m
  cases l with
  | advance u x => exact if_neg hm
  | _ => rfl

lemma firstClosing_snoc (c : Conn) (h : List (server cfg secret).Transition)
    (m : (server cfg secret).Transition) : firstClosing c (h ++ [m]) =
      if isClosing c m then some ((firstClosing c h).getD (membership (badge c m.pre.world)))
      else firstClosing c h := by
  rw [firstClosing, firstClosing, List.find?_append]
  cases hfind : h.find? (isClosing c) <;> cases hm : isClosing c m <;> simp [hm]

lemma isClosing_iff {m : (server cfg secret).Transition} :
    isClosing c m = true ↔ m.label = .start (.ws c) .closed := by
  obtain ⟨conf, l, conf'⟩ := m
  unfold isClosing
  split
  · rename_i d hl
    obtain rfl : l = .start (.ws d) .closed := hl
    simp
  · rename_i hno
    simpa using hno c

lemma promoted_append (c : Conn) (h h' : List (server cfg secret).Transition) :
    promoted c (h ++ h') = (promoted c h || promoted c h') := by
  simp only [promoted, calls, List.filterMap_append, List.any_append]

lemma promoted_snoc (c : Conn) (h : List (server cfg secret).Transition)
    (m : (server cfg secret).Transition) : promoted c (h ++ [m]) =
      (promoted c h || (m.called (M := server cfg secret) (.ws c)).any fun e => e.1.promotes) := by
  rw [promoted_append]
  cases hm : m.called (M := server cfg secret) (.ws c) <;> simp [promoted, calls, hm]

/-- A callback starts. -/
lemma standing_start {t : Task} {i : Input} (hs : step (M := server cfg secret) conf (.start t i)
    = some conf') : standing c (h ++ [⟨conf, .start t i, conf'⟩]) conf' =
      if isClosing c (⟨conf, .start t i, conf'⟩ : (server cfg secret).Transition)
      then (standing c h conf).closed else standing c h conf := by
  obtain ⟨-, -, rfl⟩ := step_start (M := server cfg secret) hs
  rw [standing, announcements_snoc, owed_snoc, told_snoc, firstClosing_snoc, promoted_snoc]
  have hcalled : ∀ conf', (⟨conf, .start t i, conf'⟩ : (server cfg secret).Transition).called
      (M := server cfg secret) (.ws c) = none := fun _ => rfl
  split <;> simp [standing, Standing.closed, announced, hcalled]

/-- An announcement is owed to those whom its broadcast collects. -/
lemma owed_announces {o : Op Str} {k : o.Res → Handler Str Unit} (x : Choice) (w : World Str) :
    ((announces (.call o k)).toList.flatMap fun a =>
        (a.recipients w).map fun d => (d, a.news))
      = (announces (.call o k)).toList.flatMap fun a =>
        (o.gathered (exec o x w).1).map fun d => (d, a.news) := by
  cases o with
  | targets room except =>
      cases ha : announces (.call (.targets room except) k) with
      | none => rfl
      | some a =>
          obtain ⟨rfl, rfl⟩ : a.room = room ∧ a.except = except := by
            unfold announces at ha
            dsimp only at ha
            split at ha
            · obtain ⟨news, -, rfl⟩ := Option.map_eq_some_iff.mp ha
              exact ⟨rfl, rfl⟩
            · cases ha
          rfl
  | _ => rfl

/-- A callback performs a call. -/
lemma standing_advance {x : Choice} {o : Op Str} {k : o.Res → Handler Str Unit}
    (ht : conf.task (.ws c) = some (.call (S := signature Str) o k)) (conf' : State)
    (hw : conf'.world = (exec o x conf.world).2) :
    (account c).step o k (exec o x conf.world).1 (standing c h conf)
      (standing c (h ++ [(⟨conf, .advance (.ws c) x, conf'⟩ : (server cfg secret).Transition)])
        conf') := by
  refine ⟨tells_exec c o x conf.world, ?_⟩
  have hannounced : announced (.ws c) (⟨conf, .advance (.ws c) x, conf'⟩ :
      (server cfg secret).Transition) = announces (.call o k) := by
    simp [announced, ht]
  have hnews : ((some ⟨o, (exec o x conf.world).1⟩ : Option (Σ o : Op Str, o.Res)).toList.filterMap
      fun e => Op.news e.1) = o.news.toList := by
    cases hn : o.news <;> simp [hn]
  rw [standing, announcements_snoc, owed_snoc, told_snoc, firstClosing_snoc, promoted_snoc,
    hannounced, called_advance (M := server cfg secret) ht, hw, badge_exec, owed_announces x]
  simp only [Standing.after, standing, isClosing, Bool.false_eq_true, if_false, Option.any_some]
  rw [← hnews]

/-- What another task does is nothing to a connection. -/
lemma standing_other (hr : Run (M := server cfg secret) ok (boot db clock) h conf)
    {l : (server cfg secret).Label} (hs : step conf l = some conf') (hl : ¬ l.IsOf (Task.ws c)) :
    standing c (h ++ [⟨conf, l, conf'⟩]) conf' = standing c h conf := by
  have hcloses : ¬ isClosing c (⟨conf, l, conf'⟩ : (server cfg secret).Transition) = true := by
    intro hm
    obtain rfl : l = .start (.ws c) .closed := isClosing_iff.mp hm
    exact hl rfl
  have hcalled : (⟨conf, l, conf'⟩ : (server cfg secret).Transition).called
      (M := server cfg secret) (.ws c) = none := called_of_not_isOf hl
  rw [standing, announcements_snoc, owed_snoc, told_snoc, firstClosing_snoc, promoted_snoc,
    if_neg hcloses, hcalled, announced_of_not_isOf hl, badge, peers_of_not_isOf hr hs hl]
  simp [standing, badge]

/-- A connection that has not been opened yet. -/
lemma standing_unopened (hr : Run (M := server cfg secret) ok (boot db clock) h conf)
    (hc : conf.task (.ws c) = none) : standing c h conf = ⟨none, [], [], [], none, false⟩ := by
  have hno := hr.not_isOf_of_none hc
  have hannouncements : announcements (.ws c) h = [] :=
    List.filterMap_eq_nil_iff.mpr fun m hm => announced_of_not_isOf (hno m hm)
  have howed : owed (.ws c) h = [] :=
    List.flatMap_eq_nil_iff.mpr fun m hm => by rw [announced_of_not_isOf (hno m hm)]; rfl
  have hclosing : h.find? (isClosing c) = none := by
    refine List.find?_eq_none.mpr fun m hm hcloses => hno m hm ?_
    rw [isClosing_iff.mp hcloses]
    rfl
  rw [standing, badge, peers_of_unopened hr hc, hannouncements, howed, told, firstClosing, hclosing,
    promoted, hr.calls_of_none hc]
  rfl

/-- The law of a connection holds between its callbacks, and in their midst they lead to it. -/
theorem standing_lawful (hr : Run (M := server cfg secret) ok (boot db clock) h conf) (c : Conn) :
    Follows (M := server cfg secret) (account c) (Standing.Law c) (conf.task (.ws c))
      (standing c h conf) := by
  refine hr.accounted (M := server cfg secret) (.ws c) (standing c) ?_ ?_ ?_ ?_
  · exact ⟨.inl ⟨rfl, by simp [standing, firstClosing]⟩, rfl⟩
  · intro h conf i conf' hr hs hlaw
    rw [standing_start hs]
    cases i with
    | opened room =>
        have hc : conf.task (.ws c) = none := by
          simpa [admits] using (step_start (M := server cfg secret) hs).2.1
        exact onopen_leads room (standing_unopened hr hc)
    | message data => exact onmessage_leads hlaw cfg data
    | closed =>
        rw [if_pos (by simp [isClosing])]
        exact onclose_leads hlaw
    | _ => exact hlaw
  · intro h conf x conf' o k hr hs ht _
    refine standing_advance ht conf' ?_
    rw [step_of_call (M := server cfg secret) ht] at hs
    rw [← Option.some.inj hs]
    rfl
  · exact fun h conf l conf' hr hs hl => standing_other hr hs hl

/-- What has been announced is fair at any time, also in the midst of a callback. -/
theorem standing_fair (hr : Run (M := server cfg secret) ok (boot db clock) h conf) (c : Conn) :
    (standing c h conf).Fair c := by
  have hlawful := standing_lawful hr c
  cases ht : conf.task (.ws c) with
  | none =>
      rw [ht] at hlawful
      exact Standing.Law.fair hlawful
  | some p =>
      rw [ht] at hlawful
      cases p with
      | call o k => exact hlawful.1.1
      | _ => exact Standing.Law.fair hlawful

/-- A task that is no connection broadcasts nothing. -/
lemma announces_of_http {t : Task} (ht : ∀ c, t ≠ .ws c) {p : Handler Str Unit}
    (hp : p.Only (Op.Of t)) : announces p = none := by
  cases p with
  | call o k =>
      have ho : o.OfHttp := by
        cases t with
        | ws c => exact absurd rfl (ht c)
        | http n => exact hp.1
        | purger => exact hp.1
      cases o with
      | targets r except => exact ho.elim
      | _ => rfl
  | _ => rfl

/-- The balance of a connection in a run. -/
structure Balanced (c : Conn) (h : List (server cfg secret).Transition) (conf : State) : Prop where
  /-- At most one join and one leaving, of one room, under one peer id and in this order. -/
  ordered : ∃ room peerId, announcements (.ws c) h <+: lifetime c room peerId
  /-- A leaving only if the first close callback found the connection joined there. -/
  justified : ∀ room except peerId, ⟨room, except, .leave peerId⟩ ∈ announcements (.ws c) h →
    firstClosing c h = some (some (room, peerId))
  /-- If it did, then both have been announced when the callbacks have returned. -/
  complete : ∀ room peerId, firstClosing c h = some (some (room, peerId)) →
    idle (conf.task (.ws c)) = true → announcements (.ws c) h = lifetime c room peerId
  /-- While the connection is registered and none of its callbacks is running, its join to its room
  has been announced if it has joined, and nothing otherwise. -/
  registered : ∀ p, conf.world.mgr.peers c = some p → idle (conf.task (.ws c)) = true →
    announcements (.ws c) h = if p.joined then [⟨p.roomId, some c, .join p.peerId⟩] else []
  /-- What is sent is what has been announced, to each recipient once, and nothing is left out. -/
  sent : told (.ws c) h <+: owed (.ws c) h ∧
    (idle (conf.task (.ws c)) = true → told (.ws c) h = owed (.ws c) h)
  /-- The recipients of an announcement are the joined connections of its room, but for the one
  that has just joined. -/
  audience : ∀ m ∈ h, ∀ a, announced (.ws c) m = some a →
    (a.recipients m.pre.world).Nodup ∧ ∀ d, d ∈ a.recipients m.pre.world ↔
      m.pre.world.mgr.joinedIn a.room d = true ∧ some d ≠ a.except
  /-- Before the connection is promoted, its callbacks address nobody else. -/
  discreet : promoted c h = false → ∀ m ∈ h, ∀ o r, m.Calls (M := server cfg secret) (.ws c) o r →
    ∀ d out, o.outgoing = some (d, out) → d = c

/-- What the first closing found has been announced by the time the callbacks have returned. -/
lemma Standing.Law.complete {s : Standing} (h : s.Law c) {room peerId : Str}
    (hfound : s.closing = some (some (room, peerId))) :
    s.announcements = lifetime c room peerId := by
  have haccords := h.1
  unfold Standing.Accords at haccords
  split at haccords
  · rcases haccords with ⟨-, hno⟩ | ⟨room', peerId', hboth, hclosing, -⟩
    · exact absurd hfound (hno _)
    · obtain ⟨rfl, rfl⟩ : room' = room ∧ peerId' = peerId := by
        simpa [hfound] using hclosing.symm
      exact hboth
  · simp [hfound] at haccords
  · simp [hfound] at haccords

/-- What a registered connection has announced between its callbacks. -/
lemma Standing.Law.registered {s : Standing} (h : s.Law c) {p : Peer}
    (hb : s.badge = some p.badge) :
    s.announcements = if p.joined then [⟨p.roomId, some c, .join p.peerId⟩] else [] := by
  have haccords := h.1
  cases hj : p.joined with
  | false =>
      have hbadge : s.badge = some (p.roomId, none) := by simp [hb, Peer.badge, hj]
      simp only [Standing.Accords, hbadge] at haccords
      exact haccords.1
  | true =>
      have hbadge : s.badge = some (p.roomId, some p.peerId) := by simp [hb, Peer.badge, hj]
      simp only [Standing.Accords, hbadge] at haccords
      exact haccords.1

/-- **Join and leave events are balanced.**  In every run, for every connection; and no other task
announces anything. -/
theorem membership_balanced (hr : Run (M := server cfg secret) ok (boot db clock) h conf) :
    (∀ c, Balanced c h conf) ∧ ∀ t : Task, (∀ c, t ≠ .ws c) → announcements t h = [] := by
  refine ⟨fun c => ?_, ?_⟩
  · have hfair := standing_fair hr c
    refine ⟨hfair.ordered, hfair.justified, ?_, ?_, ⟨hfair.told_prefix, ?_⟩, ?_, ?_⟩
    · exact fun room peerId hfound hidle => ((standing_lawful hr c).of_idle hidle).complete hfound
    · intro p hp hidle
      exact ((standing_lawful hr c).of_idle hidle).registered (by simp [standing, badge, hp])
    · exact fun hidle => ((standing_lawful hr c).of_idle hidle).2
    · intro m hm a _
      obtain ⟨h₁, h₂, rfl⟩ := List.append_of_mem hm
      obtain ⟨hr₁, -, -⟩ := hr.of_append
      have hconsistent := registry_consistent hr₁
      exact ⟨hconsistent.nodup_targets _ _, fun d => hconsistent.mem_targets_iff⟩
    · intro hnever m hm o r hcall d out hout
      obtain ⟨h₁, h₂, rfl⟩ := List.append_of_mem hm
      obtain ⟨hr₁, -, -⟩ := hr.of_append
      obtain ⟨x, k, -, ht, -⟩ := hcall
      rcases ((standing_lawful hr₁ c).pre ht).2 d out hout with hd | hpromoted
      · exact hd
      · have hpromoted : promoted c h₁ = true := hpromoted
        rw [promoted_append, hpromoted, Bool.true_or] at hnever
        cases hnever
  · intro t ht
    refine List.filterMap_eq_nil_iff.mpr fun m hm => ?_
    obtain ⟨h₁, h₂, rfl⟩ := List.append_of_mem hm
    obtain ⟨hr₁, -, -⟩ := hr.of_append
    obtain ⟨conf₁, l, conf₂⟩ := m
    cases l with
    | advance u x =>
        by_cases hu : u = t
        · subst hu
          cases hp : conf₁.task u with
          | none => simp [announced, hp]
          | some p => simp [announced, hp, announces_of_http ht (task_only hr₁ hp)]
        · exact if_neg hu
    | _ => rfl

end Run

/-- The connection of a second client is closed twice. -/
def Sample.closesTwice : Script (M := server {} Sample.secret)
    (boot (Sample.store 2 [] [Sample.token, ascii "another token"]) 0) (fun _ _ => true)
    (fun h _ => (told (.ws 1) h).map Prod.fst = [0, 0] && ((firstClosing 1 h).join.isSome &&
      (h.filter (isClosing 1)).length = 2)) where
  labels := Sample.opening 0 ++ Sample.joining 0 Sample.token 9
    ++ Sample.opening 1 ++ Sample.joining 1 (ascii "another token") 10
    ++ Sample.handle (.ws 1) .closed 3 ++ Sample.handle (.ws 1) .closed 1
  performed := by decide +kernel

/-- A second client joins the sample room and its connection is closed twice: the first client gets
one frame for each. -/
theorem membership_balanced_sample : ∃ (h : List (server {} Sample.secret).Transition) (conf : State),
    ((told (.ws 1) h).map Prod.fst = [0, 0] ∧ ((firstClosing 1 h).join.isSome = true ∧
      (h.filter (isClosing 1)).length = 2)) ∧ Balanced 1 h conf := by
  obtain ⟨h, conf, hr, hend⟩ := Sample.closesTwice.exists_run fun _ _ _ _ => trivial
  have hend : (told (.ws 1) h).map Prod.fst = [0, 0] ∧ ((firstClosing 1 h).join.isSome = true ∧
      (h.filter (isClosing 1)).length = 2) := by simpa using hend
  have hrun : Run (M := server {} Sample.secret) anyStep
      (boot (Sample.store 2 [] [Sample.token, ascii "another token"]) 0) h conf := hr
  exact ⟨h, conf, hend, (membership_balanced hrun).1 1⟩

end HashHush
