import HashHush.Util.Text

/-!
# The room manager

The in-memory registry of `room.cpp`: which connections are open, which room each belongs to,
and the ring buffer of recent messages of every room.  Each member function takes the mutex
`mu_`, and the functions here are those critical sections; what `broadcast`, `closeRoom` and
`onWsClose` do after releasing it is in `Handlers.lean`.

A connection is a number that stands for the address of its `Connection` object.  The payload
of a message is a parameter `π`: the manager stores payloads and returns them, and never looks
inside one.  An `unordered_set` of connections is a duplicate-free list in insertion order.

`Consistent` is the invariant that ties the two maps together; the registry operations keep it
(`Consistent.onWsAccept`, `Consistent.onWsClose`, `Consistent.modify`).
-/

namespace HashHush

/-- A connection object. -/
abbrev Conn := ℕ

/-- One open connection. -/
structure Peer where
  peerId : Str
  roomId : Str
  /-- The connection has passed the challenge or the token check. -/
  joined : Bool := false
  /-- The token to issue once the challenge is answered. -/
  pendingToken : Str := []
  /-- The plaintext the server expects back. -/
  expectedPlaintext : Str := []
  deriving DecidableEq

/-- One cached encrypted message. -/
structure CachedMessage (π : Type) where
  senderPeerId : Str
  payloadB64 : π
  createdAt : ℤ

/-- The maps of `RoomManager`. -/
structure RoomManager (π : Type) where
  peers : Conn → Option Peer
  byRoom : Str → Option (List Conn)
  msgCache : Str → Option (List (CachedMessage π))

namespace RoomManager

variable {π : Type}

/-- The manager when the server starts. -/
def empty : RoomManager π := ⟨fun _ => none, fun _ => none, fun _ => none⟩

variable (m : RoomManager π)

/-- The connections registered for a room. -/
def connsOf (roomId : Str) : List Conn := (m.byRoom roomId).getD []

/-- The connection is registered and its peer has joined. -/
def isJoined (c : Conn) : Bool := (m.peers c).any Peer.joined

/-- `onWsAccept`: register a connection under a fresh random peer id.  `emplace` leaves an
entry alone that is already there. -/
def onWsAccept (c : Conn) (roomId peerId : Str) : RoomManager π :=
  { m with
    byRoom := Function.update m.byRoom roomId (some ((m.connsOf roomId).insert c))
    peers := match m.peers c with
      | some _ => m.peers
      | none => Function.update m.peers c (some { peerId, roomId }) }

/-- The critical section of `onWsClose`: forget the connection and return its peer. -/
def onWsClose (c : Conn) : Option Peer × RoomManager π :=
  match m.peers c with
  | none => (none, m)
  | some p =>
      let left := (m.connsOf p.roomId).erase c
      (some p, { m with
        byRoom := match m.byRoom p.roomId with
          | none => m.byRoom
          | some _ => Function.update m.byRoom p.roomId (if left = [] then none else some left)
        peers := Function.update m.peers c none })

/-- `findByConn`.  The source returns a pointer, and only the handlers of the connection itself
write through it. -/
def findByConn (c : Conn) : Option Peer := m.peers c

/-- Change the record of one registered connection. -/
def modify (c : Conn) (f : Peer → Peer) : RoomManager π :=
  { m with peers := Function.update m.peers c ((m.peers c).map f) }

/-- `markPeerJoined`: stamp the peer id and promote the peer, if it is still registered. -/
def markPeerJoined (c : Conn) (peerId : Str) : RoomManager π :=
  m.modify c fun p => { p with peerId, joined := true }

/-- The assignments `peer->pendingToken = …` and `peer->expectedPlaintext = …`. -/
def setPending (c : Conn) (pendingToken expectedPlaintext : Str) : RoomManager π :=
  m.modify c fun p => { p with pendingToken, expectedPlaintext }

/-- `liveCount`: the joined peers of a room. -/
def liveCount (roomId : Str) : ℤ := ((m.connsOf roomId).filter m.isJoined).length

/-- The critical section of `broadcast`: the joined peers of the room but one. -/
def targets (roomId : Str) (except : Option Conn) : List Conn :=
  (m.connsOf roomId).filter fun c => some c ≠ except && m.isJoined c

/-- The critical section of `closeRoom`: collect every connection of the room and forget its
messages. -/
def closeRoom (roomId : Str) : List Conn × RoomManager π :=
  (m.connsOf roomId, { m with msgCache := Function.update m.msgCache roomId none })

/-- The loop of `appendCachedMessage`: pop from the front as long as the number of messages, cast
to `int`, is above `cacheSize`. -/
def evict (cacheSize : ℤ) : List (CachedMessage π) → List (CachedMessage π)
  | [] => []
  | m :: dq => if castInt (dq.length + 1) > cacheSize then evict cacheSize dq else m :: dq

/-- `appendCachedMessage`: push to the back and pop from the front. -/
def appendCachedMessage (roomId senderPeerId : Str) (payloadB64 : π) (cacheSize now : ℤ) :
    RoomManager π :=
  if cacheSize ≤ 0 then m
  else
    let dq := (m.msgCache roomId).getD [] ++ [⟨senderPeerId, payloadB64, now⟩]
    { m with msgCache := Function.update m.msgCache roomId (some (evict cacheSize dq)) }

/-- `recentMessages`. -/
def recentMessages (roomId : Str) : List (CachedMessage π) := (m.msgCache roomId).getD []

/-- `dropMessageCache`. -/
def dropMessageCache (roomId : Str) : RoomManager π :=
  { m with msgCache := Function.update m.msgCache roomId none }

/-- `joinedPeerIds`. -/
def joinedPeerIds (roomId : Str) : List Str :=
  (m.connsOf roomId).filterMap fun c => ((m.peers c).filter Peer.joined).map Peer.peerId

/-! ## What the operations change -/

@[simp] lemma connsOf_modify (c : Conn) (f : Peer → Peer) (r : Str) :
    (m.modify c f).connsOf r = m.connsOf r := rfl

lemma peers_modify (c : Conn) (f : Peer → Peer) (e : Conn) :
    (m.modify c f).peers e = if e = c then (m.peers c).map f else m.peers e := by
  by_cases h : e = c <;> simp [modify, h]

@[simp] lemma peers_closeRoom (r : Str) : (m.closeRoom r).2.peers = m.peers := rfl

@[simp] lemma connsOf_closeRoom (r s : Str) : (m.closeRoom r).2.connsOf s = m.connsOf s := rfl

@[simp] lemma peers_appendCachedMessage (r s : Str) (p : π) (n now : ℤ) :
    (m.appendCachedMessage r s p n now).peers = m.peers := by
  unfold appendCachedMessage
  split <;> rfl

@[simp] lemma byRoom_appendCachedMessage (r s : Str) (p : π) (n now : ℤ) :
    (m.appendCachedMessage r s p n now).byRoom = m.byRoom := by
  unfold appendCachedMessage
  split <;> rfl

@[simp] lemma connsOf_appendCachedMessage (r s : Str) (p : π) (n now : ℤ) (r' : Str) :
    (m.appendCachedMessage r s p n now).connsOf r' = m.connsOf r' := by
  simp [connsOf]

lemma msgCache_appendCachedMessage (r s : Str) (p : π) {n : ℤ} (hn : 0 < n) (now : ℤ) :
    ∃ messages, (m.appendCachedMessage r s p n now).msgCache
      = Function.update m.msgCache r (some messages) := by
  have hn : ¬ n ≤ 0 := by omega
  rw [appendCachedMessage, if_neg hn]
  exact ⟨_, rfl⟩

/-- As long as the cast is exact, the loop leaves the last `n` messages. -/
lemma evict_eq_drop {n : ℤ} (hn : 0 ≤ n) {dq : List (CachedMessage π)} (h : dq.length < 2 ^ 31) :
    evict n dq = dq.drop (dq.length - n.toNat) := by
  induction dq with
  | nil => simp [evict]
  | cons m dq ih =>
      rw [List.length_cons] at h
      have hcast : castInt (dq.length + 1) = dq.length + 1 := by
        rw [castInt_of_lt h]
        push_cast
        rfl
      rw [evict, hcast, List.length_cons]
      split
      · rw [ih (by omega), show dq.length + 1 - n.toNat = dq.length - n.toNat + 1 by omega,
          List.drop_succ_cons]
      · rw [show dq.length + 1 - n.toNat = 0 by omega, List.drop_zero]

/-- Where the cast is not above the size, nothing is popped. -/
lemma evict_of_le {n : ℤ} {dq : List (CachedMessage π)} (h : castInt dq.length ≤ n) :
    evict n dq = dq := by
  cases dq with
  | nil => rfl
  | cons m dq => exact if_neg (not_lt.mpr h)

lemma peers_onWsAccept {c : Conn} (h : m.peers c = none) (r id : Str) :
    (m.onWsAccept c r id).peers = Function.update m.peers c (some { peerId := id, roomId := r }) := by
  simp [onWsAccept, h]

lemma connsOf_onWsAccept (c : Conn) (r id : Str) (s : Str) :
    (m.onWsAccept c r id).connsOf s = if s = r then (m.connsOf r).insert c else m.connsOf s := by
  by_cases h : s = r <;> simp [onWsAccept, connsOf, h]

lemma fst_onWsClose (c : Conn) : (m.onWsClose c).1 = m.peers c := by
  unfold onWsClose
  split <;> simp_all

lemma peers_onWsClose (c : Conn) : (m.onWsClose c).2.peers = Function.update m.peers c none := by
  unfold onWsClose
  split
  · rename_i h
    rw [← h, Function.update_eq_self]
  · rfl

lemma connsOf_onWsClose {c : Conn} {p : Peer} (h : m.peers c = some p) (s : Str) :
    (m.onWsClose c).2.connsOf s
      = if s = p.roomId then (m.connsOf p.roomId).erase c else m.connsOf s := by
  unfold onWsClose
  simp only [h]
  by_cases hs : s = p.roomId
  · subst hs
    cases hb : m.byRoom p.roomId with
    | none => simp [connsOf, hb]
    | some l =>
        by_cases hl : l.erase c = [] <;> simp [connsOf, hb, hl]
  · cases hb : m.byRoom p.roomId <;> simp [connsOf, hs]

lemma mem_targets {r : Str} {except : Option Conn} {c : Conn} :
    c ∈ m.targets r except ↔ c ∈ m.connsOf r ∧ some c ≠ except ∧ m.isJoined c = true := by
  simp [targets]

/-! ## The registry invariant -/

/-- The two maps of the registry agree: a connection is listed, once, under exactly the room of
its peer, and no room keeps an empty list. -/
structure Consistent (m : RoomManager π) : Prop where
  mem_iff : ∀ r c, c ∈ m.connsOf r ↔ ∃ p, m.peers c = some p ∧ p.roomId = r
  nodup : ∀ r, (m.connsOf r).Nodup
  ne_nil : ∀ r, m.byRoom r ≠ some []

variable {m}

lemma Consistent.empty : (RoomManager.empty : RoomManager π).Consistent where
  mem_iff := by simp [RoomManager.empty, connsOf]
  nodup := by simp [RoomManager.empty, connsOf]
  ne_nil := by simp [RoomManager.empty]

/-- A new connection keeps the invariant. -/
lemma Consistent.onWsAccept (hm : m.Consistent) {c : Conn} (hc : m.peers c = none) (r id : Str) :
    (m.onWsAccept c r id).Consistent where
  mem_iff s e := by
    rw [connsOf_onWsAccept, peers_onWsAccept m hc]
    by_cases he : e = c
    · subst he
      have hnot : ∀ s, e ∉ m.connsOf s := fun s hs => by
        obtain ⟨p, hp, -⟩ := (hm.mem_iff s e).mp hs
        simp [hc] at hp
      by_cases hs : s = r
      · simp [hs]
      · simp [hs, hnot, Ne.symm hs]
    · rw [Function.update_of_ne he, ← hm.mem_iff s e]
      by_cases hs : s = r <;> simp [hs, he]
  nodup s := by
    rw [connsOf_onWsAccept]
    split
    · exact (hm.nodup r).insert
    · exact hm.nodup s
  ne_nil s := by
    by_cases hs : s = r
    · subst hs
      simp only [RoomManager.onWsAccept, Function.update_self, ne_eq, Option.some.injEq]
      exact List.ne_nil_of_mem (List.mem_insert_self (a := c))
    · simpa [RoomManager.onWsAccept, hs] using hm.ne_nil s

/-- Forgetting a connection keeps the invariant. -/
lemma Consistent.onWsClose (hm : m.Consistent) (c : Conn) : (m.onWsClose c).2.Consistent := by
  cases hc : m.peers c with
  | none =>
      have : (m.onWsClose c).2 = m := by simp [RoomManager.onWsClose, hc]
      rwa [this]
  | some p =>
      refine ⟨fun s e => ?_, fun s => ?_, fun s => ?_⟩
      · rw [connsOf_onWsClose m hc, peers_onWsClose]
        by_cases he : e = c
        · subst he
          have hnot : ∀ s, s ≠ p.roomId → e ∉ m.connsOf s := fun s hs hmem => by
            obtain ⟨q, hq, rfl⟩ := (hm.mem_iff s e).mp hmem
            exact hs (by simp_all)
          by_cases hs : s = p.roomId
          · simp [hs, (hm.nodup p.roomId).not_mem_erase]
          · simp [hs, hnot s hs]
        · rw [Function.update_of_ne he, ← hm.mem_iff s e]
          by_cases hs : s = p.roomId
          · simp [hs, List.mem_erase_of_ne he]
          · simp [hs]
      · rw [connsOf_onWsClose m hc]
        split
        · exact (hm.nodup _).erase c
        · exact hm.nodup s
      · simp only [RoomManager.onWsClose, hc]
        have hne := hm.ne_nil s
        by_cases hs : s = p.roomId
        · subst hs
          cases hb : m.byRoom p.roomId with
          | none => simp [hb]
          | some l =>
              by_cases hl : l.erase c = [] <;> simp [connsOf, hb, hl]
        · cases hb : m.byRoom p.roomId <;> simp [hs, hne]

/-- Changing a record within its room keeps the invariant. -/
lemma Consistent.modify (hm : m.Consistent) (c : Conn) {f : Peer → Peer}
    (hf : ∀ p, (f p).roomId = p.roomId) : (m.modify c f).Consistent where
  mem_iff r e := by
    rw [connsOf_modify, hm.mem_iff, peers_modify]
    by_cases he : e = c
    · subst he
      cases m.peers e <;> simp [hf]
    · simp [he]
  nodup := hm.nodup
  ne_nil := hm.ne_nil

lemma Consistent.closeRoom (hm : m.Consistent) (r : Str) : (m.closeRoom r).2.Consistent :=
  ⟨hm.mem_iff, hm.nodup, hm.ne_nil⟩

lemma Consistent.dropMessageCache (hm : m.Consistent) (r : Str) : (m.dropMessageCache r).Consistent :=
  ⟨hm.mem_iff, hm.nodup, hm.ne_nil⟩

lemma Consistent.appendCachedMessage (hm : m.Consistent) (r s : Str) (p : π) (n now : ℤ) :
    (m.appendCachedMessage r s p n now).Consistent where
  mem_iff := by simpa using hm.mem_iff
  nodup := by simpa using hm.nodup
  ne_nil := by simpa using hm.ne_nil

/-! ## The number of joined peers -/

lemma isJoined_modify (m : RoomManager π) (c : Conn) (f : Peer → Peer) {e : Conn} (h : e ≠ c) :
    (m.modify c f).isJoined e = m.isJoined e := by
  simp [isJoined, peers_modify, h]

/-- Turning one element of a duplicate-free list from false to true adds one to the count. -/
lemma countP_add_one {α : Type} {l : List α} (hl : l.Nodup) {c : α} (hc : c ∈ l) {f g : α → Bool}
    (hf : f c = false) (hg : g c = true) (hfg : ∀ e ≠ c, g e = f e) :
    l.countP g = l.countP f + 1 := by
  classical
  have hperm : l.Perm (c :: l.erase c) := List.perm_cons_erase hc
  have hrest : (l.erase c).countP g = (l.erase c).countP f := by
    refine List.countP_congr fun e he => ?_
    have hne : e ≠ c := fun h => hl.not_mem_erase (h ▸ he)
    rw [hfg e hne]
  rw [hperm.countP_eq g, hperm.countP_eq f, List.countP_cons_of_pos hg,
    List.countP_cons_of_neg (by simp [hf]), hrest]

lemma liveCount_eq (m : RoomManager π) (r : Str) :
    m.liveCount r = ((m.connsOf r).countP m.isJoined : ℕ) := by
  rw [liveCount, List.countP_eq_length_filter]

/-- Promoting an un-joined peer adds one to its room and nothing to the others. -/
lemma Consistent.liveCount_markPeerJoined (hm : m.Consistent) {c : Conn} {p : Peer}
    (hp : m.peers c = some p) (hj : p.joined = false) (id r : Str) :
    (m.markPeerJoined c id).liveCount r = m.liveCount r + if p.roomId = r then 1 else 0 := by
  have hother : ∀ e ≠ c, (m.markPeerJoined c id).isJoined e = m.isJoined e := fun e he =>
    isJoined_modify m c _ he
  have hbefore : m.isJoined c = false := by simp [isJoined, hp, hj]
  have hafter : (m.markPeerJoined c id).isJoined c = true := by
    simp [isJoined, markPeerJoined, peers_modify, hp]
  rw [liveCount_eq, liveCount_eq]
  change (((m.connsOf r).countP (m.markPeerJoined c id).isJoined : ℕ) : ℤ) = _
  by_cases hr : p.roomId = r
  · have hc : c ∈ m.connsOf r := (hm.mem_iff r c).mpr ⟨p, hp, hr⟩
    rw [countP_add_one (hm.nodup r) hc hbefore hafter hother, if_pos hr]
    push_cast
    rfl
  · have hc : c ∉ m.connsOf r := by
      intro hc
      obtain ⟨q, hq, hqr⟩ := (hm.mem_iff r c).mp hc
      have hpq : q = p := by simpa [hp] using hq.symm
      exact hr (hpq ▸ hqr)
    have hsame : (m.connsOf r).countP (m.markPeerJoined c id).isJoined
        = (m.connsOf r).countP m.isJoined := by
      refine List.countP_congr fun e he => ?_
      rw [hother e fun h => hc (h ▸ he)]
    rw [hsame, if_neg hr, add_zero]

lemma liveCount_appendCachedMessage (m : RoomManager π) (room s : Str) (p : π) (n now : ℤ)
    (r : Str) : (m.appendCachedMessage room s p n now).liveCount r = m.liveCount r := by
  have hsame : (m.appendCachedMessage room s p n now).isJoined = m.isJoined := by
    funext c
    simp [isJoined]
  rw [liveCount, liveCount, hsame, connsOf_appendCachedMessage]

lemma liveCount_setPending (m : RoomManager π) (c : Conn) (t e r : Str) :
    (m.setPending c t e).liveCount r = m.liveCount r := by
  have hsame : (m.setPending c t e).isJoined = m.isJoined := by
    funext d
    by_cases hd : d = c
    · subst hd
      cases hp : m.peers d <;> simp [isJoined, setPending, peers_modify, hp]
    · exact isJoined_modify m c _ hd
  rw [liveCount, liveCount, hsame]
  rfl

/-- A new connection has not joined. -/
lemma Consistent.liveCount_onWsAccept (hm : m.Consistent) {c : Conn} (hc : m.peers c = none)
    (room id r : Str) : (m.onWsAccept c room id).liveCount r = m.liveCount r := by
  have hnew : (m.onWsAccept c room id).isJoined c = false := by
    simp [isJoined, peers_onWsAccept m hc]
  have hother : ∀ e ≠ c, (m.onWsAccept c room id).isJoined e = m.isJoined e := by
    intro e he
    simp [isJoined, peers_onWsAccept m hc, he]
  have hnot : ∀ r, c ∉ m.connsOf r := by
    intro r hmem
    obtain ⟨p, hp, -⟩ := (hm.mem_iff r c).mp hmem
    simp [hc] at hp
  have hsame : (m.connsOf r).countP (m.onWsAccept c room id).isJoined
      = (m.connsOf r).countP m.isJoined := by
    refine List.countP_congr fun e he => ?_
    rw [hother e fun h => hnot r (h ▸ he)]
  rw [liveCount_eq, liveCount_eq, connsOf_onWsAccept]
  split
  · rename_i hr
    subst hr
    rw [List.insert_of_not_mem (hnot r), List.countP_cons_of_neg (by simp [hnew]), hsame]
  · rw [hsame]

/-- Forgetting a connection does not add to any room. -/
lemma liveCount_onWsClose_le (m : RoomManager π) (c : Conn) (r : Str) :
    (m.onWsClose c).2.liveCount r ≤ m.liveCount r := by
  cases hp : m.peers c with
  | none => simp [onWsClose, hp]
  | some p =>
      have hjoined : ∀ e, (m.onWsClose c).2.isJoined e = true → m.isJoined e = true := by
        intro e he
        by_cases hec : e = c
        · simp [isJoined, peers_onWsClose, hec] at he
        · simpa [isJoined, peers_onWsClose, hec] using he
      have hsub : ((m.onWsClose c).2.connsOf r).Sublist (m.connsOf r) := by
        rw [connsOf_onWsClose m hp]
        split
        · rename_i hr
          exact hr ▸ List.erase_sublist
        · exact List.Sublist.refl _
      rw [liveCount_eq, liveCount_eq]
      have hle : ((m.onWsClose c).2.connsOf r).countP (m.onWsClose c).2.isJoined
          ≤ (m.connsOf r).countP m.isJoined :=
        le_trans (List.countP_mono_left fun e _ => hjoined e) hsub.countP_le
      exact_mod_cast hle

end RoomManager

end HashHush
