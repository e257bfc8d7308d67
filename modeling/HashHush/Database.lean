import HashHush.Util.Text

/-!
# The SQLite store

The tables `rooms`, `challenges` and `access_tokens` of the server, and the member functions of
`Database`, each of which holds the store's mutex throughout and is therefore one atomic step.

What the schema promises is carried by the structure: primary keys are unique, challenge ids
are handed out in increasing order and never again (`AUTOINCREMENT`), and every challenge and
token names a room that exists (`REFERENCES rooms(id) ON DELETE CASCADE` under
`PRAGMA foreign_keys = ON`).  A value of type `Database` that breaks one of them cannot be built,
so the operations below cannot break them either.

The functions are those of `db.cpp` with every statement succeeding; a caller that models a
failing statement leaves the store as it is.  Text is bound with its length and read back
through a `const char*`, hence the `cText` on every column that is read.
-/

namespace HashHush

/-- A row of `rooms`. -/
structure RoomRow where
  id : Str
  name : Str
  maxParticipants : ℤ
  createdAt : ℤ
  lastActiveAt : ℤ
  activated : Bool
  requiresPassword : Bool
  deriving DecidableEq

/-- One entry of a challenge pool, as clients upload it and as `consumeChallenge` returns it. -/
structure ChallengePair where
  plaintextB64 : Str
  ciphertextB64 : Str
  nonceB64 : Str
  deriving DecidableEq

/-- A row of `challenges`. -/
structure ChallengeRow where
  id : ℕ
  roomId : Str
  plaintextB64 : Str
  ciphertextB64 : Str
  nonceB64 : Str
  used : Bool
  deriving DecidableEq

/-- A row of `access_tokens`. -/
structure TokenRow where
  token : Str
  roomId : Str
  createdAt : ℤ
  deriving DecidableEq

/-- The blobs of a challenge row as the code reads them. -/
def ChallengeRow.pair (c : ChallengeRow) : ChallengePair :=
  ⟨cText c.plaintextB64, cText c.ciphertextB64, cText c.nonceB64⟩

/-- The store, with the guarantees of its schema. -/
@[ext] structure Database where
  rooms : List RoomRow
  /-- In insertion order, which is the order of the ids. -/
  challenges : List ChallengeRow
  accessTokens : List TokenRow
  /-- The largest challenge id handed out so far. -/
  challengeSeq : ℕ
  roomKey : (rooms.map RoomRow.id).Nodup
  challengeKey : challenges.Pairwise fun c d => c.id < d.id
  challengeSeq_le : ∀ c ∈ challenges, c.id ≤ challengeSeq
  challengeRoom : ∀ c ∈ challenges, c.roomId ∈ rooms.map RoomRow.id
  tokenKey : (accessTokens.map TokenRow.token).Nodup
  tokenRoom : ∀ t ∈ accessTokens, t.roomId ∈ rooms.map RoomRow.id

namespace Database

/-- The ids of the rooms. -/
def roomIds (d : Database) : List Str := d.rooms.map RoomRow.id

/-- The store after the schema has been applied to an empty file. -/
def empty : Database where
  rooms := []
  challenges := []
  accessTokens := []
  challengeSeq := 0
  roomKey := by simp
  challengeKey := by simp
  challengeSeq_le := by simp
  challengeRoom := by simp
  tokenKey := by simp
  tokenRoom := by simp

variable (d : Database)

/-! ## Rooms -/

/-- `INSERT INTO rooms`: refused when the id is taken. -/
def createRoom (room : RoomRow) : Bool × Database :=
  if h : room.id ∈ d.rooms.map RoomRow.id then (false, d)
  else (true, { d with
    rooms := d.rooms ++ [room]
    roomKey := by
      rw [List.map_append]
      exact d.roomKey.append (List.nodup_singleton _) (List.disjoint_singleton.mpr h)
    challengeRoom := fun c hc => by simpa using Or.inl (by simpa using d.challengeRoom c hc)
    tokenRoom := fun t ht => by simpa using Or.inl (by simpa using d.tokenRoom t ht) })

/-- `SELECT … FROM rooms WHERE id = ?`. -/
def findRoom (id : Str) : Option RoomRow :=
  (d.rooms.find? fun r => r.id = id).map fun r => { r with id := cText r.id, name := cText r.name }

/-- `DELETE FROM rooms WHERE id = ?`, with the cascade; whether a row was deleted. -/
def deleteRoom (id : Str) : Bool × Database :=
  (d.rooms.any fun r => r.id = id,
  { d with
    rooms := d.rooms.filter fun r => r.id ≠ id
    challenges := d.challenges.filter fun c => c.roomId ≠ id
    accessTokens := d.accessTokens.filter fun t => t.roomId ≠ id
    roomKey := d.roomKey.sublist (List.filter_sublist.map _)
    challengeKey := d.challengeKey.sublist List.filter_sublist
    challengeSeq_le := fun c hc => d.challengeSeq_le c (List.mem_filter.mp hc).1
    challengeRoom := fun c hc => by
      obtain ⟨r, hr, hrc⟩ := List.mem_map.mp (d.challengeRoom c (List.mem_filter.mp hc).1)
      refine List.mem_map.mpr ⟨r, List.mem_filter.mpr ⟨hr, ?_⟩, hrc⟩
      rw [hrc]
      exact (List.mem_filter.mp hc).2
    tokenKey := d.tokenKey.sublist (List.filter_sublist.map _)
    tokenRoom := fun t ht => by
      obtain ⟨r, hr, hrt⟩ := List.mem_map.mp (d.tokenRoom t (List.mem_filter.mp ht).1)
      refine List.mem_map.mpr ⟨r, List.mem_filter.mpr ⟨hr, ?_⟩, hrt⟩
      rw [hrt]
      exact (List.mem_filter.mp ht).2 })

/-- `SELECT COUNT(*) FROM rooms`. -/
def countRooms : ℤ := d.rooms.length

/-- Rewrite the rows of one room, keeping their ids. -/
def updateRoom (id : Str) (f : RoomRow → RoomRow) (hf : ∀ r, (f r).id = r.id) : Database :=
  have hkey : (d.rooms.map fun r => if r.id = id then f r else r).map RoomRow.id
      = d.rooms.map RoomRow.id := by
    rw [List.map_map]
    refine List.map_congr_left fun r _ => ?_
    by_cases hr : r.id = id <;> simp [hr, hf]
  { d with
    rooms := d.rooms.map fun r => if r.id = id then f r else r
    roomKey := hkey ▸ d.roomKey
    challengeRoom := hkey ▸ d.challengeRoom
    tokenRoom := hkey ▸ d.tokenRoom }

/-- Rewriting a room changes no column of the rows that the rewriting keeps. -/
lemma map_findRoom_updateRoom {α : Type} (g : RoomRow → α)
    (hg : ∀ (r : RoomRow) (id name : Str), g { r with id, name } = g r) {id : Str}
    {f : RoomRow → RoomRow} (hf : ∀ r, (f r).id = r.id) (hfg : ∀ r, g (f r) = g r) (id' : Str) :
    ((d.updateRoom id f hf).findRoom id').map g = (d.findRoom id').map g := by
  have hid : ∀ r : RoomRow, (if r.id = id then f r else r).id = r.id := by
    intro r
    split
    · exact hf r
    · rfl
  have hcol : ∀ r : RoomRow, g (if r.id = id then f r else r) = g r := by
    intro r
    split
    · exact hfg r
    · rfl
  simp only [findRoom, updateRoom, List.find?_map, Option.map_map]
  have hfind : (fun r : RoomRow => decide (r.id = id')) ∘ (fun r => if r.id = id then f r else r)
      = fun r : RoomRow => decide (r.id = id') := by
    funext r
    simp [hid]
  rw [hfind]
  congr 1
  funext r
  simp only [Function.comp, hg, hcol]

lemma findRoom_updateRoom_of_ne {id id' : Str} (h : id ≠ id') (f : RoomRow → RoomRow)
    (hf : ∀ r, (f r).id = r.id) : (d.updateRoom id f hf).findRoom id' = d.findRoom id' := by
  have hid : ∀ r : RoomRow, (if r.id = id then f r else r).id = r.id := by
    intro r
    split
    · exact hf r
    · rfl
  have hfind : (fun r : RoomRow => decide (r.id = id')) ∘ (fun r => if r.id = id then f r else r)
      = fun r : RoomRow => decide (r.id = id') := by
    funext r
    simp [hid]
  simp only [findRoom, updateRoom, List.find?_map, Option.map_map, hfind]
  cases hr : d.rooms.find? fun r => decide (r.id = id') with
  | none => rfl
  | some r =>
      have hne : r.id ≠ id := by
        have hrid : r.id = id' := by simpa using List.find?_some hr
        exact fun e => h (e.symm.trans hrid)
      simp [hne]

/-- `UPDATE rooms SET last_active_at = strftime('%s','now') WHERE id = ?`. -/
def touchRoom (id : Str) (now : ℤ) : Database :=
  d.updateRoom id (fun r => { r with lastActiveAt := now }) fun _ => rfl

/-- `SELECT id FROM rooms WHERE last_active_at < ?`. -/
def roomsIdleSince (cutoff : ℤ) : List Str :=
  (d.rooms.filter fun r => r.lastActiveAt < cutoff).map fun r => cText r.id

/-- `UPDATE rooms SET activated = 1, last_active_at = … WHERE id = ?`; whether a row was
changed. -/
def activateRoom (id : Str) (now : ℤ) : Bool × Database :=
  (d.rooms.any fun r => r.id = id,
    d.updateRoom id (fun r => { r with activated := true, lastActiveAt := now }) fun _ => rfl)

/-! ## Challenges -/

/-- The rows an upload adds behind the id `seq`. -/
def challengeRows (roomId : Str) : ℕ → List ChallengePair → List ChallengeRow
  | _, [] => []
  | seq, p :: ps =>
      ⟨seq + 1, roomId, p.plaintextB64, p.ciphertextB64, p.nonceB64, false⟩
        :: challengeRows roomId (seq + 1) ps

lemma length_challengeRows (roomId : Str) :
    ∀ (seq : ℕ) (ps : List ChallengePair), (challengeRows roomId seq ps).length = ps.length
  | _, [] => rfl
  | seq, _ :: ps => congrArg (· + 1) (length_challengeRows roomId (seq + 1) ps)

lemma mem_challengeRows {roomId : Str} {c : ChallengeRow} :
    ∀ {seq : ℕ} {ps : List ChallengePair}, c ∈ challengeRows roomId seq ps →
      c.roomId = roomId ∧ c.used = false ∧ seq < c.id ∧ c.id ≤ seq + ps.length
  | seq, p :: ps, h => by
      rcases List.mem_cons.mp h with rfl | h
      · exact ⟨rfl, rfl, by simp, by simp⟩
      · obtain ⟨hr, hu, hlt, hle⟩ := mem_challengeRows h
        refine ⟨hr, hu, by omega, ?_⟩
        rw [List.length_cons]
        omega

lemma pairwise_challengeRows (roomId : Str) :
    ∀ (seq : ℕ) (ps : List ChallengePair),
      (challengeRows roomId seq ps).Pairwise fun c d => c.id < d.id
  | _, [] => .nil
  | seq, _ :: ps => List.Pairwise.cons
      (fun _ hc => (mem_challengeRows hc).2.2.1) (pairwise_challengeRows roomId (seq + 1) ps)

/-- One transaction that inserts all triples; the foreign key refuses them when the room is
missing. -/
def insertChallenges (roomId : Str) (pairs : List ChallengePair) : Bool × Database :=
  if h : roomId ∈ d.rooms.map RoomRow.id ∨ pairs = [] then
    (true, { d with
      challenges := d.challenges ++ challengeRows roomId d.challengeSeq pairs
      challengeSeq := d.challengeSeq + pairs.length
      challengeKey := List.pairwise_append.mpr ⟨d.challengeKey, pairwise_challengeRows _ _ _,
        fun c hc e he => lt_of_le_of_lt (d.challengeSeq_le c hc) (mem_challengeRows he).2.2.1⟩
      challengeSeq_le := fun c hc => by
        rcases List.mem_append.mp hc with hc | hc
        · exact le_trans (d.challengeSeq_le c hc) (Nat.le_add_right _ _)
        · exact (mem_challengeRows hc).2.2.2
      challengeRoom := fun c hc => by
        rcases List.mem_append.mp hc with hc | hc
        · exact d.challengeRoom c hc
        · rcases h with h | rfl
          · rw [(mem_challengeRows hc).1]
            exact h
          · simp [challengeRows] at hc })
  else (false, d)

/-- `SELECT … WHERE room_id = ? AND used = 0 ORDER BY id LIMIT 1`. -/
def nextUnused (roomId : Str) : Option ChallengeRow :=
  d.challenges.find? fun c => c.roomId = roomId && !c.used

lemma nextUnused_spec {roomId : Str} {row : ChallengeRow} (h : d.nextUnused roomId = some row) :
    row ∈ d.challenges ∧ row.roomId = roomId ∧ row.used = false := by
  have hp := List.find?_some h
  simp only [Bool.and_eq_true, decide_eq_true_eq, Bool.not_eq_true'] at hp
  exact ⟨List.mem_of_find?_eq_some h, hp.1, hp.2⟩

/-- A challenge id names one row. -/
lemma eq_of_challengeId {c e : ChallengeRow} (hc : c ∈ d.challenges) (he : e ∈ d.challenges)
    (h : c.id = e.id) : c = e := by
  have hnodup : (d.challenges.map ChallengeRow.id).Nodup :=
    List.pairwise_map.mpr (d.challengeKey.imp fun h => h.ne)
  exact List.inj_on_of_nodup_map hnodup hc he h

/-- `UPDATE challenges SET used = 1 WHERE id = ?`. -/
def markUsed (cid : ℕ) : Database :=
  { d with
    challenges := d.challenges.map fun c => if c.id = cid then { c with used := true } else c
    challengeKey := by
      refine List.pairwise_map.mpr (d.challengeKey.imp fun {c e} h => ?_)
      split <;> split <;> exact h
    challengeSeq_le := fun c hc => by
      obtain ⟨e, he, rfl⟩ := List.mem_map.mp hc
      have := d.challengeSeq_le e he
      split <;> exact this
    challengeRoom := fun c hc => by
      obtain ⟨e, he, rfl⟩ := List.mem_map.mp hc
      have := d.challengeRoom e he
      split <;> exact this }

/-- Pick the first unused challenge of the room, mark it used and return its blobs. -/
def consumeChallenge (roomId : Str) : Option ChallengePair × Database :=
  match d.nextUnused roomId with
  | some row => (some row.pair, d.markUsed row.id)
  | none => (none, d)

/-! ## The pool of a room -/

/-- How many challenges a room has, used or not. -/
def poolSize (roomId : Str) : ℕ := d.challenges.countP fun c => c.roomId = roomId

lemma poolSize_markUsed (cid : ℕ) (roomId : Str) :
    (d.markUsed cid).poolSize roomId = d.poolSize roomId := by
  simp only [poolSize, markUsed, List.countP_map]
  refine List.countP_congr fun c _ => ?_
  by_cases hc : c.id = cid <;> simp [hc]

lemma poolSize_consumeChallenge (id roomId : Str) :
    (d.consumeChallenge id).2.poolSize roomId = d.poolSize roomId := by
  unfold consumeChallenge
  split
  · exact d.poolSize_markUsed _ roomId
  · rfl

lemma countP_challengeRows {id roomId : Str} (seq : ℕ) (ps : List ChallengePair) :
    (challengeRows id seq ps).countP (fun c => c.roomId = roomId)
      = if id = roomId then ps.length else 0 := by
  split
  · rename_i h
    have hall : ∀ c ∈ challengeRows id seq ps, decide (c.roomId = roomId) = true := fun c hc =>
      decide_eq_true ((mem_challengeRows hc).1.trans h)
    rw [List.countP_eq_length.mpr hall, length_challengeRows]
  · rename_i h
    refine List.countP_eq_zero.mpr fun c hc => ?_
    have hroom : c.roomId = id := (mem_challengeRows hc).1
    simpa [hroom] using h

/-- An upload adds its triples to the pool of its room, or nothing. -/
lemma poolSize_insertChallenges (id roomId : Str) (ps : List ChallengePair) :
    (d.insertChallenges id ps).2.poolSize roomId = d.poolSize roomId
      + if id = roomId ∧ (d.insertChallenges id ps).1 = true then ps.length else 0 := by
  unfold insertChallenges
  split
  · have hrows : (challengeRows id d.challengeSeq ps).countP (fun c => c.roomId = roomId)
        = if id = roomId then ps.length else 0 := countP_challengeRows d.challengeSeq ps
    simp only [poolSize, List.countP_append, hrows, and_true]
  · simp

lemma poolSize_deleteRoom {id roomId : Str} (h : id ≠ roomId) :
    (d.deleteRoom id).2.poolSize roomId = d.poolSize roomId := by
  simp only [poolSize, deleteRoom, List.countP_filter]
  refine List.countP_congr fun c _ => ?_
  by_cases hc : c.roomId = roomId
  · simp [hc, h.symm]
  · simp [hc]

lemma findRoom_insertChallenges (id roomId : Str) (ps : List ChallengePair) :
    (d.insertChallenges id ps).2.findRoom roomId = d.findRoom roomId := by
  unfold insertChallenges
  split <;> rfl

/-- Activating a room sets its flag and keeps its other columns. -/
lemma findRoom_activateRoom (id : Str) (now : ℤ) :
    (d.activateRoom id now).2.findRoom id
      = (d.findRoom id).map fun r => { r with activated := true, lastActiveAt := now } := by
  simp only [findRoom, activateRoom, updateRoom, List.find?_map, Option.map_map]
  have hfind : (fun r : RoomRow => decide (r.id = id)) ∘
      (fun r => if r.id = id then { r with activated := true, lastActiveAt := now } else r)
      = fun r : RoomRow => decide (r.id = id) := by
    funext r
    by_cases hr : r.id = id <;> simp [hr]
  rw [hfind]
  cases hf : d.rooms.find? fun r => decide (r.id = id) with
  | none => rfl
  | some r =>
      have hr : r.id = id := by simpa using List.find?_some hf
      simp [hr]

/-- A failed activation leaves the store alone. -/
lemma activateRoom_of_false {id : Str} {now : ℤ} (h : (d.activateRoom id now).1 = false) :
    (d.activateRoom id now).2 = d := by
  have hne : ∀ r ∈ d.rooms, ¬ r.id = id := by simpa [activateRoom] using h
  have hrooms : (d.rooms.map fun r =>
      if r.id = id then { r with activated := true, lastActiveAt := now } else r) = d.rooms := by
    refine (List.map_congr_left fun r hr => ?_).trans d.rooms.map_id
    exact if_neg (hne r hr)
  exact Database.ext hrooms rfl rfl rfl

/-- A failed upload leaves the store alone. -/
lemma insertChallenges_of_false {id : Str} {ps : List ChallengePair}
    (h : (d.insertChallenges id ps).1 = false) : (d.insertChallenges id ps).2 = d := by
  unfold insertChallenges at h ⊢
  split at h
  · cases h
  · rename_i hno
    rw [dif_neg hno]

lemma findRoom_createRoom {id : Str} (h : id ∈ d.roomIds) (room : RoomRow) :
    (d.createRoom room).2.findRoom id = d.findRoom id := by
  unfold createRoom
  split
  · rfl
  · have hsome : (d.rooms.find? fun r => decide (r.id = id)).isSome = true := by
      obtain ⟨r, hr, hid⟩ := List.mem_map.mp h
      exact List.find?_isSome.mpr ⟨r, hr, by simpa using hid⟩
    obtain ⟨r, hr⟩ := Option.isSome_iff_exists.mp hsome
    simp [findRoom, List.find?_append, hr]

lemma findRoom_deleteRoom {id id' : Str} (h : id' ≠ id) :
    (d.deleteRoom id').2.findRoom id = d.findRoom id := by
  simp only [findRoom, deleteRoom, List.find?_filter]
  congr 2
  funext r
  by_cases hr : r.id = id
  · simp [hr, h.symm]
  · simp [hr]

/-! ## Access tokens -/

/-- `INSERT INTO access_tokens`: refused when the token is taken or the room is missing. -/
def insertAccessToken (token roomId : Str) (now : ℤ) : Bool × Database :=
  if h : token ∉ d.accessTokens.map TokenRow.token ∧ roomId ∈ d.rooms.map RoomRow.id then
    (true, { d with
      accessTokens := d.accessTokens ++ [⟨token, roomId, now⟩]
      tokenKey := by
        rw [List.map_append]
        exact d.tokenKey.append (List.nodup_singleton _) (List.disjoint_singleton.mpr h.1)
      tokenRoom := fun t ht => by
        rcases List.mem_append.mp ht with ht | ht
        · exact d.tokenRoom t ht
        · rw [List.mem_singleton.mp ht]
          exact h.2 })
  else (false, d)

/-- `SELECT room_id FROM access_tokens WHERE token = ?`. -/
def roomForToken (token : Str) : Option Str :=
  (d.accessTokens.find? fun t => t.token = token).map fun t => cText t.roomId

/-! ## Which rooms there are -/

lemma findRoom_eq_none {id : Str} : d.findRoom id = none ↔ id ∉ d.roomIds := by
  simp [findRoom, roomIds, List.find?_eq_none]

lemma roomIds_updateRoom (id : Str) (f : RoomRow → RoomRow) (hf : ∀ r, (f r).id = r.id) :
    (d.updateRoom id f hf).roomIds = d.roomIds := by
  rw [roomIds, roomIds, updateRoom, List.map_map]
  refine List.map_congr_left fun r _ => ?_
  by_cases hr : r.id = id <;> simp [hr, hf]

/-- A row after a rewriting is an old one or a rewritten one of the room. -/
lemma mem_rooms_updateRoom {id : Str} {f : RoomRow → RoomRow} (hf : ∀ r, (f r).id = r.id)
    {row : RoomRow} (h : row ∈ (d.updateRoom id f hf).rooms) :
    row ∈ d.rooms ∨ (row.id = id ∧ id ∈ d.roomIds ∧ ∃ r, row = f r) := by
  obtain ⟨r, hr, rfl⟩ := List.mem_map.mp h
  split
  · rename_i hid
    exact .inr ⟨(hf r).trans hid, hid ▸ List.mem_map_of_mem hr, r, rfl⟩
  · exact .inl hr

lemma mem_rooms_touchRoom {id : Str} {now : ℤ} {row : RoomRow}
    (h : row ∈ (d.touchRoom id now).rooms) :
    row ∈ d.rooms ∨ (row.id = id ∧ id ∈ d.roomIds ∧ row.lastActiveAt = now) := by
  refine (d.mem_rooms_updateRoom (f := fun r => { r with lastActiveAt := now }) (fun _ => rfl)
    h).imp_right ?_
  rintro ⟨hid, hin, r, rfl⟩
  exact ⟨hid, hin, rfl⟩

lemma mem_rooms_activateRoom {id : Str} {now : ℤ} {row : RoomRow}
    (h : row ∈ (d.activateRoom id now).2.rooms) :
    row ∈ d.rooms ∨ (row.id = id ∧ id ∈ d.roomIds ∧ row.lastActiveAt = now) := by
  refine (d.mem_rooms_updateRoom (f := fun r => { r with activated := true, lastActiveAt := now })
    (fun _ => rfl) h).imp_right ?_
  rintro ⟨hid, hin, r, rfl⟩
  exact ⟨hid, hin, rfl⟩

lemma roomIds_touchRoom (id : Str) (now : ℤ) : (d.touchRoom id now).roomIds = d.roomIds :=
  d.roomIds_updateRoom id (fun r => { r with lastActiveAt := now }) fun _ => rfl

lemma roomIds_activateRoom (id : Str) (now : ℤ) :
    (d.activateRoom id now).2.roomIds = d.roomIds :=
  d.roomIds_updateRoom id (fun r => { r with activated := true, lastActiveAt := now }) fun _ => rfl

lemma roomIds_createRoom (room : RoomRow) : (d.createRoom room).2.roomIds = d.roomIds ∨
    (d.createRoom room).2.roomIds = d.roomIds ++ [room.id] := by
  unfold createRoom
  split
  · exact .inl rfl
  · exact .inr (by simp [roomIds])

lemma roomIds_deleteRoom (id : Str) : (d.deleteRoom id).2.roomIds = d.roomIds.filter (· ≠ id) := by
  simp [roomIds, deleteRoom, List.filter_map, Function.comp_def]

/-- A token is found only for a room that exists, if the ids of the rooms are plain text. -/
lemma mem_roomIds_of_roomForToken (hd : ∀ id ∈ d.roomIds, 0 ∉ id) {token r : Str}
    (h : d.roomForToken token = some r) : r ∈ d.roomIds := by
  obtain ⟨t, ht, rfl⟩ := Option.map_eq_some_iff.mp h
  have hmem : t.roomId ∈ d.roomIds := d.tokenRoom t (List.mem_of_find?_eq_some ht)
  rwa [cText_of_notMem (hd _ hmem)]

/-- A token is stored only for a room that exists. -/
lemma mem_roomIds_of_insertAccessToken {token r : Str} {now : ℤ}
    (h : (d.insertAccessToken token r now).1 = true) : r ∈ d.roomIds := by
  unfold insertAccessToken at h
  split at h
  · rename_i hc
    exact hc.2
  · cases h

end Database

end HashHush
