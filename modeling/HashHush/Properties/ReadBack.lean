import HashHush.Server
import Mathlib.Data.List.TakeWhile

/-!
# What is stored is what is read back

Texts are bound with their length and read through a NUL-terminated pointer, so a text with a NUL
in it comes back cut off at the NUL (`cText_eq_iff`), and one without comes back whole.

The unused challenges of a room are a queue: an upload appends to it (`unused_insertChallenges`) and
`consumeChallenge` takes its head (`unused_markUsed`).  `answers_eq` is what any number of
successive calls return, and `read_back_iff` says for rooms and for pools when everything comes
back as it was stored.
-/

namespace HashHush

/-- A text is read back whole exactly if it has no NUL. -/
lemma cText_eq_iff {s : Str} : cText s = s ↔ 0 ∉ s := by
  refine ⟨fun h hmem => ?_, cText_of_notMem⟩
  have hall : ∀ b ∈ s, decide (b ≠ 0) = true := List.takeWhile_eq_self_iff.mp h
  simpa using hall 0 hmem

namespace ChallengePair

variable (p : ChallengePair)

/-- A triple as it is read. -/
def asRead : ChallengePair := ⟨cText p.plaintextB64, cText p.ciphertextB64, cText p.nonceB64⟩

/-- No text of the triple has a NUL. -/
def NoNul : Prop := 0 ∉ p.plaintextB64 ∧ 0 ∉ p.ciphertextB64 ∧ 0 ∉ p.nonceB64

lemma asRead_eq_iff : p.asRead = p ↔ p.NoNul := by
  obtain ⟨plaintext, ciphertext, nonce⟩ := p
  simp only [asRead, NoNul, mk.injEq, cText_eq_iff]

end ChallengePair

namespace RoomRow

variable (r : RoomRow)

/-- A room as it is read. -/
def asRead : RoomRow := { r with id := cText r.id, name := cText r.name }

/-- No text of the room has a NUL. -/
def NoNul : Prop := 0 ∉ r.id ∧ 0 ∉ r.name

lemma asRead_eq_iff : r.asRead = r ↔ r.NoNul := by
  obtain ⟨id, name, maxParticipants, createdAt, lastActiveAt, activated, requiresPassword⟩ := r
  simp only [asRead, NoNul, mk.injEq, cText_eq_iff, and_true]

end RoomRow

namespace Database

/-! ## Rooms -/

/-- A new room is found, with its texts as they are read. -/
lemma findRoom_createRoom_self (d : Database) {row : RoomRow} (h : row.id ∉ d.roomIds) :
    (d.createRoom row).2.findRoom row.id = some row.asRead := by
  have hnone : d.rooms.find? (fun r => r.id = row.id) = none := by
    refine List.find?_eq_none.mpr fun r hr hid => h ?_
    rw [← of_decide_eq_true hid]
    exact List.mem_map_of_mem hr
  have hno : row.id ∉ d.rooms.map RoomRow.id := h
  rw [createRoom, dif_neg hno, findRoom, List.find?_append, hnone]
  simp [RoomRow.asRead]

/-! ## The queue of a room -/

/-- The unused challenges of a room, in the order of their ids. -/
def unused (d : Database) (roomId : Str) : List ChallengeRow :=
  d.challenges.filter fun c => c.roomId = roomId && !c.used

lemma nextUnused_eq_head? (d : Database) (roomId : Str) :
    d.nextUnused roomId = (d.unused roomId).head? :=
  List.head?_filter.symm

/-- Marking the head takes it out of the queue. -/
lemma unused_markUsed {d : Database} {roomId : Str} {row : ChallengeRow} {rest : List ChallengeRow}
    (h : d.unused roomId = row :: rest) : (d.markUsed row.id).unused roomId = rest := by
  have hsplit : (d.markUsed row.id).unused roomId
      = (d.unused roomId).filter fun c => c.id ≠ row.id := by
    simp only [unused, markUsed, List.filter_map, List.filter_filter]
    have hkept : ∀ c : ChallengeRow,
        ((fun c : ChallengeRow => decide (c.roomId = roomId) && !c.used) ∘
          fun c => if c.id = row.id then { c with used := true } else c) c
        = (decide (c.id ≠ row.id) && (decide (c.roomId = roomId) && !c.used)) := by
      intro c
      by_cases hc : c.id = row.id <;> simp [hc]
    rw [List.filter_congr fun c _ => hkept c]
    refine (List.map_congr_left fun c hc => ?_).trans (List.map_id _)
    have hne : c.id ≠ row.id := by
      have hp := (List.mem_filter.mp hc).2
      simp only [Bool.and_eq_true, decide_eq_true_eq] at hp
      exact hp.1
    exact if_neg hne
  -- The ids of the queue are increasing, so only its head is taken out.
  have hkey : (row :: rest).Pairwise fun c e => c.id < e.id :=
    h ▸ d.challengeKey.sublist List.filter_sublist
  rw [hsplit, h, List.filter_cons_of_neg (by simp)]
  refine List.filter_eq_self.mpr fun c hc => ?_
  have hlt : row.id < c.id := (List.pairwise_cons.mp hkey).1 c hc
  simpa using hlt.ne'

/-- An upload appends to the queue. -/
lemma unused_insertChallenges {d : Database} {roomId : Str} (h : roomId ∈ d.roomIds)
    (pairs : List ChallengePair) : (d.insertChallenges roomId pairs).2.unused roomId
      = d.unused roomId ++ challengeRows roomId d.challengeSeq pairs := by
  have hroom : roomId ∈ d.rooms.map RoomRow.id := h
  simp only [insertChallenges, dif_pos (Or.inl hroom), unused, List.filter_append]
  congr 1
  refine List.filter_eq_self.mpr fun c hc => ?_
  obtain ⟨hr, hu, -⟩ := mem_challengeRows hc
  simp [hr, hu]

/-- The triples of the rows are those uploaded, as they are read. -/
lemma map_pair_challengeRows (roomId : Str) : ∀ (seq : ℕ) (pairs : List ChallengePair),
    (challengeRows roomId seq pairs).map ChallengeRow.pair = pairs.map ChallengePair.asRead
  | _, [] => rfl
  | seq, _ :: pairs => congrArg _ (map_pair_challengeRows roomId (seq + 1) pairs)

/-- What `n` successive calls of `consumeChallenge` return. -/
def answers (roomId : Str) : ℕ → Database → List (Option ChallengePair)
  | 0, _ => []
  | n + 1, d => (d.consumeChallenge roomId).1 :: answers roomId n (d.consumeChallenge roomId).2

/-- The calls empty the queue from its head, and then return nothing. -/
lemma answers_eq (roomId : Str) (k : ℕ) : ∀ (rows : List ChallengeRow) (d : Database),
    d.unused roomId = rows → answers roomId (rows.length + k) d
      = (rows.map fun c => some c.pair) ++ List.replicate k none := by
  intro rows
  induction rows with
  | nil =>
      intro d h
      have hnone : d.consumeChallenge roomId = (none, d) := by
        rw [consumeChallenge, nextUnused_eq_head?, h]
        rfl
      rw [List.length_nil, Nat.zero_add, List.map_nil, List.nil_append]
      induction k with
      | zero => rfl
      | succ k ih => rw [answers, hnone, ih, List.replicate_succ]
  | cons row rows ih =>
      intro d h
      have hsome : d.consumeChallenge roomId = (some row.pair, d.markUsed row.id) := by
        rw [consumeChallenge, nextUnused_eq_head?, h]
        rfl
      have hlength : (row :: rows).length + k = rows.length + k + 1 := by
        rw [List.length_cons]
        omega
      rw [hlength, answers, hsome, ih _ (unused_markUsed h)]
      rfl

/-- What is uploaded to an empty pool comes back in order, as it is read, and then nothing. -/
lemma answers_insertChallenges {d : Database} {roomId : Str} (hroom : roomId ∈ d.roomIds)
    (hpool : d.poolSize roomId = 0) (pairs : List ChallengePair) (k : ℕ) :
    answers roomId (pairs.length + k) (d.insertChallenges roomId pairs).2
      = (pairs.map ChallengePair.asRead).map some ++ List.replicate k none := by
  have hnone : d.unused roomId = [] := by
    refine List.filter_eq_nil_iff.mpr fun c hc => ?_
    have hother := List.countP_eq_zero.mp hpool c hc
    simp only [decide_eq_true_eq] at hother
    simp [hother]
  have hqueue : (d.insertChallenges roomId pairs).2.unused roomId
      = challengeRows roomId d.challengeSeq pairs := by
    rw [unused_insertChallenges hroom, hnone, List.nil_append]
  have hall := answers_eq roomId k _ _ hqueue
  rw [length_challengeRows] at hall
  rw [hall, ← map_pair_challengeRows roomId d.challengeSeq pairs, List.map_map]
  rfl

end Database

/-! ## The result -/

/-- A list of triples is read as it is exactly if none of them has a NUL. -/
lemma map_asRead_eq_iff {pairs : List ChallengePair} :
    pairs.map ChallengePair.asRead = pairs ↔ ∀ p ∈ pairs, p.NoNul := by
  have hself : pairs.map ChallengePair.asRead = pairs.map id ↔ ∀ p ∈ pairs, p.asRead = id p :=
    List.map_eq_map_iff
  rw [List.map_id] at hself
  exact hself.trans (forall₂_congr fun p _ => p.asRead_eq_iff)

namespace Database

lemma findRoom_createRoom_iff {d : Database} {row : RoomRow} (h : row.id ∉ d.roomIds) :
    (d.createRoom row).2.findRoom row.id = some row ↔ row.NoNul := by
  rw [d.findRoom_createRoom_self h, Option.some_inj]
  exact row.asRead_eq_iff

lemma answers_insertChallenges_iff {d : Database} {roomId : Str} {pairs : List ChallengePair}
    (hroom : roomId ∈ d.roomIds) (hpool : d.poolSize roomId = 0) :
    (∀ k, answers roomId (pairs.length + k) (d.insertChallenges roomId pairs).2
        = pairs.map some ++ List.replicate k none) ↔ ∀ p ∈ pairs, p.NoNul := by
  rw [← map_asRead_eq_iff]
  constructor
  · intro hall
    have hzero := hall 0
    rw [answers_insertChallenges hroom hpool, List.append_left_inj] at hzero
    exact List.map_injective_iff.mpr (Option.some_injective _) hzero
  · intro hread k
    rw [answers_insertChallenges hroom hpool, hread]

end Database

/-- **What is stored is what is read back** exactly where no text has a NUL: a new room is found as
it was created, and successive calls of `consumeChallenge` return the triples uploaded to an empty
pool, in order, and then nothing. -/
theorem read_back_iff (d : Database) :
    (∀ row : RoomRow, row.id ∉ d.roomIds →
      ((d.createRoom row).2.findRoom row.id = some row ↔ row.NoNul)) ∧
    ∀ (roomId : Str) (pairs : List ChallengePair), roomId ∈ d.roomIds → d.poolSize roomId = 0 →
      ((∀ k, Database.answers roomId (pairs.length + k) (d.insertChallenges roomId pairs).2
          = pairs.map some ++ List.replicate k none) ↔ ∀ p ∈ pairs, p.NoNul) :=
  ⟨fun _ hfresh => Database.findRoom_createRoom_iff hfresh,
    fun _ _ hroom hpool => Database.answers_insertChallenges_iff hroom hpool⟩

lemma Sample.store_room : Sample.room ∈ (Sample.store 2 [] []).roomIds ∧
    (Sample.store 2 [] []).poolSize Sample.room = 0 := by
  decide +kernel

/-- A triple of letters. -/
def Sample.triple (b : UInt8) : ChallengePair := ⟨[97, b], [99, b], [110, b]⟩

theorem read_back_iff_sample :
    (Database.empty.createRoom ⟨Sample.room, [97, 98], 2, 0, 0, true, false⟩).2.findRoom Sample.room
      = some ⟨Sample.room, [97, 98], 2, 0, 0, true, false⟩ ∧
    ∀ k, Database.answers Sample.room (2 + k) ((Sample.store 2 [] []).insertChallenges Sample.room
        [Sample.triple 49, Sample.triple 50]).2
      = [some (Sample.triple 49), some (Sample.triple 50)] ++ List.replicate k none := by
  constructor
  · exact ((read_back_iff Database.empty).1 _ List.not_mem_nil).mpr ⟨by decide +kernel, by decide⟩
  · obtain ⟨hroom, hpool⟩ := Sample.store_room
    refine ((read_back_iff _).2 _ [Sample.triple 49, Sample.triple 50] hroom hpool).mpr
      fun p hp => ?_
    rcases List.mem_pair.mp hp with rfl | rfl
    · exact ⟨by decide, by decide, by decide⟩
    · exact ⟨by decide, by decide, by decide⟩

/-- A room whose name is a letter, a NUL and a letter. -/
def Sample.nulRoom : RoomRow := ⟨Sample.room, [97, 0, 98], 2, 0, 0, false, false⟩

/-- A triple whose plaintext is a letter, a NUL and a letter. -/
def Sample.nulTriple : ChallengePair := ⟨[97, 0, 98], [99], [110]⟩

/-- Neither comes back as it was stored. -/
theorem nul_not_read_back :
    (¬ ∀ (d : Database) (row : RoomRow), row.id ∉ d.roomIds →
      (d.createRoom row).2.findRoom row.id = some row) ∧
    ¬ ∀ (d : Database) (roomId : Str) (pairs : List ChallengePair),
      (∀ p ∈ pairs, p.plaintextB64 ≠ [] ∧ p.ciphertextB64 ≠ [] ∧ p.nonceB64 ≠ []) →
      roomId ∈ d.roomIds → d.poolSize roomId = 0 →
      ∀ k, Database.answers roomId (pairs.length + k) (d.insertChallenges roomId pairs).2
        = pairs.map some ++ List.replicate k none := by
  constructor
  · intro hall
    have hfresh : Sample.nulRoom.id ∉ Database.empty.roomIds := List.not_mem_nil
    have hno := (Database.findRoom_createRoom_iff hfresh).mp (hall _ _ hfresh)
    exact hno.2 (by decide)
  · intro hall
    obtain ⟨hroom, hpool⟩ := Sample.store_room
    have hno := (Database.answers_insertChallenges_iff hroom hpool).mp
      (hall _ _ [Sample.nulTriple] (by decide) hroom hpool) Sample.nulTriple List.mem_cons_self
    exact hno.1 (by decide)

end HashHush
