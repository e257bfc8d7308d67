import HashHush.Server
import HashHush.Statements

/-!
# Transactions under failing statements

`insertChallenges` and `consumeChallenge` look at the return codes of `INSERT` and `SELECT` alone.
What follows from the others is exactly this: a `BEGIN` that fails lets SQLite commit every
statement at once, a `COMMIT` or `ROLLBACK` that fails leaves the transaction open, and an `UPDATE`
that fails hands out a challenge that stays unused.

`transactions_atomic_iff` says when the two functions are atomic, for any outcomes of the single
statements, any content of the store and any triples.  As long as they are, each is one operation of
the server (`insertChallenges_refines`, `consumeChallenge_refines`), and so what is proved of the
runs of the server is about them too.
-/

namespace HashHush

open Concurrency Sqlite

/-! ## Atomicity -/

/-- All rows of an upload are committed, or none of them, as the answer says, and no transaction is
left open. -/
structure InsertAtomic (d : Database) (roomId : Str) (pairs : List ChallengePair)
    (after : Except Empty Bool × Connection) : Prop where
  stored : after.1 = .ok true → after.2.committed.challenges
    = d.challenges ++ Database.challengeRows roomId d.challengeSeq pairs
  refused : after.1 = .ok false → after.2.committed.challenges = d.challenges
  closed : after.2.pending = none

/-- The triple that is returned is committed as used, or none is newly used, and no transaction is
left open. -/
structure ConsumeAtomic (d : Database) (roomId : Str)
    (after : Except Empty (Option ChallengePair) × Connection) : Prop where
  used : ∀ pair, after.1 = .ok (some pair) → ∃ row, d.nextUnused roomId = some row ∧
    row.pair = pair ∧ { row with used := true } ∈ after.2.committed.challenges
  unused : after.1 = .ok none → ∀ row ∈ after.2.committed.challenges, row.used = true →
    row ∈ d.challenges
  closed : after.2.pending = none

/-- `BEGIN` succeeds, and so does the statement that ends the transaction; or `BEGIN` fails, and
either every row is inserted or none. -/
def InsertsWell (d : Database) (roomId : Str) (pairs : List ChallengePair) (oks : ℕ → Bool) : Prop :=
  if oks 0 then lastOutcome d roomId oks pairs = true
  else insertedRows d roomId oks pairs = 0 ∨ insertedRows d roomId oks pairs = pairs.length

/-- An unused row is read and its `UPDATE` succeeds, or none is read; and the statement that ends
the transaction succeeds, unless `BEGIN IMMEDIATE` failed. -/
def ConsumesWell (d : Database) (roomId : Str) (oks : ℕ → Bool) : Prop :=
  if oks 1 ∧ (d.nextUnused roomId).isSome then oks 2 = true ∧ (oks 0 = true → oks 3 = true)
  else oks 0 = true → oks 2 = true

/-! ## Uploads -/

/-- The rows that were inserted. -/
lemma challenges_inserted (d : Database) (roomId : Str) (oks : ℕ → Bool)
    (pairs : List ChallengePair) :
    (d.insertChallenges roomId (pairs.take (insertedRows d roomId oks pairs))).2.challenges
      = d.challenges ++ Database.challengeRows roomId d.challengeSeq
          (pairs.take (insertedRows d roomId oks pairs)) := by
  by_cases hroom : roomId ∈ d.roomIds
  · exact (insertChallenges_of_mem hroom _).2
  · have hnone : insertedRows d roomId oks pairs = 0 := by
      rw [insertedRows, decide_eq_false hroom]
      exact inserted_false _ _
    rw [hnone, List.take_zero, insertChallenges_nil]
    exact (List.append_nil _).symm

lemma insertAtomic_iff (d : Database) (roomId : Str) (pairs : List ChallengePair) (oks : ℕ → Bool) :
    InsertAtomic d roomId pairs ((Sqlite.insertChallenges roomId pairs).run Sqlite.exec oks (.idle d))
      ↔ InsertsWell d roomId pairs oks := by
  have hrows := challenges_inserted d roomId oks pairs
  have hall : insertedRows d roomId oks pairs = pairs.length →
      (d.insertChallenges roomId pairs).2.challenges
        = d.challenges ++ Database.challengeRows roomId d.challengeSeq pairs := by
    intro h
    rwa [h, List.take_length] at hrows
  rw [insertChallenges_run, InsertsWell]
  cases hbegin : oks 0 with
  | true =>
      cases hlast : lastOutcome d roomId oks pairs with
      | true =>
          refine iff_of_true ⟨fun h => ?_, fun h => ?_, rfl⟩ rfl
          · have hn : insertedRows d roomId oks pairs = pairs.length := by simpa using h
            simpa [ended, Connection.idle, hn] using hall hn
          · have hn : insertedRows d roomId oks pairs ≠ pairs.length := by simpa using h
            simp [ended, Connection.idle, hn]
      | false =>
          refine iff_of_false (fun h => ?_) (by simp)
          simpa [ended, opened] using h.closed
  | false =>
      simp only [ended, opened, Bool.false_and, Bool.false_eq_true, if_false]
      constructor
      · intro h
        by_contra hno
        obtain ⟨h0, hn⟩ := not_or.mp hno
        have hsame := h.refused (by simp [hn])
        have hlength : (pairs.take (insertedRows d roomId oks pairs)).length = 0 := by
          have heq : d.challenges ++ Database.challengeRows roomId d.challengeSeq
              (pairs.take (insertedRows d roomId oks pairs)) = d.challenges := hrows.symm.trans hsame
          rw [← Database.length_challengeRows roomId d.challengeSeq, List.append_right_eq_self.mp heq]
          rfl
        have hle : insertedRows d roomId oks pairs ≤ pairs.length := inserted_le _ _ _
        rw [List.length_take] at hlength
        omega
      · intro h
        refine ⟨fun hanswer => ?_, fun hanswer => ?_, rfl⟩
        · have hn : insertedRows d roomId oks pairs = pairs.length := by simpa using hanswer
          have htake : pairs.take (insertedRows d roomId oks pairs) = pairs := by
            rw [hn, List.take_length]
          change (d.insertChallenges roomId _).2.challenges = _
          rw [htake]
          exact hall hn
        · have hn : insertedRows d roomId oks pairs ≠ pairs.length := by simpa using hanswer
          have h0 : insertedRows d roomId oks pairs = 0 := h.resolve_right hn
          change (d.insertChallenges roomId _).2.challenges = _
          rw [h0, List.take_zero, insertChallenges_nil]

/-! ## Withdrawals -/

/-- A row is committed as used exactly if it was marked. -/
lemma used_mem_iff {d : Database} {roomId : Str} {row : ChallengeRow}
    (h : d.nextUnused roomId = some row) (ok : Bool) :
    { row with used := true } ∈ (if ok then d.markUsed row.id else d).challenges ↔ ok = true := by
  obtain ⟨hmem, -, hunused⟩ := d.nextUnused_spec h
  cases ok with
  | true =>
      refine iff_of_true (List.mem_map.mpr ⟨row, hmem, if_pos rfl⟩) rfl
  | false =>
      refine iff_of_false (fun hused => ?_) (by simp)
      have heq : row = { row with used := true } := d.eq_of_challengeId hmem hused rfl
      rw [heq] at hunused
      cases hunused

lemma consumeAtomic_iff (d : Database) (roomId : Str) (oks : ℕ → Bool) :
    ConsumeAtomic d roomId ((Sqlite.consumeChallenge roomId).run Sqlite.exec oks (.idle d))
      ↔ ConsumesWell d roomId oks := by
  have hselect : (oks 1 = true ∧ (d.nextUnused roomId).isSome = true) ↔
      (if oks 1 then d.nextUnused roomId else none).isSome = true := by
    split <;> simp [*]
  rw [consumeChallenge_run, ConsumesWell, if_congr hselect rfl rfl]
  cases hfound : if oks 1 then d.nextUnused roomId else none with
  | some row =>
      have hnext : d.nextUnused roomId = some row := by
        split at hfound
        · exact hfound
        · cases hfound
      have hkept : ∀ c : Connection, c.committed = (if oks 2 then d.markUsed row.id else d) →
          c.pending = none → (ConsumeAtomic d roomId (.ok (some row.pair), c) ↔ oks 2 = true) := by
        intro c hcommitted hpending
        rw [← used_mem_iff hnext (oks 2), ← hcommitted]
        constructor
        · intro h
          obtain ⟨row', hrow', -, hused⟩ := h.used row.pair rfl
          obtain rfl : row = row' := Option.some.inj (hnext.symm.trans hrow')
          exact hused
        · intro h
          refine ⟨fun pair hpair => ⟨row, hnext, by simpa using hpair, h⟩, fun hno => ?_, hpending⟩
          simp at hno
      rw [Option.isSome_some, if_pos rfl]
      cases hbegin : oks 0 with
      | true =>
          cases hlast : oks 3 with
          | true =>
              rw [hkept _ rfl rfl]
              simp
          | false =>
              refine iff_of_false (fun h => ?_) (by simp)
              simpa [ended, opened] using h.closed
      | false =>
          rw [hkept _ rfl rfl]
          simp
  | none =>
      have hkept : ∀ c : Connection, c.committed = d → c.pending = none →
          ConsumeAtomic d roomId (.ok none, c) := by
        intro c hcommitted hpending
        exact ⟨fun pair hpair => by simp at hpair, fun _ row hrow _ => hcommitted ▸ hrow, hpending⟩
      rw [Option.isSome_none, if_neg (by simp)]
      cases hbegin : oks 0 with
      | true =>
          cases hlast : oks 2 with
          | true => exact iff_of_true (hkept _ rfl rfl) fun _ => rfl
          | false =>
              refine iff_of_false (fun h => ?_) (by simp)
              simpa [ended, opened] using h.closed
      | false => exact iff_of_true (hkept _ rfl rfl) (by simp)

/-! ## The operations of the server -/

/-- An upload whose statements are atomic is one operation of the server: the same answer, and the
same store. -/
theorem insertChallenges_refines {roomId : Str} {pairs : List ChallengePair} {oks : ℕ → Bool}
    (w : World Str) (h : InsertsWell w.db roomId pairs oks) : ∃ x : Choice,
      (Sqlite.insertChallenges roomId pairs).run Sqlite.exec oks (.idle w.db)
        = (.ok (HashHush.exec (.insertChallenges roomId pairs) x w).1,
          .idle (HashHush.exec (.insertChallenges roomId pairs) x w).2.db) := by
  rw [insertChallenges_run]
  by_cases hall : insertedRows w.db roomId oks pairs = pairs.length
  · have hanswer : (w.db.insertChallenges roomId pairs).1 = true := by
      by_cases hroom : roomId ∈ w.db.roomIds
      · exact (insertChallenges_of_mem hroom pairs).1
      · rw [insertedRows, decide_eq_false hroom, inserted_false] at hall
        rw [List.eq_nil_of_length_eq_zero hall.symm, insertChallenges_nil]
    refine ⟨⟨fun _ => 0, true⟩, ?_⟩
    cases hbegin : oks 0 with
    | true =>
        have hlast : lastOutcome w.db roomId oks pairs = true := by
          simpa [InsertsWell, hbegin] using h
        simp [HashHush.exec, ended, hall, hlast, hanswer]
    | false => simp [HashHush.exec, ended, opened, hall, hanswer]
  · refine ⟨⟨fun _ => 0, false⟩, ?_⟩
    cases hbegin : oks 0 with
    | true =>
        have hlast : lastOutcome w.db roomId oks pairs = true := by
          simpa [InsertsWell, hbegin] using h
        simp [HashHush.exec, ended, hall, hlast]
    | false =>
        have hnone : insertedRows w.db roomId oks pairs = 0 := by
          simpa [InsertsWell, hbegin, hall] using h
        have hne : ¬ 0 = pairs.length := hnone ▸ hall
        simp [HashHush.exec, ended, opened, hnone, hne, insertChallenges_nil]

/-- So is a withdrawal. -/
theorem consumeChallenge_refines {roomId : Str} {oks : ℕ → Bool} (w : World Str)
    (h : ConsumesWell w.db roomId oks) : ∃ x : Choice,
      (Sqlite.consumeChallenge roomId).run Sqlite.exec oks (.idle w.db)
        = (.ok (HashHush.exec (.consumeChallenge roomId) x w).1,
          .idle (HashHush.exec (.consumeChallenge roomId) x w).2.db) := by
  refine ⟨⟨fun _ => 0, oks 1⟩, ?_⟩
  rw [consumeChallenge_run]
  cases hselect : oks 1 with
  | false =>
      have hlast : oks 0 = true → oks 2 = true := by simpa [ConsumesWell, hselect] using h
      cases hbegin : oks 0 with
      | true => simp [HashHush.exec, ended, hlast hbegin]
      | false => simp [HashHush.exec, ended, opened]
  | true =>
      cases hnext : w.db.nextUnused roomId with
      | none =>
          have hlast : oks 0 = true → oks 2 = true := by
            simpa [ConsumesWell, hselect, hnext] using h
          cases hbegin : oks 0 with
          | true => simp [HashHush.exec, Database.consumeChallenge, hnext, ended, hlast hbegin]
          | false => simp [HashHush.exec, Database.consumeChallenge, hnext, ended, opened]
      | some row =>
          obtain ⟨hupdate, hlast⟩ : oks 2 = true ∧ (oks 0 = true → oks 3 = true) := by
            simpa [ConsumesWell, hselect, hnext] using h
          cases hbegin : oks 0 with
          | true =>
              simp [HashHush.exec, Database.consumeChallenge, hnext, ended, hupdate, hlast hbegin]
          | false => simp [HashHush.exec, Database.consumeChallenge, hnext, ended, opened, hupdate]

/-- **When the transactions are atomic.**  Whatever each statement does, `insertChallenges` and
`consumeChallenge` are atomic exactly under the conditions above. -/
theorem transactions_atomic_iff (d : Database) (roomId : Str) (pairs : List ChallengePair)
    (oks : ℕ → Bool) :
    (InsertAtomic d roomId pairs
        ((Sqlite.insertChallenges roomId pairs).run Sqlite.exec oks (.idle d))
      ↔ InsertsWell d roomId pairs oks) ∧
    (ConsumeAtomic d roomId ((Sqlite.consumeChallenge roomId).run Sqlite.exec oks (.idle d))
      ↔ ConsumesWell d roomId oks) :=
  ⟨insertAtomic_iff d roomId pairs oks, consumeAtomic_iff d roomId oks⟩

/-- The third statement fails: the `UPDATE` of a challenge that is handed out. -/
theorem transactions_not_atomic :
    ¬ ((∀ (d : Database) (roomId : Str) (pairs : List ChallengePair) (oks : ℕ → Bool),
        InsertAtomic d roomId pairs
          ((Sqlite.insertChallenges roomId pairs).run Sqlite.exec oks (.idle d))) ∧
      ∀ (d : Database) (roomId : Str) (oks : ℕ → Bool),
        ConsumeAtomic d roomId
          ((Sqlite.consumeChallenge roomId).run Sqlite.exec oks (.idle d))) := by
  rintro ⟨-, hall⟩
  have h := (consumeAtomic_iff _ _ _).mp (hall
    (Sample.store 2 [⟨ascii "plain", ascii "cipher", ascii "nonce"⟩] []) Sample.room (· ≠ 2))
  have hfound : ((Sample.store 2 [⟨ascii "plain", ascii "cipher", ascii "nonce"⟩] []).nextUnused
      Sample.room).isSome = true := by decide +kernel
  rw [ConsumesWell, if_pos ⟨by decide, hfound⟩] at h
  simp at h

end HashHush
