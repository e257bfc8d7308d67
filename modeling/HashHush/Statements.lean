import HashHush.Concurrency.Program
import HashHush.Database

/-!
# The SQL statements of a transaction

`Database::insertChallenges` and `Database::consumeChallenge` are sequences of statements, and most
of the return codes are not looked at.  Here the two functions are programs over the statements of
one connection, each of which may fail.

A statement writes to the open transaction, or where none is open to the store itself, since SQLite
commits such a statement at once.  `insertChallenges_run` and `consumeChallenge_run` say that the
functions of `Database.lean` are what is committed when no statement fails.
-/

namespace HashHush.Sqlite

open Concurrency

/-- A connection to the store, with the state that an open transaction has brought about so far. -/
structure Connection where
  committed : Database
  pending : Option Database

namespace Connection

variable (c : Connection)

/-- A connection without an open transaction. -/
def idle (d : Database) : Connection := ⟨d, none⟩

/-- What a statement reads. -/
def current : Database := c.pending.getD c.committed

/-- A statement has brought about `d`. -/
def write (d : Database) : Connection :=
  match c.pending with
  | some _ => { c with pending := some d }
  | none => { c with committed := d }

end Connection

/-- The statements. -/
inductive Statement
  | begin
  | beginImmediate
  | insertChallenge (roomId : Str) (pair : ChallengePair)
  | selectUnused (roomId : Str)
  | updateUsed (cid : ℕ)
  | commit
  | rollback

/-- Whether a statement succeeded, or the row of a `SELECT` that found one. -/
@[reducible] def Statement.Res : Statement → Type
  | selectUnused _ => Option ChallengeRow
  | _ => Bool

/-- The interface of a connection. -/
abbrev sqlite : Signature := ⟨Statement, Statement.Res, Empty⟩

/-- Execute a statement. -/
abbrev query (o : Statement) : Prog sqlite o.Res := .perform (S := sqlite) o

/-- `BEGIN`: transactions do not nest. -/
def start (c : Connection) : Bool × Connection :=
  match c.pending with
  | some _ => (false, c)
  | none => (true, { c with pending := some c.committed })

/-- `COMMIT`. -/
def finish (c : Connection) : Bool × Connection :=
  match c.pending with
  | some d => (true, .idle d)
  | none => (false, c)

/-- `ROLLBACK`. -/
def abandon (c : Connection) : Bool × Connection :=
  match c.pending with
  | some _ => (true, .idle c.committed)
  | none => (false, c)

/-- The meaning of the statements: one that does not succeed has no effect. -/
def exec : (o : Statement) → Bool → Connection → o.Res × Connection
  | .begin, ok, c | .beginImmediate, ok, c => if ok then start c else (false, c)
  | .insertChallenge roomId pair, ok, c =>
      if ok then ((c.current.insertChallenges roomId [pair]).1,
        c.write (c.current.insertChallenges roomId [pair]).2)
      else (false, c)
  | .selectUnused roomId, ok, c => (if ok then c.current.nextUnused roomId else none, c)
  | .updateUsed cid, ok, c => if ok then (true, c.write (c.current.markUsed cid)) else (false, c)
  | .commit, ok, c => if ok then finish c else (false, c)
  | .rollback, ok, c => if ok then abandon c else (false, c)

/-! ## The functions -/

/-- The loop of `insertChallenges`: whether every row was inserted. -/
def insertEach (roomId : Str) : List ChallengePair → Prog sqlite Bool
  | [] => .ret true
  | pair :: pairs => do
      let ok : Bool ← query (.insertChallenge roomId pair)
      if ok then insertEach roomId pairs else .ret false

/-- The end of `insertChallenges`. -/
def settle (ok : Bool) : Prog sqlite Bool := do
  let _ ← query (if ok then .commit else .rollback)
  .ret ok

/-- `insertChallenges`. -/
def insertChallenges (roomId : Str) (pairs : List ChallengePair) : Prog sqlite Bool := do
  let _ ← query .begin
  let ok ← insertEach roomId pairs
  settle ok

/-- The rest of `consumeChallenge`, on the row that the `SELECT` found. -/
def markFound : Option ChallengeRow → Prog sqlite (Option ChallengePair)
  | some row => do
      let _ ← query (.updateUsed row.id)
      let _ ← query .commit
      .ret (some row.pair)
  | none => do
      let _ ← query .rollback
      .ret none

/-- `consumeChallenge`. -/
def consumeChallenge (roomId : Str) : Prog sqlite (Option ChallengePair) := do
  let _ ← query .beginImmediate
  let found : Option ChallengeRow ← query (.selectUnused roomId)
  markFound found

/-! ## What they do -/

namespace Connection

variable (c : Connection) (d e : Database)

lemma write_current : c.write c.current = c := by
  obtain ⟨committed, pending⟩ := c
  cases pending <;> rfl

lemma write_write : (c.write d).write e = c.write e := by
  obtain ⟨committed, pending⟩ := c
  cases pending <;> rfl

lemma current_write : (c.write d).current = d := by
  obtain ⟨committed, pending⟩ := c
  cases pending <;> rfl

end Connection

/-- How many of `n` rows are inserted: an `INSERT` succeeds where its room exists and the statement
does not fail, and the first that does not ends the loop. -/
def inserted (room : Bool) : ℕ → (ℕ → Bool) → ℕ
  | 0, _ => 0
  | n + 1, oks => if room && oks 0 then inserted room n (fun k => oks (k + 1)) + 1 else 0

lemma inserted_le (room : Bool) : ∀ (n : ℕ) (oks : ℕ → Bool), inserted room n oks ≤ n
  | 0, _ => le_rfl
  | n + 1, oks => by
      rw [inserted]
      split
      · exact Nat.succ_le_succ (inserted_le room n _)
      · exact Nat.zero_le _

lemma inserted_false (n : ℕ) (oks : ℕ → Bool) : inserted false n oks = 0 := by
  cases n <;> rfl

lemma inserted_all (n : ℕ) : inserted true n (fun _ => true) = n := by
  induction n with
  | zero => rfl
  | succ n ih => exact congrArg (· + 1) ih

lemma insertChallenges_nil (d : Database) (roomId : Str) :
    d.insertChallenges roomId [] = (true, d) := by
  rw [Database.insertChallenges, dif_pos (.inr rfl)]
  exact congrArg _ (Database.ext rfl (List.append_nil _) rfl rfl)

lemma insertChallenges_of_mem {d : Database} {roomId : Str} (h : roomId ∈ d.roomIds)
    (pairs : List ChallengePair) : (d.insertChallenges roomId pairs).1 = true ∧
      (d.insertChallenges roomId pairs).2.challenges
        = d.challenges ++ Database.challengeRows roomId d.challengeSeq pairs := by
  rw [Database.insertChallenges, dif_pos (.inl h)]
  exact ⟨rfl, rfl⟩

lemma insertChallenges_of_notMem {d : Database} {roomId : Str} (h : roomId ∉ d.roomIds)
    {pairs : List ChallengePair} (hpairs : pairs ≠ []) :
    d.insertChallenges roomId pairs = (false, d) :=
  dif_neg (not_or.mpr ⟨h, hpairs⟩)

lemma roomIds_insertChallenges (d : Database) (roomId : Str) (pairs : List ChallengePair) :
    (d.insertChallenges roomId pairs).2.roomIds = d.roomIds := by
  unfold Database.insertChallenges
  split <;> rfl

/-- The rows one after the other are the rows at once. -/
lemma insertChallenges_cons {d : Database} {roomId : Str} (h : roomId ∈ d.roomIds)
    (pair : ChallengePair) (pairs : List ChallengePair) :
    ((d.insertChallenges roomId [pair]).2.insertChallenges roomId pairs).2
      = (d.insertChallenges roomId (pair :: pairs)).2 := by
  have hroom : roomId ∈ d.rooms.map RoomRow.id := h
  simp only [Database.insertChallenges, dif_pos (Or.inl hroom)]
  refine Database.ext rfl ?_ rfl ?_
  · simp [Database.challengeRows]
  · simp [Nat.add_comm, Nat.add_left_comm]

/-- The loop inserts the rows before the first that fails. -/
lemma insertEach_run (roomId : Str) (f : Bool → Prog sqlite Bool) : ∀ (pairs : List ChallengePair)
    (oks : ℕ → Bool) (c : Connection),
    let n := inserted (roomId ∈ c.current.roomIds) pairs.length oks
    (insertEach roomId pairs >>= f).run exec oks c
      = (f (n = pairs.length)).run exec (fun k => oks (k + n + if n = pairs.length then 0 else 1))
          (c.write (c.current.insertChallenges roomId (pairs.take n)).2) := by
  intro pairs
  induction pairs with
  | nil =>
      intro oks c
      have hsame : c.write (c.current.insertChallenges roomId []).2 = c := by
        rw [insertChallenges_nil, c.write_current]
      simp [insertEach, inserted, hsame]
  | cons pair pairs ih =>
      intro oks c
      have hstep : (insertEach roomId (pair :: pairs) >>= f).run exec oks c
          = ((if (exec (.insertChallenge roomId pair) (oks 0) c).1 = true then
              insertEach roomId pairs else .ret false) >>= f).run exec (fun k => oks (k + 1))
            (exec (.insertChallenge roomId pair) (oks 0) c).2 := rfl
      by_cases hins : roomId ∈ c.current.roomIds ∧ oks 0 = true
      · obtain ⟨hroom, hok⟩ := hins
        have hexec : exec (.insertChallenge roomId pair) (oks 0) c
            = (true, c.write (c.current.insertChallenges roomId [pair]).2) := by
          simp only [exec, hok, if_true, (insertChallenges_of_mem hroom [pair]).1]
        have hroom' : roomId ∈ (c.write (c.current.insertChallenges roomId [pair]).2).current.roomIds := by
          rw [c.current_write, roomIds_insertChallenges]
          exact hroom
        have hn : inserted (decide (roomId ∈ c.current.roomIds)) (pair :: pairs).length oks
            = inserted true pairs.length (fun k => oks (k + 1)) + 1 := by
          simp [inserted, hroom, hok]
        have hrest := ih (fun k => oks (k + 1)) (c.write (c.current.insertChallenges roomId [pair]).2)
        rw [decide_eq_true hroom'] at hrest
        simp only [c.current_write, c.write_write, insertChallenges_cons hroom] at hrest
        rw [hstep, hexec, hn]
        simp only [if_true, hrest, List.length_cons, List.take_succ_cons, Nat.add_right_cancel_iff]
        congr 1
        funext k
        congr 1
        omega
      · have hexec : exec (.insertChallenge roomId pair) (oks 0) c = (false, c) := by
          cases hok : oks 0 with
          | false => simp only [exec, Bool.false_eq_true, if_false]
          | true =>
              have hroom : roomId ∉ c.current.roomIds := fun h => hins ⟨h, hok⟩
              simp only [exec, if_true, insertChallenges_of_notMem hroom (List.cons_ne_nil pair []),
                c.write_current]
        have hn : inserted (decide (roomId ∈ c.current.roomIds)) (pair :: pairs).length oks = 0 := by
          rw [List.length_cons, inserted, if_neg (by simpa using hins)]
        have hsame : c.write (c.current.insertChallenges roomId []).2 = c := by
          rw [insertChallenges_nil, c.write_current]
        rw [hstep, hexec, hn]
        simp [hsame]

/-- A connection after `BEGIN`, with what has been written since: where `BEGIN` failed, it has been
committed. -/
def opened (began : Bool) (committed written : Database) : Connection :=
  if began then ⟨committed, some written⟩ else .idle written

/-- A connection after the statement that ends a transaction, whose effect it is to keep `kept`. -/
def ended (began ok : Bool) (committed written kept : Database) : Connection :=
  if began && ok then .idle kept else opened began committed written

section Transaction

variable (began ok : Bool) (d e : Database)

lemma exec_begin : (exec .begin ok (.idle d)).2 = opened ok d d := by
  cases ok <;> rfl

lemma exec_beginImmediate : (exec .beginImmediate ok (.idle d)).2 = opened ok d d := by
  cases ok <;> rfl

@[simp] lemma current_opened : (opened began d e).current = e := by
  cases began <;> rfl

@[simp] lemma write_opened (e' : Database) : (opened began d e).write e' = opened began d e' := by
  cases began <;> rfl

lemma exec_commit : (exec .commit ok (opened began d e)).2 = ended began ok d e e := by
  cases ok <;> cases began <;> rfl

lemma exec_rollback : (exec .rollback ok (opened began d e)).2 = ended began ok d e d := by
  cases ok <;> cases began <;> rfl

end Transaction

lemma settle_run (began ok : Bool) (d e : Database) (oks : ℕ → Bool) :
    (settle ok).run exec oks (opened began d e)
      = (.ok ok, ended began (oks 0) d e (if ok then e else d)) := by
  have hrun : (settle ok).run exec oks (opened began d e)
      = (.ok ok, (exec (if ok then .commit else .rollback) (oks 0) (opened began d e)).2) := rfl
  rw [hrun]
  cases ok
  · exact congrArg _ (exec_rollback began (oks 0) d e)
  · exact congrArg _ (exec_commit began (oks 0) d e)

section Functions

variable (d : Database) (roomId : Str) (oks : ℕ → Bool)

/-- The number of rows that `insertChallenges` inserts. -/
def insertedRows (pairs : List ChallengePair) : ℕ :=
  inserted (roomId ∈ d.roomIds) pairs.length fun k => oks (k + 1)

/-- The outcome of the statement that ends `insertChallenges`. -/
def lastOutcome (pairs : List ChallengePair) : Bool :=
  oks (insertedRows d roomId oks pairs
    + (if insertedRows d roomId oks pairs = pairs.length then 0 else 1) + 1)

/-- What `insertChallenges` answers and leaves behind. -/
theorem insertChallenges_run (pairs : List ChallengePair) :
    (insertChallenges roomId pairs).run exec oks (.idle d) =
      (.ok (insertedRows d roomId oks pairs = pairs.length),
        ended (oks 0) (lastOutcome d roomId oks pairs) d
          (d.insertChallenges roomId (pairs.take (insertedRows d roomId oks pairs))).2
          (if insertedRows d roomId oks pairs = pairs.length
            then (d.insertChallenges roomId pairs).2 else d)) := by
  have hbegin : (insertChallenges roomId pairs).run exec oks (.idle d)
      = (insertEach roomId pairs >>= settle).run exec (fun k => oks (k + 1))
          (exec .begin (oks 0) (.idle d)).2 := rfl
  have hloop := insertEach_run roomId settle pairs (fun k => oks (k + 1)) (opened (oks 0) d d)
  dsimp only at hloop
  rw [current_opened, write_opened] at hloop
  rw [hbegin, exec_begin]
  refine hloop.trans ?_
  rw [settle_run]
  unfold lastOutcome insertedRows
  by_cases hall : inserted (roomId ∈ d.roomIds) pairs.length (fun k => oks (k + 1)) = pairs.length
  · simp [hall]
  · simp [hall]

/-- What `consumeChallenge` answers and leaves behind. -/
theorem consumeChallenge_run :
    (consumeChallenge roomId).run exec oks (.idle d) =
      match if oks 1 then d.nextUnused roomId else none with
      | some row => (.ok (some row.pair), ended (oks 0) (oks 3) d
          (if oks 2 then d.markUsed row.id else d) (if oks 2 then d.markUsed row.id else d))
      | none => (.ok none, ended (oks 0) (oks 2) d d d) := by
  have hselect : exec (.selectUnused roomId) (oks 1) (opened (oks 0) d d)
      = (if oks 1 then d.nextUnused roomId else none, opened (oks 0) d d) := by
    rw [exec, current_opened]
  have hbegin : (consumeChallenge roomId).run exec oks (.idle d)
      = (markFound (exec (.selectUnused roomId) (oks 1)
            (exec .beginImmediate (oks 0) (.idle d)).2).1).run exec (fun k => oks (k + 2))
          (exec (.selectUnused roomId) (oks 1) (exec .beginImmediate (oks 0) (.idle d)).2).2 := rfl
  rw [hbegin, exec_beginImmediate, hselect]
  cases hfound : if oks 1 then d.nextUnused roomId else none with
  | some row =>
      have hupdate : (exec (.updateUsed row.id) (oks 2) (opened (oks 0) d d)).2
          = opened (oks 0) d (if oks 2 then d.markUsed row.id else d) := by
        rw [exec, current_opened, write_opened]
        split <;> rfl
      have hrun : ∀ c : Connection, (markFound (some row)).run exec (fun k => oks (k + 2)) c
          = (.ok (some row.pair), (exec .commit (oks 3) (exec (.updateUsed row.id) (oks 2) c).2).2) :=
        fun _ => rfl
      rw [hrun, hupdate, exec_commit]
  | none =>
      have hrun : ∀ c : Connection, (markFound none).run exec (fun k => oks (k + 2)) c
          = (.ok none, (exec .rollback (oks 2) c).2) := fun _ => rfl
      rw [hrun, exec_rollback]

/-- Where no statement fails, `insertChallenges` is the function of the store. -/
theorem insertChallenges_ok (pairs : List ChallengePair) :
    (insertChallenges roomId pairs).run exec (fun _ => true) (.idle d) =
      (.ok (d.insertChallenges roomId pairs).1, .idle (d.insertChallenges roomId pairs).2) := by
  have hlast : lastOutcome d roomId (fun _ => true) pairs = true := rfl
  have hkept : ∀ e e', ended true true d e e' = .idle e' := fun _ _ => rfl
  rw [insertChallenges_run, hlast, hkept]
  by_cases hroom : roomId ∈ d.roomIds
  · have hall : insertedRows d roomId (fun _ => true) pairs = pairs.length := by
      rw [insertedRows, decide_eq_true hroom]
      exact inserted_all pairs.length
    rw [if_pos hall, (insertChallenges_of_mem hroom pairs).1, decide_eq_true hall]
  · have hnone : insertedRows d roomId (fun _ => true) pairs = 0 := by
      rw [insertedRows, decide_eq_false hroom]
      exact inserted_false pairs.length _
    rw [hnone]
    cases pairs with
    | nil => simp [insertChallenges_nil]
    | cons pair pairs => simp [insertChallenges_of_notMem hroom]

/-- Where no statement fails, `consumeChallenge` is the function of the store. -/
theorem consumeChallenge_ok :
    (consumeChallenge roomId).run exec (fun _ => true) (.idle d) =
      (.ok (d.consumeChallenge roomId).1, .idle (d.consumeChallenge roomId).2) := by
  rw [consumeChallenge_run, Database.consumeChallenge]
  cases h : d.nextUnused roomId <;> simp [ended]

end Functions

end HashHush.Sqlite
