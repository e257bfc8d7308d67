import HashHush.Dialogue

/-!
# Who is admitted

A connection is joined only after its token was found to belong to the room, or after it
answered, at the first attempt, a challenge row of the room that was handed to it and a token
was stored for it.  Every row is handed out once, so the pool a room was given caps the number
of tokens it ever issues.

The runs considered are those of the WebSocket route: any number of connections whose calls
interleave in any order.  Decoy challenges are excluded from the outset by `Honest`; their
plaintext is never sent, and a client that answers one has guessed it.

A plaintext with a NUL byte is stored whole and read back up to the NUL, so a client is let in with
less than the plaintext of its row (`admitted_by_prefix`).  `admission_sound` is about the runs in
which no such row is handed out.
-/

namespace HashHush

open Concurrency System

section Count

variable {l : List (Conn × Event)} {P Q : Event → Bool}

lemma countP_eq_sum {s : Finset Conn} (hs : ∀ e ∈ l, e.1 ∈ s) :
    l.countP (fun e => P e.2) = ∑ c ∈ s, (l.filterMap (ofConn c)).countP P := by
  induction l with
  | nil => simp
  | cons e l ih =>
      have hcons : ∀ c, ((e :: l).filterMap (ofConn c)).countP P
          = (l.filterMap (ofConn c)).countP P + if e.1 = c then (if P e.2 then 1 else 0) else 0 := by
        intro c
        by_cases hc : e.1 = c <;> simp [ofConn, hc, List.countP_cons]
      have he : e.1 ∈ s := hs e List.mem_cons_self
      rw [Finset.sum_congr rfl fun c _ => hcons c, Finset.sum_add_distrib, Finset.sum_ite_eq,
        if_pos he, ← ih fun f hf => hs f (List.mem_cons_of_mem _ hf), List.countP_cons]

/-- What every connection does at most as often as something else, all of them together do at
most as often. -/
lemma countP_le_of_ofConn
    (h : ∀ c, (l.filterMap (ofConn c)).countP P ≤ (l.filterMap (ofConn c)).countP Q) :
    l.countP (fun e => P e.2) ≤ l.countP (fun e => Q e.2) := by
  have hs : ∀ e ∈ l, e.1 ∈ (l.map Prod.fst).toFinset := fun e he =>
    List.mem_toFinset.mpr (List.mem_map_of_mem he)
  rw [countP_eq_sum hs, countP_eq_sum hs]
  exact Finset.sum_le_sum fun c _ => h c

end Count

/-! ## Rows and tokens in the log -/

/-- The id of the row that an event hands out. -/
def Event.rowId : Event → Option ℕ
  | .handedOut _ row => some row.id
  | _ => none

/-- The event hands out a row of room `r`. -/
def Event.hands (r : Str) : Event → Bool
  | .handedOut r' _ => r' = r
  | _ => false

/-- The event stores a token for room `r`. -/
def Event.stores (r : Str) : Event → Bool
  | .tokenStored _ r' => r' = r
  | _ => false

/-- The event stores a token. -/
def Event.stored : Event → Bool
  | .tokenStored _ _ => true
  | _ => false

/-- A callback of a connection marks the row it is handed as used and leaves the pools alone
otherwise. -/
lemma exec_challenges {c : Conn} {o : Op Str} (ho : o.OfWs c) (x : Choice) (w : World Str) :
    (∃ r row, o.event x w = some (.handedOut r row) ∧ w.db.nextUnused r = some row ∧
      (exec o x w).2.db.challenges = (w.db.markUsed row.id).challenges) ∨
    (∀ r row, o.event x w ≠ some (.handedOut r row)) ∧
      (exec o x w).2.db.challenges = w.db.challenges := by
  cases o with
  | consumeChallenge r =>
      cases hx : x.sql with
      | false => exact .inr ⟨by simp [Op.event, hx], by simp [exec, hx]⟩
      | true =>
          cases hn : w.db.nextUnused r with
          | none =>
              exact .inr ⟨by simp [Op.event, hx, hn],
                by simp [exec, hx, Database.consumeChallenge, hn]⟩
          | some row =>
              exact .inl ⟨r, row, by simp [Op.event, hx, hn], hn,
                by simp [exec, hx, Database.consumeChallenge, hn]⟩
  | _ =>
      refine .inr ⟨fun r row h => ?_, ?_⟩
      · cases (Op.eq_of_event_handedOut h).1
      · first
        | exact ho.elim
        | simp only [exec, Database.touchRoom, Database.updateRoom, Database.insertAccessToken]
          repeat' split
          all_goals rfl

section Run

variable {cfg : Config} {secret : List UInt8} {db : Database} {clock : ℤ}
variable {h : List (server cfg secret).Transition} {conf : State}

/-- The runs of the WebSocket route in which no decoy challenge is answered. -/
def Handshakes (h : List (server cfg secret).Transition) (m : (server cfg secret).Transition) :
    Prop :=
  OnRoute m ∧ Honest h m

/-- The rows handed out are rows of their rooms, used up, and no two of them are the same. -/
structure Spent (h : List (server cfg secret).Transition) (conf : State) : Prop where
  mem : ∀ c r row, (c, .handedOut r row) ∈ log h → row.roomId = r ∧
    ∃ row' ∈ conf.world.db.challenges, row'.id = row.id ∧ row'.roomId = r ∧ row'.used = true
  nodup : ((log h).filterMap fun e => e.2.rowId).Nodup

lemma Spent.of_eq {conf' : State} {m : (server cfg secret).Transition} (hs : Spent h conf)
    (hm : ∀ c r row, happened m ≠ some (c, .handedOut r row))
    (hdb : conf'.world.db.challenges = conf.world.db.challenges) : Spent (h ++ [m]) conf' where
  mem c r row hmem := by
    rw [log_snoc] at hmem
    rcases List.mem_append.mp hmem with hmem | hmem
    · exact hdb ▸ hs.mem c r row hmem
    · exact absurd (by simpa using hmem) (hm c r row)
  nodup := by
    rw [log_snoc, List.filterMap_append]
    have hnone : (happened m).toList.filterMap (fun e => e.2.rowId) = [] := by
      cases he : happened m with
      | none => rfl
      | some e =>
          obtain ⟨c, e⟩ := e
          cases e <;> first | rfl | exact absurd he (hm _ _ _)
    rw [hnone, List.append_nil]
    exact hs.nodup

/-- A row that is handed out was not used before, so it is none of those handed out so far. -/
lemma Spent.handOut {c : Conn} {r : Str} {row : ChallengeRow} {conf' : State}
    {m : (server cfg secret).Transition} (hs : Spent h conf)
    (hm : happened m = some (c, .handedOut r row))
    (hn : conf.world.db.nextUnused r = some row)
    (hdb : conf'.world.db.challenges = (conf.world.db.markUsed row.id).challenges) :
    Spent (h ++ [m]) conf' := by
  obtain ⟨hmem, hroom, hunused⟩ := conf.world.db.nextUnused_spec hn
  have hkeep : ∀ row' ∈ conf.world.db.challenges, row'.used = true →
      row' ∈ (conf.world.db.markUsed row.id).challenges := fun row' hrow' hused =>
    List.mem_map.mpr ⟨row', hrow', by split <;> simp [← hused]⟩
  refine ⟨fun c' r' row' hlog => ?_, ?_⟩
  · rw [log_snoc, hm] at hlog
    rcases List.mem_append.mp hlog with hlog | hlog
    · obtain ⟨hr', row'', hmem'', hid, hroom'', hused⟩ := hs.mem c' r' row' hlog
      exact ⟨hr', row'', hdb ▸ hkeep row'' hmem'' hused, hid, hroom'', hused⟩
    · obtain ⟨-, rfl, rfl⟩ : c' = c ∧ r' = r ∧ row' = row := by simpa using hlog
      refine ⟨hroom, { row' with used := true }, ?_, rfl, hroom, rfl⟩
      exact hdb ▸ List.mem_map.mpr ⟨row', hmem, if_pos rfl⟩
  · rw [log_snoc, hm, List.filterMap_append]
    refine hs.nodup.append (List.nodup_singleton _) (List.disjoint_singleton.mpr fun hid => ?_)
    obtain ⟨⟨c', e⟩, hlog, he⟩ := List.mem_filterMap.mp hid
    cases e with
    | handedOut r' row' =>
        obtain ⟨-, row'', hmem'', hid'', -, hused⟩ := hs.mem c' r' row' hlog
        have hsame : row'' = row :=
          conf.world.db.eq_of_challengeId hmem'' hmem (hid''.trans (Option.some.inj he))
        rw [hsame, hunused] at hused
        cases hused
    | _ => cases he

theorem spent_of_run (hr : Run (M := server cfg secret) Handshakes (boot db clock) h conf) :
    Spent h conf := by
  refine hr.invariant (I := fun h (conf : State) => Spent h conf) ⟨by simp [log], by simp [log]⟩ ?_
  intro h conf l conf' hr ih hs hm
  cases l with
  | start t i =>
      obtain ⟨-, -, rfl⟩ := step_start hs
      refine ih.of_eq (fun c r row he => ?_) rfl
      rcases happened_start he with ⟨t, ht⟩ | ⟨a, ha⟩
      · cases ht
      · cases ha
  | advance t x =>
      obtain ⟨c, rfl⟩ := hm.1 t rfl
      obtain ⟨o, k, ht, rfl⟩ := step_advance hs
      rcases exec_challenges (task_only hr ht).1 x conf.world with
        ⟨r, row, he, hn, hdb⟩ | ⟨he, hdb⟩
      · exact ih.handOut (by rw [happened_advance ht, he]; rfl) hn hdb
      · refine ih.of_eq (fun c' r row h => ?_) hdb
        rw [happened_advance ht] at h
        obtain ⟨e, he', heq⟩ := Option.map_eq_some_iff.mp h
        obtain ⟨-, rfl⟩ : c = c' ∧ e = .handedOut r row := by simpa using heq
        exact he r row he'
  | env e =>
      obtain ⟨w, hw, rfl⟩ := step_env hs
      refine ih.of_eq (by simp [happened]) ?_
      rw [ambient_db hw]

lemma ByChallenge.snoc {r : Str} {row : ChallengeRow} {es : List Event}
    (hes : ByChallenge r row es) (e : Event) : ByChallenge r row (es ++ [e]) := by
  obtain ⟨es', token, post, hch, rfl⟩ := hes
  exact ⟨es', token, post ++ [e], hch, by simp⟩

/-- Only the call that stores a token is the event of storing one. -/
lemma task_of_tokenStored {conf' : State} {l : (server cfg secret).Label} {c : Conn}
    {token r : Str} (hs : step conf l = some conf')
    (he : eventOf c (⟨conf, l, conf'⟩ : (server cfg secret).Transition)
      = some (.tokenStored token r)) :
    ∃ k, conf.task (.ws c) = some (.call (.insertAccessToken token r) k) := by
  by_cases hl : l.IsOf (Task.ws c)
  · cases l with
    | start t i =>
        rcases eventOf_start he with ⟨t, ht⟩ | ⟨a, ha⟩
        · cases ht
        · cases ha
    | advance t x =>
        obtain rfl : t = Task.ws c := hl
        obtain ⟨o, k, ht, -⟩ := step_advance hs
        rw [eventOf_advance ht] at he
        obtain rfl := (Op.eq_of_event_tokenStored he).1
        exact ⟨k, ht⟩
    | env e => exact hl.elim
  · rw [eventOf_of_not_isOf hl] at he
    cases he

/-- A token is stored for a connection once, and after an answered challenge. -/
theorem stored_of_run (hr : Run (M := server cfg secret) Handshakes (boot db clock) h conf)
    (c : Conn) : (events c h).countP Event.stored ≤ 1 ∧
      ∀ token r, .tokenStored token r ∈ events c h → ∃ row, ByChallenge r row (events c h) := by
  refine hr.invariant (I := fun h _ => (events c h).countP Event.stored ≤ 1 ∧
    ∀ token r, .tokenStored token r ∈ events c h → ∃ row, ByChallenge r row (events c h))
    (by simp [events, log]) ?_
  intro h conf l conf' hr ih hs hm
  rw [events_snoc]
  cases he : eventOf c (⟨conf, l, conf'⟩ : (server cfg secret).Transition) with
  | none => simpa using ih
  | some e =>
      rw [Option.toList_some, List.countP_append, List.countP_singleton]
      cases e with
      | tokenStored token r =>
          obtain ⟨k, ht⟩ := task_of_tokenStored hs he
          have hpre := (serves_dialogue False (fun _ _ hm => .inr hm.2) hr c).pre ht
          obtain ⟨hu, ⟨row, es', hch, hes⟩ | hd⟩ := hpre
          · have hnone : (events c h).countP Event.stored = 0 := by
              rw [List.countP_eq_zero]
              intro e hmem
              cases e with
              | tokenStored t r => exact absurd hmem (hu t r)
              | _ => simp [Event.stored]
            refine ⟨by simp [hnone, Event.stored], fun token' r' hmem => ⟨row, ?_⟩⟩
            rcases List.mem_append.mp hmem with hmem | hmem
            · exact absurd hmem (hu token' r')
            · obtain ⟨rfl, rfl⟩ : token' = token ∧ r' = r := by simpa using hmem
              exact ⟨es', token', [], hch, by rw [show events c h = _ from hes]; simp⟩
          · exact hd.elim
      | _ =>
          refine ⟨by simpa [Event.stored] using ih.1, fun token r hmem => ?_⟩
          obtain ⟨row, hrow⟩ := ih.2 token r (by simpa using hmem)
          exact ⟨row, hrow.snoc _⟩

/-- A row that is handed out has a plaintext without a NUL byte. -/
def ReadWhole (m : (server cfg secret).Transition) : Prop :=
  ∀ c r row, happened m = some (c, .handedOut r row) → 0 ∉ row.plaintextB64

/-- A challenge of room `r` was asked for, the plaintext of the row handed out was answered at the
first attempt, and a token was stored for the room. -/
def ByPlaintext (r : Str) (row : ChallengeRow) (es : List Event) : Prop :=
  ∃ es' token post, Challenged r row es' ∧
    es = es' ++ [.response row.plaintextB64, .tokenStored token r] ++ post

/-- The answer that the server expects is the plaintext, unless that was cut short. -/
lemma ByChallenge.byPlaintext {r : Str} {row : ChallengeRow} {es : List Event}
    (hes : ByChallenge r row es) (hrow : 0 ∉ row.plaintextB64) : ByPlaintext r row es := by
  obtain ⟨es', token, post, hch, rfl⟩ := hes
  have hpair : row.pair.plaintextB64 = row.plaintextB64 := cText_of_notMem hrow
  exact ⟨es', token, post, hch, by rw [hpair]⟩

/-- The rows that have been handed out have plaintexts without a NUL byte. -/
lemma readWhole_of_run
    (hr : Run (M := server cfg secret) (fun _ => ReadWhole) (boot db clock) h conf) {c : Conn}
    {r : Str} {row : ChallengeRow} (hrow : (c, .handedOut r row) ∈ log h) :
    0 ∉ row.plaintextB64 := by
  obtain ⟨m, hm, hhappened⟩ := List.mem_filterMap.mp hrow
  obtain ⟨g, g', rfl⟩ := List.append_of_mem hm
  exact hr.of_append.2.2 c r row hhappened

lemma ByChallenge.handedOut_mem {r : Str} {row : ChallengeRow} {es : List Event}
    (hes : ByChallenge r row es) : .handedOut r row ∈ es := by
  obtain ⟨es', token, post, ⟨pre, mid, -, rfl⟩, rfl⟩ := hes
  simp

/-- The guarantees about who is admitted. -/
structure AdmissionSound (h : List (server cfg secret).Transition) (conf : State) : Prop where
  /-- Whoever is joined came in with a token of the room or by answering one of its rows. -/
  admitted : ∀ c p, conf.world.mgr.peers c = some p → p.joined = true →
    ByToken p.roomId (events c h) ∨
      ∃ row, row.roomId = p.roomId ∧ ByPlaintext p.roomId row (events c h)
  /-- No row is handed out twice. -/
  handedOutOnce : ((log h).filterMap fun e => e.2.rowId).Nodup
  /-- A connection comes in by a challenge once, and no two come in by the same row. -/
  storedOnce : ∀ c, (events c h).countP Event.stored ≤ 1
  ownRow : ∀ c c' r r' row row', c ≠ c' → ByChallenge r row (events c h) →
    ByChallenge r' row' (events c' h) → row.id ≠ row'.id
  /-- No more tokens are stored for a room than it has rows. -/
  tokens_le : ∀ r, (log h).countP (fun e => e.2.stores r)
    ≤ (conf.world.db.challenges.filter fun row => row.roomId = r).length

/-- Rows handed out on two connections are different rows. -/
lemma Spent.ne_of_ne (hs : Spent h conf) {c c' : Conn} {r r' : Str} {row row' : ChallengeRow}
    (hc : c ≠ c') (hrow : .handedOut r row ∈ events c h) (hrow' : .handedOut r' row' ∈ events c' h) :
    row.id ≠ row'.id := by
  intro hid
  let R : Conn × Event → Conn × Event → Prop := fun a b =>
    ∀ i, a.2.rowId = some i → ∀ j, b.2.rowId = some j → i ≠ j
  have : Std.Symm R := ⟨fun a b hab i hi j hj => (hab j hj i hi).symm⟩
  have hpair : (log h).Pairwise R := List.pairwise_filterMap.mp hs.nodup
  have hne : (c, Event.handedOut r row) ≠ (c', Event.handedOut r' row') := fun e =>
    hc (congrArg Prod.fst e)
  exact hpair.forall (mem_events.mp hrow) (mem_events.mp hrow') hne row.id rfl row'.id rfl hid

/-- The rows of a room that were handed out are at most as many as the room has. -/
lemma Spent.hands_le (hs : Spent h conf) (r : Str) : (log h).countP (fun e => e.2.hands r)
    ≤ (conf.world.db.challenges.filter fun row => row.roomId = r).length := by
  set handed := (log h).filter fun e => e.2.hands r with hhanded
  have hids : (handed.filterMap fun e => e.2.rowId).length = handed.length := by
    rw [List.length_filterMap_eq_countP, List.countP_eq_length]
    intro e he
    have := (List.mem_filter.mp he).2
    obtain ⟨c, e⟩ := e
    cases e <;> simp_all [Event.hands, Event.rowId]
  have hnodup : (handed.filterMap fun e => e.2.rowId).Nodup :=
    hs.nodup.sublist (List.filter_sublist.filterMap _)
  have hsub : handed.filterMap (fun e => e.2.rowId)
      ⊆ (conf.world.db.challenges.filter fun row => row.roomId = r).map ChallengeRow.id := by
    intro i hi
    obtain ⟨⟨c, e⟩, he, hei⟩ := List.mem_filterMap.mp hi
    obtain ⟨hmem, hr⟩ := List.mem_filter.mp he
    cases e with
    | handedOut r' row =>
        obtain rfl : r' = r := by simpa [Event.hands] using hr
        obtain ⟨-, row', hrow', hid, hroom, -⟩ := hs.mem c r' row hmem
        refine List.mem_map.mpr ⟨row', List.mem_filter.mpr ⟨hrow', by simpa using hroom⟩, ?_⟩
        exact hid.trans (Option.some.inj hei)
    | _ => cases hei
  calc (log h).countP (fun e => e.2.hands r) = handed.length := List.countP_eq_length_filter
    _ = (handed.filterMap fun e => e.2.rowId).length := hids.symm
    _ ≤ ((conf.world.db.challenges.filter fun row => row.roomId = r).map
          ChallengeRow.id).length := (hnodup.subperm hsub).length_le
    _ = _ := List.length_map _

/-- **Admission is sound** in every run of the WebSocket route in which no decoy is answered and no
row is handed out whose plaintext has a NUL byte. -/
theorem admission_sound (hr : Run (M := server cfg secret)
    (fun h m => Handshakes h m ∧ ReadWhole m) (boot db clock) h conf) : AdmissionSound h conf := by
  have hwhole : Run (M := server cfg secret) (fun _ => ReadWhole) (boot db clock) h conf :=
    hr.weaken fun _ _ hm => hm.2
  replace hr : Run (M := server cfg secret) Handshakes (boot db clock) h conf :=
    hr.weaken fun _ _ hm => hm.1
  have hspent := spent_of_run hr
  constructor
  · intro c p hp hj
    rcases passed_of_joined hr hp hj with htoken | ⟨token, hmem⟩
    · exact .inl htoken
    · obtain ⟨row, hrow⟩ := (stored_of_run hr c).2 token p.roomId hmem
      have hmem := mem_events.mp hrow.handedOut_mem
      refine .inr ⟨row, (hspent.mem c _ row hmem).1, ?_⟩
      exact hrow.byPlaintext (readWhole_of_run hwhole hmem)
  · exact hspent.nodup
  · exact fun c => (stored_of_run hr c).1
  · intro c c' r r' row row' hc hrow hrow'
    exact hspent.ne_of_ne hc hrow.handedOut_mem hrow'.handedOut_mem
  · intro r
    refine le_trans (countP_le_of_ofConn fun c => ?_) (hspent.hands_le r)
    -- one connection: at most one token, and none without a row
    obtain ⟨honce, hrow⟩ := stored_of_run hr c
    have hle : (events c h).countP (Event.stores r) ≤ (events c h).countP Event.stored :=
      List.countP_mono_left fun e _ he => by cases e <;> simp_all [Event.stores, Event.stored]
    rcases Nat.eq_zero_or_pos ((events c h).countP (Event.stores r)) with hzero | hpos
    · exact hzero ▸ Nat.zero_le _
    · obtain ⟨e, hmem, he⟩ := List.countP_pos_iff.mp hpos
      cases e with
      | tokenStored token r' =>
          obtain rfl : r' = r := by simpa [Event.stores] using he
          obtain ⟨row, hch⟩ := hrow token r' hmem
          have : 0 < (events c h).countP (Event.hands r') :=
            List.countP_pos_iff.mpr ⟨_, hch.handedOut_mem, by simp [Event.hands]⟩
          exact le_trans (le_trans hle honce) this
      | _ => simp [Event.stores] at he

end Run

/-- A frame does not answer a decoy with which these events ended. -/
def undeceived (es : List Event) : Option Event → Bool
  | some (.response a) => decide (¬ [.hello [], .challenged a] <:+: es)
  | _ => true

/-- A test for runs of the WebSocket route in which no decoy is answered. -/
def handshakeTest {cfg : Config} {secret : List UInt8} (h : List (server cfg secret).Transition)
    (m : (server cfg secret).Transition) : Bool :=
  onRoute m && match m.label with
    | .start (.ws c) (.message data) => undeceived (events c h) (data.event cfg)
    | _ => true

lemma handshakes_of_test {cfg : Config} {secret : List UInt8}
    (h : List (server cfg secret).Transition) (m : (server cfg secret).Transition)
    (hm : handshakeTest h m = true) : Handshakes h m := by
  obtain ⟨hroute, hframe⟩ := Bool.and_eq_true_iff.mp hm
  refine ⟨onRoute_of_test hroute, ?_⟩
  obtain ⟨conf, l, conf'⟩ := m
  rintro c data a rfl ha ⟨pre, mid, -, hes⟩
  have hframe : undeceived (events c h) (data.event cfg) = true := hframe
  rw [ha] at hframe
  exact of_decide_eq_true hframe ⟨pre, mid, hes.symm⟩

/-- A test for transitions that hand out no row whose plaintext has a NUL byte. -/
def readWholeTest {cfg : Config} {secret : List UInt8} (m : (server cfg secret).Transition) :
    Bool :=
  match happened m with
  | some (_, .handedOut _ row) => !row.plaintextB64.contains 0
  | _ => true

lemma readWhole_of_test {cfg : Config} {secret : List UInt8}
    {m : (server cfg secret).Transition} (hm : readWholeTest m = true) : ReadWhole m := by
  intro c r row he
  rw [readWholeTest, he] at hm
  simpa using hm

/-- The callbacks of a client that asks for a challenge and answers `p`. -/
def Sample.answering : List (server {} Sample.secret).Label :=
  Sample.opening 0 ++ Sample.handle (.ws 0) (Sample.frame [("type", "hello")]) 7
    ++ Sample.handle (.ws 0) (Sample.frame [("type", "challenge_response"), ("plaintext", "p")]) 10

/-- A client answers the one challenge of the sample room. -/
def Sample.answers : Script (M := server {} Sample.secret)
    (boot (Sample.store 2 [⟨ascii "p", ascii "c", ascii "n"⟩] []) 0)
    (fun h m => handshakeTest h m && readWholeTest m)
    (fun _ conf => (conf.world.mgr.peers 0).any Peer.joined) where
  labels := Sample.answering
  performed := by decide +kernel

/-- A client that answers the one challenge of the sample room is joined. -/
theorem admission_sound_sample : ∃ (h : List (server {} Sample.secret).Transition) (conf : State),
    (conf.world.mgr.peers 0).any Peer.joined = true ∧ AdmissionSound h conf := by
  have htest : ∀ h (m : (server {} Sample.secret).Transition),
      (handshakeTest h m && readWholeTest m) = true → Handshakes h m ∧ ReadWhole m := by
    intro h m hm
    obtain ⟨hhandshake, hwhole⟩ := Bool.and_eq_true_iff.mp hm
    exact ⟨handshakes_of_test h m hhandshake, readWhole_of_test hwhole⟩
  obtain ⟨h, conf, hr, hj⟩ := Sample.answers.exists_run fun h m _ => htest h m
  exact ⟨h, conf, hj, admission_sound hr⟩

/-- No token has been presented, and no row handed out has been answered with its plaintext. -/
def unearned (es : List Event) : Bool :=
  es.all fun e => match e with
    | .ownerFound _ _ => false
    | .handedOut _ row => !es.contains (.response row.plaintextB64)
    | _ => true

/-- The plaintext of the one challenge of the sample room is longer than the answer by a NUL byte
and what follows it. -/
def Sample.answersPrefix : Script (M := server {} Sample.secret)
    (boot (Sample.store 2 [⟨ascii "p" ++ [0] ++ ascii "q", ascii "c", ascii "n"⟩] []) 0)
    handshakeTest
    (fun h conf => (conf.world.mgr.peers 0).any Peer.joined && unearned (events 0 h)) where
  labels := Sample.answering
  performed := by decide +kernel

/-- A client is let in with the part of a plaintext before its NUL byte. -/
theorem admitted_by_prefix : ¬ ∀ (cfg : Config) (secret : List UInt8) (db : Database) (clock : ℤ)
    (h : List (server cfg secret).Transition) (conf : State),
    Run (M := server cfg secret) Handshakes (boot db clock) h conf → AdmissionSound h conf := by
  intro hall
  obtain ⟨h, conf, hr, hend⟩ := Sample.answersPrefix.exists_run fun h m _ => handshakes_of_test h m
  obtain ⟨hjoined, hunearned⟩ := Bool.and_eq_true_iff.mp hend
  obtain ⟨p, hp, hj⟩ := (Option.any_eq_true _ _).mp hjoined
  have hevents := List.all_eq_true.mp hunearned
  rcases (hall _ _ _ _ h conf hr).admitted 0 p hp hj with
    ⟨pre, token, post, -, hes⟩ | ⟨row, -, es', token, post, ⟨pre, mid, -, rfl⟩, hes⟩
  · have howner := hevents (.ownerFound token p.roomId) (by simp [hes])
    cases howner
  · have hrow := hevents (.handedOut p.roomId row) (by simp [hes])
    simp [hes] at hrow

end HashHush
