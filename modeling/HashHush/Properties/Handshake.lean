import HashHush.Properties.Activation
import HashHush.Properties.Credentials
import HashHush.Web.ChatClient
import HashHush.Web.Home

/-!
# The handshake, end to end
-/

namespace HashHush.Web

open Concurrency

section Handshake

/-- What the page takes for granted of libsodium: the ciphertexts under the key of a room open under
it and no other and are sixteen bytes longer than the plaintext, and base64 is the usual one and
can be decoded. -/
structure Sodium.Lawful (S : Sodium) (key : List UInt8) : Prop where
  decrypt_encrypt : ∀ m n, S.decrypt (S.encrypt m n key) n key = some m
  decrypt_other : ∀ k, k ≠ key → ∀ m n, S.decrypt (S.encrypt m n key) n k = none
  length_encrypt : ∀ m n, (S.encrypt m n key).length = m.length + 16
  toB64_eq : ∀ b, S.toB64 b = base64Encode b
  fromB64_toB64 : ∀ b, S.fromB64 (S.toB64 b) = some b

variable {S : Sodium} {key : List UInt8} {r : Str}

/-! ## The upload -/

/-- The challenges of a room are encrypted under the key. -/
def Encrypted (S : Sodium) (key : List UInt8) (r : Str) (d : Database) : Prop :=
  ∀ row ∈ d.challenges, row.roomId = r → ∃ plaintext nonce : List UInt8, plaintext.length = 32 ∧
    row.pair = Home.pair S key plaintext nonce

/-- A blob of the pool has the length that its bytes give it. -/
lemma Home.length_of_mem_challenges (hS : S.Lawful key) {draws : ℕ → ℕ → UInt8} {n : ℤ}
    {p : ChallengePair} (hp : p ∈ Home.challenges S key draws n) :
    p.plaintextB64.length = 44 ∧ p.ciphertextB64.length = 64 ∧ p.nonceB64.length = 32 := by
  obtain ⟨i, -, rfl⟩ := List.mem_map.mp hp
  simp only [Home.pair, hS.toB64_eq, length_base64Encode, hS.length_encrypt, randomBytes,
    List.length_map, List.length_range]
  norm_num

lemma Home.js_str_entry (p : ChallengePair) :
    (Home.entry p).js_str (ascii "plaintext") = .ok p.plaintextB64 ∧
      (Home.entry p).js_str (ascii "ciphertext") = .ok p.ciphertextB64 ∧
      (Home.entry p).js_str (ascii "nonce") = .ok p.nonceB64 := by
  have hpc : ascii "plaintext" ≠ ascii "ciphertext" := by simp [ascii]
  have hpn : ascii "plaintext" ≠ ascii "nonce" := by simp [ascii]
  have hcn : ascii "ciphertext" ≠ ascii "nonce" := by simp [ascii]
  refine ⟨?_, ?_, ?_⟩ <;> simp [Home.entry, Json.js_str_object, hpc, hpn, hcn]

/-- The server takes every entry of a pool whose blobs are neither empty nor too large. -/
lemma challengePairs_map_entry {cfg : Config} {pool : List ChallengePair}
    (hpool : ∀ p ∈ pool, p.plaintextB64.length = 44 ∧ p.ciphertextB64.length = 64 ∧
      p.nonceB64.length = 32) (hlimit : 32 ≤ cfg.challengeMaxBlobBytes)
    (hint : cfg.challengeMaxBlobBytes < 2 ^ 30) :
    challengePairs cfg (pool.map Home.entry) = .ok (.ok pool) := by
  induction pool with
  | nil => rfl
  | cons p pool ih =>
      obtain ⟨hplaintext, hciphertext, hnonce⟩ := hpool p List.mem_cons_self
      obtain ⟨hp, hc, hn⟩ := Home.js_str_entry p
      have hrest := ih fun q hq => hpool q (List.mem_cons_of_mem _ hq)
      have hne : ¬ (p.plaintextB64 = [] ∨ p.ciphertextB64 = [] ∨ p.nonceB64 = []) := by
        rintro (h | h | h)
        · simp [h] at hplaintext
        · simp [h] at hciphertext
        · simp [h] at hnonce
      have hcap : wrapInt (cfg.challengeMaxBlobBytes * 2) = cfg.challengeMaxBlobBytes * 2 :=
        wrapInt_of_mem (by omega) (by omega)
      have hfits : ¬ (castInt p.plaintextB64.length > wrapInt (cfg.challengeMaxBlobBytes * 2) ∨
          castInt p.ciphertextB64.length > wrapInt (cfg.challengeMaxBlobBytes * 2) ∨
          castInt p.nonceB64.length > wrapInt (cfg.challengeMaxBlobBytes * 2)) := by
        rw [hcap, hplaintext, hciphertext, hnonce, castInt_of_lt (by norm_num),
          castInt_of_lt (by norm_num), castInt_of_lt (by norm_num)]
        omega
      simp only [List.map_cons, challengePairs, hp, hc, hn, hrest, bind, Except.bind, if_neg hne,
        if_neg hfits]
      rfl

/-- A body with a list of the right length is checked entry by entry. -/
lemma checkPool_of_list {cfg : Config} {row : RoomRow} {body : Json} {arr : List Json}
    (hhas : body.has (ascii "challenges") = .ok true)
    (hat : body.at' (ascii "challenges") = .ok (.list arr))
    (hcount : castInt arr.length = required row) :
    checkPool cfg row (some body) = challengePairs cfg arr := by
  simp only [checkPool, hhas, hat, bind, Except.bind, if_true]
  exact if_neg (by simpa using hcount)

/-- The body of the upload passes the checks of the handler. -/
lemma checkPool_activateBody {cfg : Config} {row : RoomRow} {pool : List ChallengePair}
    (hpool : ∀ p ∈ pool, p.plaintextB64.length = 44 ∧ p.ciphertextB64.length = 64 ∧
      p.nonceB64.length = 32) (hlimit : 32 ≤ cfg.challengeMaxBlobBytes)
    (hint : cfg.challengeMaxBlobBytes < 2 ^ 30) (hcount : (pool.length : ℤ) = required row)
    (hfits : pool.length < 2 ^ 31) :
    checkPool cfg row (some (Home.activateBody pool)) = .ok (.ok pool) := by
  have hhas : (Home.activateBody pool).has (ascii "challenges") = .ok true := by
    simp [Home.activateBody, Json.has]
  have hat : (Home.activateBody pool).at' (ascii "challenges")
      = .ok (.list (pool.map Home.entry)) := by
    simp [Home.activateBody, Json.at']
  have hlength : castInt (pool.map Home.entry).length = required row := by
    rw [List.length_map, castInt_of_lt hfits, hcount]
  rw [checkPool_of_list hhas hat hlength, challengePairs_map_entry hpool hlimit hint]

/-- The rows of an upload hold its triples. -/
lemma exists_of_mem_challengeRows {id : Str} {c : ChallengeRow} :
    ∀ {seq : ℕ} {ps : List ChallengePair}, c ∈ Database.challengeRows id seq ps →
      ∃ p ∈ ps, c.plaintextB64 = p.plaintextB64 ∧ c.ciphertextB64 = p.ciphertextB64 ∧
        c.nonceB64 = p.nonceB64
  | seq, p :: ps, h => by
      rcases List.mem_cons.mp h with rfl | h
      · exact ⟨p, List.mem_cons_self, rfl, rfl, rfl⟩
      · obtain ⟨q, hq, heq⟩ := exists_of_mem_challengeRows h
        exact ⟨q, List.mem_cons_of_mem _ hq, heq⟩

/-- The first upload for a room makes its pool. -/
lemma encrypted_insertChallenges (hS : S.Lawful key) {d : Database}
    (hempty : ∀ row ∈ d.challenges, row.roomId ≠ r) (draws : ℕ → ℕ → UInt8) (n : ℤ) :
    Encrypted S key r (d.insertChallenges r (Home.challenges S key draws n)).2 := by
  intro row hrow hr
  have hmem : row ∈ Database.challengeRows r d.challengeSeq (Home.challenges S key draws n) := by
    unfold Database.insertChallenges at hrow
    split at hrow
    · exact (List.mem_append.mp hrow).resolve_left fun h => hempty row h hr
    · exact absurd hr (hempty row hrow)
  obtain ⟨p, hp, hplaintext, hciphertext, hnonce⟩ := exists_of_mem_challengeRows hmem
  obtain ⟨i, -, rfl⟩ := List.mem_map.mp hp
  have hzero : ∀ b, 0 ∉ S.toB64 b := by
    intro b
    rw [hS.toB64_eq]
    exact zero_notMem_base64Encode b
  refine ⟨randomBytes (draws (2 * i)) 32, randomBytes (draws (2 * i + 1)) 24, ?_, ?_⟩
  · simp [randomBytes]
  · simp only [ChallengeRow.pair, hplaintext, hciphertext, hnonce, Home.pair,
      cText_of_notMem (hzero _)]

variable {w : World Str} {xs : ℕ → Choice}

/-- The upload for a room that exists and is not activated is accepted. -/
lemma run_activate {cfg : Config} {n : ℕ} {row : RoomRow} {pool : List ChallengePair}
    (hsql : ∀ i, (xs i).sql = true) (hroom : w.db.findRoom r = some row)
    (hinactive : row.activated = false)
    (hcheck : checkPool cfg row (some (Home.activateBody pool)) = .ok (.ok pool)) :
    (activate cfg n r (some (Home.activateBody pool)) : Handler Str Unit).run exec xs w
      = (.ok (), { w with
          db := ((w.db.insertChallenges r pool).2.activateRoom r w.clock).2
          answers := w.answers ++ [(n, .ok)] }) := by
  have hin : r ∈ w.db.roomIds := by
    by_contra h
    rw [(Database.findRoom_eq_none w.db).mpr h] at hroom
    cases hroom
  have hinserted : (w.db.insertChallenges r pool).1 = true := by
    unfold Database.insertChallenges
    rw [dif_pos (.inl hin)]
  have hactivated : ((w.db.insertChallenges r pool).2.activateRoom r w.clock).1 = true := by
    have hrooms : (w.db.insertChallenges r pool).2.rooms = w.db.rooms := by
      unfold Database.insertChallenges
      rw [dif_pos (.inl hin)]
    obtain ⟨row', hrow', hid⟩ := List.mem_map.mp hin
    rw [Database.activateRoom, hrooms]
    exact List.any_eq_true.mpr ⟨row', hrow', by simpa using hid⟩
  unfold activate
  rw [run_call_bind]
  simp only [exec, hsql, hroom, if_true]
  rw [if_neg (by simp [hinactive]), hcheck, json_ok_bind]
  unfold storePool
  rw [run_call_bind]
  simp only [exec, hsql, if_true, hinserted, finishActivation]
  rw [run_call_bind]
  simp only [exec, hsql, if_true, hactivated]
  rfl

/-- A room that has been inserted is found, and has no challenges. -/
lemma createRoom_spec {d : Database} {row : RoomRow} (h : (d.createRoom row).1 = true) :
    (d.createRoom row).2.findRoom row.id
        = some { row with id := cText row.id, name := cText row.name } ∧
      ∀ c ∈ (d.createRoom row).2.challenges, c.roomId ≠ row.id := by
  have hnew : row.id ∉ d.rooms.map RoomRow.id := by
    intro hin
    rw [Database.createRoom, dif_pos hin] at h
    cases h
  rw [Database.createRoom, dif_neg hnew]
  refine ⟨?_, ?_⟩
  · have hnone : d.rooms.find? (fun r => decide (r.id = row.id)) = none := by
      rw [List.find?_eq_none]
      intro r hr
      have hne : r.id ≠ row.id := fun heq => hnew (heq ▸ List.mem_map_of_mem hr)
      simpa using hne
    simp [Database.findRoom, List.find?_append, hnone]
  · intro c hc heq
    exact hnew (heq ▸ d.challengeRoom c hc)

/-- A room that the server reports created has the capacity that it reports, needs the number of
challenges that it reports, and has none. -/
lemma of_created {cfg : Config} {n : ℕ} {body : Json} {w' : World Str} {m count : ℤ} {flag : Bool}
    (hrun : ((createRoom cfg n body : Handler Str Unit).run exec xs w).2 = w')
    (h : w'.answers = w.answers ++ [(n, .created r m count flag)]) :
    0 ∉ r ∧ (∃ row, w'.db.findRoom r = some row ∧ row.maxParticipants = m ∧
      row.requiresPassword = flag ∧ required row = count ∧ row.activated = false) ∧
      ∀ row ∈ w'.db.challenges, row.roomId ≠ r := by
  have hother : w'.answers ≠ w.answers ∧
      ∀ e, w'.answers ≠ w.answers ++ [(n, .error e)] := by
    refine ⟨fun heq => ?_, fun e heq => ?_⟩
    · simpa [h] using congrArg List.length heq
    · rw [h] at heq
      simp at heq
  unfold createRoom at hrun
  cases hname : body.js_str (ascii "name") (ascii "Secret chat") with
  | error e =>
      rw [hname] at hrun
      exact absurd (congrArg World.answers hrun.symm) hother.1
  | ok name =>
      cases hflag : body.js_bool (ascii "requires_password") false with
      | error e =>
          rw [hname, hflag] at hrun
          exact absurd (congrArg World.answers hrun.symm) hother.1
      | ok requiresPassword =>
          rw [hname, hflag, json_ok_bind, json_ok_bind] at hrun
          have hcount : ∀ f : ℤ → Handler Str Unit, ∃ v xs',
              ((if cfg.totalRoomsCap > 0 then call .countRooms else .ret 0 : Handler Str ℤ)
                >>= f).run exec xs w = (f v).run exec xs' w := by
            intro f
            split
            · exact ⟨_, _, rfl⟩
            · exact ⟨_, _, rfl⟩
          obtain ⟨v, xs', hv⟩ := hcount _
          rw [hv] at hrun
          split at hrun
          · exact absurd (congrArg World.answers hrun.symm) (hother.2 _)
          · rw [run_call_bind, run_call_bind, run_call_bind] at hrun
            dsimp only [exec] at hrun
            split at hrun
            · split at hrun
              · rename_i hinserted
                rw [run_call] at hrun
                obtain rfl := hrun
                have hanswer := List.append_cancel_left h
                simp only [List.cons.injEq, Prod.mk.injEq, Response.created.injEq, true_and,
                  and_true] at hanswer
                obtain ⟨rfl, rfl, rfl, rfl⟩ := hanswer
                obtain ⟨hroom, hnone⟩ := createRoom_spec hinserted
                exact ⟨zero_notMem_roomIdOfBytes _, ⟨_, hroom, rfl, rfl, rfl, rfl⟩, hnone⟩
              · exact absurd (congrArg World.answers hrun.symm) (hother.2 _)
            · exact absurd (congrArg World.answers hrun.symm) (hother.2 _)

/-! ## Meanwhile -/

/-- What other threads do between two handlers, within the operations allowed to them, and the
environment. -/
def Meanwhile (allowed : Op Str → Prop) : World Str → World Str → Prop :=
  Relation.ReflTransGen fun w w' => (∃ o x, allowed o ∧ w' = (exec o x w).2) ∨
    ∃ clock destroyed, w' = { w with clock, destroyed }

lemma Meanwhile.invariant {allowed : Op Str → Prop} {w w' : World Str} {I : World Str → Prop}
    (h : Meanwhile allowed w w') (hw : I w)
    (hexec : ∀ o x w, allowed o → I w → I (exec o x w).2)
    (henv : ∀ (w : World Str) clock destroyed, I w → I { w with clock, destroyed }) : I w' := by
  induction h with
  | refl => exact hw
  | tail _ hstep ih =>
      rcases hstep with ⟨o, x, ho, rfl⟩ | ⟨clock, destroyed, rfl⟩
      · exact hexec o x _ ho ih
      · exact henv _ clock destroyed ih

/-- Until it is activated nobody else uploads a pool for the room, activates or removes it. -/
def LeavesAlone (r : Str) (o : Op Str) : Prop := o.Spares r ∧ o ≠ .deleteRoom r

/-- Afterwards nobody else uploads a pool for the room or removes it. -/
def Keeps (r : Str) (o : Op Str) : Prop :=
  (∀ pairs, o ≠ .insertChallenges r pairs) ∧ o ≠ .deleteRoom r

/-- Between two frames of a connection its record is not written, and the room not removed. -/
def Awaits (c : Conn) (r : Str) (o : Op Str) : Prop := o.writes ≠ some c ∧ o ≠ .deleteRoom r

/-- The room waits for its pool. -/
def Fillable (r : Str) (count : ℤ) (w : World Str) : Prop :=
  (∃ row, w.db.findRoom r = some row ∧ required row = count ∧ row.activated = false) ∧
    w.db.poolSize r = 0

lemma Fillable.meanwhile {count : ℤ} {w w' : World Str} (h : Meanwhile (LeavesAlone r) w w')
    (hw : Fillable r count w) : Fillable r count w' := by
  refine h.invariant hw ?_ fun _ _ _ hw => hw
  rintro o x w ⟨hspares, hdelete⟩ ⟨⟨row, hrow, hcount, hactive⟩, hpool⟩
  have hin : r ∈ w.db.roomIds := by
    by_contra hout
    rw [(Database.findRoom_eq_none w.db).mpr hout] at hrow
    cases hrow
  have hkept : (⟨o, (exec o x w).1⟩ : Called (signature Str)) ≠ ⟨.deleteRoom r, true⟩ :=
    fun heq => hdelete (congrArg Sigma.fst heq)
  obtain ⟨hpool', hcolumns⟩ := exec_spares hspares x hin hkept
  rw [hrow, Option.map_some, Option.map_eq_some_iff] at hcolumns
  obtain ⟨row', hrow', hcolumns⟩ := hcolumns
  obtain ⟨hcap', hactive'⟩ := Prod.mk.inj hcolumns
  have hcount' : required row' = required row := congrArg wrapInt hcap'
  exact ⟨⟨row', hrow', hcount'.trans hcount, hactive'.trans hactive⟩, hpool'.trans hpool⟩

lemma Encrypted.meanwhile {w w' : World Str} (h : Meanwhile (Keeps r) w w')
    (hw : Encrypted S key r w.db) : Encrypted S key r w'.db := by
  refine h.invariant (I := fun w => Encrypted S key r w.db) hw ?_ fun _ _ _ hw => hw
  rintro o x w ⟨hupload, -⟩ hw row hrow hr
  have hamong : row.Among (exec o x w).2.db.challenges := ⟨row.used, hrow⟩
  rcases among_challenges_exec hamong with ⟨⟨used, hold⟩, -⟩ | ⟨-, pairs, ho, -⟩
  · exact hw { row with used } hold hr
  · exact absurd (hr ▸ ho) (hupload pairs)

/-- The record of the connection and the room are there when the next frame comes. -/
lemma Meanwhile.awaits {c : Conn} {w w' : World Str} (h : Meanwhile (Awaits c r) w w') :
    w'.mgr.peers c = w.mgr.peers c ∧ (r ∈ w.db.roomIds → r ∈ w'.db.roomIds) := by
  refine h.invariant (I := fun w' => w'.mgr.peers c = w.mgr.peers c ∧
    (r ∈ w.db.roomIds → r ∈ w'.db.roomIds)) ⟨rfl, id⟩ ?_ fun _ _ _ hw => hw
  rintro o x w₁ ⟨hwrites, hdelete⟩ ⟨hpeers, hroom⟩
  refine ⟨(exec_peers hwrites x w₁).trans hpeers, fun hin => ?_⟩
  rcases exec_roomIds o x w₁ with hsame | ⟨row, -, hmore⟩ | ⟨id, rfl, -, hless⟩
  · rw [hsame]
    exact hroom hin
  · rw [hmore]
    exact List.mem_append_left _ (hroom hin)
  · rw [hless]
    have hne : r ≠ id := fun heq => hdelete (heq ▸ rfl)
    exact List.mem_filter.mpr ⟨hroom hin, by simpa using hne⟩

/-! ## The frames of the handshake -/

/-- A frame of a connection that has not joined is handled by its type. -/
lemma run_onmessage {cfg : Config} {c : Conn} {size : ℕ} {j : Json} {type : Str} {p : Peer}
    (hsize : castInt size ≤ cfg.wsMaxPayloadBytes) (hpeer : w.mgr.peers c = some p)
    (hjoined : p.joined = false) (hhas : j.has (ascii "type") = .ok true)
    (hat : j.at' (ascii "type") = .ok (.string type)) :
    (onmessage cfg id c ⟨size, some j⟩ : Handler Str Unit).run exec xs w
      = (unjoined c p j type : Handler Str Unit).run exec (fun n => xs (n + 1)) w := by
  unfold onmessage
  rw [if_neg (by simpa using hsize), run_call_bind]
  simp only [exec, RoomManager.findByConn, hpeer, hhas, json_ok_bind, if_true, hat, Json.s, hjoined,
    Bool.false_eq_true, if_false]

/-- The challenge of a room: one of its rows, if the room has a place and an unused challenge. -/
lemma run_takeChallenge {α : Type} (f : Option ChallengePair → Handler Str α) (xs : ℕ → Choice)
    (w : World Str) :
    ∃ pair w' offset, (takeChallenge r >>= f).run exec xs w
        = (f pair).run exec (fun n => xs (n + offset)) w' ∧
      w'.mgr = w.mgr ∧ w'.wire = w.wire ∧ w'.db.roomIds = w.db.roomIds ∧
      w'.db.accessTokens = w.db.accessTokens ∧
      (∀ p, pair = some p → ∃ row ∈ w.db.challenges, row.roomId = r ∧ row.pair = p) ∧
      ((∀ i, (xs i).sql = true) → (∃ row, w.db.findRoom r = some row ∧
        w.mgr.liveCount r < row.maxParticipants) → w.db.nextUnused r ≠ none → pair ≠ none) := by
  unfold takeChallenge
  rw [Prog.bind_assoc, run_call_bind]
  have hworld : (exec (.findRoom r) (xs 0) w).2 = w := rfl
  rw [hworld]
  cases hfound : (exec (.findRoom r) (xs 0) w).1 with
  | none =>
      refine ⟨none, w, 1, rfl, rfl, rfl, rfl, rfl, nofun, ?_⟩
      rintro hsql ⟨row, hrow, -⟩
      simp [exec, hsql, hrow] at hfound
  | some row =>
      dsimp only
      rw [Prog.bind_assoc, run_call_bind]
      have hworld : (exec (.liveCount r) (xs (0 + 1)) w).2 = w := rfl
      rw [hworld]
      by_cases hfull : (exec (.liveCount r) (xs (0 + 1)) w).1 ≥ row.maxParticipants
      · refine ⟨none, w, 2, ?_, rfl, rfl, rfl, rfl, nofun, ?_⟩
        · rw [if_pos hfull]
          rfl
        · rintro hsql ⟨row', hrow', hplace⟩
          have heq : row' = row := by simpa [exec, hsql, hrow'] using hfound
          subst heq
          exact absurd hfull (not_le_of_gt hplace)
      · rw [if_neg hfull]
        refine ⟨(exec (.consumeChallenge r) (xs 2) w).1, (exec (.consumeChallenge r) (xs 2) w).2, 3,
          rfl, ?_, ?_, ?_, ?_, ?_, ?_⟩
        · simp only [exec]
          split <;> rfl
        · simp only [exec]
          split <;> rfl
        · simp only [exec, Database.consumeChallenge]
          split
          · split <;> rfl
          · rfl
        · simp only [exec, Database.consumeChallenge]
          split
          · split <;> rfl
          · rfl
        · intro p hp
          simp only [exec, Database.consumeChallenge] at hp
          split at hp
          · split at hp
            · rename_i row hrow
              obtain ⟨hmem, hr, -⟩ := w.db.nextUnused_spec hrow
              exact ⟨row, hmem, hr, Option.some.inj hp⟩
            · cases hp
          · cases hp
        · intro hsql _ hunused
          obtain ⟨row, hrow⟩ := Option.ne_none_iff_exists'.mp hunused
          simp [exec, hsql, Database.consumeChallenge, hrow]

/-- The bytes that a handler run alone draws at a call. -/
def drawn (xs : ℕ → Choice) (i n : ℕ) : List UInt8 := (List.range n).map (xs i).bytes

/-- A hello without a token is answered by a challenge: one of the room's, or random bytes. -/
lemma run_helloWithoutToken (c : Conn) (p : Peer) (xs : ℕ → Choice) (w : World Str) : ∃ pair token,
    ((helloWithoutToken c p : Handler Str Unit).run exec xs w).2.wire
        = w.wire ++ [(c, .text (.challenge pair.ciphertextB64 pair.nonceB64))] ∧
      ((helloWithoutToken c p : Handler Str Unit).run exec xs w).2.mgr
        = w.mgr.setPending c (toHex token) pair.plaintextB64 ∧ token ≠ [] ∧
      ((helloWithoutToken c p : Handler Str Unit).run exec xs w).2.db.roomIds = w.db.roomIds ∧
      ((helloWithoutToken c p : Handler Str Unit).run exec xs w).2.db.accessTokens
        = w.db.accessTokens ∧
      ((∃ row ∈ w.db.challenges, row.roomId = p.roomId ∧ row.pair = pair) ∨
        (∃ i j, pair.ciphertextB64 = base64Encode (drawn xs i 48) ∧
          pair.nonceB64 = base64Encode (drawn xs j 24)) ∧
        ¬ ((∀ i, (xs i).sql = true) ∧ (∃ row, w.db.findRoom p.roomId = some row ∧
          w.mgr.liveCount p.roomId < row.maxParticipants) ∧ w.db.nextUnused p.roomId ≠ none)) := by
  obtain ⟨pair, w', offset, hrun, hmgr, hwire, hrooms, htokens, hrow, hopen⟩ :=
    run_takeChallenge (r := p.roomId) (offerChallenge c) xs w
  rw [helloWithoutToken_eq, hrun]
  cases pair with
  | some pair =>
      have hsend : (sendChallenge c pair : Handler Str Unit).run exec (fun n => xs (n + offset)) w'
          = (.ok (), { w' with
              mgr := w'.mgr.setPending c (toHex (drawn xs (0 + offset) 32)) pair.plaintextB64
              wire := w'.wire ++ [(c, .text (.challenge pair.ciphertextB64 pair.nonceB64))] }) := rfl
      rw [offerChallenge, hsend]
      exact ⟨pair, _, by rw [hwire], by rw [hmgr], by simp [drawn], hrooms, htokens,
        .inl (hrow pair rfl)⟩
  | none =>
      let pair : ChallengePair := ⟨base64Encode (drawn xs (0 + offset) 32),
        base64Encode (drawn xs (1 + offset) 48), base64Encode (drawn xs (2 + offset) 24)⟩
      have hsend : (offerChallenge c none : Handler Str Unit).run exec (fun n => xs (n + offset)) w'
          = (.ok (), { w' with
              mgr := w'.mgr.setPending c (toHex (drawn xs (3 + offset) 32)) pair.plaintextB64
              wire := w'.wire ++ [(c, .text (.challenge pair.ciphertextB64 pair.nonceB64))] }) := rfl
      rw [hsend]
      refine ⟨pair, _, by rw [hwire], by rw [hmgr], by simp [drawn], hrooms, htokens,
        .inr ⟨⟨_, _, rfl, rfl⟩, ?_⟩⟩
      rintro ⟨hsql, hplace, hunused⟩
      exact hopen hsql hplace hunused rfl

/-- The connection has joined, has been told its token, and the token is one of the room. -/
def LetIn (c : Conn) (r token : Str) (w : World Str) : Prop :=
  w.mgr.isJoined c = true ∧ w.db.roomForToken token = some r ∧
    ∃ peerId name history members,
      (c, .text (.joined peerId name (some token) history members)) ∈ w.wire

/-- Relaying undoes none of it. -/
lemma LetIn.exec {c : Conn} {token : Str} {o : Op Str} (ho : o.Passive) (x : Choice)
    (h : LetIn c r token w) : LetIn c r token (exec o x w).2 := by
  obtain ⟨hjoined, htoken, peerId, name, history, members, hsent⟩ := h
  obtain ⟨hmgr, hdb⟩ := ho.frame x w
  refine ⟨?_, ?_, peerId, name, history, members, exec_wire o x w hsent⟩
  · rw [RoomManager.isJoined, hmgr]
    exact hjoined
  · rw [Database.roomForToken, hdb]
    exact htoken

/-- The right answer lets the connection in. -/
lemma run_challengeResponse {c : Conn} {p : Peer} (hsql : ∀ i, (xs i).sql = true)
    (hpeer : w.mgr.peers c = some p) (hpending : p.pendingToken ≠ [])
    (hexpected : p.expectedPlaintext ≠ []) (hr : p.roomId = r) (hplain : 0 ∉ r)
    (hroom : r ∈ w.db.roomIds) (hfresh : p.pendingToken ∉ w.db.accessTokens.map TokenRow.token) :
    LetIn c r p.pendingToken
      ((challengeResponse c p p.expectedPlaintext : Handler Str Unit).run exec xs w).2 := by
  subst hr
  have hinserted : (w.db.insertAccessToken p.pendingToken p.roomId w.clock).1 = true := by
    rw [Database.insertAccessToken, dif_pos ⟨hfresh, hroom⟩]
  have htoken : (w.db.insertAccessToken p.pendingToken p.roomId w.clock).2.roomForToken
      p.pendingToken = some p.roomId := by
    have hnone : w.db.accessTokens.find? (fun t => decide (t.token = p.pendingToken)) = none := by
      rw [List.find?_eq_none]
      intro t ht
      have hne : t.token ≠ p.pendingToken := fun h => hfresh (h ▸ List.mem_map_of_mem ht)
      simpa using hne
    rw [Database.insertAccessToken, dif_pos ⟨hfresh, hroom⟩]
    simp [Database.roomForToken, List.find?_append, hnone, cText_of_notMem hplain]
  unfold challengeResponse
  rw [if_neg (by simp [hpending, hexpected]), run_call_bind, if_neg (by simp [hexpected]),
    run_call_bind]
  have hstored : (exec (.insertAccessToken p.pendingToken p.roomId) (xs (0 + 1))
      (exec (.setPending c [] []) (xs 0) w).2).1 = true := by
    simpa [exec, hsql] using hinserted
  rw [if_pos hstored]
  unfold finalizeJoin announceJoin
  rw [run_call_bind, run_call_bind, run_call_bind, run_call_bind, run_call_bind]
  have honly : (do
      broadcast p.roomId (.peerJoin (peerIdFromToken p.pendingToken)) (some c)
      call (.touchRoom p.roomId) : Handler Str Unit).Only Op.Passive :=
    (broadcast_passive _ _ _).bind fun _ => .perform trivial
  refine Prog.Only.run (J := LetIn c p.roomId p.pendingToken) (P := Op.Passive)
    (fun o x w ho hw => LetIn.exec ho x hw) honly _ ⟨?_, ?_, ?_⟩
  · simp [exec, hsql, RoomManager.isJoined, RoomManager.markPeerJoined, RoomManager.setPending,
      RoomManager.peers_modify, hpeer]
  · simpa [exec, hsql] using htoken
  · exact ⟨_, _, _, _, List.mem_append_right _ (List.mem_singleton.mpr rfl)⟩

/-! ## The messages of the client -/

lemma unjoined_hello {c : Conn} {p : Peer} {j : Json} (hj : j.js_str (ascii "token") = .ok []) :
    (unjoined c p j (ascii "hello") : Handler Str Unit) = helloWithoutToken c p := by
  unfold unjoined
  rw [if_pos rfl, hj, json_ok_bind]
  exact if_neg (by simp)

lemma unjoined_challengeResponse {c : Conn} {p : Peer} {j : Json} {answer : Str}
    (hj : j.js_str (ascii "plaintext") = .ok answer) :
    (unjoined c p j (ascii "challenge_response") : Handler Str Unit)
      = challengeResponse c p answer := by
  have hne : ascii "challenge_response" ≠ ascii "hello" := by simp [ascii]
  unfold unjoined
  rw [if_neg hne, if_pos rfl, hj, json_ok_bind]

/-- A message of the client carries its type. -/
lemma ClientMessage.type_fields (m : ClientMessage) :
    (Json.object m.fields).has (ascii "type") = .ok true ∧
      (Json.object m.fields).at' (ascii "type") = .ok (.string (match m with
        | .hello _ => ascii "hello"
        | .challengeResponse _ => ascii "challenge_response")) := by
  cases m with
  | hello token => cases token <;> simp [ClientMessage.fields, Json.has, Json.at']
  | challengeResponse answer => simp [ClientMessage.fields, Json.has, Json.at']

/-- The server takes the first message of a client without a token for what it is. -/
lemma run_hello {cfg : Config} {c : Conn} {p : Peer} (hfits : 16 ≤ cfg.wsMaxPayloadBytes)
    (hpeer : w.mgr.peers c = some p) (hjoined : p.joined = false) :
    (onmessage cfg id c (ClientMessage.hello none).inbound : Handler Str Unit).run exec xs w
      = (helloWithoutToken c p : Handler Str Unit).run exec (fun n => xs (n + 1)) w := by
  have hne : ascii "type" ≠ ascii "token" := by simp [ascii]
  have hlength : (ClientMessage.hello none).text.length = 16 := by
    simp [ClientMessage.text, ascii]
  have hsize : castInt (ClientMessage.hello none).text.length ≤ cfg.wsMaxPayloadBytes := by
    rw [hlength, castInt_of_lt (by norm_num)]
    exact_mod_cast hfits
  have htoken : (Json.object (ClientMessage.hello none).fields).js_str (ascii "token")
      = .ok [] := by
    simp [ClientMessage.fields, Json.js_str_object, hne]
  obtain ⟨hhas, hat⟩ := (ClientMessage.hello none).type_fields
  rw [ClientMessage.inbound, run_onmessage hsize hpeer hjoined hhas hat, unjoined_hello htoken]

lemma ClientMessage.length_challengeResponse {answer : Str} (h : answer.length = 44) :
    (ClientMessage.challengeResponse answer).text.length = 88 := by
  have hbefore : (ascii "\x7b\"type\":\"challenge_response\",\"plaintext\":\"").length
      = 42 := by
    simp [ascii]
  have hafter : (ascii "\"\x7d").length = 2 := by simp [ascii]
  rw [ClientMessage.text, List.length_append, List.length_append, hbefore, hafter, h]

/-- And its answer to a challenge. -/
lemma run_response {cfg : Config} {c : Conn} {p : Peer} {answer : Str}
    (hlength : answer.length = 44) (hfits : 88 ≤ cfg.wsMaxPayloadBytes)
    (hpeer : w.mgr.peers c = some p) (hjoined : p.joined = false) :
    (onmessage cfg id c (ClientMessage.challengeResponse answer).inbound :
        Handler Str Unit).run exec xs w
      = (challengeResponse c p answer : Handler Str Unit).run exec (fun n => xs (n + 1)) w := by
  have hne : ascii "type" ≠ ascii "plaintext" := by simp [ascii]
  have hsize : castInt (ClientMessage.challengeResponse answer).text.length
      ≤ cfg.wsMaxPayloadBytes := by
    rw [ClientMessage.length_challengeResponse hlength, castInt_of_lt (by norm_num)]
    exact_mod_cast hfits
  have hanswer : (Json.object (ClientMessage.challengeResponse answer).fields).js_str
      (ascii "plaintext") = .ok answer := by
    simp [ClientMessage.fields, Json.js_str_object, hne]
  obtain ⟨hhas, hat⟩ := (ClientMessage.challengeResponse answer).type_fields
  rw [ClientMessage.inbound, run_onmessage hsize hpeer hjoined hhas hat,
    unjoined_challengeResponse hanswer]

/-- With the key of the room the client finds the answer to its challenges. -/
lemma solve_of_lawful (hS : S.Lawful key) {plaintext nonce : List UInt8} {pair : ChallengePair}
    (hpair : pair = Home.pair S key plaintext nonce) (token : Option Str) :
    (ChatClient.connect (some key) token).solve S pair.ciphertextB64 pair.nonceB64
      = some pair.plaintextB64 := by
  subst hpair
  simp [ChatClient.solve, Home.pair, hS.fromB64_toB64, hS.decrypt_encrypt]

/-- With another key it does not. -/
lemma solve_eq_none (hS : S.Lawful key) {k : List UInt8} (hk : k ≠ key)
    {plaintext nonce : List UInt8} {pair : ChallengePair}
    (hpair : pair = Home.pair S key plaintext nonce) (token : Option Str) :
    (ChatClient.connect (some k) token).solve S pair.ciphertextB64 pair.nonceB64 = none := by
  subst hpair
  simp [ChatClient.solve, Home.pair, hS.fromB64_toB64, hS.decrypt_other k hk]

/-- Nor can it open a decoy whose bytes its key does not open. -/
lemma solve_decoy (hS : S.Lawful key) {k ct nonce : List UInt8} (h : S.decrypt ct nonce k = none)
    (token : Option Str) :
    (ChatClient.connect (some k) token).solve S (base64Encode ct) (base64Encode nonce) = none := by
  simp [ChatClient.solve, ← hS.toB64_eq, hS.fromB64_toB64, h]

/-! ## A room and its visitors -/

/-- The page creates a room and uploads its pool.  Between the two requests and their answers the
configuration may change. -/
structure Upload (S : Sodium) (seed password : Str) where
  cfg : Config
  request : ℕ
  roomName : Str
  pow : Json
  start : World Str
  choices : ℕ → Choice
  roomId : Str
  capacity : ℤ
  challengesRequired : ℤ
  requiresPassword : Bool
  /-- The answer to the first request. -/
  created : ((createRoom cfg request (Home.createBody roomName password pow) :
    Handler Str Unit).run exec choices start).2.answers = start.answers
      ++ [(request, .created roomId capacity challengesRequired requiresPassword)]
  one_le_capacity : 1 ≤ capacity
  /-- The size of the pool is an `int` of the server. -/
  poolSize_lt : (capacity * if requiresPassword then 10 else 5) < 2 ^ 31
  before : World Str
  meanwhile : Meanwhile (LeavesAlone roomId) ((createRoom cfg request
    (Home.createBody roomName password pow) : Handler Str Unit).run exec choices start).2 before
  cfg' : Config
  blobs_fit : 32 ≤ cfg'.challengeMaxBlobBytes
  /-- Twice the limit is an `int` of the server. -/
  limit_lt : cfg'.challengeMaxBlobBytes < 2 ^ 30
  request' : ℕ
  draws : ℕ → ℕ → UInt8
  choices' : ℕ → Choice
  sql' : ∀ i, (choices' i).sql = true

namespace Upload

variable {seed password : Str} (u : Upload S seed password)

/-- The pool that the page makes for the room. -/
def pool : List ChallengePair :=
  Home.challenges S (deriveKey seed password) u.draws u.challengesRequired

/-- The world after the second request. -/
def after : World Str :=
  ((activate u.cfg' u.request' u.roomId (some (Home.activateBody u.pool)) :
    Handler Str Unit).run exec u.choices' u.before).2

/-- The room can be entered: it is not full and has an unused challenge. -/
def IsOpen (w : World Str) : Prop :=
  (∃ row, w.db.findRoom u.roomId = some row ∧ w.mgr.liveCount u.roomId < row.maxParticipants) ∧
    w.db.nextUnused u.roomId ≠ none

variable {u}

/-- The upload is accepted, and makes the pool of the room. -/
theorem after_spec (hS : S.Lawful (deriveKey seed password)) :
    u.after.answers = u.before.answers ++ [(u.request', .ok)] ∧
      Encrypted S (deriveKey seed password) u.roomId u.after.db := by
  obtain ⟨-, ⟨row, hrow, hcapacity, hflag, hrequired, hinactive⟩, hnone⟩ :=
    of_created rfl u.created
  have hcap : poolCap row = u.capacity * if u.requiresPassword then 10 else 5 := by
    rw [poolCap, hcapacity, hflag]
  have hlt : poolCap row < 2 ^ 31 := hcap ▸ u.poolSize_lt
  have hnonneg : 0 ≤ poolCap row := by
    have hone := u.one_le_capacity
    rw [hcap]
    split <;> omega
  have hrequired' : u.challengesRequired = poolCap row :=
    hrequired.symm.trans (wrapInt_of_mem (by omega) hlt)
  have hempty : ∀ c ∈ ((createRoom u.cfg u.request (Home.createBody u.roomName password u.pow) :
      Handler Str Unit).run exec u.choices u.start).2.db.challenges,
      ¬ decide (c.roomId = u.roomId) = true := fun c hc => by simpa using hnone c hc
  have hfillable : Fillable u.roomId u.challengesRequired u.before :=
    Fillable.meanwhile u.meanwhile
      ⟨⟨row, hrow, hrequired, hinactive⟩, List.countP_eq_zero.mpr hempty⟩
  obtain ⟨⟨row', hrow', hcount, hinactive'⟩, hpool⟩ := hfillable
  have hlength : (u.pool.length : ℤ) = required row' := by
    rw [hcount, pool, Home.challenges, List.length_map, List.length_range]
    omega
  have hblobs : ∀ p ∈ u.pool, p.plaintextB64.length = 44 ∧ p.ciphertextB64.length = 64 ∧
      p.nonceB64.length = 32 := fun p hp => Home.length_of_mem_challenges hS hp
  have hfits : u.pool.length < 2 ^ 31 := by omega
  have hcheck := checkPool_activateBody hblobs u.blobs_fit u.limit_lt hlength hfits
  have hafter : u.after = _ :=
    congrArg Prod.snd (run_activate u.sql' hrow' hinactive' hcheck)
  rw [hafter]
  refine ⟨rfl, ?_⟩
  have hnew : ∀ c ∈ u.before.db.challenges, c.roomId ≠ u.roomId := by
    intro c hc hr
    have hno := List.countP_eq_zero.mp hpool c hc
    exact hno (decide_eq_true hr)
  exact encrypted_insertChallenges hS hnew u.draws u.challengesRequired

end Upload

/-- A connection that has been opened for the room, at the hello of its client. -/
structure Visit {seed password : Str} (u : Upload S seed password) where
  world : World Str
  meanwhile : Meanwhile (Keeps u.roomId) u.after world
  cfg : Config
  conn : Conn
  peer : Peer
  registered : world.mgr.peers conn = some peer
  room : peer.roomId = u.roomId
  unjoined : peer.joined = false
  choices : ℕ → Choice

namespace Visit

variable {seed password : Str} {u : Upload S seed password} (v : Visit u)

/-- The world after the hello of a client without a token. -/
def hello : World Str :=
  ((onmessage v.cfg id v.conn (ClientMessage.hello none).inbound :
    Handler Str Unit).run exec v.choices v.world).2

/-- The server had the means to send a challenge of the room. -/
def IsOpen : Prop := u.IsOpen v.world ∧ ∀ i, (v.choices i).sql = true

/-- The random bytes that the server may send instead do not decrypt under the key. -/
def DecoysFail (key : List UInt8) : Prop :=
  ∀ i j, S.decrypt (drawn v.choices i 48) (drawn v.choices j 24) key = none

/-- The server lets the client with the key of the room in, whatever happens to the rest of the
world while its challenge and its answer are on their way. -/
def Admits : Prop := ∃ ct nonce answer,
  v.hello.wire = v.world.wire ++ [(v.conn, .text (.challenge ct nonce))] ∧
  ((ChatClient.connect (some (deriveKey seed password)) none).onOpen.onFrame S
    (.challenge ct nonce)).1.sent = [.hello none, .challengeResponse answer] ∧
  ∀ w choices, Meanwhile (Awaits v.conn u.roomId) v.hello w → (∀ i, (choices i).sql = true) →
    (∀ p, w.mgr.peers v.conn = some p → p.pendingToken ∉ w.db.accessTokens.map TokenRow.token) →
    ∃ token, LetIn v.conn u.roomId token
      ((onmessage v.cfg id v.conn (ClientMessage.challengeResponse answer).inbound :
        Handler Str Unit).run exec choices w).2

/-- The hello of a client with a key stores no token, and the challenge that it is sent, if any, is
not answered. -/
def Refuses (k : List UInt8) : Prop :=
  v.hello.db.accessTokens = v.world.db.accessTokens ∧
  ∀ ct nonce, v.hello.wire = v.world.wire ++ [(v.conn, .text (.challenge ct nonce))] →
    (ChatClient.connect (some k) none).onOpen.onFrame S (.challenge ct nonce)
      = ((ChatClient.connect (some k) none).onOpen.close, some (.error (ascii "invalid_key")))

variable {v}

/-- A visitor is sent a challenge of the room, or a decoy where the room cannot be entered. -/
lemma hello_spec (hS : S.Lawful (deriveKey seed password)) (hfits : 16 ≤ v.cfg.wsMaxPayloadBytes) :
    ∃ pair token,
      v.hello.wire = v.world.wire
        ++ [(v.conn, .text (.challenge pair.ciphertextB64 pair.nonceB64))] ∧
      v.hello.mgr = v.world.mgr.setPending v.conn (toHex token) pair.plaintextB64 ∧ token ≠ [] ∧
      v.hello.db.roomIds = v.world.db.roomIds ∧
      v.hello.db.accessTokens = v.world.db.accessTokens ∧
      ((∃ plaintext nonce : List UInt8, plaintext.length = 32 ∧
          pair = Home.pair S (deriveKey seed password) plaintext nonce) ∨
        (∃ i j, pair.ciphertextB64 = base64Encode (drawn v.choices i 48) ∧
          pair.nonceB64 = base64Encode (drawn v.choices j 24)) ∧ ¬ v.IsOpen) := by
  have hpool : Encrypted S (deriveKey seed password) u.roomId v.world.db :=
    Encrypted.meanwhile v.meanwhile (Upload.after_spec hS).2
  obtain ⟨pair, token, hwire, hmgr, htoken, hrooms, htokens, hpair⟩ := run_helloWithoutToken
    v.conn v.peer (fun n => v.choices (n + 1)) v.world
  have hhello : v.hello = _ := congrArg Prod.snd (run_hello hfits v.registered v.unjoined)
  rw [hhello]
  refine ⟨pair, token, hwire, hmgr, htoken, hrooms, htokens, ?_⟩
  rcases hpair with ⟨row, hrow, hr, rfl⟩ | ⟨⟨i, j, hct, hnonce⟩, hclosed⟩
  · exact .inl (hpool row hrow (hr.trans v.room))
  · refine .inr ⟨⟨i + 1, j + 1, hct, hnonce⟩, ?_⟩
    rintro ⟨⟨hplace, hunused⟩, hsql⟩
    rw [v.room] at hclosed
    exact hclosed ⟨fun i => hsql (i + 1), hplace, hunused⟩

/-- A client with the key of the room answers the challenge, and is let in. -/
lemma admits_of_isOpen (hS : S.Lawful (deriveKey seed password))
    (hfits : 88 ≤ v.cfg.wsMaxPayloadBytes) (hopen : v.IsOpen) : v.Admits := by
  have hfits' : 16 ≤ v.cfg.wsMaxPayloadBytes := by omega
  obtain ⟨pair, token, hwire, hmgr, htoken, hrooms, -, hpair⟩ := hello_spec hS hfits'
  rcases hpair with ⟨plaintext, nonce, hplaintext, hpair⟩ | ⟨-, hclosed⟩
  swap
  · exact absurd hopen hclosed
  have hanswer : pair.plaintextB64.length = 44 := by
    rw [hpair, Home.pair, hS.toB64_eq, length_base64Encode, hplaintext]
  have hsolve : (ChatClient.connect (some (deriveKey seed password)) none).onOpen.solve S
      pair.ciphertextB64 pair.nonceB64 = some pair.plaintextB64 := solve_of_lawful hS hpair none
  refine ⟨_, _, pair.plaintextB64, hwire, ?_, fun w choices hmeanwhile hsql hfresh => ?_⟩
  · simp only [ChatClient.onFrame, hsolve]
    rfl
  obtain ⟨hpeers, hroom⟩ := hmeanwhile.awaits
  have hpeer : w.mgr.peers v.conn = some { v.peer with
      pendingToken := toHex token, expectedPlaintext := pair.plaintextB64 } := by
    rw [hpeers, hmgr, RoomManager.setPending, RoomManager.peers_modify, if_pos rfl, v.registered]
    rfl
  have hin : u.roomId ∈ w.db.roomIds := by
    refine hroom (hrooms ▸ ?_)
    obtain ⟨⟨⟨row, hrow, -⟩, -⟩, -⟩ := hopen
    by_contra hout
    rw [(Database.findRoom_eq_none v.world.db).mpr hout] at hrow
    cases hrow
  have hplain : 0 ∉ u.roomId := (of_created rfl u.created).1
  refine ⟨toHex token, ?_⟩
  rw [run_response hanswer hfits hpeer v.unjoined]
  refine run_challengeResponse (fun i => hsql (i + 1)) hpeer (bytesToHex_ne_nil htoken) ?_ v.room
    hplain hin (hfresh _ hpeer)
  intro hnil
  have hzero : pair.plaintextB64.length = 0 := congrArg List.length hnil
  omega

/-- A server whose limit for the size of frames lies between the hello and the answer of the client
does not let it in. -/
lemma not_admits (hS : S.Lawful (deriveKey seed password)) (hlow : 16 ≤ v.cfg.wsMaxPayloadBytes)
    (hhigh : v.cfg.wsMaxPayloadBytes < 88) (hopen : v.IsOpen)
    (hempty : v.world.db.accessTokens = []) : ¬ v.Admits := by
  rintro ⟨ct, nonce, answer, hwire, hsent, hresponse⟩
  obtain ⟨pair, token, hwire', hmgr, -, -, htokens, hpair⟩ := hello_spec hS hlow
  rcases hpair with ⟨plaintext, nonce', hplaintext, hpair⟩ | ⟨-, hclosed⟩
  swap
  · exact hclosed hopen
  have hframe := List.append_cancel_left (hwire'.symm.trans hwire)
  simp only [List.cons.injEq, Prod.mk.injEq, Outgoing.text.injEq, Frame.challenge.injEq,
    true_and, and_true] at hframe
  obtain ⟨rfl, rfl⟩ := hframe
  have hsolve : (ChatClient.connect (some (deriveKey seed password)) none).onOpen.solve S
      pair.ciphertextB64 pair.nonceB64 = some pair.plaintextB64 := solve_of_lawful hS hpair none
  have hanswer : answer.length = 44 := by
    simp only [ChatClient.onFrame, hsolve] at hsent
    obtain ⟨-, hsent⟩ := List.cons.inj hsent
    obtain ⟨hsent, -⟩ := List.cons.inj hsent
    rw [← ClientMessage.challengeResponse.inj hsent, hpair, Home.pair, hS.toB64_eq,
      length_base64Encode, hplaintext]
  have hfresh : ∀ p, v.hello.mgr.peers v.conn = some p →
      p.pendingToken ∉ v.hello.db.accessTokens.map TokenRow.token := by
    intro p _
    simp [htokens, hempty]
  obtain ⟨token', hjoined, -, -⟩ :=
    hresponse v.hello (fun _ => ⟨fun _ => 0, true⟩) .refl (fun _ => rfl) hfresh
  have hrun : (onmessage v.cfg id v.conn (ClientMessage.challengeResponse answer).inbound :
      Handler Str Unit) = call (.close v.conn (ascii "payload too large")) := by
    have hsize : castInt (ClientMessage.challengeResponse answer).text.length
        > v.cfg.wsMaxPayloadBytes := by
      rw [ClientMessage.length_challengeResponse hanswer, castInt_of_lt (by norm_num)]
      exact_mod_cast hhigh
    unfold onmessage
    exact if_pos hsize
  rw [hrun, run_call] at hjoined
  have hpeer : v.hello.mgr.isJoined v.conn = true := hjoined
  rw [RoomManager.isJoined, hmgr, RoomManager.setPending, RoomManager.peers_modify, if_pos rfl,
    v.registered] at hpeer
  simp [v.unjoined] at hpeer

/-- A hello that is too large for the server is answered by a close. -/
lemma hello_of_lt (hfits : v.cfg.wsMaxPayloadBytes < 16) :
    v.hello = { v.world with
      wire := v.world.wire ++ [(v.conn, .close (ascii "payload too large"))] } := by
  have hsize : castInt (ClientMessage.hello none).text.length > v.cfg.wsMaxPayloadBytes := by
    have hlength : (ClientMessage.hello none).text.length = 16 := by
      simp [ClientMessage.text, ascii]
    rw [hlength, castInt_of_lt (by norm_num)]
    exact_mod_cast hfits
  have hrun : (onmessage v.cfg id v.conn (ClientMessage.hello none).inbound :
      Handler Str Unit) = call (.close v.conn (ascii "payload too large")) := by
    unfold onmessage
    exact if_pos hsize
  rw [hello, hrun]
  rfl

/-- A client with another key answers nothing. -/
lemma refuses_of_ne (hS : S.Lawful (deriveKey seed password)) {k : List UInt8}
    (hk : k ≠ deriveKey seed password) (hdecoys : v.IsOpen ∨ v.DecoysFail k) : v.Refuses k := by
  by_cases hfits : 16 ≤ v.cfg.wsMaxPayloadBytes
  · obtain ⟨pair, token, hwire, -, -, -, htokens, hpair⟩ := hello_spec hS hfits
    refine ⟨htokens, fun ct nonce hsent => ?_⟩
    have hframe := List.append_cancel_left (hwire.symm.trans hsent)
    simp only [List.cons.injEq, Prod.mk.injEq, Outgoing.text.injEq, Frame.challenge.injEq,
      true_and, and_true] at hframe
    obtain ⟨rfl, rfl⟩ := hframe
    have hsolve : (ChatClient.connect (some k) none).onOpen.solve S
        pair.ciphertextB64 pair.nonceB64 = none := by
      rcases hpair with ⟨plaintext, nonce, -, hpair⟩ | ⟨⟨i, j, hct, hnonce⟩, hclosed⟩
      · exact solve_eq_none hS hk hpair none
      · rw [hct, hnonce]
        exact solve_decoy hS (hdecoys.resolve_left hclosed i j) none
    simp only [ChatClient.onFrame, hsolve]
  · rw [Refuses, hello_of_lt (by omega)]
    refine ⟨rfl, fun ct nonce hsent => ?_⟩
    simp at hsent

end Visit

/-! ## A small instance -/

namespace SampleRoom

/-- The number of a base64 character. -/
def b64Value (c : UInt8) : Option UInt32 := (kB64.idxOf? c).map fun i => i.toUInt32

/-- The three bytes of four base64 characters. -/
def base64Group (c₀ c₁ c₂ c₃ : UInt32) : List UInt8 :=
  let v := (c₀ <<< 18) ||| (c₁ <<< 12) ||| (c₂ <<< 6) ||| c₃
  [(v >>> 16).toUInt8, (v >>> 8).toUInt8, v.toUInt8]

/-- The bytes of a padded base64 text. -/
def base64Decode : Str → Option (List UInt8)
  | [] => some []
  | c₀ :: c₁ :: c₂ :: c₃ :: rest => do
      let v₀ ← b64Value c₀
      let v₁ ← b64Value c₁
      if c₂ = '='.toNat.toUInt8 then return (base64Group v₀ v₁ 0 0).take 1
      let v₂ ← b64Value c₂
      if c₃ = '='.toNat.toUInt8 then return (base64Group v₀ v₁ v₂ 0).take 2
      let v₃ ← b64Value c₃
      let bytes ← base64Decode rest
      return base64Group v₀ v₁ v₂ v₃ ++ bytes
  | _ => none

lemma b64Value_b64Char (v : UInt32) : b64Value (b64Char v) = some (v &&& 0x3F) := by
  have key : ∀ i < 64, b64Value (kB64.getD i 0) = some i.toUInt32 := by decide +kernel
  have hlt : (v &&& 0x3F).toNat < 64 := by
    rw [UInt32.toNat_and]
    exact Nat.lt_succ_of_le Nat.and_le_right
  rw [b64Char, key _ hlt]
  simp

lemma b64Char_ne_pad (v : UInt32) : b64Char v ≠ '='.toNat.toUInt8 := by
  have hpad : b64Value '='.toNat.toUInt8 = none := by decide +kernel
  intro h
  have hsome := b64Value_b64Char v
  rw [h, hpad] at hsome
  cases hsome

/-- Four characters hold the bits of three bytes. -/
lemma base64Group_eq (a b c : UInt8) :
    base64Group ((((a.toUInt32 <<< 16) ||| (b.toUInt32 <<< 8) ||| c.toUInt32) >>> 18) &&& 0x3F)
      ((((a.toUInt32 <<< 16) ||| (b.toUInt32 <<< 8) ||| c.toUInt32) >>> 12) &&& 0x3F)
      ((((a.toUInt32 <<< 16) ||| (b.toUInt32 <<< 8) ||| c.toUInt32) >>> 6) &&& 0x3F)
      (((a.toUInt32 <<< 16) ||| (b.toUInt32 <<< 8) ||| c.toUInt32) &&& 0x3F) = [a, b, c] := by
  simp only [base64Group, List.cons.injEq, and_true]
  refine ⟨?_, ?_, ?_⟩ <;>
  · apply UInt8.eq_of_toBitVec_eq
    ext i hi
    interval_cases i <;> simp

lemma base64Group_pair (a b : UInt8) :
    base64Group ((((a.toUInt32 <<< 16) ||| (b.toUInt32 <<< 8)) >>> 18) &&& 0x3F)
      ((((a.toUInt32 <<< 16) ||| (b.toUInt32 <<< 8)) >>> 12) &&& 0x3F)
      ((((a.toUInt32 <<< 16) ||| (b.toUInt32 <<< 8)) >>> 6) &&& 0x3F) 0 = [a, b, 0] := by
  simp only [base64Group, List.cons.injEq, and_true]
  refine ⟨?_, ?_, ?_⟩ <;>
  · apply UInt8.eq_of_toBitVec_eq
    ext i hi
    interval_cases i <;> simp

lemma base64Group_single (a : UInt8) :
    base64Group (((a.toUInt32 <<< 16) >>> 18) &&& 0x3F) (((a.toUInt32 <<< 16) >>> 12) &&& 0x3F)
      0 0 = [a, 0, 0] := by
  simp only [base64Group, List.cons.injEq, and_true]
  refine ⟨?_, ?_, ?_⟩ <;>
  · apply UInt8.eq_of_toBitVec_eq
    ext i hi
    interval_cases i <;> simp

lemma base64Decode_base64Encode (bytes : List UInt8) :
    base64Decode (base64Encode bytes) = some bytes := by
  fun_induction base64Encode bytes with
  | case1 a b c rest v ih =>
      simp only [base64Decode, b64Value_b64Char, b64Char_ne_pad, if_false, ih]
      exact congrArg (fun group => some (group ++ rest)) (base64Group_eq a b c)
  | case2 a b v =>
      simp only [base64Decode, b64Value_b64Char, b64Char_ne_pad, if_false, if_true]
      exact congrArg (fun group : List UInt8 => some (group.take 2)) (base64Group_pair a b)
  | case3 a v =>
      simp only [base64Decode, b64Value_b64Char, if_true]
      exact congrArg (fun group : List UInt8 => some (group.take 1)) (base64Group_single a)
  | case4 => rfl

/-- The tag of a ciphertext that tells a key from all others. -/
def tag (key k : List UInt8) : List UInt8 := List.replicate 16 (if k = key then 0 else 1)

/-- A plaintext behind a tag. -/
def tagged (key : List UInt8) : Sodium where
  toB64 := base64Encode
  fromB64 := base64Decode
  encrypt m _ k := tag key k ++ m
  decrypt ct _ k := if ct.take 16 = tag key k then some (ct.drop 16) else none

lemma lawful_tagged (key : List UInt8) : (tagged key).Lawful key where
  decrypt_encrypt m n := by simp [tagged, tag]
  decrypt_other k hk m n := by simp [tagged, tag, hk]
  length_encrypt m n := by
    have hlength : (tag key key).length = 16 := List.length_replicate
    simp only [tagged, List.length_append, hlength, Nat.add_comm]
  toB64_eq _ := rfl
  fromB64_toB64 := base64Decode_base64Encode

def seed : Str := ascii "seed"

/-- Draws of the byte `b`. -/
def draws (b : UInt8) : ℕ → Choice := fun _ => ⟨fun _ => b, true⟩

/-- The world when a room with one place has been created. -/
def created : World Str :=
  ((createRoom { maxParticipants := 1 } 0 (Home.createBody [] [] .null) :
    Handler Str Unit).run exec (draws 0) (.boot .empty 0)).2

/-- The room and its pool. -/
def upload : Upload (tagged (deriveKey seed [])) seed [] where
  cfg := { maxParticipants := 1 }
  request := 0
  roomName := []
  pow := .null
  start := .boot .empty 0
  choices := draws 0
  roomId := ascii "AAAAAAAA"
  capacity := 1
  challengesRequired := 5
  requiresPassword := false
  created := by decide +kernel
  one_le_capacity := by decide
  poolSize_lt := by decide
  before := created
  meanwhile := .refl
  cfg' := {}
  blobs_fit := by decide
  limit_lt := by decide
  request' := 1
  draws := fun i _ => (i + 1).toUInt8
  choices' := draws 0
  sql' := fun _ => rfl

/-- The world when a first connection has been opened for the room. -/
def arrival : World Str :=
  (exec (.onWsAccept 0 (ascii "AAAAAAAA") (ascii "00")) (draws 0 0) upload.after).2

/-- The visitor behind it, under a limit for the size of frames. -/
def visit (wsMaxPayloadBytes : ℤ) : Visit upload where
  world := arrival
  meanwhile := by
    refine .single (.inl ⟨.onWsAccept 0 (ascii "AAAAAAAA") (ascii "00"), draws 0 0, ?_, rfl⟩)
    constructor
    · intro pairs
      simp
    · simp
  cfg := { wsMaxPayloadBytes }
  conn := 0
  peer := { peerId := ascii "00", roomId := ascii "AAAAAAAA" }
  registered := by decide +kernel
  room := rfl
  unjoined := rfl
  choices := draws 1

lemma isOpen_visit (wsMaxPayloadBytes : ℤ) : (visit wsMaxPayloadBytes).IsOpen := by
  have hplace : ((arrival.db.findRoom upload.roomId).map fun row =>
      decide (arrival.mgr.liveCount upload.roomId < row.maxParticipants)) = some true := by
    decide +kernel
  have hunused : (arrival.db.nextUnused upload.roomId).isSome = true := by decide +kernel
  obtain ⟨row, hrow, hlive⟩ := Option.map_eq_some_iff.mp hplace
  refine ⟨⟨⟨row, hrow, of_decide_eq_true hlive⟩, ?_⟩, fun _ => rfl⟩
  exact Option.isSome_iff_ne_none.mp hunused

end SampleRoom

/-- **The handshake is complete.**  The pool that the page uploads for its new room is accepted;
from then on a client with the key of the room is let in whenever the room has a place and an
unused challenge and the frames are not too large for the server, and a client with another key is
not. -/
theorem handshake_complete {seed password : Str} (hS : S.Lawful (deriveKey seed password))
    (u : Upload S seed password) :
    u.after.answers = u.before.answers ++ [(u.request', .ok)] ∧ ∀ v : Visit u,
      (88 ≤ v.cfg.wsMaxPayloadBytes → v.IsOpen → v.Admits) ∧
      ∀ k ≠ deriveKey seed password, v.IsOpen ∨ v.DecoysFail k → v.Refuses k :=
  ⟨(Upload.after_spec hS).1, fun _ =>
    ⟨Visit.admits_of_isOpen hS, fun _ hk hdecoys => Visit.refuses_of_ne hS hk hdecoys⟩⟩

theorem handshake_complete_sample : SampleRoom.upload.after.answers
      = SampleRoom.upload.before.answers ++ [(SampleRoom.upload.request', .ok)] ∧
    (SampleRoom.visit 8192).Admits ∧ (SampleRoom.visit 8192).Refuses [] := by
  have hne : [] ≠ deriveKey SampleRoom.seed [] := fun h => absurd (congrArg List.length h) (by
    rw [deriveKey, Sha256.sha256, Sha256.length_digest]
    decide)
  obtain ⟨haccepted, hvisits⟩ := handshake_complete (SampleRoom.lawful_tagged _) SampleRoom.upload
  obtain ⟨hadmits, hrefuses⟩ := hvisits (SampleRoom.visit 8192)
  exact ⟨haccepted, hadmits (by decide) (SampleRoom.isOpen_visit _),
    hrefuses [] hne (.inl (SampleRoom.isOpen_visit _))⟩

/-- A server that takes no frames of more than 64 bytes sends the challenge and refuses the answer
of the client with the right key. -/
theorem small_frames_sample : (SampleRoom.visit 64).IsOpen ∧ ¬ (SampleRoom.visit 64).Admits := by
  refine ⟨SampleRoom.isOpen_visit 64, Visit.not_admits (SampleRoom.lawful_tagged _) (by decide) (by decide)
    (SampleRoom.isOpen_visit 64) ?_⟩
  decide +kernel

end Handshake

end HashHush.Web
