import HashHush.Server

/-!
# A proof of work is accepted once

Calls of `verifyChallenge` run concurrently.  Each reads the clock once, before it takes the lock
of the ledger; the ledger forgets a nonce as soon as somebody collects with a clock at or past its
expiry.  A call that read the clock in the last second of a token and takes the lock after such a
collection finds the nonce forgotten and accepts the token again (`pow_reused`).

`singleUse_iff` says that nothing else can go wrong: in a run no token is accepted twice exactly
if every passage through the lock is `Timely`.  What the ledger holds at any time is settled in
`Captcha.lean`; here the calls are followed from the token they are given to the passage they make.
-/

namespace HashHush

open Concurrency System Captcha

/-- The arguments of a call of `verifyChallenge`. -/
structure Verification where
  challenge : Str
  nonce : Str
  difficultyBits : ℤ

/-- The calls of `verifyChallenge`, each a task of its own, under a clock that never goes back. -/
@[reducible] def verifier (secret : List UInt8) : System (signature Str) where
  World := World Str
  Choice := Choice
  Task := ℕ
  Input := Verification
  Env := ℤ
  Out := VerifyResult
  decTask := inferInstance
  exec := exec
  program _ i := verifyChallenge secret i.challenge i.nonce i.difficultyBits
  admits c t _ := (c.task t).isNone
  ambient t c := if c.world.clock ≤ t then some { c.world with clock := t } else none

/-- What the calls are doing, and the world they share. -/
abbrev Verifying := Concurrency.Config (signature Str) (World Str) ℕ VerifyResult

/-- No call has been made yet. -/
def noCalls (clock : ℤ) : Verifying := ⟨.boot .empty clock, fun _ => none⟩

/-- The nonce and the expiry of a token that is well formed and authentic. -/
def payload (secret : List UInt8) (challenge : Str) : Option (Str × ℤ) :=
  match split3 challenge with
  | none => none
  | some (nonceHex, expStr, macHex) =>
      if nonceHex = [] ∨ expStr = [] ∨ macHex = [] then none
      else if ctEqualStr (hmacHex secret (nonceHex ++ [colon] ++ expStr)) macHex = false then none
      else (stoll expStr).map (Prod.mk nonceHex)

/-- The end of a call that takes the lock. -/
def takeLock (nonceHex : Str) (exp now : ℤ) : Handler Str VerifyResult := do
  let inserted : Bool ← call (.commit nonceHex exp now)
  if inserted then .ret .ok else .ret .reused

/-- A call refuses its token at once, or reads the clock and then refuses it or takes the lock. -/
lemma verifyChallenge_cases (secret : List UInt8) (i : Verification) :
    let p : Handler Str VerifyResult := verifyChallenge secret i.challenge i.nonce i.difficultyBits
    (∃ v, v ≠ .ok ∧ p = .ret v) ∨
      ∃ n exp, payload secret i.challenge = some (n, exp) ∧
        ∃ k : ℤ → Handler Str VerifyResult, p = .call .nowSeconds k ∧
          ∀ now, (∃ v, v ≠ .ok ∧ k now = .ret v) ∨ now < exp ∧ k now = takeLock n exp now := by
  intro p
  cases hs : split3 i.challenge with
  | none => exact .inl ⟨.malformed, by simp, by simp [p, verifyChallenge, hs]⟩
  | some parts =>
      obtain ⟨n, expStr, macHex⟩ := parts
      by_cases hempty : n = [] ∨ expStr = [] ∨ macHex = []
      · exact .inl ⟨.malformed, by simp, by simp [p, verifyChallenge, hs, hempty]⟩
      by_cases hmac : ctEqualStr (hmacHex secret (n ++ [colon] ++ expStr)) macHex = false
      · refine .inl ⟨.badHmac, by simp, ?_⟩
        simp only [p, verifyChallenge, hs]
        rw [if_neg hempty, if_pos hmac]
      cases hexp : stoll expStr with
      | none =>
          refine .inl ⟨.malformed, by simp, ?_⟩
          simp only [p, verifyChallenge, hs]
          rw [if_neg hempty, if_neg hmac, hexp]
      | some exp =>
          right
          refine ⟨n, exp, ?_, fun now => if exp ≤ now then .ret .expired
            else if meetsDifficulty (proofDigest i.challenge i.nonce) i.difficultyBits = false then
              .ret .badProof
            else takeLock n exp now, ?_, fun now => ?_⟩
          · simp only [payload, hs]
            rw [if_neg hempty, if_neg hmac, hexp, Option.map_some]
          · simp only [p, verifyChallenge, hs]
            rw [if_neg hempty, if_neg hmac, hexp]
            rfl
          · by_cases hnow : exp ≤ now
            · exact .inl ⟨.expired, by simp, if_pos hnow⟩
            · dsimp only
              rw [if_neg hnow]
              by_cases hproof :
                  meetsDifficulty (proofDigest i.challenge i.nonce) i.difficultyBits = false
              · exact .inl ⟨.badProof, by simp, if_pos hproof⟩
              · exact .inr ⟨not_le.mp hnow, if_neg hproof⟩

section Run

variable {secret : List UInt8} {clock : ℤ}
variable {ok : List (verifier secret).Transition → (verifier secret).Transition → Prop}
variable {h : List (verifier secret).Transition} {conf conf' : Verifying}

/-- Call `t` was made with these arguments. -/
def MadeWith (h : List (verifier secret).Transition) (t : ℕ) (i : Verification) : Prop :=
  ∃ m ∈ h, m.label = .start t i

/-- The passage through the lock that a transition makes. -/
def passage (m : (verifier secret).Transition) : Option (ℕ × Commit) :=
  match m.label with
  | .advance t x =>
      match m.pre.task t with
      | some (.call (.commit n exp now) _) =>
          some (t, ⟨n, exp, now, (exec (π := Str) (.commit n exp now) x m.pre.world).1⟩)
      | _ => none
  | _ => none

/-- The passages through the lock, in order. -/
def passages (h : List (verifier secret).Transition) : List (ℕ × Commit) := h.filterMap passage

/-- The passages without the calls that made them. -/
def commits (h : List (verifier secret).Transition) : List Commit := (passages h).map Prod.snd

lemma passages_snoc (h : List (verifier secret).Transition) (m : (verifier secret).Transition) :
    passages (h ++ [m]) = passages h ++ (passage m).toList := by
  rw [passages, List.filterMap_append]
  cases hm : passage m <;> simp [passages, hm]

/-- What is left of a call with arguments `i`, and the passages it has made: it is about to begin,
or about to take the lock, or it has returned. -/
def Stage (secret : List UInt8) (i : Verification) (cs : List Commit)
    (p : Handler Str VerifyResult) : Prop :=
  (cs = [] ∧ p = verifyChallenge secret i.challenge i.nonce i.difficultyBits) ∨
    (∃ n exp now, payload secret i.challenge = some (n, exp) ∧ now < exp ∧ cs = [] ∧
      p = takeLock n exp now) ∨
    (∃ v, p = .ret v ∧ v ≠ .ok ∧ cs = []) ∨
    ∃ v c, p = .ret v ∧ cs = [c] ∧ payload secret i.challenge = some (c.nonceHex, c.exp) ∧
      (v = .ok ↔ c.inserted = true)

/-- The passages that call `t` has made. -/
def passagesOf (t : ℕ) (h : List (verifier secret).Transition) : List Commit :=
  (passages h).filterMap fun e => if e.1 = t then some e.2 else none

/-- What holds of the calls and of the ledger after every run. -/
structure Accounted (h : List (verifier secret).Transition) (conf : Verifying) : Prop where
  ledger : Ledger.Reflects conf.world.ledger (commits h)
  lawful : Throughout Lawful (commits h)
  unmade : ∀ t, conf.task t = none → passagesOf t h = [] ∧ ∀ i, ¬ MadeWith h t i
  stage : ∀ t p, conf.task t = some p → ∃ i, MadeWith h t i ∧ (∀ i', MadeWith h t i' → i' = i) ∧
    Stage secret i (passagesOf t h) p

lemma madeWith_snoc {m : (verifier secret).Transition} {t : ℕ} {i : Verification} :
    MadeWith (h ++ [m]) t i ↔ MadeWith h t i ∨ m.label = .start t i := by
  simp only [MadeWith, List.mem_append, List.mem_singleton]
  constructor
  · rintro ⟨m', hm' | rfl, hl⟩
    · exact .inl ⟨m', hm', hl⟩
    · exact .inr hl
  · rintro (⟨m', hm', hl⟩ | hl)
    · exact ⟨m', .inl hm', hl⟩
    · exact ⟨m, .inr rfl, hl⟩

lemma passagesOf_snoc (t : ℕ) (h : List (verifier secret).Transition)
    (m : (verifier secret).Transition) : passagesOf t (h ++ [m]) = passagesOf t h ++
      ((passage m).toList.filterMap fun e => if e.1 = t then some e.2 else none) := by
  rw [passagesOf, passages_snoc, List.filterMap_append]
  rfl

lemma commits_snoc (h : List (verifier secret).Transition) (m : (verifier secret).Transition) :
    commits (h ++ [m]) = commits h ++ (passage m).toList.map Prod.snd := by
  rw [commits, passages_snoc, List.map_append]
  rfl

/-- A transition of one call leaves the stages of the others alone. -/
lemma Accounted.others (ha : Accounted h conf) {l : (verifier secret).Label} {t : ℕ}
    (hs : step conf l = some conf') (hl : ¬ l.IsOf t)
    (hp : ∀ e, passage (⟨conf, l, conf'⟩ : (verifier secret).Transition) = some e → e.1 ≠ t) :
    (conf'.task t = none → passagesOf t (h ++ [⟨conf, l, conf'⟩]) = [] ∧
      ∀ i, ¬ MadeWith (h ++ [⟨conf, l, conf'⟩]) t i) ∧
    ∀ p, conf'.task t = some p → ∃ i, MadeWith (h ++ [⟨conf, l, conf'⟩]) t i ∧
      (∀ i', MadeWith (h ++ [⟨conf, l, conf'⟩]) t i' → i' = i) ∧
      Stage secret i (passagesOf t (h ++ [⟨conf, l, conf'⟩])) p := by
  have hsame : passagesOf t (h ++ [⟨conf, l, conf'⟩]) = passagesOf t h := by
    rw [passagesOf_snoc]
    cases hpass : passage (⟨conf, l, conf'⟩ : (verifier secret).Transition) with
    | none => simp
    | some e => simp [hp e hpass]
  have hmade : ∀ i, MadeWith (h ++ [⟨conf, l, conf'⟩]) t i ↔ MadeWith h t i := by
    intro i
    rw [madeWith_snoc, or_iff_left]
    rintro rfl
    exact hl rfl
  have htask : conf'.task t = conf.task t := step_task_of_not_isOf hs hl
  simp only [hsame, hmade, htask]
  exact ⟨ha.unmade t, ha.stage t⟩

/-- What has to be shown of a transition of call `t`. -/
lemma Accounted.own (ha : Accounted h conf) {l : (verifier secret).Label} {t : ℕ}
    (hs : step conf l = some conf') (hl : ∀ u, l.IsOf u → u = t)
    (hp : ∀ e, passage (⟨conf, l, conf'⟩ : (verifier secret).Transition) = some e → e.1 = t)
    (hledger : Ledger.Reflects conf'.world.ledger (commits (h ++ [⟨conf, l, conf'⟩])))
    (hlawful : Throughout Lawful (commits (h ++ [⟨conf, l, conf'⟩])))
    {p : Handler Str VerifyResult} {i : Verification} (htask : conf'.task t = some p)
    (hmade : ∀ i', MadeWith (h ++ [⟨conf, l, conf'⟩]) t i' ↔ i' = i)
    (hstage : Stage secret i (passagesOf t (h ++ [⟨conf, l, conf'⟩])) p) :
    Accounted (h ++ [⟨conf, l, conf'⟩]) conf' := by
  have hothers : ∀ u, u ≠ t → _ := fun u hu =>
    ha.others hs (fun hof => hu (hl u hof)) fun e he heu => hu (heu.symm.trans (hp e he))
  refine ⟨hledger, hlawful, fun u hu => ?_, fun u q hu => ?_⟩
  · by_cases hut : u = t
    · rw [hut, htask] at hu
      cases hu
    · exact (hothers u hut).1 hu
  · by_cases hut : u = t
    · subst hut
      obtain rfl := Option.some.inj (htask.symm.trans hu)
      exact ⟨i, (hmade i).mpr rfl, fun i' hi' => (hmade i').mp hi', hstage⟩
    · exact (hothers u hut).2 q hu

lemma Accounted.start (ha : Accounted h conf) {t : ℕ} {i : Verification}
    (hs : step (M := verifier secret) conf (.start t i) = some conf') :
    Accounted (h ++ [(⟨conf, .start t i, conf'⟩ : (verifier secret).Transition)]) conf' := by
  obtain ⟨-, hadm, hconf⟩ := step_start hs
  have hnone : conf.task t = none := Option.isNone_iff_eq_none.mp hadm
  obtain ⟨hnil, hnever⟩ := ha.unmade t hnone
  have hcommits : commits (h ++ [(⟨conf, .start t i, conf'⟩ : (verifier secret).Transition)])
      = commits h := by simp [commits_snoc, passage]
  have htask : conf'.task t = some (verifyChallenge secret i.challenge i.nonce i.difficultyBits) := by
    rw [hconf, resume_task_self]
  refine ha.own (p := _) (i := i) hs (fun u hu => hu.symm) (by simp [passage]) ?_ ?_ htask
    (fun i' => ?_) (.inl ⟨?_, rfl⟩)
  · rw [hcommits, hconf]
    exact ha.ledger
  · exact hcommits ▸ ha.lawful
  · simp only [madeWith_snoc, hnever, false_or, Label.start.injEq, true_and]
    exact eq_comm
  · simp [passagesOf_snoc, passage, hnil]

lemma Accounted.env (ha : Accounted h conf) {now : ℤ}
    (hs : step (M := verifier secret) conf (.env now) = some conf') :
    Accounted (h ++ [(⟨conf, .env now, conf'⟩ : (verifier secret).Transition)]) conf' := by
  have hcommits : commits (h ++ [(⟨conf, .env now, conf'⟩ : (verifier secret).Transition)])
      = commits h := by simp [commits_snoc, passage]
  have hothers : ∀ u, _ := fun u => ha.others hs (t := u) id (by simp [passage])
  obtain ⟨w, hw, hconf⟩ := step_env hs
  have hledger : conf'.world.ledger = conf.world.ledger := by
    simp only [Option.ite_none_right_eq_some, Option.some.injEq] at hw
    rw [hconf, ← hw.2]
  refine ⟨?_, hcommits ▸ ha.lawful, fun u hu => (hothers u).1 hu, fun u p hu => (hothers u).2 p hu⟩
  rw [hcommits, hledger]
  exact ha.ledger

lemma Accounted.advance (ha : Accounted h conf) {t : ℕ} {x : Choice}
    (hs : step (M := verifier secret) conf (.advance t x) = some conf') :
    Accounted (h ++ [(⟨conf, .advance t x, conf'⟩ : (verifier secret).Transition)]) conf' := by
  obtain ⟨o, k, ht, hconf⟩ := step_advance hs
  obtain ⟨i, hmade, honly, hstage⟩ := ha.stage t _ ht
  have htask : conf'.task t = some (k (exec o x conf.world).1) := by
    rw [hconf, resume_task_self]
  have hworld : conf'.world = (exec o x conf.world).2 := by
    rw [hconf, resume_world]
  have hmade' : ∀ i', MadeWith (h ++ [(⟨conf, .advance t x, conf'⟩ : (verifier secret).Transition)])
      t i' ↔ i' = i := by
    intro i'
    rw [madeWith_snoc, or_iff_left (by simp)]
    exact ⟨honly i', fun hi => hi ▸ hmade⟩
  rcases hstage with ⟨hnil, hp⟩ | ⟨n, exp, now, hpay, hnow, hnil, hp⟩ | ⟨v, hp, -⟩ | ⟨v, c, hp, -⟩
  · -- the call reads the clock
    rcases verifyChallenge_cases secret i with ⟨v, -, hv⟩ | ⟨n, exp, hpay, k', hk', hcases⟩
    · rw [hv] at hp
      cases hp
    · rw [hk'] at hp
      obtain ⟨rfl, hk⟩ := Prog.call.inj hp
      obtain rfl := eq_of_heq hk
      have hpass : passage (⟨conf, .advance t x, conf'⟩ : (verifier secret).Transition) = none := by
        simp [passage, ht]
      have hcommits : commits (h ++ [(⟨conf, .advance t x, conf'⟩ :
          (verifier secret).Transition)]) = commits h := by simp [commits_snoc, hpass]
      refine ha.own hs (fun u hu => hu.symm) (by simp [hpass]) ?_ (hcommits ▸ ha.lawful) htask
        hmade' ?_
      · rw [hcommits, hworld]
        exact ha.ledger
      · have hof : passagesOf t (h ++ [(⟨conf, .advance t x, conf'⟩ :
            (verifier secret).Transition)]) = [] := by simp [passagesOf_snoc, hpass, hnil]
        rw [hof]
        rcases hcases conf.world.clock with ⟨v, hv, hk⟩ | ⟨hlt, hk⟩
        · exact .inr (.inr (.inl ⟨v, hk, hv, rfl⟩))
        · exact .inr (.inl ⟨n, exp, conf.world.clock, hpay, hlt, rfl, hk⟩)
  · -- the call passes through the lock
    obtain ⟨rfl, hk⟩ := Prog.call.inj hp
    obtain rfl := eq_of_heq hk
    let c : Commit := ⟨n, exp, now, (exec (π := Str) (.commit n exp now) x conf.world).1⟩
    have hpass : passage (⟨conf, .advance t x, conf'⟩ : (verifier secret).Transition)
        = some (t, c) := by
      simp [passage, ht, c]
    have hcommits : commits (h ++ [(⟨conf, .advance t x, conf'⟩ :
        (verifier secret).Transition)]) = commits h ++ [c] := by simp [commits_snoc, hpass]
    refine ha.own hs (fun u hu => hu.symm) (by simp [hpass]) ?_ ?_ htask hmade' ?_
    · rw [hcommits, hworld]
      exact ha.ledger.commit n exp now
    · rw [hcommits, throughout_snoc]
      exact ⟨ha.lawful, hnow, ha.ledger.commit_eq_true n exp now⟩
    · have hof : passagesOf t (h ++ [(⟨conf, .advance t x, conf'⟩ :
          (verifier secret).Transition)]) = [c] := by simp [passagesOf_snoc, hpass, hnil]
      rw [hof]
      cases hins : (exec (π := Str) (.commit n exp now) x conf.world).1 with
      | true => exact .inr (.inr (.inr ⟨.ok, c, by simp, rfl, hpay, by simp [c, hins]⟩))
      | false => exact .inr (.inr (.inr ⟨.reused, c, by simp, rfl, hpay, by simp [c, hins]⟩))
  · cases hp
  · cases hp

theorem accounted_of_run (hr : Run (M := verifier secret) ok (noCalls clock) h conf) :
    Accounted h conf := by
  refine hr.invariant (I := fun h (conf : Verifying) => Accounted h conf) ?_ ?_
  · exact ⟨.empty, by simp [Throughout, commits, passages],
      fun t _ => ⟨rfl, by simp [MadeWith]⟩, by simp [noCalls]⟩
  · intro h conf l conf' _ ih hs _
    cases l with
    | start t i => exact ih.start hs
    | advance t x => exact ih.advance hs
    | env now => exact ih.env hs

/-! ## Acceptance -/

/-- The call was given the token and accepted it. -/
def Accepts (h : List (verifier secret).Transition) (conf : Verifying) (t : ℕ) (challenge : Str) :
    Prop :=
  conf.task t = some (.ret .ok) ∧ ∃ i, MadeWith h t i ∧ i.challenge = challenge

/-- No token is accepted by two calls. -/
def SingleUse (h : List (verifier secret).Transition) (conf : Verifying) : Prop :=
  ∀ t t' challenge, Accepts h conf t challenge → Accepts h conf t' challenge → t = t'

/-- The authentic tokens that the calls are given differ in their nonces, as those of different
calls of `issueChallenge` do. -/
def Distinct (h : List (verifier secret).Transition) : Prop :=
  ∀ t t' i i' n e e', MadeWith h t i → MadeWith h t' i' →
    payload secret i.challenge = some (n, e) → payload secret i'.challenge = some (n, e') →
      i.challenge = i'.challenge

lemma mem_passagesOf {t : ℕ} {c : Commit} : c ∈ passagesOf t h ↔ (t, c) ∈ passages h := by
  simp only [passagesOf, List.mem_filterMap, Option.ite_none_right_eq_some, Option.some.injEq]
  constructor
  · rintro ⟨⟨u, d⟩, hmem, rfl, rfl⟩
    exact hmem
  · exact fun hmem => ⟨(t, c), hmem, rfl, rfl⟩

/-- A call that has passed through the lock was given a token with the nonce and the expiry of the
passage, has passed once, and accepted the token exactly if it inserted the nonce. -/
lemma Accounted.passage_spec (ha : Accounted h conf) {t : ℕ} {c : Commit}
    (hc : (t, c) ∈ passages h) : ∃ i, MadeWith h t i ∧
      payload secret i.challenge = some (c.nonceHex, c.exp) ∧ passagesOf t h = [c] ∧
      (conf.task t = some (.ret .ok) ↔ c.inserted = true) := by
  have hmem : c ∈ passagesOf t h := mem_passagesOf.mpr hc
  cases ht : conf.task t with
  | none =>
      rw [(ha.unmade t ht).1] at hmem
      cases hmem
  | some p =>
      obtain ⟨i, hmade, -, hstage⟩ := ha.stage t p ht
      rcases hstage with ⟨hnil, -⟩ | ⟨n, exp, now, -, -, hnil, -⟩ | ⟨v, -, -, hnil⟩ |
        ⟨v, d, rfl, hone, hpay, hv⟩
      · simp [hnil] at hmem
      · simp [hnil] at hmem
      · simp [hnil] at hmem
      · obtain rfl : c = d := by simpa [hone] using hmem
        exact ⟨i, hmade, hpay, hone, by simpa using hv⟩

/-- A call that accepted its token inserted the nonce of it. -/
lemma Accounted.accepts_spec (ha : Accounted h conf) {t : ℕ} {challenge : Str}
    (hacc : Accepts h conf t challenge) : ∃ c, (t, c) ∈ passages h ∧ c.inserted = true ∧
      payload secret challenge = some (c.nonceHex, c.exp) := by
  obtain ⟨ht, i, hmade, rfl⟩ := hacc
  obtain ⟨i', -, honly, hstage⟩ := ha.stage t _ ht
  obtain rfl := honly i hmade
  rcases hstage with ⟨-, hp⟩ | ⟨n, exp, now, -, -, -, hp⟩ | ⟨v, hp, hv, -⟩ |
    ⟨v, c, hp, hone, hpay, hv⟩
  · rcases verifyChallenge_cases secret i with ⟨v, hv, hret⟩ | ⟨n, exp, -, k, hk, -⟩
    · rw [hret] at hp
      exact absurd (Prog.ret.inj hp).symm hv
    · rw [hk] at hp
      cases hp
  · cases hp
  · exact absurd (Prog.ret.inj hp).symm hv
  · obtain rfl := Prog.ret.inj hp
    exact ⟨c, mem_passagesOf.mp (hone ▸ List.mem_cons_self), hv.mp rfl, hpay⟩

/-- No call passes through the lock twice. -/
lemma Accounted.nodup (ha : Accounted h conf) : (passages h).Pairwise fun e e' => e.1 ≠ e'.1 := by
  have hnodup : ((passages h).map Prod.fst).Nodup := by
    refine List.nodup_iff_count_le_one.mpr fun t => ?_
    have hcount : ((passages h).map Prod.fst).count t = (passagesOf t h).length := by
      rw [passagesOf, List.length_filterMap_eq_countP, List.count, List.countP_map]
      refine List.countP_congr fun e _ => ?_
      by_cases he : e.1 = t <;> simp [he]
    rw [hcount]
    cases hof : passagesOf t h with
    | nil => simp
    | cons c cs =>
        have hc : (t, c) ∈ passages h := mem_passagesOf.mp (hof ▸ List.mem_cons_self)
        obtain ⟨i, -, -, hone, -⟩ := ha.passage_spec hc
        rw [← hof, hone]
        exact le_refl 1
  exact List.pairwise_map.mp hnodup

/-- **A token is accepted once exactly if every passage is timely.**  In a run whose tokens have
different nonces, no token is accepted by two calls if and only if, whenever a call takes the lock
for a nonce that was inserted before, nobody has taken it since with a clock at or past the expiry
of the token. -/
theorem singleUse_iff (hd : Distinct h)
    (hr : Run (M := verifier secret) ok (noCalls clock) h conf) :
    SingleUse h conf ↔ Throughout Timely (commits h) := by
  have ha := accounted_of_run hr
  have hchallenge : ∀ {t t' c c'}, (t, c) ∈ passages h → (t', c') ∈ passages h →
      c.nonceHex = c'.nonceHex → ∃ i i', MadeWith h t i ∧ MadeWith h t' i' ∧
        i.challenge = i'.challenge ∧ payload secret i.challenge = some (c.nonceHex, c.exp) ∧
        payload secret i'.challenge = some (c'.nonceHex, c'.exp) := by
    intro t t' c c' hc hc' hn
    obtain ⟨i, hmade, hpay, -, -⟩ := ha.passage_spec hc
    obtain ⟨i', hmade', hpay', -, -⟩ := ha.passage_spec hc'
    exact ⟨i, i', hmade, hmade', hd t t' i i' _ _ _ hmade hmade' hpay (hn ▸ hpay'), hpay, hpay'⟩
  have hexp : ∀ c ∈ commits h, ∀ d ∈ commits h, c.nonceHex = d.nonceHex → c.exp = d.exp := by
    intro _ hc _ hc' hn
    obtain ⟨⟨t, c⟩, hmem, rfl⟩ := List.mem_map.mp hc
    obtain ⟨⟨t', c'⟩, hmem', rfl⟩ := List.mem_map.mp hc'
    obtain ⟨i, i', -, -, hsame, hpay, hpay'⟩ := hchallenge hmem hmem' hn
    rw [hsame, hpay'] at hpay
    exact (Prod.mk.inj (Option.some.inj hpay)).2.symm
  rw [← once_iff_timely ha.lawful hexp, commits, List.pairwise_map]
  constructor
  · intro hsingle
    refine ha.nodup.imp_of_mem fun {e e'} he he' hne => ?_
    rintro ⟨hins, hins', hn⟩
    -- both calls accepted, and they were given the same token
    obtain ⟨i, i', hmade, hmade', hsame, -, -⟩ := hchallenge he he' hn
    obtain ⟨-, -, -, -, hok⟩ := ha.passage_spec he
    obtain ⟨-, -, -, -, hok'⟩ := ha.passage_spec he'
    refine hne (hsingle e.1 e'.1 i.challenge ⟨hok.mpr hins, i, hmade, rfl⟩ ?_)
    exact ⟨hok'.mpr hins', i', hmade', hsame.symm⟩
  · intro honce t t' challenge hacc hacc'
    obtain ⟨c, hc, hins, hpay⟩ := ha.accepts_spec hacc
    obtain ⟨c', hc', hins', hpay'⟩ := ha.accepts_spec hacc'
    have hn : c.nonceHex = c'.nonceHex := by
      rw [hpay] at hpay'
      exact (Prod.mk.inj (Option.some.inj hpay')).1
    by_contra hne
    let R : ℕ × Commit → ℕ × Commit → Prop := fun e e' => Once e.2 e'.2
    have hsymm : Std.Symm R := ⟨fun e e' hR hno => hR ⟨hno.2.1, hno.1, hno.2.2.symm⟩⟩
    have hpair : (passages h).Pairwise R := honce
    have hR : R (t, c) (t', c') := hpair.forall hc hc' fun e => hne (congrArg Prod.fst e)
    exact hR ⟨hins, hins', hn⟩

end Run

/-! ## A token of the last second -/

/-- The token that `issueChallenge` would make of a nonce and an expiry. -/
def Sample.pow (nonce exp : String) : Str :=
  let payload := ascii nonce ++ [colon] ++ ascii exp
  payload ++ [colon] ++ hmacHex Sample.secret payload

/-- A call is made with a token and performs `n` calls. -/
def Sample.verify (t : ℕ) (token : Str) (n : ℕ) : List (verifier Sample.secret).Label :=
  .start t ⟨token, [], 0⟩ :: List.replicate n (.advance t (Sample.draw 0))

/-- Two tokens with different nonces. -/
def Sample.tokens : List Str := [Sample.pow "aa" "100", Sample.pow "bb" "200"]

/-- The calls were made with these tokens. -/
def Sample.given (h : List (verifier Sample.secret).Transition) : Bool :=
  h.all fun m => match m.label with
    | .start _ i => i.challenge ∈ Sample.tokens
    | _ => true

lemma Sample.distinct_of_given {h : List (verifier Sample.secret).Transition}
    (hgiven : Sample.given h = true) : Distinct h := by
  have hmem : ∀ t i, MadeWith h t i → i.challenge ∈ Sample.tokens := by
    rintro t i ⟨m, hm, hl⟩
    have htest := List.all_eq_true.mp hgiven m hm
    rw [hl] at htest
    exact of_decide_eq_true htest
  have hnonces : (Sample.tokens.map fun a => (payload Sample.secret a).map Prod.fst).Nodup := by
    decide +kernel
  have hnonce : ∀ a ∈ Sample.tokens, ∀ b ∈ Sample.tokens,
      (payload Sample.secret a).map Prod.fst = (payload Sample.secret b).map Prod.fst → a = b :=
    fun _ ha _ hb hab => List.inj_on_of_nodup_map hnonces ha hb hab
  intro t t' i i' n e e' hi hi' hp hp'
  refine hnonce _ (hmem t i hi) _ (hmem t' i' hi') ?_
  rw [hp, hp']
  rfl

/-- The call has accepted its token. -/
def Sample.accepted (conf : Verifying) (t : ℕ) : Bool :=
  match conf.task t with
  | some (.ret .ok) => true
  | _ => false

lemma Sample.ok_of_accepted {conf : Verifying} {t : ℕ} (h : Sample.accepted conf t = true) :
    conf.task t = some (.ret .ok) := by
  unfold Sample.accepted at h
  split at h
  · assumption
  · cases h

/-- The call was made with the first token. -/
def Sample.madeWith (h : List (verifier Sample.secret).Transition) (t : ℕ) : Bool :=
  h.any fun m => match m.label with
    | .start u i => u = t && i.challenge = Sample.pow "aa" "100"
    | _ => false

lemma Sample.accepts_of_test {h : List (verifier Sample.secret).Transition} {conf : Verifying}
    {t : ℕ} (hmade : Sample.madeWith h t = true) (hacc : Sample.accepted conf t = true) :
    Accepts h conf t (Sample.pow "aa" "100") := by
  refine ⟨Sample.ok_of_accepted hacc, ?_⟩
  obtain ⟨m, hm, htest⟩ := List.any_eq_true.mp hmade
  split at htest
  · rename_i u i hl
    obtain ⟨rfl, hi⟩ : u = t ∧ i.challenge = Sample.pow "aa" "100" := by simpa using htest
    exact ⟨i, ⟨m, hm, hl⟩, hi⟩
  · cases htest

/-- Two calls with one token, of which the second is refused. -/
def Sample.usedTwice : Script (M := verifier Sample.secret) (noCalls 99) (fun _ _ => true)
    (fun h conf => Sample.given h && Sample.accepted conf 0 && !Sample.accepted conf 1) where
  labels := Sample.verify 0 (Sample.pow "aa" "100") 2 ++ Sample.verify 1 (Sample.pow "aa" "100") 2
  performed := by decide +kernel

/-- A token is used, and refused when it is used again. -/
theorem singleUse_iff_sample : ∃ (h : List (verifier Sample.secret).Transition) (conf : Verifying),
    Sample.accepted conf 0 = true ∧ Sample.accepted conf 1 = false ∧
      (SingleUse h conf ↔ Throughout Timely (commits h)) := by
  obtain ⟨h, conf, hr, hend⟩ := Sample.usedTwice.exists_run fun _ _ _ _ => trivial
  simp only [Bool.and_eq_true, Bool.not_eq_true'] at hend
  obtain ⟨⟨hgiven, hfirst⟩, hsecond⟩ := hend
  exact ⟨h, conf, hfirst, hsecond, singleUse_iff (Sample.distinct_of_given hgiven) hr⟩

/-- The first of two calls is overtaken, and the ledger purged, before it takes the lock. -/
def Sample.overtaken : Script (M := verifier Sample.secret) (noCalls 99) (fun _ _ => true)
    (fun h conf => Sample.given h &&
      [0, 1].all fun t => Sample.madeWith h t && Sample.accepted conf t) where
  labels := Sample.verify 0 (Sample.pow "aa" "100") 2 ++ Sample.verify 1 (Sample.pow "aa" "100") 1
    ++ [.env 100] ++ Sample.verify 2 (Sample.pow "bb" "200") 2 ++ [.advance 1 (Sample.draw 0)]
  performed := by decide +kernel

/-- A call that read the clock in the last second of a token takes the lock after the ledger has
forgotten the nonce, and accepts the token a second time. -/
theorem pow_reused : ¬ ∀ (secret : List UInt8) (clock : ℤ)
    (h : List (verifier secret).Transition) (conf : Verifying),
    Distinct h → Run (M := verifier secret) anyStep (noCalls clock) h conf → SingleUse h conf := by
  intro hall
  obtain ⟨h, conf, hr, hend⟩ := Sample.overtaken.exists_run fun _ _ _ _ => trivial
  obtain ⟨hgiven, hboth⟩ := Bool.and_eq_true_iff.mp hend
  have hacc : ∀ t ∈ [0, 1], Accepts h conf t (Sample.pow "aa" "100") := by
    intro t ht
    obtain ⟨hmade, hacc⟩ := Bool.and_eq_true_iff.mp (List.all_eq_true.mp hboth t ht)
    exact Sample.accepts_of_test hmade hacc
  have hsame := hall _ _ h conf (Sample.distinct_of_given hgiven) hr 0 1 _
    (hacc 0 (by simp)) (hacc 1 (by simp))
  cases hsame

end HashHush
