import HashHush.Dialogue

/-!
# One attempt per connection

After an auth failure the handler asks for the connection to be closed, to prevent a client from
retrying on the same socket.  The close is only requested: the record of the peer stays as it is,
and frames that arrive before the connection is gone are handled as before.  A second `hello`
consumes a second challenge (`two_challenges`).

`Restrained` is what the handler relies on: after a failure the connection sends no further `hello`,
nor an answer while a challenge is pending, and it asks for one challenge at most.  Under this
condition every connection gets one attempt (`one_attempt`).
-/

namespace HashHush

open Concurrency System

/-! ## The calls of a connection -/

/-- The call hands out a challenge row. -/
def consumes : Called (signature Str) → Bool
  | ⟨.consumeChallenge _, some _⟩ => true
  | _ => false

/-- The call takes the connection further: it hands out a row, stores a token or promotes the
peer. -/
def advances : Called (signature Str) → Bool
  | ⟨.consumeChallenge _, some _⟩ => true
  | ⟨.insertAccessToken _ _, stored⟩ => stored
  | ⟨.markPeerJoined _ _, _⟩ => true
  | _ => false

/-- The call reports an auth failure. -/
def fails : Called (signature Str) → Bool
  | ⟨.sendText _ (.error e), _⟩ => e = .invalidKey ∨ e = .noChallenge ∨ e = .notJoined
  | _ => false

/-- At most one row has been handed out, and nothing has gone further after a failure. -/
structure Single (es : List (Called (signature Str))) : Prop where
  once : es.countP consumes ≤ 1
  final : es.Pairwise fun f e => fails f = true → advances e = false

/-- No failure has been reported. -/
def Clean (es : List (Called (signature Str))) : Prop := ∀ f ∈ es, fails f = false

lemma advances_of_consumes {e : Called (signature Str)} (he : consumes e = true) :
    advances e = true := by
  unfold consumes at he
  split at he
  · rfl
  · cases he

lemma Single.snoc_idle {es : List (Called (signature Str))} (hs : Single es)
    {e : Called (signature Str)} (he : advances e = false) : Single (es ++ [e]) where
  once := by
    have hnot : consumes e = false := by
      cases hc : consumes e with
      | false => rfl
      | true => simp [advances_of_consumes hc] at he
    rw [List.countP_append, List.countP_singleton, hnot]
    exact hs.once
  final := by
    refine List.pairwise_append.mpr ⟨hs.final, List.pairwise_singleton _ _, fun f _ g hg _ => ?_⟩
    rw [List.mem_singleton.mp hg]
    exact he

lemma Single.snoc_clean {es : List (Called (signature Str))} (hs : Single es) (hclean : Clean es)
    {e : Called (signature Str)} (he : consumes e = true → es.countP consumes = 0) :
    Single (es ++ [e]) where
  once := by
    rw [List.countP_append, List.countP_singleton]
    split
    · rename_i hc
      rw [he hc]
    · exact hs.once
  final := by
    refine List.pairwise_append.mpr ⟨hs.final, List.pairwise_singleton _ _, fun f hf g _ hfail => ?_⟩
    simp [hclean f hf] at hfail

lemma Clean.snoc {es : List (Called (signature Str))} (h : Clean es) {e : Called (signature Str)}
    (he : fails e = false) : Clean (es ++ [e]) := by
  intro f hf
  rcases List.mem_append.mp hf with hf | hf
  · exact h f hf
  · rw [List.mem_singleton.mp hf]
    exact he

/-! ## The specification -/

/-- What the callbacks of a connection rely on: they read its record, and know their own calls,
which are a single attempt at any time. -/
def attempt : Spec (signature Str) (Option Peer × List (Called (signature Str))) :=
  .private (fun _ s => Single s.2) fun o r s s' => s'.2 = s.2 ++ [⟨o, r⟩] ∧
    match o, r with
    | .findByConn _, p => p = s.1 ∧ s'.1 = s.1
    | _, _ => True

/-- The operations that cannot take a connection further. -/
def Op.Idle : Op Str → Prop
  | .consumeChallenge _ | .insertAccessToken _ _ | .markPeerJoined _ _ => False
  | _ => True

lemma Op.Passive.idle {o : Op Str} (h : o.Passive) : o.Idle := by
  cases o <;> trivial

lemma Op.Idle.not_advances {o : Op Str} (h : o.Idle) (r : o.Res) : advances ⟨o, r⟩ = false := by
  cases o <;> first | rfl | exact h.elim

section Wp

variable {c : Conn} {s : Option Peer × List (Called (signature Str))}

/-- Idle calls keep a single attempt single. -/
lemma single_of_idle {p : Handler Str Unit} (hp : p.Only Op.Idle) (hs : Single s.2) :
    p.Wp attempt (fun _ s => Single s.2) s := by
  refine hp.wp_of_invariant (J := fun (s : Option Peer × List (Called (signature Str))) => Single s.2)
    ?_ (fun _ _ _ hs => hs) ?_ (fun _ _ hs => hs) hs
  · rintro s _ rfl hs
    exact hs
  · rintro o r s s' ho hs ⟨hcalls, -⟩
    rw [hcalls]
    exact hs.snoc_idle (ho.not_advances r)

lemma single_of_passive {p : Handler Str Unit} (hp : p.Only Op.Passive) (hs : Single s.2) :
    p.Wp attempt (fun _ s => Single s.2) s :=
  single_of_idle (hp.mono fun _ ho => ho.idle) hs

/-- One call of a connection that has not failed. -/
lemma attempt_step {α : Type} {o : Op Str} {f : o.Res → Handler Str α}
    {Q : Except JsonError α → Option Peer × List (Called (signature Str)) → Prop}
    (hs : Single s.2) (hclean : Clean s.2)
    (honce : ∀ r, consumes ⟨o, r⟩ = true → s.2.countP consumes = 0)
    (hfail : ∀ r, fails ⟨o, r⟩ = false)
    (hf : ∀ r s', s'.2 = s.2 ++ [⟨o, r⟩] → Single s'.2 → Clean s'.2 → (f r).Wp attempt Q s') :
    (Prog.perform (S := signature Str) o >>= f).Wp attempt Q s := by
  refine .step ?_
  rintro _ rfl
  refine ⟨hs, fun r s' hstep => hf r s' hstep.1 ?_ ?_⟩
  · rw [hstep.1]
    exact hs.snoc_clean hclean (honce r)
  · rw [hstep.1]
    exact hclean.snoc (hfail r)

lemma finalizeJoin_attempt (peer : Peer) (token : Str) (isFresh : Bool) (hs : Single s.2)
    (hclean : Clean s.2) :
    (finalizeJoin c peer token isFresh).Wp attempt (fun _ s => Single s.2) s := by
  refine attempt_step hs hclean (fun _ h => by cases h) (fun _ => rfl) fun _ s' _ hs' _ => ?_
  exact single_of_passive (announceJoin_passive c _ _ _) hs'

lemma sendChallenge_idle (pair : ChallengePair) : (sendChallenge c pair).Only Op.Idle :=
  .step trivial fun _ => .step trivial fun _ => .perform trivial

lemma helloWithoutToken_attempt (peer : Peer) (hs : Single s.2) (hclean : Clean s.2)
    (hnone : s.2.countP consumes = 0) :
    (helloWithoutToken c peer).Wp attempt (fun _ s => Single s.2) s := by
  have hrest : ∀ (pair : Option ChallengePair) s', Single s'.2 →
      (offerChallenge c pair).Wp attempt (fun _ s => Single s.2) s' := by
    intro pair s' hs'
    refine single_of_idle ?_ hs'
    cases pair with
    | some pair => exact sendChallenge_idle pair
    | none =>
        refine Prog.Only.bind ?_ fun pair => sendChallenge_idle pair
        exact .step trivial fun _ => .step trivial fun _ => .step trivial fun _ => trivial
  rw [helloWithoutToken_eq]
  refine Prog.Wp.bind (attempt_step hs hclean (fun _ h => by cases h) (fun _ => rfl) ?_)
  intro roomRow s₁ h₁ hs₁ hclean₁
  cases roomRow with
  | none => exact hrest none s₁ hs₁
  | some row =>
      refine attempt_step hs₁ hclean₁ (fun _ h => by cases h) (fun _ => rfl) ?_
      intro live s₂ h₂ hs₂ hclean₂
      refine .ite (fun _ => hrest none s₂ hs₂) fun _ => ?_
      have hnone₂ : s₂.2.countP consumes = 0 := by
        rw [h₂, h₁]
        simp [List.countP_append, hnone, consumes]
      rintro _ rfl
      refine ⟨hs₂, fun pair s₃ h₃ => hrest pair s₃ ?_⟩
      rw [h₃.1]
      exact hs₂.snoc_clean hclean₂ fun _ => hnone₂

lemma challengeResponse_attempt (peer : Peer) (answer : Str) (hs : Single s.2)
    (hclean : Clean s.2 ∨ peer.pendingToken = [] ∨ peer.expectedPlaintext = []) :
    (challengeResponse c peer answer).Wp attempt (fun _ s => Single s.2) s := by
  refine .ite (fun _ => single_of_passive (sendErrAndClose_passive c _) hs) fun hpending => ?_
  have hclean : Clean s.2 := hclean.resolve_right hpending
  refine attempt_step hs hclean (fun _ h => by cases h) (fun _ => rfl) fun _ s₁ _ hs₁ hclean₁ => ?_
  refine .ite (fun _ => single_of_passive (sendErrAndClose_passive c _) hs₁) fun _ => ?_
  refine attempt_step hs₁ hclean₁ (fun _ h => by cases h) (fun _ => rfl)
    fun inserted s₂ _ hs₂ hclean₂ => ?_
  refine .ite (fun _ => finalizeJoin_attempt peer _ true hs₂ hclean₂) fun _ => ?_
  exact single_of_passive (sendErrAndClose_passive c _) hs₂

lemma unjoined_attempt (peer : Peer) (j : Json) (type : Str) (hs : Single s.2)
    (hhello : ∀ token, j.eventOfType type = some (.hello token) → Clean s.2)
    (hnone : j.eventOfType type = some (.hello []) → s.2.countP consumes = 0)
    (hresponse : ∀ a, j.eventOfType type = some (.response a) →
      Clean s.2 ∨ peer.pendingToken = [] ∨ peer.expectedPlaintext = []) :
    (unjoined c peer j type).Wp attempt (fun _ s => Single s.2) s := by
  unfold unjoined
  refine Prog.Wp.ite (fun ht => ?_) fun ht => Prog.Wp.ite (fun ht' => ?_) fun _ => ?_
  · refine .ofExcept (fun token htoken => ?_) fun _ _ => hs
    have hev : j.eventOfType type = some (.hello token) := by
      rw [Json.eventOfType, if_pos ht, htoken]
      rfl
    have hclean := hhello token hev
    refine Prog.Wp.ite (fun _ => ?_) fun hempty => ?_
    · refine attempt_step hs hclean (fun _ h => by cases h) (fun _ => rfl)
        fun owner s₁ _ hs₁ hclean₁ => ?_
      refine .ite (fun _ => finalizeJoin_attempt peer token false hs₁ hclean₁) fun _ => ?_
      exact single_of_passive (sendErrAndClose_passive c _) hs₁
    · obtain rfl : token = [] := by simpa using hempty
      exact helloWithoutToken_attempt peer hs hclean (hnone hev)
  · refine .ofExcept (fun answer ha => ?_) fun _ _ => hs
    have hev : j.eventOfType type = some (.response answer) := by
      rw [Json.eventOfType, if_neg ht, if_pos ht', ha]
      rfl
    exact challengeResponse_attempt peer answer hs (hresponse answer hev)
  · exact single_of_passive (sendErrAndClose_passive c _) hs

/-- The frame keeps to one attempt, given the record and the calls of the connection before it:
after a failure no `hello` and no answer to a pending challenge, after a row no request for
another. -/
structure Inbound.Keeps (cfg : Config) (data : Inbound) (peer : Peer)
    (es : List (Called (signature Str))) : Prop where
  hello : ∀ token, data.event cfg = some (.hello token) → Clean es
  once : data.event cfg = some (.hello []) → es.countP consumes = 0
  response : ∀ a, data.event cfg = some (.response a) →
    Clean es ∨ peer.pendingToken = [] ∨ peer.expectedPlaintext = []

lemma onmessage_attempt (cfg : Config) (data : Inbound) (hs : Single s.2)
    (hkeeps : ∀ peer, s.1 = some peer → peer.joined = false → data.Keeps cfg peer s.2) :
    (onmessage cfg id c data).Wp attempt (fun _ s => Single s.2) s := by
  unfold onmessage
  refine Prog.Wp.ite (fun _ => single_of_passive (.perform trivial) hs) fun hsize => .step ?_
  rintro _ rfl
  refine ⟨hs, fun found s₁ h₁ => ?_⟩
  obtain ⟨hcalls, hfound, -⟩ := h₁
  have hs₁ : Single s₁.2 := by
    rw [hcalls]
    exact hs.snoc_idle rfl
  cases found with
  | none => exact single_of_passive (.perform trivial) hs₁
  | some peer =>
      cases hjson : data.json with
      | none => exact single_of_passive (sendErr_passive c _) hs₁
      | some j =>
          have hev : data.event cfg = j.event := by simp [Inbound.event, hsize, hjson]
          refine .ofExcept (fun hasType hhas => ?_) fun _ _ => hs₁
          refine Prog.Wp.ite (fun ht => ?_) fun _ => single_of_passive (sendErr_passive c _) hs₁
          obtain rfl : hasType = true := ht
          refine .ofExcept (fun v hv => .ofExcept (fun type htype => ?_) fun _ _ => hs₁) fun _ _ => hs₁
          have hevt : data.event cfg = j.eventOfType type := by
            simp [hev, Json.event, hhas, hv, htype, Except.toOption]
          refine Prog.Wp.ite (fun _ => ?_) fun hj => ?_
          · exact single_of_passive (joined_passive c cfg id peer j type) hs₁
          · have hk := hkeeps peer hfound.symm (by simpa using hj)
            have hclean : Clean s.2 → Clean s₁.2 := by
              intro h
              rw [hcalls]
              exact h.snoc rfl
            have hcount : s₁.2.countP consumes = s.2.countP consumes := by
              rw [hcalls, List.countP_append]
              rfl
            refine unjoined_attempt peer j type hs₁ ?_ ?_ ?_
            · exact fun token h => hclean (hk.hello token (hevt.trans h))
            · exact fun h => hcount.trans (hk.once (hevt.trans h))
            · exact fun a h => (hk.response a (hevt.trans h)).imp_left hclean

lemma onopen_idle (c : Conn) (room : Option Str) : (onopen c room).Only Op.Idle :=
  Prog.Only.ite (fun _ => trivial) fun _ => .step trivial fun _ => .perform trivial

lemma onclose_idle (c : Conn) : (onclose c).Only Op.Idle := by
  refine .step trivial fun peer => ?_
  cases peer with
  | none => trivial
  | some p =>
      refine Prog.Only.ite (fun _ => ?_) fun _ => trivial
      exact (broadcast_passive _ _ _).mono fun _ ho => ho.idle

end Wp

section Run

variable {cfg : Config} {secret : List UInt8} {db : Database} {clock : ℤ}
variable {h : List (server cfg secret).Transition} {conf : State}

/-- The frames that un-joined connections send keep to one attempt. -/
def Restrained (h : List (server cfg secret).Transition) (m : (server cfg secret).Transition) : Prop :=
  ∀ c data, m.label = .start (.ws c) (.message data) → ∀ peer,
    m.pre.world.mgr.peers c = some peer → peer.joined = false →
      data.Keeps cfg peer (calls (M := server cfg secret) (Task.ws c) h)

theorem serves_attempt (hr : Run (M := server cfg secret) Restrained (boot db clock) h conf)
    (c : Conn) :
    Serves (M := server cfg secret) attempt (fun s => Single s.2) (conf.task (.ws c))
      (conf.world.mgr.peers c, calls (M := server cfg secret) (Task.ws c) h) := by
  refine hr.modular (M := server cfg secret) (Task.ws c) (fun h (conf : State) =>
    (conf.world.mgr.peers c, calls (M := server cfg secret) (Task.ws c) h)) ?_ ?_ ?_ ?_ ?_
  · rintro s _ rfl hs
    exact hs
  · exact ⟨Nat.zero_le _, List.Pairwise.nil⟩
  · intro h conf i conf' _ hs hm hI
    obtain ⟨-, hadm, rfl⟩ := step_start hs
    rw [calls_start]
    cases i with
    | opened room => exact single_of_idle (onopen_idle c room) hI
    | message data => exact onmessage_attempt cfg data hI fun peer hp hj => hm c data rfl peer hp hj
    | closed => exact single_of_idle (onclose_idle c) hI
    | _ => exact absurd hadm (by simp [admits])
  · intro h conf x conf' o k hr hs _ ht _
    obtain ⟨o', k', ht', rfl⟩ := step_advance hs
    obtain ⟨rfl, -⟩ : o' = o ∧ HEq k' k := by simpa [ht] using ht'.symm
    refine ⟨calls_advance ht h x _, ?_⟩
    have hof := (task_only hr ht).1
    cases o' with
    | findByConn d =>
        obtain rfl : d = c := hof
        exact ⟨rfl, rfl⟩
    | _ => trivial
  · intro h conf l conf' hr hs _ hl
    rw [calls_of_not_isOf hl, peers_of_not_isOf hr hs hl]
    rfl

/-- **One attempt per connection**, if the frames keep to it: at any time the connection has been
handed at most one row, and since it was told of an auth failure it has been handed no row, had
no token stored and has not been promoted. -/
theorem one_attempt (hr : Run (M := server cfg secret) Restrained (boot db clock) h conf) (c : Conn) :
    (calls (M := server cfg secret) (Task.ws c) h).countP consumes ≤ 1 ∧
      (calls (M := server cfg secret) (Task.ws c) h).Pairwise fun f e =>
        fails f = true → advances e = false := by
  have hserves := serves_attempt hr c
  have hsingle : Single (calls (M := server cfg secret) (Task.ws c) h) := by
    cases ht : conf.task (.ws c) with
    | none => exact hserves.of_idle (by rw [ht]; rfl)
    | some p =>
        cases p with
        | call o k => exact hserves.pre ht
        | ret a => exact hserves.of_idle (by rw [ht]; rfl)
        | fail e => exact hserves.of_idle (by rw [ht]; rfl)
  exact ⟨hsingle.once, hsingle.final⟩

end Run

/-- A `hello` without a token. -/
def Sample.hello : Input := Sample.frame [("type", "hello")]

/-- A pool of two challenges. -/
def Sample.pool : List ChallengePair :=
  [⟨ascii "p", ascii "c", ascii "n"⟩, ⟨ascii "q", ascii "d", ascii "m"⟩]

/-- A test for frames that keep to one attempt. -/
def restrainedTest (h : List (server {} Sample.secret).Transition)
    (m : (server {} Sample.secret).Transition) : Bool :=
  match m.label with
  | .start (.ws c) (.message data) =>
      (calls (M := server {} Sample.secret) (Task.ws c) h).all fun e =>
        !fails e && !(consumes e && data.event {} = some (.hello []))
  | _ => true

lemma restrained_of_test {h : List (server {} Sample.secret).Transition}
    {m : (server {} Sample.secret).Transition} (hm : restrainedTest h m = true) : Restrained h m := by
  intro c data hl peer _ _
  simp only [restrainedTest, hl, List.all_eq_true, Bool.and_eq_true] at hm
  have hclean : Clean (calls (M := server {} Sample.secret) (Task.ws c) h) := fun e he => by
    simpa using (hm e he).1
  refine ⟨fun _ _ => hclean, fun hhello => ?_, fun _ _ => .inl hclean⟩
  refine List.countP_eq_zero.mpr fun e he hc => ?_
  simpa [hc, hhello] using (hm e he).2

/-- A client asks for a challenge and answers it. -/
def Sample.answersOne : Script (M := server {} Sample.secret)
    (boot (Sample.store 2 Sample.pool []) 0) restrainedTest
    (fun _ conf => conf.world.mgr.isJoined 0) where
  labels := Sample.opening 0 ++ Sample.handle (.ws 0) Sample.hello 7
    ++ Sample.handle (.ws 0) (Sample.frame [("type", "challenge_response"), ("plaintext", "p")]) 10
  performed := by decide +kernel

/-- A client asks for a challenge, answers it and is in. -/
theorem one_attempt_sample : ∃ (h : List (server {} Sample.secret).Transition) (conf : State),
    conf.world.mgr.isJoined 0 = true ∧
      (calls (M := server {} Sample.secret) (Task.ws 0) h).countP consumes ≤ 1 := by
  obtain ⟨h, conf, hr, hjoined⟩ := Sample.answersOne.exists_run fun _ _ _ => restrained_of_test
  exact ⟨h, conf, hjoined, (one_attempt hr 0).1⟩

/-- A client says `hello` twice. -/
def Sample.helloTwice : Script (M := server {} Sample.secret)
    (boot (Sample.store 2 Sample.pool []) 0) (fun _ _ => true)
    (fun h _ => 2 ≤ (calls (M := server {} Sample.secret) (Task.ws 0) h).countP consumes) where
  labels := Sample.opening 0 ++ Sample.handle (.ws 0) Sample.hello 7
    ++ Sample.handle (.ws 0) Sample.hello 7
  performed := by decide +kernel

/-- A client says `hello` twice and is handed two challenges. -/
theorem two_challenges : ¬ ∀ (cfg : Config) (secret : List UInt8) (db : Database) (clock : ℤ)
    (h : List (server cfg secret).Transition) (conf : State) (c : Conn),
    Run (M := server cfg secret) anyStep (boot db clock) h conf →
      (calls (M := server cfg secret) (Task.ws c) h).countP consumes ≤ 1 ∧
        (calls (M := server cfg secret) (Task.ws c) h).Pairwise fun f e =>
          fails f = true → advances e = false := by
  intro hall
  obtain ⟨h, conf, hr, htwo⟩ := Sample.helloTwice.exists_run fun _ _ _ _ => trivial
  have hone := (hall _ _ _ _ h conf 0 hr).1
  have htwo : 2 ≤ (calls (M := server {} Sample.secret) (Task.ws 0) h).countP consumes :=
    of_decide_eq_true htwo
  omega

end HashHush
