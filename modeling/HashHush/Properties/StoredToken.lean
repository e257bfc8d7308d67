import HashHush.Properties.StoredKey

/-!
# Which tokens a browser shows

All tabs of a browser share one storage, in which a token stays when its tab has gone.  Whatever
client of the room is spawned next, in any tab, shows it to the server.  `tokens_stay_home`: however
the events of the tabs interleave, a token is stored for no other room, and shown to no other room,
than the one for which the server has given it to this browser.
-/

namespace HashHush.Web

open Concurrency

/-! ## Clients -/

/-- The token that a frame carries. -/
def frameToken : Frame Str → Option Str
  | .joined _ _ token _ _ => token
  | _ => none

namespace ChatClient

/-- The client has and has shown no other tokens. -/
structure Holds (given : Str → Prop) (c : ChatClient) : Prop where
  token : ∀ t, c.token = some t → given t
  shown : ∀ t, ClientMessage.hello (some t) ∈ c.sent → given t

variable {given : Str → Prop} {c : ChatClient} {S : Sodium} {f : Frame Str}

lemma holds_connect {key : Option (List UInt8)} {token : Option Str}
    (h : ∀ t, token = some t → given t) : Holds given (connect key token) :=
  ⟨h, by simp⟩

lemma Holds.close (h : Holds given c) : Holds given c.close := ⟨h.token, h.shown⟩

lemma Holds.onClose (h : Holds given c) : Holds given c.onClose.1 := ⟨h.token, h.shown⟩

/-- What an opened socket shows is the token of the client. -/
lemma Holds.onOpen (h : Holds given c) : Holds given c.onOpen := by
  refine ⟨h.token, fun t ht => ?_⟩
  rcases List.mem_append.mp ht with ht | ht
  · exact h.shown t ht
  · refine h.token t ?_
    simpa [eq_comm] using ht

/-- What a joined frame leaves a client with is the token of the frame, or its own. -/
lemma Holds.of_joined (h : Holds given c) {token : Option Str}
    (htoken : ∀ t, token = some t → given t) {t : Str}
    (ht : (truthy token <|> c.token) = some t) : given t := by
  cases htruthy : truthy token with
  | none =>
      rw [htruthy] at ht
      exact h.token t ht
  | some t' =>
      rw [htruthy] at ht
      obtain rfl : t' = t := Option.some.inj ht
      exact htoken t' (Option.filter_eq_some_iff.mp htruthy).1

lemma Holds.onFrame (h : Holds given c) (hf : ∀ t, frameToken f = some t → given t) :
    Holds given (c.onFrame S f).1 := by
  cases f with
  | challenge ct nonce =>
      simp only [ChatClient.onFrame]
      split
      · refine ⟨h.token, fun t ht => h.shown t ?_⟩
        simpa using ht
      · exact h.close
  | joined peerId roomName token history members =>
      exact ⟨fun t ht => h.of_joined hf ht, h.shown⟩
  | _ => exact ⟨h.token, h.shown⟩

/-- A client reports no other token either. -/
lemma Holds.report (h : Holds given c) (hf : ∀ t, frameToken f = some t → given t) {t : Str}
    (ht : (c.onFrame S f).2 = some (.joined (some t))) : given t := by
  cases f with
  | joined peerId roomName token history members =>
      simp only [ChatClient.onFrame, Option.some.injEq, Report.joined.injEq] at ht
      exact h.of_joined hf ht
  | challenge ct nonce =>
      simp only [ChatClient.onFrame] at ht
      split at ht <;> simp at ht
  | _ => simp [ChatClient.onFrame] at ht

end ChatClient

/-! ## The storage -/

namespace Storage

variable {s : Storage} {id : Str}

lemma token_saveRoomToken (token id' : Str) : ((s.saveRoomToken id token).loadRoomEntry id').token
    = if id' = id then some token else (s.loadRoomEntry id').token := by
  by_cases h : id' = id
  · subst h
    simp [saveRoomToken]
  · rw [saveRoomToken, loadRoomEntry_saveRoomEntry_of_ne h, if_neg h]

@[simp] lemma token_saveRoomKey (keyHex id' : Str) :
    ((s.saveRoomKey id keyHex).loadRoomEntry id').token = (s.loadRoomEntry id').token := by
  by_cases h : id' = id
  · subst h
    simp [saveRoomKey]
  · rw [saveRoomKey, loadRoomEntry_saveRoomEntry_of_ne h]

/-- No other tokens are stored. -/
def Holds (given : Str → Str → Prop) (s : Storage) : Prop :=
  ∀ r t, (s.loadRoomEntry r).token = some t → given r t

variable {given : Str → Str → Prop}

lemma Holds.forgetRoom (h : s.Holds given) : (s.forgetRoom id).Holds given := by
  intro r t ht
  by_cases hr : r = id
  · subst hr
    simp at ht
  · rw [loadRoomEntry_forgetRoom_of_ne hr] at ht
    exact h r t ht

lemma Holds.saveRoomKey (h : s.Holds given) (keyHex : Str) :
    (s.saveRoomKey id keyHex).Holds given := by
  intro r t ht
  rw [token_saveRoomKey] at ht
  exact h r t ht

lemma Holds.saveRoomToken (h : s.Holds given) {token : Str} (htoken : given id token) :
    (s.saveRoomToken id token).Holds given := by
  intro r t ht
  rw [token_saveRoomToken] at ht
  split at ht
  · subst r
    exact Option.some.inj ht ▸ htoken
  · exact h r t ht

lemma Holds.loadRoomToken (h : s.Holds given) {t : Str} (ht : s.loadRoomToken id = some t) :
    given id t :=
  h id t (Option.filter_eq_some_iff.mp ht).1

end Storage

/-! ## Views -/

namespace ChatView

variable {given : Str → Str → Prop} {v : ChatView} {st : Storage} {S : Sodium} {e : Event}
  {v' : ChatView} {st' : Storage}

lemma holds_onReport (hst : st.Holds given) {r : Report}
    (hr : ∀ t, r = .joined (some t) → given v.roomId t) : (v.onReport st r).2.Holds given := by
  cases r with
  | joined token =>
      simp only [onReport, onJoined, handleJoined]
      cases token with
      | none =>
          cases v.key with
          | none => exact hst
          | some key => exact hst.saveRoomKey _
      | some token =>
          have htoken := hst.saveRoomToken (hr token rfl)
          cases v.key with
          | none => exact htoken
          | some key => exact htoken.saveRoomKey _
  | deleted => exact hst.forgetRoom
  | error code =>
      simp only [onReport, onError]
      split
      · exact hst.forgetRoom
      · split <;> exact hst
  | close clean => exact hst

/-- The clients of a view hold tokens of its room only. -/
def Holds (given : Str → Str → Prop) (v : ChatView) : Prop :=
  ∀ c ∈ v.clients, ChatClient.Holds (given v.roomId) c

lemma Holds.spawnClient {w : ChatView} (hw : w.Holds given) (hst : st.Holds given)
    (isInitial : Bool) : (w.spawnClient st isInitial).Holds given := by
  intro c hc
  rcases List.mem_append.mp hc with hc | hc
  · exact hw c hc
  · rw [List.mem_singleton.mp hc]
    exact ChatClient.holds_connect fun t ht => hst.loadRoomToken ht

lemma Holds.of_closed {w : ChatView} (hv : v.Holds given)
    (hclients : w.clients = v.closeClient.clients) (hroom : w.roomId = v.roomId) :
    w.Holds given := by
  intro c hc
  rw [hclients] at hc
  obtain ⟨i, hi⟩ := List.mem_iff_getElem?.mp hc
  rw [getElem?_closeClient] at hi
  obtain ⟨c₀, hc₀, rfl⟩ := Option.map_eq_some_iff.mp hi
  have hold := hv c₀ (List.mem_of_getElem? hc₀)
  rw [hroom]
  split
  · exact hold.close
  · exact hold

/-- The server gives the token of a frame for the room of the view. -/
def Event.Gives (given : Str → Prop) : Event → Prop
  | .frame _ f => ∀ t, frameToken f = some t → given t
  | _ => True

lemma Holds.step (hv : v.Holds given) (hst : st.Holds given) (he : e.Gives (given v.roomId))
    (h : v.step st S e = some (v', st')) : v'.Holds given := by
  have hrewired := step_rewired h
  generalize hp : (v', st') = p at hrewired
  obtain rfl : v' = p.1 := congrArg Prod.fst hp
  cases hrewired with
  | kept clients _ _ roomId =>
      intro c hc
      rw [clients] at hc
      rw [roomId]
      exact hv c hc
  | @turned i c r hc turns =>
      obtain ⟨hclients, -, -, hroom⟩ := notify_frame v st i r
      intro d hd
      rw [hclients] at hd
      rw [hroom]
      rcases List.mem_or_eq_of_mem_set hd with hd | rfl
      · exact hv d hd
      · have hold := hv c (List.mem_of_getElem? hc)
        cases turns with
        | opened _ => exact hold.onOpen
        | frame f _ => exact hold.onFrame he
        | closed _ => exact hold.onClose
  | closed clients _ _ roomId => exact hv.of_closed clients roomId
  | @spawned w isInitial _ clients _ roomId => exact (hv.of_closed clients roomId).spawnClient hst _
  | @mounted w isInitial _ clients _ _ roomId =>
      have hw : w.Holds given := by
        intro c hc
        rw [clients] at hc
        rw [roomId]
        exact hv c hc
      exact hw.spawnClient hst _

lemma holds_storage_step (hv : v.Holds given) (hst : st.Holds given)
    (he : e.Gives (given v.roomId)) (h : v.step st S e = some (v', st')) : st'.Holds given := by
  rcases storage_step h with rfl | rfl | ⟨i, f, c, rfl, hc, -, rfl⟩
  · exact hst
  · exact hst.forgetRoom
  · have hold := hv c (List.mem_of_getElem? hc)
    unfold notify
    dsimp only
    split
    · rename_i report hreport
      refine holds_onReport hst fun t ht => ?_
      exact hold.report he (S := S) (ht ▸ hreport)
    · exact hst

lemma holds_onMount (hst : st.Holds given) (roomId seed : Str) (knownDeleted : Bool) :
    (({ roomId, seed } : ChatView).onMount st knownDeleted).1.Holds given ∧
      (({ roomId, seed } : ChatView).onMount st knownDeleted).2.Holds given := by
  have hnone : ∀ v : ChatView, v.clients = [] → v.Holds given := by
    intro v hv c hc
    rw [hv] at hc
    cases hc
  constructor
  · simp only [onMount]
    split
    · exact hnone _ rfl
    · dsimp only
      split
      · exact (hnone _ rfl).spawnClient hst true
      · exact hnone _ rfl
  · rcases storage_onMount roomId seed st knownDeleted with h | h
    · rw [h]
      exact hst
    · rw [h]
      exact hst.forgetRoom

end ChatView

/-! ## The browser -/

/-- The server gives tokens for the room of the connection only. -/
def Gives (given : Str → Str → Prop) (b : Browser) : Browser.Event → Prop
  | .view n e => ∀ v, b.views n = some v → e.Gives (given v.roomId)
  | _ => True

/-- Every token is one that was given for its room, in the storage and in every view. -/
structure TokensHome (given : Str → Str → Prop) (b : Browser) : Prop where
  stored : b.storage.Holds given
  views : ∀ n v, b.views n = some v → v.Holds given

variable {given : Str → Str → Prop} {b b' : Browser} {S : Sodium} {e : Browser.Event}

lemma TokensHome.step (hb : TokensHome given b) (hgives : Gives given b e)
    (h : b.step S e = some b') : TokensHome given b' := by
  have hupdate : ∀ {n : ℕ} {v' : ChatView} {st' : Storage}, st'.Holds given → v'.Holds given →
      TokensHome given ⟨st', Function.update b.views n (some v')⟩ := by
    intro n v' st' hst' hv'
    refine ⟨hst', fun m w hw => ?_⟩
    rcases Browser.eq_or_of_update hw with rfl | hw
    · exact hv'
    · exact hb.views m w hw
  cases e with
  | mount n roomId seed knownDeleted =>
      simp only [Browser.step] at h
      split at h
      · obtain rfl := Option.some.inj h
        obtain ⟨hv, hst⟩ := ChatView.holds_onMount hb.stored roomId seed knownDeleted
        exact hupdate hst hv
      · cases h
  | view n e =>
      obtain ⟨v, hv, h⟩ := Option.bind_eq_some_iff.mp h
      obtain ⟨⟨v', st'⟩, hstep, rfl⟩ := Option.map_eq_some_iff.mp h
      have hold := hb.views n v hv
      exact hupdate (ChatView.holds_storage_step hold hb.stored (hgives v hv) hstep)
        (hold.step hb.stored (hgives v hv) hstep)
  | created roomId seed password =>
      obtain rfl := Option.some.inj h
      exact ⟨hb.stored.saveRoomKey _, hb.views⟩
  | gone roomId =>
      obtain rfl := Option.some.inj h
      exact ⟨hb.stored.forgetRoom, hb.views⟩

/-- **A token stays with its room.**  In every state that a browser reaches from an empty storage,
whatever its tabs do and whatever the server sends, the token stored for a room (the one that a
deletion names), and every token that a client of a view of the room has (it connects with it) or
has shown in a hello, is one that the server has given for this room. -/
theorem tokens_stay_home (S : Sodium) (given : Str → Str → Prop) {b₀ b : Browser}
    (hviews : ∀ n, b₀.views n = none) (hstorage : ∀ r, b₀.storage r = none)
    (hreach : Reach (fun b e => b.step S e) (Gives given) b₀ b) :
    (∀ r t, b.storage.loadRoomToken r = some t → given r t) ∧
      ∀ n v, b.views n = some v → ∀ c ∈ v.clients, ∀ t,
        c.token = some t ∨ ClientMessage.hello (some t) ∈ c.sent → given v.roomId t := by
  have hinit : TokensHome given b₀ := by
    refine ⟨?_, ?_⟩
    · intro r t ht
      simp [Storage.loadRoomEntry, hstorage] at ht
    · simp [hviews]
  have hhome : TokensHome given b :=
    hreach.invariant hinit fun b e b' hb hgives hstep => hb.step hgives hstep
  refine ⟨fun r t ht => hhome.stored.loadRoomToken ht, ?_⟩
  intro n v hv c hc t ht
  have hold := hhome.views n v hv c hc
  exact ht.elim (hold.token t) (hold.shown t)

/-! ## A second visit -/

namespace Sample

/-- The sample token, for the sample room. -/
def givenToken (r t : Str) : Prop := r = room ∧ t = ascii "token"

/-- A test for a frame that carries no other token than the sample one. -/
def gives (b : Browser) : Browser.Event → Bool
  | .view n (.frame _ f) => (b.views n).all fun v => (frameToken f).all fun t =>
      decide (v.roomId = room ∧ t = ascii "token")
  | _ => true

lemma gives_of_test (b : Browser) (e : Browser.Event) (h : gives b e = true) :
    Gives givenToken b e := by
  cases e with
  | mount _ _ _ _ | gone _ | created _ _ _ => trivial
  | view n e =>
      intro v hv
      cases e with
      | frame i f =>
          intro t ht
          simp only [gives, hv, ht, Option.all_some, decide_eq_true_eq] at h
          exact h
      | _ => trivial

/-- A tab is let in, and another is opened. -/
def returns : Scenario (fun (b : Browser) e => b.step sodium e) gives {}
    (fun b => (b.views 2).any fun v => v.clients.any fun c =>
      ClientMessage.hello (some (ascii "token")) ∈ c.sent) where
  events := visit ++ [.mount 2 room seed false, .view 2 (.opened 0)]
  taken := by decide +kernel

end Sample

/-- The second tab shows the token that the first has stored. -/
theorem tokens_stay_home_sample : ∃ b : Browser, ((b.views 2).any fun v => v.clients.any fun c =>
      decide (ClientMessage.hello (some (ascii "token")) ∈ c.sent)) = true ∧
    ∀ n v, b.views n = some v → ∀ c ∈ v.clients, ∀ t,
      c.token = some t ∨ ClientMessage.hello (some t) ∈ c.sent →
        Sample.givenToken v.roomId t := by
  obtain ⟨b, hreach, hb⟩ := Sample.returns.exists_reach Sample.gives_of_test
  exact ⟨b, hb, (tokens_stay_home Sample.sodium Sample.givenToken (fun _ => rfl) (fun _ => rfl)
    hreach).2⟩

end HashHush.Web
