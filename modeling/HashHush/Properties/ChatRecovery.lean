import HashHush.Concurrency.Reactive
import HashHush.Web.ChatView

/-!
# Does the chat view always recover?

A view that has lost its connection arms a timer, probes the server when it fires and spawns
another client; and its status says whether the current client has joined.  Four events take it
off this course:

* a delete request fails, and the client that it closed was the only connection: the close is
  clean, so no timer is armed;
* a client closes after its successor has joined: the status becomes `lost`;
* the server turns out to be alive after the client has joined in the meantime: the client is
  replaced, and the status stays `joined`;
* a client joins after it has been told that the room is deleted: its close will count as clean.

Without these events the view recovers in every run (`Steady`).
-/

namespace HashHush.Web.ChatView

open Concurrency

/-! ## The property and the condition -/

section Steady

variable (v : ChatView)

/-- The view has nothing to recover: it is gone, the room is gone, or a password is awaited. -/
def Excused : Prop := v.unmounted = true ∨ v.status = .deleted ∨ v.needPassword = true

instance : Decidable v.Excused := inferInstanceAs (Decidable (_ ∨ _ ∨ _))

/-- The client is mounted, waits for no password and no request. -/
def Settled : Prop :=
  v.unmounted = false ∧ v.status ≠ .deleted ∧ v.needPassword = false ∧ v.mounting = none ∧
    v.probes = 0 ∧ v.deletions = []

instance : Decidable v.Settled := inferInstanceAs (Decidable (_ ∧ _ ∧ _ ∧ _ ∧ _ ∧ _))

/-- The client's socket is not closed or a timer is armed, and the status tells whether the client
has joined and its socket is not closed. -/
def Recovers : Prop :=
  ∃ c, v.client = some c ∧ (c.readyState ≠ .closed ∨ v.reconnectTimer.isSome) ∧
    (v.status = .joined ↔ c.joined = true ∧ c.readyState ≠ .closed)

/-- The view is on its way to another client. -/
def Retrying : Prop := v.status ≠ .joined ∧ (v.reconnectTimer.isSome ∨ 0 < v.probes)

instance : Decidable v.Retrying := inferInstanceAs (Decidable (_ ∧ _))

/-- The event is none of the four. -/
def Careful : Event → Prop
  | .deleteFailed n _ => v.deletions[n]? = some (some v.current) → v.Excused ∨ v.Retrying
  | .closed i => i ≠ v.current → v.status = .joined → v.Excused
  | .alive gone => gone = false → v.status = .joined → v.Excused
  | .frame i f => ChatClient.IsJoined f → ∀ c ∈ v.clients[i]?, c.closedByUs = false
  | _ => True

instance : DecidablePred v.Careful
  | .deleteFailed _ _ | .closed _ | .alive _ | .frame _ _ =>
      inferInstanceAs (Decidable (_ → _))
  | .opened _ | .failed _ | .keyDerived | .timer | .unreachable | .typed _ | .submitPassword
  | .passwordDerived | .askDelete | .cancelDelete | .confirmDelete | .deleteSucceeded _
  | .reseeded _ | .destroyed => isTrue trivial

/-- The invariant. -/
structure Steady : Prop where
  closing : ∀ c ∈ v.clients, c.readyState = .closing → c.closedByUs = true
  present : v.clients = [] → v.mounting ≠ none ∨ v.status = .deleted
  truthful : ∀ c, v.client = some c → ¬ v.Excused →
    (v.status = .joined ↔ c.joined = true ∧ c.readyState ≠ .closed)
  /-- A client that is closed, or will close without arming the timer, is one that a delete
  request in flight has closed, or about to be replaced. -/
  recovering : ∀ c, v.client = some c → ¬ v.Excused →
    c.closedByUs = true ∨ c.readyState = .closed → some v.current ∈ v.deletions ∨ v.Retrying

variable {v} {st : Storage} {S : Sodium} {e : Event}

lemma Steady.recovers (hv : v.Steady) (h : v.Settled) : v.Recovers := by
  obtain ⟨hmounted, hstatus, hpassword, hmounting, hprobes, hdeletions⟩ := h
  have hexcused : ¬ v.Excused := by
    rintro (h | h | h)
    · simp [hmounted] at h
    · exact hstatus h
    · simp [hpassword] at h
  cases hc : v.client with
  | none =>
      rcases hv.present (client_eq_none.mp hc) with h | h
      · exact absurd hmounting h
      · exact absurd h hstatus
  | some c =>
      refine ⟨c, hc, ?_, hv.truthful c hc hexcused⟩
      by_cases hclosed : c.readyState = .closed
      · right
        rcases hv.recovering c hc hexcused (.inr hclosed) with hmem | ⟨-, htimer | hprobe⟩
        · simp [hdeletions] at hmem
        · exact htimer
        · omega
      · exact .inl hclosed

/-- A view with nothing to recover. -/
lemma steady_of_excused (hclosing : ∀ c ∈ v.clients, c.readyState = .closing → c.closedByUs = true)
    (hpresent : v.clients = [] → v.mounting ≠ none ∨ v.status = .deleted) (h : v.Excused) :
    v.Steady :=
  ⟨hclosing, hpresent, fun _ _ hn => absurd h hn, fun _ _ hn => absurd h hn⟩

/-- A client just spawned is steady, unless the status says that it has joined. -/
lemma steady_spawnClient {isInitial : Bool}
    (hclosing : ∀ c ∈ v.clients, c.readyState = .closing → c.closedByUs = true)
    (hstatus : isInitial = true ∨ (v.status = .joined → v.Excused)) :
    (v.spawnClient st isInitial).Steady := by
  refine ⟨?_, ?_, ?_, ?_⟩
  · intro c hc hstate
    rcases List.mem_append.mp hc with hc | hc
    · exact hclosing c hc hstate
    · rw [List.mem_singleton.mp hc] at hstate
      cases hstate
  · simp [spawnClient]
  · intro c hc hexcused
    rw [client_spawnClient] at hc
    obtain rfl := Option.some.inj hc
    have hne : (v.spawnClient st isInitial).status ≠ .joined := by
      cases isInitial with
      | true =>
          simp only [spawnClient, if_true]
          split <;> simp
      | false =>
          intro hjoined
          rcases hstatus with h | h
          · cases h
          · exact hexcused (h hjoined)
    simp [hne, ChatClient.connect]
  · intro c hc _ hdoomed
    rw [client_spawnClient] at hc
    obtain rfl := Option.some.inj hc
    simp [ChatClient.connect] at hdoomed

lemma Steady.closing_closeClient (hv : v.Steady) : ∀ c ∈ v.closeClient.clients,
    c.readyState = .closing → c.closedByUs = true := by
  intro c hc hstate
  obtain ⟨i, hi⟩ := List.mem_iff_getElem?.mp hc
  rw [getElem?_closeClient] at hi
  obtain ⟨c₀, hc₀, rfl⟩ := Option.map_eq_some_iff.mp hi
  split at hstate
  · simp [*]
  · rw [if_neg ‹_›]
    exact hv.closing c₀ (List.mem_of_getElem? hc₀) hstate

lemma closing_set (hv : v.Steady) (i : ℕ) {c : ChatClient}
    (hc : c.readyState = .closing → c.closedByUs = true) :
    ∀ d ∈ v.clients.set i c, d.readyState = .closing → d.closedByUs = true := by
  intro d hd
  rcases List.mem_or_eq_of_mem_set hd with hd | rfl
  · exact hv.closing d hd
  · exact hc

/-- The current client after the client at a position has changed. -/
lemma client_set {i : ℕ} {c c' : ChatClient} (hc : v.clients[i]? = some c) :
    { v with clients := v.clients.set i c' }.client
      = if i = v.current then some c' else v.client := by
  have hi : i < v.clients.length := (List.getElem?_eq_some_iff.mp hc).1
  rw [client_eq, client_eq, current_set]
  dsimp only
  rw [List.getElem?_set]
  by_cases h : i = v.current
  · rw [if_pos h, if_pos h, if_pos hi]
  · rw [if_neg h, if_neg h]

/-- A change of a client that neither joins nor closes it. -/
lemma Steady.set (hv : v.Steady) {i : ℕ} {c c' : ChatClient} (hc : v.clients[i]? = some c)
    (hjoined : c'.joined = c.joined) (hclosedByUs : c'.closedByUs = c.closedByUs)
    (hclosed : c'.readyState = .closed ↔ c.readyState = .closed)
    (hclosing : c'.readyState = .closing → c'.closedByUs = true) :
    { v with clients := v.clients.set i c' }.Steady := by
  have hold : ∀ d, { v with clients := v.clients.set i c' }.client = some d →
      ∃ d₀, v.client = some d₀ ∧ d.joined = d₀.joined ∧ d.closedByUs = d₀.closedByUs ∧
        (d.readyState = .closed ↔ d₀.readyState = .closed) := by
    intro d hd
    rw [client_set hc] at hd
    split at hd
    · obtain rfl := Option.some.inj hd
      subst i
      exact ⟨c, client_eq.trans hc, hjoined, hclosedByUs, hclosed⟩
    · exact ⟨d, hd, rfl, rfl, Iff.rfl⟩
  refine ⟨closing_set hv i hclosing, ?_, ?_, ?_⟩
  · intro hnil
    exact hv.present (by simpa using hnil)
  · intro d hd hexcused
    obtain ⟨d₀, hd₀, hj, -, hr⟩ := hold d hd
    have htruthful := hv.truthful d₀ hd₀ hexcused
    rw [hj, ne_eq, hr]
    exact htruthful
  · intro d hd hexcused hdoomed
    obtain ⟨d₀, hd₀, -, hb, hr⟩ := hold d hd
    rw [hb, hr] at hdoomed
    simpa [Retrying] using hv.recovering d₀ hd₀ hexcused hdoomed

/-! ## The timer -/

lemma scheduleReconnect_timer (hmounted : v.unmounted = false) (hstatus : v.status ≠ .deleted) :
    v.scheduleReconnect.reconnectTimer.isSome := by
  have hdelay : ∀ n : ℕ, delays[min n (delays.length - 1)]?.isSome := by
    intro n
    have hlt : min n (delays.length - 1) < delays.length := by
      simp [delays]
    rw [List.getElem?_eq_getElem hlt]
    rfl
  simp only [scheduleReconnect, hmounted, hstatus, or_self, if_false, Bool.false_eq_true]
  split
  · assumption
  · exact hdelay _

/-- A view that hears of a close and has something to recover is no longer joined, and unless the
close is clean its timer is armed. -/
lemma onClose_of_not_excused (clean : Bool) (hexcused : ¬ v.Excused) :
    (v.onClose clean).status ≠ .joined ∧
      (v.reconnectTimer.isSome ∨ clean = false → (v.onClose clean).reconnectTimer.isSome) := by
  have hmounted : v.unmounted = false := by
    have hne : v.unmounted ≠ true := fun h => hexcused (.inl h)
    simpa using hne
  have hstatus : v.status ≠ .deleted := fun h => hexcused (.inr (.inl h))
  have hlost : v.loseConnection.status ≠ .joined ∧ v.loseConnection.status ≠ .deleted ∧
      v.loseConnection.unmounted = false ∧
      v.loseConnection.reconnectTimer = v.reconnectTimer := by
    unfold loseConnection
    split
    · exact ⟨by simp, by simp, hmounted, rfl⟩
    · rename_i h
      exact ⟨fun hjoined => h (.inl hjoined), hstatus, hmounted, rfl⟩
  obtain ⟨hjoined, hdeleted, hunmounted, htimer⟩ := hlost
  have honClose : v.onClose clean
      = if clean then v.loseConnection else v.loseConnection.scheduleReconnect := by
    simp [onClose, hmounted, hstatus]
  rw [honClose]
  cases clean with
  | true => exact ⟨hjoined, by simp [htimer]⟩
  | false =>
      refine ⟨?_, fun _ => scheduleReconnect_timer hunmounted hdeleted⟩
      obtain ⟨timer, attempt, h⟩ := scheduleReconnect_eq v.loseConnection
      simpa [h] using hjoined

/-! ## The events of a socket -/

/-- The socket of a client opens. -/
private lemma Steady.opened (hv : v.Steady) {i : ℕ} {c : ChatClient} (hc : v.clients[i]? = some c)
    (hstate : c.readyState = .connecting) :
    { v with clients := v.clients.set i c.onOpen }.Steady :=
  hv.set hc rfl rfl (by simp [ChatClient.onOpen, hstate]) (by simp [ChatClient.onOpen])

/-- A client is let in. -/
private lemma Steady.joined (hv : v.Steady) {i : ℕ} {c : ChatClient} (c' : ChatClient)
    (hi : i = v.current)
    (hc : v.clients[i]? = some c) (hjoined : c'.joined = true) (hstate : c'.readyState = .opened)
    (hclosedByUs : c'.closedByUs = false) (token : Option Str) :
    ({ v with clients := v.clients.set i c' }.onJoined st token).1.Steady := by
  have hclient : ({ v with clients := v.clients.set i c' }.onJoined st token).1.client
      = some c' := by
    have h : { v with clients := v.clients.set i c' }.client
        = if i = v.current then some c' else v.client := client_set hc
    rwa [if_pos hi] at h
  refine ⟨closing_set hv i (by simp [hstate]), ?_, ?_, ?_⟩
  · intro hnil
    have hnil : v.clients = [] := by simpa [onJoined, handleJoined] using hnil
    simp [hnil] at hc
  · intro d hd _
    obtain rfl := Option.some.inj (hclient.symm.trans hd)
    simp [onJoined, handleJoined, hjoined, hstate]
  · intro d hd _ hdoomed
    obtain rfl := Option.some.inj (hclient.symm.trans hd)
    simp [hclosedByUs, hstate] at hdoomed

/-- The close of a client changes nothing for a view that has nothing to recover. -/
lemma excused_onClose (clean : Bool) (h : v.Excused) : (v.onClose clean).Excused := by
  by_cases hreturn : v.unmounted = true ∨ v.status = .deleted
  · rw [onClose, if_pos hreturn]
    exact h
  · obtain ⟨status, timer, attempt, heq⟩ := onClose_eq v clean
    have hpassword : v.needPassword = true := by
      rcases h with h | h | h
      · exact absurd (.inl h) hreturn
      · exact absurd (.inr h) hreturn
      · exact h
    exact .inr (.inr (by rw [heq]; exact hpassword))

/-- The socket of a client closes. -/
private lemma Steady.closed (hv : v.Steady) {i : ℕ} {c : ChatClient} (hc : v.clients[i]? = some c)
    (hcareful : v.Careful (.closed i)) :
    ({ v with clients := v.clients.set i c.onClose.1 }.onClose c.closedByUs).Steady := by
  obtain ⟨status, timer, attempt, heq⟩ :=
    onClose_eq { v with clients := v.clients.set i c.onClose.1 } c.closedByUs
  have hclosing := closing_set hv i (c := c.onClose.1) (by simp [ChatClient.onClose])
  have hne : v.clients ≠ [] := by
    rintro h
    simp [h] at hc
  by_cases hexcused : v.Excused
  · have hexcused' := excused_onClose (v := { v with clients := v.clients.set i c.onClose.1 })
      c.closedByUs hexcused
    rw [heq] at hexcused' ⊢
    exact steady_of_excused hclosing (fun h => absurd h (by simpa using hne)) hexcused'
  · obtain ⟨hjoined, htimer⟩ := onClose_of_not_excused
      (v := { v with clients := v.clients.set i c.onClose.1 }) c.closedByUs hexcused
    rw [heq] at hjoined htimer ⊢
    dsimp only at hjoined htimer
    have hclient : ∀ d, { v with clients := v.clients.set i c.onClose.1 }.client = some d →
        i = v.current ∧ d = c.onClose.1 ∨ i ≠ v.current ∧ v.client = some d := by
      intro d hd
      rw [client_set hc] at hd
      split at hd
      · exact .inl ⟨‹_›, (Option.some.inj hd).symm⟩
      · exact .inr ⟨‹_›, hd⟩
    refine ⟨hclosing, fun h => absurd h (by simpa using hne), ?_, ?_⟩
    · intro d hd _
      refine iff_of_false hjoined ?_
      rcases hclient d hd with ⟨-, rfl⟩ | ⟨hi, hd⟩
      · simp [ChatClient.onClose]
      · -- a late close of a client whose successor has joined is what the condition excludes
        intro hd'
        exact hexcused (hcareful hi ((hv.truthful d hd hexcused).mpr hd'))
    · intro d hd _ hdoomed
      by_cases hclean : c.closedByUs = true
      · have hold : some v.current ∈ v.deletions ∨ v.Retrying := by
          rcases hclient d hd with ⟨hi, rfl⟩ | ⟨hi, hd⟩
          · exact hv.recovering c (client_eq.trans (hi ▸ hc)) hexcused (.inl hclean)
          · exact hv.recovering d hd hexcused hdoomed
        rcases hold with hmem | ⟨-, hretry⟩
        · left
          simpa [current] using hmem
        · exact .inr ⟨hjoined, hretry.imp_left fun h => htimer (.inl h)⟩
      · exact .inr ⟨hjoined, .inl (htimer (.inr (by simpa using hclean)))⟩

/-- Something happens to a client, and the view hears of it. -/
private lemma Steady.turned (hv : v.Steady) (hwired : v.Superseded) (hcareful : v.Careful e) {i : ℕ}
    {c : ChatClient} {r : ChatClient × Option Report} (hc : v.clients[i]? = some c)
    (h : Turns S e i c r) : (v.notify st i r).1.Steady := by
  have hne : v.clients ≠ [] := by
    rintro h
    simp [h] at hc
  cases h with
  | opened hstate => exact hv.opened hc hstate
  | closed hstate => exact hv.closed hc hcareful
  | frame f hstate =>
      have hi : i = v.current := hwired.current_of_live hc (.inr hstate)
      have hset := closing_set hv i (c := c) (by simp [hstate])
      have hsame : { v with clients := v.clients.set i c }.Steady :=
        hv.set hc rfl rfl Iff.rfl (by simp [hstate])
      have hpresent : ∀ {c' : ChatClient} {p : Prop}, v.clients.set i c' = [] → p := by
        intro c' p h
        exact absurd h (by simpa using hne)
      cases f with
      | joined peerId roomName token history members =>
          have hclosedByUs := hcareful trivial c hc
          let c' : ChatClient := { c with joined := true, token := truthy token <|> c.token }
          have hjoined : ({ v with clients := v.clients.set i c' }.onJoined st c'.token).1.Steady :=
            hv.joined c' hi hc rfl hstate hclosedByUs _
          exact hjoined
      | challenge ct nonce =>
          cases hsolve : c.solve S ct nonce with
          | some plaintext =>
              simp only [notify, ChatClient.onFrame, hsolve]
              exact hv.set hc rfl rfl Iff.rfl (by simp [hstate])
          | none =>
              simp only [notify, ChatClient.onFrame, hsolve, onReport, onError, if_true]
              exact steady_of_excused (closing_set hv i (by simp)) hpresent (.inr (.inr rfl))
      | deleted =>
          have hclosing := closing_set hv i (c := { c with closedByUs := true }) (by simp)
          exact steady_of_excused hclosing hpresent (.inr (.inl rfl))
      | error code =>
          simp only [notify, ChatClient.onFrame, onReport, onError]
          split
          · exact steady_of_excused hset hpresent (.inr (.inr rfl))
          · split
            · exact hsame
            · exact ⟨hsame.closing, hsame.present, hsame.truthful, hsame.recovering⟩
      | _ => exact hsame

/-! ## Every event -/

/-- `confirmDelete` closes the client, and remembers if it was open. -/
private lemma Steady.confirmDelete (hv : v.Steady) : (v.confirmDelete st).Steady := by
  simp only [ChatView.confirmDelete]
  split
  · exact ⟨hv.closing, hv.present, hv.truthful, hv.recovering⟩
  · have hclient : ∀ c, v.closeClient.client = some c → ∃ c₀, v.client = some c₀ ∧ c = c₀.close := by
      intro c hc
      rw [client_closeClient] at hc
      obtain ⟨c₀, hc₀, rfl⟩ := Option.map_eq_some_iff.mp hc
      exact ⟨c₀, hc₀, rfl⟩
    have hmem : some v.current ∈ v.deletions ++ [v.closes] →
        some v.closeClient.current ∈ v.deletions ++ [v.closes] := by
      rw [current_closeClient]
      exact id
    refine ⟨hv.closing_closeClient, ?_, ?_, ?_⟩
    · intro hnil
      exact hv.present (by simpa [closeClient] using hnil)
    · intro c hc hexcused
      obtain ⟨c₀, hc₀, rfl⟩ := hclient c hc
      rw [ChatClient.joined_close, ne_eq, ChatClient.readyState_close_eq_closed]
      exact hv.truthful c₀ hc₀ hexcused
    · intro c hc hexcused _
      obtain ⟨c₀, hc₀, rfl⟩ := hclient c hc
      by_cases hlive : c₀.Live
      · have hcloses : v.closes = some v.current := by
          have hany : v.client.any
              (fun c => c.readyState = .connecting ∨ c.readyState = .opened) := by
            rw [hc₀, Option.any_some]
            exact decide_eq_true hlive
          rw [closes, if_pos hany]
        exact .inl (hmem (by simp [hcloses]))
      · have hdoomed : c₀.closedByUs = true ∨ c₀.readyState = .closed := by
          cases hstate : c₀.readyState with
          | connecting => exact absurd (.inl hstate) hlive
          | opened => exact absurd (.inr hstate) hlive
          | closing =>
              exact .inl (hv.closing c₀ (List.mem_of_getElem? (client_eq.symm.trans hc₀)) hstate)
          | closed => exact .inr rfl
        rcases hv.recovering c₀ hc₀ hexcused hdoomed with hdeletion | hretry
        · exact .inl (hmem (List.mem_append_left _ hdeletion))
        · exact .inr hretry

/-- A delete request that has not closed the client may fail. -/
private lemma Steady.deleteFailed (hv : v.Steady) (n : ℕ) (code : Str)
    (hcareful : v.Careful (.deleteFailed n code)) :
    ({ v with deletions := v.deletions.eraseIdx n }.deleteFailed code).Steady := by
  refine ⟨hv.closing, hv.present, hv.truthful, ?_⟩
  intro c hc hexcused hdoomed
  rcases hv.recovering c hc hexcused hdoomed with hmem | hretry
  · by_cases hn : v.deletions[n]? = some (some v.current)
    · exact (hcareful hn).elim (fun h => absurd h hexcused) .inr
    · left
      obtain ⟨m, hm⟩ := List.mem_iff_getElem?.mp hmem
      have hne : m ≠ n := fun h => hn (h ▸ hm)
      exact List.mem_eraseIdx_iff_getElem?.mpr ⟨m, hne, hm⟩
  · exact .inr hretry

/-- The timer fires. -/
private lemma Steady.tryReconnect (hv : v.Steady) : v.tryReconnect.Steady := by
  simp only [ChatView.tryReconnect]
  split
  · rename_i hreturn
    refine ⟨hv.closing, hv.present, hv.truthful, ?_⟩
    intro c hc hexcused hdoomed
    rcases hv.recovering c hc hexcused hdoomed with hmem | ⟨hjoined, -⟩
    · exact .inl hmem
    · rcases hreturn with h | h | h
      · exact absurd (.inl h) hexcused
      · exact absurd (.inr (.inl h)) hexcused
      · exact absurd h hjoined
  · refine ⟨hv.closing, hv.present, hv.truthful, ?_⟩
    intro c hc hexcused hdoomed
    rcases hv.recovering c hc hexcused hdoomed with hmem | ⟨hjoined, -⟩
    · exact .inl hmem
    · exact .inr ⟨hjoined, .inr (Nat.succ_pos _)⟩

/-- The server is not reached. -/
private lemma Steady.unreachable (hv : v.Steady) :
    ({ v with probes := v.probes - 1 }.scheduleReconnect).Steady := by
  have htimer := scheduleReconnect_timer (v := { v with probes := v.probes - 1 })
  obtain ⟨timer, attempt, heq⟩ := scheduleReconnect_eq { v with probes := v.probes - 1 }
  rw [heq] at htimer ⊢
  refine ⟨hv.closing, hv.present, hv.truthful, ?_⟩
  intro c hc hexcused hdoomed
  rcases hv.recovering c hc hexcused hdoomed with hmem | ⟨hjoined, -⟩
  · exact .inl hmem
  · have hmounted : v.unmounted = false := by
      have hne : v.unmounted ≠ true := fun h => hexcused (.inl h)
      simpa using hne
    exact .inr ⟨hjoined, .inl (htimer hmounted fun h => hexcused (.inr (.inl h)))⟩

/-- An event that is none of the four keeps the view steady. -/
lemma Steady.step (hv : v.Steady) (hwired : v.Wired) (hcareful : v.Careful e) {v' : ChatView}
    {st' : Storage} (h : v.step st S e = some (v', st')) : v'.Steady := by
  cases e with
  | opened i =>
      obtain ⟨c, hc, h⟩ := Option.bind_eq_some_iff.mp h
      obtain ⟨hstate, h⟩ := Option.ite_none_right_eq_some.mp h
      obtain rfl := congrArg Prod.fst (Option.some.inj h)
      exact hv.turned hwired.superseded hcareful hc (.opened (S := S) hstate)
  | frame i f =>
      obtain ⟨c, hc, h⟩ := Option.bind_eq_some_iff.mp h
      obtain ⟨hstate, h⟩ := Option.ite_none_right_eq_some.mp h
      obtain rfl := congrArg Prod.fst (Option.some.inj h)
      exact hv.turned hwired.superseded hcareful hc (.frame f hstate)
  | closed i =>
      obtain ⟨c, hc, h⟩ := Option.bind_eq_some_iff.mp h
      obtain ⟨hstate, h⟩ := Option.ite_none_left_eq_some.mp h
      obtain rfl := congrArg Prod.fst (Option.some.inj h)
      exact hv.turned hwired.superseded hcareful hc (.closed (S := S) hstate)
  | failed i =>
      obtain ⟨c, -, h⟩ := Option.bind_eq_some_iff.mp h
      obtain ⟨-, h⟩ := Option.ite_none_left_eq_some.mp h
      rw [onReport_network, ite_self] at h
      obtain rfl := congrArg Prod.fst (Option.some.inj h)
      exact hv
  | keyDerived =>
      obtain ⟨seed, -, h⟩ := Option.map_eq_some_iff.mp h
      obtain rfl := congrArg Prod.fst h
      exact steady_spawnClient hv.closing (.inl rfl)
  | timer =>
      obtain ⟨-, h⟩ := Option.ite_none_right_eq_some.mp h
      obtain rfl := congrArg Prod.fst (Option.some.inj h)
      exact hv.tryReconnect
  | alive gone =>
      obtain ⟨-, h⟩ := Option.ite_none_right_eq_some.mp h
      obtain rfl := congrArg Prod.fst (Option.some.inj h)
      cases gone with
      | true => exact steady_of_excused hv.closing (fun _ => .inr rfl) (.inr (.inl rfl))
      | false => exact steady_spawnClient hv.closing_closeClient (.inr (hcareful rfl))
  | unreachable =>
      obtain ⟨-, h⟩ := Option.ite_none_right_eq_some.mp h
      obtain rfl := congrArg Prod.fst (Option.some.inj h)
      exact hv.unreachable
  | passwordDerived =>
      simp only [ChatView.step] at h
      split at h
      · obtain rfl := congrArg Prod.fst (Option.some.inj h)
        exact steady_spawnClient hv.closing_closeClient (.inl rfl)
      · cases h
  | submitPassword =>
      obtain ⟨-, h⟩ := Option.ite_none_right_eq_some.mp h
      obtain rfl := congrArg Prod.fst (Option.some.inj h)
      simp only [ChatView.submitPassword]
      split
      · exact hv
      · split <;> exact ⟨hv.closing, hv.present, hv.truthful, hv.recovering⟩
  | confirmDelete =>
      obtain ⟨-, h⟩ := Option.ite_none_right_eq_some.mp h
      obtain rfl := congrArg Prod.fst (Option.some.inj h)
      exact hv.confirmDelete
  | deleteSucceeded n =>
      obtain ⟨-, h⟩ := Option.ite_none_right_eq_some.mp h
      obtain rfl := congrArg Prod.fst (Option.some.inj h)
      exact steady_of_excused hv.closing (fun _ => .inr rfl) (.inr (.inl rfl))
  | deleteFailed n code =>
      obtain ⟨-, h⟩ := Option.ite_none_right_eq_some.mp h
      obtain rfl := congrArg Prod.fst (Option.some.inj h)
      exact hv.deleteFailed n code hcareful
  | typed _ | askDelete | cancelDelete =>
      obtain ⟨-, h⟩ := Option.ite_none_right_eq_some.mp h
      obtain rfl := congrArg Prod.fst (Option.some.inj h)
      exact ⟨hv.closing, hv.present, hv.truthful, hv.recovering⟩
  | reseeded _ =>
      obtain ⟨-, h⟩ := Option.ite_none_left_eq_some.mp h
      obtain rfl := congrArg Prod.fst (Option.some.inj h)
      exact ⟨hv.closing, hv.present, hv.truthful, hv.recovering⟩
  | destroyed =>
      obtain ⟨-, h⟩ := Option.ite_none_left_eq_some.mp h
      obtain rfl := congrArg Prod.fst (Option.some.inj h)
      refine steady_of_excused hv.closing_closeClient ?_ (.inl rfl)
      intro hnil
      exact hv.present (by simpa [onDestroy, closeClient] using hnil)

/-- A view that has been mounted. -/
lemma steady_onMount (roomId seed : Str) (st : Storage) (knownDeleted : Bool) :
    (({ roomId, seed } : ChatView).onMount st knownDeleted).1.Steady := by
  simp only [onMount]
  split
  · exact steady_of_excused (by simp) (fun _ => .inr rfl) (.inr (.inl rfl))
  · dsimp only
    split
    · exact steady_spawnClient (by simp) (.inl rfl)
    · exact ⟨by simp, by simp, by simp [client], by simp [client]⟩

end Steady

/-- In every run without the four events, of a view over a storage that others change too: whenever
nothing is in flight and nothing else is to be done, the client's socket is not closed or the
timer is armed, and the status is true. -/
theorem chat_recovers (S : Sodium) (roomId seed : Str) (st : Storage) (knownDeleted : Bool)
    (v : ChatView)
    (h : Reach (fun v (p : Storage × Event) => (v.step p.1 S p.2).map Prod.fst)
      (fun v p => v.Careful p.2)
      (({ roomId, seed } : ChatView).onMount st knownDeleted).1 v)
    (hsettled : v.Settled) : v.Recovers := by
  have hinit : (({ roomId, seed } : ChatView).onMount st knownDeleted).1.Wired ∧
      (({ roomId, seed } : ChatView).onMount st knownDeleted).1.Steady :=
    ⟨wired_onMount roomId seed st knownDeleted, steady_onMount roomId seed st knownDeleted⟩
  have hinv := h.invariant (I := fun v => v.Wired ∧ v.Steady) hinit ?_
  · exact hinv.2.recovers hsettled
  · rintro v ⟨st, e⟩ v' ⟨hwired, hsteady⟩ hcareful hstep
    obtain ⟨⟨w, st'⟩, hw, rfl⟩ := Option.map_eq_some_iff.mp hstep
    exact ⟨hwired.step hw, hsteady.step hwired hcareful hw⟩

/-! ## A delete request that fails -/

namespace Sample

/-- libsodium out of order: a token is enough to join. -/
def broken : Sodium where
  toB64 _ := []
  fromB64 _ := none
  encrypt _ _ _ := []
  decrypt _ _ _ := none

/-- A storage with a token and a key for every room. -/
def known : Storage := fun _ => some { token := some (ascii "t"), key := some (ascii "00") }

def back : ChatView := (({ roomId := ascii "r", seed := [] } : ChatView).onMount known false).1

/-- The view comes back and is let in. -/
def comesBack : List Event := [.opened 0, .frame 0 (.joined (ascii "p") none none [] [])]

/-- The user deletes the room: the socket closes, and the request fails. -/
def failsToDelete : List Event :=
  [.askDelete, .confirmDelete, .closed 0, .deleteFailed 0 (ascii "internal")]

/-- The events with a storage that does not change. -/
def events (es : List Event) : List (Storage × Event) := es.map fun e => (known, e)

/-- The view comes back, and its socket closes. -/
def loses : Scenario (fun v (p : Storage × Event) => (v.step p.1 broken p.2).map Prod.fst)
    (fun v p => decide (v.Careful p.2)) back
    (fun v => decide (v.status = .lost ∧ v.Settled)) where
  events := events (comesBack ++ [.closed 0])
  taken := by decide +kernel

/-- The view comes back, and a request to delete its room fails. -/
def strands : Scenario (fun v (p : Storage × Event) => (v.step p.1 broken p.2).map Prod.fst)
    (fun _ _ => true) back
    (fun v => decide (v.Settled ∧ v.reconnectTimer = none ∧
      ∀ c ∈ v.client, c.readyState = .closed)) where
  events := events (comesBack ++ failsToDelete)
  taken := by decide +kernel

end Sample

/-- After a lost connection the timer is armed. -/
theorem chat_recovers_sample : ∃ v : ChatView, v.status = .lost ∧ v.Recovers := by
  obtain ⟨v, hreach, hv⟩ := Sample.loses.exists_reach fun _ _ h => of_decide_eq_true h
  obtain ⟨hlost, hsettled⟩ := of_decide_eq_true hv
  exact ⟨v, hlost, chat_recovers Sample.broken _ _ Sample.known false v hreach hsettled⟩

/-- After a delete request that has failed the view is left without a connection and without a
timer. -/
theorem failed_delete_sample : ∃ v, Reach
    (fun v (p : Storage × Event) => (v.step p.1 Sample.broken p.2).map Prod.fst)
    (fun _ _ => True) Sample.back v ∧ v.Settled ∧ ¬ v.Recovers := by
  obtain ⟨v, hreach, hv⟩ := Sample.strands.exists_reach fun _ _ _ => trivial
  obtain ⟨hsettled, htimer, hclosed⟩ := of_decide_eq_true hv
  refine ⟨v, hreach, hsettled, ?_⟩
  rintro ⟨c, hc, hopen | harmed, -⟩
  · exact hopen (hclosed c hc)
  · simp [htimer] at harmed

end HashHush.Web.ChatView
