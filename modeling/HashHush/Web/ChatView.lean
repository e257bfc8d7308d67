import HashHush.Web.ChatClient

/-!
# The chat view

The connection logic of `components/Chat.svelte`: the variables of the component that it reads
and writes, and every callback that changes them.  `clients` lists the clients spawned so far,
and the component's `client` is the last of them; the others have been superseded, but their
sockets may still have events to come.

A function that awaits is cut in two at the await, and what is in flight is part of the state: the
derivation of `onMount`, those of `submitPassword`, the `is_alive` requests of `tryReconnect` and
the requests of `confirmDelete`.  `step` is one event, where it can happen.
-/

namespace HashHush.Web

/-- The variable `status`. -/
inductive Status
  | derivingKey
  | connecting
  | joining
  | joined
  | deleted
  | lost
  deriving DecidableEq

/-- The component. -/
structure ChatView where
  roomId : Str
  seed : Str
  status : Status := .derivingKey
  key : Option (List UInt8) := none
  /-- Every client spawned so far; the last one is `client`. -/
  clients : List ChatClient := []
  errorBanner : Option Str := none
  needPassword : Bool := false
  passwordDraft : Str := []
  passwordError : Bool := false
  passwordBusy : Bool := false
  /-- The delay of the timer, while it runs. -/
  reconnectTimer : Option ℕ := none
  reconnectAttempt : ℕ := 0
  showDeleteModal : Bool := false
  unmounted : Bool := false
  /-- `onMount` awaits the key of this seed without a password. -/
  mounting : Option Str := none
  /-- The seeds and passwords from which `submitPassword` awaits a key. -/
  submitted : List (Str × Str) := []
  /-- How many `is_alive` requests are in flight. -/
  probes : ℕ := 0
  /-- The delete requests in flight, each with the client whose socket it closed. -/
  deletions : List (Option ℕ) := []
  deriving DecidableEq

namespace ChatView

variable (v : ChatView) (st : Storage)

/-- The variable `client`. -/
def client : Option ChatClient := v.clients.getLast?

/-- The position of `client`. -/
def current : ℕ := v.clients.length - 1

/-- `if (client) client.close()`. -/
def closeClient : ChatView := { v with clients := v.clients.modify v.current ChatClient.close }

def spawnClient (isInitial : Bool) : ChatView :=
  let token := st.loadRoomToken v.roomId
  { v with
    status := if isInitial then if token.isSome then .joining else .connecting else v.status
    clients := v.clients ++ [ChatClient.connect v.key token] }

def cancelReconnect : ChatView := { v with reconnectTimer := none, reconnectAttempt := 0 }

/-- The delays of the reconnect timer in milliseconds. -/
def delays : List ℕ := [1000, 2000, 4000, 8000, 10000]

def scheduleReconnect : ChatView :=
  if v.unmounted = true ∨ v.status = .deleted then v
  else if v.reconnectTimer.isSome then v
  else
    { v with
      reconnectTimer := delays[min v.reconnectAttempt (delays.length - 1)]?
      reconnectAttempt := v.reconnectAttempt + 1 }

/-! ## What a client reports -/

def handleJoined (token : Option Str) : ChatView × Storage :=
  let st := match token with
    | some token => st.saveRoomToken v.roomId token
    | none => st
  let st := match v.key with
    | some key => st.saveRoomKey v.roomId (bytesToHex key)
    | none => st
  ({ v with needPassword := false, passwordError := false, passwordDraft := [],
            status := .joined }, st)

def onJoined (token : Option Str) : ChatView × Storage :=
  { v with reconnectAttempt := 0, errorBanner := none }.handleJoined st token

def onDeleted : ChatView × Storage :=
  ({ v.cancelReconnect with status := .deleted }, st.forgetRoom v.roomId)

def onError (code : Str) : ChatView × Storage :=
  if code = ascii "invalid_key" then
    ({ v.cancelReconnect with
        needPassword := true
        passwordError := v.passwordDraft ≠ []
        passwordDraft := []
        passwordBusy := false },
      st.forgetRoom v.roomId)
  else if code = ascii "network" then (v, st)
  else ({ v with errorBanner := some (ascii "errors." ++ code) }, st)

/-- The first half of `onClose`: the status of a view that is or wants to be joined. -/
def loseConnection : ChatView :=
  if v.status = .joined ∨ v.status = .connecting ∨ v.status = .joining then
    { v with status := .lost }
  else v

def onClose (clean : Bool) : ChatView :=
  if v.unmounted = true ∨ v.status = .deleted then v
  else if clean then v.loseConnection else v.loseConnection.scheduleReconnect

/-- The callbacks that a view gives its clients. -/
def onReport : Report → ChatView × Storage
  | .joined token => v.onJoined st token
  | .deleted => v.onDeleted st
  | .error code => v.onError st code
  | .close clean => (v.onClose clean, st)

/-! ## What the user does, and what comes back -/

/-- `onMount` up to its await: a room known to be gone is forgotten, and a cached key is
preferred to the derived one. -/
def onMount (knownDeleted : Bool) : ChatView × Storage :=
  if knownDeleted then ({ v with status := .deleted }, st.forgetRoom v.roomId)
  else
    let v := { v with key := (st.loadRoomKey v.roomId).bind fun hex => hexToBytes (text hex) }
    (if v.key.isSome then v.spawnClient st true else { v with mounting := some v.seed }, st)

/-- The rest of `onMount`. -/
def keyDerived (seed : Str) : ChatView :=
  { v with key := some (deriveKey seed []), mounting := none }.spawnClient st true

/-- `submitPassword` up to its await. -/
def submitPassword : ChatView :=
  if v.passwordBusy then v
  else if v.passwordDraft = [] then { v with passwordError := true }
  else
    { v with
      passwordBusy := true
      passwordError := false
      submitted := v.submitted ++ [(v.seed, v.passwordDraft)] }

/-- The rest of `submitPassword`. -/
def passwordDerived (seed password : Str) : ChatView :=
  let v := { v with key := some (deriveKey seed password), passwordDraft := [] }
  let v := v.closeClient.cancelReconnect
  { v with needPassword := false }.spawnClient st true

/-- `tryReconnect` up to its await. -/
def tryReconnect : ChatView :=
  let v := { v with reconnectTimer := none }
  if v.unmounted = true ∨ v.status = .deleted ∨ v.status = .joined then v
  else { v with probes := v.probes + 1 }

/-- The rest of `tryReconnect` when the server has answered. -/
def aliveAnswered (gone : Bool) : ChatView × Storage :=
  if gone then ({ v with status := .deleted }, st.forgetRoom v.roomId)
  else (v.closeClient.spawnClient st false, st)

/-- The client whose socket `closeClient` closes, if any. -/
def closes : Option ℕ :=
  if v.client.any fun c => c.readyState = .connecting ∨ c.readyState = .opened then some v.current
  else none

/-- `confirmDelete` up to its await. -/
def confirmDelete : ChatView :=
  let v := { v with showDeleteModal := false }
  match st.loadRoomToken v.roomId with
  | none => { v with errorBanner := some (ascii "errors.invalid_token") }
  | some _ => { v.closeClient with deletions := v.deletions ++ [v.closes] }

/-- The rest of `confirmDelete` when the room has been deleted. -/
def deleteSucceeded : ChatView × Storage :=
  ({ v with status := .deleted }, st.forgetRoom v.roomId)

/-- The rest of `confirmDelete` when the request has failed. -/
def deleteFailed (code : Str) : ChatView :=
  { v with errorBanner := some (ascii "errors." ++ code) }

def onDestroy : ChatView :=
  { v with unmounted := true, reconnectTimer := none }.closeClient

/-! ## Events -/

/-- What may happen to a view. -/
inductive Event
  | opened (i : ℕ)
  | frame (i : ℕ) (f : Frame Str)
  | closed (i : ℕ)
  /-- The event `error` of a socket, which the browser fires before `close`. -/
  | failed (i : ℕ)
  | keyDerived
  | timer
  | alive (gone : Bool)
  | unreachable
  | typed (draft : Str)
  | submitPassword
  | passwordDerived
  /-- The delete button, and the two ways out of its dialog. -/
  | askDelete
  | cancelDelete
  | confirmDelete
  | deleteSucceeded (n : ℕ)
  | deleteFailed (n : ℕ) (code : Str)
  | reseeded (seed : Str)
  | destroyed

/-- The password form is on the screen. -/
def Asks : Prop := v.unmounted = false ∧ v.status ≠ .deleted ∧ v.needPassword = true

instance : Decidable v.Asks := inferInstanceAs (Decidable (_ ∧ _ ∧ _))

/-- The chat itself is on the screen. -/
def Shows : Prop := v.unmounted = false ∧ v.status ≠ .deleted ∧ v.needPassword = false

instance : Decidable v.Shows := inferInstanceAs (Decidable (_ ∧ _ ∧ _))

/-- The client at a position has changed and may report something. -/
def notify (i : ℕ) (r : ChatClient × Option Report) : ChatView × Storage :=
  let v := { v with clients := v.clients.set i r.1 }
  match r.2 with
  | some report => v.onReport st report
  | none => (v, st)

/-- The view and the storage after an event, where the event is possible. -/
def step (S : Sodium) : Event → Option (ChatView × Storage)
  | .opened i => v.clients[i]?.bind fun c =>
      if c.readyState = .connecting then some (v.notify st i (c.onOpen, none)) else none
  | .frame i f => v.clients[i]?.bind fun c =>
      if c.readyState = .opened then some (v.notify st i (c.onFrame S f)) else none
  | .closed i => v.clients[i]?.bind fun c =>
      if c.readyState = .closed then none
      else some (v.notify st i (c.onClose.1, some c.onClose.2))
  | .failed i => v.clients[i]?.bind fun c =>
      if c.readyState = .closed then none
      else if c.closedByUs then some (v, st) else some (v.onReport st (.error (ascii "network")))
  | .keyDerived => v.mounting.map fun seed => (v.keyDerived st seed, st)
  | .timer => if v.reconnectTimer.isSome then some (v.tryReconnect, st) else none
  | .alive gone =>
      if 0 < v.probes then some ({ v with probes := v.probes - 1 }.aliveAnswered st gone) else none
  | .unreachable =>
      if 0 < v.probes then some ({ v with probes := v.probes - 1 }.scheduleReconnect, st) else none
  | .typed draft => if v.Asks then some ({ v with passwordDraft := draft }, st) else none
  | .submitPassword => if v.Asks then some (v.submitPassword, st) else none
  | .passwordDerived =>
      match v.submitted with
      | (seed, password) :: rest =>
          some ({ v with submitted := rest }.passwordDerived st seed password, st)
      | [] => none
  | .askDelete => if v.Shows then some ({ v with showDeleteModal := true }, st) else none
  | .cancelDelete =>
      if v.showDeleteModal ∧ ¬ v.unmounted then some ({ v with showDeleteModal := false }, st)
      else none
  | .confirmDelete =>
      if v.showDeleteModal ∧ ¬ v.unmounted then some (v.confirmDelete st, st) else none
  | .deleteSucceeded n =>
      if n < v.deletions.length then
        some ({ v with deletions := v.deletions.eraseIdx n }.deleteSucceeded st)
      else none
  | .deleteFailed n code =>
      if n < v.deletions.length then
        some ({ v with deletions := v.deletions.eraseIdx n }.deleteFailed code, st)
      else none
  | .reseeded seed => if v.unmounted then none else some ({ v with seed }, st)
  | .destroyed => if v.unmounted then none else some (v.onDestroy, st)

/-! ## The clients of a view -/

section Clients

variable {v}

lemma client_eq : v.client = v.clients[v.current]? := List.getLast?_eq_getElem?

lemma client_eq_none : v.client = none ↔ v.clients = [] := List.getLast?_eq_none_iff

@[simp] lemma current_set (i : ℕ) (c : ChatClient) :
    { v with clients := v.clients.set i c }.current = v.current := by
  simp [current]

/-- Closing the client closes nothing but the client. -/
lemma getElem?_closeClient (i : ℕ) : v.closeClient.clients[i]?
    = v.clients[i]?.map fun c => if i = v.current then c.close else c := by
  simp only [closeClient, List.getElem?_modify]
  by_cases hi : v.current = i
  · simp [hi]
  · simp [hi, Ne.symm hi]

@[simp] lemma current_closeClient : v.closeClient.current = v.current := by
  simp [closeClient, current]

lemma client_closeClient : v.closeClient.client = v.client.map ChatClient.close := by
  rw [client_eq, client_eq, current_closeClient, getElem?_closeClient]
  simp

@[simp] lemma client_spawnClient (isInitial : Bool) : (v.spawnClient st isInitial).client
    = some (ChatClient.connect v.key (st.loadRoomToken v.roomId)) := by
  simp [client, spawnClient]

/-- A client that has been superseded is one of those before. -/
lemma getElem?_spawnClient {i : ℕ} {c : ChatClient} {isInitial : Bool}
    (h : (v.spawnClient st isInitial).clients[i]? = some c)
    (hi : i ≠ (v.spawnClient st isInitial).current) : v.clients[i]? = some c := by
  have hlen : i < v.clients.length := by
    have hlt : i < v.clients.length + 1 := by
      simpa [spawnClient] using (List.getElem?_eq_some_iff.mp h).1
    have hne : i ≠ v.clients.length := by
      intro heq
      exact hi (by simp [current, spawnClient, heq])
    omega
  rwa [spawnClient, List.getElem?_append_left hlen] at h

/-- All but the current client are closed, or closing. -/
def Superseded (v : ChatView) : Prop :=
  ∀ i c, v.clients[i]? = some c → i ≠ v.current → ¬ c.Live

/-- Once the client is closed none is open. -/
lemma Superseded.not_live (hv : v.Superseded) {w : ChatView}
    (hw : w.clients = v.closeClient.clients) (i : ℕ) (c : ChatClient)
    (hc : w.clients[i]? = some c) : ¬ c.Live := by
  rw [hw, getElem?_closeClient] at hc
  obtain ⟨c₀, hc₀, rfl⟩ := Option.map_eq_some_iff.mp hc
  split
  · exact ChatClient.not_live_close
  · exact hv i c₀ hc₀ ‹_›

/-- Once the client is closed another can be spawned. -/
lemma superseded_spawnClient {isInitial : Bool}
    (h : ∀ (i : ℕ) (c : ChatClient), v.clients[i]? = some c → ¬ c.Live) :
    (v.spawnClient st isInitial).Superseded := fun i c hc hi =>
  h i c (getElem?_spawnClient st hc hi)

/-- A client that is not closed or closing is the current one. -/
lemma Superseded.current_of_live (h : v.Superseded) {i : ℕ} {c : ChatClient}
    (hc : v.clients[i]? = some c) (hlive : c.Live) : i = v.current := by
  by_contra hi
  exact h i c hc hi hlive

end Clients

/-! ## What an event does -/

section Step

variable {v : ChatView} {st : Storage} {S : Sodium} {e : Event} {v' : ChatView} {st' : Storage}

/-- What an event of a socket does to its client, and what the client reports. -/
inductive Turns (S : Sodium) : Event → ℕ → ChatClient → ChatClient × Option Report → Prop
  | opened {i : ℕ} {c : ChatClient} (hc : c.readyState = .connecting) :
      Turns S (.opened i) i c (c.onOpen, none)
  | frame {i : ℕ} {c : ChatClient} (f : Frame Str) (hc : c.readyState = .opened) :
      Turns S (.frame i f) i c (c.onFrame S f)
  | closed {i : ℕ} {c : ChatClient} (hc : c.readyState ≠ .closed) :
      Turns S (.closed i) i c (c.onClose.1, some c.onClose.2)

lemma Turns.key_eq {i : ℕ} {c : ChatClient} {r : ChatClient × Option Report}
    (h : Turns S e i c r) : r.1.key = c.key := by
  cases h with
  | opened hc => rfl
  | frame f hc => exact ChatClient.key_onFrame
  | closed hc => rfl

lemma Turns.live {i : ℕ} {c : ChatClient} {r : ChatClient × Option Report} (h : Turns S e i c r)
    (hlive : r.1.Live) : c.Live := by
  cases h with
  | opened hc => exact .inl hc
  | frame f hc => exact .inr hc
  | closed hc => simp [ChatClient.Live, ChatClient.onClose] at hlive

/-- How an event changes the clients of a view. -/
inductive Rewired (S : Sodium) (v : ChatView) (st : Storage) (e : Event) :
    ChatView × Storage → Prop
  /-- Nothing happens to the clients. -/
  | kept {p : ChatView × Storage} (clients : p.1.clients = v.clients) (key : p.1.key = v.key)
      (mounting : p.1.mounting = v.mounting) (roomId : p.1.roomId = v.roomId) :
      Rewired S v st e p
  /-- Something happens to one client. -/
  | turned {i : ℕ} {c : ChatClient} {r : ChatClient × Option Report}
      (hc : v.clients[i]? = some c) (turns : Turns S e i c r) : Rewired S v st e (v.notify st i r)
  /-- The client is closed. -/
  | closed {p : ChatView × Storage} (clients : p.1.clients = v.closeClient.clients)
      (key : p.1.key = v.key) (mounting : p.1.mounting = v.mounting)
      (roomId : p.1.roomId = v.roomId) : Rewired S v st e p
  /-- The client is closed and another spawned. -/
  | spawned {w : ChatView} {isInitial : Bool} {st' : Storage}
      (clients : w.clients = v.closeClient.clients) (mounting : w.mounting = v.mounting)
      (roomId : w.roomId = v.roomId) : Rewired S v st e (w.spawnClient st isInitial, st')
  /-- The first client is spawned. -/
  | mounted {w : ChatView} {isInitial : Bool} {st' : Storage} (clients : w.clients = v.clients)
      (was : v.mounting ≠ none) (mounting : w.mounting = none) (roomId : w.roomId = v.roomId) :
      Rewired S v st e (w.spawnClient st isInitial, st')

lemma scheduleReconnect_eq (v : ChatView) : ∃ timer attempt, v.scheduleReconnect
    = { v with reconnectTimer := timer, reconnectAttempt := attempt } := by
  unfold scheduleReconnect
  split
  · exact ⟨_, _, rfl⟩
  · split <;> exact ⟨_, _, rfl⟩

lemma onClose_eq (v : ChatView) (clean : Bool) : ∃ status timer attempt, v.onClose clean
    = { v with status, reconnectTimer := timer, reconnectAttempt := attempt } := by
  have hlose : ∃ status, v.loseConnection = { v with status } := by
    unfold loseConnection
    split <;> exact ⟨_, rfl⟩
  obtain ⟨status, hlose⟩ := hlose
  unfold onClose
  split
  · exact ⟨_, _, _, rfl⟩
  · split
    · exact ⟨status, _, _, hlose⟩
    · obtain ⟨timer, attempt, h⟩ := scheduleReconnect_eq v.loseConnection
      exact ⟨status, timer, attempt, by rw [h, hlose]⟩

/-- The callbacks leave the clients, the key and what is in flight alone. -/
lemma onReport_frame (v : ChatView) (st : Storage) (r : Report) :
    (v.onReport st r).1.clients = v.clients ∧ (v.onReport st r).1.key = v.key ∧
      (v.onReport st r).1.mounting = v.mounting ∧ (v.onReport st r).1.submitted = v.submitted ∧
      (v.onReport st r).1.probes = v.probes ∧ (v.onReport st r).1.deletions = v.deletions ∧
      (v.onReport st r).1.unmounted = v.unmounted ∧ (v.onReport st r).1.roomId = v.roomId := by
  cases r with
  | joined token => exact ⟨rfl, rfl, rfl, rfl, rfl, rfl, rfl, rfl⟩
  | deleted => exact ⟨rfl, rfl, rfl, rfl, rfl, rfl, rfl, rfl⟩
  | error code =>
      simp only [onReport, onError]
      split
      · exact ⟨rfl, rfl, rfl, rfl, rfl, rfl, rfl, rfl⟩
      · split <;> exact ⟨rfl, rfl, rfl, rfl, rfl, rfl, rfl, rfl⟩
  | close clean =>
      obtain ⟨status, timer, attempt, h⟩ := onClose_eq v clean
      simp [onReport, h]

lemma notify_frame (v : ChatView) (st : Storage) (i : ℕ) (r : ChatClient × Option Report) :
    (v.notify st i r).1.clients = v.clients.set i r.1 ∧ (v.notify st i r).1.key = v.key ∧
      (v.notify st i r).1.mounting = v.mounting ∧ (v.notify st i r).1.roomId = v.roomId := by
  unfold notify
  dsimp only
  split
  · obtain ⟨hclients, hkey, hmounting, -, -, -, -, hroom⟩ := onReport_frame
      { v with clients := v.clients.set i r.1 } st ‹_›
    exact ⟨hclients, hkey, hmounting, hroom⟩
  · exact ⟨rfl, rfl, rfl, rfl⟩

/-- A dropped connection is no news. -/
lemma onReport_network (v : ChatView) (st : Storage) :
    v.onReport st (.error (ascii "network")) = (v, st) := by
  have hne : ascii "network" ≠ ascii "invalid_key" := by decide +kernel
  simp [onReport, onError, hne]

lemma step_rewired (h : v.step st S e = some (v', st')) : Rewired S v st e (v', st') := by
  cases e with
  | opened i =>
      simp only [step, Option.bind_eq_some_iff, Option.ite_none_right_eq_some,
        Option.some.injEq] at h
      obtain ⟨c, hc, hstate, heq⟩ := h
      exact heq ▸ .turned hc (.opened hstate)
  | frame i f =>
      simp only [step, Option.bind_eq_some_iff, Option.ite_none_right_eq_some,
        Option.some.injEq] at h
      obtain ⟨c, hc, hstate, heq⟩ := h
      exact heq ▸ .turned hc (.frame f hstate)
  | closed i =>
      simp only [step, Option.bind_eq_some_iff, Option.ite_none_left_eq_some,
        Option.some.injEq] at h
      obtain ⟨c, hc, hstate, heq⟩ := h
      exact heq ▸ .turned hc (.closed hstate)
  | failed i =>
      simp only [step, Option.bind_eq_some_iff, Option.ite_none_left_eq_some] at h
      obtain ⟨c, hc, hstate, h⟩ := h
      rw [onReport_network, ite_self, Option.some.injEq, Prod.mk.injEq] at h
      obtain ⟨rfl, rfl⟩ := h
      exact .kept rfl rfl rfl rfl
  | keyDerived =>
      obtain ⟨seed, hseed, heq⟩ := Option.map_eq_some_iff.mp h
      exact heq ▸ .mounted rfl (by simp [hseed]) rfl rfl
  | timer =>
      simp only [step, Option.ite_none_right_eq_some, Option.some.injEq, Prod.mk.injEq] at h
      obtain ⟨-, rfl, rfl⟩ := h
      simp only [tryReconnect]
      split <;> exact .kept rfl rfl rfl rfl
  | alive gone =>
      simp only [step, Option.ite_none_right_eq_some, Option.some.injEq] at h
      obtain ⟨-, heq⟩ := h
      cases gone with
      | true => exact heq ▸ .kept rfl rfl rfl rfl
      | false => exact heq ▸ .spawned rfl rfl rfl
  | unreachable =>
      simp only [step, Option.ite_none_right_eq_some, Option.some.injEq, Prod.mk.injEq] at h
      obtain ⟨-, rfl, rfl⟩ := h
      obtain ⟨timer, attempt, heq⟩ := scheduleReconnect_eq { v with probes := v.probes - 1 }
      rw [heq]
      exact .kept rfl rfl rfl rfl
  | typed draft =>
      simp only [step, Option.ite_none_right_eq_some, Option.some.injEq, Prod.mk.injEq] at h
      obtain ⟨-, rfl, rfl⟩ := h
      exact .kept rfl rfl rfl rfl
  | submitPassword =>
      simp only [step, Option.ite_none_right_eq_some, Option.some.injEq, Prod.mk.injEq] at h
      obtain ⟨-, rfl, rfl⟩ := h
      simp only [ChatView.submitPassword]
      split
      · exact .kept rfl rfl rfl rfl
      · split <;> exact .kept rfl rfl rfl rfl
  | passwordDerived =>
      simp only [step] at h
      split at h
      · obtain ⟨rfl, rfl⟩ : _ ∧ st = st' := by simpa using h
        exact .spawned rfl rfl rfl
      · cases h
  | askDelete =>
      simp only [step, Option.ite_none_right_eq_some, Option.some.injEq, Prod.mk.injEq] at h
      obtain ⟨-, rfl, rfl⟩ := h
      exact .kept rfl rfl rfl rfl
  | cancelDelete =>
      simp only [step, Option.ite_none_right_eq_some, Option.some.injEq, Prod.mk.injEq] at h
      obtain ⟨-, rfl, rfl⟩ := h
      exact .kept rfl rfl rfl rfl
  | confirmDelete =>
      simp only [step, Option.ite_none_right_eq_some, Option.some.injEq, Prod.mk.injEq] at h
      obtain ⟨-, rfl, rfl⟩ := h
      simp only [ChatView.confirmDelete]
      split
      · exact .kept rfl rfl rfl rfl
      · exact .closed rfl rfl rfl rfl
  | deleteSucceeded n =>
      simp only [step, Option.ite_none_right_eq_some, Option.some.injEq] at h
      exact h.2 ▸ .kept rfl rfl rfl rfl
  | deleteFailed n code =>
      simp only [step, Option.ite_none_right_eq_some, Option.some.injEq, Prod.mk.injEq] at h
      obtain ⟨-, rfl, rfl⟩ := h
      exact .kept rfl rfl rfl rfl
  | reseeded seed =>
      simp only [step, Option.ite_none_left_eq_some, Option.some.injEq, Prod.mk.injEq] at h
      obtain ⟨-, rfl, rfl⟩ := h
      exact .kept rfl rfl rfl rfl
  | destroyed =>
      simp only [step, Option.ite_none_left_eq_some, Option.some.injEq, Prod.mk.injEq] at h
      obtain ⟨-, rfl, rfl⟩ := h
      exact .closed rfl rfl rfl rfl

/-- Nothing has happened to a view that is being mounted. -/
def Fresh (v : ChatView) : Prop :=
  v.clients = [] ∧ v.reconnectTimer = none ∧ v.probes = 0 ∧ v.submitted = [] ∧
    v.needPassword = false

/-- While a view is being mounted nothing starts a client or a request. -/
lemma Fresh.step (hv : v.Fresh) (h : v.step st S e = some (v', st')) :
    v'.mounting = none ∨ v'.Fresh := by
  obtain ⟨hclients, htimer, hprobes, hsubmitted, hpassword⟩ := hv
  cases e with
  | opened _ | frame _ _ | closed _ | failed _ => simp [ChatView.step, hclients] at h
  | keyDerived =>
      obtain ⟨seed, -, heq⟩ := Option.map_eq_some_iff.mp h
      obtain ⟨rfl, -⟩ := Prod.mk.inj heq
      exact .inl rfl
  | timer => simp [ChatView.step, htimer] at h
  | alive _ | unreachable => simp [ChatView.step, hprobes] at h
  | typed _ | submitPassword => simp [ChatView.step, Asks, hpassword] at h
  | passwordDerived => simp [ChatView.step, hsubmitted] at h
  | confirmDelete =>
      simp only [ChatView.step, Option.ite_none_right_eq_some, Option.some.injEq,
        Prod.mk.injEq] at h
      obtain ⟨-, rfl, rfl⟩ := h
      refine .inr ?_
      simp only [ChatView.confirmDelete]
      split
      · exact ⟨hclients, htimer, hprobes, hsubmitted, hpassword⟩
      · exact ⟨by simp [closeClient, hclients], htimer, hprobes, hsubmitted, hpassword⟩
  | destroyed =>
      simp only [ChatView.step, Option.ite_none_left_eq_some, Option.some.injEq,
        Prod.mk.injEq] at h
      obtain ⟨-, rfl, rfl⟩ := h
      exact .inr ⟨by simp [onDestroy, closeClient, hclients], rfl, hprobes, hsubmitted, hpassword⟩
  | askDelete | cancelDelete | deleteFailed _ _ =>
      simp only [ChatView.step, Option.ite_none_right_eq_some, Option.some.injEq,
        Prod.mk.injEq] at h
      obtain ⟨-, rfl, rfl⟩ := h
      exact .inr ⟨hclients, htimer, hprobes, hsubmitted, hpassword⟩
  | deleteSucceeded _ =>
      simp only [ChatView.step, Option.ite_none_right_eq_some, Option.some.injEq] at h
      obtain ⟨-, heq⟩ := h
      obtain ⟨rfl, -⟩ := Prod.mk.inj heq
      exact .inr ⟨hclients, htimer, hprobes, hsubmitted, hpassword⟩
  | reseeded _ =>
      simp only [ChatView.step, Option.ite_none_left_eq_some, Option.some.injEq,
        Prod.mk.injEq] at h
      obtain ⟨-, rfl, rfl⟩ := h
      exact .inr ⟨hclients, htimer, hprobes, hsubmitted, hpassword⟩

/-- The clients of a view: only the current one may have an open socket, and it holds the key of
the view. -/
structure Wired (v : ChatView) : Prop where
  superseded : v.Superseded
  keyed : ∀ c ∈ v.clients, c.Live → c.key = v.key
  fresh : v.mounting ≠ none → v.Fresh

lemma Rewired.superseded {p : ChatView × Storage} (h : Rewired S v st e p) (hv : v.Wired) :
    p.1.Superseded := by
  cases h with
  | kept clients _ _ _ =>
      intro i c hc hi
      rw [clients] at hc
      rw [current, clients] at hi
      exact hv.superseded i c hc hi
  | @turned i c r hc turns =>
      intro j d hd hj
      obtain ⟨hclients, -⟩ := notify_frame v st i r
      rw [hclients] at hd
      rw [current, hclients, List.length_set] at hj
      rw [List.getElem?_set] at hd
      split at hd
      · rename_i hij
        subst hij
        intro hlive
        split at hd
        · obtain rfl := Option.some.inj hd
          exact hj (hv.superseded.current_of_live hc (turns.live hlive))
        · cases hd
      · exact hv.superseded j d hd hj
  | closed clients _ _ _ => exact fun i c hc _ => hv.superseded.not_live clients i c hc
  | spawned clients mounting _ =>
      exact superseded_spawnClient _ (hv.superseded.not_live clients)
  | mounted clients was mounting _ =>
      refine superseded_spawnClient _ fun i c hc => ?_
      rw [clients, (hv.fresh was).1] at hc
      simp at hc

lemma Rewired.keyed {p : ChatView × Storage} (h : Rewired S v st e p) (hv : v.Wired) :
    ∀ c ∈ p.1.clients, c.Live → c.key = p.1.key := by
  have hspawned : ∀ {w : ChatView} {isInitial : Bool},
      (∀ (i : ℕ) (c : ChatClient), w.clients[i]? = some c → ¬ c.Live) →
      ∀ c ∈ (w.spawnClient st isInitial).clients, c.Live → c.key = w.key := by
    intro w isInitial hw c hc hlive
    rcases List.mem_append.mp hc with hc | hc
    · obtain ⟨i, hi⟩ := List.mem_iff_getElem?.mp hc
      exact absurd hlive (hw i c hi)
    · rw [List.mem_singleton.mp hc]
      rfl
  cases h with
  | kept clients key _ _ =>
      intro c hc hlive
      rw [clients] at hc
      rw [key]
      exact hv.keyed c hc hlive
  | @turned i c r hc turns =>
      intro d hd hlive
      obtain ⟨hclients, hkey, -, -⟩ := notify_frame v st i r
      rw [hclients] at hd
      rw [hkey]
      rcases List.mem_or_eq_of_mem_set hd with hd | rfl
      · exact hv.keyed d hd hlive
      · rw [turns.key_eq]
        exact hv.keyed c (List.mem_of_getElem? hc) (turns.live hlive)
  | closed clients _ _ _ =>
      intro c hc hlive
      obtain ⟨i, hi⟩ := List.mem_iff_getElem?.mp hc
      exact absurd hlive (hv.superseded.not_live clients i c hi)
  | spawned clients mounting _ => exact hspawned (hv.superseded.not_live clients)
  | mounted clients was mounting _ =>
      refine hspawned fun i c hc => ?_
      rw [clients, (hv.fresh was).1] at hc
      simp at hc

lemma Rewired.mounting {p : ChatView × Storage} (h : Rewired S v st e p)
    (hp : p.1.mounting ≠ none) : v.mounting ≠ none := by
  cases h with
  | kept _ _ mounting _ => exact mounting ▸ hp
  | @turned i c r hc turns =>
      obtain ⟨-, -, hmounting, -⟩ := notify_frame v st i r
      exact hmounting ▸ hp
  | closed _ _ mounting _ => exact mounting ▸ hp
  | spawned _ mounting _ => exact fun hv => hp (mounting.trans hv)
  | mounted _ was _ _ => exact was

/-- A client has answered a challenge before, or it answers one now. -/
lemma Rewired.answered {p : ChatView × Storage} (h : Rewired S v st e p) {c : ChatClient}
    (hc : c ∈ p.1.clients) (ha : c.Answered) :
    (∃ c₀ ∈ v.clients, c₀.Answered ∧ c₀.key = c.key) ∨
      ∃ i ct nonce k, e = .frame i (.challenge ct nonce) ∧ c.key = some k ∧
        ChatClient.Opens S k ct nonce := by
  have hclosed : ∀ c ∈ v.closeClient.clients, c.Answered →
      ∃ c₀ ∈ v.clients, c₀.Answered ∧ c₀.key = c.key := by
    intro c hc ha
    obtain ⟨i, hi⟩ := List.mem_iff_getElem?.mp hc
    rw [getElem?_closeClient] at hi
    obtain ⟨c₀, hc₀, rfl⟩ := Option.map_eq_some_iff.mp hi
    refine ⟨c₀, List.mem_of_getElem? hc₀, ?_⟩
    split at ha
    · exact ⟨ha, by simp [*]⟩
    · exact ⟨ha, by simp [*]⟩
  have hspawned : ∀ {w : ChatView} {isInitial : Bool},
      c ∈ (w.spawnClient st isInitial).clients → c ∈ w.clients := by
    intro w isInitial hc
    rcases List.mem_append.mp hc with hc | hc
    · exact hc
    · rw [List.mem_singleton.mp hc] at ha
      exact absurd ha (ChatClient.not_answered_connect _ _)
  cases h with
  | kept clients _ _ _ => exact .inl ⟨c, clients ▸ hc, ha, rfl⟩
  | @turned i d r hd turns =>
      obtain ⟨hclients, -⟩ := notify_frame v st i r
      rw [hclients] at hc
      rcases List.mem_or_eq_of_mem_set hc with hc | rfl
      · exact .inl ⟨c, hc, ha, rfl⟩
      · have hkey := turns.key_eq
        cases turns with
        | opened _ =>
            exact .inl ⟨d, List.mem_of_getElem? hd, ChatClient.answered_onOpen.mp ha, rfl⟩
        | frame f _ =>
            rcases ChatClient.answered_onFrame ha with ha | ⟨ct, nonce, k, rfl, hk, hopens⟩
            · exact .inl ⟨d, List.mem_of_getElem? hd, ha, hkey.symm⟩
            · exact .inr ⟨i, ct, nonce, k, rfl, hkey.trans hk, hopens⟩
        | closed _ => exact .inl ⟨d, List.mem_of_getElem? hd, ha, rfl⟩
  | closed clients _ _ _ => exact .inl (hclosed c (clients ▸ hc) ha)
  | spawned clients _ _ => exact .inl (hclosed c (clients ▸ hspawned hc) ha)
  | mounted clients _ _ _ => exact .inl ⟨c, clients ▸ hspawned hc, ha, rfl⟩

lemma Rewired.roomId_eq {p : ChatView × Storage} (h : Rewired S v st e p) :
    p.1.roomId = v.roomId := by
  cases h with
  | kept _ _ _ roomId => exact roomId
  | @turned i c r hc turns => exact (notify_frame v st i r).2.2.2
  | closed _ _ _ roomId => exact roomId
  | spawned _ _ roomId => exact roomId
  | mounted _ _ _ roomId => exact roomId

theorem Wired.step (hv : v.Wired) (h : v.step st S e = some (v', st')) : v'.Wired := by
  have hrewired := step_rewired h
  refine ⟨hrewired.superseded hv, hrewired.keyed hv, fun hv' => ?_⟩
  exact ((hv.fresh (hrewired.mounting hv')).step h).resolve_left hv'

/-- A view that has been mounted. -/
lemma wired_onMount (roomId seed : Str) (st : Storage) (knownDeleted : Bool) :
    (({ roomId, seed } : ChatView).onMount st knownDeleted).1.Wired := by
  have hnone : ∀ (key : Option (List UInt8)) (i : ℕ) (c : ChatClient),
      ({ roomId, seed, key } : ChatView).clients[i]? = some c → ¬ c.Live := by simp
  simp only [onMount]
  split
  · exact ⟨by simp [Superseded], by simp, by simp⟩
  · dsimp only
    split
    · refine ⟨superseded_spawnClient st (hnone _), ?_, by simp [spawnClient]⟩
      simp [spawnClient]
    · exact ⟨by simp [Superseded], by simp, fun _ => ⟨rfl, rfl, rfl, rfl, rfl⟩⟩

/-- A view that is being mounted has not answered a challenge. -/
lemma not_answered_onMount (roomId seed : Str) (st : Storage) (knownDeleted : Bool) :
    ∀ c ∈ (({ roomId, seed } : ChatView).onMount st knownDeleted).1.clients, ¬ c.Answered := by
  simp only [onMount]
  split
  · simp
  · dsimp only
    split
    · intro c hc
      obtain rfl := List.mem_singleton.mp hc
      exact ChatClient.not_answered_connect _ _
    · simp

/-- Mounting a view forgets its room or leaves the storage alone. -/
lemma storage_onMount (roomId seed : Str) (st : Storage) (knownDeleted : Bool) :
    (({ roomId, seed } : ChatView).onMount st knownDeleted).2 = st ∨
      (({ roomId, seed } : ChatView).onMount st knownDeleted).2 = st.forgetRoom roomId := by
  simp only [onMount]
  split
  · exact .inr rfl
  · exact .inl rfl

end Step

end ChatView

end HashHush.Web
