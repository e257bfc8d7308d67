import HashHush.Concurrency.Reactive
import HashHush.Web.Browser

/-!
# Is a stored key the right one?

The key of a view is stored whenever one of its clients is let in, so that a later visit needs no
password.  A client without a token is let in because it answered a challenge, which only the key
of the room opens.  A client with a token is let in by the token, whatever its key is: and the
token is one that any tab of the browser may have stored.

So the stored key of a room is the right one as long as no client with a token is let in while its
view holds another key.
-/

namespace HashHush.Web

open Concurrency

section StoredKey

variable (S : Sodium) (pool : Str → List UInt8)

/-- What the server and the cipher do.  `pool r` is the key under which the challenges of the room
`r` were encrypted: no other opens one.  A client is let in with a token, or once it has answered
a challenge; and `create` ends for the room whose pool it has made. -/
def Honest (b : Browser) : Browser.Event → Prop
  | .view n (.frame i f) => ∀ v c, b.views n = some v → v.clients[i]? = some c →
      (∀ ct nonce k, f = .challenge ct nonce → ChatClient.Opens S k ct nonce →
        k = pool v.roomId) ∧
      (ChatClient.IsJoined f → c.token.isSome ∨ c.Answered)
  | .created roomId seed password => deriveKey seed password = pool roomId
  | _ => True

/-- A client with a token is let into the room only if its view holds the key of the room. -/
def Verified (r : Str) (b : Browser) : Browser.Event → Prop
  | .view n (.frame i f) => ChatClient.IsJoined f → ∀ v c, b.views n = some v → v.roomId = r →
      v.clients[i]? = some c → c.token.isSome → ∀ k, v.key = some k → k = pool r
  | _ => True

/-- If a key is stored for the room, it is the one of the pool. -/
def KeyRight (r : Str) (b : Browser) : Prop :=
  ∀ hex, (b.storage.loadRoomEntry r).key = some hex → hex = bytesToHex (pool r)

/-- A stored key is right, and a client of the room that has answered a challenge holds it. -/
structure Keyed (r : Str) (b : Browser) : Prop where
  stored : KeyRight pool r b
  wired : ∀ n v, b.views n = some v → v.Wired
  answered : ∀ n v, b.views n = some v → v.roomId = r →
    ∀ c ∈ v.clients, c.Answered → c.key = some (pool r)

variable {S pool} {r : Str} {b b' : Browser} {e : Browser.Event}

/-- The clients of a view that answer a challenge hold the key of the room. -/
private lemma Keyed.answered_step (hb : Keyed pool r b) {n : ℕ} {v v' : ChatView}
    {e : ChatView.Event} {st' : Storage} (hv : b.views n = some v)
    (hhonest : Honest S pool b (.view n e)) (h : v.step b.storage S e = some (v', st'))
    (hr : v'.roomId = r) : ∀ c ∈ v'.clients, c.Answered → c.key = some (pool r) := by
  intro c hc ha
  have hrewired := ChatView.step_rewired h
  have hroom : v.roomId = r := hrewired.roomId_eq ▸ hr
  rcases hrewired.answered hc ha with ⟨c₀, hc₀, ha₀, hkey⟩ | ⟨i, ct, nonce, k, rfl, hk, hopens⟩
  · rw [← hkey]
    exact hb.answered n v hv hroom c₀ hc₀ ha₀
  · obtain ⟨c₀, hc₀, -⟩ := Option.bind_eq_some_iff.mp h
    have hpool := (hhonest v c₀ hv hc₀).1 ct nonce k rfl hopens
    rw [hk, hpool, hroom]

/-- What is stored by a view whose client is let in. -/
private lemma Keyed.stored_step (hb : Keyed pool r b) {n : ℕ} {v v' : ChatView}
    {e : ChatView.Event} {st' : Storage} (hv : b.views n = some v)
    (hhonest : Honest S pool b (.view n e)) (hverified : Verified pool r b (.view n e))
    (h : v.step b.storage S e = some (v', st')) :
    ∀ hex, (st'.loadRoomEntry r).key = some hex → hex = bytesToHex (pool r) := by
  intro hex hhex
  rcases ChatView.key_step h r with
    heq | hnone | ⟨i, f, c, k, rfl, hf, hr, hc, hopened, hk, hsaved⟩
  · exact hb.stored hex (heq ▸ hhex)
  · rw [hnone] at hhex
    cases hhex
  · have hkeyed : c.key = some k := by
      rw [← hk]
      exact (hb.wired n v hv).keyed c (List.mem_of_getElem? hc) (.inr hopened)
    have hpool : k = pool r := by
      rcases (hhonest v c hv hc).2 hf with htoken | hanswered
      · exact hverified hf v c hv hr.symm hc htoken k hk
      · have hright := hb.answered n v hv hr.symm c (List.mem_of_getElem? hc) hanswered
        exact Option.some.inj (hkeyed.symm.trans hright)
    rw [hsaved, Option.some.injEq] at hhex
    rw [← hhex, hpool]

/-- A view may be put in the place of another. -/
private lemma Keyed.update (hb : Keyed pool r b) (n : ℕ) {v' : ChatView} {st' : Storage}
    (hstored : ∀ hex, (st'.loadRoomEntry r).key = some hex → hex = bytesToHex (pool r))
    (hwired : v'.Wired)
    (hanswered : v'.roomId = r → ∀ c ∈ v'.clients, c.Answered → c.key = some (pool r)) :
    Keyed pool r ⟨st', Function.update b.views n (some v')⟩ := by
  refine ⟨hstored, ?_, ?_⟩
  · intro m w hw
    rcases Browser.eq_or_of_update hw with rfl | hw
    · exact hwired
    · exact hb.wired m w hw
  · intro m w hw hr
    rcases Browser.eq_or_of_update hw with rfl | hw
    · exact hanswered hr
    · exact hb.answered m w hw hr

/-- The stored key after the storage has been changed for one room. -/
private lemma keyRight_of_key {st st' : Storage}
    (hst : ∀ hex, (st.loadRoomEntry r).key = some hex → hex = bytesToHex (pool r))
    (h : (st'.loadRoomEntry r).key = (st.loadRoomEntry r).key ∨
      (st'.loadRoomEntry r).key = none ∨ (st'.loadRoomEntry r).key = some (bytesToHex (pool r))) :
    ∀ hex, (st'.loadRoomEntry r).key = some hex → hex = bytesToHex (pool r) := by
  intro hex hhex
  rcases h with h | h | h
  · exact hst hex (h ▸ hhex)
  · rw [h] at hhex
    cases hhex
  · rw [h, Option.some.injEq] at hhex
    exact hhex.symm

/-- An event that meets the condition keeps the stored key right. -/
lemma Keyed.step (hb : Keyed pool r b) (hhonest : Honest S pool b e)
    (hverified : Verified pool r b e) (h : b.step S e = some b') : Keyed pool r b' := by
  cases e with
  | mount n roomId seed knownDeleted =>
      simp only [Browser.step] at h
      split at h
      · obtain rfl := Option.some.inj h
        refine hb.update n (keyRight_of_key hb.stored ?_)
          (ChatView.wired_onMount roomId seed b.storage knownDeleted) ?_
        · rcases ChatView.storage_onMount roomId seed b.storage knownDeleted with hst | hst
          · exact .inl (by rw [hst])
          · rw [hst, Storage.key_forgetRoom]
            split
            · exact .inr (.inl rfl)
            · exact .inl rfl
        · intro _ c hc ha
          exact absurd ha (ChatView.not_answered_onMount roomId seed b.storage knownDeleted c hc)
      · cases h
  | view n e =>
      obtain ⟨v, hv, h⟩ := Option.bind_eq_some_iff.mp h
      obtain ⟨⟨v', st'⟩, hstep, rfl⟩ := Option.map_eq_some_iff.mp h
      exact hb.update n (hb.stored_step hv hhonest hverified hstep)
        ((hb.wired n v hv).step hstep) (hb.answered_step hv hhonest hstep)
  | created roomId seed password =>
      obtain rfl := Option.some.inj h
      refine ⟨keyRight_of_key hb.stored ?_, hb.wired, hb.answered⟩
      have hkey : deriveKey seed password = pool roomId := hhonest
      rw [Storage.key_saveRoomKey, hkey]
      split
      · subst r
        exact .inr (.inr rfl)
      · exact .inl rfl
  | gone roomId =>
      obtain rfl := Option.some.inj h
      refine ⟨keyRight_of_key hb.stored ?_, hb.wired, hb.answered⟩
      rw [Storage.key_forgetRoom]
      split
      · exact .inr (.inl rfl)
      · exact .inl rfl

/-- A client with a token that is let in while its view holds another key leaves that key. -/
lemma not_keyRight_of_not_verified (h : b.step S e = some b') (hverified : ¬ Verified pool r b e) :
    ¬ KeyRight pool r b' := by
  cases e with
  | mount _ _ _ _ | created _ _ _ | gone _ => exact absurd trivial hverified
  | view n e =>
      cases e with
      | frame i f =>
          simp only [Verified, not_forall] at hverified
          obtain ⟨hf, v, c, hv, rfl, hc, -, k, hk, hne⟩ := hverified
          obtain ⟨_, hv', h⟩ := Option.bind_eq_some_iff.mp h
          obtain rfl := Option.some.inj (hv.symm.trans hv')
          obtain ⟨⟨v', st'⟩, hstep, rfl⟩ := Option.map_eq_some_iff.mp h
          have hsaved := ChatView.key_step_of_isJoined hf hk hstep
          intro hright
          exact hne (bytesToHex_injective (hright _ hsaved))
      | _ => exact absurd trivial hverified

end StoredKey

/-- The stored key of a room is the right one in every state that is reached by events of which
none lets a client with a token into a view that holds another key; and such an event leaves a
wrong key. -/
theorem stored_key_right (S : Sodium) (pool : Str → List UInt8) (r : Str) :
    (∀ b₀ b : Browser, (∀ n, b₀.views n = none) → b₀.storage r = none →
      Reach (fun b e => b.step S e) (fun b e => Honest S pool b e ∧ Verified pool r b e) b₀ b →
      KeyRight pool r b) ∧
    ∀ (b : Browser) (e : Browser.Event) (b' : Browser), Honest S pool b e →
      b.step S e = some b' → ¬ Verified pool r b e → ¬ KeyRight pool r b' := by
  constructor
  · intro b₀ b hviews hstorage hreach
    have hinit : Keyed pool r b₀ := by
      refine ⟨?_, ?_, ?_⟩
      · simp [KeyRight, Storage.loadRoomEntry, hstorage]
      · simp [hviews]
      · simp [hviews]
    have hkeyed := hreach.invariant hinit fun b e b' hb hguard hstep =>
      hb.step hguard.1 hguard.2 hstep
    exact hkeyed.stored
  · exact fun b e b' _ hstep hverified => not_keyRight_of_not_verified hstep hverified

/-! ## A tab that was opened too early -/

namespace Sample

/-- A cipher that puts the key before the message. -/
def sodium : Sodium where
  toB64 b := b
  fromB64 t := some t
  encrypt m _ k := k ++ m
  decrypt c _ k := if c.take 32 = k then some (c.drop 32) else none

def seed : Str := ascii "seed"

def room : Str := ascii "room"

/-- Every room has the key of the seed without a password. -/
def pool (_ : Str) : List UInt8 :=
  [197, 162, 57, 125, 221, 214, 192, 94, 201, 0, 197, 154, 204, 63, 193, 152, 152, 248, 164, 205,
    158, 194, 150, 101, 253, 226, 122, 8, 171, 29, 45, 111]

def challenge : Frame Str := .challenge (pool room ++ ascii "plaintext") []

def letIn : Frame Str := .joined (ascii "peer") none (some (ascii "token")) [] []

lemma opens_sodium {k : List UInt8} {ct nonce : Str}
    (h : ChatClient.Opens sodium k ct nonce) : k = ct.take 32 := by
  by_contra hne
  exact h (by simp [ChatClient.solve, ChatClient.connect, sodium, Ne.symm hne])

/-- A test for an honest event. -/
def honest (b : Browser) : Browser.Event → Bool
  | .view n (.frame i f) => (b.views n).all fun v => v.clients[i]?.all fun c =>
      (match f with
        | .challenge ct _ => decide (ct.take 32 = pool v.roomId)
        | _ => true) &&
      decide (ChatClient.IsJoined f → c.token.isSome ∨ c.Answered)
  | .created roomId seed password => decide (deriveKey seed password = pool roomId)
  | _ => true

lemma honest_of_test (b : Browser) (e : Browser.Event) (h : honest b e = true) :
    Honest sodium pool b e := by
  cases e with
  | mount _ _ _ _ | gone _ => trivial
  | created roomId seed password =>
      have hkey : deriveKey seed password = pool roomId := of_decide_eq_true h
      exact hkey
  | view n e =>
      cases e with
      | frame i f =>
          intro v c hv hc
          simp only [honest, hv, hc, Option.all_some, Bool.and_eq_true, decide_eq_true_eq] at h
          refine ⟨?_, h.2⟩
          rintro ct nonce k rfl hopens
          exact (opens_sodium hopens).trans (of_decide_eq_true h.1)
      | _ => trivial

/-- A test for an event that lets a client with a token into the room only under the right key. -/
def verified (b : Browser) : Browser.Event → Bool
  | .view n (.frame i f) => (b.views n).all fun v => v.clients[i]?.all fun c =>
      decide (ChatClient.IsJoined f → v.roomId = room → c.token.isSome →
        v.key.all (· = pool room) = true)
  | _ => true

lemma verified_of_test (b : Browser) (e : Browser.Event) (h : verified b e = true) :
    Verified pool room b e := by
  cases e with
  | mount _ _ _ _ | gone _ | created _ _ _ => trivial
  | view n e =>
      cases e with
      | frame i f =>
          intro hf v c hv hr hc htoken k hk
          simp only [verified, hv, hc, Option.all_some, decide_eq_true_eq] at h
          have hkey := h hf hr htoken
          rw [hk] at hkey
          simpa using hkey
      | _ => trivial

/-- A tab is opened before the room is there, and asks for a password. -/
def early : List Browser.Event :=
  [.mount 0 room seed false, .view 0 .keyDerived, .view 0 (.opened 0),
    .view 0 (.frame 0 (.error .invalidKey))]

/-- A second tab is let in, having answered a challenge. -/
def visit : List Browser.Event :=
  [.mount 1 room seed false, .view 1 .keyDerived, .view 1 (.opened 0),
    .view 1 (.frame 0 challenge), .view 1 (.frame 0 letIn)]

/-- The first tab is given a password, and let in with the token that the second has stored. -/
def typed : List Browser.Event :=
  [.view 0 (.typed (ascii "guess")), .view 0 .submitPassword, .view 0 .passwordDerived,
    .view 0 (.opened 1), .view 0 (.frame 1 letIn)]

/-- A third tab finds the key and the token that the second has stored, and is let in by them. -/
def back : List Browser.Event :=
  [.mount 2 room seed false, .view 2 (.opened 0), .view 2 (.frame 0 letIn)]

/-- A visitor without a token opens a tab, another that is let in, and one more later. -/
def visits : Scenario (fun (b : Browser) e => b.step sodium e)
    (fun b e => honest b e && verified b e) {}
    (fun b => ((b.storage.loadRoomEntry room).key).isSome &&
      (b.views 2).any fun v => v.clients.any fun c => c.joined && c.token.isSome) where
  events := early ++ visit ++ back
  taken := by decide +kernel

/-- Then a password is typed into the first tab. -/
def guesses : Scenario (fun (b : Browser) e => b.step sodium e) honest {}
    (fun b => (b.storage.loadRoomEntry room).key.any (· ≠ bytesToHex (pool room))) where
  events := early ++ visit ++ typed
  taken := by decide +kernel

end Sample

/-- A visitor is let in without a token, and later with the one that was stored, and the key is
kept. -/
theorem stored_key_right_sample : ∃ b, KeyRight Sample.pool Sample.room b ∧
    ((b.storage.loadRoomEntry Sample.room).key).isSome = true ∧
    ((b.views 2).any fun v => v.clients.any fun c => c.joined && c.token.isSome) = true := by
  have htest : ∀ b e, (Sample.honest b e && Sample.verified b e) = true →
      Honest Sample.sodium Sample.pool b e ∧ Verified Sample.pool Sample.room b e := by
    intro b e h
    obtain ⟨hhonest, hverified⟩ := Bool.and_eq_true_iff.mp h
    exact ⟨Sample.honest_of_test b e hhonest, Sample.verified_of_test b e hverified⟩
  obtain ⟨b, hreach, hb⟩ := Sample.visits.exists_reach htest
  exact ⟨b, (stored_key_right Sample.sodium Sample.pool Sample.room).1 {} b (fun _ => rfl) rfl
    hreach, Bool.and_eq_true_iff.mp hb⟩

/-- A password typed into a tab that was opened too early replaces the key of the room. -/
theorem wrong_key_stored_sample : ∃ b, Reach (fun b e => b.step Sample.sodium e)
    (Honest Sample.sodium Sample.pool) {} b ∧ ¬ KeyRight Sample.pool Sample.room b := by
  obtain ⟨b, hreach, hb⟩ := Sample.guesses.exists_reach Sample.honest_of_test
  obtain ⟨hex, hstored, hne⟩ := (Option.any_eq_true _ _).mp hb
  exact ⟨b, hreach, fun hright => of_decide_eq_true hne (hright hex hstored)⟩

end HashHush.Web
