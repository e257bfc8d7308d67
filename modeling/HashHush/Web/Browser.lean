import HashHush.Web.ChatView

/-!
# A browser

Any number of tabs over one localStorage.  A tab may mount a chat view of any room with any
seed, any number of times; the views are numbered and go on to receive events after they have
been destroyed.  `App.svelte` forgets rooms that the server reports gone, and `Home.svelte` ends
`create` by storing the key with which it encrypted the pool of the new room.
-/

namespace HashHush.Web

/-- The storage and every view mounted so far. -/
structure Browser where
  storage : Storage := fun _ => none
  views : ℕ → Option ChatView := fun _ => none

namespace Browser

/-- What may happen in a browser. -/
inductive Event
  | mount (n : ℕ) (roomId seed : Str) (knownDeleted : Bool)
  | view (n : ℕ) (e : ChatView.Event)
  /-- The end of `create` in `Home.svelte`. -/
  | created (roomId seed password : Str)
  /-- The end of `checkRoomLiveness` in `App.svelte`, for one room. -/
  | gone (roomId : Str)

variable (b : Browser)

/-- The browser after an event, where the event is possible. -/
def step (S : Sodium) : Event → Option Browser
  | .mount n roomId seed knownDeleted =>
      match b.views n with
      | none =>
          let p := ({ roomId, seed } : ChatView).onMount b.storage knownDeleted
          some ⟨p.2, Function.update b.views n (some p.1)⟩
      | some _ => none
  | .view n e =>
      (b.views n).bind fun v => (v.step b.storage S e).map fun p =>
        ⟨p.2, Function.update b.views n (some p.1)⟩
  | .created roomId seed password =>
      some { b with
        storage := b.storage.saveRoomKey roomId (bytesToHex (deriveKey seed password)) }
  | .gone roomId => some { b with storage := b.storage.forgetRoom roomId }

variable {b}

/-- A view after one has been put in its place is that one, or was there. -/
lemma eq_or_of_update {n m : ℕ} {v w : ChatView}
    (h : Function.update b.views n (some v) m = some w) : w = v ∨ b.views m = some w := by
  by_cases hm : m = n
  · subst hm
    exact .inl (by simpa [eq_comm] using h)
  · exact .inr (by simpa [hm] using h)

end Browser

namespace ChatView

variable {v : ChatView} {st : Storage} {S : Sodium} {e : Event} {v' : ChatView} {st' : Storage}

/-- Forgetting a room keeps the stored key of a room, or forgets it too. -/
lemma key_forgetRoom_or (v : ChatView) (st : Storage) (id : Str) :
    ((st.forgetRoom v.roomId).loadRoomEntry id).key = (st.loadRoomEntry id).key ∨
      ((st.forgetRoom v.roomId).loadRoomEntry id).key = none := by
  rw [Storage.key_forgetRoom]
  split
  · exact .inr rfl
  · exact .inl rfl

/-- What a callback does to the stored key of a room. -/
lemma key_onReport (v : ChatView) (st : Storage) (r : Report) (id : Str) :
    ((v.onReport st r).2.loadRoomEntry id).key = (st.loadRoomEntry id).key ∨
      ((v.onReport st r).2.loadRoomEntry id).key = none ∨
      ((∃ token, r = .joined token) ∧ id = v.roomId ∧ ∃ k, v.key = some k ∧
        ((v.onReport st r).2.loadRoomEntry id).key = some (bytesToHex k)) := by
  have hforget := key_forgetRoom_or v st id
  cases r with
  | joined token =>
      obtain ⟨st₁, hst₁, hjoined⟩ : ∃ st₁ : Storage,
          (st₁.loadRoomEntry id).key = (st.loadRoomEntry id).key ∧
            (v.onReport st (.joined token)).2
              = v.key.elim st₁ fun k => st₁.saveRoomKey v.roomId (bytesToHex k) := by
        cases token with
        | none =>
            refine ⟨st, rfl, ?_⟩
            simp only [onReport, onJoined, handleJoined]
            cases v.key <;> rfl
        | some token =>
            refine ⟨st.saveRoomToken v.roomId token, Storage.key_saveRoomToken token id, ?_⟩
            simp only [onReport, onJoined, handleJoined]
            cases v.key <;> rfl
      rw [hjoined]
      cases hkey : v.key with
      | none => exact .inl hst₁
      | some k =>
          rw [Option.elim_some, Storage.key_saveRoomKey]
          split
          · exact .inr (.inr ⟨⟨token, rfl⟩, ‹_›, k, rfl, rfl⟩)
          · exact .inl hst₁
  | deleted => exact hforget.imp_right .inl
  | error code =>
      simp only [onReport, onError]
      split
      · exact hforget.imp_right .inl
      · split <;> exact .inl rfl
  | close clean => exact .inl rfl

/-- An event leaves the storage, forgets the room, or stores what a client reports of a frame. -/
lemma storage_step (h : v.step st S e = some (v', st')) :
    st' = st ∨ st' = st.forgetRoom v.roomId ∨
      ∃ i f c, e = .frame i f ∧ v.clients[i]? = some c ∧ c.readyState = .opened ∧
        st' = (v.notify st i (c.onFrame S f)).2 := by
  cases e with
  | opened i =>
      obtain ⟨c, -, h⟩ := Option.bind_eq_some_iff.mp h
      obtain ⟨-, h⟩ := Option.ite_none_right_eq_some.mp h
      exact .inl (Prod.mk.inj (Option.some.inj h)).2.symm
  | frame i f =>
      obtain ⟨c, hc, h⟩ := Option.bind_eq_some_iff.mp h
      obtain ⟨hopened, h⟩ := Option.ite_none_right_eq_some.mp h
      exact .inr (.inr ⟨i, f, c, rfl, hc, hopened, (congrArg Prod.snd (Option.some.inj h)).symm⟩)
  | closed i =>
      obtain ⟨c, -, h⟩ := Option.bind_eq_some_iff.mp h
      obtain ⟨-, h⟩ := Option.ite_none_left_eq_some.mp h
      exact .inl (congrArg Prod.snd (Option.some.inj h)).symm
  | failed i =>
      obtain ⟨c, -, h⟩ := Option.bind_eq_some_iff.mp h
      obtain ⟨-, h⟩ := Option.ite_none_left_eq_some.mp h
      rw [onReport_network, ite_self] at h
      exact .inl (congrArg Prod.snd (Option.some.inj h)).symm
  | keyDerived =>
      obtain ⟨seed, -, heq⟩ := Option.map_eq_some_iff.mp h
      exact .inl (congrArg Prod.snd heq).symm
  | alive gone =>
      obtain ⟨-, h⟩ := Option.ite_none_right_eq_some.mp h
      cases gone with
      | true => exact .inr (.inl (congrArg Prod.snd (Option.some.inj h)).symm)
      | false => exact .inl (congrArg Prod.snd (Option.some.inj h)).symm
  | passwordDerived =>
      simp only [step] at h
      split at h
      · exact .inl (congrArg Prod.snd (Option.some.inj h)).symm
      · cases h
  | deleteSucceeded n =>
      obtain ⟨-, h⟩ := Option.ite_none_right_eq_some.mp h
      exact .inr (.inl (congrArg Prod.snd (Option.some.inj h)).symm)
  | timer | unreachable | typed _ | submitPassword | askDelete | cancelDelete | confirmDelete
  | deleteFailed _ _ =>
      obtain ⟨-, h⟩ := Option.ite_none_right_eq_some.mp h
      exact .inl (congrArg Prod.snd (Option.some.inj h)).symm
  | reseeded _ | destroyed =>
      obtain ⟨-, h⟩ := Option.ite_none_left_eq_some.mp h
      exact .inl (congrArg Prod.snd (Option.some.inj h)).symm

/-- An event keeps the stored key of a room, forgets it, or stores the key of a view of the room
one of whose clients is let in. -/
lemma key_step (h : v.step st S e = some (v', st')) (id : Str) :
    (st'.loadRoomEntry id).key = (st.loadRoomEntry id).key ∨ (st'.loadRoomEntry id).key = none ∨
      ∃ i f c k, e = .frame i f ∧ ChatClient.IsJoined f ∧ id = v.roomId ∧
        v.clients[i]? = some c ∧ c.readyState = .opened ∧ v.key = some k ∧
        (st'.loadRoomEntry id).key = some (bytesToHex k) := by
  rcases storage_step h with rfl | rfl | ⟨i, f, c, rfl, hc, hopened, rfl⟩
  · exact .inl rfl
  · exact (key_forgetRoom_or v st id).imp_right .inl
  · cases hr : (c.onFrame S f).2 with
    | none =>
        left
        simp only [notify, hr]
    | some r =>
        have hreport :=
          key_onReport { v with clients := v.clients.set i (c.onFrame S f).1 } st r id
        have hnotify : v.notify st i (c.onFrame S f)
            = { v with clients := v.clients.set i (c.onFrame S f).1 }.onReport st r := by
          simp only [notify, hr]
        rw [hnotify]
        refine hreport.imp_right (Or.imp_right ?_)
        rintro ⟨⟨token, rfl⟩, hid, k, hk, hsaved⟩
        have hjoined := ChatClient.isJoined_of_report hr
        exact ⟨i, f, c, k, rfl, hjoined, hid, hc, hopened, hk, hsaved⟩

/-- When a client is let in, the key of its view is stored. -/
lemma key_step_of_isJoined {i : ℕ} {f : Frame Str} {k : List UInt8}
    (hf : ChatClient.IsJoined f) (hk : v.key = some k)
    (h : v.step st S (.frame i f) = some (v', st')) :
    (st'.loadRoomEntry v.roomId).key = some (bytesToHex k) := by
  obtain ⟨c, -, h⟩ := Option.bind_eq_some_iff.mp h
  obtain ⟨-, h⟩ := Option.ite_none_right_eq_some.mp h
  obtain rfl := congrArg Prod.snd (Option.some.inj h)
  cases f with
  | joined peerId roomName token history members =>
      simp only [notify, ChatClient.onFrame, onReport, onJoined, handleJoined, hk]
      rw [Storage.key_saveRoomKey, if_pos rfl]
  | _ => exact absurd hf not_false

end ChatView

end HashHush.Web
