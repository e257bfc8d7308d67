import HashHush.Web.Transcript

/-!
# Every entry of a chat stays

A view appends to its messages, and it goes over them again when a presence frame tells a nickname.
`entries_stay`: until the next join every entry keeps its place and its content, and a system entry
shows the nickname that was known when it was appended, else the first one that its peer announces
afterwards.  `presence_current`: the members and the nicknames are those that the last event about a
peer left.
-/

namespace HashHush.Web.Transcript

/-! ## What an event is about -/

/-- The client is let in, which begins a new list of messages. -/
def Event.Begins : Event → Prop
  | .callback _ (.onJoined _ _ _ _ _) => True
  | _ => False

/-- The nickname that an event announces for a peer. -/
def Event.announces (id : Str) : Event → Option JsValue
  | .callback _ (.onPresence peerId nick) => if peerId = id then known nick else none
  | _ => none

/-- The first nickname that is announced for a peer. -/
def announced (id : Str) (es : List Event) : Option JsValue :=
  (es.filterMap (Event.announces id)).head?

/-- What an event does to the entries that are there. -/
def Event.revise : Event → Entry → Entry
  | .callback _ (.onPresence peerId nick), m => patch peerId nick m
  | _, m => m

/-- The entry that an event appends. -/
def Event.entry (t : Transcript) : Event → Option Entry
  | .callback _ (.onMessage peerId fromSelf text nick ts) =>
      some (.chat (some peerId) fromSelf text nick ts)
  | .callback now (.onPeerJoin id) =>
      some (.system .join id (some ((known (t.peerNicks id)).getD .null)) now)
  | .callback now (.onPeerLeave id) =>
      some (.system .leave id (some ((known (t.peerNicks id)).getD .null)) now)
  | _ => none

/-- The event appends an entry. -/
def Event.appends (e : Event) : Bool := (e.entry { nickname := [] }).isSome

/-- Whether an event leaves a peer among the members. -/
def Event.membership (id : Str) : Event → Option Bool
  | .callback _ (.onJoined _ _ _ members _) => some (id ∈ members)
  | .callback _ (.onPeerJoin peerId) => if peerId = id then some true else none
  | .callback _ (.onPeerLeave peerId) => if peerId = id then some false else none
  | _ => none

/-- The nickname with which an event leaves a peer other than the user. -/
def Event.naming (id : Str) : Event → Option (Option JsValue)
  | .callback _ (.onMessage peerId _ _ nick _) =>
      if peerId = id ∧ peerId ≠ [] ∧ (known nick).isSome then some nick else none
  | .callback _ (.onPresence peerId nick) => if peerId = id then some nick else none
  | .callback _ (.onPeerLeave peerId) => if peerId = id then some none else none
  | _ => none

/-- The event does not make the peer the user. -/
def Event.Foreign (id : Str) : Event → Prop
  | .callback _ (.onJoined peerId _ _ _ _) => peerId ≠ id
  | _ => True

variable {t : Transcript} {e : Event} {es : List Event} {id : Str}

/-! ## Nicknames of system entries -/

lemma known_getD (nick : Option JsValue) : known (some ((known nick).getD .null)) = known nick := by
  unfold known
  cases hnick : nick.filter JsValue.isTrue with
  | none => rfl
  | some v =>
      have htrue := (Option.filter_eq_some_iff.mp hnick).2
      simp [Option.filter, htrue]

@[simp] lemma announced_cons (id : Str) (e : Event) (es : List Event) :
    announced id (e :: es) = (e.announces id).or (announced id es) := by
  unfold announced
  cases h : e.announces id <;> simp [h]

/-- A presence frame tells the nickname of an entry that has none. -/
lemma revise_system (kind : SystemKind) (id : Str) (nick : Option JsValue) (ts : ℤ) (e : Event) :
    ∃ nick', e.revise (.system kind id nick ts) = .system kind id nick' ts ∧
      known nick' = (known nick).or (e.announces id) := by
  rcases e with ⟨now, cb⟩ | draft
  · cases cb with
    | onPresence peerId n =>
        refine ⟨_, rfl, ?_⟩
        simp only [Event.announces]
        by_cases hid : id = peerId
        · cases hnick : known nick with
          | none => simp [hid]
          | some v => simp [hid, hnick]
        · simp [hid, Ne.symm hid]
    | _ => exact ⟨nick, rfl, Option.or_none.symm⟩
  · exact ⟨nick, rfl, Option.or_none.symm⟩

/-- The entries after some events. -/
def revised (es : List Event) (m : Entry) : Entry := es.foldl (fun m e => e.revise m) m

lemma revised_nil : revised [] = fun m => m := rfl

lemma revised_cons (m : Entry) : revised (e :: es) m = revised es (e.revise m) := rfl

/-- A system entry is completed by the first nickname that its peer announces. -/
lemma revised_system (kind : SystemKind) (id : Str) (nick : Option JsValue) (ts : ℤ)
    (es : List Event) : ∃ nick', revised es (.system kind id nick ts) = .system kind id nick' ts ∧
      known nick' = (known nick).or (announced id es) := by
  induction es generalizing nick with
  | nil => exact ⟨nick, rfl, Option.or_none.symm⟩
  | cons e es ih =>
      obtain ⟨nick₁, hrevise, hknown₁⟩ := revise_system kind id nick ts e
      obtain ⟨nick₂, hrevised, hknown₂⟩ := ih nick₁
      refine ⟨nick₂, ?_, ?_⟩
      · rw [revised_cons, hrevise, hrevised]
      · rw [hknown₂, hknown₁, announced_cons, Option.or_assoc]

/-- A chat entry is never revised. -/
lemma revised_chat (peerId : Option Str) (self : Bool) (text nick : Option JsValue) (ts : ℤ)
    (es : List Event) :
    revised es (.chat peerId self text nick ts) = .chat peerId self text nick ts := by
  induction es with
  | nil => rfl
  | cons e es ih =>
      rw [revised_cons]
      have hkept : e.revise (.chat peerId self text nick ts) = .chat peerId self text nick ts := by
        rcases e with ⟨now, cb⟩ | draft
        · cases cb <;> rfl
        · rfl
      rw [hkept, ih]

/-! ## The messages after some events -/

lemma messages_step (he : ¬ e.Begins) :
    (t.step e).messages = t.messages.map e.revise ++ (e.entry t).toList := by
  have hid : t.messages = t.messages.map fun m => m := (List.map_id' _).symm
  rcases e with ⟨now, cb⟩ | draft
  · cases cb with
    | onJoined => exact absurd trivial he
    | onPresence peerId nick => exact (List.append_nil _).symm
    | onDeleted | onError _ => exact hid.trans (List.append_nil _).symm
    | onMessage | onPeerJoin | onPeerLeave => exact congrArg (· ++ _) hid
  · have hkept : (t.commitNick draft).messages = t.messages := by
      rw [commitNick]
      split <;> rfl
    exact (hkept.trans hid).trans (List.append_nil _).symm

lemma isSome_entry (t : Transcript) (e : Event) : (e.entry t).isSome = e.appends := by
  rcases e with ⟨now, cb⟩ | draft
  · cases cb <;> rfl
  · rfl

lemma run_cons (t : Transcript) (e : Event) (es : List Event) :
    t.run (e :: es) = (t.step e).run es := rfl

lemma run_append (t : Transcript) (es es' : List Event) :
    t.run (es ++ es') = (t.run es).run es' := List.foldl_append

/-- What is there is revised in place, and the rest is appended. -/
lemma messages_run (hes : ∀ e ∈ es, ¬ e.Begins) :
    ∃ new, (t.run es).messages = t.messages.map (revised es) ++ new ∧
      new.length = es.countP Event.appends := by
  induction es generalizing t with
  | nil => exact ⟨[], by simp [run, revised_nil], rfl⟩
  | cons e es ih =>
      obtain ⟨he, hes⟩ := List.forall_mem_cons.mp hes
      obtain ⟨new, hnew, hlen⟩ := ih (t := t.step e) hes
      refine ⟨(e.entry t).toList.map (revised es) ++ new, ?_, ?_⟩
      · rw [run_cons, hnew, messages_step he, List.map_append, List.map_map, List.append_assoc]
        rfl
      · rw [List.length_append, List.length_map, hlen, List.countP_cons, ← isSome_entry t e]
        cases e.entry t with
        | none => simp
        | some m => simp [Nat.add_comm]

/-- An entry that is there keeps its place. -/
lemma getElem?_run (hes : ∀ e ∈ es, ¬ e.Begins) {i : ℕ} {m : Entry}
    (hm : t.messages[i]? = some m) : (t.run es).messages[i]? = some (revised es m) := by
  obtain ⟨new, hnew, -⟩ := messages_run (t := t) hes
  obtain ⟨hi, -⟩ := List.getElem?_eq_some_iff.mp hm
  rw [hnew, List.getElem?_append_left (by simpa using hi), List.getElem?_map, hm]
  rfl

/-- The entry of an event stands behind the ones before it. -/
lemma getElem?_entry (he : ¬ e.Begins) (hes : ∀ e ∈ es, ¬ e.Begins) {m : Entry}
    (hm : e.entry t = some m) :
    (t.run (e :: es)).messages[t.messages.length]? = some (revised es m) := by
  refine getElem?_run hes ?_
  rw [messages_step he, hm, List.getElem?_append_right (by simp)]
  simp

/-- What a transcript shows for good of the events that came between `es` and `es'`. -/
structure Stays (t : Transcript) (es es' : List Event) : Prop where
  history : ∀ now peerId token roomName members (history : List HistoryItem),
    let after := t.run (es ++ .callback now (.onJoined peerId token roomName members history) :: es')
    (∀ (i : ℕ) m, history[i]? = some m → after.messages[i]? = some m.entry) ∧
      after.messages.length = history.length + es'.countP Event.appends
  message : ∀ now peerId fromSelf text nick ts,
    (t.run (es ++ .callback now (.onMessage peerId fromSelf text nick ts) :: es')).messages[
      (t.run es).messages.length]? = some (.chat (some peerId) fromSelf text nick ts)
  join : ∀ now id, ∃ nick,
    (t.run (es ++ .callback now (.onPeerJoin id) :: es')).messages[(t.run es).messages.length]?
        = some (.system .join id nick now) ∧
      known nick = (known ((t.run es).peerNicks id)).or (announced id es')
  leave : ∀ now id, ∃ nick,
    (t.run (es ++ .callback now (.onPeerLeave id) :: es')).messages[(t.run es).messages.length]?
        = some (.system .leave id nick now) ∧
      known nick = (known ((t.run es).peerNicks id)).or (announced id es')
  length : (t.run (es ++ es')).messages.length
    = (t.run es).messages.length + es'.countP Event.appends

/-- The entry of a peer's coming or going. -/
lemma system_entry (hes : ∀ e ∈ es, ¬ e.Begins) (he : ¬ e.Begins) {kind : SystemKind} {now : ℤ}
    (hentry : e.entry t = some (.system kind id (some ((known (t.peerNicks id)).getD .null)) now)) :
    ∃ nick, (t.run (e :: es)).messages[t.messages.length]? = some (.system kind id nick now) ∧
      known nick = (known (t.peerNicks id)).or (announced id es) := by
  obtain ⟨nick, hrevised, hknown⟩ :=
    revised_system kind id (some ((known (t.peerNicks id)).getD .null)) now es
  refine ⟨nick, ?_, ?_⟩
  · rw [getElem?_entry he hes hentry, hrevised]
  · rw [hknown, known_getD]

/-- **Every entry stays until the next join**: messages as they came, the comings and goings of
peers under the nickname that was known then or that is announced next, and nothing else. -/
theorem entries_stay (t : Transcript) (es : List Event) {es' : List Event}
    (hes : ∀ e ∈ es', ¬ e.Begins) : Stays t es es' where
  history := by
    intro now peerId token roomName members history
    simp only [run_append, run_cons]
    obtain ⟨new, hnew, hlen⟩ := messages_run
      (t := (t.run es).step (.callback now (.onJoined peerId token roomName members history))) hes
    have hmessages : ((t.run es).step (.callback now
        (.onJoined peerId token roomName members history))).messages
          = history.map HistoryItem.entry := rfl
    refine ⟨fun i m hm => ?_, ?_⟩
    · rw [getElem?_run hes (m := m.entry) (by rw [hmessages, List.getElem?_map, hm]; rfl)]
      exact congrArg some (revised_chat _ _ _ _ _ _)
    · rw [hnew, List.length_append, List.length_map, hmessages, List.length_map, hlen]
  message := by
    intro now peerId fromSelf text nick ts
    have he : ¬ (Event.callback now (.onMessage peerId fromSelf text nick ts)).Begins := not_false
    rw [run_append, getElem?_entry he hes rfl, revised_chat]
  join := by
    intro now id
    have he : ¬ (Event.callback now (.onPeerJoin id)).Begins := not_false
    rw [run_append]
    exact system_entry hes he rfl
  leave := by
    intro now id
    have he : ¬ (Event.callback now (.onPeerLeave id)).Begins := not_false
    rw [run_append]
    exact system_entry hes he rfl
  length := by
    obtain ⟨new, hnew, hlen⟩ := messages_run (t := t.run es) hes
    rw [run_append, hnew, List.length_append, List.length_map, hlen]

/-- A peer that comes without a nickname, says something and announces a nickname. -/
theorem entries_stay_sample : ∃ nick,
    (({ nickname := [] } : Transcript).run [.callback 7 (.onPeerJoin (ascii "peer")),
      .callback 8 (.onMessage (ascii "peer") false none none 8),
      .callback 9 (.onPresence (ascii "peer") (some (.string [65])))]).messages[0]?
        = some (.system .join (ascii "peer") nick 7) ∧ known nick = some (.string [65]) := by
  have hstays : Stays { nickname := [] } [] [.callback 8 (.onMessage (ascii "peer") false none none 8),
      .callback 9 (.onPresence (ascii "peer") (some (.string [65])))] :=
    entries_stay _ _ (by simp [Event.Begins])
  obtain ⟨nick, hentry, hknown⟩ := hstays.join 7 (ascii "peer")
  refine ⟨nick, hentry, ?_⟩
  rw [hknown, announced_cons, announced_cons]
  simp [known, run, Event.announces, JsValue.isTrue]

/-! ## Members and nicknames -/

/-- A variable that every event either sets or leaves alone holds what was set last. -/
lemma foldl_eq_last {σ ε α : Type} {f : σ → ε → σ} {g : σ → α} {set : ε → Option α}
    {I : σ → Prop} {es : List ε}
    (h : ∀ s, I s → ∀ e ∈ es, I (f s e) ∧ g (f s e) = (set e).getD (g s)) {s : σ} (hs : I s) :
    g (es.foldl f s) = ((es.filterMap set).getLast?).getD (g s) := by
  induction es generalizing s with
  | nil => rfl
  | cons e es ih =>
      obtain ⟨hkept, hget⟩ := h s hs e List.mem_cons_self
      have hlast := ih (fun s hs e he => h s hs e (List.mem_cons_of_mem _ he)) hkept
      rw [List.foldl_cons, hlast, hget, List.filterMap_cons]
      cases set e with
      | none => rfl
      | some a =>
          rw [List.getLast?_cons]
          rfl

lemma mem_members_step (t : Transcript) (e : Event) (id : Str) :
    decide (id ∈ (t.step e).members) = (e.membership id).getD (decide (id ∈ t.members)) := by
  rcases e with ⟨now, cb⟩ | draft
  · cases cb with
    | onPeerJoin peerId =>
        simp only [step, onCallback, onPeerJoin, appendSystemEvent, Event.membership]
        by_cases hid : peerId = id
        · subst hid
          by_cases hmem : peerId ∈ t.members <;> simp [hmem]
        · by_cases hmem : peerId ∈ t.members <;> simp [hmem, hid, Ne.symm hid]
    | onPeerLeave peerId =>
        simp only [step, onCallback, onPeerLeave, appendSystemEvent, Event.membership]
        by_cases hid : peerId = id
        · simp [hid]
        · simp [hid, Ne.symm hid]
    | _ => rfl
  · have hkept : (t.commitNick draft).members = t.members := by
      rw [commitNick]
      split <;> rfl
    simp only [step, hkept, Event.membership, Option.getD_none]

lemma nodup_members_step (ht : t.members.Nodup)
    (he : ∀ now peerId token roomName members history,
      e = .callback now (.onJoined peerId token roomName members history) → members.Nodup) :
    (t.step e).members.Nodup := by
  rcases e with ⟨now, cb⟩ | draft
  · cases cb with
    | onJoined => exact he _ _ _ _ _ _ rfl
    | onPeerJoin peerId =>
        simp only [step, onCallback, onPeerJoin, appendSystemEvent]
        split
        · exact ht
        · exact List.nodup_append.mpr ⟨ht, List.nodup_singleton _, by simp; grind⟩
    | onPeerLeave peerId => exact ht.filter _
    | _ => exact ht
  · have hkept : (t.commitNick draft).members = t.members := by
      rw [commitNick]
      split <;> rfl
    exact hkept ▸ ht

/-- What an event does to the nickname of a peer that is not the user. -/
lemma peerNicks_step (ht : t.myPeerId ≠ some id) (he : e.Foreign id) :
    (t.step e).myPeerId ≠ some id ∧
      (t.step e).peerNicks id = (e.naming id).getD (t.peerNicks id) := by
  rcases e with ⟨now, cb⟩ | draft
  · cases cb with
    | onJoined peerId token roomName members history =>
        have hne : peerId ≠ id := he
        exact ⟨fun h => hne (Option.some.inj h), Function.update_of_ne hne.symm _ _⟩
    | onMessage peerId self text nick ts =>
        refine ⟨ht, ?_⟩
        simp only [step, onCallback, handleMessage, Event.naming]
        by_cases hid : peerId = id
        · by_cases hnamed : peerId ≠ [] ∧ (known nick).isSome
          · rw [if_pos hnamed, if_pos ⟨hid, hnamed⟩, hid, Function.update_self, Option.getD_some]
          · rw [if_neg hnamed, if_neg fun h => hnamed h.2, Option.getD_none]
        · have hother : ¬ (peerId = id ∧ peerId ≠ [] ∧ (known nick).isSome) := fun h => hid h.1
          rw [if_neg hother, Option.getD_none]
          split
          · exact Function.update_of_ne (Ne.symm hid) _ _
          · rfl
    | onPresence peerId nick =>
        refine ⟨ht, ?_⟩
        simp only [step, onCallback, onPresence, Event.naming]
        by_cases hid : peerId = id
        · simp [hid]
        · simp [hid, Function.update_of_ne (Ne.symm hid)]
    | onPeerLeave peerId =>
        refine ⟨ht, ?_⟩
        simp only [step, onCallback, onPeerLeave, appendSystemEvent, Event.naming]
        by_cases hid : peerId = id
        · simp [hid]
        · simp [hid, Function.update_of_ne (Ne.symm hid)]
    | onPeerJoin | onDeleted | onError _ => exact ⟨ht, rfl⟩
  · show (t.commitNick draft).myPeerId ≠ some id ∧ (t.commitNick draft).peerNicks id = t.peerNicks id
    rw [commitNick]
    split
    · refine ⟨ht, ?_⟩
      cases hmy : t.myPeerId with
      | none => rfl
      | some peerId =>
          have hne : id ≠ peerId := fun h => ht (hmy.trans (congrArg some h.symm))
          dsimp only
          split
          · exact Function.update_of_ne hne _ _
          · rfl
    · exact ⟨ht, rfl⟩

/-- What a transcript knows of the peers after some events. -/
structure Current (t : Transcript) (es : List Event) : Prop where
  members : ∀ id, decide (id ∈ (t.run es).members)
    = ((es.filterMap (Event.membership id)).getLast?).getD (decide (id ∈ t.members))
  /-- No member is listed twice, if the lists of members that the server sends name nobody twice. -/
  nodup : t.members.Nodup → (∀ now peerId token roomName members history,
    .callback now (.onJoined peerId token roomName members history) ∈ es → members.Nodup) →
      (t.run es).members.Nodup
  /-- The nickname of a peer that the user never was. -/
  nicknames : ∀ id, t.myPeerId ≠ some id → (∀ e ∈ es, e.Foreign id) →
    (t.run es).peerNicks id = ((es.filterMap (Event.naming id)).getLast?).getD (t.peerNicks id)

/-- **Members and nicknames are current**: those that the last event about a peer left. -/
theorem presence_current (t : Transcript) (es : List Event) : Current t es where
  members id := foldl_eq_last (I := fun _ => True)
    (g := fun t : Transcript => decide (id ∈ t.members))
    (fun t _ e _ => ⟨trivial, mem_members_step t e id⟩) trivial
  nodup ht hes := by
    induction es generalizing t with
    | nil => exact ht
    | cons e es ih =>
        refine ih (t.step e) (nodup_members_step ht ?_) fun now peerId token roomName members history h =>
          hes now peerId token roomName members history (List.mem_cons_of_mem _ h)
        rintro now peerId token roomName members history rfl
        exact hes _ _ _ _ _ _ List.mem_cons_self
  nicknames id hid hforeign := by
    have hstep : ∀ t : Transcript, t.myPeerId ≠ some id → ∀ e ∈ es,
        (t.step e).myPeerId ≠ some id ∧
          (t.step e).peerNicks id = (e.naming id).getD (t.peerNicks id) := by
      intro t ht e he
      exact peerNicks_step ht (hforeign e he)
    exact foldl_eq_last (g := fun t : Transcript => t.peerNicks id) hstep hid

/-- A peer comes twice, speaks under a nickname and changes it. -/
def Sample.visit : List Event :=
  [.callback 7 (.onPeerJoin (ascii "peer")),
    .callback 8 (.onMessage (ascii "peer") false none (some (.string [65])) 8),
    .callback 8 (.onPeerJoin (ascii "peer")),
    .callback 9 (.onPresence (ascii "peer") (some (.string [66])))]

/-- The peer is a member, once, and has its later nickname. -/
theorem presence_current_sample :
    ascii "peer" ∈ (({ nickname := [] } : Transcript).run Sample.visit).members ∧
      (({ nickname := [] } : Transcript).run Sample.visit).members.Nodup ∧
      (({ nickname := [] } : Transcript).run Sample.visit).peerNicks (ascii "peer")
        = some (.string [66]) := by
  have hcurrent : Current { nickname := [] } Sample.visit := presence_current _ _
  refine ⟨?_, hcurrent.nodup List.nodup_nil (by simp [Sample.visit]), ?_⟩
  · exact of_decide_eq_true ((hcurrent.members (ascii "peer")).trans (by decide +kernel))
  · rw [hcurrent.nicknames (ascii "peer") (by simp) (by simp [Sample.visit, Event.Foreign])]
    simp [Sample.visit, Event.naming, known]

end HashHush.Web.Transcript
