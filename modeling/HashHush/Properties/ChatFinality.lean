import HashHush.Properties.ChatRecovery

/-!
# Leaving and deletion are final, unless an answer comes late

A view that has been left or whose room is gone checks neither again when an await returns: a key
that is derived late and a server that turns out to be alive late spawn another client.  And a
client that joins after the view has learned that the room is deleted makes the view forget it.
`Prompt` excludes these events, and they are the only ones (`stays_iff_prompt`).
-/

namespace HashHush.Web.ChatView

open Concurrency

section Final

variable (v : ChatView)

/-- The view has been left, or its room is gone. -/
def Over : Prop := v.unmounted = true ∨ v.status = .deleted

instance : Decidable v.Over := inferInstanceAs (Decidable (_ ∨ _))

/-- No key and no sign of life is awaited longer than the view lasts, and no client joins after the
room is gone. -/
def Prompt : Event → Prop
  | .keyDerived | .passwordDerived => ¬ v.Over
  | .alive gone => gone = false → ¬ v.Over
  | .frame _ f => ChatClient.IsJoined f → v.status ≠ .deleted
  | _ => True

instance : DecidablePred v.Prompt
  | .keyDerived | .passwordDerived => inferInstanceAs (Decidable (¬ _))
  | .alive _ | .frame _ _ => inferInstanceAs (Decidable (_ → _))
  | .opened _ | .closed _ | .failed _ | .timer | .unreachable | .typed _ | .submitPassword
  | .askDelete | .cancelDelete | .confirmDelete | .deleteSucceeded _ | .deleteFailed _ _
  | .reseeded _ | .destroyed => isTrue trivial

/-- From one view to the next: if it was over no client has been spawned, and a deleted room is
still deleted. -/
def Stays (v v' : ChatView) : Prop :=
  (v.Over → v'.clients.length = v.clients.length) ∧ (v.status = .deleted → v'.status = .deleted)

variable {v} {st : Storage} {S : Sodium} {e : Event} {v' : ChatView} {st' : Storage}

/-! ## What a step does to a view that is over -/

@[simp] lemma length_closeClient : v.closeClient.clients.length = v.clients.length := by
  simp [closeClient]

@[simp] lemma length_spawnClient (isInitial : Bool) :
    (v.spawnClient st isInitial).clients.length = v.clients.length + 1 := by
  simp [spawnClient]

lemma stays_of_eq (hclients : v'.clients.length = v.clients.length) (hstatus : v'.status = v.status) :
    v.Stays v' :=
  ⟨fun _ => hclients, fun h => hstatus.trans h⟩

lemma stays_of_deleted (hclients : v'.clients.length = v.clients.length)
    (hstatus : v'.status = .deleted) : v.Stays v' :=
  ⟨fun _ => hclients, fun _ => hstatus⟩

/-- Spawning a client after the end is what must not happen. -/
lemma stays_iff_of_spawned (hclients : v'.clients.length = v.clients.length + 1) :
    v.Stays v' ↔ ¬ v.Over := by
  constructor
  · rintro ⟨hlength, -⟩ hover
    have hsame := hlength hover
    omega
  · intro hover
    exact ⟨fun h => absurd h hover, fun h => absurd (.inr h) hover⟩

/-- Only a client that joins takes a view out of `deleted`. -/
lemma deleted_onReport {r : Report} (h : v.status = .deleted) (hr : ∀ token, r ≠ .joined token) :
    (v.onReport st r).1.status = .deleted := by
  cases r with
  | joined token => exact absurd rfl (hr token)
  | deleted => rfl
  | error code =>
      simp only [onReport, onError]
      split
      · exact h
      · split <;> exact h
  | close clean =>
      have hover : v.unmounted = true ∨ v.status = .deleted := .inr h
      simp only [onReport, onClose, if_pos hover]
      exact h

lemma stays_notify {i : ℕ} {r : ChatClient × Option Report}
    (hr : ∀ token, r.2 ≠ some (.joined token)) : v.Stays (v.notify st i r).1 := by
  refine ⟨fun _ => ?_, fun hdeleted => ?_⟩
  · rw [(notify_frame v st i r).1, List.length_set]
  · unfold notify
    dsimp only
    split
    · rename_i report hreport
      have hne : ∀ token, report ≠ .joined token := fun token heq => hr token (heq ▸ hreport)
      exact deleted_onReport hdeleted hne
    · exact hdeleted

/-- A frame changes the status of a view whose room is gone if and only if it lets its client in. -/
lemma stays_frame_iff {i : ℕ} {c : ChatClient} {f : Frame Str} :
    v.Stays (v.notify st i (c.onFrame S f)).1 ↔ (ChatClient.IsJoined f → v.status ≠ .deleted) := by
  constructor
  · rintro ⟨-, hstatus⟩ hf hdeleted
    cases f with
    | joined _ _ _ _ _ =>
        have hjoined : Status.joined = Status.deleted := hstatus hdeleted
        cases hjoined
    | _ => exact hf
  · intro hf
    by_cases hjoined : ChatClient.IsJoined f
    · refine ⟨fun _ => ?_, fun hdeleted => absurd hdeleted (hf hjoined)⟩
      rw [(notify_frame v st i _).1, List.length_set]
    · exact stays_notify fun token h => hjoined (ChatClient.isJoined_of_report h)

/-- A step keeps a view that is over as it is exactly if it is prompt. -/
theorem stays_iff_prompt (h : v.step st S e = some (v', st')) : v.Stays v' ↔ v.Prompt e := by
  cases e with
  | opened i =>
      simp only [step, Option.bind_eq_some_iff, Option.ite_none_right_eq_some,
        Option.some.injEq] at h
      obtain ⟨c, -, -, heq⟩ := h
      obtain rfl := congrArg Prod.fst heq
      exact iff_of_true (stays_notify (by simp)) trivial
  | frame i f =>
      simp only [step, Option.bind_eq_some_iff, Option.ite_none_right_eq_some,
        Option.some.injEq] at h
      obtain ⟨c, -, -, heq⟩ := h
      obtain rfl := congrArg Prod.fst heq
      exact stays_frame_iff
  | closed i =>
      simp only [step, Option.bind_eq_some_iff, Option.ite_none_left_eq_some,
        Option.some.injEq] at h
      obtain ⟨c, -, -, heq⟩ := h
      obtain rfl := congrArg Prod.fst heq
      exact iff_of_true (stays_notify (by simp [ChatClient.onClose])) trivial
  | failed i =>
      simp only [step, Option.bind_eq_some_iff, Option.ite_none_left_eq_some] at h
      obtain ⟨c, -, -, h⟩ := h
      rw [onReport_network, ite_self, Option.some.injEq, Prod.mk.injEq] at h
      obtain ⟨rfl, rfl⟩ := h
      exact iff_of_true (stays_of_eq rfl rfl) trivial
  | keyDerived =>
      obtain ⟨seed, -, heq⟩ := Option.map_eq_some_iff.mp h
      obtain rfl := congrArg Prod.fst heq
      exact stays_iff_of_spawned (length_spawnClient _)
  | timer =>
      simp only [step, Option.ite_none_right_eq_some, Option.some.injEq, Prod.mk.injEq] at h
      obtain ⟨-, rfl, rfl⟩ := h
      refine iff_of_true ?_ trivial
      simp only [tryReconnect]
      split <;> exact stays_of_eq rfl rfl
  | alive gone =>
      simp only [step, Option.ite_none_right_eq_some, Option.some.injEq] at h
      obtain ⟨-, heq⟩ := h
      obtain rfl := congrArg Prod.fst heq
      cases gone with
      | true => exact iff_of_true (stays_of_deleted rfl rfl) (by simp [Prompt])
      | false =>
          refine (stays_iff_of_spawned ?_).trans (by simp [Prompt])
          simp [aliveAnswered, closeClient]
  | unreachable =>
      simp only [step, Option.ite_none_right_eq_some, Option.some.injEq, Prod.mk.injEq] at h
      obtain ⟨-, rfl, rfl⟩ := h
      refine iff_of_true ?_ trivial
      obtain ⟨timer, attempt, heq⟩ := scheduleReconnect_eq { v with probes := v.probes - 1 }
      rw [heq]
      exact stays_of_eq rfl rfl
  | typed draft =>
      simp only [step, Option.ite_none_right_eq_some, Option.some.injEq, Prod.mk.injEq] at h
      obtain ⟨-, rfl, rfl⟩ := h
      exact iff_of_true (stays_of_eq rfl rfl) trivial
  | submitPassword =>
      simp only [step, Option.ite_none_right_eq_some, Option.some.injEq, Prod.mk.injEq] at h
      obtain ⟨-, rfl, rfl⟩ := h
      refine iff_of_true ?_ trivial
      simp only [ChatView.submitPassword]
      split
      · exact stays_of_eq rfl rfl
      · split <;> exact stays_of_eq rfl rfl
  | passwordDerived =>
      simp only [step] at h
      split at h
      · obtain ⟨rfl, -⟩ : _ ∧ st = st' := by simpa using h
        refine stays_iff_of_spawned ?_
        simp [ChatView.passwordDerived, cancelReconnect, closeClient]
      · cases h
  | askDelete =>
      simp only [step, Option.ite_none_right_eq_some, Option.some.injEq, Prod.mk.injEq] at h
      obtain ⟨-, rfl, rfl⟩ := h
      exact iff_of_true (stays_of_eq rfl rfl) trivial
  | cancelDelete =>
      simp only [step, Option.ite_none_right_eq_some, Option.some.injEq, Prod.mk.injEq] at h
      obtain ⟨-, rfl, rfl⟩ := h
      exact iff_of_true (stays_of_eq rfl rfl) trivial
  | confirmDelete =>
      simp only [step, Option.ite_none_right_eq_some, Option.some.injEq, Prod.mk.injEq] at h
      obtain ⟨-, rfl, rfl⟩ := h
      refine iff_of_true ?_ trivial
      simp only [ChatView.confirmDelete]
      split
      · exact stays_of_eq rfl rfl
      · exact stays_of_eq (by simp [closeClient]) rfl
  | deleteSucceeded n =>
      simp only [step, Option.ite_none_right_eq_some, Option.some.injEq] at h
      obtain rfl := congrArg Prod.fst h.2
      exact iff_of_true (stays_of_deleted rfl rfl) trivial
  | deleteFailed n code =>
      simp only [step, Option.ite_none_right_eq_some, Option.some.injEq, Prod.mk.injEq] at h
      obtain ⟨-, rfl, rfl⟩ := h
      exact iff_of_true (stays_of_eq rfl rfl) trivial
  | reseeded seed =>
      simp only [step, Option.ite_none_left_eq_some, Option.some.injEq, Prod.mk.injEq] at h
      obtain ⟨-, rfl, rfl⟩ := h
      exact iff_of_true (stays_of_eq rfl rfl) trivial
  | destroyed =>
      simp only [step, Option.ite_none_left_eq_some, Option.some.injEq, Prod.mk.injEq] at h
      obtain ⟨-, rfl, rfl⟩ := h
      exact iff_of_true (stays_of_eq (by simp [onDestroy, closeClient]) rfl) trivial

/-! ## Leaving -/

lemma unmounted_notify {i : ℕ} {r : ChatClient × Option Report} :
    (v.notify st i r).1.unmounted = v.unmounted := by
  unfold notify
  dsimp only
  split
  · exact (onReport_frame _ st _).2.2.2.2.2.2.1
  · rfl

/-- A view is left in one way only. -/
lemma unmounted_step (h : v.step st S e = some (v', st')) :
    v'.unmounted = v.unmounted ∨ v' = v.onDestroy := by
  cases e with
  | opened i | frame i f =>
      simp only [step, Option.bind_eq_some_iff, Option.ite_none_right_eq_some,
        Option.some.injEq] at h
      obtain ⟨c, -, -, heq⟩ := h
      obtain rfl := congrArg Prod.fst heq
      exact .inl unmounted_notify
  | closed i =>
      simp only [step, Option.bind_eq_some_iff, Option.ite_none_left_eq_some,
        Option.some.injEq] at h
      obtain ⟨c, -, -, heq⟩ := h
      obtain rfl := congrArg Prod.fst heq
      exact .inl unmounted_notify
  | failed i =>
      simp only [step, Option.bind_eq_some_iff, Option.ite_none_left_eq_some] at h
      obtain ⟨c, -, -, h⟩ := h
      rw [onReport_network, ite_self, Option.some.injEq, Prod.mk.injEq] at h
      exact .inl (h.1 ▸ rfl)
  | keyDerived =>
      obtain ⟨seed, -, heq⟩ := Option.map_eq_some_iff.mp h
      exact .inl (congrArg (fun p : ChatView × Storage => p.1.unmounted) heq.symm)
  | passwordDerived =>
      simp only [step] at h
      split at h
      · obtain ⟨rfl, -⟩ : _ ∧ st = st' := by simpa using h
        exact .inl rfl
      · cases h
  | alive gone =>
      simp only [step, Option.ite_none_right_eq_some, Option.some.injEq] at h
      obtain ⟨-, heq⟩ := h
      cases gone <;> exact .inl (congrArg (fun p : ChatView × Storage => p.1.unmounted) heq.symm)
  | unreachable =>
      simp only [step, Option.ite_none_right_eq_some, Option.some.injEq, Prod.mk.injEq] at h
      obtain ⟨-, rfl, rfl⟩ := h
      obtain ⟨timer, attempt, heq⟩ := scheduleReconnect_eq { v with probes := v.probes - 1 }
      rw [heq]
      exact .inl rfl
  | timer =>
      simp only [step, Option.ite_none_right_eq_some, Option.some.injEq, Prod.mk.injEq] at h
      obtain ⟨-, rfl, rfl⟩ := h
      simp only [tryReconnect]
      split <;> exact .inl rfl
  | submitPassword =>
      simp only [step, Option.ite_none_right_eq_some, Option.some.injEq, Prod.mk.injEq] at h
      obtain ⟨-, rfl, rfl⟩ := h
      simp only [ChatView.submitPassword]
      split
      · exact .inl rfl
      · split <;> exact .inl rfl
  | confirmDelete =>
      simp only [step, Option.ite_none_right_eq_some, Option.some.injEq, Prod.mk.injEq] at h
      obtain ⟨-, rfl, rfl⟩ := h
      simp only [ChatView.confirmDelete]
      split <;> exact .inl rfl
  | deleteSucceeded n =>
      simp only [step, Option.ite_none_right_eq_some, Option.some.injEq] at h
      exact .inl (congrArg (fun p : ChatView × Storage => p.1.unmounted) h.2.symm)
  | typed _ | askDelete | cancelDelete | deleteFailed _ _ =>
      simp only [step, Option.ite_none_right_eq_some, Option.some.injEq, Prod.mk.injEq] at h
      obtain ⟨-, rfl, rfl⟩ := h
      exact .inl rfl
  | reseeded _ =>
      simp only [step, Option.ite_none_left_eq_some, Option.some.injEq, Prod.mk.injEq] at h
      obtain ⟨-, rfl, rfl⟩ := h
      exact .inl rfl
  | destroyed =>
      simp only [step, Option.ite_none_left_eq_some, Option.some.injEq, Prod.mk.injEq] at h
      obtain ⟨-, rfl, rfl⟩ := h
      exact .inr rfl

lemma not_live_closeClient (hv : v.Superseded) {w : ChatView}
    (hw : w.clients = v.closeClient.clients) : ∀ c ∈ w.clients, ¬ c.Live := by
  intro c hc
  obtain ⟨i, hi⟩ := List.mem_iff_getElem?.mp hc
  exact hv.not_live hw i c hi

/-- A step that spawns no client opens no socket. -/
lemma Rewired.not_live {p : ChatView × Storage} (h : Rewired S v st e p) (hv : v.Superseded)
    (hlength : p.1.clients.length = v.clients.length) (hquiet : ∀ c ∈ v.clients, ¬ c.Live) :
    ∀ c ∈ p.1.clients, ¬ c.Live := by
  cases h with
  | kept clients _ _ _ => rwa [clients]
  | @turned i c r hc turns =>
      intro d hd hlive
      rw [(notify_frame v st i r).1] at hd
      rcases List.mem_or_eq_of_mem_set hd with hd | rfl
      · exact hquiet d hd hlive
      · exact hquiet c (List.mem_of_getElem? hc) (turns.live hlive)
  | closed clients _ _ _ => exact not_live_closeClient hv clients
  | spawned clients _ _ =>
      rw [length_spawnClient, clients, length_closeClient] at hlength
      omega
  | mounted clients _ _ _ =>
      rw [length_spawnClient, clients] at hlength
      omega

/-- The sockets of a view that has been left are closed, or closing. -/
def Quiet (v : ChatView) : Prop := v.unmounted = true → ∀ c ∈ v.clients, ¬ c.Live

lemma Quiet.step (hv : v.Quiet) (hwired : v.Wired) (hprompt : v.Prompt e)
    (h : v.step st S e = some (v', st')) : v'.Quiet := by
  intro hunmounted
  rcases unmounted_step h with hsame | rfl
  · rw [hsame] at hunmounted
    have hlength := ((stays_iff_prompt h).mpr hprompt).1 (.inl hunmounted)
    exact (step_rewired h).not_live hwired.superseded hlength (hv hunmounted)
  · exact not_live_closeClient hwired.superseded rfl

/-- A view that is being mounted has not been left. -/
lemma unmounted_onMount (roomId seed : Str) (st : Storage) (knownDeleted : Bool) :
    (({ roomId, seed } : ChatView).onMount st knownDeleted).1.unmounted = false := by
  simp only [onMount]
  split
  · rfl
  · dsimp only
    split <;> rfl

/-- A view that is over stays as it was over any number of prompt events. -/
structure Persists (v w : ChatView) : Prop where
  /-- No client has been spawned. -/
  clients : v.Over → w.clients.length = v.clients.length
  deleted : v.status = .deleted → w.status = .deleted
  unmounted : v.unmounted = true → w.unmounted = true

lemma Persists.refl (v : ChatView) : v.Persists v := ⟨fun _ => rfl, id, id⟩

lemma Persists.step {w w' : ChatView} (hw : v.Persists w) (hprompt : w.Prompt e)
    (h : w.step st S e = some (w', st')) : v.Persists w' := by
  obtain ⟨hclients, hdeleted⟩ := (stays_iff_prompt h).mpr hprompt
  refine ⟨fun hover => ?_, fun hv => hdeleted (hw.deleted hv), fun hv => ?_⟩
  · rw [hclients (hover.imp hw.unmounted hw.deleted), hw.clients hover]
  · rcases unmounted_step h with hsame | rfl
    · rw [hsame]
      exact hw.unmounted hv
    · rfl

/-- The runs over a storage that others change too, in which every event meets a condition. -/
def Runs (S : Sodium) (guard : ChatView → Event → Prop) : ChatView → ChatView → Prop :=
  Reach (fun v (p : Storage × Event) => (v.step p.1 S p.2).map Prod.fst) fun v p => guard v p.2

lemma Runs.invariant {I : ChatView → Prop} {guard : ChatView → Event → Prop} {w : ChatView}
    (h : Runs S guard v w) (hv : I v)
    (hstep : ∀ v st e v' st', I v → guard v e → v.step st S e = some (v', st') → I v') : I w := by
  refine Reach.invariant h hv ?_
  rintro v ⟨st, e⟩ v' hI hguard hmap
  obtain ⟨⟨w, st'⟩, hw, rfl⟩ := Option.map_eq_some_iff.mp hmap
  exact hstep v st e w st' hI hguard hw

end Final

/-- As long as no awaited answer comes after the end and no client joins a deleted room, a view that
is over spawns no client, a deleted room stays deleted, and the sockets of a view that has been
left are closed or closing.  Any other event on a view that is over spawns a client or takes it out
of `deleted`. -/
theorem chat_final (S : Sodium) (roomId seed : Str) (st : Storage) (knownDeleted : Bool)
    (v : ChatView)
    (h : Runs S Prompt (({ roomId, seed } : ChatView).onMount st knownDeleted).1 v) :
    (∀ w, Runs S Prompt v w → v.Persists w ∧ w.Quiet) ∧
      ∀ st e v' st', v.step st S e = some (v', st') → (v.Stays v' ↔ v.Prompt e) := by
  have hquiet : ∀ {v w : ChatView}, Runs S Prompt v w → v.Wired ∧ v.Quiet → w.Wired ∧ w.Quiet := by
    intro v w hruns hv
    refine hruns.invariant (I := fun v => v.Wired ∧ v.Quiet) hv ?_
    rintro v st e v' st' ⟨hwired, hv⟩ hprompt hstep
    exact ⟨hwired.step hstep, hv.step hwired hprompt hstep⟩
  have hmounted : (({ roomId, seed } : ChatView).onMount st knownDeleted).1.Quiet := by
    intro hunmounted
    rw [unmounted_onMount] at hunmounted
    cases hunmounted
  have hv := hquiet h ⟨wired_onMount roomId seed st knownDeleted, hmounted⟩
  refine ⟨fun w hw => ⟨?_, (hquiet hw hv).2⟩, fun _ _ _ _ => stays_iff_prompt⟩
  refine hw.invariant (I := v.Persists) (Persists.refl v) ?_
  intro w st e w' st' hpersists hprompt hstep
  exact hpersists.step hprompt hstep

/-! ## A server that turns out to be alive too late -/

/-- The view is left while it asks whether the server is alive, which turns out to be out of
reach. -/
def Sample.leaves : Scenario
    (fun v (p : Storage × Event) => (v.step p.1 Sample.broken p.2).map Prod.fst)
    (fun v p => decide (v.Prompt p.2)) Sample.back (fun v => decide (v.unmounted = true ∧
      (replayEvents (fun v (p : Storage × Event) => (v.step p.1 Sample.broken p.2).map Prod.fst)
        (fun v p => decide (v.Prompt p.2)) v (Sample.events [.unreachable])).isSome = true)) where
  events := Sample.events [.closed 0, .timer, .destroyed]
  taken := by decide +kernel

/-- A view that is left while it asks whether the server is alive stays quiet if it learns that the
server is out of reach. -/
theorem chat_final_sample : ∃ v w : ChatView, v.unmounted = true ∧ Runs Sample.broken Prompt v w ∧
    v.Persists w ∧ w.Quiet := by
  obtain ⟨v, hreach, hv⟩ := Sample.leaves.exists_reach fun _ _ h => of_decide_eq_true h
  obtain ⟨hunmounted, hlater⟩ := of_decide_eq_true hv
  obtain ⟨w, hw⟩ := Option.isSome_iff_exists.mp hlater
  have hruns : Runs Sample.broken Prompt v w :=
    reach_of_replayEvents (fun _ _ h => of_decide_eq_true h) hw
  obtain ⟨hpersists, hquiet⟩ :=
    (chat_final Sample.broken _ _ Sample.known false v hreach).1 w hruns
  exact ⟨v, w, hunmounted, hruns, hpersists, hquiet⟩

/-- The same, but the server turns out to be alive. -/
def Sample.leavesTooEarly : Scenario
    (fun v (p : Storage × Event) => (v.step p.1 Sample.broken p.2).map Prod.fst)
    (fun _ _ => true) Sample.back (fun v => decide (v.Over ∧
      ((replayEvents (fun v (p : Storage × Event) => (v.step p.1 Sample.broken p.2).map Prod.fst)
        (fun _ _ => true) v (Sample.events [.alive false])).map fun w =>
          decide (w.clients.length = v.clients.length)) = some false)) where
  events := Sample.events [.closed 0, .timer, .destroyed]
  taken := by decide +kernel

/-- A view that is left while it asks whether the server is alive spawns a client when it learns
that it is. -/
theorem late_answer_sample : ∃ v w, Runs Sample.broken (fun _ _ => True) Sample.back v ∧
    Runs Sample.broken (fun _ _ => True) v w ∧ v.Over ∧ ¬ v.Persists w := by
  obtain ⟨v, hreach, hv⟩ := Sample.leavesTooEarly.exists_reach fun _ _ _ => trivial
  obtain ⟨hover, hlater⟩ := of_decide_eq_true hv
  obtain ⟨w, hw, hlength⟩ := Option.map_eq_some_iff.mp hlater
  have hruns : Runs Sample.broken (fun _ _ => True) v w :=
    reach_of_replayEvents (fun _ _ _ => trivial) hw
  exact ⟨v, w, hreach, hruns, hover, fun h => of_decide_eq_false hlength (h.clients hover)⟩

end HashHush.Web.ChatView
