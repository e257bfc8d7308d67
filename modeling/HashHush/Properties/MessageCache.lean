import HashHush.Properties.Deletion

/-!
# The message cache

`closeRoom` forgets the cached messages of a room because the room is about to go.  Nothing
looks at them again afterwards: a message that is relayed later, by a peer that is still
registered, makes a new entry, which stays.  `cached_after_deletion` is such a run.

A removal is in progress from its `closeRoom` to its `deleteRoom`.  If messages are cached only
for rooms that exist and that no removal is in progress for, every entry of the cache belongs to
a room that exists (`cached_rooms_exist`).
-/

namespace HashHush

open Concurrency System

/-! ## A removal empties the cache before it removes the room -/

/-- Among these calls the room has been closed and not been deleted since. -/
def Emptied (r : Str) (es : List (Called (signature Str))) : Prop :=
  ∃ pre cs post, es = pre ++ ⟨.closeRoom r, cs⟩ :: post ∧ ∀ e ∈ post, e.1 ≠ .deleteRoom r

lemma Emptied.snoc {r : Str} {es : List (Called (signature Str))} (h : Emptied r es)
    {e : Called (signature Str)} (he : e.1 ≠ .deleteRoom r) : Emptied r (es ++ [e]) := by
  obtain ⟨pre, cs, post, rfl, hpost⟩ := h
  refine ⟨pre, cs, post ++ [e], by simp, fun f hf => ?_⟩
  rcases List.mem_append.mp hf with hf | hf
  · exact hpost f hf
  · rw [List.mem_singleton.mp hf]
    exact he

/-- A room becomes closed by `closeRoom` only. -/
lemma Emptied.of_snoc {r : Str} {es : List (Called (signature Str))} {e : Called (signature Str)}
    (h : Emptied r (es ++ [e])) : Emptied r es ∨ e.1 = .closeRoom r := by
  obtain ⟨pre, cs, post, heq, hpost⟩ := h
  rcases List.eq_nil_or_concat post with rfl | ⟨post, e', rfl⟩
  · obtain ⟨-, hlast⟩ := List.append_inj' heq rfl
    exact .inr (congrArg Sigma.fst (List.cons.inj hlast).1)
  · have heq : es ++ [e] = (pre ++ ⟨.closeRoom r, cs⟩ :: post) ++ [e'] := by simpa using heq
    refine .inl ⟨pre, cs, post, (List.append_inj' heq rfl).1, fun f hf => ?_⟩
    exact hpost f (by simp [hf])

/-- A room is deleted by a task that has closed it. -/
def removalPre : Op Str → List (Called (signature Str)) → Prop
  | .deleteRoom r, es => Emptied r es
  | _, _ => True

/-- The specification of a task with respect to removals. -/
abbrev removal : Spec (signature Str) (List (Called (signature Str))) :=
  .traced removalPre fun _ _ => True

section Wp

variable {s : List (Called (signature Str))}

/-- A program without `deleteRoom` meets it. -/
lemma removal_of_only {p : Handler Str Unit} (hp : p.Only fun o : Op Str => ∀ r, o ≠ .deleteRoom r) :
    p.Wp removal (fun _ _ => True) s := by
  refine hp.wp_traced (J := fun _ => True) (fun o s ho _ => ?_) (fun _ _ _ _ _ => trivial)
    (fun _ _ _ => trivial) trivial
  cases o with
  | deleteRoom r => exact absurd rfl (ho r)
  | _ => trivial

lemma removeRoom_removal (id : Str) : (removeRoom id).Wp removal (fun _ _ => True) s := by
  refine Prog.Wp.bind (.traced trivial fun cs _ => ?_)
  have hempty : Emptied id (s ++ [⟨.closeRoom id, cs⟩]) := ⟨s, cs, [], rfl, by simp⟩
  have hsends : (closeEach (π := Str) .deleted cs).Only fun o : Op Str =>
      (∃ c f, o = .sendText c f) ∨ ∃ c reason, o = .close c reason :=
    closeEach_only (fun c => .inl ⟨c, _, rfl⟩) (fun c reason => .inr ⟨c, reason, rfl⟩) cs
  refine hsends.wp_traced (J := Emptied id) ?_ ?_ ?_ hempty
  · rintro _ s (⟨c, f, rfl⟩ | ⟨c, reason, rfl⟩) _ <;> trivial
  · rintro _ r s (⟨c, f, rfl⟩ | ⟨c, reason, rfl⟩) h <;> exact h.snoc (by simp)
  · intro out s h
    cases out with
    | error e => trivial
    | ok a => exact .traced h fun _ _ => trivial

/-- Every program of the server closes a room before it deletes it. -/
theorem program_removal (cfg : Config) (secret : List UInt8) (t : Task) (i : Input) :
    (program cfg secret t i).Wp removal (fun _ _ => True) s := by
  have hplain : ∀ {s : List (Called (signature Str))} (p : Handler Str Unit), p.Only Op.Plain →
      p.Wp removal (fun _ _ => True) s := by
    intro s p hp
    refine removal_of_only (hp.mono fun o ho r => ?_)
    rintro rfl
    exact ho
  match t, i with
  | .http n, .deleteRoom id none => exact hplain _ (jsonError_plain n _)
  | .http n, .deleteRoom id (some body) =>
      refine .ofExcept (fun token _ => ?_) fun _ _ => trivial
      refine .ite (fun _ => hplain _ (jsonError_plain n _)) fun _ => ?_
      refine .traced trivial fun owner _ => .ite (fun _ => ?_) fun _ => ?_
      · refine Prog.Wp.bind ((removeRoom_removal id).mono fun out s _ => ?_)
        cases out with
        | error e => trivial
        | ok a => exact removal_of_only (.perform (by simp))
      · exact hplain _ (jsonError_plain n _)
  | .purger, .purge =>
      refine .traced trivial fun now _ => .traced trivial fun stale _ => ?_
      generalize s ++ [_] ++ [_] = s
      induction stale generalizing s with
      | nil => trivial
      | cons id ids ih =>
          refine Prog.Wp.bind ((removeRoom_removal id).mono fun out s _ => ?_)
          cases out with
          | error e => trivial
          | ok a => exact ih _
  | .http n, .activate id body =>
      refine removal_of_only ((activate_ofActivate n cfg id body).mono fun o ho r => ?_)
      rintro rfl
      exact ho
  | .ws c, i =>
      refine removal_of_only ((program_of cfg secret (.ws c) i).mono fun o ho r => ?_)
      rintro rfl
      exact ho
  | .http n, .getPowChallenge => exact hplain _ (getPowChallenge_plain n cfg secret)
  | .http n, .postRooms body => exact hplain _ (postRooms_plain n cfg secret body)
  | .http n, .isAlive body => exact hplain _ (isAlive_plain n body)
  | .http _, .opened _ | .http _, .message _ | .http _, .closed | .http _, .purge => trivial
  | .purger, .opened _ | .purger, .message _ | .purger, .closed | .purger, .getPowChallenge
  | .purger, .postRooms _ | .purger, .activate _ _ | .purger, .isAlive _
  | .purger, .deleteRoom _ _ => trivial

end Wp

/-! ## The entries of the cache -/

section Run

variable {cfg : Config} {secret : List UInt8} {db : Database} {clock : ℤ}
variable {ok : List (server cfg secret).Transition → (server cfg secret).Transition → Prop}
variable {h : List (server cfg secret).Transition} {conf conf' : State} {r : Str}

/-- A removal of the room is in progress: some task has closed it and not deleted it since. -/
def Removing (r : Str) (h : List (server cfg secret).Transition) : Prop :=
  ∃ t : Task, Emptied r (calls (M := server cfg secret) t h)

/-- A message is cached only for a room that exists and that no removal is in progress for. -/
def Anchored (h : List (server cfg secret).Transition) (m : (server cfg secret).Transition) :
    Prop :=
  ∀ t r sender payload n a, m.Calls t (.appendCachedMessage r sender payload n) a → 0 < n →
    r ∈ m.pre.world.db.roomIds ∧ ¬ Removing r h

/-- A removal begins with `closeRoom`. -/
lemma Removing.of_snoc {m : (server cfg secret).Transition} (hrem : Removing r (h ++ [m])) :
    Removing r h ∨ ∃ t cs, m.Calls t (.closeRoom r) cs := by
  obtain ⟨t, ht⟩ := hrem
  rw [calls_snoc] at ht
  cases hm : m.called t with
  | none =>
      rw [hm, Option.toList_none, List.append_nil] at ht
      exact .inl ⟨t, ht⟩
  | some e =>
      rw [hm, Option.toList_some] at ht
      rcases ht.of_snoc with ht | he
      · exact .inl ⟨t, ht⟩
      · obtain ⟨o, a⟩ := e
        obtain rfl : o = .closeRoom r := he
        exact .inr ⟨t, a, called_iff.mp hm⟩

/-- In every run a room is deleted while a removal of it is in progress. -/
theorem removing_of_deleteRoom (hr : Run (M := server cfg secret) ok (boot db clock) h conf)
    {t : Task} {k : Bool → Handler Str Unit} (ht : conf.task t = some (.call (.deleteRoom r) k)) :
    Removing r h := by
  have hserves : Serves (M := server cfg secret) removal (fun _ => True) (conf.task t)
      (calls (M := server cfg secret) t h) := by
    refine hr.traced (M := server cfg secret) t ?_ ?_ ?_
    · trivial
    · exact fun _ _ i _ _ _ _ => program_removal cfg secret t i
    · exact fun _ _ _ _ _ _ _ _ _ _ _ => trivial
  exact ⟨t, hserves.pre ht⟩

/-- What the condition keeps: a cached entry belongs to a room, and there is none while a removal
of the room is in progress. -/
structure Kept (h : List (server cfg secret).Transition) (conf : State) : Prop where
  exist : ∀ r, conf.world.mgr.msgCache r ≠ none → r ∈ conf.world.db.roomIds
  emptied : ∀ r, Removing r h → conf.world.mgr.msgCache r = none

/-- Nothing changes for the cache in a transition without calls. -/
lemma Kept.idle {m : (server cfg secret).Transition} (hk : Kept h conf)
    (hcache : conf'.world.mgr.msgCache = conf.world.mgr.msgCache)
    (hids : conf'.world.db.roomIds = conf.world.db.roomIds) (hm : ∀ t o a, ¬ m.Calls t o a) :
    Kept (h ++ [m]) conf' where
  exist r hne := by
    rw [hids]
    exact hk.exist r (hcache ▸ hne)
  emptied r hrem := by
    rw [hcache]
    rcases hrem.of_snoc with hrem | ⟨t, cs, hcall⟩
    · exact hk.emptied r hrem
    · exact absurd hcall (hm t _ _)

lemma Kept.call (hr : Run (M := server cfg secret) ok (boot db clock) h conf) (hk : Kept h conf)
    {t : Task} {x : Choice} (hs : step (M := server cfg secret) conf (.advance t x) = some conf')
    (hm : Anchored h (⟨conf, .advance t x, conf'⟩ : (server cfg secret).Transition)) :
    Kept (h ++ [(⟨conf, .advance t x, conf'⟩ : (server cfg secret).Transition)]) conf' := by
  obtain ⟨o, k, ht, rfl⟩ := step_advance hs
  -- the rooms that go have no entry, as their removal is in progress
  have hexist : ∀ r, conf.world.mgr.msgCache r ≠ none →
      r ∈ (exec o x conf.world).2.db.roomIds := by
    intro r hne
    have hin := hk.exist r hne
    rcases exec_roomIds o x conf.world with heq | ⟨row, -, heq⟩ | ⟨id, rfl, -, heq⟩
    · exact heq ▸ hin
    · exact heq ▸ List.mem_append_left _ hin
    · rw [heq]
      have hid : r ≠ id := by
        rintro rfl
        exact hne (hk.emptied r (removing_of_deleteRoom hr ht))
      exact List.mem_filter.mpr ⟨hin, by simpa using hid⟩
  rcases exec_msgCache o x conf.world with heq | ⟨r, sender, payload, n, l, rfl, hn, heq⟩ |
    ⟨r, rfl, heq⟩
  · refine ⟨fun r hne => hexist r (heq ▸ hne), fun r hrem => ?_⟩
    refine (congrFun heq r).trans ?_
    rcases hrem.of_snoc with hrem | ⟨u, cs, hcall⟩
    · exact hk.emptied r hrem
    · obtain ⟨-, rfl⟩ := hcall.eq_of_advance ht
      have hnone : (exec (Op.closeRoom r) x conf.world).2.mgr.msgCache r = none := by
        simp [exec, RoomManager.closeRoom]
      exact (congrFun heq r).symm.trans hnone
  · obtain ⟨hin, hquiet⟩ := hm t r sender payload n () ⟨x, k, rfl, ht, rfl⟩ hn
    refine ⟨fun r' hne => ?_, fun r' hrem => ?_⟩
    · by_cases hr' : r' = r
      · exact hr' ▸ hin
      · refine hexist r' fun hnone => hne ?_
        exact (congrFun heq r').trans (by rw [Function.update_of_ne hr', hnone])
    · rcases hrem.of_snoc with hrem | ⟨u, cs, hcall⟩
      · have hr' : r' ≠ r := fun e => hquiet (e ▸ hrem)
        exact (congrFun heq r').trans (by rw [Function.update_of_ne hr', hk.emptied r' hrem])
      · cases (hcall.eq_of_advance ht).2
  · refine ⟨fun r' hne => ?_, fun r' hrem => ?_⟩
    · by_cases hr' : r' = r
      · subst hr'
        exact absurd ((congrFun heq r').trans (Function.update_self ..)) hne
      · refine hexist r' fun hnone => hne ?_
        exact (congrFun heq r').trans (by rw [Function.update_of_ne hr', hnone])
    · refine (congrFun heq r').trans ?_
      by_cases hr' : r' = r
      · rw [hr', Function.update_self]
      · rw [Function.update_of_ne hr']
        rcases hrem.of_snoc with hrem | ⟨u, cs, hcall⟩
        · exact hk.emptied r' hrem
        · have he : r' = r := by simpa using (hcall.eq_of_advance ht).2
          exact absurd he hr'

theorem kept_of_run (hr : Run (M := server cfg secret) Anchored (boot db clock) h conf) :
    Kept h conf := by
  refine hr.invariant (I := fun h (conf : State) => Kept h conf) ?_ ?_
  · exact ⟨fun r hne => absurd rfl hne, fun _ _ => rfl⟩
  · intro h conf l conf' hr ih hs hm
    cases l with
    | start t i =>
        obtain ⟨-, -, rfl⟩ := step_start hs
        refine ih.idle rfl rfl fun _ _ _ hcall => ?_
        obtain ⟨⟨x, hl⟩, -⟩ := hcall.inv
        cases hl
    | env e =>
        obtain ⟨w, hw, rfl⟩ := step_env hs
        have hmgr : w.mgr = conf.world.mgr := ambient_mgr hw
        have hdb : w.db = conf.world.db := ambient_db hw
        refine ih.idle (congrArg _ hmgr) (congrArg _ hdb) fun _ _ _ hcall => ?_
        obtain ⟨⟨x, hl⟩, -⟩ := hcall.inv
        cases hl
    | advance t x => exact ih.call hr hs hm

/-- **No cached message outlives its room**, if messages are cached only for rooms that exist and
that no removal is in progress for: in every state every entry of the cache belongs to a room
that is in the store. -/
theorem cached_rooms_exist (hr : Run (M := server cfg secret) Anchored (boot db clock) h conf) :
    ∀ r, conf.world.mgr.msgCache r ≠ none → r ∈ conf.world.db.roomIds :=
  (kept_of_run hr).exist

end Run

/-- A chat message. -/
def Sample.chat : Input := Sample.frame [("type", "msg"), ("payload", "text")]

/-- A test for transitions that cache a message only before any room is closed. -/
def anchoredTest (h : List (server {} Sample.secret).Transition)
    (m : (server {} Sample.secret).Transition) : Bool :=
  match m.label with
  | .advance t _ =>
      match m.pre.task t with
      | some (.call (.appendCachedMessage r _ _ _) _) =>
          r ∈ m.pre.world.db.roomIds && h.all fun m' => (closing m').isNone
      | _ => true
  | _ => true

lemma anchored_of_test {h : List (server {} Sample.secret).Transition}
    {m : (server {} Sample.secret).Transition} (hm : anchoredTest h m = true) : Anchored h m := by
  rintro t r sender payload n a ⟨x, k, hl, ht, -⟩ -
  simp only [anchoredTest, hl, ht, Bool.and_eq_true, decide_eq_true_eq] at hm
  refine ⟨hm.1, ?_⟩
  rintro ⟨u, pre, cs, post, heq, -⟩
  have hmem : ⟨.closeRoom r, cs⟩ ∈ calls (M := server {} Sample.secret) u h := by simp [heq]
  obtain ⟨m', hm', x', k', hl', hu, -⟩ := mem_calls.mp hmem
  have hnone := List.all_eq_true.mp hm.2 m' hm'
  simp [closing, hl', hu] at hnone

/-- A message is sent, and then the room is deleted. -/
def Sample.chatsAndDeletes : Script (M := server {} Sample.secret)
    (boot (Sample.store 2 [] [Sample.token]) 0) anchoredTest
    (fun h conf => (conf.world.db.findRoom Sample.room).isNone &&
      h.any fun m => (m.post.world.mgr.msgCache Sample.room).isSome) where
  labels := Sample.opening 0 ++ Sample.joining 0 Sample.token 9 ++ Sample.handle (.ws 0) Sample.chat 6
    ++ Sample.handle (.http 0) Sample.deletion 6
  performed := by decide +kernel

/-- A room goes with the message that was cached for it. -/
theorem cached_rooms_exist_sample : ∃ (h : List (server {} Sample.secret).Transition)
    (conf : State), conf.world.db.findRoom Sample.room = none ∧
      (∃ m ∈ h, (m.post.world.mgr.msgCache Sample.room).isSome = true) ∧
      ∀ r, conf.world.mgr.msgCache r ≠ none → r ∈ conf.world.db.roomIds := by
  obtain ⟨h, conf, hr, hend⟩ := Sample.chatsAndDeletes.exists_run fun _ _ _ => anchored_of_test
  obtain ⟨hgone, hcached⟩ := Bool.and_eq_true_iff.mp hend
  exact ⟨h, conf, Option.isNone_iff_eq_none.mp hgone, List.any_eq_true.mp hcached,
    cached_rooms_exist hr⟩

/-- The room is deleted, and then a message is sent. -/
def Sample.deletesAndChats : Script (M := server {} Sample.secret)
    (boot (Sample.store 2 [] [Sample.token]) 0) (fun _ _ => true)
    (fun h conf => settled h conf && ((conf.world.mgr.msgCache Sample.room).isSome &&
      (conf.world.db.findRoom Sample.room).isNone)) where
  labels := Sample.opening 0 ++ Sample.joining 0 Sample.token 9
    ++ Sample.handle (.http 0) Sample.deletion 6 ++ Sample.handle (.ws 0) Sample.chat 6
  performed := by decide +kernel

/-- A participant of a deleted room sends one more message before its connection is gone. -/
theorem cached_after_deletion : ¬ ∀ (cfg : Config) (secret : List UInt8) (db : Database)
    (clock : ℤ) (h : List (server cfg secret).Transition) (conf : State),
    Run (M := server cfg secret) anyStep (boot db clock) h conf →
      (∀ t, idle (conf.task t) = true) →
        ∀ r, conf.world.mgr.msgCache r ≠ none → r ∈ conf.world.db.roomIds := by
  intro hall
  obtain ⟨h, conf, hr, hidle, hend⟩ := Sample.deletesAndChats.exists_idle_run
    (fun _ _ _ _ => trivial) (fun _ => rfl)
  obtain ⟨hcached, hgone⟩ := Bool.and_eq_true_iff.mp hend
  have hne : conf.world.mgr.msgCache Sample.room ≠ none := Option.isSome_iff_ne_none.mp hcached
  have hin := hall _ _ _ _ h conf hr hidle Sample.room hne
  exact conf.world.db.findRoom_eq_none.mp (Option.isNone_iff_eq_none.mp hgone) hin

end HashHush
