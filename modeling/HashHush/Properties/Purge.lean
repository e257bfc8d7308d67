import HashHush.Properties.Deletion

/-!
# The idle purge

A pass of the purger reads the clock, lists the rooms whose `last_active_at` is older than the
cutoff, and removes the listed rooms one by one.  The list is a snapshot: a room that is used
after it was taken is removed all the same, as in `purged_in_use`.

`passOf` reads the state of the latest pass off the calls of the purger: its cutoff, the rooms it
listed, those it has still to remove and those it has removed.  If nothing stamps a room that is
still on the list with a time at or after the cutoff, the pass removes rooms that are idle only,
and it removes all of them (`purge_sound`).
-/

namespace HashHush

open Concurrency System

/-! ## The state of a pass -/

/-- The latest pass of the purger. -/
structure Pass where
  cutoff : ℤ
  /-- The rooms that `roomsIdleSince` returned. -/
  stale : List Str
  /-- The rooms that have not been deleted yet. -/
  listed : List Str
  /-- The rooms that have been deleted. -/
  deleted : List Str

/-- The pass after one more call of the purger. -/
def Pass.after (p : Pass) : Called (signature Str) → Pass
  | ⟨.roomsIdleSince cutoff, stale⟩ => ⟨cutoff, stale, stale, []⟩
  | ⟨.deleteRoom id, _⟩ => { p with listed := p.listed.tail, deleted := p.deleted ++ [id] }
  | _ => p

/-- The pass that calls of the purger amount to. -/
def passOf (es : List (Called (signature Str))) : Pass := es.foldl Pass.after ⟨0, [], [], []⟩

@[simp] lemma passOf_snoc (es : List (Called (signature Str))) (e : Called (signature Str)) :
    passOf (es ++ [e]) = (passOf es).after e := by
  simp [passOf]

/-- Between two lists the cutoff stays and rooms leave the list. -/
lemma Pass.after_subset (p : Pass) {e : Called (signature Str)}
    (he : ∀ cutoff, e.1 ≠ .roomsIdleSince cutoff) :
    (p.after e).cutoff = p.cutoff ∧ (p.after e).listed ⊆ p.listed := by
  obtain ⟨o, a⟩ := e
  cases o with
  | roomsIdleSince cutoff => exact absurd rfl (he cutoff)
  | deleteRoom id => exact ⟨rfl, List.tail_subset _⟩
  | _ => exact ⟨rfl, List.Subset.refl _⟩

/-- A room counts as deleted by a pass only if it has been deleted since the list was made. -/
lemma mem_of_mem_deleted {pre : List (Called (signature Str))} {cutoff : ℤ} {stale : List Str}
    {r : Str} : ∀ {post : List (Called (signature Str))},
    r ∈ (passOf (pre ++ ⟨.roomsIdleSince cutoff, stale⟩ :: post)).deleted →
      ∃ b, ⟨.deleteRoom r, b⟩ ∈ post := by
  intro post
  induction post using List.reverseRecOn with
  | nil =>
      intro hr
      simp [Pass.after] at hr
  | append_singleton post e ih =>
      intro hr
      rw [← List.cons_append, ← List.append_assoc, passOf_snoc] at hr
      have hold : r ∈ (passOf (pre ++ ⟨.roomsIdleSince cutoff, stale⟩ :: post)).deleted →
          ∃ b, ⟨.deleteRoom r, b⟩ ∈ post ++ [e] := by
        intro h
        obtain ⟨b, hb⟩ := ih h
        exact ⟨b, List.mem_append_left _ hb⟩
      obtain ⟨o, a⟩ := e
      cases o with
      | deleteRoom id =>
          rcases List.mem_append.mp hr with h | h
          · exact hold h
          · obtain rfl := List.mem_singleton.mp h
            exact ⟨a, by simp⟩
      | roomsIdleSince cutoff' => cases hr
      | _ => exact hold hr

/-- The rooms listed by a pass stay the same until the next one. -/
lemma stale_passOf {pre : List (Called (signature Str))} {cutoff : ℤ} {stale : List Str} :
    ∀ {post : List (Called (signature Str))}, (∀ e ∈ post, ∀ c, e.1 ≠ .roomsIdleSince c) →
      (passOf (pre ++ ⟨.roomsIdleSince cutoff, stale⟩ :: post)).stale = stale := by
  intro post
  induction post using List.reverseRecOn with
  | nil => simp [Pass.after]
  | append_singleton post e ih =>
      intro hpost
      rw [← List.cons_append, ← List.append_assoc, passOf_snoc]
      have hold := ih fun f hf => hpost f (List.mem_append_left _ hf)
      have he : ∀ c, e.1 ≠ .roomsIdleSince c := hpost e (by simp)
      obtain ⟨o, a⟩ := e
      cases o with
      | roomsIdleSince c => exact absurd rfl (he c)
      | _ => exact hold

/-! ## The program of the purger -/

/-- What the calls of the purger need: the cutoff lies one time to live before the clock that was
just read, and the room to delete is the next on the list. -/
def purgePre (cfg : Config) : Op Str → List (Called (signature Str)) → Prop
  | .roomsIdleSince cutoff, es =>
      ∃ pre now, es = pre ++ [⟨.nowSeconds, now⟩] ∧ cutoff = now - cfg.idleTtlSeconds
  | .deleteRoom r, es => (passOf es).listed.head? = some r
  | _, _ => True

/-- The specification of the purger. -/
abbrev purging (cfg : Config) : Spec (signature Str) (List (Called (signature Str))) :=
  .traced (purgePre cfg) fun _ _ => True

/-- The pass has the rooms `ids` left to delete. -/
structure Pass.Left (p : Pass) (ids : List Str) : Prop where
  listed : p.listed = ids
  stale : p.stale = p.deleted ++ ids

section Wp

variable {cfg : Config} {s : List (Called (signature Str))}

lemma closeEach_purging {Q : Except JsonError Unit → List (Called (signature Str)) → Prop}
    (ids : List Str) (hQ : ∀ s, (passOf s).Left ids → Q (.ok ()) s) (cs : List Conn) :
    ∀ {s : List (Called (signature Str))}, (passOf s).Left ids →
      (closeEach .deleted cs).Wp (purging cfg) Q s := by
  induction cs with
  | nil => exact fun hs => hQ _ hs
  | cons c cs ih =>
      intro s hs
      refine .traced trivial fun _ _ => .traced trivial fun _ _ => ih ?_
      rw [passOf_snoc, passOf_snoc]
      exact hs

lemma purgeEach_purging : ∀ {ids : List Str} {s : List (Called (signature Str))},
    (passOf s).Left ids → (purgeEach ids).Wp (purging cfg) (fun _ s => (passOf s).Left []) s := by
  intro ids
  induction ids with
  | nil => exact fun hs => hs
  | cons id ids ih =>
      intro s hs
      refine Prog.Wp.bind (Prog.Wp.bind (.traced trivial fun cs _ => ?_))
      refine closeEach_purging (id :: ids) (fun s hs => ?_) cs ?_
      · have hnext : (passOf s).listed.head? = some id := by
          rw [hs.listed]
          rfl
        refine .traced hnext fun b _ => ih ?_
        rw [passOf_snoc]
        refine ⟨congrArg List.tail hs.listed, ?_⟩
        simpa [Pass.after] using hs.stale
      · rw [passOf_snoc]
        exact hs

/-- A pass goes through its list to the end. -/
theorem purge_purging :
    (purge cfg).Wp (purging cfg) (fun _ s => (passOf s).Left []) s := by
  refine .traced trivial fun now _ => .traced ⟨s, now, rfl, rfl⟩ fun stale _ => ?_
  refine purgeEach_purging ?_
  rw [passOf_snoc]
  exact ⟨rfl, rfl⟩

end Wp

section Run

variable {cfg : Config} {secret : List UInt8} {db : Database} {clock : ℤ}
variable {ok : List (server cfg secret).Transition → (server cfg secret).Transition → Prop}
variable {h : List (server cfg secret).Transition} {conf conf' : State} {r : Str}

/-- The calls that the purger has performed. -/
abbrev purged (h : List (server cfg secret).Transition) : List (Called (signature Str)) :=
  calls (M := server cfg secret) Task.purger h

/-- What a run must keep to for its passes to be sound: nothing but the time before the cutoff is
stamped on a room that is still on the list, and the statements of the purger succeed. -/
structure Unhindered (h : List (server cfg secret).Transition)
    (m : (server cfg secret).Transition) : Prop where
  untouched : ∀ t x o k, m.label = .advance t x → m.pre.task t = some (.call o k) →
    x.sql = true → ∀ r v, o.stamp m.pre.world = some (r, v) → r ∈ (passOf (purged h)).listed →
      v < (passOf (purged h)).cutoff
  sql : ∀ x, m.label = .advance Task.purger x → x.sql = true

/-- In every run the purger keeps to its specification. -/
theorem serves_purging (hr : Run (M := server cfg secret) ok (boot db clock) h conf) :
    Serves (M := server cfg secret) (purging cfg) (fun s => (passOf s).Left [])
      (conf.task .purger) (purged h) := by
  refine hr.traced (M := server cfg secret) Task.purger ?_ ?_ ?_
  · exact ⟨rfl, rfl⟩
  · intro h c i c' _ hs hI
    obtain ⟨-, hadm, -⟩ := step_start hs
    cases i with
    | purge => exact purge_purging
    | _ => exact hI
  · exact fun _ _ _ _ _ _ _ _ _ _ _ => trivial

/-- The rooms on the list of the latest pass are idle. -/
def ListedIdle (h : List (server cfg secret).Transition) (conf : State) : Prop :=
  ∀ row ∈ conf.world.db.rooms, row.id ∈ (passOf (purged h)).listed →
    row.lastActiveAt < (passOf (purged h)).cutoff

/-- The rooms that a pass lists are idle at that moment. -/
lemma idle_of_mem_roomsIdleSince {d : Database} (hd : ∀ id ∈ d.roomIds, 0 ∉ id) {cutoff : ℤ}
    {row : RoomRow} (hrow : row ∈ d.rooms) (hid : row.id ∈ d.roomsIdleSince cutoff) :
    row.lastActiveAt < cutoff := by
  obtain ⟨row', hmem, hid⟩ := List.mem_map.mp hid
  obtain ⟨hrow', hidle⟩ := List.mem_filter.mp hmem
  have hplain : 0 ∉ row'.id := hd _ (List.mem_map_of_mem hrow')
  rw [cText_of_notMem hplain] at hid
  obtain rfl : row' = row := List.inj_on_of_nodup_map d.roomKey hrow' hrow hid
  simpa using hidle

/-- A transition that lists no rooms keeps the listed ones idle. -/
lemma ListedIdle.keep {l : (server cfg secret).Label} {t : Task} {x : Choice} {o : Op Str}
    {k : o.Res → Handler Str Unit} (hidle : ListedIdle h conf)
    (ht : conf.task t = some (.call o k)) (hl : l = .advance t x)
    (hm : Unhindered h (⟨conf, l, conf'⟩ : (server cfg secret).Transition))
    (hworld : conf'.world = (exec o x conf.world).2)
    (hcutoff : (passOf (purged (h ++ [(⟨conf, l, conf'⟩ : (server cfg secret).Transition)]))).cutoff
      = (passOf (purged h)).cutoff)
    (hlisted : (passOf (purged (h ++ [(⟨conf, l, conf'⟩ : (server cfg secret).Transition)]))).listed
      ⊆ (passOf (purged h)).listed) :
    ListedIdle (h ++ [(⟨conf, l, conf'⟩ : (server cfg secret).Transition)]) conf' := by
  intro row hrow hmem
  have hmem := hlisted hmem
  rw [hcutoff]
  rw [hworld] at hrow
  rcases exec_stamp o x conf.world hrow with ⟨row', hrow', hid, hstamp⟩ | ⟨hx, hstamp⟩
  · rw [← hstamp]
    exact hidle row' hrow' (hid ▸ hmem)
  · exact hm.untouched t x o k hl ht hx row.id row.lastActiveAt hstamp hmem

theorem listedIdle_of_run (hdb : ∀ id ∈ db.roomIds, 0 ∉ id)
    (hr : Run (M := server cfg secret) Unhindered (boot db clock) h conf) :
    ListedIdle h conf := by
  refine hr.invariant (I := fun h (conf : State) => ListedIdle h conf) ?_ ?_
  · intro row _ hmem
    cases hmem
  · intro h conf l conf' hr ih hs hm
    cases l with
    | start t i =>
        obtain ⟨-, -, rfl⟩ := step_start hs
        intro row hrow hmem
        rw [purged, calls_start] at hmem ⊢
        exact ih row hrow hmem
    | env e =>
        obtain ⟨w, hw, rfl⟩ := step_env hs
        have hw : w.db = conf.world.db := ambient_db hw
        intro row hrow hmem
        rw [purged, calls_of_not_isOf id] at hmem ⊢
        exact ih row (hw ▸ hrow) hmem
    | advance t x =>
        obtain ⟨o, k, ht, rfl⟩ := step_advance hs
        by_cases htask : t = Task.purger
        · subst htask
          have hcalls := calls_advance (M := server cfg secret) ht h x
          by_cases hlists : ∃ cutoff, o = .roomsIdleSince cutoff
          · obtain ⟨cutoff, rfl⟩ := hlists
            intro row hrow hmem
            rw [purged, hcalls, passOf_snoc] at hmem ⊢
            have hin : row.id ∈ conf.world.db.roomsIdleSince cutoff := by
              have hmem : row.id ∈ (exec (Op.roomsIdleSince cutoff) x conf.world).1 := hmem
              simp only [exec] at hmem
              split at hmem
              · exact hmem
              · cases hmem
            exact idle_of_mem_roomsIdleSince (zero_notMem_roomIds hdb hr) hrow hin
          · push Not at hlists
            have hafter := (passOf (purged h)).after_subset
              (e := ⟨o, (exec o x conf.world).1⟩) hlists
            refine ih.keep ht rfl hm rfl ?_ ?_
            · rw [purged, hcalls, passOf_snoc]
              exact hafter.1
            · rw [purged, hcalls, passOf_snoc]
              exact hafter.2
        · have hcalls : ∀ c', purged (h ++ [⟨conf, .advance t x, c'⟩]) = purged h := fun c' =>
            calls_of_not_isOf (m := ⟨conf, .advance t x, c'⟩) htask h
          refine ih.keep ht rfl hm rfl ?_ ?_
          · rw [hcalls]
          · rw [hcalls]
            exact List.Subset.refl _

/-- The rooms that are idle when the list is made are on it. -/
lemma mem_stale {m : (server cfg secret).Transition} {cutoff : ℤ} {stale : List Str}
    (hdb : ∀ id ∈ db.roomIds, 0 ∉ id)
    (hr : Run (M := server cfg secret) ok (boot db clock) h m.pre)
    (hsql : ∀ x, m.label = .advance Task.purger x → x.sql = true)
    (hm : m.Calls Task.purger (.roomsIdleSince cutoff) stale) {row : RoomRow}
    (hrow : row ∈ m.pre.world.db.rooms) (hidle : row.lastActiveAt < cutoff) : row.id ∈ stale := by
  obtain ⟨x, k, hl, -, hres⟩ := hm
  have hx := hsql x hl
  have hplain := zero_notMem_roomIds hdb hr row.id (List.mem_map_of_mem hrow)
  have hres : (if x.sql then m.pre.world.db.roomsIdleSince cutoff else []) = stale := hres
  rw [← hres, if_pos hx]
  refine List.mem_map.mpr ⟨row, List.mem_filter.mpr ⟨hrow, by simpa using hidle⟩, ?_⟩
  exact cText_of_notMem hplain

/-- A room that the purger has deleted is gone. -/
lemma gone_of_deleteRoom {m : (server cfg secret).Transition}
    (hs : step m.pre m.label = some m.post)
    (hsql : ∀ x, m.label = .advance Task.purger x → x.sql = true) {b : Bool}
    (hm : m.Calls Task.purger (.deleteRoom r) b) : r ∉ m.post.world.db.roomIds := by
  obtain ⟨x, k, hl, ht, -⟩ := hm
  have hx := hsql x hl
  obtain ⟨o, k', ht', hpost⟩ := step_advance (hl ▸ hs)
  obtain ⟨rfl, -⟩ : o = .deleteRoom r ∧ HEq k' k := by simpa [ht] using ht'.symm
  have hdb : m.post.world.db = (m.pre.world.db.deleteRoom r).2 := by
    simp [hpost, exec, hx]
  rw [hdb, Database.roomIds_deleteRoom]
  simp

/-- The cutoff of a pass lies one time to live before the clock it has just read. -/
theorem cutoff_of_pass {h' : List (server cfg secret).Transition}
    {m : (server cfg secret).Transition} {cutoff : ℤ} {stale : List Str}
    (hr : Run (M := server cfg secret) ok (boot db clock) (h ++ m :: h') conf)
    (hm : m.Calls Task.purger (.roomsIdleSince cutoff) stale) :
    ∃ es now, purged h = es ++ [⟨.nowSeconds, now⟩] ∧ cutoff = now - cfg.idleTtlSeconds := by
  obtain ⟨hr, -, -⟩ := hr.of_append
  obtain ⟨x, k, -, ht, -⟩ := hm
  exact (serves_purging hr).pre ht

/-- **The purge is sound** in runs in which nothing stamps a listed room with a time at or after
the cutoff, and in which the statements of the purger succeed: whatever a pass deletes is older
than its cutoff at that moment, and a pass that has ended has deleted every room that was older
than its cutoff when it made its list.  The ids of the rooms in the store are plain text, as
`randomRoomId` makes them. -/
theorem purge_sound (hdb : ∀ id ∈ db.roomIds, 0 ∉ id)
    (hr : Run (M := server cfg secret) Unhindered (boot db clock) h conf) :
    (∀ h₁ m h₂ r b, h = h₁ ++ m :: h₂ → m.Calls Task.purger (.deleteRoom r) b →
      ∀ row ∈ m.pre.world.db.rooms, row.id = r →
        row.lastActiveAt < (passOf (purged h₁)).cutoff) ∧
    (idle (conf.task .purger) = true → ∀ h₁ m h₂ cutoff stale, h = h₁ ++ m :: h₂ →
      m.Calls Task.purger (.roomsIdleSince cutoff) stale →
      (∀ m' ∈ h₂, ∀ c s, ¬ m'.Calls Task.purger (.roomsIdleSince c) s) →
      ∀ row ∈ m.pre.world.db.rooms, row.lastActiveAt < cutoff →
        ∃ m' ∈ h₂, (∃ b, m'.Calls Task.purger (.deleteRoom row.id) b) ∧
          row.id ∉ m'.post.world.db.roomIds) := by
  constructor
  · rintro h₁ m h₂ r b rfl ⟨x, k, -, ht, -⟩ row hrow rfl
    obtain ⟨hr₁, -, -⟩ := hr.of_append
    have hnext : (passOf (purged h₁)).listed.head? = some row.id := (serves_purging hr₁).pre ht
    exact listedIdle_of_run hdb hr₁ row hrow (List.mem_of_head? hnext)
  · rintro hidle h₁ m h₂ cutoff stale rfl hm hlatest row hrow hold
    obtain ⟨hr₁, -, hm₁⟩ := hr.of_append
    have hin : row.id ∈ stale := mem_stale hdb hr₁ hm₁.sql hm hrow hold
    have hcalls : purged (h₁ ++ m :: h₂)
        = purged h₁ ++ ⟨.roomsIdleSince cutoff, stale⟩ :: purged h₂ := by
      have hcalled : m.called Task.purger = some ⟨.roomsIdleSince cutoff, stale⟩ :=
        called_iff.mpr hm
      rw [purged, calls, List.filterMap_append, List.filterMap_cons_some hcalled]
      rfl
    have hleft := (serves_purging hr).of_idle hidle
    rw [hcalls] at hleft
    have hstale : (passOf (purged h₁ ++ ⟨.roomsIdleSince cutoff, stale⟩ :: purged h₂)).stale
        = stale := by
      refine stale_passOf fun e he c hc => ?_
      obtain ⟨m', hm', hcall⟩ := mem_calls.mp he
      obtain ⟨o, a⟩ := e
      obtain rfl : o = .roomsIdleSince c := hc
      exact hlatest m' hm' c a hcall
    have hdeleted : row.id ∈
        (passOf (purged h₁ ++ ⟨.roomsIdleSince cutoff, stale⟩ :: purged h₂)).deleted := by
      have heq := hleft.stale.symm.trans hstale
      rw [List.append_nil] at heq
      rw [heq]
      exact hin
    obtain ⟨b, hb⟩ := mem_of_mem_deleted hdeleted
    obtain ⟨m', hm', hcall⟩ := mem_calls.mp hb
    obtain ⟨before, after, rfl⟩ := List.append_of_mem hm'
    have hr' : Run (M := server cfg secret) Unhindered (boot db clock)
        ((h₁ ++ m :: before) ++ m' :: after) conf := by simpa using hr
    obtain ⟨-, hs', hok'⟩ := hr'.of_append
    exact ⟨m', hm', ⟨b, hcall⟩, gone_of_deleteRoom hs' hok'.sql hcall⟩

end Run

/-- A test for transitions that do not hinder a pass. -/
def unhinderedTest (h : List (server {} Sample.secret).Transition)
    (m : (server {} Sample.secret).Transition) : Bool :=
  match m.label with
  | .advance t x =>
      x.sql && match m.pre.task t with
        | some (.call o _) =>
            (o.stamp m.pre.world).all fun e =>
              e.1 ∉ (passOf (purged h)).listed || e.2 < (passOf (purged h)).cutoff
        | _ => true
  | _ => true

lemma unhindered_of_test {h : List (server {} Sample.secret).Transition}
    {m : (server {} Sample.secret).Transition} (hm : unhinderedTest h m = true) :
    Unhindered h m where
  untouched t x o k hl ht _ r v hstamp hlisted := by
    simp only [unhinderedTest, hl, ht, Bool.and_eq_true] at hm
    rw [hstamp] at hm
    simpa [hlisted] using hm.2
  sql x hl := by
    simp only [unhinderedTest, hl, Bool.and_eq_true] at hm
    exact hm.1

namespace Sample

/-- The small server with a second room, of the same age. -/
def idleAndUsed : Database :=
  ((store 2 [] [token]).createRoom ⟨ascii "idle room", ascii "Secret chat", 2, 0, 0, true, false⟩).2

lemma zero_notMem_idleAndUsed : ∀ id ∈ idleAndUsed.roomIds, 0 ∉ id := by decide +kernel

/-- A client comes to the first room, and then the second is purged in a pass. -/
def purgedInPass : Script (M := server {} secret) (boot idleAndUsed 100000) unhinderedTest
    (fun _ conf => (conf.world.db.findRoom (ascii "idle room")).isNone &&
      ((conf.world.db.findRoom room).isSome && idle (conf.task .purger))) where
  labels := opening 0 ++ joining 0 token 9 ++ handle .purger .purge 4
  performed := by decide +kernel

end Sample

/-- Of two rooms whose time is over, the one that a client has come to is spared. -/
theorem purge_sound_sample : ∃ (h : List (server {} Sample.secret).Transition) (conf : State),
    conf.world.db.findRoom (ascii "idle room") = none ∧
    (conf.world.db.findRoom Sample.room).isSome = true ∧
    (∀ h₁ m h₂ r b, h = h₁ ++ m :: h₂ → m.Calls Task.purger (.deleteRoom r) b →
      ∀ row ∈ m.pre.world.db.rooms, row.id = r →
        row.lastActiveAt < (passOf (purged h₁)).cutoff) ∧
    ∀ h₁ m h₂ cutoff stale, h = h₁ ++ m :: h₂ →
      m.Calls Task.purger (.roomsIdleSince cutoff) stale →
      (∀ m' ∈ h₂, ∀ c s, ¬ m'.Calls Task.purger (.roomsIdleSince c) s) →
      ∀ row ∈ m.pre.world.db.rooms, row.lastActiveAt < cutoff →
        ∃ m' ∈ h₂, (∃ b, m'.Calls Task.purger (.deleteRoom row.id) b) ∧
          row.id ∉ m'.post.world.db.roomIds := by
  obtain ⟨h, conf, hr, hend⟩ := Sample.purgedInPass.exists_run fun _ _ _ => unhindered_of_test
  obtain ⟨hgone, hspared, hidle⟩ : (conf.world.db.findRoom (ascii "idle room")).isNone = true ∧
      (conf.world.db.findRoom Sample.room).isSome = true ∧ idle (conf.task .purger) = true := by
    simpa using hend
  obtain ⟨hold, hcomplete⟩ := purge_sound Sample.zero_notMem_idleAndUsed hr
  exact ⟨h, conf, Option.isNone_iff_eq_none.mp hgone, hspared, hold, hcomplete hidle⟩

/-- The clock never goes backwards. -/
def Forward {cfg : Config} {secret : List UInt8} (_ : List (server cfg secret).Transition)
    (m : (server cfg secret).Transition) : Prop :=
  ∀ t, m.label = .env (.clock t) → m.pre.world.clock ≤ t

/-- The purger is about to delete the sample room, which is not idle any more. -/
def Sample.aboutToPurge (h : List (server {} Sample.secret).Transition) (conf : State) : Bool :=
  (match conf.task .purger with
    | some (.call (.deleteRoom r) _) => r = Sample.room
    | _ => false) &&
  conf.world.db.rooms.any fun row => row.id = Sample.room && (passOf (purged h)).cutoff ≤ row.lastActiveAt

/-- The clock stands still. -/
def Sample.clockStands (m : (server {} Sample.secret).Transition) : Bool :=
  match m.label with
  | .env _ => false
  | _ => true

/-- A client comes in after the purger has listed its room. -/
def Sample.joinsListed : Script (boot (Sample.store 2 [] [Sample.token]) 100000)
    (fun _ => Sample.clockStands) Sample.aboutToPurge where
  labels := Sample.handle .purger .purge 2 ++ Sample.opening 0 ++ Sample.joining 0 Sample.token 9
    ++ List.replicate 3 (.advance .purger (Sample.draw 0))
  performed := by decide +kernel

/-- A client comes in after the purger has listed its room, and the room is purged all the same. -/
theorem purged_in_use : ¬ ∀ (cfg : Config) (secret : List UInt8) (db : Database) (clock : ℤ)
    (h : List (server cfg secret).Transition) (conf : State), (∀ id ∈ db.roomIds, 0 ∉ id) →
    Run (M := server cfg secret) Forward (boot db clock) h conf →
      ∀ h₁ m h₂ r b, h = h₁ ++ m :: h₂ → m.Calls Task.purger (.deleteRoom r) b →
        ∀ row ∈ m.pre.world.db.rooms, row.id = r →
          row.lastActiveAt < (passOf (purged h₁)).cutoff := by
  intro hall
  have hforward : ∀ h (m : (server {} Sample.secret).Transition),
      Run Forward (boot (Sample.store 2 [] [Sample.token]) 100000) h m.pre →
        Sample.clockStands m = true → Forward h m :=
    fun _ m _ hm t hl => by simp [Sample.clockStands, hl] at hm
  obtain ⟨h, conf, hr, hend⟩ := Sample.joinsListed.exists_run hforward
  obtain ⟨hnext, hused⟩ := Bool.and_eq_true_iff.mp hend
  obtain ⟨row, hrow, hused⟩ := List.any_eq_true.mp hused
  obtain ⟨hid, hused⟩ : row.id = Sample.room ∧ (passOf (purged h)).cutoff ≤ row.lastActiveAt := by
    simpa using hused
  split at hnext
  · rename_i r k ht
    obtain rfl : r = Sample.room := by simpa using hnext
    have hs := step_of_call (M := server {} Sample.secret) ht (Sample.draw 0)
    have hrun := hr.snoc hs (fun t hl => by cases hl)
    have hlt := hall _ _ _ _ _ _ Sample.zero_notMem_roomIds hrun h _ [] Sample.room _ rfl
      ⟨Sample.draw 0, k, rfl, ht, rfl⟩ row hrow hid
    omega
  · cases hnext

end HashHush
