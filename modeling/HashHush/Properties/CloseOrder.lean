import HashHush.Delivery

/-!
# The reason before the close

`sendErrAndClose` and `RoomManager::closeRoom` send a frame that tells the client why, and then
close the connection.  The frame is posted and the Close is dispatched, so their order on the
wire depends on the thread that calls.  From any other thread than that of the connection's
io_context both are queued, and the frame comes first.  On that very thread the Close is written
at once, while the frame waits until the handler is over.

`reason_before_close_iff` says that this is all there is to it.  A message handler runs on the
thread of its own connection, so `sendErrAndClose` always gets it the wrong way round.
-/

namespace HashHush

open Concurrency Deployed

/-- The rest of a program begins with a call of `sendErrAndClose` for the connection, or is in
the loop of `closeRoom` at the connection. -/
inductive Notifies (c : Conn) : Frame Str → Str → Handler Str Unit → Prop
  | sendErrAndClose (e : WsError) (k : Unit → Handler Str Unit) :
      Notifies c (.error e) e.code (sendErrAndClose c e >>= k)
  | closeRoom (cs : List Conn) (k : Unit → Handler Str Unit) :
      Notifies c .deleted (ascii "room deleted") (closeEach .deleted (c :: cs) >>= k)

/-- Either way the frame is sent, and the Close follows. -/
lemma Notifies.calls {c : Conn} {f : Frame Str} {reason : Str} {p : Handler Str Unit}
    (h : Notifies c f reason p) : ∃ k k', p = .call (S := signature Str) (.sendText c f) k ∧
      k () = .call (S := signature Str) (.close c reason) k' := by
  cases h with
  | sendErrAndClose e k => exact ⟨_, _, rfl, rfl⟩
  | closeRoom cs k => exact ⟨_, _, rfl, rfl⟩

section Order

variable {W : Type} [DecidableEq W] {D : Deployment W} {cfg : Config} {secret : List UInt8}
variable {s s' : Deployed D} {es : List (Turn W cfg secret)} {t : Task} {x : Choice}

/-- A task makes its next call. -/
lemma advance_spec {o : Op Str} {k : Op.Res o → Handler Str Unit}
    (ht : s.conf.task t = some (.call (S := signature Str) o k))
    (h : s.step (.server (.advance t x) : Turn W cfg secret) = some s') :
    s'.loops = s.handOver (D.thread t) o ∧ s'.conf.task t = some (k (exec o x s.conf.world).1) ∧
      s'.conf.world = (exec o x s.conf.world).2 := by
  simp only [step, ht, Option.map_eq_some_iff] at h
  obtain ⟨conf, hconf, rfl⟩ := h
  obtain rfl := Option.some.inj ((System.step_of_call (M := server cfg secret) ht x).symm.trans hconf)
  exact ⟨rfl, System.resume_task_self _ _ _, rfl⟩

/-- The frame waits, or its connection is gone. -/
lemma pending_after {i : Buffered} (h : s.after es = some s')
    (hs : s.loops.Pending i (i.conn ∈ s.conf.world.destroyed)) :
    s'.loops.Pending i (i.conn ∈ s'.conf.world.destroyed) := by
  refine after_induction
    (P := fun s => s.loops.Pending i (i.conn ∈ s.conf.world.destroyed)) h ?_ hs
  intro s e s' _ hstep hs
  have hlive := hs.step (step_spec hstep).2.1 fun hi => by simpa using hi
  exact hlive.mono fun hgone => (step_grows hstep).2 hgone

/-- The frame is ahead of the Close, and stays so. -/
lemma ordered_after {i j : Buffered} (hij : i.conn = j.conn) (h : s.after es = some s')
    (hj : j.call < s.conf.world.wire.length)
    (hs : s.loops.Ordered i j (i.conn ∈ s.conf.world.destroyed)) :
    s'.loops.Ordered i j (i.conn ∈ s'.conf.world.destroyed) := by
  refine (after_induction (P := fun s => j.call < s.conf.world.wire.length ∧
    s.loops.Ordered i j (i.conn ∈ s.conf.world.destroyed)) h ?_ ⟨hj, hs⟩).2
  rintro s e s' - hstep ⟨hj, hs⟩
  obtain ⟨hlen, hgone⟩ := step_grows hstep
  have hnew : ¬ (j.call = s.conf.world.wire.length ∧ j.call < s'.conf.world.wire.length) := by
    omega
  have hord := hs.step (step_spec hstep).2.1 hnew (fun hi => by simpa using hi)
    (fun hi => by simpa [← hij] using hi)
  exact ⟨lt_of_lt_of_le hj hlen, hord.mono fun h => hgone h⟩

/-- As long as a handler is in progress on the thread of a connection, what waits for the
connection is not done. -/
lemma notMem_done_after {i : Buffered} (ht : D.thread t = some (D.conn i.conn))
    (h : s.after es = some s') (hes : ∀ e ∈ es, ¬ e.IsOf t) (hs : Sound s)
    (hidle : idle (s.conf.task t) = false) (hi : i.call < s.conf.world.wire.length)
    (hdone : i ∉ s.loops.done) : i ∉ s'.loops.done := by
  refine (after_induction (P := fun s => Sound s ∧ idle (s.conf.task t) = false ∧
    i.call < s.conf.world.wire.length ∧ i ∉ s.loops.done) h ?_ ⟨hs, hidle, hi, hdone⟩).2.2.2
  rintro s e s' he hstep ⟨hs, hidle, hi, hdone⟩
  have hnew : ¬ (i.call = s.conf.world.wire.length ∧ i.call < s'.conf.world.wire.length) := by
    omega
  have hbusy : s.busy (D.conn i.conn) = some t := hs.busy t _ ht hidle
  refine ⟨hs.step hstep, ?_, lt_of_lt_of_le hi (step_grows hstep).1, ?_⟩
  · rwa [step_task hstep (hes e he)]
  · exact EventLoops.notMem_done_step hdone (step_spec hstep).2.1 hnew (by simp [hbusy])

/-- What a task does when it sends a connection a frame and then closes it, and what happens in
between and afterwards: `s₀` is the deployment at the frame, `s₁` at the Close, `s₂` after it and
`s₃` at any time later. -/
structure Notice (D : Deployment W) (cfg : Config) (secret : List UInt8) (t : Task) (c : Conn)
    (f : Frame Str) (reason : Str) (s₀ s₁ s₂ s₃ : Deployed D) : Prop where
  reached : ∃ (db : Database) (clock : ℤ) (es : List (Turn W cfg secret)),
    (start D db clock).after es = some s₀
  notifies : ∃ p, s₀.conf.task t = some p ∧ Notifies c f reason p
  sends : ∃ x es, s₀.after (.server (.advance t x) :: es) = some s₁ ∧
    ∀ e ∈ (es : List (Turn W cfg secret)), ¬ e.IsOf t
  closes : ∃ y, s₁.step (.server (.advance t y) : Turn W cfg secret) = some s₂
  later : ∃ es : List (Turn W cfg secret), s₂.after es = some s₃

variable {c : Conn} {f : Frame Str} {reason : Str} {s₀ s₁ s₂ s₃ : Deployed D}

/-- The frame of a notice. -/
abbrev frameOf (c : Conn) (f : Frame Str) (s₀ : Deployed D) : Buffered :=
  ⟨c, s₀.conf.world.wire.length, .text f⟩

/-- The Close of a notice. -/
abbrev closeOf (c : Conn) (reason : Str) (s₁ : Deployed D) : Buffered :=
  ⟨c, s₁.conf.world.wire.length, .close reason⟩

/-- The frame is posted: it waits when the task goes on, and is not done. -/
lemma Notice.posted (h : Notice D cfg secret t c f reason s₀ s₁ s₂ s₃) :
    ∃ (s : Deployed D) (k' : Unit → Handler Str Unit), Sound s ∧
      s.conf.task t = some (.call (S := signature Str) (.close c reason) k') ∧
      s.loops.Pending (frameOf c f s₀) (c ∈ s.conf.world.destroyed) ∧
      frameOf c f s₀ ∉ s.loops.done ∧
      s₀.conf.world.wire.length < s.conf.world.wire.length ∧
      ∃ es : List (Turn W cfg secret), s.after es = some s₁ ∧ ∀ e ∈ es, ¬ e.IsOf t := by
  obtain ⟨db, clock, es₀, h₀⟩ := h.reached
  obtain ⟨p, hp, hnotifies⟩ := h.notifies
  obtain ⟨x, es₁, h₁, hes⟩ := h.sends
  obtain ⟨k, k', rfl, hk⟩ := hnotifies.calls
  obtain ⟨s, hsend, h₁⟩ := Option.bind_eq_some_iff.mp h₁
  have hs₀ : Sound s₀ := sound_of_after h₀
  obtain ⟨hposted, htask, hworld⟩ := advance_spec hp hsend
  have hloops : s.loops = s₀.loops.post (frameOf c f s₀) := hposted
  refine ⟨s, k', hs₀.step hsend, htask.trans (congrArg some hk), ?_, ?_, ?_, es₁, h₁, hes⟩
  · rw [hloops]
    exact EventLoops.pending_post _ _
  · intro hmem
    have hmem : frameOf c f s₀ ∈ s₀.loops.done := by rwa [hloops] at hmem
    exact lt_irrefl _ (hs₀.numbered _ (List.mem_append_left _ hmem))
  · rw [hworld, exec_wire_eq]
    simp [Op.outgoing]

/-- The Close is dispatched. -/
lemma Notice.dispatched (h : Notice D cfg secret t c f reason s₀ s₁ s₂ s₃) :
    Sound s₁ ∧ s₂.loops = s₁.loops.dispatch (D.thread t) (closeOf c reason s₁) ∧
      s₁.conf.world.wire.length < s₂.conf.world.wire.length := by
  obtain ⟨s, k', hs, htask, -, -, -, es, h₁, hes⟩ := h.posted
  obtain ⟨y, hclose⟩ := h.closes
  have htask₁ : s₁.conf.task t = some (.call (S := signature Str) (.close c reason) k') :=
    after_induction
      (P := fun s => s.conf.task t = some (.call (S := signature Str) (.close c reason) k')) h₁
      (fun s e s' he hstep h => (step_task hstep (hes e he)).trans h) htask
  obtain ⟨hdispatched, -, hworld⟩ := advance_spec htask₁ hclose
  refine ⟨after_induction (P := Sound) h₁ (fun _ _ _ _ hstep hs => hs.step hstep) hs,
    hdispatched, ?_⟩
  rw [hworld, exec_wire_eq]
  simp [Op.outgoing]

/-- From another thread both jobs are queued, the frame first. -/
lemma Notice.before (h : Notice D cfg secret t c f reason s₀ s₁ s₂ s₃)
    (hthread : D.thread t ≠ some (D.conn c)) :
    Before (frameOf c f s₀) (closeOf c reason s₁) (s₃.wire c) := by
  obtain ⟨s, -, -, -, hpending, -, -, es, h₁, -⟩ := h.posted
  obtain ⟨hs₁, hloops, hcall⟩ := h.dispatched
  obtain ⟨y, hclose⟩ := h.closes
  obtain ⟨es₂, h₂⟩ := h.later
  have hpending : s₁.loops.Pending (frameOf c f s₀) (c ∈ s₁.conf.world.destroyed) :=
    pending_after h₁ hpending
  have hnot : closeOf c reason s₁ ∉ s₁.loops.line (D.conn c) := fun hmem =>
    lt_irrefl _ (hs₁.numbered _ hmem)
  have hqueued : s₂.loops = s₁.loops.post (closeOf c reason s₁) :=
    hloops.trans (EventLoops.dispatch_of_ne hthread)
  have hordered : s₂.loops.Ordered (frameOf c f s₀) (closeOf c reason s₁)
      (c ∈ s₂.conf.world.destroyed) := by
    rw [hqueued]
    exact (hpending.post (j := closeOf c reason s₁) rfl hnot).mono fun h => (step_grows hclose).2 h
  have hlater := ordered_after (i := frameOf c f s₀) (j := closeOf c reason s₁) rfl h₂ hcall hordered
  exact (before_filter (by simp) (by simp)).mpr hlater.before_done

/-- On the connection's own thread the Close is done at once, and the frame is still waiting. -/
lemma Notice.not_before (h : Notice D cfg secret t c f reason s₀ s₁ s₂ s₃)
    (hthread : D.thread t = some (D.conn c)) :
    ¬ Before (frameOf c f s₀) (closeOf c reason s₁) (s₃.wire c) := by
  obtain ⟨s, k', hs, htask, -, hdone, hcall, es, h₁, hes⟩ := h.posted
  obtain ⟨-, hloops, -⟩ := h.dispatched
  obtain ⟨es₂, h₂⟩ := h.later
  have hdone₁ : frameOf c f s₀ ∉ s₁.loops.done :=
    notMem_done_after hthread h₁ hes hs (by rw [htask]; rfl) hcall hdone
  have hovertaken : s₂.loops.Overtaken (frameOf c f s₀) (closeOf c reason s₁) := by
    rw [hloops, hthread]
    exact EventLoops.overtaken_dispatch hdone₁ (closeOf c reason s₁)
  have hlater : s₃.loops.Overtaken (frameOf c f s₀) (closeOf c reason s₁) :=
    after_induction (P := fun s => s.loops.Overtaken (frameOf c f s₀) (closeOf c reason s₁)) h₂
      (fun _ _ _ _ hstep h => h.step (step_spec hstep).2.1) hovertaken
  exact fun hb => hlater.not_before_done ((before_filter (by simp) (by simp)).mp hb)

/-- **The reason before the close.**  A task sends a connection the reason and then closes it, by
`sendErrAndClose` or in `closeRoom`.  On the wire of the connection the Close never stands
before the reason, if and only if the task does not run on the thread of the connection's
io_context. -/
theorem reason_before_close_iff (h : Notice D cfg secret t c f reason s₀ s₁ s₂ s₃) :
    Before (frameOf c f s₀) (closeOf c reason s₁) (s₃.wire c) ↔
      D.thread t ≠ some (D.conn c) := by
  constructor
  · exact fun hb hthread => h.not_before hthread hb
  · exact h.before

end Order

namespace Sample

/-- The next two calls of a task send a connection a reason and close it. -/
def notifies (c : Conn) : Option (Handler Str Unit) → Bool
  | some (.call (.sendText d (.error e)) k) =>
      match k () with
      | .call (.close d' reason) _ => d = c && d' = c && reason = e.code
      | _ => false
  | some (.call (.sendText d .deleted) k) =>
      match k () with
      | .call (.close d' reason) _ => d = c && d' = c && reason = ascii "room deleted"
      | _ => false
  | _ => false

/-- Everything on one worker. -/
def deployment : Deployment Unit := ⟨fun _ => (), fun _ => ()⟩

/-- Some turns lead to a notice of a task; some others follow it. -/
def notice (t : Task) (c : Conn) (db : Database) (clock : ℤ) (es es' : List (Turn Unit {} secret))
    (P : Deployed deployment → Bool) : Bool :=
  ((start deployment db clock).after es).any fun s₀ =>
    notifies c (s₀.conf.task t) &&
      (s₀.step (.server (.advance t (draw 0)) : Turn Unit {} secret)).any fun s₁ =>
        (s₁.step (.server (.advance t (draw 0)) : Turn Unit {} secret)).any fun s₂ =>
          (s₂.after es').any P

end Sample

lemma notifies_of_test {c : Conn} {p : Option (Handler Str Unit)} (h : Sample.notifies c p = true) :
    ∃ f reason q, p = some q ∧ Notifies c f reason q := by
  unfold Sample.notifies at h
  split at h
  · rename_i d e k
    split at h
    · rename_i d' reason k' hk
      obtain ⟨⟨rfl, rfl⟩, rfl⟩ : (d = c ∧ d' = c) ∧ reason = e.code := by simpa using h
      refine ⟨.error e, e.code, _, rfl, ?_⟩
      have hq : Notifies d' (.error e) e.code (sendErrAndClose d' e >>= k') := .sendErrAndClose e k'
      have heq : k = fun _ => .call (S := signature Str) (.close d' e.code) k' := funext fun _ => hk
      rw [heq]
      exact hq
    · cases h
  · rename_i d k
    split at h
    · rename_i d' reason k' hk
      obtain ⟨⟨rfl, rfl⟩, rfl⟩ : (d = c ∧ d' = c) ∧ reason = ascii "room deleted" := by
        simpa using h
      refine ⟨.deleted, ascii "room deleted", _, rfl, ?_⟩
      have hq : Notifies d' .deleted (ascii "room deleted") (closeEach .deleted [d'] >>= k') :=
        .closeRoom [] k'
      have heq : k = fun _ => .call (S := signature Str) (.close d' (ascii "room deleted")) k' :=
        funext fun _ => hk
      rw [heq]
      exact hq
    · cases h
  · cases h

lemma notice_of_test {t : Task} {c : Conn} {db : Database} {clock : ℤ}
    {es es' : List (Turn Unit {} Sample.secret)} {P : Deployed Sample.deployment → Bool}
    (h : Sample.notice t c db clock es es' P = true) :
    ∃ f reason s₀ s₁ s₂ s₃, Notice Sample.deployment {} Sample.secret t c f reason s₀ s₁ s₂ s₃ ∧
      P s₃ = true := by
  obtain ⟨s₀, h₀, h⟩ := (Option.any_eq_true _ _).mp h
  obtain ⟨hp, h⟩ := Bool.and_eq_true_iff.mp h
  obtain ⟨s₁, h₁, h⟩ := (Option.any_eq_true _ _).mp h
  obtain ⟨s₂, h₂, h⟩ := (Option.any_eq_true _ _).mp h
  obtain ⟨s₃, h₃, hP⟩ := (Option.any_eq_true _ _).mp h
  obtain ⟨f, reason, q, hq, hnotifies⟩ := notifies_of_test hp
  refine ⟨f, reason, s₀, s₁, s₂, s₃, ⟨⟨db, clock, es, h₀⟩, ⟨q, hq, hnotifies⟩, ?_, ?_, ?_⟩, hP⟩
  · exact ⟨Sample.draw 0, [], by simp [after, h₁], by simp⟩
  · exact ⟨Sample.draw 0, h₂⟩
  · exact ⟨es', h₃⟩

/-- The purger closes a room, and a worker brings both frames to the wire. -/
theorem reason_before_close_sample : ∃ f reason s₀ s₁ s₂ s₃,
    Notice Sample.deployment {} Sample.secret .purger 0 f reason s₀ s₁ s₂ s₃ ∧
      (s₃.wire 0).length = 2 ∧ Before (frameOf 0 f s₀) (closeOf 0 reason s₁) (s₃.wire 0) := by
  have htest : Sample.notice .purger 0 (Sample.store 2 [] []) 100000
      ((Sample.opening 0 ++ Sample.handle .purger .purge 3).map .server) [.run (), .run ()]
      (fun s => (s.wire 0).length = 2) = true := by decide +kernel
  obtain ⟨f, reason, s₀, s₁, s₂, s₃, h, hlen⟩ := notice_of_test htest
  exact ⟨f, reason, s₀, s₁, s₂, s₃, h, by simpa using hlen,
    (reason_before_close_iff h).mpr (by simp [Deployment.thread])⟩

/-- A client presents a token that is not good: the error follows the Close. -/
theorem close_before_error_sample : ¬ ∀ (W : Type) (_ : DecidableEq W) (D : Deployment W)
    (cfg : Config) (secret : List UInt8) (t : Task) (c : Conn) (f : Frame Str) (reason : Str)
    (s₀ s₁ s₂ s₃ : Deployed D), Notice D cfg secret t c f reason s₀ s₁ s₂ s₃ →
      Before (frameOf c f s₀) (closeOf c reason s₁) (s₃.wire c) := by
  intro hall
  have htest : Sample.notice (.ws 0) 0 (Sample.store 2 [] []) 0
      ((Sample.opening 0 ++ Sample.joining 0 (ascii "other") 2).map .server) []
      (fun _ => true) = true := by decide +kernel
  obtain ⟨f, reason, s₀, s₁, s₂, s₃, h, -⟩ := notice_of_test htest
  exact h.not_before rfl (hall _ _ _ _ _ _ _ _ _ _ _ _ _ h)

end HashHush
