import Mathlib.Tactic

/-!
# Event loops

Every worker thread runs an event loop over a queue of jobs, and every job belongs to the loop of
one worker.  `post` queues a job.  `dispatch` queues it too, unless it is called on the thread of
the very loop: then the job is done on the spot.  `run` takes the next job off a queue; it is
done if it is still live and dropped otherwise.

`Before i j l` says that `j` does not occur in `l` unless `i` has occurred earlier.  Jobs that
other threads hand to one loop are done in the order in which they were handed over
(`Ordered`); a job dispatched on the loop's own thread overtakes everything in the queue
(`Overtaken`).
-/

namespace Concurrency

/-! ## Earlier in a list -/

section Before

variable {J : Type}

/-- Wherever `j` stands in the list, `i` stands earlier. -/
def Before (i j : J) (l : List J) : Prop := ∀ l₁ l₂, l = l₁ ++ j :: l₂ → i ∈ l₁

variable {i j e : J} {l m : List J}

lemma before_of_notMem (h : j ∉ l) : Before i j l := by
  rintro l₁ l₂ rfl
  simp at h

lemma before_append : Before i j (l ++ m) ↔ Before i j l ∧ (i ∈ l ∨ Before i j m) := by
  constructor
  · intro h
    refine ⟨fun l₁ l₂ hl => h l₁ (l₂ ++ m) (by simp [hl]), ?_⟩
    by_cases hi : i ∈ l
    · exact .inl hi
    · refine .inr fun m₁ m₂ hm => ?_
      have hmem : i ∈ l ++ m₁ := h (l ++ m₁) m₂ (by simp [hm])
      exact (List.mem_append.mp hmem).resolve_left hi
  · rintro ⟨hl, hm⟩ l₁ l₂ heq
    rcases List.append_eq_append_iff.mp heq with ⟨a, rfl, rfl⟩ | ⟨a, rfl, ha⟩
    · rcases hm with hi | hm
      · exact List.mem_append_left a hi
      · exact List.mem_append_right l (hm a l₂ rfl)
    · cases a with
      | nil =>
          rw [List.append_nil] at hm
          rcases hm with hi | hm
          · exact hi
          · exact absurd (hm [] l₂ (by simpa using ha.symm)) (by simp)
      | cons b a =>
          obtain ⟨rfl, -⟩ := List.cons.inj ha
          exact hl l₁ a rfl

lemma before_cons_of_ne (h : e ≠ j) : Before i j (e :: m) ↔ e = i ∨ Before i j m := by
  have hhead : Before i j [e] := before_of_notMem (by simpa using h.symm)
  rw [← List.singleton_append, before_append, List.mem_singleton, eq_comm (a := i)]
  exact and_iff_right hhead

/-- Other things may come in between. -/
lemma Before.insert (h : Before i j (l ++ m)) (he : e ≠ j) : Before i j (l ++ e :: m) := by
  obtain ⟨hl, hm⟩ := before_append.mp h
  exact before_append.mpr ⟨hl, hm.imp_right fun hm => (before_cons_of_ne he).mpr (.inr hm)⟩

lemma not_before (h : i ∉ l) : ¬ Before i j (l ++ j :: m) := fun hb => h (hb l m rfl)

/-- Nothing changes when the list is restricted to a part that both belong to. -/
lemma before_filter {p : J → Bool} (hi : p i = true) (hj : p j = true) :
    Before i j (l.filter p) ↔ Before i j l := by
  constructor
  · rintro h l₁ l₂ rfl
    have hmem : i ∈ l₁.filter p := h _ (l₂.filter p) (by simp [hj])
    exact (List.mem_filter.mp hmem).1
  · intro h m₁ m₂ heq
    obtain ⟨l₁, l', rfl, rfl, hl'⟩ := List.filter_eq_append_iff.mp heq
    obtain ⟨a, l₂, rfl, ha, -, -⟩ := List.filter_eq_cons_iff.mp hl'
    have hmem : i ∈ l₁ ++ a := h (l₁ ++ a) l₂ (by simp)
    rcases List.mem_append.mp hmem with hmem | hmem
    · exact List.mem_filter.mpr ⟨hmem, hi⟩
    · exact absurd hi (ha i hmem)

end Before

/-! ## The loops -/

/-- The jobs that wait in the queues of the loops, and those that have been done, in order. -/
@[ext] structure EventLoops {W J : Type} (home : J → W) where
  queue : W → List J
  done : List J
  /-- A job waits for the worker it belongs to. -/
  routed : ∀ w, ∀ j ∈ queue w, home j = w

namespace EventLoops

variable {W J : Type} {home : J → W} (s : EventLoops home)

/-- Nothing waits and nothing has been done. -/
def initial : EventLoops home := ⟨fun _ => [], [], by simp⟩

/-- What the loop of a worker has still to do comes after what has been done. -/
def line (w : W) : List J := s.done ++ s.queue w

/-- A job has been handed over, or it is dead. -/
def Pending (i : J) (dead : Prop) : Prop := i ∈ s.line (home i) ∨ dead

/-- Two jobs of one loop are done in this order, or they are dead before the second is done. -/
def Ordered (i j : J) (dead : Prop) : Prop :=
  Before i j (s.line (home j)) ∨ (dead ∧ j ∉ s.done)

/-- `j` has been done, and `i` had not been done before. -/
def Overtaken (i j : J) : Prop := ∃ l₁ l₂, s.done = l₁ ++ j :: l₂ ∧ i ∉ l₁

section

variable {s} {i j : J} {dead dead' : Prop}

lemma Pending.mono (h : s.Pending i dead) (hd : dead → dead') : s.Pending i dead' := h.imp_right hd

lemma Ordered.mono (h : s.Ordered i j dead) (hd : dead → dead') : s.Ordered i j dead' :=
  h.imp_right (And.imp_left hd)

lemma Ordered.before_done (h : s.Ordered i j dead) : Before i j s.done := by
  rcases h with h | ⟨-, h⟩
  · exact (before_append.mp h).1
  · exact before_of_notMem h

lemma Overtaken.not_before_done (h : s.Overtaken i j) : ¬ Before i j s.done := by
  obtain ⟨l₁, l₂, hl, hi⟩ := h
  rw [hl]
  exact not_before hi

end

/-! ### What can happen -/

variable [DecidableEq W]

/-- Queue a job. -/
def post (j : J) : EventLoops home where
  queue := Function.update s.queue (home j) (s.queue (home j) ++ [j])
  done := s.done
  routed := by
    intro w e he
    by_cases hw : w = home j
    · subst hw
      rw [Function.update_self] at he
      rcases List.mem_append.mp he with he | he
      · exact s.routed _ e he
      · rw [List.mem_singleton.mp he]
    · rw [Function.update_of_ne hw] at he
      exact s.routed w e he

/-- Do a job on the spot if the calling thread is that of its loop, and queue it otherwise. -/
def dispatch (thread : Option W) (j : J) : EventLoops home :=
  if thread = some (home j) then { s with done := s.done ++ [j] } else s.post j

/-- Take the next job off the queue of a worker and do it, if it is live. -/
def run (live : J → Bool) (w : W) : EventLoops home where
  queue := Function.update s.queue w (s.queue w).tail
  done := s.done ++ (s.queue w).head?.toList.filter live
  routed := by
    intro v e he
    by_cases hv : v = w
    · subst hv
      rw [Function.update_self] at he
      exact s.routed v e (List.mem_of_mem_tail he)
    · rw [Function.update_of_ne hv] at he
      exact s.routed v e he

/-- One thing that may happen to the loops: a new job is handed over, or a worker that is free
runs the next job of its queue. -/
inductive Step (new : J → Prop) (live : J → Bool) (free : W → Prop) :
    EventLoops home → EventLoops home → Prop
  | idle (s : EventLoops home) : Step new live free s s
  | post (s : EventLoops home) {j : J} (hj : new j) : Step new live free s (s.post j)
  | dispatch (s : EventLoops home) (thread : Option W) {j : J} (hj : new j) :
      Step new live free s (s.dispatch thread j)
  | run (s : EventLoops home) {w : W} (hw : free w) : Step new live free s (s.run live w)

section Line

variable {s} {i j e : J} {w : W} {live : J → Bool}

lemma line_post (e : J) (w : W) :
    (s.post e).line w = s.line w ++ if home e = w then [e] else [] := by
  by_cases hw : home e = w
  · subst hw
    simp [line, post]
  · simp [line, post, hw, Function.update_of_ne (Ne.symm hw)]

lemma line_dispatch_self (j : J) (w : W) :
    (s.dispatch (some (home j)) j).line w = s.done ++ j :: s.queue w := by
  simp [dispatch, line]

lemma dispatch_of_ne {thread : Option W} (h : thread ≠ some (home j)) :
    s.dispatch thread j = s.post j := if_neg h

lemma line_run_nil (h : s.queue w = []) (v : W) : (s.run live w).line v = s.line v := by
  by_cases hv : v = w
  · subst hv
    simp [line, run, h]
  · simp [line, run, h, Function.update_of_ne hv]

lemma line_run_self {q : List J} (h : s.queue w = e :: q) :
    (s.run live w).line w = s.done ++ ([e].filter live ++ q) := by
  simp [line, run, h]

lemma line_run_of_ne {q : List J} (h : s.queue w = e :: q) {v : W} (hv : v ≠ w) :
    (s.run live w).line v = s.done ++ ([e].filter live ++ s.queue v) := by
  simp [line, run, h, Function.update_of_ne hv]

lemma done_run {q : List J} (h : s.queue w = e :: q) :
    (s.run live w).done = s.done ++ [e].filter live := by
  simp [run, h]

end Line

section Step

variable {s} {s' : EventLoops home} {i j : J} {new : J → Prop} {live : J → Bool} {free : W → Prop}

/-- What has been done stays done. -/
lemma Step.done_prefix (hs : Step new live free s s') : s.done <+: s'.done := by
  cases hs with
  | idle => exact List.prefix_rfl
  | post hj => exact List.prefix_rfl
  | dispatch thread hj =>
      unfold EventLoops.dispatch
      split
      · exact List.prefix_append _ _
      · exact List.prefix_rfl
  | run hw => exact List.prefix_append _ _

/-- A job that has been handed over was new once. -/
lemma Step.mem_line (hs : Step new live free s s') (h : i ∈ s'.line (home i)) :
    i ∈ s.line (home i) ∨ new i := by
  have hposted : ∀ e, new e → i ∈ (s.post e).line (home i) → i ∈ s.line (home i) ∨ new i := by
    intro e he h
    rw [line_post] at h
    refine (List.mem_append.mp h).imp_right fun h => ?_
    split at h
    · rwa [List.mem_singleton.mp h]
    · cases h
  cases hs with
  | idle => exact .inl h
  | @post e he => exact hposted e he h
  | @dispatch thread e he =>
      by_cases hthread : thread = some (home e)
      · subst hthread
        rcases List.mem_append.mp h with h | h
        · have hdone : i ∈ s.done ∨ i = e := by simpa [EventLoops.dispatch] using h
          rcases hdone with h | rfl
          · exact .inl (List.mem_append_left _ h)
          · exact .inr he
        · have hqueue : i ∈ s.queue (home i) := by simpa [EventLoops.dispatch] using h
          exact .inl (List.mem_append_right _ hqueue)
      · rw [dispatch_of_ne hthread] at h
        exact hposted e he h
  | @run w hw =>
      refine .inl ?_
      cases hq : s.queue w with
      | nil => rwa [line_run_nil hq] at h
      | cons e q =>
          by_cases hv : home i = w
          · rw [hv, line_run_self hq] at h
            rw [hv, line, hq]
            refine List.mem_append.mpr ((List.mem_append.mp h).imp_right fun h => ?_)
            rcases List.mem_append.mp h with h | h
            · rw [List.mem_singleton.mp (List.mem_filter.mp h).1]
              exact List.mem_cons_self
            · exact List.mem_cons_of_mem _ h
          · rw [line_run_of_ne hq hv] at h
            have hne : i ∉ [e].filter live := fun h => by
              obtain rfl := List.mem_singleton.mp (List.mem_filter.mp h).1
              exact hv (s.routed w i (by simp [hq]))
            simpa [line, hne] using h

/-! ### Jobs from other threads -/

lemma pending_post (i : J) (dead : Prop) : (s.post i).Pending i dead := by
  refine .inl ?_
  rw [line_post, if_pos rfl]
  exact List.mem_append_right _ (List.mem_singleton_self i)

lemma Pending.step {dead : Prop} (h : s.Pending i dead) (hs : Step new live free s s')
    (hi : live i = false → dead) : s'.Pending i dead := by
  rcases h with h | h
  swap
  · exact .inr h
  have hposted : ∀ e, i ∈ (s.post e).line (home i) := fun e => by
    rw [line_post]
    exact List.mem_append_left _ h
  cases hs with
  | idle => exact .inl h
  | @post e hj => exact .inl (hposted e)
  | @dispatch thread e hj =>
      refine .inl ?_
      by_cases hthread : thread = some (home e)
      · rw [hthread, line_dispatch_self]
        rcases List.mem_append.mp h with h | h
        · exact List.mem_append_left _ h
        · exact List.mem_append_right _ (List.mem_cons_of_mem _ h)
      · rw [dispatch_of_ne hthread]
        exact hposted e
  | @run w hw =>
      cases hq : s.queue w with
      | nil => exact .inl (line_run_nil hq (home i) ▸ h)
      | cons e q =>
          rcases List.mem_append.mp h with hdone | hqueue
          · exact .inl (List.mem_append_left _ (List.mem_append_left _ hdone))
          · by_cases hv : home i = w
            · subst hv
              rw [hq] at hqueue
              rcases List.mem_cons.mp hqueue with rfl | hqueue
              · cases hlive : live i with
                | true =>
                    refine .inl ?_
                    rw [line_run_self hq]
                    simp [hlive]
                | false => exact .inr (hi hlive)
              · refine .inl ?_
                rw [line_run_self hq]
                exact List.mem_append_right _ (List.mem_append_right _ hqueue)
            · refine .inl ?_
              rw [line_run_of_ne hq hv]
              exact List.mem_append_right _ (List.mem_append_right _ hqueue)

/-- A job that another thread hands over next comes after it. -/
lemma Pending.post {dead : Prop} (h : s.Pending i dead) (hij : home i = home j)
    (hj : j ∉ s.line (home j)) : (s.post j).Ordered i j dead := by
  rcases h with h | h
  · refine .inl ?_
    rw [line_post, before_append]
    exact ⟨before_of_notMem hj, .inl (hij ▸ h)⟩
  · exact .inr ⟨h, fun hdone => hj (List.mem_append_left _ hdone)⟩

/-- Handing over other jobs and running the queues keeps the order. -/
theorem Ordered.step {dead : Prop} (h : s.Ordered i j dead) (hs : Step new live free s s')
    (hnew : ¬ new j) (hi : live i = false → dead) (hj : dead → live j = false) :
    s'.Ordered i j dead := by
  have hposted : ∀ e, e ≠ j → (s.post e).Ordered i j dead := by
    intro e he
    refine h.imp_left fun hb => ?_
    rw [line_post, before_append]
    refine ⟨hb, .inr (before_of_notMem ?_)⟩
    split
    · simpa using he.symm
    · simp
  cases hs with
  | idle => exact h
  | @post e he => exact hposted e (fun heq => hnew (heq ▸ he))
  | @dispatch thread e he =>
      have hne : e ≠ j := fun heq => hnew (heq ▸ he)
      by_cases hthread : thread = some (home e)
      · subst hthread
        rcases h with hb | ⟨hdead, hnot⟩
        · rw [Ordered, line_dispatch_self]
          exact .inl (hb.insert hne)
        · refine .inr ⟨hdead, ?_⟩
          simpa [dispatch, hnot] using hne.symm
      · rw [dispatch_of_ne hthread]
        exact hposted e hne
  | @run w hw =>
      cases hq : s.queue w with
      | nil =>
          refine h.imp (fun hb => ?_) (And.imp_right fun hnot => ?_)
          · rwa [line_run_nil hq]
          · simpa [run, hq] using hnot
      | cons e q =>
          by_cases hv : home j = w
          · subst hv
            rw [Ordered, line_run_self hq, done_run hq]
            cases hlive : live e with
            | true =>
                have hne : dead → e ≠ j := fun hdead heq => by
                  rw [heq, hj hdead] at hlive
                  cases hlive
                rw [List.filter_cons_of_pos hlive]
                refine h.imp (fun hb => ?_) fun ⟨hdead, hnot⟩ => ⟨hdead, ?_⟩
                · simpa [line, hq] using hb
                · simpa [hnot] using (hne hdead).symm
            | false =>
                rw [List.filter_cons_of_neg (by simp [hlive])]
                rcases h with hb | ⟨hdead, hnot⟩
                swap
                · exact .inr ⟨hdead, by simpa using hnot⟩
                rw [line, hq, before_append] at hb
                obtain ⟨hb, hrest⟩ := hb
                by_cases hdone : j ∈ s.done
                · obtain ⟨l₁, l₂, hl⟩ := List.append_of_mem hdone
                  have hmem : i ∈ s.done := hl ▸ List.mem_append_left _ (hb l₁ l₂ hl)
                  exact .inl (before_append.mpr ⟨hb, .inl hmem⟩)
                · by_cases hei : e = i
                  · exact .inr ⟨hi (hei ▸ hlive), by simpa using hdone⟩
                  · refine .inl (before_append.mpr ⟨hb, hrest.imp_right fun hrest => ?_⟩)
                    by_cases hej : e = j
                    · exact absurd (hrest [] q (hej ▸ rfl)) (by simp)
                    · exact ((before_cons_of_ne hej).mp hrest).resolve_left hei
          · have hne : e ≠ j := fun heq => hv (heq ▸ s.routed w e (by simp [hq]))
            rw [Ordered, line_run_of_ne hq hv, done_run hq]
            cases hlive : live e with
            | true =>
                rw [List.filter_cons_of_pos hlive]
                refine h.imp (fun hb => hb.insert hne) (And.imp_right fun hnot => ?_)
                simpa [hnot] using hne.symm
            | false =>
                rw [List.filter_cons_of_neg (by simp [hlive])]
                simpa [Ordered, line] using h

/-! ### Jobs from the loop's own thread -/

/-- A job that waits for a busy worker is not done. -/
lemma notMem_done_step (h : i ∉ s.done) (hs : Step new live free s s') (hnew : ¬ new i)
    (hfree : ¬ free (home i)) : i ∉ s'.done := by
  cases hs with
  | idle => exact h
  | post hj => exact h
  | @dispatch thread e he =>
      unfold EventLoops.dispatch
      split
      · have hne : i ≠ e := fun heq => hnew (heq ▸ he)
        simpa [h] using hne
      · exact h
  | @run w hw =>
      cases hq : s.queue w with
      | nil => simpa [run, hq] using h
      | cons e q =>
          have hne : i ≠ e := by
            rintro rfl
            exact hfree (s.routed w i (by simp [hq]) ▸ hw)
          rw [done_run hq]
          simp [h, hne]

/-- A job dispatched on the loop's own thread overtakes what waits. -/
lemma overtaken_dispatch (h : i ∉ s.done) (j : J) :
    (s.dispatch (some (home j)) j).Overtaken i j :=
  ⟨s.done, [], by simp [dispatch], h⟩

lemma Overtaken.step (h : s.Overtaken i j) (hs : Step new live free s s') : s'.Overtaken i j := by
  obtain ⟨l₁, l₂, hl, hi⟩ := h
  obtain ⟨l, hl'⟩ := hs.done_prefix
  exact ⟨l₁, l₂ ++ l, by rw [← hl', hl, List.append_assoc, List.cons_append], hi⟩

end Step

end EventLoops

end Concurrency
