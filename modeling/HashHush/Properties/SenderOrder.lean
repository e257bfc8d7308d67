import HashHush.Properties.Registry

/-!
# What one connection submits, another receives in order

Two connections of a room send at the same time, and their frames may reach two readers in
different orders: nothing orders the broadcasts of different tasks.  The frames of one sender
keep their order.  Its callbacks run one after the other, a callback relays one frame, and the
targets of a broadcast are listed once; so what a sender's callbacks have sent to one receiver is
a part of what the sender submitted, in the same order: nothing is sent twice, overtaken or made
up (`sender_order`), however the calls interleave with those of other tasks.
-/

namespace HashHush

open Concurrency System

/-! ## Contents -/

/-- Type and payload of a submitted frame. -/
def Inbound.content (data : Inbound) : Option (Str × Str) :=
  data.json.bind fun j => j.type?.bind fun type =>
    (j.js_str (ascii "payload")).toOption.map fun payload => (type, payload)

/-- Type and payload of a relayed frame. -/
def Frame.content : Frame Str → Option (Str × Str)
  | .msg _ payload _ => some (ascii "msg", payload)
  | .presence _ payload _ => some (ascii "presence", payload)
  | _ => none

/-- What an operation relays to a connection. -/
def Op.relays (d : Conn) : Op Str → List (Str × Str)
  | .sendText e f => if e = d then f.content.toList else []
  | _ => []

/-- What these calls have relayed to a connection, in order. -/
def relayed (d : Conn) (es : List (Called (signature Str))) : List (Str × Str) :=
  es.flatMap fun e => Op.relays d e.1

/-- What a connection has submitted, in order. -/
def submitted {cfg : Config} {secret : List UInt8} (c : Conn)
    (h : List (server cfg secret).Transition) : List (Str × Str) :=
  h.flatMap fun m =>
    match m.label with
    | .start t (.message data) => if t = .ws c then data.content.toList else []
    | _ => []

/-! ## One callback -/

/-- No target is listed twice. -/
def Op.listsOnce : (o : Op Str) → o.Res → Prop
  | .targets _ _, cs => List.Nodup cs
  | _, _ => True

/-- What has been relayed is a part of what has been submitted. -/
def InOrder (s : List (Str × Str) × List (Str × Str)) : Prop := s.2.Sublist s.1

/-- The view of one sender: what it has submitted, and what has been relayed to `d`. -/
abbrev relaying (d : Conn) : Spec (signature Str) (List (Str × Str) × List (Str × Str)) :=
  .private (fun _ => InOrder) fun o r s s' => o.listsOnce r ∧ s' = (s.1, s.2 ++ Op.relays d o)

/-- The operations that relay nothing. -/
def Op.Unrelayed : Op Str → Prop
  | .sendText _ f => f.content = none
  | _ => True

lemma Op.Unrelayed.relays {o : Op Str} (h : o.Unrelayed) (d : Conn) : o.relays d = [] := by
  cases o with
  | sendText e f =>
      have hf : f.content = none := h
      simp [Op.relays, hf]
  | _ => rfl

section Unrelayed

variable (c : Conn)

lemma sendErr_unrelayed (e : WsError) : (sendErr c e).Only Op.Unrelayed := .perform rfl

lemma sendErrAndClose_unrelayed (e : WsError) : (sendErrAndClose c e).Only Op.Unrelayed :=
  .step rfl fun _ => .perform trivial

lemma finalizeJoin_unrelayed (peer : Peer) (token : Str) (isFresh : Bool) :
    (finalizeJoin c peer token isFresh).Only Op.Unrelayed := by
  refine .step trivial fun _ => .step trivial fun _ => .step trivial fun _ => .step trivial fun _ => ?_
  refine .step rfl fun _ => Prog.Only.bind ?_ fun _ => .perform trivial
  exact broadcast_only (fun _ _ => trivial) (fun _ => rfl) _ _

lemma unjoined_unrelayed (peer : Peer) (j : Json) (type : Str) :
    (unjoined c peer j type).Only Op.Unrelayed := by
  unfold unjoined
  refine Prog.Only.ite (fun _ => .ofExcept fun token _ => ?_) fun _ => Prog.Only.ite (fun _ => ?_)
    fun _ => sendErrAndClose_unrelayed c _
  · refine Prog.Only.ite (fun _ => .step trivial fun owner => ?_) fun _ => ?_
    · exact Prog.Only.ite (fun _ => finalizeJoin_unrelayed c peer token false)
        fun _ => sendErrAndClose_unrelayed c _
    · exact helloWithoutToken_only (fun _ => trivial) (fun _ => trivial) (fun _ => trivial)
        (fun _ => trivial) (fun _ _ => trivial) (fun _ _ => rfl) peer
  · refine .ofExcept fun answer _ => Prog.Only.ite (fun _ => sendErrAndClose_unrelayed c _) fun _ => ?_
    refine .step trivial fun _ => Prog.Only.ite (fun _ => sendErrAndClose_unrelayed c _) fun _ => ?_
    exact .step trivial fun inserted => Prog.Only.ite (fun _ => finalizeJoin_unrelayed c peer _ true)
      fun _ => sendErrAndClose_unrelayed c _

lemma onopen_unrelayed (room : Option Str) : (onopen c room).Only Op.Unrelayed :=
  Prog.Only.ite (fun _ => trivial) fun _ => .step trivial fun _ => .perform trivial

lemma onclose_unrelayed : (onclose c).Only Op.Unrelayed := by
  refine .step trivial fun peer => ?_
  cases peer with
  | none => trivial
  | some p =>
      refine Prog.Only.ite (fun _ => ?_) fun _ => trivial
      exact broadcast_only (fun _ _ => trivial) (fun _ => rfl) _ _

end Unrelayed

section Callback

variable {d c : Conn} {s : List (Str × Str) × List (Str × Str)} {α : Type}

/-- A program that relays nothing keeps the order. -/
lemma wp_of_unrelayed {p : Handler Str α} (hp : p.Only Op.Unrelayed) (hs : InOrder s) :
    p.Wp (relaying d) (fun _ => InOrder) s := by
  refine hp.wp_of_invariant (J := InOrder) ?_ (fun _ _ _ h => h) ?_ (fun _ _ h => h) hs
  · rintro s _ rfl h
    exact h
  · rintro o r s _ ho h ⟨-, rfl⟩
    rwa [ho.relays d, List.append_nil]

/-- One step of a program that goes on relaying. -/
lemma relaying_step {o : Op Str} {f : o.Res → Handler Str α}
    {Q : Except JsonError α → List (Str × Str) × List (Str × Str) → Prop}
    (hs : InOrder s) (ho : o.relays d = []) (hf : ∀ r, o.listsOnce r → (f r).Wp (relaying d) Q s) :
    (call o >>= f).Wp (relaying d) Q s := by
  apply Prog.Wp.step
  rintro _ rfl
  refine ⟨hs, ?_⟩
  rintro r _ ⟨hr, rfl⟩
  rw [ho, List.append_nil]
  exact hf r hr

/-- Sending to a list without `d` relays nothing to `d`. -/
lemma sendEach_notMem {f : Frame Str} {cs : List Conn} (hd : d ∉ cs) (hs : InOrder s) :
    (sendEach f cs).Wp (relaying d) (fun _ => InOrder) s := by
  induction cs with
  | nil => exact hs
  | cons e cs ih =>
      have he : e ≠ d := fun he => hd (he ▸ List.mem_cons_self)
      apply relaying_step (o := Op.sendText e f) hs (if_neg he)
      exact fun _ _ => ih fun hmem => hd (List.mem_cons_of_mem _ hmem)

/-- Sending the last submission to a list without repetitions relays it to `d` at most once. -/
lemma sendEach_inOrder {f : Frame Str} {x : Str × Str} (hf : f.content = some x) {cs : List Conn}
    (hcs : cs.Nodup) {sub rel : List (Str × Str)} (hs : rel.Sublist sub) :
    (sendEach f cs).Wp (relaying d) (fun _ => InOrder) (sub ++ [x], rel) := by
  have hkept : InOrder (sub ++ [x], rel) := hs.trans (List.sublist_append_left _ _)
  induction cs with
  | nil => exact hkept
  | cons e cs ih =>
      obtain ⟨he, hcs⟩ := List.nodup_cons.mp hcs
      by_cases hed : e = d
      · subst hed
        apply Prog.Wp.step
        rintro _ rfl
        refine ⟨hkept, ?_⟩
        rintro r _ ⟨-, rfl⟩
        have hrelays : Op.relays e (.sendText e f) = [x] := by
          rw [Op.relays, if_pos rfl, hf, Option.toList_some]
        rw [hrelays]
        exact sendEach_notMem he (List.Sublist.append hs (List.Sublist.refl _))
      · apply relaying_step (o := Op.sendText e f) hkept (if_neg hed)
        exact fun _ _ => ih hcs

lemma broadcast_inOrder {r : Str} {f : Frame Str} {except : Option Conn} {x : Str × Str}
    (hf : f.content = some x) {sub rel : List (Str × Str)} (hs : rel.Sublist sub) :
    (broadcast r f except).Wp (relaying d) (fun _ => InOrder) (sub ++ [x], rel) :=
  relaying_step (hs.trans (List.sublist_append_left _ _)) rfl fun _ hcs =>
    sendEach_inOrder hf hcs hs

/-- What a joined connection does with a frame. -/
lemma joined_inOrder (cfg : Config) (peer : Peer) {j : Json} {type payload : Str}
    (hpayload : j.js_str (ascii "payload") = .ok payload) {sub rel : List (Str × Str)}
    (hs : rel.Sublist sub) :
    (joined cfg id c peer j type).Wp (relaying d) (fun _ => InOrder)
      (sub ++ [(type, payload)], rel) := by
  have hkept : InOrder (sub ++ [(type, payload)], rel) := hs.trans (List.sublist_append_left _ _)
  have herr : ∀ e, (sendErr c e : Handler Str Unit).Wp (relaying d) (fun _ => InOrder)
      (sub ++ [(type, payload)], rel) := fun e => wp_of_unrelayed (.perform rfl) hkept
  unfold joined
  apply Prog.Wp.ite
  · intro htype
    rw [hpayload, json_ok_bind]
    apply Prog.Wp.ite (fun _ => herr _)
    intro _
    apply Prog.Wp.ite (fun _ => herr _)
    intro _
    apply Prog.Wp.ite
    · rintro rfl
      apply relaying_step hkept rfl fun _ _ => ?_
      apply relaying_step hkept rfl fun _ _ => ?_
      apply relaying_step hkept rfl fun ts _ => ?_
      exact broadcast_inOrder rfl hs
    · intro hmsg
      obtain rfl : type = ascii "presence" := htype.resolve_left hmsg
      apply relaying_step hkept rfl fun ts _ => ?_
      exact broadcast_inOrder rfl hs
  · intro _
    apply Prog.Wp.ite (fun _ => ?_) fun _ => herr _
    exact wp_of_unrelayed (.perform rfl) hkept

/-- A frame keeps the order, once its content counts as submitted. -/
lemma onmessage_inOrder (cfg : Config) (data : Inbound) {sub rel : List (Str × Str)}
    (hs : rel.Sublist sub) :
    (onmessage cfg id c data).Wp (relaying d) (fun _ => InOrder)
      (sub ++ data.content.toList, rel) := by
  have hkept : InOrder (sub ++ data.content.toList, rel) :=
    hs.trans (List.sublist_append_left _ _)
  have hclose : ∀ reason, (call (.close c reason) : Handler Str Unit).Wp (relaying d)
      (fun _ => InOrder) (sub ++ data.content.toList, rel) := by
    intro reason
    have honly : (call (.close c reason) : Handler Str Unit).Only Op.Unrelayed :=
      ⟨trivial, fun _ => trivial⟩
    exact wp_of_unrelayed honly hkept
  unfold onmessage
  apply Prog.Wp.ite (fun _ => hclose _)
  intro _
  apply relaying_step hkept rfl
  rintro (_ | peer) -
  · exact hclose _
  cases hjson : data.json with
  | none => exact wp_of_unrelayed (sendErr_unrelayed c _) hkept
  | some j =>
      simp only
      rcases j.reads with ⟨-, e, hhas⟩ | ⟨-, -, hhas⟩ | ⟨-, hhas, v, e, hat, hv⟩ |
        ⟨fields, type, hj, -, htype, hhas, hat⟩
      · rw [hhas]
        exact hkept
      · rw [hhas, json_ok_bind]
        exact wp_of_unrelayed (sendErr_unrelayed c _) hkept
      · rw [hhas, json_ok_bind, if_pos rfl, hat, json_ok_bind, hv]
        exact hkept
      · rw [hhas, json_ok_bind, if_pos rfl, hat, json_ok_bind]
        change (json (.ok type) >>= fun type => _ : Handler Str Unit).Wp _ _ _
        rw [json_ok_bind]
        apply Prog.Wp.ite
        · intro _
          obtain ⟨payload, hpayload⟩ : ∃ payload, j.js_str (ascii "payload") = .ok payload := by
            rw [hj]
            exact ⟨_, Json.js_str_object fields _ _⟩
          have hcontent : data.content.toList = [(type, payload)] := by
            rw [Inbound.content, hjson, Option.bind_some, htype, Option.bind_some, hpayload]
            rfl
          rw [hcontent]
          exact joined_inOrder cfg peer hpayload hs
        · intro _
          exact wp_of_unrelayed (unjoined_unrelayed c peer j type) hkept

end Callback

/-! ## Runs -/

section Run

variable {cfg : Config} {secret : List UInt8} {db : Database} {clock : ℤ}
variable {ok : List (server cfg secret).Transition → (server cfg secret).Transition → Prop}
variable {h : List (server cfg secret).Transition} {conf conf' : State}

lemma relayed_snoc (d : Conn) (es : List (Called (signature Str))) (e : Called (signature Str)) :
    relayed d (es ++ [e]) = relayed d es ++ Op.relays d e.1 := by
  rw [relayed, List.flatMap_append, List.flatMap_singleton]
  rfl

lemma submitted_snoc (c : Conn) (m : (server cfg secret).Transition) :
    submitted c (h ++ [m]) = submitted c h ++ submitted c [m] := by
  rw [submitted, List.flatMap_append]
  rfl

/-- Only a callback that takes up a frame submits it. -/
lemma submitted_of_not_isOf {c : Conn} {m : (server cfg secret).Transition}
    (hm : ¬ m.label.IsOf (Task.ws c)) : submitted c [m] = [] := by
  obtain ⟨conf, l, conf'⟩ := m
  cases l with
  | start t i =>
      have ht : t ≠ .ws c := hm
      cases i <;> simp [submitted, ht]
  | _ => rfl

/-- What has been relayed is a part of what has been submitted, at any time. -/
lemma relayed_sublist (hr : Run (M := server cfg secret) ok (boot db clock) h conf) (c d : Conn) :
    (relayed d (calls (M := server cfg secret) (Task.ws c) h)).Sublist (submitted c h) := by
  have hserves : Serves (M := server cfg secret) (relaying d) InOrder (conf.task (.ws c))
      (submitted c h, relayed d (calls (M := server cfg secret) (Task.ws c) h)) := by
    refine hr.modular (M := server cfg secret) (Task.ws c) (fun h _ =>
      (submitted c h, relayed d (calls (M := server cfg secret) (Task.ws c) h))) ?_ ?_ ?_ ?_ ?_
    · rintro s _ rfl hs
      exact hs
    · exact List.Sublist.refl []
    · intro h conf i conf' hr hs _ hkept
      obtain ⟨-, hadm, -⟩ := step_start hs
      simp only [submitted_snoc, calls_start]
      cases i with
      | opened room =>
          rw [show submitted c [_] = [] from rfl, List.append_nil]
          exact wp_of_unrelayed (onopen_unrelayed c room) hkept
      | message data =>
          have hsub : submitted c [(⟨conf, .start (Task.ws c) (.message data), conf'⟩ :
              (server cfg secret).Transition)] = data.content.toList := by
            simp [submitted]
          rw [hsub]
          exact onmessage_inOrder cfg data hkept
      | closed =>
          rw [show submitted c [_] = [] from rfl, List.append_nil]
          exact wp_of_unrelayed (onclose_unrelayed c) hkept
      | _ => exact absurd hadm (by simp [admits])
    · intro h conf x conf' o k hr hs _ ht _
      rw [submitted_snoc, calls_advance ht, relayed_snoc]
      refine ⟨?_, by rw [show submitted c [_] = [] from rfl, List.append_nil]⟩
      cases o with
      | targets r e => exact (registry_consistent hr).nodup_targets r e
      | _ => trivial
    · intro h conf l conf' _ _ _ hl
      rw [submitted_snoc, submitted_of_not_isOf hl, calls_of_not_isOf hl, List.append_nil]
      rfl
  cases hp : conf.task (.ws c) with
  | none =>
      rw [hp] at hserves
      exact hserves
  | some p =>
      rw [hp] at hserves
      cases p with
      | call o k => exact (hserves _ rfl).1
      | _ => exact hserves

/-- **One sender, one receiver, one order.**  In every run, what the callbacks of a connection
have relayed to another one is a part of what the connection has submitted, in the same order:
every frame that arrives was submitted, none arrives twice, and none overtakes another. -/
theorem sender_order (hr : Run (M := server cfg secret) ok (boot db clock) h conf) (c d : Conn) :
    (relayed d (calls (M := server cfg secret) (Task.ws c) h)).Sublist (submitted c h) :=
  relayed_sublist hr c d

end Run

/-- A connection joins and says two things, which it is sent itself. -/
def Sample.twice : Script (M := server {} Sample.secret)
    (boot (Sample.store 2 [] [Sample.token]) 0) (fun _ _ => true)
    (fun h (_ : State) => relayed 0 (calls (M := server {} Sample.secret) (Task.ws 0) h)
      = [(ascii "msg", ascii "hi"), (ascii "msg", ascii "ho")]) where
  labels := Sample.opening 0 ++ Sample.joining 0 Sample.token 9
    ++ Sample.handle (.ws 0) (Sample.frame [("type", "msg"), ("payload", "hi")]) 6
    ++ Sample.handle (.ws 0) (Sample.frame [("type", "msg"), ("payload", "ho")]) 6
  performed := by decide +kernel

/-- It has submitted the first before the second. -/
theorem sender_order_sample : ∃ (h : List (server {} Sample.secret).Transition) (conf : State),
    Run anyStep (boot (Sample.store 2 [] [Sample.token]) 0) h conf ∧
      [(ascii "msg", ascii "hi"), (ascii "msg", ascii "ho")].Sublist (submitted 0 h) := by
  obtain ⟨h, conf, hr, hrelayed⟩ := Sample.twice.exists_run fun _ _ _ _ => trivial
  have horder := sender_order hr 0 0
  rw [of_decide_eq_true hrelayed] at horder
  exact ⟨h, conf, hr, horder⟩

end HashHush
