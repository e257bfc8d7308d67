import HashHush.Server

/-!
# Which frames the message handler survives

Frames that make no sense are meant to be answered with an error or a close.  The handler looks
for a field `type` and reads it as a string, and both accessors fail outside their
preconditions: `has` on a value that is no object (but the empty list), `s` on a value that is no
string.  The helper `js_str` checks the type of a field first, the handler does not.

`frame_handled_iff` says exactly which frames are handled: all but those whose text, read on
behalf of a registered connection, is neither an object nor the empty list, or has a `type` that is
no string.
-/

namespace HashHush

open Concurrency System

/-- The string in the field `type` of an object. -/
def Json.type? : Json → Option Str
  | .object fields =>
      match fields.find? fun f => f.1 = ascii "type" with
      | some (_, .string t) => some t
      | _ => none
  | _ => none

/-- The accessors fail on the way to the type: the value is no container, or a list whose items are
compared by their keys, or its field `type` is no string. -/
def Json.trips : Json → Bool
  | .object fields =>
      match fields.find? fun f => f.1 = ascii "type" with
      | some (_, .string _) => false
      | some _ => true
      | none => false
  | .list items => items ≠ []
  | _ => true

/-- The frame is the text of an object with a string `type`. -/
def Inbound.IsTyped (data : Inbound) : Prop := ∃ type, data.json.bind Json.type? = some type

/-- The frame gets past the size check, for a registered connection, and trips an accessor. -/
def Inbound.Trips (cfg : Config) (data : Inbound) (peer : Option Peer) : Prop :=
  castInt data.size ≤ cfg.wsMaxPayloadBytes ∧ peer.isSome = true ∧
    data.json.any Json.trips = true

/-- The connection has been answered with an error or a close, and nothing else has changed. -/
def Refused (c : Conn) (w w' : World Str) : Prop :=
  ∃ out : Outgoing Str, w' = { w with wire := w.wire ++ [(c, out)] } ∧
    ((∃ e, out = .text (.error e)) ∨ ∃ reason, out = .close reason)

/-! ## Reading the type -/

/-- What the accessors make of a value, step by step. -/
lemma Json.reads (j : Json) :
    (j.trips = true ∧ (∃ e, j.has (ascii "type") = .error e)) ∨
    (j.trips = false ∧ j.type? = none ∧ j.has (ascii "type") = .ok false) ∨
    (j.trips = true ∧ j.has (ascii "type") = .ok true ∧
      ∃ v e, j.at' (ascii "type") = .ok v ∧ v.s = .error e) ∨
    ∃ fields t, j = .object fields ∧ j.trips = false ∧ j.type? = some t ∧
      j.has (ascii "type") = .ok true ∧ j.at' (ascii "type") = .ok (.string t) := by
  cases j with
  | object fields =>
      cases hf : fields.find? fun f => f.1 = ascii "type" with
      | none =>
          have hany : (fields.any fun f => f.1 = ascii "type") = false := by
            simpa [List.find?_eq_none] using hf
          exact .inr (.inl ⟨by simp [trips, hf], by simp [type?, hf], congrArg Except.ok hany⟩)
      | some f =>
          have hany : (fields.any fun f => f.1 = ascii "type") = true :=
            List.any_eq_true.mpr ⟨f, List.mem_of_find?_eq_some hf, by
              simpa using List.find?_some hf⟩
          have hhas : (object fields).has (ascii "type") = .ok true := congrArg Except.ok hany
          have hat : (object fields).at' (ascii "type") = .ok f.2 := by simp [at', hf]
          obtain ⟨key, v⟩ := f
          cases v with
          | string t =>
              exact .inr (.inr (.inr ⟨fields, t, rfl, by simp [trips, hf], by simp [type?, hf],
                hhas, hat⟩))
          | _ => exact .inr (.inr (.inl ⟨by simp [trips, hf], hhas, _, _, hat, rfl⟩))
  | list items =>
      cases items with
      | nil => exact .inr (.inl ⟨rfl, rfl, rfl⟩)
      | cons item items => exact .inl ⟨rfl, _, rfl⟩
  | _ => exact .inl ⟨rfl, _, rfl⟩

/-! ## Typed frames -/

section Total

variable {π : Type} (c : Conn)

lemma sendEach_total (frame : Frame π) (cs : List Conn) : (sendEach frame cs).Total := by
  induction cs with
  | nil => trivial
  | cons c cs ih => exact .step fun _ => ih

lemma broadcast_total (r : Str) (frame : Frame π) (except : Option Conn) :
    (broadcast r frame except).Total :=
  .step fun cs => sendEach_total frame cs

lemma sendErrAndClose_total (e : WsError) : (sendErrAndClose (π := π) c e).Total :=
  .step fun _ => .perform _

lemma finalizeJoin_total (peer : Peer) (token : Str) (isFresh : Bool) :
    (finalizeJoin (π := π) c peer token isFresh).Total := by
  refine .step fun _ => .step fun roomRow => .step fun history => .step fun members => ?_
  exact .step fun _ => (broadcast_total _ _ _).bind fun _ => .perform _

lemma sendChallenge_total (pair : ChallengePair) : (sendChallenge (π := π) c pair).Total :=
  .step fun _ => .step fun _ => .perform _

lemma helloWithoutToken_total (peer : Peer) : (helloWithoutToken (π := π) c peer).Total := by
  refine Prog.Total.bind (.step fun roomRow => ?_) fun pair => ?_
  · cases roomRow with
    | none => trivial
    | some row => exact .step fun live => Prog.Total.ite (fun _ => trivial) fun _ => .perform _
  · cases pair with
    | some pair => exact sendChallenge_total c pair
    | none =>
        refine Prog.Total.bind ?_ fun pair => sendChallenge_total c pair
        exact .step fun _ => .step fun _ => .step fun _ => trivial

/-- On an object the helper returns. -/
lemma js_str_total {α : Type} (fields : List (Str × Json)) (key : Str) {f : Str → Handler π α}
    (hf : ∀ t, (f t).Total) : (json (π := π) ((Json.object fields).js_str key) >>= f).Total := by
  rw [Json.js_str_object]
  exact hf _

lemma unjoined_total (peer : Peer) (fields : List (Str × Json)) (type : Str) :
    (unjoined (π := π) c peer (.object fields) type).Total := by
  unfold unjoined
  refine Prog.Total.ite (fun _ => js_str_total fields _ fun token => ?_) fun _ =>
    Prog.Total.ite (fun _ => js_str_total fields _ fun answer => ?_) fun _ =>
      sendErrAndClose_total c _
  · refine Prog.Total.ite (fun _ => .step fun owner => ?_) fun _ => helloWithoutToken_total c peer
    exact Prog.Total.ite (fun _ => finalizeJoin_total c peer token false)
      fun _ => sendErrAndClose_total c _
  · refine Prog.Total.ite (fun _ => sendErrAndClose_total c _) fun _ => .step fun _ => ?_
    refine Prog.Total.ite (fun _ => sendErrAndClose_total c _) fun _ => .step fun inserted => ?_
    exact Prog.Total.ite (fun _ => finalizeJoin_total c peer _ true)
      fun _ => sendErrAndClose_total c _

lemma joined_total (cfg : Config) (wrap : Str → π) (peer : Peer) (fields : List (Str × Json))
    (type : Str) : (joined cfg wrap c peer (.object fields) type).Total := by
  unfold joined
  refine Prog.Total.ite (fun _ => js_str_total fields _ fun payload => ?_) fun _ => ?_
  · refine Prog.Total.ite (fun _ => .perform _) fun _ => Prog.Total.ite (fun _ => .perform _) fun _ => ?_
    refine Prog.Total.ite (fun _ => ?_) fun _ => .step fun ts => broadcast_total _ _ _
    exact .step fun _ => .step fun _ => .step fun ts => broadcast_total _ _ _
  · exact Prog.Total.ite (fun _ => .perform _) fun _ => .perform _

end Total

/-! ## All frames -/

section Frame

variable (cfg : Config) (c : Conn) (data : Inbound) (xs : ℕ → Choice) (w : World Str)

/-- What the handler does with the frame, alone. -/
def handleFrame : Except JsonError Unit × World Str :=
  (onmessage cfg id c data).run (S := signature Str) exec xs w

/-- The part of the handler that reads the frame. -/
def readFrame (peer : Peer) : Handler Str Unit :=
  match data.json with
  | none => sendErr c .badFrame
  | some j => do
      if ← json (j.has (ascii "type")) then
        let type ← json (j.at' (ascii "type"))
        let type ← json type.s
        if peer.joined then joined cfg id c peer j type else unjoined c peer j type
      else sendErr c .badFrame

lemma handleFrame_eq : handleFrame cfg c data xs w =
    if castInt data.size > cfg.wsMaxPayloadBytes then
      (.ok (), { w with wire := w.wire ++ [(c, .close (ascii "payload too large"))] })
    else match w.mgr.peers c with
      | none => (.ok (), { w with wire := w.wire ++ [(c, .close (ascii "no peer"))] })
      | some peer => (readFrame cfg c data peer).run (S := signature Str) exec
          (fun n => xs (n + 1)) w := by
  rw [handleFrame, onmessage]
  split
  · rfl
  · have hfind : ∀ f : Option Peer → Handler Str Unit, (call (.findByConn c) >>= f).run
        (S := signature Str) exec xs w
        = (f (w.mgr.peers c)).run (S := signature Str) exec (fun n => xs (n + 1)) w := fun _ => rfl
    rw [hfind]
    cases w.mgr.peers c <;> rfl

/-- A frame that trips no accessor is read, and refused unless it is typed. -/
lemma readFrame_of_not_trips (peer : Peer) (h : data.json.any Json.trips = false) :
    ((readFrame cfg c data peer).run (S := signature Str) exec xs w).1 = .ok () ∧
      (¬ data.IsTyped → Refused c w
        ((readFrame cfg c data peer).run (S := signature Str) exec xs w).2) := by
  have hrefused : ∀ e, Refused c w { w with wire := w.wire ++ [(c, .text (.error e))] } :=
    fun e => ⟨_, rfl, .inl ⟨e, rfl⟩⟩
  cases hj : data.json with
  | none =>
      simp only [readFrame, hj]
      exact ⟨rfl, fun _ => hrefused _⟩
  | some j =>
      rw [hj, Option.any_some] at h
      rcases j.reads with ⟨ht, -⟩ | ⟨-, -, hhas⟩ | ⟨ht, -⟩ | ⟨fields, t, rfl, -, htype, hhas, hat⟩
      · simp [h] at ht
      · simp only [readFrame, hj, hhas]
        exact ⟨rfl, fun _ => hrefused _⟩
      · simp [h] at ht
      · have htotal : (readFrame cfg c data peer).Total := by
          simp only [readFrame, hj, hhas, hat]
          exact Prog.Total.ite (fun _ => joined_total c cfg id peer fields t)
            fun _ => unjoined_total c peer fields t
        obtain ⟨a, ha⟩ := htotal.run exec xs w
        refine ⟨ha, fun hnot => absurd ⟨t, ?_⟩ hnot⟩
        rw [hj, Option.bind_some, htype]

/-- A frame that trips an accessor ends in its failure. -/
lemma readFrame_of_trips (peer : Peer) (h : data.json.any Json.trips = true) :
    ∃ e, ((readFrame cfg c data peer).run (S := signature Str) exec xs w).1 = .error e := by
  cases hj : data.json with
  | none => simp [hj] at h
  | some j =>
      rw [hj, Option.any_some] at h
      rcases j.reads with ⟨-, e, hhas⟩ | ⟨ht, -⟩ | ⟨-, hhas, v, e, hat, hs⟩ | ⟨-, -, -, ht, -⟩
      · refine ⟨e, ?_⟩
        simp only [readFrame, hj, hhas]
        rfl
      · simp [h] at ht
      · refine ⟨e, ?_⟩
        simp only [readFrame, hj, hhas, hat]
        change (Prog.run (S := signature Str) exec (json v.s >>= fun type =>
          if peer.joined then joined cfg id c peer j type else unjoined c peer j type) xs w).1 = _
        rw [hs]
        rfl
      · simp [h] at ht

/-- **Which frames are handled.**  Run alone in any world, with any outcome of its random draws
and of its SQL, the message handler returns, and refuses the frame without changing anything if
it is not the text of an object with a string `type`, if and only if the frame does not trip an
accessor. -/
theorem frame_handled_iff :
    ((handleFrame cfg c data xs w).1 = .ok () ∧
      (¬ data.IsTyped → Refused c w (handleFrame cfg c data xs w).2)) ↔
    ¬ data.Trips cfg (w.mgr.peers c) := by
  have hclosed : ∀ reason, Refused c w { w with wire := w.wire ++ [(c, .close reason)] } :=
    fun reason => ⟨_, rfl, .inr ⟨reason, rfl⟩⟩
  rw [handleFrame_eq]
  by_cases hsize : castInt data.size > cfg.wsMaxPayloadBytes
  · have hnot : ¬ data.Trips cfg (w.mgr.peers c) := fun h => absurd h.1 (not_le.mpr hsize)
    rw [if_pos hsize]
    exact iff_of_true ⟨rfl, fun _ => hclosed _⟩ hnot
  · rw [if_neg hsize]
    cases hp : w.mgr.peers c with
    | none => exact iff_of_true ⟨rfl, fun _ => hclosed _⟩ fun h => by simpa using h.2.1
    | some peer =>
        cases ht : data.json.any Json.trips with
        | false =>
            refine iff_of_true (readFrame_of_not_trips cfg c data _ w peer ht) fun h => ?_
            exact absurd h.2.2 (by simp [ht])
        | true =>
            obtain ⟨e, he⟩ := readFrame_of_trips cfg c data (fun n => xs (n + 1)) w peer ht
            refine iff_of_false (fun h => ?_) fun h => h ⟨not_lt.mp hsize, rfl, ht⟩
            rw [he] at h
            cases h.1

end Frame

/-- A client opens a connection. -/
def Sample.opens : Script (M := server {} Sample.secret) (boot (Sample.store 2 [] []) 0)
    (fun _ _ => true) (fun _ conf => (conf.world.mgr.peers 0).isSome) where
  labels := Sample.opening 0
  performed := by decide +kernel

/-- A client opens a connection and sends the text `5`. -/
theorem frame_unhandled : ¬ ∀ (cfg : Config) (secret : List UInt8) (db : Database) (clock : ℤ)
    (h : List (server cfg secret).Transition) (conf : State) (c : Conn) (data : Inbound)
    (xs : ℕ → Choice), Run (M := server cfg secret) anyStep (boot db clock) h conf →
      (handleFrame cfg c data xs conf.world).1 = .ok () ∧
        (¬ data.IsTyped → Refused c conf.world (handleFrame cfg c data xs conf.world).2) := by
  intro hall
  obtain ⟨h, conf, hr, hpeer⟩ := Sample.opens.exists_run fun _ _ _ _ => trivial
  have hok := hall _ _ _ _ h conf 0 ⟨1, some (.number 5)⟩ (fun _ => Sample.draw 0) hr
  refine (frame_handled_iff {} 0 ⟨1, some (.number 5)⟩ _ conf.world).mp hok ⟨?_, hpeer, rfl⟩
  change castInt 1 ≤ 8192
  rw [castInt_of_lt (by norm_num)]
  norm_num

end HashHush
