import HashHush.Properties.PayloadRoundTrip
import HashHush.Properties.SenderOrder

/-!
# What is said and what is heard

The pages at both ends of the server.  Every page behind a connection encrypts what it sends under
the key of the room, and a page that holds the key reads the frames that another connection is
sent.  `heard_as_said`: what the frames of one connection tell the view at another is a part of what
the pages behind the first have said, in their order and word for word, whatever the server does at
the same time.
-/

namespace HashHush.Web

open Concurrency System

/-! ## What a page says -/

/-- A text that a page sends, or its nickname alone. -/
structure Post (key : List UInt8) where
  client : ContentClient
  message : Option JsString
  nonce : List UInt8
  joined : client.joined = true
  keyed : client.key = some key
  length_nonce : nonce.length = 24

/-- What a view is told of chat content. -/
inductive Utterance
  | message (text nick : Option JsValue)
  | nickname (nick : Option JsValue)

def Callback.utterance : Callback → Option Utterance
  | .onMessage _ _ text nick _ => some (.message text nick)
  | .onPresence _ nick => some (.nickname nick)
  | _ => none

namespace Post

variable {key : List UInt8} (p : Post key)

/-- What the page sends. -/
def sent (S : Sodium) : Option ContentMessage :=
  match p.message with
  | some message => p.client.sendChat S p.nonce message
  | none => p.client.announcePresence S p.nonce

/-- Type and payload of what the page sends. -/
def content (S : Sodium) : Option (Str × Str) := (p.sent S).map fun m => (m.type, m.payload)

/-- What the page says. -/
def utterance : Utterance :=
  match p.message with
  | some message => .message (some (.string message)) (some (.string p.client.nickname))
  | none => .nickname (some (.string p.client.nickname))

end Post

/-! ## What a page hears -/

/-- What a page makes of a frame with this type and payload. -/
def heard (reader : ContentClient) (S : Sodium) (x : Str × Str) : List (Option Utterance) :=
  match reader.decryptPayload S (text x.2) with
  | none => []
  | some obj =>
      if x.1 = ascii "msg" then
        if obj.hasKind "chat" then [some (.message (obj.field "text") (obj.field "nick"))] else []
      else if obj.hasKind "presence" then [some (.nickname (obj.field "nick"))] else []

variable {S : Sodium} {key : List UInt8} {reader : ContentClient}

/-- What a view is told of a relayed frame depends on its type and payload. -/
lemma utterances_eq {f : Frame Str} {x : Str × Str} (hf : f.content = some x) :
    (reader.callbacks S (readFrame f)).map Callback.utterance = heard reader S x := by
  have hne : ascii "presence" ≠ ascii "msg" := by simp [ascii]
  cases f with
  | msg peerId payload ts =>
      obtain rfl : (ascii "msg", payload) = x := Option.some.inj hf
      simp only [readFrame, ContentClient.callbacks, heard]
      cases reader.decryptPayload S (text payload) with
      | none => rfl
      | some obj => by_cases hkind : obj.hasKind "chat" = true <;> simp [hkind, Callback.utterance]
  | presence peerId payload ts =>
      obtain rfl : (ascii "presence", payload) = x := Option.some.inj hf
      simp only [readFrame, ContentClient.callbacks, heard]
      cases reader.decryptPayload S (text payload) with
      | none => rfl
      | some obj =>
          by_cases hkind : obj.hasKind "presence" = true <;> simp [hkind, hne, Callback.utterance]
  | _ => simp [Frame.content] at hf

/-- Whoever holds the key hears what was said, and hears it once. -/
lemma heard_post (hS : S.Aead) (hkey : key.length = 32) (hreader : reader.key = some key)
    (p : Post key) : ∃ x, p.content S = some x ∧ heard reader S x = [some p.utterance] := by
  have hne : ascii "presence" ≠ ascii "msg" := by simp [ascii]
  cases hmessage : p.message with
  | some message =>
      obtain ⟨m, hm, htype, -, hread⟩ :=
        ContentClient.sendChat_spec hS p.joined p.keyed hkey p.length_nonce message
      obtain ⟨obj, hobj, hkind, htext, hnick⟩ := hread reader hreader
      refine ⟨(m.type, m.payload), ?_, ?_⟩
      · simp only [Post.content, Post.sent, hmessage, hm, Option.map_some]
      · simp only [heard, hobj, htype, hkind, htext, hnick, Post.utterance, hmessage, if_true]
        rfl
  | none =>
      obtain ⟨m, hm, htype, -, hread⟩ :=
        ContentClient.announcePresence_spec hS p.joined p.keyed hkey p.length_nonce
      obtain ⟨obj, hobj, hkind, -, hnick⟩ := hread reader hreader
      refine ⟨(m.type, m.payload), ?_, ?_⟩
      · simp only [Post.content, Post.sent, hmessage, hm, Option.map_some]
      · simp only [heard, hobj, htype, hkind, hnick, Post.utterance, hmessage, if_neg hne, if_true]

/-! ## Between the pages -/

/-- The frame with content that an operation sends to a connection. -/
def delivers (d : Conn) : Op Str → Option (Frame Str)
  | .sendText e f => if e = d ∧ f.content.isSome then some f else none
  | _ => none

/-- The frames with content that these calls have sent to a connection, in order. -/
def delivered (d : Conn) (es : List (Called (signature Str))) : List (Frame Str) :=
  es.filterMap fun e => delivers d e.1

/-- What a connection has submitted as chat content, in order. -/
def spoken {cfg : Config} {secret : List UInt8} (c : Conn)
    (h : List (server cfg secret).Transition) : List (Str × Str) :=
  (submitted c h).filter fun x => x.1 = ascii "msg" ∨ x.1 = ascii "presence"

lemma isSome_content {d : Conn} {es : List (Called (signature Str))} {f : Frame Str}
    (hf : f ∈ delivered d es) : f.content.isSome = true := by
  obtain ⟨e, -, he⟩ := List.mem_filterMap.mp hf
  cases ho : e.1 with
  | sendText d' f' =>
      rw [ho, delivers] at he
      obtain ⟨⟨-, hcontent⟩, hsame⟩ := Option.ite_none_right_eq_some.mp he
      exact Option.some.inj hsame ▸ hcontent
  | _ =>
      rw [ho] at he
      cases he

/-- The contents of these frames are what has been relayed. -/
lemma filterMap_delivered (d : Conn) (es : List (Called (signature Str))) :
    (delivered d es).filterMap Frame.content = relayed d es := by
  have hone : ∀ o : Op Str, (delivers d o).toList.filterMap Frame.content = Op.relays d o := by
    intro o
    cases o with
    | sendText e f =>
        by_cases he : e = d
        · cases hf : f.content with
          | none => simp [delivers, Op.relays, he, hf]
          | some x => simp [delivers, Op.relays, he, hf]
        · simp [delivers, Op.relays, he]
    | _ => rfl
  induction es with
  | nil => rfl
  | cons e es ih =>
      have hsplit : delivered d (e :: es) = (delivers d e.1).toList ++ delivered d es := by
        unfold delivered
        cases h : delivers d e.1 <;> simp [h]
      rw [hsplit, List.filterMap_append, hone, ih]
      rfl

/-- What has been relayed was submitted as chat content. -/
lemma filter_relayed (d : Conn) (es : List (Called (signature Str))) :
    (relayed d es).filter (fun x => x.1 = ascii "msg" ∨ x.1 = ascii "presence") = relayed d es := by
  refine List.filter_eq_self.mpr fun x hx => ?_
  rw [← filterMap_delivered] at hx
  obtain ⟨f, -, hf⟩ := List.mem_filterMap.mp hx
  cases f with
  | msg peerId payload ts =>
      obtain rfl : (ascii "msg", payload) = x := Option.some.inj hf
      simp
  | presence peerId payload ts =>
      obtain rfl : (ascii "presence", payload) = x := Option.some.inj hf
      simp
  | _ => simp [Frame.content] at hf

/-- What a page is told of frames with content, in order. -/
lemma flatMap_utterances {fs : List (Frame Str)} (hfs : ∀ f ∈ fs, f.content.isSome = true) :
    fs.flatMap (fun f => (reader.callbacks S (readFrame f)).map Callback.utterance)
      = (fs.filterMap Frame.content).flatMap (heard reader S) := by
  induction fs with
  | nil => rfl
  | cons f fs ih =>
      obtain ⟨hf, hfs⟩ := List.forall_mem_cons.mp hfs
      obtain ⟨x, hx⟩ := Option.isSome_iff_exists.mp hf
      rw [List.flatMap_cons, List.filterMap_cons_some hx, List.flatMap_cons, utterances_eq hx, ih hfs]

/-- What a page is told of posts, in order. -/
lemma flatMap_heard (hS : S.Aead) (hkey : key.length = 32) (hreader : reader.key = some key)
    (posts : List (Post key)) :
    (posts.filterMap (Post.content · S)).flatMap (heard reader S)
      = posts.map fun p => some p.utterance := by
  induction posts with
  | nil => rfl
  | cons p posts ih =>
      obtain ⟨x, hx, hheard⟩ := heard_post hS hkey hreader p
      rw [List.filterMap_cons_some (f := (Post.content · S)) hx, List.flatMap_cons, hheard, ih]
      rfl

variable {cfg : Config} {secret : List UInt8} {db : Database} {clock : ℤ} {conf : State}
  {h : List (server cfg secret).Transition}
  {ok : List (server cfg secret).Transition → (server cfg secret).Transition → Prop}

/-- **What is heard was said.**  Where pages with the key have written the chat content that a
connection has submitted, a page with the key that reads what the callbacks of this connection have
sent to another is told what those pages said: in their order, nothing twice, nothing altered and
nothing else. -/
theorem heard_as_said (hS : S.Aead) (hkey : key.length = 32)
    (hr : Run (M := server cfg secret) ok (boot db clock) h conf) (c d : Conn)
    {posts : List (Post key)} (hposts : spoken c h = posts.filterMap (Post.content · S)) :
    ∃ received : List (Post key), received.Sublist posts ∧ ∀ reader : ContentClient, reader.key = some key →
      (delivered d (calls (M := server cfg secret) (Task.ws c) h)).flatMap
          (fun f => (reader.callbacks S (readFrame f)).map Callback.utterance)
        = received.map fun p => some p.utterance := by
  have hrelayed : (relayed d (calls (M := server cfg secret) (Task.ws c) h)).Sublist
      (posts.filterMap (Post.content · S)) := by
    rw [← hposts, ← filter_relayed, spoken]
    exact (relayed_sublist hr c d).filter _
  obtain ⟨received, hsub, heq⟩ := List.sublist_filterMap_iff.mp hrelayed
  refine ⟨received, hsub, fun reader hreader => ?_⟩
  rw [flatMap_utterances fun f hf => isSome_content hf, filterMap_delivered, heq,
    flatMap_heard hS hkey hreader]

namespace Sample

/-- A greeting under the nickname `B`. -/
def greeting : Post (List.replicate 32 7) where
  client := ⟨{ key := some (List.replicate 32 7), token := none, joined := true }, [66], none⟩
  message := some [65]
  nonce := List.replicate 24 1
  joined := rfl
  keyed := rfl
  length_nonce := rfl

/-- What the page sends for it. -/
def greetingMessage : ContentMessage := (greeting.sent keyed).getD ⟨[], []⟩

/-- Two connections join, and the first sends the greeting. -/
def greets : Script (M := server {} HashHush.Sample.secret)
    (boot (HashHush.Sample.store 2 [] [HashHush.Sample.token, ascii "another token"]) 0)
    (fun _ _ => true)
    (fun h (_ : State) => spoken 0 h = [greeting].filterMap (Post.content · keyed) ∧
      (delivered 1 (calls (M := server {} HashHush.Sample.secret) (Task.ws 0) h)).length = 1) where
  labels := HashHush.Sample.gathering
    ++ HashHush.Sample.handle (.ws 0) (.message ⟨200, some (.object greetingMessage.fields)⟩) 7
  performed := by decide +kernel

end Sample

/-- The greeting is heard at the other connection. -/
theorem heard_as_said_sample : ∃ (h : List (server {} HashHush.Sample.secret).Transition)
    (received : List (Post (List.replicate 32 7))), received.Sublist [Sample.greeting] ∧
      (delivered 1 (calls (M := server {} HashHush.Sample.secret) (Task.ws 0) h)).length = 1 ∧
      (delivered 1 (calls (M := server {} HashHush.Sample.secret) (Task.ws 0) h)).flatMap (fun f =>
          (Sample.greeting.client.callbacks Sample.keyed (readFrame f)).map Callback.utterance)
        = received.map fun p => some p.utterance := by
  obtain ⟨h, conf, hr, hend⟩ := Sample.greets.exists_run fun _ _ _ _ => trivial
  obtain ⟨hspoken, hlength⟩ := of_decide_eq_true hend
  have hrun : Run (M := server {} HashHush.Sample.secret) anyStep
      (boot (HashHush.Sample.store 2 [] [HashHush.Sample.token, ascii "another token"]) 0) h conf := hr
  obtain ⟨received, hsub, hheard⟩ :=
    heard_as_said Sample.aead_keyed (List.length_replicate ..) hrun 0 1 hspoken
  exact ⟨h, received, hsub, hlength, hheard Sample.greeting.client rfl⟩

end HashHush.Web
