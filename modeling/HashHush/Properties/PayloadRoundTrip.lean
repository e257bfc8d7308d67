import HashHush.Properties.Base64
import HashHush.Properties.Registry
import HashHush.Web.Content

/-!
# The payload of a message

`payload_roundTrip`: what `sendChat` and `announcePresence` put into a payload is sent on by the
server as it is, to the room of the sender (`IsRelayed`), and read by every client with the key, `onMessage` and `onPresence` are called with what was read
and with nothing else, and a payload that is not such an object (`Malformed`) is dropped.
-/

namespace HashHush.Web

open Concurrency System

/-- What the page relies on in libsodium: authenticated encryption with nonces of 24 bytes and keys of
32, which throws on a nonce of another length and on another key, and standard base64. -/
structure Sodium.Aead (S : Sodium) : Prop where
  decrypt_encrypt : ∀ m n k : List UInt8, n.length = 24 → k.length = 32 →
    S.decrypt (S.encrypt m n k) n k = some m
  decrypt_other : ∀ m n k k' : List UInt8, n.length = 24 → k.length = 32 → k'.length = 32 → k' ≠ k →
    S.decrypt (S.encrypt m n k) n k' = none
  decrypt_nonce : ∀ c n k : List UInt8, n.length ≠ 24 → S.decrypt c n k = none
  toB64_eq : ∀ bytes, S.toB64 bytes = base64Encode bytes
  fromB64_toB64 : ∀ bytes, S.fromB64 (S.toB64 bytes) = some bytes

/-- The payloads that are dropped. -/
inductive Malformed (S : Sodium) (key : Option (List UInt8)) (payload : JsString) : Prop
  | notBase64 (h : S.fromB64 (encode payload) = none)
  | tooShort {blob : List UInt8} (h : S.fromB64 (encode payload) = some blob)
      (hshort : blob.length < 24)
  | noKey (h : key = none)
  | notAuthentic {blob k : List UInt8} (h : S.fromB64 (encode payload) = some blob)
      (hkey : key = some k) (hopen : S.decrypt (blob.drop 24) (blob.take 24) k = none)
  | notJson {blob k pt : List UInt8} (h : S.fromB64 (encode payload) = some blob)
      (hkey : key = some k) (hopen : S.decrypt (blob.drop 24) (blob.take 24) k = some pt)
      (hparse : JSON.parse (decode pt) = none)
  | otherKind {blob k pt : List UInt8} {obj : JsValue}
      (h : S.fromB64 (encode payload) = some blob) (hkey : key = some k)
      (hopen : S.decrypt (blob.drop 24) (blob.take 24) k = some pt)
      (hparse : JSON.parse (decode pt) = some obj) (hchat : obj.hasKind "chat" = false)
      (hpresence : obj.hasKind "presence" = false)

namespace ContentClient

variable {S : Sodium} {c d : ContentClient} {key nonce : List UInt8}

/-! ## Sending -/

lemma sendEncrypted_eq (hjoined : c.joined = true) (hkey : c.key = some key) (nonce : List UInt8)
    (wsType : String) (payloadObj : List (JsString × JsString)) :
    c.sendEncrypted S nonce wsType payloadObj = some ⟨ascii wsType,
      S.toB64 (nonce ++ S.encrypt (encode (JSON.stringify payloadObj)) nonce key)⟩ := by
  rw [sendEncrypted, hjoined, hkey]
  rfl

/-! ## Receiving -/

lemma lt_of_mem_base64Encode (bytes : List UInt8) : ∀ c ∈ base64Encode bytes, c.toNat < 128 := by
  have key : ∀ i < 64, (kB64.getD i 0).toNat < 128 := by decide +kernel
  have hchar : ∀ v, (b64Char v).toNat < 128 := fun v => key _ (b64Char_lt v)
  have hpad : '='.toNat.toUInt8.toNat < 128 := by decide
  fun_induction base64Encode bytes with
  | case1 a b c rest v ih =>
      simp only [List.forall_mem_cons]
      exact ⟨hchar _, hchar _, hchar _, hchar _, ih⟩
  | case2 a b v =>
      simp only [List.forall_mem_cons]
      exact ⟨hchar _, hchar _, hchar _, hpad, List.forall_mem_nil _⟩
  | case3 a v =>
      simp only [List.forall_mem_cons]
      exact ⟨hchar _, hchar _, hpad, hpad, List.forall_mem_nil _⟩
  | case4 => exact List.forall_mem_nil _

lemma encode_toB64 (hS : S.Aead) (bytes : List UInt8) :
    encode (text (S.toB64 bytes)) = S.toB64 bytes := by
  rw [hS.toB64_eq]
  exact encode_text (lt_of_mem_base64Encode bytes)

/-- The objects that `#decryptPayload` returns. -/
def IsContent (obj : JsValue) : Prop := (obj.hasKind "chat" || obj.hasKind "presence") = true

instance : DecidablePred IsContent := fun _ => inferInstanceAs (Decidable (_ = true))

/-- The steps up to the last one, where none of them throws. -/
lemma decryptPayload_of_parse {payload : JsString} {blob pt : List UInt8} {obj : JsValue}
    (hblob : S.fromB64 (encode payload) = some blob) (hkey : d.key = some key)
    (hopen : S.decrypt (blob.drop 24) (blob.take 24) key = some pt)
    (hparse : JSON.parse (decode pt) = some obj) :
    d.decryptPayload S payload = if IsContent obj then some obj else none := by
  rw [decryptPayload, hblob, Option.bind_eq_bind, Option.bind_some]
  dsimp only [NPUB]
  rw [hkey, Option.bind_some, hopen, Option.bind_some, hparse]
  rfl

/-- The text of an object survives the encoding. -/
lemma decode_encode_stringify (fields : List (JsString × JsString)) :
    decode (encode (JSON.stringify fields)) = JSON.stringify fields := by
  have hbrace : some (codeUnit '{') ≠ some 0xFEFF := by decide
  exact decode_encode (JSON.isWellFormed_stringify fields) hbrace

/-- An object that was encrypted under the key is read. -/
lemma decryptPayload_of_sent (hS : S.Aead) (hd : d.key = some key) (hkey : key.length = 32)
    (hnonce : nonce.length = 24) {fields : List (JsString × JsString)} (hne : fields ≠ [])
    (hcontent : IsContent (.object (JSON.stringFields fields))) :
    d.decryptPayload S
        (text (S.toB64 (nonce ++ S.encrypt (encode (JSON.stringify fields)) nonce key))) =
      some (.object (JSON.stringFields fields)) := by
  have hblob : S.fromB64 (encode (text
      (S.toB64 (nonce ++ S.encrypt (encode (JSON.stringify fields)) nonce key))))
      = some (nonce ++ S.encrypt (encode (JSON.stringify fields)) nonce key) := by
    rw [encode_toB64 hS, hS.fromB64_toB64]
  have hopen : S.decrypt
      ((nonce ++ S.encrypt (encode (JSON.stringify fields)) nonce key).drop 24)
      ((nonce ++ S.encrypt (encode (JSON.stringify fields)) nonce key).take 24) key
      = some (encode (JSON.stringify fields)) := by
    rw [← hnonce, List.drop_left, List.take_left]
    exact hS.decrypt_encrypt _ _ _ hnonce hkey
  have hparse : JSON.parse (decode (encode (JSON.stringify fields)))
      = some (.object (JSON.stringFields fields)) := by
    rw [decode_encode_stringify, JSON.parse_stringify hne]
  rw [decryptPayload_of_parse hblob hd hopen hparse, if_pos hcontent]

/-- A payload is dropped exactly for one of the reasons. -/
lemma decryptPayload_eq_none_iff (hS : S.Aead) (payload : JsString) :
    d.decryptPayload S payload = none ↔ Malformed S d.key payload := by
  constructor
  · intro h
    cases hblob : S.fromB64 (encode payload) with
    | none => exact .notBase64 hblob
    | some blob =>
        cases hkey : d.key with
        | none => exact .noKey rfl
        | some k =>
            cases hopen : S.decrypt (blob.drop 24) (blob.take 24) k with
            | none => exact .notAuthentic hblob rfl hopen
            | some pt =>
                cases hparse : JSON.parse (decode pt) with
                | none => exact .notJson hblob rfl hopen hparse
                | some obj =>
                    rw [decryptPayload_of_parse hblob hkey hopen hparse] at h
                    have hother : ¬ IsContent obj := fun hyes => by
                      rw [if_pos hyes] at h
                      cases h
                    rw [IsContent, Bool.or_eq_true, not_or, Bool.not_eq_true, Bool.not_eq_true]
                      at hother
                    exact .otherKind hblob rfl hopen hparse hother.1 hother.2
  · intro h
    rw [decryptPayload]
    cases h with
    | notBase64 h =>
        rw [h]
        rfl
    | @tooShort blob h hshort =>
        have hnonce : (blob.take 24).length ≠ 24 := by
          rw [List.length_take]
          omega
        rw [h, Option.bind_eq_bind, Option.bind_some]
        dsimp only [NPUB]
        cases d.key with
        | none => rfl
        | some k =>
            rw [Option.bind_some, hS.decrypt_nonce _ _ _ hnonce]
            rfl
    | noKey h =>
        rw [h]
        cases S.fromB64 (encode payload) <;> rfl
    | notAuthentic h hkey hopen =>
        rw [h, hkey, Option.bind_eq_bind, Option.bind_some]
        dsimp only [NPUB]
        rw [Option.bind_some, hopen]
        rfl
    | notJson h hkey hopen hparse =>
        rw [h, hkey, Option.bind_eq_bind, Option.bind_some]
        dsimp only [NPUB]
        rw [Option.bind_some, hopen, Option.bind_some, hparse]
        rfl
    | @otherKind blob k pt obj h hkey hopen hparse hchat hpresence =>
        have hother : ¬ IsContent obj := by
          rw [IsContent, hchat, hpresence]
          exact Bool.false_ne_true
        have hdropped := decryptPayload_of_parse h hkey hopen hparse
        rw [if_neg hother] at hdropped
        exact hdropped

/-- What was encrypted under another key is dropped. -/
lemma malformed_of_other_key (hS : S.Aead) {payload : JsString} {k : List UInt8} (m : List UInt8)
    (hnonce : nonce.length = 24) (hk : k.length = 32) (hkey : key.length = 32) (hne : key ≠ k)
    (h : S.fromB64 (encode payload) = some (nonce ++ S.encrypt m nonce k)) :
    Malformed S (some key) payload := by
  apply Malformed.notAuthentic h rfl
  rw [← hnonce, List.drop_left, List.take_left]
  exact hS.decrypt_other m nonce k key hnonce hk hkey hne

/-! ## Callbacks -/

lemma onMessage_mem_iff {f : Frame JsString} {peerId : Str} {self : Bool} {t n : Option JsValue}
    {ts : ℤ} : .onMessage peerId self t n ts ∈ d.callbacks S f ↔
      ∃ payload obj, f = .msg peerId payload ts ∧ d.decryptPayload S payload = some obj ∧
        obj.hasKind "chat" = true ∧ self = decide (d.peerId = some peerId) ∧
        t = obj.field "text" ∧ n = obj.field "nick" := by
  constructor
  · intro h
    cases f with
    | msg peerId' payload ts' =>
        rw [callbacks] at h
        cases hobj : d.decryptPayload S payload with
        | none => simp [hobj] at h
        | some obj =>
            cases hkind : obj.hasKind "chat" with
            | false => simp [hobj, hkind] at h
            | true =>
                simp only [hobj, hkind, if_true, List.mem_singleton, Callback.onMessage.injEq] at h
                obtain ⟨rfl, rfl, rfl, rfl, rfl⟩ := h
                exact ⟨payload, obj, rfl, hobj, hkind, rfl, rfl, rfl⟩
    | presence peerId' payload ts' =>
        rw [callbacks] at h
        split at h
        · cases h
        · split at h <;> simp at h
    | challenge ct nc =>
        rw [callbacks] at h
        split at h <;> simp at h
    | _ => simp [callbacks] at h
  · rintro ⟨payload, obj, rfl, hobj, hkind, rfl, rfl, rfl⟩
    simp [callbacks, hobj, hkind]

lemma onPresence_mem_iff {f : Frame JsString} {peerId : Str} {n : Option JsValue} :
    .onPresence peerId n ∈ d.callbacks S f ↔
      ∃ payload ts obj, f = .presence peerId payload ts ∧ d.decryptPayload S payload = some obj ∧
        obj.hasKind "presence" = true ∧ n = obj.field "nick" := by
  constructor
  · intro h
    cases f with
    | presence peerId' payload ts =>
        rw [callbacks] at h
        cases hobj : d.decryptPayload S payload with
        | none => simp [hobj] at h
        | some obj =>
            cases hkind : obj.hasKind "presence" with
            | false => simp [hobj, hkind] at h
            | true =>
                simp only [hobj, hkind, if_true, List.mem_singleton, Callback.onPresence.injEq] at h
                obtain ⟨rfl, rfl⟩ := h
                exact ⟨payload, ts, obj, rfl, hobj, hkind, rfl⟩
    | msg peerId' payload ts' =>
        rw [callbacks] at h
        split at h
        · cases h
        · split at h <;> simp at h
    | challenge ct nc =>
        rw [callbacks] at h
        split at h <;> simp at h
    | _ => simp [callbacks] at h
  · rintro ⟨payload, ts, obj, rfl, hobj, hkind, rfl⟩
    simp [callbacks, hobj, hkind]

/-- A payload that is dropped leads to no callback, and to no entry of a history. -/
lemma callbacks_of_dropped {payload : JsString} (h : d.decryptPayload S payload = none)
    (peerId : Str) (ts : ℤ) : d.callbacks S (.msg peerId payload ts) = [] ∧
      d.callbacks S (.presence peerId payload ts) = [] ∧
      ∀ self, d.historyItem S self ⟨peerId, payload, ts⟩ = none := by
  simp [callbacks, historyItem, h]

end ContentClient

/-! ## The relay -/

/-- The message as it comes in at the server, in a frame of this size. -/
def ContentMessage.inbound (m : ContentMessage) (size : ℕ) : Inbound := ⟨size, some (.object m.fields)⟩

lemma ContentMessage.carries (m : ContentMessage) (size : ℕ) :
    (m.inbound size).Carries m.type m.payload := by
  have hkeys : ascii "type" ≠ ascii "payload" := by simp [ascii]
  refine ⟨.object m.fields, rfl, by simp [Json.type?, ContentMessage.fields], ?_⟩
  rw [Json.js_str_object, ContentMessage.fields, List.find?_cons_of_neg (by simpa using hkeys),
    List.find?_cons_of_pos (by simp)]

/-- The server relays the message.  In every run, the callback that takes it up from a connection
which has joined, within the limits, sends once to every connection that has joined the room when
the targets are looked for (a `msg` also back to the sender, a `presence` not) the frame of this
type with the very payload, and sends nothing else, whatever other tasks do in the meantime. -/
def IsRelayed (m : ContentMessage) : Prop :=
  ∀ (cfg : Config) (secret : List UInt8) (db : Database) (clock : ℤ)
    (h h' : List (server cfg secret).Transition) (conf₀ conf₁ conf : State) (c : Conn)
    (size : ℕ) (peer : Peer),
    Run (M := server cfg secret) anyStep (boot db clock)
      (h ++ ⟨conf₀, .start (Task.ws c) (Input.message (m.inbound size)), conf₁⟩ :: h') conf →
    (∀ l ∈ h', ∀ i, l.label ≠ .start (Task.ws c) i) → idle (conf.task (.ws c)) = true →
    castInt size ≤ cfg.wsMaxPayloadBytes → castInt m.payload.length ≤ cfg.wsMaxPayloadBytes →
    conf₀.world.mgr.peers c = some peer → peer.joined = true →
      ∃ l ∈ h', ∃ ts, l.pre.world.mgr.joinedIn peer.roomId c = true ∧
        DeliversTo l.pre.world.mgr peer.roomId (spared c m.type)
          (relayedFrame m.type peer.peerId m.payload ts)
          (outgoing (calls (M := server cfg secret) (Task.ws c) h'))

/-- Every client with the key reads an object with these fields. -/
def IsReadAs (S : Sodium) (key : List UInt8) (m : ContentMessage) (kind : String)
    (message : Option JsString) (nick : JsString) : Prop :=
  ∀ d : ContentClient, d.key = some key → ∃ obj, d.decryptPayload S (text m.payload) = some obj ∧
    obj.hasKind kind = true ∧ obj.field "text" = message.map .string ∧
    obj.field "nick" = some (.string nick)

/-- Every client with the key that gets the relayed message calls its view back once. -/
def IsShownAs (S : Sodium) (key : List UInt8) (m : ContentMessage)
    (callback : Str → Bool → ℤ → Callback) : Prop :=
  ∀ d : ContentClient, d.key = some key → ∀ peerId ts,
    d.callbacks S (readFrame (relayedFrame m.type peerId m.payload ts)) =
      [callback peerId (decide (d.peerId = some peerId)) ts]

namespace ContentClient

variable {S : Sodium} {c : ContentClient} {key nonce : List UInt8}

lemma isRelayed_toB64 (hS : S.Aead) (hnonce : nonce.length = 24) (wsType : String)
    (htype : ascii wsType = ascii "msg" ∨ ascii wsType = ascii "presence") (ct : List UInt8) :
    IsRelayed ⟨ascii wsType, S.toB64 (nonce ++ ct)⟩ := by
  have hne : S.toB64 (nonce ++ ct) ≠ [] := by
    intro hnil
    have hlen := length_base64Encode (nonce ++ ct)
    rw [← hS.toB64_eq, hnil, List.length_append, List.length_nil] at hlen
    omega
  intro cfg secret db clock h h' conf₀ conf₁ conf c size peer hr hno hidle hsize hpayload hpeer hj
  have hrelayed : ((⟨ascii wsType, S.toB64 (nonce ++ ct)⟩ : ContentMessage).inbound size).Relayed cfg
      (ascii wsType) (S.toB64 (nonce ++ ct)) :=
    ⟨htype, ContentMessage.carries ⟨_, _⟩ size, hne, hsize, hpayload⟩
  obtain ⟨l, hl, -, ts, -, hjoined, hout⟩ := run_delivers hr hno hidle hrelayed hpeer hj
  exact ⟨l, hl, ts, hjoined, hout⟩

lemma hasKind_of_stringFields {fields : List (JsString × JsString)} {kind : String}
    (h : (JsValue.object (JSON.stringFields fields)).field "kind" = some (.string (text (ascii kind)))) :
    (JsValue.object (JSON.stringFields fields)).hasKind kind = true := by
  rw [JsValue.hasKind, h]
  exact decide_eq_true rfl

lemma chatObj_fields (message nick : JsString) :
    (JsValue.object (JSON.stringFields (chatObj message nick))).field "kind"
        = some (.string (text (ascii "chat"))) ∧
      (JsValue.object (JSON.stringFields (chatObj message nick))).field "text"
        = some (.string message) ∧
      (JsValue.object (JSON.stringFields (chatObj message nick))).field "nick"
        = some (.string nick) := by
  have hkeys : text (ascii "nick") ≠ text (ascii "kind") ∧ text (ascii "nick") ≠ text (ascii "text")
      ∧ text (ascii "text") ≠ text (ascii "kind") := by simp [text, ascii]
  simp [JsValue.field, JsValue.get?, JSON.stringFields, chatObj, hkeys]

lemma presenceObj_fields (nick : JsString) :
    (JsValue.object (JSON.stringFields (presenceObj nick))).field "kind"
        = some (.string (text (ascii "presence"))) ∧
      (JsValue.object (JSON.stringFields (presenceObj nick))).field "text" = none ∧
      (JsValue.object (JSON.stringFields (presenceObj nick))).field "nick"
        = some (.string nick) := by
  have hkeys : text (ascii "nick") ≠ text (ascii "kind") ∧ text (ascii "nick") ≠ text (ascii "text")
      ∧ text (ascii "kind") ≠ text (ascii "text") := by simp [text, ascii]
  simp [JsValue.field, JsValue.get?, JSON.stringFields, presenceObj, hkeys]

/-- A chat message arrives. -/
lemma sendChat_spec (hS : S.Aead) (hjoined : c.joined = true) (hc : c.key = some key)
    (hkey : key.length = 32) (hnonce : nonce.length = 24) (message : JsString) :
    ∃ m, c.sendChat S nonce message = some m ∧ m.type = ascii "msg" ∧ IsRelayed m ∧
      IsReadAs S key m "chat" (some message) c.nickname := by
  obtain ⟨hkind, htext, hnick⟩ := chatObj_fields message c.nickname
  have hchat := hasKind_of_stringFields hkind
  have hcontent : IsContent (.object (JSON.stringFields (chatObj message c.nickname))) :=
    Bool.or_eq_true_iff.mpr (.inl hchat)
  have hne : chatObj message c.nickname ≠ [] := List.cons_ne_nil _ _
  refine ⟨_, sendEncrypted_eq hjoined hc nonce "msg" _, rfl,
    isRelayed_toB64 hS hnonce "msg" (.inl rfl) _, fun d hd => ?_⟩
  exact ⟨_, decryptPayload_of_sent hS hd hkey hnonce hne hcontent, hchat, htext, hnick⟩

/-- A nickname arrives. -/
lemma announcePresence_spec (hS : S.Aead) (hjoined : c.joined = true) (hc : c.key = some key)
    (hkey : key.length = 32) (hnonce : nonce.length = 24) :
    ∃ m, c.announcePresence S nonce = some m ∧ m.type = ascii "presence" ∧ IsRelayed m ∧
      IsReadAs S key m "presence" none c.nickname := by
  obtain ⟨hkind, htext, hnick⟩ := presenceObj_fields c.nickname
  have hpresence := hasKind_of_stringFields hkind
  have hcontent : IsContent (.object (JSON.stringFields (presenceObj c.nickname))) :=
    Bool.or_eq_true_iff.mpr (.inr hpresence)
  have hne : presenceObj c.nickname ≠ [] := List.cons_ne_nil _ _
  refine ⟨_, sendEncrypted_eq hjoined hc nonce "presence" _, rfl,
    isRelayed_toB64 hS hnonce "presence" (.inr rfl) _, fun d hd => ?_⟩
  exact ⟨_, decryptPayload_of_sent hS hd hkey hnonce hne hcontent, hpresence, htext, hnick⟩

lemma isShownAs_msg {m : ContentMessage} {message nick : JsString} (htype : m.type = ascii "msg")
    (hread : IsReadAs S key m "chat" (some message) nick) : IsShownAs S key m fun peerId self ts =>
      .onMessage peerId self (some (.string message)) (some (.string nick)) ts := by
  intro d hd peerId ts
  obtain ⟨obj, hobj, hkind, htext, hnick⟩ := hread d hd
  rw [relayedFrame, if_pos htype, readFrame, callbacks, hobj]
  simp [hkind, htext, hnick]

lemma isShownAs_presence {m : ContentMessage} {nick : JsString}
    (htype : m.type = ascii "presence") (hread : IsReadAs S key m "presence" none nick) :
    IsShownAs S key m fun peerId _ _ => .onPresence peerId (some (.string nick)) := by
  have hne : m.type ≠ ascii "msg" := by simp [htype, ascii]
  intro d hd peerId ts
  obtain ⟨obj, hobj, hkind, -, hnick⟩ := hread d hd
  rw [relayedFrame, if_neg hne, readFrame, callbacks, hobj]
  simp [hkind, hnick]

end ContentClient

open ContentClient in
/-- What a client of a room sends is relayed by the server and read by every client with the key,
with its kind, text and nickname; a client that gets the relayed frame hands them to its view.  The
view is told of a message or of a presence exactly when the object that was
read from a frame of that type is of that kind.  All other payloads are dropped, among them those
under another key. -/
theorem payload_roundTrip (S : Sodium) (hS : S.Aead) :
    (∀ (c : ContentClient) key nonce message, c.joined = true → c.key = some key →
      key.length = 32 → nonce.length = 24 →
      (∃ m, c.sendChat S nonce message = some m ∧ m.type = ascii "msg" ∧ IsRelayed m ∧
        IsReadAs S key m "chat" (some message) c.nickname ∧
        IsShownAs S key m fun peerId self ts =>
          .onMessage peerId self (some (.string message)) (some (.string c.nickname)) ts) ∧
      ∃ m, c.announcePresence S nonce = some m ∧ m.type = ascii "presence" ∧ IsRelayed m ∧
        IsReadAs S key m "presence" none c.nickname ∧
        IsShownAs S key m fun peerId _ _ => .onPresence peerId (some (.string c.nickname))) ∧
    (∀ (d : ContentClient) f peerId self t n ts, .onMessage peerId self t n ts ∈ d.callbacks S f ↔
      ∃ payload obj, f = .msg peerId payload ts ∧ d.decryptPayload S payload = some obj ∧
        obj.hasKind "chat" = true ∧ self = decide (d.peerId = some peerId) ∧
        t = obj.field "text" ∧ n = obj.field "nick") ∧
    (∀ (d : ContentClient) f peerId n, .onPresence peerId n ∈ d.callbacks S f ↔
      ∃ payload ts obj, f = .presence peerId payload ts ∧ d.decryptPayload S payload = some obj ∧
        obj.hasKind "presence" = true ∧ n = obj.field "nick") ∧
    (∀ (d : ContentClient) payload, (d.decryptPayload S payload = none ↔
        Malformed S d.key payload) ∧
      (Malformed S d.key payload → ∀ peerId ts, d.callbacks S (.msg peerId payload ts) = [] ∧
        d.callbacks S (.presence peerId payload ts) = [] ∧
        ∀ self, d.historyItem S self ⟨peerId, payload, ts⟩ = none)) ∧
    ∀ payload key k m nonce, nonce.length = 24 → k.length = 32 → key.length = 32 → key ≠ k →
      S.fromB64 (encode payload) = some (nonce ++ S.encrypt m nonce k) →
      Malformed S (some key) payload := by
  refine ⟨fun c key nonce message hjoined hc hkey hnonce => ⟨?_, ?_⟩, fun d f peerId self t n ts => onMessage_mem_iff,
    fun d f peerId n => onPresence_mem_iff, fun d payload => ?_, ?_⟩
  · obtain ⟨m, hm, htype, hrelayed, hread⟩ := sendChat_spec hS hjoined hc hkey hnonce message
    exact ⟨m, hm, htype, hrelayed, hread, isShownAs_msg htype hread⟩
  · obtain ⟨m, hm, htype, hrelayed, hread⟩ := announcePresence_spec hS hjoined hc hkey hnonce
    exact ⟨m, hm, htype, hrelayed, hread, isShownAs_presence htype hread⟩
  · have hdropped := decryptPayload_eq_none_iff (d := d) hS payload
    exact ⟨hdropped, fun h => callbacks_of_dropped (hdropped.mpr h)⟩
  · intro payload key k m nonce hnonce hk hkey hne h
    exact malformed_of_other_key hS m hnonce hk hkey hne h

/-! ## A cipher -/

namespace Sample

/-- A cipher that puts the key in front of the message. -/
def keyed : Sodium where
  toB64 := base64Encode
  fromB64 := base64Decode
  encrypt m _ k := k ++ m
  decrypt ct n k := if n.length = 24 ∧ ct.take 32 = k then some (ct.drop 32) else none

lemma aead_keyed : keyed.Aead where
  decrypt_encrypt m n k hn hk := by
    have htake : (k ++ m).take 32 = k := by rw [← hk, List.take_left]
    have hdrop : (k ++ m).drop 32 = m := by rw [← hk, List.drop_left]
    simp [keyed, hn, htake, hdrop]
  decrypt_other m n k k' hn hk hk' hne := by
    have htake : (k ++ m).take 32 = k := by rw [← hk, List.take_left]
    simp [keyed, htake, hne.symm]
  decrypt_nonce c n k hn := by simp [keyed, hn]
  toB64_eq _ := rfl
  fromB64_toB64 bytes := decodeFrom_base64Encode bytes 0

end Sample

namespace Sample

/-- A client that has joined and holds the key. -/
def speaker : ContentClient :=
  ⟨{ key := some (List.replicate 32 7), token := none, joined := true }, [66], none⟩

/-- What it sends as a message. -/
def said : ContentMessage := (speaker.sendChat keyed (List.replicate 24 1) [0xD800]).getD ⟨[], []⟩

end Sample

/-- The message of a client is relayed to another connection that has joined its room, and read
there. -/
theorem payload_roundTrip_keyed :
    Sample.speaker.sendChat Sample.keyed (List.replicate 24 1) [0xD800] = some Sample.said ∧
      IsReadAs Sample.keyed (List.replicate 32 7) Sample.said "chat" (some [0xD800]) [66] ∧
      ∃ (h' : List (server {} HashHush.Sample.secret).Transition) (peerId : Str) (ts : ℤ),
        addressedTo 1 (outgoing (calls (M := server {} HashHush.Sample.secret) (Task.ws 0) h'))
          = [.text (.msg peerId Sample.said.payload ts)] ∧
        ∀ d : ContentClient, d.key = some (List.replicate 32 7) →
          d.callbacks Sample.keyed (readFrame (.msg peerId Sample.said.payload ts)) =
            [.onMessage peerId (decide (d.peerId = some peerId)) (some (.string [0xD800]))
              (some (.string [66])) ts] := by
  obtain ⟨m, hm, htype, hrelayed, hread, hshown⟩ := ((payload_roundTrip Sample.keyed
    Sample.aead_keyed).1 Sample.speaker (List.replicate 32 7) (List.replicate 24 1) [0xD800] rfl rfl
      rfl rfl).1
  obtain rfl : m = Sample.said := by rw [Sample.said, hm, Option.getD_some]
  obtain ⟨h, h', conf₀, conf₁, conf, peer, hr, hno, hidle, hpeer, hj, hsent⟩ :=
    HashHush.exists_run_handled
      (HashHush.Sample.store 2 [] [HashHush.Sample.token, ascii "another token"])
      HashHush.Sample.gathering 0 (Sample.said.inbound 200) 7 (fun h' =>
        (addressedTo 1 (outgoing (calls (M := server {} HashHush.Sample.secret) (Task.ws 0) h'))).length
          = 1) (by decide +kernel)
  obtain ⟨l, -, ts, -, hout⟩ := hrelayed {} HashHush.Sample.secret _ 0 h h' conf₀ conf₁ conf 0 200 peer
    hr hno hidle (castInt_length_hi (by norm_num)) (castInt_length_hi (by decide +kernel)) hpeer hj
  have hmsg : ∀ peerId ts, relayedFrame Sample.said.type peerId Sample.said.payload ts
      = .msg peerId Sample.said.payload ts := fun _ _ => if_pos htype
  refine ⟨hm, hread, h', peer.peerId, ts, ?_, fun d hd => ?_⟩
  · have hone := hout 1
    split at hone
    · rw [hone, hmsg]
    · rw [hone] at hsent
      cases hsent
  · rw [← hmsg]
    exact hshown d hd peer.peerId ts

end HashHush.Web
