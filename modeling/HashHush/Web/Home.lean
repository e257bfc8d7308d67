import HashHush.Database
import HashHush.Json
import HashHush.Web.Crypto

/-!
# Creating a room

`create` of `components/Home.svelte`, with the bodies that `lib/api.js` sends for it: first the
room is created, then a pool of the size that the server asks for is encrypted under the derived
key and uploaded.
-/

namespace HashHush.Web

/-- `randomBytes`: a call of `sodium.randombytes_buf`. -/
def randomBytes (draw : ℕ → UInt8) (n : ℕ) : List UInt8 := (List.range n).map draw

namespace Home

/-- The body of `POST /api/rooms`; `roomName` is what the form holds, trimmed, and `pow` the solved
proof of work. -/
def createBody (roomName password : Str) (pow : Json) : Json :=
  .object [(ascii "name", .string (if roomName = [] then ascii "Secret chat" else roomName)),
    (ascii "requires_password", .bool (password ≠ [])), (ascii "pow", pow)]

/-- A plaintext with its ciphertext and nonce, all in base64. -/
def pair (S : Sodium) (key plaintext nonce : List UInt8) : ChallengePair :=
  ⟨S.toB64 plaintext, S.toB64 (S.encrypt plaintext nonce key), S.toB64 nonce⟩

/-- The loop that fills the pool.  `draws` numbers the calls for random bytes: a plaintext of 32
bytes and a nonce of 24 in turn. -/
def challenges (S : Sodium) (key : List UInt8) (draws : ℕ → ℕ → UInt8) (challengesRequired : ℤ) :
    List ChallengePair :=
  (List.range challengesRequired.toNat).map fun i =>
    pair S key (randomBytes (draws (2 * i)) 32) (randomBytes (draws (2 * i + 1)) 24)

/-- The entry of a challenge in the body. -/
def entry (p : ChallengePair) : Json :=
  .object [(ascii "plaintext", .string p.plaintextB64), (ascii "ciphertext", .string p.ciphertextB64),
    (ascii "nonce", .string p.nonceB64)]

/-- The body of `POST /api/rooms/<id>/activate`. -/
def activateBody (pool : List ChallengePair) : Json :=
  .object [(ascii "challenges", .list (pool.map entry))]

end Home

end HashHush.Web
