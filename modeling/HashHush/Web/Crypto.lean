import HashHush.Util.Codec
import HashHush.Web.JsString

/-!
# The cryptography of the page

`lib/crypto.js`.  What the page takes from libsodium, authenticated encryption and base64, is a
parameter (`Sodium`) whose laws are stated where they are needed; SHA-256 is the one of
`Util/Sha256.lean`.
-/

namespace HashHush.Web

/-- What the page uses of libsodium. -/
structure Sodium where
  toB64 : List UInt8 → Str
  /-- `none` where the call throws. -/
  fromB64 : Str → Option (List UInt8)
  /-- Of a message, a nonce and a key. -/
  encrypt : List UInt8 → List UInt8 → List UInt8 → List UInt8
  /-- Of a ciphertext, a nonce and a key; `none` where the call throws. -/
  decrypt : List UInt8 → List UInt8 → List UInt8 → Option (List UInt8)

/-- The key of a room: three salted rounds over the seed, and one with the password. -/
def deriveKey (seed password : Str) : List UInt8 :=
  let acc := Sha256.sha256 (ascii "hash" ++ seed)
  let acc := Sha256.sha256 (ascii "hush" ++ acc)
  let acc := Sha256.sha256 (ascii "chat" ++ acc)
  Sha256.sha256 (password ++ acc)

def KEY_ALPHABET : Str :=
  ascii "ABCDEFGHIJKLMNOPQRSTUVWXYZabcdefghijklmnopqrstuvwxyz0123456789_-"

/-- `generateKeySeed` on the eight bytes it drew. -/
def generateKeySeed (bytes : List UInt8) : Str :=
  bytes.map fun b => KEY_ALPHABET.getD (b &&& 0x3F).toNat 0

/-! ## Hex -/

/-- Two lowercase digits a byte. -/
def bytesToHex (bytes : List UInt8) : Str := toHex bytes

/-- The value of a hex digit. -/
def hexDigit (u : UInt16) : Option ℕ :=
  if '0'.toNat ≤ u.toNat ∧ u.toNat ≤ '9'.toNat then some (u.toNat - '0'.toNat)
  else if 'a'.toNat ≤ u.toNat ∧ u.toNat ≤ 'f'.toNat then some (u.toNat - 'a'.toNat + 10)
  else if 'A'.toNat ≤ u.toNat ∧ u.toNat ≤ 'F'.toNat then some (u.toNat - 'A'.toNat + 10)
  else none

/-- The white space and the line ends of JavaScript. -/
def isWhite (u : UInt16) : Bool :=
  u ∈ ([0x09, 0x0A, 0x0B, 0x0C, 0x0D, 0x20, 0xA0, 0x1680, 0x2028, 0x2029, 0x202F, 0x205F, 0x3000,
    0xFEFF] : List UInt16) || 0x2000 ≤ u && u ≤ 0x200A

/-- The sign in front of a number, and what is behind it. -/
def parseSign : JsString → ℤ × JsString
  | [] => (1, [])
  | u :: s =>
      if u = '-'.toNat.toUInt16 then (-1, s)
      else if u = '+'.toNat.toUInt16 then (1, s)
      else (1, u :: s)

/-- What is behind a prefix `0x`. -/
def stripPrefix : JsString → JsString
  | u :: v :: s =>
      if u = '0'.toNat.toUInt16 ∧ (v = 'x'.toNat.toUInt16 ∨ v = 'X'.toNat.toUInt16) then s
      else u :: v :: s
  | s => s

/-- The number of the digits in front; what follows them is ignored. -/
def digitsValue (s : JsString) : Option ℕ :=
  let digits := ((s.map hexDigit).takeWhile Option.isSome).filterMap id
  if digits = [] then none else some (digits.foldl (fun n d => 16 * n + d) 0)

/-- `parseInt` to the base 16; `none` is `NaN`. -/
def parseInt (s : JsString) : Option ℤ :=
  let (sign, s) := parseSign (s.dropWhile isWhite)
  (digitsValue (stripPrefix s)).map fun n : ℕ => sign * (n : ℤ)

/-- The bytes of a hex text; an odd length or a pair that is no number gives `null`.  A number that
is no byte is taken modulo 256. -/
def hexToBytes : JsString → Option (List UInt8)
  | [] => some []
  | [_] => none
  | u :: v :: rest => do
      let n ← parseInt [u, v]
      let bytes ← hexToBytes rest
      return UInt8.ofInt n :: bytes

lemma bytesToHex_injective : Function.Injective bytesToHex := toHex_injective

lemma bytesToHex_ne_nil {bytes : List UInt8} (h : bytes ≠ []) : bytesToHex bytes ≠ [] := by
  intro hnil
  have hlen : (toHex bytes).length = 0 := congrArg List.length hnil
  rw [length_toHex] at hlen
  exact h (List.eq_nil_of_length_eq_zero (by omega))

end HashHush.Web
