import HashHush.Util.Text

/-!
# The bundled SHA-256

`tools::SHA256` as the source has it: a hasher collects bytes into a block of 64, folds every
full block into its eight words, and on `digest` pads the rest.  Peer ids, proofs of work and message
authentication codes are computed with it.
-/

namespace HashHush.Sha256

/-- The round constants. -/
def K : List UInt32 := [
  0x428a2f98, 0x71374491, 0xb5c0fbcf, 0xe9b5dba5, 0x3956c25b, 0x59f111f1, 0x923f82a4, 0xab1c5ed5,
  0xd807aa98, 0x12835b01, 0x243185be, 0x550c7dc3, 0x72be5d74, 0x80deb1fe, 0x9bdc06a7, 0xc19bf174,
  0xe49b69c1, 0xefbe4786, 0x0fc19dc6, 0x240ca1cc, 0x2de92c6f, 0x4a7484aa, 0x5cb0a9dc, 0x76f988da,
  0x983e5152, 0xa831c66d, 0xb00327c8, 0xbf597fc7, 0xc6e00bf3, 0xd5a79147, 0x06ca6351, 0x14292967,
  0x27b70a85, 0x2e1b2138, 0x4d2c6dfc, 0x53380d13, 0x650a7354, 0x766a0abb, 0x81c2c92e, 0x92722c85,
  0xa2bfe8a1, 0xa81a664b, 0xc24b8b70, 0xc76c51a3, 0xd192e819, 0xd6990624, 0xf40e3585, 0x106aa070,
  0x19a4c116, 0x1e376c08, 0x2748774c, 0x34b0bcb5, 0x391c0cb3, 0x4ed8aa4a, 0x5b9cca4f, 0x682e6ff3,
  0x748f82ee, 0x78a5636f, 0x84c87814, 0x8cc70208, 0x90befffa, 0xa4506ceb, 0xbef9a3f7, 0xc67178f2]

def rotr (x n : UInt32) : UInt32 := (x >>> n) ||| (x <<< (32 - n))

def choose (e f g : UInt32) : UInt32 := (e &&& f) ^^^ (~~~e &&& g)

def majority (a b c : UInt32) : UInt32 := (a &&& (b ||| c)) ||| (b &&& c)

def sig0 (x : UInt32) : UInt32 := rotr x 7 ^^^ rotr x 18 ^^^ (x >>> 3)

def sig1 (x : UInt32) : UInt32 := rotr x 17 ^^^ rotr x 19 ^^^ (x >>> 10)

/-- The eight words `A`, …, `H` of the state. -/
structure Words where
  a : UInt32
  b : UInt32
  c : UInt32
  d : UInt32
  e : UInt32
  f : UInt32
  g : UInt32
  h : UInt32

/-- A hasher: the words, the bytes of the block being collected, and the bits of the blocks
already folded in. -/
structure Hasher where
  state : Words := ⟨0x6a09e667, 0xbb67ae85, 0x3c6ef372, 0xa54ff53a,
    0x510e527f, 0x9b05688c, 0x1f83d9ab, 0x5be0cd19⟩
  data : List UInt8 := []
  bitlen : UInt64 := 0

/-- The sixteen big-endian words of a block. -/
def blockWords : List UInt8 → List UInt32
  | p :: q :: r :: s :: rest =>
      ((p.toUInt32 <<< 24) ||| (q.toUInt32 <<< 16) ||| (r.toUInt32 <<< 8) ||| s.toUInt32)
        :: blockWords rest
  | _ => []

/-- The message schedule: the words of the block and 48 more. -/
def schedule (block : List UInt8) : List UInt32 :=
  (List.range 48).foldl
    (fun m k => m ++ [sig1 (m.getD (k + 14) 0) + m.getD (k + 9) 0 + sig0 (m.getD (k + 1) 0)
      + m.getD k 0])
    (blockWords block)

/-- One of the 64 rounds. -/
def round (s : Words) (mk : UInt32 × UInt32) : Words :=
  let maj := majority s.a s.b s.c
  let xorA := rotr s.a 2 ^^^ rotr s.a 13 ^^^ rotr s.a 22
  let ch := choose s.e s.f s.g
  let xorE := rotr s.e 6 ^^^ rotr s.e 11 ^^^ rotr s.e 25
  let sum := mk.1 + mk.2 + s.h + ch + xorE
  ⟨xorA + maj + sum, s.a, s.b, s.c, s.d + sum, s.e, s.f, s.g⟩

/-- Fold one block into the words. -/
def transform (s : Words) (block : List UInt8) : Words :=
  let t := ((schedule block).zip K).foldl round s
  ⟨s.a + t.a, s.b + t.b, s.c + t.c, s.d + t.d, s.e + t.e, s.f + t.f, s.g + t.g, s.h + t.h⟩

/-- One byte of `SHA256::update`. -/
def push (h : Hasher) (b : UInt8) : Hasher :=
  let data := h.data ++ [b]
  if data.length = 64 then ⟨transform h.state data, [], h.bitlen + 512⟩ else { h with data }

def update (h : Hasher) (bytes : List UInt8) : Hasher := bytes.foldl push h

/-- Bytes of a word, most significant first. -/
def wordBytes (w : UInt32) : List UInt8 :=
  [(w >>> 24).toUInt8, (w >>> 16).toUInt8, (w >>> 8).toUInt8, w.toUInt8]

/-- The length field of the last block, most significant byte first. -/
def lengthBytes (n : UInt64) : List UInt8 :=
  [(n >>> 56).toUInt8, (n >>> 48).toUInt8, (n >>> 40).toUInt8, (n >>> 32).toUInt8,
    (n >>> 24).toUInt8, (n >>> 16).toUInt8, (n >>> 8).toUInt8, n.toUInt8]

/-- `SHA256::pad`: the words after the last block, or the last two when the length field does
not fit behind the data. -/
def pad (h : Hasher) : Words :=
  let bits := lengthBytes (h.bitlen + h.data.length.toUInt64 * 8)
  let padded := h.data ++ [0x80]
  if h.data.length < 56 then
    transform h.state (padded ++ List.replicate (56 - padded.length) 0 ++ bits)
  else
    let s := transform h.state (padded ++ List.replicate (64 - padded.length) 0)
    transform s (List.replicate 56 0 ++ bits)

def digest (h : Hasher) : List UInt8 :=
  let s := pad h
  [s.a, s.b, s.c, s.d, s.e, s.f, s.g, s.h].flatMap wordBytes

/-- The digest of a byte string. -/
def sha256 (bytes : List UInt8) : List UInt8 := digest (update {} bytes)

lemma length_digest (h : Hasher) : (digest h).length = 32 := rfl

end HashHush.Sha256
