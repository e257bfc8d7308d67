import HashHush.Web.Crypto
import HashHush.Web.JsString

/-!
# Two credentials with one key

`deriveKey` hashes four messages, each put together from two parts without a separator.  In every
round one part has a fixed length, a salt in front or a digest behind, so a message tells its parts,
and going back through the rounds two derivations that end in the same key either agree throughout
or hash two different messages to the same digest (`deriveKey_separates`).
-/

namespace HashHush.Web

open Sha256

/-! ## The messages of a derivation -/

/-- What the four rounds hash. -/
def messages (seed password : List UInt8) : List (List UInt8) :=
  let first := ascii "hash" ++ seed
  let second := ascii "hush" ++ sha256 first
  let third := ascii "chat" ++ sha256 second
  [first, second, third, password ++ sha256 third]

/-- In some round the two derivations hash different messages to one digest. -/
def Collide (seed password seed' password' : List UInt8) : Prop :=
  ∃ m ∈ (messages seed password).zip (messages seed' password'),
    m.1 ≠ m.2 ∧ sha256 m.1 = sha256 m.2

lemma length_sha256 (m : List UInt8) : (sha256 m).length = 32 := length_digest _

/-- A digest behind a part of any length can be told from it. -/
lemma append_sha256_inj {a b m m' : List UInt8} (h : a ++ sha256 m = b ++ sha256 m') :
    a = b ∧ sha256 m = sha256 m' :=
  List.append_inj' h (by rw [length_sha256, length_sha256])

/-- Without a collision the same key comes from the same encoded credentials. -/
lemma eq_of_deriveKey {seed password seed' password' : List UInt8}
    (h : deriveKey seed password = deriveKey seed' password')
    (hno : ¬ Collide seed password seed' password') : seed = seed' ∧ password = password' := by
  have hround : ∀ m ∈ (messages seed password).zip (messages seed' password'),
      sha256 m.1 = sha256 m.2 → m.1 = m.2 := fun m hm hdigest => by
    by_contra hne
    exact hno ⟨m, hm, hne, hdigest⟩
  simp only [messages, List.zip_cons_cons, List.zip_nil_right, List.forall_mem_cons] at hround
  obtain ⟨hfirst, hsecond, hthird, hfourth, -⟩ := hround
  obtain ⟨hpassword, hacc⟩ := append_sha256_inj (hfourth h)
  have hacc : sha256 (ascii "hush" ++ sha256 (ascii "hash" ++ seed))
      = sha256 (ascii "hush" ++ sha256 (ascii "hash" ++ seed')) :=
    List.append_cancel_left (hthird hacc)
  have hacc : sha256 (ascii "hash" ++ seed) = sha256 (ascii "hash" ++ seed') :=
    List.append_cancel_left (hsecond hacc)
  exact ⟨List.append_cancel_left (hfirst hacc), hpassword⟩

/-- **Key derivation separates credentials.**  Two well-formed seeds and passwords that give the same
key are equal, or the two derivations hash different messages of one round to the same digest. -/
theorem deriveKey_separates {seed password seed' password' : JsString} (hseed : IsWellFormed seed)
    (hpassword : IsWellFormed password) (hseed' : IsWellFormed seed')
    (hpassword' : IsWellFormed password')
    (h : deriveKey (encode seed) (encode password) = deriveKey (encode seed') (encode password')) :
    (seed = seed' ∧ password = password') ∨
      Collide (encode seed) (encode password) (encode seed') (encode password') := by
  by_cases hno : Collide (encode seed) (encode password) (encode seed') (encode password')
  · exact .inr hno
  · obtain ⟨hs, hp⟩ := eq_of_deriveKey h hno
    exact .inl ⟨encode_injOn hseed hseed' hs, encode_injOn hpassword hpassword' hp⟩

/-- A seed without a password, at the same credentials on both sides. -/
theorem deriveKey_separates_sample :
    ((units ['k', 'é'] = units ['k', 'é'] ∧ units [] = units []) ∨
      Collide (encode (units ['k', 'é'])) (encode (units [])) (encode (units ['k', 'é']))
        (encode (units []))) :=
  deriveKey_separates ⟨_, rfl⟩ ⟨_, rfl⟩ ⟨_, rfl⟩ ⟨_, rfl⟩ rfl

end HashHush.Web
