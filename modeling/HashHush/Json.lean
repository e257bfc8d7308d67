import HashHush.Util.Text

/-!
# Parsed JSON

The part of `crow::json::rvalue` that the handlers use.  Parsing itself is the library's; a
handler is given what `crow::json::load` made of the bytes it received.

The accessors throw outside their preconditions, as `json.h` has it: `has` on a value that is
no container, `s` on a value that is no string, `operator[]` on a value without the key.  On a list
with items `has` does worse: it compares their keys, which nothing has ever set, and usually ends
the process.  The helpers `js_str` and `js_bool` of `webapi.cpp` read a field with a default, and
fail where `has` does.
-/

namespace HashHush

/-- How an accessor fails: the exceptions, with the texts of `json.h`, and the behaviour that C++
leaves undefined. -/
inductive JsonError
  /-- `value is not a container` -/
  | notContainer
  /-- `value is not string` -/
  | notString
  /-- `value is not an object` -/
  | notObject
  /-- `cannot find key: …` -/
  | noKey
  /-- The keys of the items of a list are uninitialised pointers. -/
  | uninitialisedKey
  deriving DecidableEq

/-- A computation that may throw succeeds through both of its parts. -/
lemma ok_of_bind {ε α β : Type} {x : Except ε α} {f : α → Except ε β} {b : β}
    (h : x >>= f = .ok b) : ∃ a, x = .ok a ∧ f a = .ok b := by
  cases x with
  | error e => cases h
  | ok a => exact ⟨a, rfl, h⟩

/-- A parsed value.  The fields of an object stand in the order in which `std::sort` leaves those
with equal keys when the object is first searched.  Up to 16 fields that is the order of the text;
beyond that the sort is not stable, and the order is its own. -/
inductive Json
  | null
  | bool (b : Bool)
  | number (n : ℤ)
  | string (s : Str)
  | list (items : List Json)
  | object (fields : List (Str × Json))

namespace Json

/-- `rvalue::has`: whether an object has the key. -/
def has : Json → Str → Except JsonError Bool
  | object fields, key => .ok (fields.any fun f => f.1 = key)
  | list [], _ => .ok false
  | list (_ :: _), _ => .error .uninitialisedKey
  | _, _ => .error .notContainer

/-- `rvalue::operator[]` with a key: of several fields with the key, the one sorted first. -/
def at' : Json → Str → Except JsonError Json
  | object fields, key =>
      match fields.find? fun f => f.1 = key with
      | some f => .ok f.2
      | none => .error .noKey
  | _, _ => .error .notObject

/-- `rvalue::s`. -/
def s : Json → Except JsonError Str
  | string t => .ok t
  | _ => .error .notString

/-- `js_str`: a string field, or the default when it is missing or no string. -/
def js_str (v : Json) (key : Str) (dflt : Str := []) : Except JsonError Str := do
  if ← v.has key then
    match ← v.at' key with
    | string t => return t
    | _ => return dflt
  else return dflt

/-- `js_bool`: a boolean field, or the default when it is missing or no boolean. -/
def js_bool (v : Json) (key : Str) (dflt : Bool) : Except JsonError Bool := do
  if ← v.has key then
    match ← v.at' key with
    | bool b => return b
    | _ => return dflt
  else return dflt

/-- On an object the accessors stay within their preconditions. -/
lemma js_str_object (fields : List (Str × Json)) (key dflt : Str) :
    (object fields).js_str key dflt = .ok
      (match fields.find? fun f => f.1 = key with
        | some (_, string t) => t
        | _ => dflt) := by
  simp only [js_str, has, at']
  cases hf : fields.find? fun f => f.1 = key with
  | none =>
      have hany : (fields.any fun f => f.1 = key) = false := by
        simpa [List.find?_eq_none] using hf
      rw [hany]
      rfl
  | some f =>
      have hany : (fields.any fun f => f.1 = key) = true :=
        List.any_eq_true.mpr ⟨f, List.mem_of_find?_eq_some hf, by
          simpa using List.find?_some hf⟩
      rw [hany]
      obtain ⟨k, v⟩ := f
      cases v <;> rfl

end Json

end HashHush
