import HashHush.Web.UrlFrag

/-!
# Invite links

`parseLocation_iff`: what `parseLocation` returns is exact wherever it returns, and it returns where
the fragment percent-decodes; the links that the page builds are among those.  Behind a malformed
escape it throws instead of finding no room (`parseLocation_percent`).
-/

namespace HashHush.Web

/-- The decoded fragment names a room and a seed. -/
structure IsInvite (raw roomId seed : JsString) : Prop where
  eq : raw = roomId ++ ':'.toNat.toUInt16 :: seed
  length : roomId.length = 8
  roomId : ∀ u ∈ roomId, isSlug u = true
  nonempty : seed ≠ []
  seed : ∀ u ∈ seed, isSlug u = true

/-- The fragment behind the `#` percent-decodes to a room and a seed. -/
def Names (hash roomId seed : JsString) : Prop :=
  ∃ raw, PercentDecodes (hash.drop 1) raw ∧ IsInvite raw roomId seed

/-- `parseLocation` returns what the fragment names, and `null` for both where it names nothing. -/
def Exact (hash : JsString) : Prop :=
  ∃ found, parseLocation hash = some found ∧
    (∀ roomId seed, found = ⟨some roomId, some seed⟩ ↔ Names hash roomId seed) ∧
    ((¬ ∃ roomId seed, Names hash roomId seed) → found = ⟨none, none⟩)

/-! ## The pattern -/

lemma fragment_eq_some_iff {raw roomId seed : JsString} :
    FRAGMENT_RE raw = some (roomId, seed) ↔ IsInvite raw roomId seed := by
  constructor
  · intro h
    rw [FRAGMENT_RE] at h
    split at h
    · cases h
    · rename_i u s hdrop
      split at h
      · rename_i hcond
        obtain ⟨hroom, hcolon, hne, hseed⟩ := hcond
        cases h
        refine ⟨?_, ?_, List.all_eq_true.mp hroom, hne, List.all_eq_true.mp hseed⟩
        · rw [← hcolon, ← hdrop, List.take_append_drop]
        · have hlong : 8 < raw.length := by
            by_contra hshort
            rw [List.drop_of_length_le (by omega)] at hdrop
            cases hdrop
          rw [List.length_take]
          omega
      · cases h
  · rintro ⟨rfl, hlen, hroom, hne, hseed⟩
    have htake : (roomId ++ ':'.toNat.toUInt16 :: seed).take 8 = roomId := by
      rw [← hlen, List.take_left]
    have hdrop : (roomId ++ ':'.toNat.toUInt16 :: seed).drop 8 = ':'.toNat.toUInt16 :: seed := by
      rw [← hlen, List.drop_left]
    rw [FRAGMENT_RE, hdrop, htake]
    exact if_pos ⟨List.all_eq_true.mpr hroom, rfl, hne, List.all_eq_true.mpr hseed⟩

/-- What a fragment decodes to is determined. -/
lemma PercentDecodes.unique {s t t' : JsString} (h : PercentDecodes s t)
    (h' : PercentDecodes s t') : t = t' := by
  rw [← decodeURIComponent_eq_some_iff] at h h'
  exact Option.some.inj (h.symm.trans h')

/-- The result where the fragment decodes. -/
lemma parseLocation_eq {hash raw : JsString} (h : PercentDecodes (hash.drop 1) raw) :
    parseLocation hash = some (match FRAGMENT_RE raw with
      | none => ⟨none, none⟩
      | some (roomId, seed) => ⟨some roomId, some seed⟩) := by
  rw [parseLocation]
  split
  · rename_i hshort
    have hnil : hash.drop 1 = [] := List.drop_of_length_le (by omega)
    rw [hnil] at h
    obtain rfl := h.unique .nil
    rfl
  · rw [decodeURIComponent_eq_some_iff.mpr h, Option.bind_eq_bind, Option.bind_some]
    cases FRAGMENT_RE raw <;> rfl

lemma exact_of_percentDecodes {hash raw : JsString} (h : PercentDecodes (hash.drop 1) raw) :
    Exact hash := by
  have hnames : ∀ roomId seed, Names hash roomId seed ↔ FRAGMENT_RE raw = some (roomId, seed) := by
    intro roomId seed
    rw [fragment_eq_some_iff]
    constructor
    · rintro ⟨raw', hraw', hinvite⟩
      rwa [h.unique hraw']
    · intro hinvite
      exact ⟨raw, h, hinvite⟩
  refine ⟨_, parseLocation_eq h, fun roomId seed => ?_, fun hno => ?_⟩
  · rw [hnames]
    cases FRAGMENT_RE raw with
    | none => simp
    | some found => simp [Prod.ext_iff]
  · cases hfound : FRAGMENT_RE raw with
    | none => rfl
    | some found => exact absurd ⟨found.1, found.2, (hnames ..).mpr hfound⟩ hno

lemma percentDecodes_of_exact {hash : JsString} (h : Exact hash) :
    ∃ raw, PercentDecodes (hash.drop 1) raw := by
  obtain ⟨found, hfound, -⟩ := h
  rw [parseLocation] at hfound
  split at hfound
  · rename_i hshort
    rw [List.drop_of_length_le (by omega)]
    exact ⟨[], .nil⟩
  · obtain ⟨raw, hraw, -⟩ := Option.bind_eq_some_iff.mp hfound
    exact ⟨raw, decodeURIComponent_eq_some_iff.mp hraw⟩

/-! ## The links of the page -/

lemma isSlug_roomIdOfBytes (bytes : List UInt8) :
    ∀ u ∈ text (roomIdOfBytes bytes), isSlug u = true := by
  have key : ∀ i < 64, isSlug (kRoomAlphabet.getD i 0).toUInt16 = true := by decide +kernel
  intro u hu
  obtain ⟨c, hc, rfl⟩ := List.mem_map.mp hu
  obtain ⟨b, -, rfl⟩ := List.mem_map.mp hc
  refine key _ ?_
  rw [UInt8.toNat_and]
  exact Nat.lt_succ_of_le Nat.and_le_right

/-- The seeds are drawn from the alphabet of the ids. -/
lemma generateKeySeed_eq : generateKeySeed = roomIdOfBytes := rfl

lemma isSlug_ne_percent {u : UInt16} (h : isSlug u = true) : u ≠ '%'.toNat.toUInt16 := by
  have hpercent : isSlug '%'.toNat.toUInt16 = false := by decide
  rintro rfl
  rw [hpercent] at h
  cases h

/-- A string without escapes stands for itself. -/
lemma percentDecodes_self {s : JsString} (h : ∀ u ∈ s, u ≠ '%'.toNat.toUInt16) :
    PercentDecodes s s := by
  induction s with
  | nil => exact .nil
  | cons u s ih =>
      obtain ⟨hu, hs⟩ := List.forall_mem_cons.mp h
      exact .unit hu (ih hs)

lemma hashOf_buildJoinUrl {origin : JsString} (horigin : '#'.toNat.toUInt16 ∉ origin)
    (roomId seed : JsString) :
    hashOf (buildJoinUrl origin roomId seed)
      = '#'.toNat.toUInt16 :: (roomId ++ ':'.toNat.toUInt16 :: seed) := by
  have hslash : text (ascii "/#") = ['/'.toNat.toUInt16, '#'.toNat.toUInt16] := by
    simp [text, ascii]
  have hcolon : text (ascii ":") = [':'.toNat.toUInt16] := by simp [text, ascii]
  have hskip : ∀ u ∈ origin, decide (u ≠ '#'.toNat.toUInt16) = true := fun u hu =>
    decide_eq_true (fun h => horigin (h ▸ hu))
  have hdrop : (buildJoinUrl origin roomId seed).dropWhile (· ≠ '#'.toNat.toUInt16)
      = '#'.toNat.toUInt16 :: (roomId ++ ':'.toNat.toUInt16 :: seed) := by
    simp only [buildJoinUrl, hslash, hcolon, List.append_assoc]
    rw [List.dropWhile_append_of_pos hskip]
    simp
  rw [hashOf, hdrop]
  exact if_neg (by simp)

/-- A link with an id and a seed of the pattern names them. -/
lemma parseLocation_buildJoinUrl {origin roomId seed : JsString}
    (horigin : '#'.toNat.toUInt16 ∉ origin) (hlen : roomId.length = 8)
    (hroom : ∀ u ∈ roomId, isSlug u = true) (hne : seed ≠ [])
    (hseed : ∀ u ∈ seed, isSlug u = true) :
    parseLocation (hashOf (buildJoinUrl origin roomId seed)) = some ⟨some roomId, some seed⟩ := by
  have hplain : ∀ u ∈ roomId ++ ':'.toNat.toUInt16 :: seed, u ≠ '%'.toNat.toUInt16 := by
    intro u hu
    rcases List.mem_append.mp hu with hin | hin
    · exact isSlug_ne_percent (hroom u hin)
    · rcases List.mem_cons.mp hin with rfl | hin
      · decide
      · exact isSlug_ne_percent (hseed u hin)
  have hinvite : IsInvite (roomId ++ ':'.toNat.toUInt16 :: seed) roomId seed :=
    ⟨rfl, hlen, hroom, hne, hseed⟩
  have hdecodes : PercentDecodes
      (('#'.toNat.toUInt16 :: (roomId ++ ':'.toNat.toUInt16 :: seed)).drop 1)
      (roomId ++ ':'.toNat.toUInt16 :: seed) := percentDecodes_self hplain
  rw [hashOf_buildJoinUrl horigin, parseLocation_eq hdecodes, fragment_eq_some_iff.mpr hinvite]

/-- The result is exact where the fragment percent-decodes, and `parseLocation` throws on all other
fragments.  The links of the page, whose ids and seeds are drawn by the generators, name their room
and their seed. -/
theorem parseLocation_iff (hash : JsString) :
    (Exact hash ↔ ∃ raw, PercentDecodes (hash.drop 1) raw) ∧
      ∀ origin idBytes seedBytes, '#'.toNat.toUInt16 ∉ origin → idBytes.length = 8 →
        seedBytes.length = 8 →
        parseLocation (hashOf (buildJoinUrl origin (text (roomIdOfBytes idBytes))
            (text (generateKeySeed seedBytes))))
          = some ⟨some (text (roomIdOfBytes idBytes)), some (text (generateKeySeed seedBytes))⟩ := by
  constructor
  · exact ⟨percentDecodes_of_exact, fun ⟨raw, hraw⟩ => exact_of_percentDecodes hraw⟩
  · intro origin idBytes seedBytes horigin hid hseed
    have hlen : (text (roomIdOfBytes idBytes)).length = 8 := by simp [text, roomIdOfBytes, hid]
    have hseedlen : (text (generateKeySeed seedBytes)).length = 8 := by
      simp [text, generateKeySeed, hseed]
    refine parseLocation_buildJoinUrl horigin hlen (isSlug_roomIdOfBytes _) (fun hnil => ?_) ?_
    · rw [hnil] at hseedlen
      cases hseedlen
    · rw [generateKeySeed_eq]
      exact isSlug_roomIdOfBytes _

/-- A `%` without digits makes `parseLocation` throw. -/
theorem parseLocation_percent : ¬ ∀ hash, Exact hash := by
  intro h
  obtain ⟨found, hfound, -⟩ := h (text (ascii "#%"))
  have hthrows : parseLocation (text (ascii "#%")) = none := by decide +kernel
  rw [hthrows] at hfound
  cases hfound

end HashHush.Web
