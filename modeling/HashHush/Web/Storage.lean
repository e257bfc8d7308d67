import HashHush.Util.Text
import Mathlib.Logic.Function.Basic

/-!
# What a browser keeps of a room

`lib/storage.js`: the localStorage that all tabs of a browser share.  A room has one entry with
an access token and the key in hex, either of which may be missing; an empty text counts as
missing (`truthy`).
-/

namespace HashHush.Web

/-- A text where it counts as true: neither missing nor empty. -/
def truthy (text : Option Str) : Option Str := text.filter (· ≠ [])

/-- The entry `{token, key}` of a room. -/
structure RoomEntry where
  token : Option Str := none
  key : Option Str := none
  deriving DecidableEq

/-- The entries by room id. -/
abbrev Storage := Str → Option RoomEntry

namespace Storage

variable (s : Storage) (id : Str)

def loadRoomEntry : RoomEntry := (s id).getD {}

def saveRoomEntry (entry : RoomEntry) : Storage := Function.update s id (some entry)

def saveRoomToken (token : Str) : Storage :=
  s.saveRoomEntry id { s.loadRoomEntry id with token := some token }

def loadRoomToken : Option Str := truthy (s.loadRoomEntry id).token

def saveRoomKey (keyHex : Str) : Storage :=
  s.saveRoomEntry id { s.loadRoomEntry id with key := some keyHex }

def loadRoomKey : Option Str := truthy (s.loadRoomEntry id).key

def forgetRoom : Storage := Function.update s id none

variable {s id}

@[simp] lemma loadRoomEntry_saveRoomEntry (entry : RoomEntry) :
    (s.saveRoomEntry id entry).loadRoomEntry id = entry := by
  simp [loadRoomEntry, saveRoomEntry]

lemma loadRoomEntry_saveRoomEntry_of_ne {id' : Str} (h : id' ≠ id) (entry : RoomEntry) :
    (s.saveRoomEntry id entry).loadRoomEntry id' = s.loadRoomEntry id' := by
  simp [loadRoomEntry, saveRoomEntry, h]

@[simp] lemma loadRoomEntry_forgetRoom : (s.forgetRoom id).loadRoomEntry id = {} := by
  simp [loadRoomEntry, forgetRoom]

lemma loadRoomEntry_forgetRoom_of_ne {id' : Str} (h : id' ≠ id) :
    (s.forgetRoom id).loadRoomEntry id' = s.loadRoomEntry id' := by
  simp [loadRoomEntry, forgetRoom, h]

/-- Saving a token keeps the key. -/
@[simp] lemma key_saveRoomToken (token id' : Str) :
    ((s.saveRoomToken id token).loadRoomEntry id').key = (s.loadRoomEntry id').key := by
  by_cases h : id' = id
  · subst h
    simp [saveRoomToken]
  · rw [saveRoomToken, loadRoomEntry_saveRoomEntry_of_ne h]

lemma key_saveRoomKey (keyHex id' : Str) :
    ((s.saveRoomKey id keyHex).loadRoomEntry id').key
      = if id' = id then some keyHex else (s.loadRoomEntry id').key := by
  by_cases h : id' = id
  · subst h
    simp [saveRoomKey]
  · rw [saveRoomKey, loadRoomEntry_saveRoomEntry_of_ne h, if_neg h]

lemma key_forgetRoom (id' : Str) : ((s.forgetRoom id).loadRoomEntry id').key
    = if id' = id then none else (s.loadRoomEntry id').key := by
  by_cases h : id' = id
  · subst h
    simp
  · rw [loadRoomEntry_forgetRoom_of_ne h, if_neg h]

end Storage

end HashHush.Web
