import HashHush.Util.Text

/-!
# Configuration

The settings of `config.h` that the handlers read, with their defaults.  They are C++ `int`s
and nothing in the source restricts them, so they are integers here.
-/

namespace HashHush

/-- The numeric settings of the section `[room]`. -/
structure Config where
  maxParticipants : ℤ := 10
  maxParticipantsCap : ℤ := 50
  idleTtlSeconds : ℤ := 86400
  totalRoomsCap : ℤ := 0
  messageCacheSize : ℤ := 5
  wsMaxPayloadBytes : ℤ := 8192
  challengeMaxBlobBytes : ℤ := 256
  powDifficultyBits : ℤ := 16

end HashHush
