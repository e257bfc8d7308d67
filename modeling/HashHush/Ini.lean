import HashHush.Captcha
import HashHush.Config
import Mathlib.Data.List.DropRight

/-!
# The configuration file

`ini_parse` of the bundled parser, with the options it is compiled with, `INIReader` on top of it,
and `Config::loadFromFile`.

The parser is a loop over the lines that `fgets` hands over, at most 4095 bytes each, and each line
is a C string: what comes after a NUL is not seen.  Its state is what the loop keeps between lines:
the section, the name of the latest setting for continuation lines, the line number and the number
of the first line in error.  Where a helper of the source returns a pointer into the line, the
function here returns the parts of the line before and from that place on.
-/

namespace HashHush.Ini

open Captcha (isSpace isDigit)

def newline : UInt8 := 10
def semicolon : UInt8 := ';'.toNat.toUInt8
def hash : UInt8 := '#'.toNat.toUInt8
def opening : UInt8 := '['.toNat.toUInt8
def closing : UInt8 := ']'.toNat.toUInt8
def equals : UInt8 := '='.toNat.toUInt8

/-! ## The helpers on C strings -/

/-- `ini_rstrip`. -/
def rstrip (s : Str) : Str := s.rdropWhile isSpace

/-- `ini_lskip`. -/
def lskip (s : Str) : Str := s.dropWhile isSpace

/-- `ini_find_chars_or_comment`: what comes before the first of the given characters, or before a
semicolon that follows a blank, and the rest from there on. -/
def findCharsOrComment (chars : List UInt8) (wasSpace : Bool) : Str → Str × Str
  | [] => ([], [])
  | c :: s =>
      if c ∈ chars ∨ (wasSpace = true ∧ c = semicolon) then ([], c :: s)
      else
        let r := findCharsOrComment chars (isSpace c) s
        (c :: r.1, r.2)

/-- `INI_MAX_LINE`, as the build sets it. -/
def maxLine : ℕ := 4096
def maxSection : ℕ := 50
def maxName : ℕ := 50

/-- `ini_strncpy0` into a buffer of a size. -/
def strncpy0 (src : Str) (size : ℕ) : Str := src.take (size - 1)

/-- The lines that `fgets` hands over, one after the other: a line ends with its newline, or when
the buffer is full. -/
def fgetsLines (size : ℕ) (line : Str) : Str → List Str
  | [] => if line = [] then [] else [line]
  | c :: s =>
      if c = newline ∨ line.length + 2 = size then (line ++ [c]) :: fgetsLines size [] s
      else fgetsLines size (line ++ [c]) s

/-! ## `ini_parse_stream` -/

variable {σ : Type}

/-- What the parser keeps between lines, and what the handler has made of the settings so far. -/
structure Parser (σ : Type) where
  user : σ
  sectionName : Str := []
  prevName : Str := []
  lineno : ℕ := 0
  error : ℕ := 0

/-- `error = lineno`, unless there is an earlier one. -/
def Parser.fail (p : Parser σ) : Parser σ := if p.error = 0 then { p with error := p.lineno } else p

/-- The call of the handler, which may refuse the setting. -/
def Parser.handle (handler : σ → Str → Str → Str → Bool × σ) (p : Parser σ) (name value : Str) :
    Parser σ :=
  let r := handler p.user p.sectionName name value
  let p := { p with user := r.2 }
  if r.1 = true then p else p.fail

/-- A `[section]` line, after the bracket. -/
def Parser.startSection (p : Parser σ) (rest : Str) : Parser σ :=
  let r := findCharsOrComment [closing] false rest
  if r.2.head? = some closing then
    { p with sectionName := strncpy0 r.1 maxSection, prevName := [] }
  else p.fail

/-- A `name[=:]value` line. -/
def Parser.setting (handler : σ → Str → Str → Str → Bool × σ) (p : Parser σ) (start : Str) :
    Parser σ :=
  let r := findCharsOrComment [equals, Captcha.colon] false start
  match r.2 with
  | [] => p.fail
  | c :: rest =>
      if c = equals ∨ c = Captcha.colon then
        let name := rstrip r.1
        let value := rstrip (lskip (findCharsOrComment [] false rest).1)
        { p with prevName := strncpy0 name maxName }.handle handler name value
      else p.fail

/-- The mark that a UTF-8 file may begin with. -/
def bom : Str := [0xEF, 0xBB, 0xBF]

/-- One line of the loop. -/
def Parser.line (handler : σ → Str → Str → Str → Bool × σ) (p : Parser σ) (buffer : Str) :
    Parser σ :=
  let p := { p with lineno := p.lineno + 1 }
  let line := cText buffer
  let marked := p.lineno = 1 ∧ bom <+: line
  let begin := if marked then line.drop 3 else line
  match rstrip (lskip begin) with
  | [] => p
  | c :: rest =>
      if c = semicolon ∨ c = hash then p
      -- a line with leading blanks continues the value of the setting before it
      else if p.prevName ≠ [] ∧ (marked ∨ begin.head?.any isSpace = true) then
        p.handle handler p.prevName (rstrip (findCharsOrComment [] false (c :: rest)).1)
      else if c = opening then p.startSection rest
      else p.setting handler (c :: rest)

/-- `ini_parse_file`: the number of the first line in error, or zero, and what the handler made. -/
def parseFile (handler : σ → Str → Str → Str → Bool × σ) (user : σ) (content : Str) : ℕ × σ :=
  let p := (fgetsLines maxLine [] content).foldl (Parser.line handler) { user }
  (p.error, p.user)

/-! ## `INIReader` -/

/-- `std::map<string, string>`. -/
abbrev Values := Str → Option Str

/-- `tolower` in the C locale. -/
def tolower (c : UInt8) : UInt8 := if 65 ≤ c ∧ c ≤ 90 then c + 32 else c

def makeKey (sectionName name : Str) : Str := (sectionName ++ [equals] ++ name).map tolower

/-- What `ValueHandler` stores for a key that has a value already. -/
def join (old value : Str) : Str := (if old.length > 0 then old ++ [newline] else old) ++ value

/-- `INIReader::ValueHandler`. -/
def valueHandler (values : Values) (sectionName name value : Str) : Bool × Values :=
  let key := makeKey sectionName name
  (true, Function.update values key (some (join ((values key).getD []) value)))

def get (values : Values) (sectionName name default : Str) : Str :=
  (values (makeKey sectionName name)).getD default

def isHex (c : UInt8) : Bool := isDigit c || (65 ≤ c && c ≤ 70) || (97 ≤ c && c ≤ 102)

def isOctal (c : UInt8) : Bool := 48 ≤ c && c ≤ 55

/-- The value of a digit. -/
def digit (c : UInt8) : ℤ := if c < 65 then c.toNat - 48 else if c < 97 then c.toNat - 55 else c.toNat - 87

/-- The base that `strtol` finds out, and the digits in it. -/
def baseDigits (s : Str) : ℤ × Str :=
  if s.head? = some 48 then
    if (s.getD 1 0 = 120 ∨ s.getD 1 0 = 88) ∧ isHex (s.getD 2 0) = true then
      (16, (s.drop 2).takeWhile isHex)
    else (8, s.takeWhile isOctal)
  else (10, s.takeWhile isDigit)

/-- `strtol` with base 0 on a 64-bit `long`; `none` when there is nothing to convert. -/
def strtol (s : Str) : Option ℤ :=
  let s := s.dropWhile isSpace
  let neg := s.head? == some '-'.toNat.toUInt8
  let body := if neg || s.head? == some '+'.toNat.toUInt8 then s.tail else s
  let (base, digits) := baseDigits body
  if digits = [] then none
  else
    let n := digits.foldl (fun acc c => acc * base + digit c) 0
    let v := if neg then -n else n
    some (max (-2 ^ 63) (min (2 ^ 63 - 1) v))

def getInteger (values : Values) (sectionName name : Str) (default : ℤ) : ℤ :=
  (strtol (get values sectionName name [])).getD default

end HashHush.Ini

namespace HashHush

open Ini

/-- `class Config` in full. -/
structure Settings extends Config where
  logLevel : Str := ascii "info"
  bindAddress : Str := ascii "0.0.0.0"
  bindPort : ℤ := 8080
  appName : Str := ascii "HashHush"
  adminText : Str := []
  dbPath : Str := ascii "/var/lib/hashhush/hashhush.sqlite"

/-- `static_cast<int>` of a `long`. -/
def toInt (n : ℤ) : ℤ := n.bmod (2 ^ 32)

/-- `static_cast<uint16_t>` of a `long`. -/
def toUInt16 (n : ℤ) : ℤ := n % 2 ^ 16

/-- The assignments of `Config::loadFromFile`. -/
def Settings.assign (c : Settings) (r : Values) : Settings where
  logLevel := get r (ascii "server") (ascii "log_level") c.logLevel
  bindAddress := get r (ascii "server") (ascii "bind_address") c.bindAddress
  bindPort := toUInt16 (getInteger r (ascii "server") (ascii "bind_port") c.bindPort)
  appName := get r (ascii "server") (ascii "app_name") c.appName
  adminText := get r (ascii "server") (ascii "admin_text") c.adminText
  dbPath := get r (ascii "storage") (ascii "db_path") c.dbPath
  maxParticipants := toInt (getInteger r (ascii "room") (ascii "max_participants") c.maxParticipants)
  maxParticipantsCap :=
    toInt (getInteger r (ascii "room") (ascii "max_participants_cap") c.maxParticipantsCap)
  idleTtlSeconds := toInt (getInteger r (ascii "room") (ascii "idle_ttl_seconds") c.idleTtlSeconds)
  totalRoomsCap := toInt (getInteger r (ascii "room") (ascii "total_rooms_cap") c.totalRoomsCap)
  messageCacheSize :=
    toInt (getInteger r (ascii "room") (ascii "message_cache_size") c.messageCacheSize)
  wsMaxPayloadBytes :=
    toInt (getInteger r (ascii "room") (ascii "ws_max_payload_bytes") c.wsMaxPayloadBytes)
  challengeMaxBlobBytes :=
    toInt (getInteger r (ascii "room") (ascii "challenge_max_blob_bytes") c.challengeMaxBlobBytes)
  powDifficultyBits :=
    toInt (getInteger r (ascii "room") (ascii "pow_difficulty_bits") c.powDifficultyBits)

/-- `Config::loadFromFile`: only a file that cannot be opened is refused. -/
def Settings.loadFromFile (c : Settings) : Option Str → Bool × Settings
  | none => (false, c)
  | some content => (true, c.assign (parseFile valueHandler (fun _ => none) content).2)

/-- `kDefaultConfigContent`, which `--generate-config` writes. -/
def kDefaultConfigContent : Str :=
  ascii "[server]\nlog_level = info\nbind_address = 0.0.0.0\nbind_port = 8080\n"
    ++ ascii "app_name = HashHush\n"
    ++ ascii "; Optional announcement shown on the home page below the server-info block.\n"
    ++ ascii "; Leave empty to hide the panel. Rendered as raw HTML " ++ [0xE2, 0x80, 0x94]
    ++ ascii " links via <a>, line\n"
    ++ ascii "; breaks via <br>, etc. Treat this file as trusted; anyone who can edit it\n"
    ++ ascii "; can run arbitrary JS in visitors' browsers.\nadmin_text =\n\n"
    ++ ascii "[storage]\ndb_path = /var/lib/hashhush/hashhush.sqlite\n\n"
    ++ ascii "[room]\nmax_participants = 10\nmax_participants_cap = 50\n"
    ++ ascii "idle_ttl_seconds = 86400\ntotal_rooms_cap = 0\nmessage_cache_size = 5\n"
    ++ ascii "ws_max_payload_bytes = 8192\nchallenge_max_blob_bytes = 256\n"
    ++ ascii "pow_difficulty_bits = 16\n"

end HashHush
