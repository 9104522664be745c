import Wikistream.Python.DateTime
import Wikistream.Python.JsonBytes

/-!
# `Common.Models` — parsing and validation of recentchange events

`common/models.py` function by function. Every function that may raise returns in `Except Exc`; a
`ParseError` carries its text, because the cleaner writes it to the dead letter topic.

## Contents
- **The host** (`Host`): limits of the interpreter, the local time zone, `repr`, and the revert patterns.
- **Keyword arguments** (`keywords`, `argument`): a dataclass from a decoded document.
- **`CleanEvent`** and its properties; `ofDict_asDict` is the round trip of its fields.
- **Raw events.** `parseRaw`, `isCanary`, `eventIdOf`, `eventTime`, `cleanEvent`.
-/

namespace Wikistream

open Py

/-- What the functions below take from the interpreter and from third-party code: the limits of
    `json.loads`, the local time zone, `repr` and what `json` writes for a float, and the compiled
    `REVERT_PATTERNS.search`. -/
structure Host where
  json : JsonLimits
  zone : LocalZone
  repr : Json → Str
  floatRepr : JFloat → Str
  isRevertComment : Str → Bool

namespace Models

/-- A Kafka value, or text handed over directly. -/
inductive Payload
  | none
  | bytes (b : Bytes)
  | str (s : Str)

/-- `EVENT_TYPES`. -/
def eventTypes : List Str := [lit "edit", lit "new", lit "log", lit "categorize"]

def parseError {α : Type} (message : Str) : Except Exc α := .error (.parseError message)

/-! ## Keyword arguments -/

/-- The `TypeError` of a call with the wrong arguments; its text is only logged. -/
def callError {α : Type} : Except Exc α := .error (.typeError [])

/-- `json.loads(payload)`. -/
def loadsPayload (limits : JsonLimits) : Payload → Except Exc Json
  | .none => .error (.typeError (lit "the JSON object must be str, bytes or bytearray, not NoneType"))
  | .str s => loads limits s
  | .bytes b => loadsBytes limits b

/-- The arguments of `cls(**v)`: a mapping whose keys are names of parameters. -/
def keywords (names : List String) : Json → Except Exc Obj
  | .obj d => if ∀ m ∈ d, m.1 ∈ names.map lit then .ok d else callError
  | _ => callError

/-- The argument `name`. A dataclass takes a value of any type; the records of the topics are written with
    the types of the fields, and one with another type is refused here. -/
def argument {α : Type} (read : Json → Option α) (d : Obj) (name : String) : Except Exc α :=
  match (lookup d (lit name)).bind read with
  | some a => .ok a
  | .none => callError

/-- The argument `name` of a parameter with a default. -/
def argumentOr {α : Type} (default : α) (read : Json → Option α) (d : Obj) (name : String) : Except Exc α :=
  if (lookup d (lit name)).isNone then .ok default else argument read d name

theorem argument_eq_ok {α : Type} {read : Json → Option α} {d : Obj} {name : String} {a : α} :
    argument read d name = .ok a ↔ ∃ v, lookup d (lit name) = some v ∧ read v = some a := by
  unfold argument
  rw [← Option.bind_eq_some_iff]
  split
  · next b hb => rw [hb, Except.ok.injEq, Option.some.injEq]
  · next hb =>
      rw [hb]
      simp [callError]

theorem argument_of {α : Type} {read : Json → Option α} {d : Obj} {name : String} {v : Json} {a : α}
    (hlookup : lookup d (lit name) = some v) (hread : read v = some a) : argument read d name = .ok a :=
  argument_eq_ok.mpr ⟨v, hlookup, hread⟩

theorem keywords_eq_ok {names : List String} {v : Json} {d : Obj} (h : keywords names v = .ok d) : v = .obj d := by
  unfold keywords at h
  split at h
  · split at h
    · rw [Except.ok.inj h]
    · exact absurd h (by simp [callError])
  · exact absurd h (by simp [callError])

theorem argumentOr_of {α : Type} {default : α} {read : Json → Option α} {d : Obj} {name : String} {v : Json}
    {a : α} (hlookup : lookup d (lit name) = some v) (hread : read v = some a) :
    argumentOr default read d name = .ok a := by
  unfold argumentOr
  rw [argument_of hlookup hread, hlookup]
  rfl

def asStr : Json → Option Str
  | .str s => some s
  | _ => .none

def asInt : Json → Option Int
  | .int n => some n
  | _ => .none

def asBool : Json → Option Bool
  | .bool b => some b
  | _ => .none

/-- A field that may be `None`. -/
def orNull {α : Type} (read : Json → Option α) : Json → Option (Option α)
  | .null => some .none
  | v => (read v).map some

/-! ## Clean events -/

structure CleanEvent where
  eventId : Str
  wiki : Str
  title : Str
  type : Str
  pageNamespace : Int
  user : Str
  bot : Bool
  minor : Bool
  comment : Str
  eventTime : Str
  revOld : Option Int
  revNew : Option Int
  lengthOld : Option Int
  lengthNew : Option Int
  serverName : Str
  logType : Option Str := .none
  logAction : Option Str := .none
  deriving DecidableEq

namespace CleanEvent

def pageKey (event : CleanEvent) : Str := event.wiki ++ chr ':' :: event.title

def isRevert (host : Host) (event : CleanEvent) : Bool :=
  event.type == lit "edit" && host.isRevertComment event.comment

/-- `None` or an `int`, as `json` writes it. -/
def intOrNull : Option Int → Json
  | some n => .int n
  | .none => .null

/-- `None` or a `str`, as `json` writes it. -/
def strOrNull : Option Str → Json
  | some s => .str s
  | .none => .null

/-- `asdict(self)`. -/
def asDict (event : CleanEvent) : Json :=
  .obj [(lit "event_id", .str event.eventId), (lit "wiki", .str event.wiki),
    (lit "title", .str event.title), (lit "type", .str event.type),
    (lit "namespace", .int event.pageNamespace), (lit "user", .str event.user),
    (lit "bot", .bool event.bot), (lit "minor", .bool event.minor), (lit "comment", .str event.comment),
    (lit "event_time", .str event.eventTime), (lit "rev_old", intOrNull event.revOld),
    (lit "rev_new", intOrNull event.revNew), (lit "length_old", intOrNull event.lengthOld),
    (lit "length_new", intOrNull event.lengthNew), (lit "server_name", .str event.serverName),
    (lit "log_type", strOrNull event.logType), (lit "log_action", strOrNull event.logAction)]

/-- `to_json`: a lone surrogate in a text field raises `UnicodeEncodeError`. -/
def toJson (host : Host) (event : CleanEvent) : Except Exc Bytes :=
  match utf8Encode (dumps host.floatRepr event.asDict) with
  | some b => .ok b
  | .none => .error .unicodeEncodeError

/-- The names of the fields. -/
def fields : List String :=
  ["event_id", "wiki", "title", "type", "namespace", "user", "bot", "minor", "comment", "event_time", "rev_old",
    "rev_new", "length_old", "length_new", "server_name", "log_type", "log_action"]

/-- `CleanEvent(**v)`. -/
def ofDict (v : Json) : Except Exc CleanEvent := do
  let d ← keywords fields v
  let eventId ← argument asStr d "event_id"
  let wiki ← argument asStr d "wiki"
  let title ← argument asStr d "title"
  let type ← argument asStr d "type"
  let pageNamespace ← argument asInt d "namespace"
  let user ← argument asStr d "user"
  let bot ← argument asBool d "bot"
  let minor ← argument asBool d "minor"
  let comment ← argument asStr d "comment"
  let eventTime ← argument asStr d "event_time"
  let revOld ← argument (orNull asInt) d "rev_old"
  let revNew ← argument (orNull asInt) d "rev_new"
  let lengthOld ← argument (orNull asInt) d "length_old"
  let lengthNew ← argument (orNull asInt) d "length_new"
  let serverName ← argument asStr d "server_name"
  let logType ← argumentOr .none (orNull asStr) d "log_type"
  let logAction ← argumentOr .none (orNull asStr) d "log_action"
  return {
    eventId, wiki, title, type, pageNamespace, user, bot, minor, comment, eventTime, revOld, revNew, lengthOld,
    lengthNew, serverName, logType, logAction }

theorem orNull_intOrNull (x : Option Int) : orNull asInt (intOrNull x) = some x := by
  cases x <;> rfl

theorem orNull_strOrNull (x : Option Str) : orNull asStr (strOrNull x) = some x := by
  cases x <;> rfl

/-- **The fields survive `asdict`.** -/
theorem ofDict_asDict (event : CleanEvent) : ofDict event.asDict = .ok event := by
  refine bind_eq_ok.mpr ⟨_, rfl, ?_⟩
  -- the fields up to `event_time`, then the numbers, the server name and the optional texts
  iterate 10 refine bind_eq_ok.mpr ⟨_, argument_of rfl rfl, ?_⟩
  iterate 4 refine bind_eq_ok.mpr ⟨_, argument_of rfl (orNull_intOrNull _), ?_⟩
  refine bind_eq_ok.mpr ⟨_, argument_of rfl rfl, ?_⟩
  iterate 2 refine bind_eq_ok.mpr ⟨_, argumentOr_of rfl (orNull_strOrNull _), ?_⟩
  rfl

/-- `from_json`. -/
def fromJson (host : Host) (payload : Payload) : Except Exc CleanEvent := do
  let v ← loadsPayload host.json payload
  ofDict v

/-- The text fields. -/
def texts (event : CleanEvent) : List Str :=
  [event.eventId, event.wiki, event.title, event.type, event.user, event.comment, event.eventTime,
    event.serverName] ++ event.logType.toList ++ event.logAction.toList

end CleanEvent

/-! ## Raw events -/

/-- `str(v)`. -/
def strOf (host : Host) : Json → Str
  | .str s => s
  | v => host.repr v

/-- `v or default`, for `v` from `raw.get`. -/
def orElse (v : Option Json) (default : Json) : Json :=
  match v with
  | some v => if v.truthy then v else default
  | .none => default

/-- The text of a Kafka value. `json.loads(None)` raises a `TypeError`, which `parse_raw` catches. -/
def decodeText : Payload → Except Exc Str
  | .none => parseError (lit "invalid json: the JSON object must be str, bytes or bytearray, not NoneType")
  | .str s => .ok s
  | .bytes b =>
      match utf8Decode b with
      | some s => .ok s
      | .none => parseError (lit "value is not valid utf-8")

/-- `json.loads(text)`, with the exceptions that `parse_raw` catches. -/
def decodeJson (host : Host) (text : Str) : Except Exc Json :=
  match loads host.json text with
  | .error (.typeError message) => parseError (lit "invalid json: " ++ message)
  | .error (.jsonDecodeError message) => parseError (lit "invalid json: " ++ message)
  | result => result

/-- `if not isinstance(raw, dict): raise …`. -/
def asObject : Json → Except Exc Obj
  | .obj raw => .ok raw
  | _ => parseError (lit "event is not a json object")

/-- `parse_raw`. -/
def parseRaw (host : Host) (payload : Payload) : Except Exc Obj := do
  let text ← decodeText payload
  let raw ← decodeJson host text
  asObject raw

/-- `is_canary`. -/
def isCanary (raw : Obj) : Bool :=
  match lookup raw (lit "meta") with
  | some (.obj info) =>
      match lookup info (lit "domain") with
      | some (.str domain) => domain == lit "canary"
      | _ => false
  | _ => false

/-- `event_id_of`: a `meta` that has no members raises `TypeError`, which counts as a missing id. -/
def eventIdOf (raw : Obj) : Except Exc Str :=
  match lookup raw (lit "meta") with
  | some (.obj info) =>
      match lookup info (lit "id") with
      | some (.str id) => if id = [] then parseError (lit "meta.id is not a non-empty string") else .ok id
      | some _ => parseError (lit "meta.id is not a non-empty string")
      | .none => parseError (lit "missing meta.id")
  | _ => parseError (lit "missing meta.id")

/-- `_optional_int`. -/
def optionalInt : Option Json → Except Exc (Option Int)
  | .none | some .null => .ok .none
  | some (.int n) => .ok (some n)
  | some v => parseError (lit "expected int, got " ++ v.typeName)

/-- `raw.get("meta", {}).get("dt")`, where it is a string. -/
def dtText (raw : Obj) : Except Exc (Option Str) :=
  match lookup raw (lit "meta") with
  | some (.obj info) =>
      match lookup info (lit "dt") with
      | some (.str dt) => .ok (some dt)
      | _ => .ok .none
  | some _ => .error .attributeError
  | .none => .ok .none

/-- The time `dt` gives in UTC; a `ValueError` leaves it to `timestamp`. -/
def readDt (host : Host) (dt : Str) : Except Exc (Option Str) :=
  match fromisoformat (replaceChr (chr 'Z') (lit "+00:00") dt) with
  | .error e => if e.isValueError then .ok .none else .error e
  | .ok parsed =>
      match parsed.astimezoneUtc host.zone with
      | .ok utc => .ok (some utc.isoformat)
      | .error e => if e.isValueError then .ok .none else .error e

/-- The time `timestamp` gives. -/
def readTimestamp (raw : Obj) : Except Exc Str :=
  match lookup raw (lit "timestamp") with
  | some (.int ts) => (fromtimestamp ts).map DateTime.isoformat
  | _ => parseError (lit "no usable event time")

/-- `_event_time`. -/
def eventTime (host : Host) (raw : Obj) : Except Exc Str := do
  match ← dtText raw with
  | .none => readTimestamp raw
  | some dt =>
      match ← readDt host dt with
      | some time => .ok time
      | .none => readTimestamp raw

/-- `event_type not in EVENT_TYPES`, for a hashable `event_type`. -/
def eventTypeOf (host : Host) (raw : Obj) : Except Exc Str :=
  match lookup raw (lit "type") with
  | some (.arr _) => .error (.typeError (lit "unhashable type: 'list'"))
  | some (.obj _) => .error (.typeError (lit "unhashable type: 'dict'"))
  | some (.str s) =>
      if s ∈ eventTypes then .ok s else parseError (lit "unknown event type: " ++ host.repr (.str s))
  | some v => parseError (lit "unknown event type: " ++ host.repr v)
  | .none => parseError (lit "unknown event type: " ++ host.repr .null)

/-- A non-empty `wiki`. -/
def wikiOf (raw : Obj) : Except Exc Str :=
  match lookup raw (lit "wiki") with
  | some (.str wiki) => if wiki = [] then parseError (lit "missing wiki") else .ok wiki
  | _ => parseError (lit "missing wiki")

/-- A `title` that is not blank. -/
def titleOf (raw : Obj) : Except Exc Str :=
  match lookup raw (lit "title") with
  | some (.str title) => if strip title = [] then parseError (lit "missing title") else .ok title
  | _ => parseError (lit "missing title")

def namespaceOf (raw : Obj) : Except Exc Int :=
  match lookup raw (lit "namespace") with
  | some (.int n) => .ok n
  | _ => parseError (lit "namespace is not an int")

/-- `raw.get(field) or {}`, whose `.get` raises `AttributeError` on anything but a `dict`. -/
def membersOf (raw : Obj) (field : String) : Except Exc Obj :=
  match orElse (lookup raw (lit field)) (.obj []) with
  | .obj members => .ok members
  | _ => .error .attributeError

/-- The `old` and `new` of `revision` or `length`. -/
def oldNew (raw : Obj) (field : String) : Except Exc (Option Int × Option Int) := do
  let members ← membersOf raw field
  let old ← optionalInt (lookup members (lit "old"))
  let new ← optionalInt (lookup members (lit "new"))
  return (old, new)

/-- `str(raw.get(field) or "")`. -/
def textOf (host : Host) (raw : Obj) (field : String) : Str :=
  strOf host (orElse (lookup raw (lit field)) (.str []))

/-- `bool(raw.get(field, False))`. -/
def flagOf (raw : Obj) (field : String) : Bool :=
  match lookup raw (lit field) with
  | some v => v.truthy
  | .none => false

/-- `_optional_str`. -/
def optionalStr : Option Json → Option Str
  | some (.str s) => if s.isEmpty then .none else some s
  | _ => .none

/-- `clean_event`. The arguments of `CleanEvent(…)` that can raise do so in this order. -/
def cleanEvent (host : Host) (raw : Obj) : Except Exc CleanEvent := do
  let eventId ← eventIdOf raw
  let type ← eventTypeOf host raw
  let wiki ← wikiOf raw
  let title ← titleOf raw
  let pageNamespace ← namespaceOf raw
  let eventTime ← eventTime host raw
  let (revOld, revNew) ← oldNew raw "revision"
  let (lengthOld, lengthNew) ← oldNew raw "length"
  return {
    eventId, wiki
    title := join (lit " ") (splitWords title)
    type, pageNamespace
    user := textOf host raw "user"
    bot := flagOf raw "bot"
    minor := flagOf raw "minor"
    comment := strip (textOf host raw "comment")
    eventTime, revOld, revNew, lengthOld, lengthNew
    serverName := textOf host raw "server_name"
    logType := optionalStr (lookup raw (lit "log_type"))
    logAction := optionalStr (lookup raw (lit "log_action")) }

end Models
end Wikistream
