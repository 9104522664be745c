import Wikistream.Common.Models

/-!
# `Processors.PageLatest` — what `wiki.page-latest` should hold for a page

## Contents
- **The record of a page** (`PageLatest`), and how it is written and read.
- **The event time of a record** (`eventTimeIn`), which the guard reads: the names of the fields are checked, not their
  types.
- **Updates** (`pageUpdate`): a content change writes the page's record, a deletion writes a tombstone.
-/

namespace Wikistream

open Py Models

structure PageLatest where
  wiki : Str
  title : Str
  eventId : Str
  type : Str
  user : Str
  bot : Bool
  minor : Bool
  isRevert : Bool
  comment : Str
  eventTime : Str
  revId : Option Int
  length : Option Int
  deriving DecidableEq

namespace PageLatest

/-! ## The record of a page -/

/-- `from_event`. -/
def fromEvent (host : Host) (event : CleanEvent) : PageLatest where
  wiki := event.wiki
  title := event.title
  eventId := event.eventId
  type := event.type
  user := event.user
  bot := event.bot
  minor := event.minor
  isRevert := event.isRevert host
  comment := event.comment
  eventTime := event.eventTime
  revId := event.revNew
  length := event.lengthNew

/-- `asdict(self)`. -/
def asDict (page : PageLatest) : Json :=
  .obj [(lit "wiki", .str page.wiki), (lit "title", .str page.title), (lit "event_id", .str page.eventId),
    (lit "type", .str page.type), (lit "user", .str page.user), (lit "bot", .bool page.bot),
    (lit "minor", .bool page.minor), (lit "is_revert", .bool page.isRevert), (lit "comment", .str page.comment),
    (lit "event_time", .str page.eventTime), (lit "rev_id", CleanEvent.intOrNull page.revId),
    (lit "length", CleanEvent.intOrNull page.length)]

/-- `to_json`. -/
def toJson (host : Host) (page : PageLatest) : Except Exc Bytes :=
  match utf8Encode (dumps host.floatRepr page.asDict) with
  | some b => .ok b
  | none => .error .unicodeEncodeError

/-- The names of the fields. -/
def fields : List String :=
  ["wiki", "title", "event_id", "type", "user", "bot", "minor", "is_revert", "comment", "event_time", "rev_id",
    "length"]

/-- `PageLatest(**v)`. -/
def ofDict (v : Json) : Except Exc PageLatest := do
  let d ← keywords fields v
  let wiki ← argument asStr d "wiki"
  let title ← argument asStr d "title"
  let eventId ← argument asStr d "event_id"
  let type ← argument asStr d "type"
  let user ← argument asStr d "user"
  let bot ← argument asBool d "bot"
  let minor ← argument asBool d "minor"
  let isRevert ← argument asBool d "is_revert"
  let comment ← argument asStr d "comment"
  let eventTime ← argument asStr d "event_time"
  let revId ← argument (orNull asInt) d "rev_id"
  let length ← argument (orNull asInt) d "length"
  return { wiki, title, eventId, type, user, bot, minor, isRevert, comment, eventTime, revId, length }

theorem ofDict_asDict (page : PageLatest) : ofDict page.asDict = .ok page := by
  refine bind_eq_ok.mpr ⟨_, rfl, ?_⟩
  iterate 10 refine bind_eq_ok.mpr ⟨_, argument_of rfl rfl, ?_⟩
  iterate 2 refine bind_eq_ok.mpr ⟨_, argument_of rfl (CleanEvent.orNull_intOrNull _), ?_⟩
  rfl

/-- `from_json`. -/
def fromJson (host : Host) (payload : Payload) : Except Exc PageLatest := do
  let v ← loadsPayload host.json payload
  ofDict v

/-- `PageLatest.from_json(payload).event_time`, whatever the types of the fields are. -/
def eventTimeIn (host : Host) (payload : Payload) : Except Exc Json := do
  let v ← loadsPayload host.json payload
  let d ← keywords fields v
  if ∀ name ∈ fields, (lookup d (lit name)).isSome = true then
    argument some d "event_time"
  else callError

/-- The text fields. -/
def texts (page : PageLatest) : List Str :=
  [page.wiki, page.title, page.eventId, page.type, page.user, page.comment, page.eventTime]

/-! ## Updates -/

def contentTypes : List Str := [lit "edit", lit "new"]

/-- `event_ms`. -/
def eventMs (host : Host) (eventTime : Str) : Except Exc Int := epochMs host.zone eventTime

/-- `event_ms` of a value of any type: `fromisoformat` takes a text only. -/
def eventMsOf (host : Host) : Json → Except Exc Int
  | .str eventTime => eventMs host eventTime
  | _ => .error (.typeError (lit "fromisoformat: argument must be str"))

def isDeletion (event : CleanEvent) : Bool :=
  event.type == lit "log" && event.logType == some (lit "delete") && event.logAction == some (lit "delete")

/-- `page_update`: the key and the record for a content change, the key and nothing for a deletion. -/
def pageUpdate (host : Host) (event : CleanEvent) : Option (Str × Option PageLatest) :=
  if event.type ∈ contentTypes then some (event.pageKey, some (fromEvent host event))
  else if isDeletion event then some (event.pageKey, none)
  else none

/-! ## A page that was written -/

variable {host : Host} {payload : Payload} {page : PageLatest}

theorem isSome_of_argument {α : Type} {read : Json → Option α} {d : Obj} {name : String} {a : α}
    (h : argument read d name = .ok a) : (lookup d (lit name)).isSome = true := by
  obtain ⟨v, hv, _⟩ := argument_eq_ok.mp h
  rw [hv]
  rfl

/-- The event time of a page whose fields have their types. -/
theorem eventTimeIn_of_fromJson (h : fromJson host payload = .ok page) :
    eventTimeIn host payload = .ok (.str page.eventTime) := by
  obtain ⟨v, hloads, h⟩ := bind_eq_ok.mp h
  unfold ofDict at h
  simp only [bind_eq_ok] at h
  obtain ⟨d, hd, _, hwiki, _, htitle, _, hid, _, htype, _, huser, _, hbot, _, hminor, _, hrevert, _, hcomment, _, htime,
    _, hrev, _, hlength, hpage⟩ := h
  obtain rfl := Except.ok.inj hpage
  refine bind_eq_ok.mpr ⟨v, hloads, bind_eq_ok.mpr ⟨d, hd, ?_⟩⟩
  rw [if_pos]
  · obtain ⟨u, hlookup, hread⟩ := argument_eq_ok.mp htime
    cases u with
    | str s =>
        obtain rfl := Option.some.inj hread
        exact argument_of hlookup rfl
    | _ => exact absurd hread (by simp [asStr])
  · intro name hname
    simp only [fields, List.mem_cons, List.not_mem_nil, or_false] at hname
    rcases hname with rfl | rfl | rfl | rfl | rfl | rfl | rfl | rfl | rfl | rfl | rfl | rfl
    · exact isSome_of_argument hwiki
    · exact isSome_of_argument htitle
    · exact isSome_of_argument hid
    · exact isSome_of_argument htype
    · exact isSome_of_argument huser
    · exact isSome_of_argument hbot
    · exact isSome_of_argument hminor
    · exact isSome_of_argument hrevert
    · exact isSome_of_argument hcomment
    · exact isSome_of_argument htime
    · exact isSome_of_argument hrev
    · exact isSome_of_argument hlength

end PageLatest
end Wikistream
