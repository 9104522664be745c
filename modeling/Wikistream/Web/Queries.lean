import Wikistream.Python.Double
import Wikistream.Python.Exc
import Wikistream.Web.Tables

/-!
# `Web.Queries` — the shapes the dashboard answers in

## Contents
- **Windows and series** (`clampMinutes`, `minuteSeries`).
- **`overview`**, **`trending`**.
- **The live feed** (`quote`, `pageUrl`, `latestEdits`).
-/

namespace Wikistream
namespace Queries

open Py Lib

/-! ## Windows and series -/

/-- `MIN_MINUTES`. -/
def minMinutes : Int := 5

/-- `MAX_MINUTES`. -/
def maxMinutes : Int := 6 * 60

/-- `clamp_minutes`. -/
def clampMinutes (minutes : Int) : Int := max minMinutes (min maxMinutes minutes)

/-- `t + timedelta(minutes=minutes)`. -/
def addMinutes (t : Instant) (minutes : Int) : Except Exc Instant :=
  if h : InRange (t.micros + minutes * 60000000) then .ok ⟨_, h⟩ else .error .overflowError

theorem addMinutes_eq_ok {t t' : Instant} {minutes : Int} :
    addMinutes t minutes = .ok t' ↔ t'.micros = t.micros + minutes * 60000000 := by
  unfold addMinutes
  split
  · next h => simp only [Except.ok.injEq, Instant.ext_iff, eq_comm]
  · next h =>
      simp only [reduceCtorEq, false_iff]
      exact fun heq => h (heq ▸ t'.in_range)

/-- A bar of a chart. -/
structure Bar where
  minute : Str
  edits : Int
  deriving DecidableEq

/-- The `while` of `minute_series`. -/
def seriesFrom (counts : Dict Instant Int) (last minute : Instant) : Except Exc (List Bar) :=
  if minute < last then
    match _hnext : addMinutes minute 1 with
    | .error e => .error e
    | .ok next => (seriesFrom counts last next).map (⟨minute.iso, (counts.get? minute).getD 0⟩ :: ·)
  else .ok []
termination_by (last.micros - minute.micros).toNat
decreasing_by
  have hmicros := addMinutes_eq_ok.mp _hnext
  have hlt : minute.micros < last.micros := ‹minute < last›
  omega

/-- `minute_series`. -/
def minuteSeries (rows : List (Instant × Int)) (minutes : Int) (now : Instant) : Except Exc (List Bar) := do
  let last := dateTrunc now
  let start ← addMinutes last (-minutes)
  let counts := rows.foldl (fun counts row => counts.set row.1 row.2) Dict.empty
  seriesFrom counts last start

/-! ## `overview` -/

structure Overview where
  minutes : Int
  now : Str
  edits : Int
  botShare : Double
  wikis : Int
  pages : Int
  editsPerSecond : Double
  editWars : Int
  editsStored : Int
  newestStoredAt : Option Str
  newestEventTime : Option Str
  perMinute : List Bar

/-- `overview`. `rounded a b digits` is `round(a / b, digits)`. -/
def overview (rounded : Int → Int → Nat → Double) (db : Database) (minutes : Int) (now : Instant) :
    Except Exc Overview := do
  let minutes := clampMinutes minutes
  let since ← addMinutes now (-minutes)
  let window : Window := ⟨since, now⟩
  let totals := db.overviewTotals window
  let stored := db.stored window
  let lastMinute := db.lastMinute now
  let series ← minuteSeries (db.overviewPerMinute window) minutes now
  return {
    minutes
    now := now.iso
    edits := totals.edits
    botShare := if totals.edits ≠ 0 then rounded totals.botEdits totals.edits 4 else ⟨0, 0⟩
    wikis := totals.wikis
    pages := totals.pages
    editsPerSecond := rounded lastMinute 60 2
    editWars := stored.editWars
    editsStored := stored.editsStored
    newestStoredAt := stored.newestStoredAt.map Instant.iso
    newestEventTime := stored.newestEventTime.map Instant.iso
    perMinute := series }

/-! ## `trending` -/

structure Page where
  wiki : Str
  title : Str
  edits : Int
  perMinute : List Int

structure Trending where
  minutes : Int
  wiki : Option Str
  newestMinute : Option Str
  pages : List Page

/-- `wiki or None`. -/
def wikiOrNone (wiki : Option Str) : Option Str := if wiki = some [] then none else wiki

/-- `by_page`. -/
def byPage (rows : List TrendingRow) : Dict (Str × Str) (List (Instant × Int)) :=
  rows.foldl
    (fun pages row =>
      pages.set (row.wiki, row.title) ((pages.get? (row.wiki, row.title)).getD [] ++ [(row.minute, row.editCount)]))
    Dict.empty

/-- `series`. -/
def seriesOf (minutes : Int) (now : Instant) (pages : Dict (Str × Str) (List (Instant × Int))) :
    Except Exc (Dict (Str × Str) (List Bar)) :=
  pages.entries.foldlM
    (fun series entry => do
      let bars ← minuteSeries entry.2 minutes now
      return series.set entry.1 bars)
    Dict.empty

/-- A page of the answer. -/
def pageOf (series : Dict (Str × Str) (List Bar)) (page : TopPage) : Page where
  wiki := page.wiki
  title := page.title
  edits := page.edits
  perMinute := ((series.get? (page.wiki, page.title)).getD []).map Bar.edits

/-- `trending`. -/
def trending (db : Database) (minutes : Int) (wiki : Option Str) (limit : Int) (now : Instant) :
    Except Exc Trending := do
  let minutes := clampMinutes minutes
  let since ← addMinutes now (-minutes)
  let window : Window := ⟨since, now⟩
  let top := db.topPages window (wikiOrNone wiki) (max 1 (min limit 50)).toNat
  let rows := if top = [] then [] else db.pageMinutes window (top.map (fun page => (page.wiki, page.title)))
  let series ← seriesOf minutes now (byPage rows)
  return {
    minutes
    wiki := wikiOrNone wiki
    newestMinute := db.newestTrendingMinute.map Instant.iso
    pages := top.map (pageOf series) }

/-! ## The live feed -/

/-- A digit of `%02X`. -/
def hexUpper (n : Nat) : Chr := Fin.ofNat _ (if n < 10 then 0x30 + n else 0x37 + n)

/-- The bytes `quote` leaves as they are: its own, and those of `safe`. -/
def quoteSafe (safe : Str) (b : UInt8) : Bool :=
  let c : Chr := Fin.ofNat _ b.toNat
  (0x61 ≤ c.val && c.val ≤ 0x7a) || (0x41 ≤ c.val && c.val ≤ 0x5a) || (0x30 ≤ c.val && c.val ≤ 0x39) ||
    c ∈ lit "_.-~" || c ∈ safe

/-- `quote(s, safe=safe)`. -/
def quote (s safe : Str) : Except Exc Str :=
  match utf8Encode s with
  | none => .error .unicodeEncodeError
  | some b => .ok (b.flatMap (fun b =>
      if quoteSafe safe b then [Fin.ofNat _ b.toNat]
      else [chr '%', hexUpper (b.toNat / 16), hexUpper (b.toNat % 16)]))

/-- `page_url`. -/
def pageUrl (serverName title : Str) : Except Exc (Option Str) :=
  if serverName = [] then .ok none
  else (quote (title.map (fun c => if c = chr ' ' then chr '_' else c)) (lit ":/()_,!~*")).map
    (fun path => some (lit "https://" ++ serverName ++ lit "/wiki/" ++ path))

structure Edit where
  eventId : Str
  wiki : Str
  title : Str
  type : Str
  user : Str
  bot : Bool
  minor : Bool
  isRevert : Option Bool
  comment : Str
  sizeChange : Option Int
  eventTime : Str
  storedAfterMs : Int
  url : Option Str

/-- `size`. -/
def sizeChange (row : EditRow) : Option Int :=
  match row.lengthOld, row.lengthNew with
  | some lengthOld, some lengthNew => some (lengthNew - lengthOld)
  | _, _ => none

/-- `int((ingested_at - event_time).total_seconds() * 1000)`. -/
def storedAfterMs (row : EditRow) : Int :=
  ((Double.ofRatio (row.ingestedAt.micros - row.eventTime.micros) 1000000).mulInt 1000).trunc

/-- One round of the loop over the rows. -/
def editOf (row : EditRow) : Except Exc Edit := do
  let url ← pageUrl row.serverName row.title
  return {
    eventId := row.eventId
    wiki := row.wiki
    title := row.title
    type := row.type
    user := row.username
    bot := row.bot
    minor := row.minor
    isRevert := row.isRevert
    comment := row.comment
    sizeChange := sizeChange row
    eventTime := row.eventTime.iso
    storedAfterMs := storedAfterMs row
    url }

structure Feed where
  edits : List Edit
  nextBefore : Option Str

/-- The parameters `latest_edits` hands to `LATEST_EDITS`. -/
def latestQuery (limit : Int) (wiki : Option Str) (humansOnly revertsOnly : Bool) (before : Option Instant) :
    LatestQuery where
  wiki := wikiOrNone wiki
  humans := humansOnly
  reverts := revertsOnly
  before := before
  limit := (max 1 (min limit 200)).toNat

/-- `latest_edits`. -/
def latestEdits (db : Database) (limit : Int) (wiki : Option Str) (humansOnly revertsOnly : Bool)
    (before : Option Instant) : Except Exc Feed := do
  let rows := db.latestEdits (latestQuery limit wiki humansOnly revertsOnly before)
  let edits ← rows.mapM editOf
  return { edits, nextBefore := edits.getLast?.map Edit.eventTime }

end Queries
end Wikistream
