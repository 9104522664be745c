import Mathlib.Data.List.Dedup
import Wikistream.Lib.Dict
import Wikistream.Lib.Paging
import Wikistream.Python.JsonRoundTrip
import Wikistream.Python.TimeOrder

/-!
# `Web.Tables` — the tables the dashboard reads, and what its statements ask of them

A statement of the source is a field of `Database`, from its parameters to the rows that come back. `Serves` says what
PostgreSQL answers: the rows the statement describes, in an order that is open where the statement leaves it open.
The session's time zone is UTC.

## Contents
- **Tables** (`EditRow`, `Tables`).
- **Parameters and rows** (`Window`, `LatestQuery`, `TopPage`, …) and the statements (`Database`).
- **What comes back** (`Serves`), from a database that there is (`serves_answers`).
-/

namespace Wikistream
namespace Queries

open Py Lib

/-! ## Tables -/

/-- A row of `edits`. The database keeps UTF-8. -/
structure EditRow where
  eventId : Str
  wiki : Str
  title : Str
  type : Str
  namespaceId : Int
  username : Str
  bot : Bool
  minor : Bool
  /-- `NULL` in rows stored before the column was added. -/
  isRevert : Option Bool
  comment : Str
  eventTime : Instant
  lengthOld : Option Int
  lengthNew : Option Int
  serverName : Str
  ingestedAt : Instant
  title_encodable : Encodable title

/-- The tables; `trendingMinutes` by its primary key. -/
structure Tables where
  edits : List EditRow
  trendingMinutes : Dict (Str × Str × Instant) Int

/-! ## Parameters and rows -/

/-- The time window of a statement: after `since`, up to `now`. -/
structure Window where
  since : Instant
  now : Instant

def Window.Contains (w : Window) (t : Instant) : Prop := w.since < t ∧ t ≤ w.now

instance (w : Window) (t : Instant) : Decidable (w.Contains t) := inferInstanceAs (Decidable (_ ∧ _))

structure Totals where
  edits : Int
  botEdits : Int
  wikis : Int
  pages : Int

structure Stored where
  editsStored : Int
  newestStoredAt : Option Instant
  newestEventTime : Option Instant
  editWars : Int

structure TopPage where
  wiki : Str
  title : Str
  edits : Int
  deriving DecidableEq

structure TrendingRow where
  wiki : Str
  title : Str
  minute : Instant
  editCount : Int

/-- The parameters of `LATEST_EDITS`. -/
structure LatestQuery where
  wiki : Option Str
  humans : Bool
  reverts : Bool
  before : Option Instant
  limit : Nat

/-- The `WHERE` of `LATEST_EDITS`, the cursor left out. An unknown `is_revert` is not a revert. -/
def LatestQuery.matches (q : LatestQuery) (row : EditRow) : Bool :=
  q.wiki.all (· == row.wiki) && (!q.humans || !row.bot) && (!q.reverts || row.isRevert == some true)

/-- The statements, with the rows they come back with. -/
structure Database where
  overviewTotals : Window → Totals
  stored : Window → Stored
  lastMinute : Instant → Int
  overviewPerMinute : Window → List (Instant × Int)
  topPages : Window → (wiki : Option Str) → (limit : Nat) → List TopPage
  pageMinutes : Window → (pages : List (Str × Str)) → List TrendingRow
  newestTrendingMinute : Option Instant
  latestEdits : LatestQuery → List EditRow

/-! ## What comes back -/

/-- `date_trunc('minute', t)`. -/
def dateTrunc (t : Instant) : Instant where
  micros := t.micros - t.micros % 60000000
  in_range := by
    have := t.in_range
    unfold InRange at *
    omega

/-- `COUNT(*)` of the edits of a minute, within the window. -/
def countWithin (tables : Tables) (w : Window) (minute : Instant) : Nat :=
  tables.edits.countP (fun row => w.Contains row.eventTime ∧ dateTrunc row.eventTime = minute)

/-- The groups of `TOP_PAGES` with their sums. -/
def pageSums (tables : Tables) (w : Window) (wiki : Option Str) : List TopPage :=
  let entries := tables.trendingMinutes.entries.filter
    (fun e => w.Contains e.1.2.2 ∧ wiki.all (· == e.1.1) = true)
  (entries.map (fun e => (e.1.1, e.1.2.1))).dedup.map (fun page => {
    wiki := page.1
    title := page.2
    edits := ((entries.filter (fun e => (e.1.1, e.1.2.1) = page)).map Prod.snd).sum })

/-- `PAGE_MINUTES`. -/
def minutesOf (tables : Tables) (w : Window) (pages : List (Str × Str)) : List TrendingRow :=
  (tables.trendingMinutes.entries.filter (fun e => w.Contains e.1.2.2 ∧ (e.1.1, e.1.2.1) ∈ pages)).map
    (fun e => ⟨e.1.1, e.1.2.1, e.1.2.2, e.2⟩)

/-- The answers are those for the tables. Among pages with equal sums the order is the collation's. -/
structure Serves (db : Database) (tables : Tables) : Prop where
  overviewPerMinute : ∀ w, ((db.overviewPerMinute w).map Prod.fst).Nodup ∧
    ∀ minute n, (minute, n) ∈ db.overviewPerMinute w ↔ n = countWithin tables w minute ∧ 0 < n
  topPages : ∀ w wiki limit, Top TopPage.edits limit (pageSums tables w wiki) (db.topPages w wiki limit)
  pageMinutes : ∀ w pages, (db.pageMinutes w pages).Perm (minutesOf tables w pages)
  latestEdits : ∀ q, Top EditRow.eventTime q.limit (older EditRow.eventTime (tables.edits.filter q.matches) q.before)
    (db.latestEdits q)

/-! ## A database that answers -/

/-- One answer of each statement that is described; the others are empty. -/
def answers (tables : Tables) : Database where
  overviewTotals _ := ⟨0, 0, 0, 0⟩
  stored _ := ⟨0, none, none, 0⟩
  lastMinute _ := 0
  overviewPerMinute w :=
    (((tables.edits.filter (fun row => w.Contains row.eventTime)).map (fun row => dateTrunc row.eventTime)).dedup).map
      (fun minute => (minute, (countWithin tables w minute : Int)))
  topPages w wiki limit := (newestFirst TopPage.edits (pageSums tables w wiki)).take limit
  pageMinutes w pages := minutesOf tables w pages
  newestTrendingMinute := none
  latestEdits q :=
    (newestFirst EditRow.eventTime (older EditRow.eventTime (tables.edits.filter q.matches) q.before)).take q.limit

/-- A minute is counted if an edit of the window is in it. -/
theorem countWithin_pos {tables : Tables} {w : Window} {minute : Instant} :
    0 < countWithin tables w minute ↔
      ∃ row ∈ tables.edits, w.Contains row.eventTime ∧ dateTrunc row.eventTime = minute := by
  unfold countWithin
  rw [List.countP_pos_iff]
  simp

theorem serves_answers (tables : Tables) : Serves (answers tables) tables where
  overviewPerMinute w := by
    constructor
    · unfold answers
      rw [List.map_map]
      simpa [Function.comp_def] using List.nodup_dedup _
    · intro minute n
      simp only [answers, List.mem_map, List.mem_dedup, List.mem_filter, decide_eq_true_eq, Prod.mk.injEq]
      constructor
      · rintro ⟨_, ⟨row, ⟨hrow, hw⟩, rfl⟩, rfl, rfl⟩
        have hpos := countWithin_pos.mpr ⟨row, hrow, hw, rfl⟩
        exact ⟨rfl, by omega⟩
      · rintro ⟨rfl, hpos⟩
        obtain ⟨row, hrow, hw, rfl⟩ := countWithin_pos.mp (by omega : 0 < countWithin tables w minute)
        exact ⟨_, ⟨row, ⟨hrow, hw⟩, rfl⟩, rfl, rfl⟩
  topPages _ _ limit := top_newestFirst TopPage.edits limit _
  pageMinutes _ _ := List.Perm.refl _
  latestEdits q := top_newestFirst EditRow.eventTime q.limit _

/-- Any order that `LATEST_EDITS` allows comes back from some database. -/
theorem exists_database {tables : Tables} {q : LatestQuery} {rows : List EditRow}
    (h : Top EditRow.eventTime q.limit (older EditRow.eventTime (tables.edits.filter q.matches) q.before) rows) :
    ∃ db, Serves db tables ∧ db.latestEdits q = rows := by
  classical
  have hserves := serves_answers tables
  refine ⟨{ answers tables with latestEdits := fun q' => if q' = q then rows else (answers tables).latestEdits q' },
    ⟨hserves.overviewPerMinute, hserves.topPages, hserves.pageMinutes, fun q' => ?_⟩, if_pos rfl⟩
  dsimp only
  split
  · next heq => exact heq ▸ h
  · exact hserves.latestEdits q'

/-! ## An edit -/

/-- An edit of the page Paris. -/
def parisEdit (eventId : String) (eventTime : Instant) : EditRow where
  eventId := lit eventId
  wiki := lit "enwiki"
  title := lit "Paris"
  type := lit "edit"
  namespaceId := 0
  username := lit "Alice"
  bot := false
  minor := false
  isRevert := some false
  comment := lit ""
  eventTime
  lengthOld := some 100
  lengthNew := some 80
  serverName := lit "en.wikipedia.org"
  ingestedAt := eventTime
  title_encodable := by decide

def noon : Instant := ⟨1790942400000000, by decide⟩

end Queries
end Wikistream
