import Wikistream.Lib.Groups
import Wikistream.Web.Queries

/-!
# `Web.Totals` — how many edits the window has, in all and by wiki

The statements of the dashboard are answered one after the other, each from the tables of its own moment.

## Contents
- **What the statements come back with** (`totalsOf`, `wikiCounts`) and **`wikis`**.
- **Two moments** (`ServesInTurn`): a request asks for its totals first and for the bars of its charts after that.
  In between the sink only inserts edits, and the trending totals only grow (`Grew`).
- **A database that answers** so (`answersInTurn`).
-/

namespace Wikistream
namespace Queries

open Py Lib

/-- The rows of `edits` in the window. -/
def editsIn (tables : Tables) (w : Window) : List EditRow := tables.edits.filter (fun row => w.Contains row.eventTime)

/-- `OVERVIEW_TOTALS`. -/
def totalsOf (tables : Tables) (w : Window) : Totals where
  edits := (editsIn tables w).length
  botEdits := (editsIn tables w).countP EditRow.bot
  wikis := ((editsIn tables w).map EditRow.wiki).dedup.length
  pages := ((editsIn tables w).map (fun row => (row.wiki, row.title))).dedup.length

structure TopWiki where
  wiki : Str
  edits : Int
  botEdits : Int
  deriving DecidableEq

/-- The groups of `TOP_WIKIS`. -/
def wikiCounts (tables : Tables) (w : Window) : List TopWiki :=
  ((editsIn tables w).map EditRow.wiki).dedup.map (fun wiki => {
    wiki
    edits := (editsIn tables w).countP (fun row => row.wiki = wiki)
    botEdits := ((editsIn tables w).filter EditRow.bot).countP (fun row => row.wiki = wiki) })

structure Wikis where
  minutes : Int
  wikis : List TopWiki

/-- `wikis`, with the answers of `TOP_WIKIS`. -/
def wikis (topWikis : Window → (limit : Nat) → List TopWiki) (minutes limit : Int) (now : Instant) :
    Except Exc Wikis := do
  let minutes := clampMinutes minutes
  let since ← addMinutes now (-minutes)
  return { minutes, wikis := topWikis ⟨since, now⟩ (max 1 (min limit 100)).toNat }

/-- The totals are answered from the tables `before`, the bars from the tables `after`. Among wikis or pages with equal
    counts the order is the collation's. -/
structure ServesInTurn (db : Database) (topWikis : Window → Nat → List TopWiki) (before after : Tables) : Prop where
  overviewTotals : ∀ w, db.overviewTotals w = totalsOf before w
  topWikis : ∀ w limit, Top TopWiki.edits limit (wikiCounts before w) (topWikis w limit)
  topPages : ∀ w wiki limit, Top TopPage.edits limit (pageSums before w wiki) (db.topPages w wiki limit)
  overviewPerMinute : ∀ w, ((db.overviewPerMinute w).map Prod.fst).Nodup ∧
    ∀ minute n, (minute, n) ∈ db.overviewPerMinute w ↔ n = countWithin after w minute ∧ 0 < n
  pageMinutes : ∀ w pages, (db.pageMinutes w pages).Perm (minutesOf after w pages)

/-- What the pipeline may have done in between. -/
structure Grew (before after : Tables) : Prop where
  edits : before.edits <+: after.edits
  counts : ∀ k n, before.trendingMinutes.get? k = some n → ∃ n', after.trendingMinutes.get? k = some n' ∧ n ≤ n'
  nonneg : ∀ k n, after.trendingMinutes.get? k = some n → 0 ≤ n
  /-- The minutes of the trending totals are whole ones. -/
  whole : ∀ k n, after.trendingMinutes.get? k = some n → dateTrunc k.2.2 = k.2.2

/-! ## A database that answers -/

/-- The answers of a request whose bars are counted later than its totals. -/
def answersInTurn (before after : Tables) : Database :=
  { answers after with overviewTotals := totalsOf before, topPages := (answers before).topPages }

/-- The rows of `TOP_WIKIS`. -/
def topWikisOf (tables : Tables) (w : Window) (limit : Nat) : List TopWiki :=
  (newestFirst TopWiki.edits (wikiCounts tables w)).take limit

theorem servesInTurn (before after : Tables) :
    ServesInTurn (answersInTurn before after) (topWikisOf before) before after where
  overviewTotals _ := rfl
  topWikis _ limit := top_newestFirst TopWiki.edits limit _
  topPages := (serves_answers before).topPages
  overviewPerMinute := (serves_answers after).overviewPerMinute
  pageMinutes := (serves_answers after).pageMinutes

end Queries
end Wikistream
