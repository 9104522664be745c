import Wikistream.Web.Queries

/-!
# `Correctness.FeedPages` — when paging through the live feed misses no edit

The cursor of the feed is a time, and the next page begins strictly before it. Edits that share the time of a page's
last one and did not fit are not on any page.

## Contents
- **Calls** (`Calls`, `Paged`): `latest_edits`, each time with the `next_before` of the answer before.
- **Calls read pages** of the matching edits (`Calls.exists_reads`, `exists_calls`).
- **The result** (`every_edit_iff`), and a page that ends between two edits of one second (`edit_is_skipped`).
-/

namespace Wikistream
namespace Queries

open Py Lib

/-! ## Calls -/

section Calls

variable (readBefore : Str → Option Instant) (tables : Tables) (limit : Int) (wiki : Option Str)
  (humansOnly revertsOnly : Bool)

/-- The answers of repeated calls, and the `before` of the next. `readBefore` reads the text of a cursor back. -/
inductive Calls : Option Instant → List Feed → Option Instant → Prop
  | refl (before : Option Instant) : Calls before [] before
  | call {before last : Option Instant} {feed : Feed} {feeds : List Feed} {text : Str} {next : Instant} (db : Database)
      (hserves : Serves db tables) (hfeed : latestEdits db limit wiki humansOnly revertsOnly before = .ok feed)
      (htext : feed.nextBefore = some text) (hnext : readBefore text = some next)
      (hrest : Calls (some next) feeds last) : Calls before (feed :: feeds) last

/-- The answers up to an empty one. -/
def Paged (feeds : List Feed) : Prop :=
  ∃ last db feed, Calls readBefore tables limit wiki humansOnly revertsOnly none feeds last ∧ Serves db tables ∧
    latestEdits db limit wiki humansOnly revertsOnly last = .ok feed ∧ feed.edits = []

/-- The rows the filters let through. -/
def matching : List EditRow := tables.edits.filter (latestQuery limit wiki humansOnly revertsOnly none).matches

/-- **Every edit that matches comes once**, none earlier than a newer one, and the calls come to an end. -/
def VisitsEveryEdit : Prop :=
  (∃ bound, ∀ feeds last, Calls readBefore tables limit wiki humansOnly revertsOnly none feeds last →
      feeds.length ≤ bound) ∧
    ∀ feeds, Paged readBefore tables limit wiki humansOnly revertsOnly feeds →
      (∃ edits, (matching tables limit wiki humansOnly revertsOnly).mapM editOf = .ok edits ∧
        (feeds.flatMap Feed.edits).Perm edits) ∧
      (feeds.flatMap Feed.edits).Pairwise (fun a b => b.eventTime ≤ a.eventTime)

end Calls

/-! ## Single answers -/

/-- The link of a stored page is always there to be written. -/
theorem exists_pageUrl (row : EditRow) : ∃ url, pageUrl row.serverName row.title = .ok url := by
  have hencodable : Encodable (row.title.map (fun c => if c = chr ' ' then chr '_' else c)) := by
    rw [encodable_iff]
    intro c hc
    obtain ⟨d, hd, rfl⟩ := List.mem_map.mp hc
    split
    · decide
    · exact encodable_iff.mp row.title_encodable d hd
  unfold pageUrl
  split
  · exact ⟨none, rfl⟩
  · rw [quote, utf8Encode_of_encodable hencodable]
    exact ⟨_, rfl⟩

/-- Every row is shown, with its time as the text of its cursor. -/
theorem exists_shown : ∃ shown : EditRow → Edit, ∀ row, editOf row = .ok (shown row) ∧
    (shown row).eventTime = row.eventTime.iso := by
  have hrow (row : EditRow) : ∃ edit, editOf row = .ok edit ∧ edit.eventTime = row.eventTime.iso := by
    obtain ⟨url, hurl⟩ := exists_pageUrl row
    exact ⟨_, bind_eq_ok.mpr ⟨url, hurl, rfl⟩, rfl⟩
  choose shown hshown using hrow
  exact ⟨shown, hshown⟩

theorem mapM_editOf {shown : EditRow → Edit} (hshown : ∀ row, editOf row = .ok (shown row)) (rows : List EditRow) :
    rows.mapM editOf = .ok (rows.map shown) := by
  induction rows with
  | nil => rfl
  | cons row rows ih =>
      rw [List.mapM_cons, hshown, ih]
      rfl

section Run

variable {readBefore : Str → Option Instant} {tables : Tables} {limit : Int} {wiki : Option Str}
  {humansOnly revertsOnly : Bool} {db : Database} {before last : Option Instant} {feed : Feed} {feeds : List Feed}
  {pages : List (List EditRow)} {shown : EditRow → Edit}

/-- The rows of a page. -/
def pageLength (limit : Int) : Nat := (max 1 (min limit 200)).toNat

theorem pageLength_pos (limit : Int) : 0 < pageLength limit := by
  unfold pageLength
  omega

variable (hshown : ∀ row, editOf row = .ok (shown row) ∧ (shown row).eventTime = row.eventTime.iso)

include hshown

variable (limit wiki humansOnly revertsOnly before) in
/-- **An answer shows a page**, and its cursor is the time of the page's last row. -/
theorem latestEdits_eq_ok (hserves : Serves db tables) :
    ∃ rows, Top EditRow.eventTime (pageLength limit)
        (older EditRow.eventTime (matching tables limit wiki humansOnly revertsOnly) before) rows ∧
      db.latestEdits (latestQuery limit wiki humansOnly revertsOnly before) = rows ∧
      latestEdits db limit wiki humansOnly revertsOnly before =
        .ok ⟨rows.map shown, rows.getLast?.map (fun row => row.eventTime.iso)⟩ := by
  refine ⟨_, hserves.latestEdits (latestQuery limit wiki humansOnly revertsOnly before), rfl, ?_⟩
  unfold latestEdits
  dsimp only
  rw [mapM_editOf (fun row => (hshown row).1)]
  refine congrArg Except.ok (congrArg (Feed.mk _) ?_)
  rw [List.getLast?_map, Option.map_map]
  exact congrArg (Option.map · _) (funext (fun row => (hshown row).2))

variable (hread : ∀ t : Instant, readBefore t.iso = some t)

include hread

/-- **Calls read pages.** -/
theorem Calls.exists_reads (h : Calls readBefore tables limit wiki humansOnly revertsOnly before feeds last) :
    ∃ pages, Reads EditRow.eventTime (pageLength limit) (matching tables limit wiki humansOnly revertsOnly)
        before pages last ∧
      feeds.flatMap Feed.edits = pages.flatten.map shown ∧ feeds.length = pages.length := by
  induction h with
  | refl before => exact ⟨[], .refl before, rfl, rfl⟩
  | call db hserves hfeed htext hnext _ ih =>
      obtain ⟨pages, hreads, hedits, hlength⟩ := ih
      obtain ⟨rows, htop, _, hanswer⟩ := latestEdits_eq_ok _ _ _ _ _ hshown hserves
      obtain rfl := Except.ok.inj (hanswer.symm.trans hfeed)
      obtain ⟨row, hlast, rfl⟩ := Option.map_eq_some_iff.mp htext
      obtain rfl := Option.some.inj ((hread row.eventTime).symm.trans hnext)
      refine ⟨rows :: pages, .page htop hlast hreads, ?_, by rw [List.length_cons, List.length_cons, hlength]⟩
      rw [List.flatMap_cons, hedits, List.flatten_cons, List.map_append]

/-- **Any pages are read by some calls.** -/
theorem exists_calls (h : Reads EditRow.eventTime (pageLength limit) (matching tables limit wiki humansOnly revertsOnly)
      before pages last) :
    ∃ feeds, Calls readBefore tables limit wiki humansOnly revertsOnly before feeds last ∧
      feeds.flatMap Feed.edits = pages.flatten.map shown := by
  induction h with
  | refl before => exact ⟨[], .refl before, rfl⟩
  | @page before _ rows pages row htop hlast _ ih =>
      obtain ⟨feeds, hcalls, hedits⟩ := ih
      obtain ⟨db, hserves, hdb⟩ :=
        exists_database (q := latestQuery limit wiki humansOnly revertsOnly before) htop
      obtain ⟨rows', _, hrows, hanswer⟩ :=
        latestEdits_eq_ok limit wiki humansOnly revertsOnly before hshown hserves
      obtain rfl := hrows.symm.trans hdb
      refine ⟨_ :: feeds, .call db hserves hanswer (by rw [hlast]; rfl) (hread row.eventTime) hcalls, ?_⟩
      rw [List.flatMap_cons, hedits, List.flatten_cons, List.map_append]

/-- Calls up to an empty answer walk through the pages. -/
theorem Paged.exists_walk (h : Paged readBefore tables limit wiki humansOnly revertsOnly feeds) :
    ∃ pages, Walk EditRow.eventTime (pageLength limit) (matching tables limit wiki humansOnly revertsOnly) none pages ∧
      feeds.flatMap Feed.edits = pages.flatten.map shown := by
  obtain ⟨last, db, feed, hcalls, hserves, hfeed, hempty⟩ := h
  obtain ⟨pages, hreads, hedits, _⟩ := hcalls.exists_reads hshown hread
  obtain ⟨rows, htop, _, hanswer⟩ := latestEdits_eq_ok _ _ _ _ _ hshown hserves
  obtain rfl := Except.ok.inj (hanswer.symm.trans hfeed)
  obtain rfl := List.map_eq_nil_iff.mp hempty
  exact ⟨pages, ⟨last, hreads, htop⟩, hedits⟩

theorem exists_paged
    (h : Walk EditRow.eventTime (pageLength limit) (matching tables limit wiki humansOnly revertsOnly) none pages) :
    ∃ feeds, Paged readBefore tables limit wiki humansOnly revertsOnly feeds ∧
      feeds.flatMap Feed.edits = pages.flatten.map shown := by
  obtain ⟨last, hreads, hend⟩ := h
  obtain ⟨feeds, hcalls, hedits⟩ := exists_calls hshown hread hreads
  obtain ⟨db, hserves, hdb⟩ := exists_database (q := latestQuery limit wiki humansOnly revertsOnly last) hend
  obtain ⟨rows, _, hrows, hanswer⟩ := latestEdits_eq_ok limit wiki humansOnly revertsOnly last hshown hserves
  obtain rfl := hrows.symm.trans hdb
  exact ⟨feeds, ⟨last, db, _, hcalls, hserves, hanswer, rfl⟩, hedits⟩

end Run

/-! ## The result -/

/-- **Paging visits every edit exactly if no page ends between two edits of one time**: among the matching edits,
    newest first, no two neighbours where a page ends and the next begins share their `event_time`. -/
theorem every_edit_iff {readBefore : Str → Option Instant} (hread : ∀ t : Instant, readBefore t.iso = some t)
    (tables : Tables) (limit : Int) (wiki : Option Str) (humansOnly revertsOnly : Bool) :
    VisitsEveryEdit readBefore tables limit wiki humansOnly revertsOnly ↔
      NoSplit (pageLength limit) ((newestFirst EditRow.eventTime
        (matching tables limit wiki humansOnly revertsOnly)).map EditRow.eventTime) := by
  obtain ⟨shown, hshown⟩ := exists_shown
  have hall := mapM_editOf (fun row => (hshown row).1) (matching tables limit wiki humansOnly revertsOnly)
  have hperm {pages : List (List EditRow)} (hwalk : Walk EditRow.eventTime (pageLength limit)
      (matching tables limit wiki humansOnly revertsOnly) none pages) :=
    hwalk.perm_iff (pageLength_pos limit)
  rw [older_none] at hperm
  constructor
  · rintro ⟨_, hvisits⟩
    have hwalks : ∃ pages, Walk EditRow.eventTime (pageLength limit) (matching tables limit wiki humansOnly revertsOnly)
        none pages := exists_walk none
    obtain ⟨pages, hwalk⟩ := hwalks
    obtain ⟨feeds, hpaged, hedits⟩ := exists_paged hshown hread hwalk
    obtain ⟨⟨edits, hmatching, hvisited⟩, _⟩ := hvisits feeds hpaged
    obtain rfl := Except.ok.inj (hall.symm.trans hmatching)
    rw [hedits] at hvisited
    -- the rows are among the matching ones, and as many
    have hsub := hwalk.subperm
    rw [older_none] at hsub
    have hlength := hvisited.length_eq
    rw [List.length_map, List.length_map] at hlength
    exact (hperm hwalk).mp (hsub.perm_of_length_le hlength.ge)
  · intro hsplit
    refine ⟨⟨(matching tables limit wiki humansOnly revertsOnly).length, fun feeds last hcalls => ?_⟩,
      fun feeds hpaged => ?_⟩
    · obtain ⟨pages, hreads, _, hlength⟩ := hcalls.exists_reads hshown hread
      have hle := hreads.length_le
      rw [older_none] at hle
      omega
    · obtain ⟨pages, hwalk, hedits⟩ := hpaged.exists_walk hshown hread
      rw [hedits]
      refine ⟨⟨_, hall, ((hperm hwalk).mpr hsplit).map shown⟩, ?_⟩
      refine List.pairwise_map.mpr (hwalk.pairwise.imp (fun {a b} hab => ?_))
      rw [(hshown a).2, (hshown b).2, Instant.iso_le_iff]
      exact hab

/-! ## Two edits -/

/-- `fromisoformat`, as the instant of a time with an offset. -/
def readIso (text : Str) : Option Instant :=
  match fromisoformat text with
  | .ok d =>
      if h : InRange (d.wallMicros - d.offset.getD 0) then some ⟨d.wallMicros - d.offset.getD 0, h⟩ else none
  | .error _ => none

theorem readIso_iso (t : Instant) : readIso t.iso = some t := by
  have hmicros : t.dateTime.wallMicros - t.dateTime.offset.getD 0 = t.micros := by
    rw [t.dateTime_offset, t.wallMicros_dateTime]
    simp
  rw [readIso, t.fromisoformat_iso]
  dsimp only
  rw [dif_pos (hmicros ▸ t.in_range)]
  exact congrArg some (Instant.ext hmicros)

def noonPlusOne : Instant := ⟨1790942401000000, by decide⟩

/-- Two edits of different seconds, one a page. -/
theorem two_seconds_visited :
    VisitsEveryEdit readIso ⟨[parisEdit "e1" noon, parisEdit "e2" noonPlusOne], Dict.empty⟩ 1 none false false := by
  refine (every_edit_iff readIso_iso _ _ _ _ _).mpr (fun k hk hlt => ?_)
  have hlength : k * 1 < 2 := hlt
  obtain rfl : k = 1 := by omega
  decide

/-- Two edits of one second, one a page: the second call is made with their common time, and finds nothing. -/
theorem edit_is_skipped :
    ¬ VisitsEveryEdit readIso ⟨[parisEdit "e1" noon, parisEdit "e2" noon], Dict.empty⟩ 1 none false false := by
  rintro ⟨_, hvisits⟩
  obtain ⟨shown, hshown⟩ := exists_shown
  have hfirst : Top EditRow.eventTime 1 [parisEdit "e1" noon, parisEdit "e2" noon] [parisEdit "e1" noon] :=
    ⟨_, List.Perm.refl _, by decide, rfl⟩
  have hwalk : Walk EditRow.eventTime (pageLength 1)
      (matching ⟨[parisEdit "e1" noon, parisEdit "e2" noon], Dict.empty⟩ 1 none false false) none
      [[parisEdit "e1" noon]] :=
    ⟨some noon, .page hfirst rfl (.refl _), [], List.Perm.refl _, List.Pairwise.nil, rfl⟩
  obtain ⟨feeds, hpaged, hedits⟩ := exists_paged hshown readIso_iso hwalk
  obtain ⟨⟨edits, hmatching, hperm⟩, _⟩ := hvisits feeds hpaged
  have hboth := mapM_editOf (fun row => (hshown row).1) [parisEdit "e1" noon, parisEdit "e2" noon]
  obtain rfl := Except.ok.inj (hboth.symm.trans hmatching)
  rw [hedits] at hperm
  exact absurd hperm.length_eq (by simp)

end Queries
end Wikistream
