import Mathlib.Data.List.FinRange
import Wikistream.Correctness.MinuteBars
import Wikistream.Web.Totals

/-!
# `Correctness.DashboardSums` — the numbers of the dashboard add up

The tiles, the charts and the lists count the same edits in different ways, and each statement sees the tables of its
own moment. A chart leaves out the minute that is still filling, and nothing else.

## Contents
- **The minutes of a chart** (`IsSeries.exists_minutes`), and what its bars come to (`sum_bars`).
- **Edits** (`sum_overview`), **trending pages** (`sum_page`) and **wikis** (`sum_wikis`).
- **The result** (`numbers_add_up`).
-/

namespace Wikistream
namespace Queries

open Py Lib

/-! ## The minutes of a chart -/

section Minutes

variable {β : Type} {f : Instant → β} {start : Instant} {n : Nat} {xs : List β}

/-- A series is a value for each of its minutes, no minute twice. -/
theorem IsSeries.exists_minutes (h : IsSeries f start n xs) : ∃ ts : List Instant, ts.Nodup ∧ xs = ts.map f ∧
    ∀ t, t ∈ ts ↔ ∃ k < n, t.micros = start.micros + k * 60000000 := by
  have hminute : ∀ k : Fin n, ∃ t : Instant, t.micros = start.micros + k * 60000000 ∧ xs[k.val]? = some (f t) :=
    fun k => h.2 k k.isLt
  choose minute hmicros hvalue using hminute
  refine ⟨List.ofFn minute, ?_, ?_, fun t => ?_⟩
  · refine List.nodup_ofFn.mpr (fun j k hjk => Fin.ext ?_)
    have hj := hmicros j
    have hk := hmicros k
    rw [hjk] at hj
    omega
  · apply List.ext_getElem?
    intro k
    rw [List.getElem?_map, List.getElem?_ofFn]
    by_cases hk : k < n
    · rw [dif_pos hk]
      exact hvalue ⟨k, hk⟩
    · rw [dif_neg hk, List.getElem?_eq_none_iff.mpr (by rw [h.1]; omega)]
      rfl
  · rw [List.mem_ofFn]
    constructor
    · rintro ⟨k, rfl⟩
      exact ⟨k, k.isLt, hmicros k⟩
    · rintro ⟨k, hk, ht⟩
      exact ⟨⟨k, hk⟩, Instant.ext ((hmicros ⟨k, hk⟩).trans ht.symm)⟩

end Minutes

section Window

variable {minutes : Int} {now since : Instant}

/-- The minutes of the window: those of the chart, and the one that is still filling. -/
theorem minute_cases (h : addMinutes now (-minutes) = .ok since) {u : Instant}
    (hu : Window.Contains ⟨since, now⟩ u) :
    (∃ k < minutes.toNat, (dateTrunc u).micros = (dateTrunc since).micros + k * 60000000) ↔
      dateTrunc u ≠ dateTrunc now := by
  rw [addMinutes_eq_ok] at h
  have hafter : since.micros < u.micros := hu.1
  have hbefore : u.micros ≤ now.micros := hu.2
  constructor
  · rintro ⟨k, hk, hmicros⟩ heq
    rw [heq] at hmicros
    simp only [dateTrunc] at hmicros
    omega
  · intro hne
    have hmicros : (dateTrunc u).micros ≠ (dateTrunc now).micros := fun heq => hne (Instant.ext heq)
    refine ⟨(((dateTrunc u).micros - (dateTrunc since).micros) / 60000000).toNat, ?_, ?_⟩ <;>
      simp only [dateTrunc] at hmicros ⊢ <;> omega

/-- **The bars of a chart and the minute that is still filling** come to all that is in the window. -/
theorem sum_bars {α : Type} (h : addMinutes now (-minutes) = .ok since) {time : α → Instant} {v : α → Int}
    {rows : List α} (hrows : ∀ a ∈ rows, Window.Contains ⟨since, now⟩ (time a)) {xs : List Int}
    (hxs : IsSeries (groupSum (fun a => dateTrunc (time a)) v rows) (dateTrunc since) minutes.toNat xs) :
    xs.sum + groupSum (fun a => dateTrunc (time a)) v rows (dateTrunc now) = (rows.map v).sum := by
  obtain ⟨ts, hnodup, rfl, hmem⟩ := hxs.exists_minutes
  rw [sum_groupSum hnodup]
  have hbars : rows.filter (fun a => dateTrunc (time a) ∈ ts) =
      rows.filter (fun a => !decide (dateTrunc (time a) = dateTrunc now)) := by
    refine List.filter_congr (fun a ha => ?_)
    have hcases := (hmem _).trans (minute_cases h (hrows a ha))
    simp only [hcases, ne_eq, decide_not]
  have hperm := List.filter_append_perm (fun a => decide (dateTrunc (time a) = dateTrunc now)) rows
  have hsum := (hperm.map v).sum_eq
  rw [List.map_append, List.sum_append] at hsum
  rw [hbars, ← hsum, Int.add_comm]
  rfl

/-- The minute that is still filling lies within the window. -/
theorem contains_filling (h : addMinutes now (-minutes) = .ok since) (hminutes : 1 < minutes) :
    Window.Contains ⟨since, now⟩ (dateTrunc now) := by
  rw [addMinutes_eq_ok] at h
  refine ⟨?_, dateTrunc_le now⟩
  rw [Instant.lt_def]
  simp only [dateTrunc]
  omega

end Window

/-! ## The tables of the charts -/

variable {db : Database} {topWikis : Window → Nat → List TopWiki} {before after : Tables}

/-- The statements of the charts. -/
def charts (db : Database) (after : Tables) : Database :=
  { answers after with overviewPerMinute := db.overviewPerMinute, pageMinutes := db.pageMinutes }

theorem ServesInTurn.serves_charts (h : ServesInTurn db topWikis before after) : Serves (charts db after) after where
  overviewPerMinute := h.overviewPerMinute
  topPages := (serves_answers after).topPages
  pageMinutes := h.pageMinutes
  latestEdits := (serves_answers after).latestEdits

/-! ## Edits -/

section Edits

variable {minutes : Int} {now since : Instant}

/-- What `overview` takes its numbers from. -/
theorem overview_eq_ok (rounded : Int → Int → Nat → Double) (db : Database)
    (hsince : addMinutes now (-clampMinutes minutes) = .ok since) :
    ∃ answer, overview rounded db minutes now = .ok answer ∧
      minuteSeries (db.overviewPerMinute ⟨since, now⟩) (clampMinutes minutes) now = .ok answer.perMinute ∧
      answer.edits = (db.overviewTotals ⟨since, now⟩).edits ∧
      answer.wikis = (db.overviewTotals ⟨since, now⟩).wikis := by
  have hminutes := clampMinutes_pos minutes
  obtain ⟨bars, hbars, _⟩ := exists_minuteSeries (db.overviewPerMinute ⟨since, now⟩) (by omega)
    (addMinutes_dateTrunc hsince)
  unfold overview
  simp only [bind_eq_ok]
  exact ⟨_, ⟨since, hsince, bars, hbars, rfl⟩, hbars, rfl, rfl⟩

/-- The edits of a minute within the window, as a sum of ones. -/
theorem countWithin_eq_groupSum (tables : Tables) (w : Window) (minute : Instant) :
    (countWithin tables w minute : Int) =
      groupSum (fun row => dateTrunc row.eventTime) (fun _ => 1) (editsIn tables w) minute := by
  rw [groupSum_one, editsIn, List.countP_filter, countWithin]
  simp only [Bool.decide_and, Bool.and_comm]

/-- **The bars of `overview`** and the minute that is still filling come to the edits of the window. -/
theorem sum_overview (h : ServesInTurn db topWikis before after)
    (hsince : addMinutes now (-clampMinutes minutes) = .ok since) {bars : List Bar}
    (hbars : minuteSeries (db.overviewPerMinute ⟨since, now⟩) (clampMinutes minutes) now = .ok bars) :
    (bars.map Bar.edits).sum + countWithin after ⟨since, now⟩ (dateTrunc now) =
      (editsIn after ⟨since, now⟩).length := by
  have hminutes := clampMinutes_pos minutes
  obtain ⟨bars', hbars', hseries⟩ := exists_minuteSeries (db.overviewPerMinute ⟨since, now⟩)
    (by omega : 0 ≤ clampMinutes minutes) (addMinutes_dateTrunc hsince)
  obtain rfl := Except.ok.inj (hbars.symm.trans hbars')
  have hvalue : ∀ t, ((countsOf (db.overviewPerMinute ⟨since, now⟩)).get? t).getD 0 =
      groupSum (fun row => dateTrunc row.eventTime) (fun _ => 1) (editsIn after ⟨since, now⟩) t :=
    fun t => (getD_countsOf h.serves_charts _ t).trans (countWithin_eq_groupSum after _ t)
  have hedits := hseries.map Bar.edits
  simp only [barOf, hvalue] at hedits
  have hin : ∀ row ∈ editsIn after ⟨since, now⟩, Window.Contains ⟨since, now⟩ row.eventTime :=
    fun row hrow => by simpa using List.of_mem_filter hrow
  rw [countWithin_eq_groupSum, sum_bars hsince hin hedits]
  simp

/-- The edits that came in between are the only ones that the totals miss. -/
theorem length_editsIn (hgrew : Grew before after) (w : Window) : (editsIn after w).length =
    (editsIn before w).length +
      (after.edits.drop before.edits.length).countP (fun row => w.Contains row.eventTime) := by
  obtain ⟨new, hnew⟩ := hgrew.edits
  rw [editsIn, editsIn, ← hnew, List.drop_left, List.filter_append, List.length_append, List.countP_eq_length_filter]

end Edits

/-! ## Trending pages -/

section Trending

variable {w : Window} {page : Str × Str} {pages : List (Str × Str)}

/-- What is stored for a page within the window. -/
def storedIn (tables : Tables) (w : Window) (page : Str × Str) : Int :=
  ((tables.trendingMinutes.entries.filter (fun e => w.Contains e.1.2.2 ∧ (e.1.1, e.1.2.1) = page)).map Prod.snd).sum

/-- The sum of a page of the top, and one of its rows. -/
theorem mem_pageSums {tables : Tables} {wiki : Option Str} {top : TopPage} (h : top ∈ pageSums tables w wiki) :
    top.edits = storedIn tables w (top.wiki, top.title) ∧
      ∃ t n, tables.trendingMinutes.get? (top.wiki, top.title, t) = some n ∧ w.Contains t := by
  simp only [pageSums, List.mem_map, List.mem_dedup, List.mem_filter, decide_eq_true_eq] at h
  obtain ⟨_, ⟨e, ⟨he, hw, hwiki⟩, rfl⟩, rfl⟩ := h
  refine ⟨?_, e.1.2.2, e.2, Dict.get?_eq_some_iff.mpr he, hw⟩
  unfold storedIn
  rw [List.filter_filter]
  refine congrArg (fun l : List ((Str × Str × Instant) × Int) => (l.map Prod.snd).sum)
    (List.filter_congr (fun a _ => ?_))
  by_cases ha : (a.1.1, a.1.2.1) = (e.1.1, e.1.2.1)
  · obtain ⟨hsame, htitle⟩ := Prod.mk.inj ha
    simp [hsame, htitle, hwiki]
  · simp [ha]

/-- **What is stored for a page** only grows. -/
theorem storedIn_le (hgrew : Grew before after) (w : Window) (page : Str × Str) :
    storedIn before w page ≤ storedIn after w page :=
  sum_filter_le hgrew.counts hgrew.nonneg (fun k => decide (w.Contains k.2.2 ∧ (k.1, k.2.1) = page))

theorem sum_rowsOfPage (tables : Tables) (hpage : page ∈ pages) :
    ((rowsOfPage page (minutesOf tables w pages)).map Prod.snd).sum = storedIn tables w page := by
  unfold rowsOfPage minutesOf storedIn
  rw [List.filter_map, List.map_map, List.map_map, List.filter_filter]
  refine congrArg List.sum (congrArg (List.map _) (List.filter_congr (fun e _ => ?_)))
  by_cases he : (e.1.1, e.1.2.1) = page
  · simp [he, hpage]
  · simp [he]

/-- The rows of a page, summed over a minute. -/
theorem groupSum_rowsOfPage (hgrew : Grew before after) (hpage : page ∈ pages) (t : Instant) :
    groupSum (fun row => dateTrunc row.1) Prod.snd (rowsOfPage page (minutesOf after w pages)) t =
      if w.Contains t then storedAt after page t else 0 := by
  have hnodup : ((rowsOfPage page (minutesOf after w pages)).map Prod.fst).Nodup := nodup_rowsOfPage w pages page
  have hwhole : ∀ row ∈ rowsOfPage page (minutesOf after w pages), dateTrunc row.1 = row.1 :=
    fun row hrow => hgrew.whole _ _ ((mem_rowsOfPage hpage).mp hrow).1
  have hentries : groupSum (fun row => dateTrunc row.1) Prod.snd (rowsOfPage page (minutesOf after w pages)) t =
      groupSum Prod.fst Prod.snd (Dict.mk _ hnodup).entries t := by
    refine congrArg (fun l : List (Instant × Int) => (l.map Prod.snd).sum) (List.filter_congr (fun row hrow => ?_))
    simp only [hwhole row hrow]
  have hget : (Dict.mk _ hnodup).get? t = (countsOf (rowsOfPage page (minutesOf after w pages))).get? t := by
    refine Option.ext (fun v => ?_)
    rw [get?_countsOf hnodup, Dict.get?_eq_some_iff]
  rw [hentries, groupSum_entries, hget]
  exact getD_countsOf_page (serves_answers after) hpage t

variable {minutes limit : Int} {wiki : Option Str} {now since : Instant} {top : TopPage}

/-- A page that was among the top still has a row. -/
theorem rowsOfPage_ne_nil_of_grew (h : ServesInTurn db topWikis before after) (hgrew : Grew before after)
    (htop : top ∈ topOf db wiki limit w) : rowsOfPage (top.wiki, top.title)
      (db.pageMinutes w ((topOf db wiki limit w).map (fun page => (page.wiki, page.title)))) ≠ [] := by
  have hpage : (top.wiki, top.title) ∈ (topOf db wiki limit w).map (fun page => (page.wiki, page.title)) :=
    List.mem_map.mpr ⟨top, htop, rfl⟩
  obtain ⟨_, t, n, hn, hw⟩ := mem_pageSums ((h.topPages _ _ _).mem htop)
  obtain ⟨n', hn', _⟩ := hgrew.counts _ _ hn
  have hrow := (mem_rowsOfPage hpage).mpr ⟨hn', hw⟩
  exact List.ne_nil_of_mem ((perm_rowsOfPage h.serves_charts w _ _).mem_iff.mpr hrow)

/-- The series of a page of the top, out of its rows. -/
theorem isSeries_perMinute (h : ServesInTurn db topWikis before after) (hgrew : Grew before after)
    {bars : List (Instant × Int) → List Bar} {series : Dict (Str × Str) (List Bar)}
    (hbars : ∀ rows, IsSeries (barOf (fun t => ((countsOf rows).get? t).getD 0)) (dateTrunc since) minutes.toNat
      (bars rows))
    (hget : ∀ page, series.get? page = ((byPage (rowsOf db wiki limit ⟨since, now⟩)).get? page).map bars)
    (htop : top ∈ topOf db wiki limit ⟨since, now⟩) :
    IsSeries (fun t => if Window.Contains ⟨since, now⟩ t then storedAt after (top.wiki, top.title) t else 0)
      (dateTrunc since) minutes.toNat (pageOf series top).perMinute := by
  have hpage : (top.wiki, top.title) ∈ (topOf db wiki limit ⟨since, now⟩).map (fun page => (page.wiki, page.title)) :=
    List.mem_map.mpr ⟨top, htop, rfl⟩
  have hseries := hget (top.wiki, top.title)
  rw [get?_byPage, rowsOf_of_mem htop, if_neg (rowsOfPage_ne_nil_of_grew h hgrew htop), Option.map_some] at hseries
  have hvalue := getD_countsOf_page h.serves_charts (w := ⟨since, now⟩) hpage
  have hedits := (hbars (rowsOfPage (top.wiki, top.title) (db.pageMinutes ⟨since, now⟩
    ((topOf db wiki limit ⟨since, now⟩).map (fun page => (page.wiki, page.title)))))).map Bar.edits
  unfold pageOf
  rw [hseries]
  exact funext hvalue ▸ hedits

/-- **The bars of a page** and the minute that is still filling come to what is stored for it. -/
theorem sum_page (hgrew : Grew before after) (hsince : addMinutes now (-clampMinutes minutes) = .ok since)
    {values : List Int} (hvalues : IsSeries
      (fun t => if Window.Contains ⟨since, now⟩ t then storedAt after page t else 0) (dateTrunc since)
      (clampMinutes minutes).toNat values) :
    values.sum + storedAt after page (dateTrunc now) = storedIn after ⟨since, now⟩ page := by
  have hminutes := clampMinutes_pos minutes
  have hmem : page ∈ [page] := List.mem_singleton.mpr rfl
  have hin : ∀ row ∈ rowsOfPage page (minutesOf after ⟨since, now⟩ [page]), Window.Contains ⟨since, now⟩ row.1 :=
    fun row hrow => ((mem_rowsOfPage hmem).mp hrow).2
  have hrows : IsSeries (groupSum (fun row => dateTrunc row.1) Prod.snd
      (rowsOfPage page (minutesOf after ⟨since, now⟩ [page]))) (dateTrunc since) (clampMinutes minutes).toNat values :=
    funext (groupSum_rowsOfPage hgrew (w := ⟨since, now⟩) hmem) ▸ hvalues
  have hsum := sum_bars hsince hin hrows
  rwa [groupSum_rowsOfPage hgrew hmem, if_pos (contains_filling hsince (by omega)), sum_rowsOfPage after hmem] at hsum

/-- The number of each page, and its bars. -/
def SumsOfPages (before after : Tables) (w : Window) (pages : List Page) : Prop :=
  ∀ page ∈ pages, page.edits = storedIn before w (page.wiki, page.title) ∧
    page.perMinute.sum + storedAt after (page.wiki, page.title) (dateTrunc w.now) =
      storedIn after w (page.wiki, page.title)

/-- **The pages of `trending`** have the sums of what is stored. -/
theorem trending_eq_ok (h : ServesInTurn db topWikis before after) (hgrew : Grew before after)
    (hsince : addMinutes now (-clampMinutes minutes) = .ok since) (wiki : Option Str) (limit : Int) :
    ∃ answer, trending db minutes wiki limit now = .ok answer ∧
      SumsOfPages before after ⟨since, now⟩ answer.pages := by
  have hminutes := clampMinutes_pos minutes
  have hall := fun rows => exists_minuteSeries rows (by omega : 0 ≤ clampMinutes minutes) (addMinutes_dateTrunc hsince)
  choose bars hbars hseries using hall
  obtain ⟨series, hok, hget⟩ := exists_seriesOf hbars (byPage (rowsOf db wiki limit ⟨since, now⟩))
  refine exists_trending_iff.mpr ⟨since, series, hsince, hok, ?_⟩
  unfold SumsOfPages
  rw [List.forall_mem_map]
  intro top htop
  exact ⟨(mem_pageSums ((h.topPages _ _ _).mem htop)).1,
    sum_page hgrew hsince (isSeries_perMinute h hgrew hseries hget htop)⟩

end Trending

/-! ## Wikis -/

section Wikis

variable {w : Window}

/-- The counts of all wikis come to the edits of the window. -/
theorem sum_wikiCounts (tables : Tables) (w : Window) :
    ((wikiCounts tables w).map TopWiki.edits).sum = (editsIn tables w).length := by
  have hcounts : (wikiCounts tables w).map TopWiki.edits =
      ((editsIn tables w).map EditRow.wiki).dedup.map (groupSum EditRow.wiki (fun _ => 1) (editsIn tables w)) := by
    unfold wikiCounts
    rw [List.map_map]
    exact List.map_congr_left (fun wiki _ => (groupSum_one (editsIn tables w) wiki).symm)
  rw [hcounts, sum_groupSum_dedup]
  simp

/-- No wiki is counted that has no edit. -/
theorem wikiCounts_pos {tables : Tables} {wiki : TopWiki} (h : wiki ∈ wikiCounts tables w) : 0 < wiki.edits := by
  obtain ⟨name, hname, rfl⟩ := List.mem_map.mp h
  have hpos := groupSum_one_pos (List.mem_dedup.mp hname)
  rwa [groupSum_one] at hpos

/-- **The wikis that are listed** come to all edits exactly if there is room for every wiki. -/
theorem sum_wikis {limit : Nat} {rows : List TopWiki} (h : Top TopWiki.edits limit (wikiCounts before w) rows) :
    (rows.map TopWiki.edits).sum ≤ (editsIn before w).length ∧
      ((rows.map TopWiki.edits).sum = (editsIn before w).length ↔ (wikiCounts before w).length ≤ limit) := by
  obtain ⟨rest, hperm, _, _, hlength, hfull⟩ := h.exists_rest
  have hsum := ((hperm.map TopWiki.edits).sum_eq).trans (sum_wikiCounts before w)
  rw [List.map_append, List.sum_append] at hsum
  have hcount := hperm.length_eq
  rw [List.length_append] at hcount
  have hpos : ∀ wiki ∈ rest, 0 < wiki.edits :=
    fun wiki hwiki => wikiCounts_pos (hperm.subset (List.mem_append_right rows hwiki))
  cases rest with
  | nil =>
      rw [List.map_nil, List.sum_nil, Int.add_zero] at hsum
      rw [List.length_nil] at hcount
      exact ⟨hsum.le, iff_of_true hsum (by omega)⟩
  | cons wiki rest =>
      have hfirst := hpos wiki List.mem_cons_self
      have hothers : 0 ≤ (rest.map TopWiki.edits).sum :=
        List.sum_nonneg (List.forall_mem_map.mpr (fun other hother =>
          (hpos other (List.mem_cons_of_mem _ hother)).le))
      have hroom := hfull (List.cons_ne_nil _ _)
      rw [List.map_cons, List.sum_cons] at hsum
      rw [List.length_cons] at hcount
      exact ⟨by omega, iff_of_false (by omega) (by omega)⟩

end Wikis

/-! ## The result -/

/-- **The numbers of the dashboard add up.** The bars of `overview` and the minute that is still filling come to the
    tile, and to the edits that were stored after it was counted. The bars of a trending page and the minute that is
    still filling come to no less than its number, and to just that if the totals have not changed. The wikis listed
    come to no more than the tile, and to just that if it counts no more wikis than are listed at most. -/
theorem numbers_add_up {rounded : Int → Int → Nat → Double} (h : ServesInTurn db topWikis before after)
    (hgrew : Grew before after) {minutes : Int} {now since : Instant}
    (hsince : addMinutes now (-clampMinutes minutes) = .ok since) :
    ∃ tiles, overview rounded db minutes now = .ok tiles ∧
      (tiles.perMinute.map Bar.edits).sum + countWithin after ⟨since, now⟩ (dateTrunc now) = tiles.edits +
        (after.edits.drop before.edits.length).countP (fun row => Window.Contains ⟨since, now⟩ row.eventTime) ∧
      (∀ wiki limit, ∃ answer, trending db minutes wiki limit now = .ok answer ∧ ∀ page ∈ answer.pages,
        page.edits ≤ page.perMinute.sum + storedAt after (page.wiki, page.title) (dateTrunc now) ∧
        (before.trendingMinutes = after.trendingMinutes →
          page.edits = page.perMinute.sum + storedAt after (page.wiki, page.title) (dateTrunc now))) ∧
      ∀ limit, ∃ answer, wikis topWikis minutes limit now = .ok answer ∧
        (answer.wikis.map TopWiki.edits).sum ≤ tiles.edits ∧
        ((answer.wikis.map TopWiki.edits).sum = tiles.edits ↔ tiles.wikis ≤ max 1 (min limit 100)) := by
  obtain ⟨tiles, htiles, hbars, hedits, hwikis⟩ := overview_eq_ok rounded db hsince
  rw [h.overviewTotals] at hedits hwikis
  refine ⟨tiles, htiles, ?_, fun wiki limit => ?_, fun limit => ?_⟩
  · rw [sum_overview h hsince hbars, length_editsIn hgrew, hedits]
    push_cast
    rfl
  · obtain ⟨answer, hok, hpages⟩ := trending_eq_ok h hgrew hsince wiki limit
    refine ⟨answer, hok, fun page hpage => ?_⟩
    obtain ⟨hnumber, hsum⟩ := hpages page hpage
    rw [hnumber, hsum]
    refine ⟨storedIn_le hgrew _ _, fun hsame => ?_⟩
    unfold storedIn
    rw [hsame]
  · refine ⟨⟨clampMinutes minutes, topWikis ⟨since, now⟩ (max 1 (min limit 100)).toNat⟩, ?_, ?_⟩
    · unfold wikis
      simp only [bind_eq_ok]
      exact ⟨since, hsince, rfl⟩
    · have hsum := sum_wikis (h.topWikis ⟨since, now⟩ (max 1 (min limit 100)).toNat)
      have hlength : tiles.wikis = (wikiCounts before ⟨since, now⟩).length := by
        rw [hwikis, wikiCounts, List.length_map]
        rfl
      rw [hedits, hlength]
      refine ⟨hsum.1, hsum.2.trans ?_⟩
      omega

/-! ## One more edit -/

/-- The tables of an hour, ten seconds later: one more edit, and one more in the page's first minute. -/
def laterTables : Tables where
  edits := (parisTables 40 (by decide) 2).edits ++ [parisEdit "e2" ⟨noon.micros + 50000000, by decide⟩]
  trendingMinutes := (parisTables 40 (by decide) 3).trendingMinutes

theorem grew_laterTables : Grew (parisTables 40 (by decide) 2) laterTables where
  edits := List.prefix_append _ _
  counts k n h := by
    have hmem := Dict.get?_eq_some_iff.mp h
    simp only [parisTables, List.mem_cons, List.not_mem_nil, or_false, Prod.mk.injEq] at hmem
    rcases hmem with ⟨rfl, rfl⟩ | ⟨rfl, rfl⟩
    · exact ⟨3, Dict.get?_eq_some_iff.mpr (by simp [laterTables, parisTables]), by decide⟩
    · exact ⟨1, Dict.get?_eq_some_iff.mpr (by simp [laterTables, parisTables]), by decide⟩
  nonneg k n h := by
    have hmem := Dict.get?_eq_some_iff.mp h
    simp only [laterTables, parisTables, List.mem_cons, List.not_mem_nil, or_false, Prod.mk.injEq] at hmem
    rcases hmem with ⟨_, rfl⟩ | ⟨_, rfl⟩ <;> decide
  whole k n h := by
    have hmem := Dict.get?_eq_some_iff.mp h
    simp only [laterTables, parisTables, List.mem_cons, List.not_mem_nil, or_false, Prod.mk.injEq] at hmem
    rcases hmem with ⟨rfl, _⟩ | ⟨rfl, _⟩
    · exact Instant.ext (by decide)
    · exact Instant.ext (by decide)

/-- The tile shows one edit, and the bars that are counted after it two. -/
theorem numbers_add_up_later :
    ∃ tiles, overview (fun _ _ _ => ⟨0, 0⟩) (answersInTurn (parisTables 40 (by decide) 2) laterTables) 60 pastOne =
        .ok tiles ∧ (tiles.perMinute.map Bar.edits).sum = tiles.edits + 1 := by
  obtain ⟨tiles, htiles, hsum, _⟩ := numbers_add_up (servesInTurn (parisTables 40 (by decide) 2) laterTables)
    grew_laterTables since_pastOne
  refine ⟨tiles, htiles, ?_⟩
  have hfilling : countWithin laterTables ⟨⟨noon.micros + 30000000, by decide⟩, pastOne⟩ (dateTrunc pastOne) = 0 := by
    decide
  rw [hfilling, Nat.cast_zero, Int.add_zero] at hsum
  exact hsum

end Queries
end Wikistream
