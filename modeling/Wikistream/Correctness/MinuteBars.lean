import Mathlib.Data.List.Induction
import Wikistream.Web.Queries

/-!
# `Correctness.MinuteBars` — which bars of the per-minute charts are full counts

The statements are cut at `now` minus the window, to the second and strictly; the series begins with the whole minute
of that moment. All bars but the first lie within the statements' window.

## Contents
- **Series** (`IsSeries`): what `minute_series` returns (`exists_minuteSeries`).
- **The first bar is the only one cut** (`contains_of_lt`, `not_contains_first`).
- **`overview`** (`overview_full_iff`) and **`trending`** (`trending_full_iff`).
- **The result** (`full_bars_iff`), and charts whose first bars are too low (`first_bars_too_low`).
-/

namespace Wikistream
namespace Queries

open Py Lib

/-! ## Series -/

/-- `n` consecutive minutes from `start`, each with what belongs to it. -/
def IsSeries {β : Type} (f : Instant → β) (start : Instant) (n : Nat) (xs : List β) : Prop :=
  xs.length = n ∧ ∀ k < n, ∃ t : Instant, t.micros = start.micros + k * 60000000 ∧ xs[k]? = some (f t)

section Series

variable {β γ : Type} {f f' : Instant → β} {start : Instant} {n : Nat} {xs : List β}

/-- **Two series are the same exactly if they agree** minute by minute. -/
theorem IsSeries.congr_iff (h : IsSeries f start n xs) : IsSeries f' start n xs ↔
    ∀ k < n, ∀ t : Instant, t.micros = start.micros + k * 60000000 → f t = f' t := by
  constructor
  · rintro ⟨_, h'⟩ k hk t ht
    obtain ⟨u, hu, hx⟩ := h.2 k hk
    obtain ⟨u', hu', hx'⟩ := h' k hk
    obtain rfl : u = t := Instant.ext (hu.trans ht.symm)
    obtain rfl : u' = u := Instant.ext (hu'.trans hu.symm)
    exact Option.some.inj (hx.symm.trans hx')
  · intro heq
    refine ⟨h.1, fun k hk => ?_⟩
    obtain ⟨t, ht, hx⟩ := h.2 k hk
    exact ⟨t, ht, heq k hk t ht ▸ hx⟩

theorem IsSeries.map (h : IsSeries f start n xs) (g : β → γ) : IsSeries (fun t => g (f t)) start n (xs.map g) := by
  refine ⟨(List.length_map g).trans h.1, fun k hk => ?_⟩
  obtain ⟨t, ht, hx⟩ := h.2 k hk
  exact ⟨t, ht, by rw [List.getElem?_map, hx, Option.map_some]⟩

end Series

variable {start : Instant} {n : Nat}

/-- The bar of a minute. -/
def barOf (value : Instant → Int) (t : Instant) : Bar := ⟨t.iso, value t⟩

/-- The rounds of the `while`, one for each minute that is left. -/
theorem exists_seriesFrom (counts : Dict Instant Int) {last : Instant}
    (hlast : last.micros = start.micros + n * 60000000) : ∃ bars, seriesFrom counts last start = .ok bars ∧
      IsSeries (barOf (fun t => (counts.get? t).getD 0)) start n bars := by
  induction n generalizing start with
  | zero =>
      have hdone : ¬ start < last := by
        rw [Instant.lt_def]
        omega
      refine ⟨[], ?_, rfl, fun k hk => absurd hk (Nat.not_lt_zero k)⟩
      rw [seriesFrom, if_neg hdone]
  | succ n ih =>
      have hgo : start < last := by
        rw [Instant.lt_def]
        omega
      have hin : InRange (start.micros + 1 * 60000000) := by
        have := start.in_range
        have := last.in_range
        unfold InRange at *
        omega
      let next : Instant := ⟨start.micros + 1 * 60000000, hin⟩
      have hnext : addMinutes start 1 = .ok next := addMinutes_eq_ok.mpr rfl
      have hmicros : next.micros = start.micros + 60000000 := by
        change start.micros + 1 * 60000000 = _
        omega
      have hrest : last.micros = next.micros + n * 60000000 := by omega
      obtain ⟨bars, hbars, hlength, hseries⟩ := ih hrest
      refine ⟨⟨start.iso, (counts.get? start).getD 0⟩ :: bars, ?_, by rw [List.length_cons, hlength], ?_⟩
      · rw [seriesFrom, if_pos hgo]
        split
        · next e he => exact absurd (hnext.symm.trans he) (by simp)
        · next next' hnext' =>
            obtain rfl := Except.ok.inj (hnext.symm.trans hnext')
            rw [hbars]
            rfl
      · intro k hk
        cases k with
        | zero => exact ⟨start, by simp, rfl⟩
        | succ k =>
            obtain ⟨t, ht, hbar⟩ := hseries k (by omega)
            refine ⟨t, ?_, by rw [List.getElem?_cons_succ, hbar]⟩
            push_cast
            omega

/-- `counts`. -/
def countsOf (rows : List (Instant × Int)) : Dict Instant Int :=
  rows.foldl (fun counts row => counts.set row.1 row.2) Dict.empty

/-- **What `minute_series` returns**, for a window that begins within the supported years. -/
theorem exists_minuteSeries (rows : List (Instant × Int)) {minutes : Int} (hminutes : 0 ≤ minutes) {now : Instant}
    (hstart : addMinutes (dateTrunc now) (-minutes) = .ok start) :
    ∃ bars, minuteSeries rows minutes now = .ok bars ∧
      IsSeries (barOf (fun t => ((countsOf rows).get? t).getD 0)) start minutes.toNat bars := by
  have hmicros := addMinutes_eq_ok.mp hstart
  have hlast : (dateTrunc now).micros = start.micros + minutes.toNat * 60000000 := by omega
  obtain ⟨bars, hbars, hseries⟩ := exists_seriesFrom (countsOf rows) hlast
  refine ⟨bars, ?_, hseries⟩
  unfold minuteSeries
  dsimp only
  exact bind_eq_ok.mpr ⟨start, hstart, hbars⟩

/-- A minute's row is found under its minute. -/
theorem get?_countsOf {rows : List (Instant × Int)} (h : (rows.map Prod.fst).Nodup) {t : Instant} {v : Int} :
    (countsOf rows).get? t = some v ↔ (t, v) ∈ rows := by
  have hrows := @Dict.get?_eq_some_iff _ _ _ (Dict.mk rows h) t v
  rw [← hrows, countsOf, Dict.get?_foldl_set rows h, Dict.get?_empty, Option.or_none]
  rfl

/-! ## The first bar is the only one cut -/

section Window

variable {minutes : Int} {now since t : Instant}

theorem clampMinutes_pos (minutes : Int) : 5 ≤ clampMinutes minutes := le_max_left _ _

/-- The series begins with the minute of `since`. -/
theorem addMinutes_dateTrunc (h : addMinutes now (-minutes) = .ok since) :
    addMinutes (dateTrunc now) (-minutes) = .ok (dateTrunc since) := by
  rw [addMinutes_eq_ok] at h ⊢
  simp only [dateTrunc]
  omega

theorem dateTrunc_le (t : Instant) : dateTrunc t ≤ t := by
  rw [Instant.le_def]
  simp only [dateTrunc]
  omega

/-- **Every minute after the first one lies within the window as a whole.** -/
theorem contains_of_lt (h : addMinutes now (-minutes) = .ok since) {k : Nat} (hk : 0 < k) (hlt : k < minutes.toNat)
    (ht : t.micros = (dateTrunc since).micros + k * 60000000) {u : Instant} (hu : dateTrunc u = t) :
    Window.Contains ⟨since, now⟩ u := by
  rw [addMinutes_eq_ok] at h
  subst hu
  simp only [dateTrunc] at ht
  change since < u ∧ u ≤ now
  rw [Instant.lt_def, Instant.le_def]
  omega

/-- The first minute is over before `now`. -/
theorem le_now_of_first (h : addMinutes now (-minutes) = .ok since) (hminutes : 0 < minutes) {u : Instant}
    (hu : dateTrunc u = dateTrunc since) : u ≤ now := by
  rw [addMinutes_eq_ok] at h
  have hmicros := congrArg Instant.micros hu
  simp only [dateTrunc] at hmicros
  rw [Instant.le_def]
  omega

theorem dateTrunc_of_series {k : Nat} (ht : t.micros = (dateTrunc since).micros + k * 60000000) : dateTrunc t = t := by
  apply Instant.ext
  simp only [dateTrunc] at ht ⊢
  omega

/-- The first minute itself does not. -/
theorem not_contains_first : ¬ Window.Contains ⟨since, now⟩ (dateTrunc since) :=
  fun h => absurd h.1 (dateTrunc_le since).not_gt

end Window

/-! ## `overview` -/

theorem countP_and_eq_iff {α : Type} {p q : α → Bool} {l : List α} :
    l.countP (fun a => p a && q a) = l.countP q ↔ ∀ a ∈ l, q a = true → p a = true := by
  induction l with
  | nil => simp
  | cons a l ih =>
      have hle : l.countP (fun a => p a && q a) ≤ l.countP q := List.countP_mono_left (by simp)
      rw [List.countP_cons, List.countP_cons, List.forall_mem_cons, ← ih]
      cases p a <;> cases q a <;> simp
      omega

section Overview

variable (tables : Tables)

/-- The edits of a minute. -/
def countOf (minute : Instant) : Int := tables.edits.countP (fun row => dateTrunc row.eventTime = minute)

/-- As many bars as minutes, up to the one before that of `now`, each with all edits of its minute. -/
def FullCounts (minutes : Int) (now : Instant) (bars : List Bar) : Prop :=
  ∃ start, addMinutes (dateTrunc now) (-minutes) = .ok start ∧
    IsSeries (barOf (countOf tables)) start minutes.toNat bars

/-- No edit is cut off the first minute: none at or before `since`. -/
def NoEditCut (since : Instant) : Prop :=
  ∀ row ∈ tables.edits, dateTrunc row.eventTime = dateTrunc since → since < row.eventTime

instance (since : Instant) : Decidable (NoEditCut tables since) :=
  inferInstanceAs (Decidable (∀ row ∈ tables.edits, _ → _))

variable {tables} {db : Database} (hserves : Serves db tables) {minutes : Int} {now since : Instant}

include hserves

/-- The counts are those of the statement. -/
theorem getD_countsOf (w : Window) (minute : Instant) :
    ((countsOf (db.overviewPerMinute w)).get? minute).getD 0 = countWithin tables w minute := by
  obtain ⟨hnodup, hrows⟩ := hserves.overviewPerMinute w
  cases hget : (countsOf (db.overviewPerMinute w)).get? minute with
  | some n =>
      obtain ⟨rfl, _⟩ := (hrows minute n).mp ((get?_countsOf hnodup).mp hget)
      rfl
  | none =>
      rw [Option.getD_none]
      by_contra hne
      have hmem := (hrows minute (countWithin tables w minute)).mpr ⟨rfl, by omega⟩
      exact absurd (hget.symm.trans ((get?_countsOf hnodup).mpr hmem)) (by simp)

omit hserves in
/-- The window holds all edits of a minute exactly if it counts as many. -/
theorem countWithin_eq_iff {w : Window} {minute : Instant} :
    (countWithin tables w minute : Int) = countOf tables minute ↔
      ∀ row ∈ tables.edits, dateTrunc row.eventTime = minute → w.Contains row.eventTime := by
  unfold countWithin countOf
  rw [Int.natCast_inj]
  simp only [Bool.decide_and]
  rw [countP_and_eq_iff]
  simp

omit hserves in
theorem exists_overview_iff {rounded : Int → Int → Nat → Double} {Q : List Bar → Prop} :
    (∃ answer, overview rounded db minutes now = .ok answer ∧ Q answer.perMinute) ↔
      ∃ since bars, addMinutes now (-clampMinutes minutes) = .ok since ∧
        minuteSeries (db.overviewPerMinute ⟨since, now⟩) (clampMinutes minutes) now = .ok bars ∧ Q bars := by
  unfold overview
  simp only [bind_eq_ok]
  constructor
  · rintro ⟨answer, ⟨since, hsince, bars, hbars, hanswer⟩, hQ⟩
    obtain rfl := Except.ok.inj hanswer
    exact ⟨since, bars, hsince, hbars, hQ⟩
  · rintro ⟨since, bars, hsince, hbars, hQ⟩
    exact ⟨_, ⟨since, hsince, bars, hbars, rfl⟩, hQ⟩

/-- **The bars of `overview` are full exactly if no edit is cut off the first one.** -/
theorem overview_full_iff (rounded : Int → Int → Nat → Double) :
    (∃ answer, overview rounded db minutes now = .ok answer ∧
        FullCounts tables (clampMinutes minutes) now answer.perMinute) ↔
      ∃ since, addMinutes now (-clampMinutes minutes) = .ok since ∧ NoEditCut tables since := by
  have hminutes := clampMinutes_pos minutes
  rw [exists_overview_iff]
  refine exists_congr (fun since => ?_)
  by_cases hsince : addMinutes now (-clampMinutes minutes) = .ok since
  · have hstart := addMinutes_dateTrunc hsince
    obtain ⟨bars, hbars, hseries⟩ := exists_minuteSeries (db.overviewPerMinute ⟨since, now⟩) (by omega) hstart
    simp only [hsince, hbars, true_and, Except.ok.injEq, exists_eq_left', FullCounts, hstart]
    rw [hseries.congr_iff]
    simp only [barOf, Bar.mk.injEq, true_and, getD_countsOf hserves, countWithin_eq_iff]
    constructor
    · intro h row hrow hminute
      exact (h 0 (by omega) (dateTrunc since) (by simp) row hrow hminute).1
    · intro h k hk t ht row hrow hminute
      rcases Nat.eq_zero_or_pos k with rfl | hpos
      · obtain rfl : t = dateTrunc since := Instant.ext (by simpa using ht)
        exact ⟨h row hrow hminute, le_now_of_first hsince (by omega) hminute⟩
      · exact contains_of_lt hsince hpos hk ht hminute
  · simp [hsince]

end Overview

/-! ## `trending` -/

section Trending

/-- What the table holds for a page in a minute. -/
def storedAt (tables : Tables) (page : Str × Str) (minute : Instant) : Int :=
  (tables.trendingMinutes.get? (page.1, page.2, minute)).getD 0

/-- Every page that has a series has the stored counts of its minutes. -/
def StoredCounts (tables : Tables) (minutes : Int) (now : Instant) (pages : List Page) : Prop :=
  ∀ page ∈ pages, page.perMinute ≠ [] → ∃ start, addMinutes (dateTrunc now) (-minutes) = .ok start ∧
    IsSeries (storedAt tables (page.wiki, page.title)) start minutes.toNat page.perMinute

/-- The rows of a page, in order. -/
def rowsOfPage (page : Str × Str) (rows : List TrendingRow) : List (Instant × Int) :=
  (rows.filter (fun row => (row.wiki, row.title) = page)).map (fun row => (row.minute, row.editCount))

theorem get?_byPage (rows : List TrendingRow) (page : Str × Str) :
    (byPage rows).get? page = if rowsOfPage page rows = [] then none else some (rowsOfPage page rows) := by
  induction rows using List.reverseRecOn with
  | nil => rfl
  | append_singleton rows row ih =>
      unfold byPage at ih ⊢
      rw [List.foldl_append, List.foldl_cons, List.foldl_nil, Dict.get?_set]
      by_cases hpage : page = (row.wiki, row.title)
      · subst hpage
        rw [if_pos rfl, ih]
        have happend : rowsOfPage (row.wiki, row.title) (rows ++ [row]) =
            rowsOfPage (row.wiki, row.title) rows ++ [(row.minute, row.editCount)] := by
          simp [rowsOfPage]
        by_cases hnil : rowsOfPage (row.wiki, row.title) rows = []
        · rw [if_pos hnil, happend, hnil]
          rfl
        · rw [if_neg hnil, happend, if_neg (by simp)]
          rfl
      · have hne : ¬ (row.wiki, row.title) = page := fun h => hpage h.symm
        have happend : rowsOfPage page (rows ++ [row]) = rowsOfPage page rows := by
          simp [rowsOfPage, hne]
        rw [if_neg hpage, ih, happend]

/-- **Each page's rows become its series.** -/
theorem exists_seriesOf {minutes : Int} {now : Instant} {bars : List (Instant × Int) → List Bar}
    (hbars : ∀ rows, minuteSeries rows minutes now = .ok (bars rows))
    (pages : Dict (Str × Str) (List (Instant × Int))) :
    ∃ series, seriesOf minutes now pages = .ok series ∧ ∀ page, series.get? page = (pages.get? page).map bars := by
  have hfold : ∀ (entries : List ((Str × Str) × List (Instant × Int))) (series : Dict (Str × Str) (List Bar)),
      entries.foldlM (fun series entry => do
        let bars ← minuteSeries entry.2 minutes now
        return series.set entry.1 bars) series =
          (.ok ((entries.map (fun entry => (entry.1, bars entry.2))).foldl (fun series entry =>
            series.set entry.1 entry.2) series) : Except Exc (Dict (Str × Str) (List Bar))) := by
    intro entries
    induction entries with
    | nil => exact fun series => rfl
    | cons entry entries ih =>
        intro series
        rw [List.foldlM_cons, hbars]
        exact ih _
  refine ⟨_, hfold pages.entries Dict.empty, fun page => ?_⟩
  have hupdate := Dict.get?_update Dict.empty (pages.mapVals bars) page
  rw [Dict.get?_mapVals, Dict.get?_empty, Option.or_none] at hupdate
  exact hupdate

variable {tables : Tables} {db : Database} (hserves : Serves db tables)

theorem mem_rowsOfPage {w : Window} {pages : List (Str × Str)} {page : Str × Str} (hpage : page ∈ pages) {t : Instant}
    {v : Int} : (t, v) ∈ rowsOfPage page (minutesOf tables w pages) ↔
      tables.trendingMinutes.get? (page.1, page.2, t) = some v ∧ w.Contains t := by
  rw [Dict.get?_eq_some_iff]
  simp only [rowsOfPage, minutesOf, List.mem_map, List.mem_filter, decide_eq_true_eq, Prod.mk.injEq]
  constructor
  · rintro ⟨_, ⟨⟨e, ⟨he, hw, _⟩, rfl⟩, rfl⟩, rfl, rfl⟩
    exact ⟨he, hw⟩
  · rintro ⟨he, hw⟩
    exact ⟨_, ⟨⟨_, ⟨he, hw, hpage⟩, rfl⟩, rfl⟩, rfl, rfl⟩

/-- No minute of a page comes twice. -/
theorem nodup_rowsOfPage (w : Window) (pages : List (Str × Str)) (page : Str × Str) :
    ((rowsOfPage page (minutesOf tables w pages)).map Prod.fst).Nodup := by
  have hnodup := List.Nodup.of_map _ tables.trendingMinutes.nodup
  unfold rowsOfPage minutesOf
  rw [List.filter_map, List.map_map, List.map_map]
  refine List.Nodup.map_on ?_ ((hnodup.filter _).filter _)
  intro e he e' he' hminute
  simp only [List.mem_filter, Function.comp_apply, decide_eq_true_eq] at he he' hminute
  refine List.inj_on_of_nodup_map tables.trendingMinutes.nodup he.1.1 he'.1.1 ?_
  have hsame := he.2.trans he'.2.symm
  rw [Prod.mk.injEq] at hsame
  exact Prod.ext hsame.1 (Prod.ext hsame.2 hminute)

include hserves

theorem perm_rowsOfPage (w : Window) (pages : List (Str × Str)) (page : Str × Str) :
    (rowsOfPage page (db.pageMinutes w pages)).Perm (rowsOfPage page (minutesOf tables w pages)) :=
  ((hserves.pageMinutes w pages).filter _).map _

/-- **The counts of a page are those stored within the window.** -/
theorem getD_countsOf_page {w : Window} {pages : List (Str × Str)} {page : Str × Str} (hpage : page ∈ pages)
    (t : Instant) : ((countsOf (rowsOfPage page (db.pageMinutes w pages))).get? t).getD 0 =
      if w.Contains t then storedAt tables page t else 0 := by
  have hperm := perm_rowsOfPage hserves w pages page
  have hnodup := (hperm.map Prod.fst).nodup_iff.mpr (nodup_rowsOfPage w pages page)
  have hget (v : Int) : (countsOf (rowsOfPage page (db.pageMinutes w pages))).get? t = some v ↔
      tables.trendingMinutes.get? (page.1, page.2, t) = some v ∧ w.Contains t := by
    rw [get?_countsOf hnodup, hperm.mem_iff, mem_rowsOfPage hpage]
  unfold storedAt
  cases hcounts : (countsOf (rowsOfPage page (db.pageMinutes w pages))).get? t with
  | some v =>
      obtain ⟨hstored, hw⟩ := (hget v).mp hcounts
      rw [if_pos hw, hstored]
  | none =>
      split
      · next hw =>
          cases hstored : tables.trendingMinutes.get? (page.1, page.2, t) with
          | none => rfl
          | some v => exact absurd (hcounts.symm.trans ((hget v).mpr ⟨hstored, hw⟩)) (by simp)
      · rfl

/-- A page that is among the top has a row in the window. -/
theorem rowsOfPage_ne_nil {w : Window} {wiki : Option Str} {limit : Nat} {page : TopPage}
    (hpage : page ∈ db.topPages w wiki limit) :
    rowsOfPage (page.wiki, page.title) (db.pageMinutes w
      ((db.topPages w wiki limit).map (fun page => (page.wiki, page.title)))) ≠ [] := by
  have hmem : (page.wiki, page.title) ∈ (db.topPages w wiki limit).map (fun page => (page.wiki, page.title)) :=
    List.mem_map.mpr ⟨page, hpage, rfl⟩
  have hsum := (hserves.topPages w wiki limit).mem hpage
  simp only [pageSums, List.mem_map, List.mem_dedup, List.mem_filter, decide_eq_true_eq] at hsum
  obtain ⟨_, ⟨e, ⟨he, hw, _⟩, rfl⟩, rfl⟩ := hsum
  have hrow : (e.1.2.2, e.2) ∈ rowsOfPage (e.1.1, e.1.2.1) (minutesOf tables w
      ((db.topPages w wiki limit).map (fun page => (page.wiki, page.title)))) :=
    (mem_rowsOfPage hmem).mpr ⟨Dict.get?_eq_some_iff.mpr he, hw⟩
  exact List.ne_nil_of_mem ((perm_rowsOfPage hserves w _ _).mem_iff.mpr hrow)

/-- No page of the top has a count stored for the first minute. -/
def NoFirstCount (tables : Tables) (since : Instant) (top : List TopPage) : Prop :=
  ∀ page ∈ top, storedAt tables (page.wiki, page.title) (dateTrunc since) = 0

omit hserves in
instance (tables : Tables) (since : Instant) (top : List TopPage) : Decidable (NoFirstCount tables since top) :=
  inferInstanceAs (Decidable (∀ page ∈ top, _))

/-- The pages that `trending` asks for. -/
def topOf (db : Database) (wiki : Option Str) (limit : Int) (w : Window) : List TopPage :=
  db.topPages w (wikiOrNone wiki) (max 1 (min limit 50)).toNat

/-- The rows it gets for them. -/
def rowsOf (db : Database) (wiki : Option Str) (limit : Int) (w : Window) : List TrendingRow :=
  if topOf db wiki limit w = [] then []
  else db.pageMinutes w ((topOf db wiki limit w).map (fun page => (page.wiki, page.title)))

omit hserves in
theorem exists_trending_iff {minutes limit : Int} {wiki : Option Str} {now : Instant} {Q : List Page → Prop} :
    (∃ answer, trending db minutes wiki limit now = .ok answer ∧ Q answer.pages) ↔
      ∃ since series, addMinutes now (-clampMinutes minutes) = .ok since ∧
        seriesOf (clampMinutes minutes) now (byPage (rowsOf db wiki limit ⟨since, now⟩)) = .ok series ∧
        Q ((topOf db wiki limit ⟨since, now⟩).map (pageOf series)) := by
  unfold trending
  simp only [bind_eq_ok]
  constructor
  · rintro ⟨answer, ⟨since, hsince, series, hseries, hanswer⟩, hQ⟩
    obtain rfl := Except.ok.inj hanswer
    exact ⟨since, series, hsince, hseries, hQ⟩
  · rintro ⟨since, series, hsince, hseries, hQ⟩
    exact ⟨_, ⟨since, hsince, series, hseries, rfl⟩, hQ⟩

omit hserves in
/-- The rows asked for are those of a page that is among the top. -/
theorem rowsOf_of_mem {wiki : Option Str} {limit : Int} {w : Window} {page : TopPage}
    (hpage : page ∈ topOf db wiki limit w) : rowsOf db wiki limit w =
      db.pageMinutes w ((topOf db wiki limit w).map (fun page => (page.wiki, page.title))) :=
  if_neg (List.ne_nil_of_mem hpage)

/-- The series of a page that is among the top. -/
theorem isSeries_pageOf {minutes : Int} {wiki : Option Str} {limit : Int} {now since : Instant}
    {bars : List (Instant × Int) → List Bar} {series : Dict (Str × Str) (List Bar)}
    (hseries : ∀ rows, IsSeries (barOf (fun t => ((countsOf rows).get? t).getD 0)) (dateTrunc since) minutes.toNat
      (bars rows))
    (hget : ∀ page, series.get? page = ((byPage (rowsOf db wiki limit ⟨since, now⟩)).get? page).map bars)
    {page : TopPage} (hpage : page ∈ topOf db wiki limit ⟨since, now⟩) :
    IsSeries (fun t => ((countsOf (rowsOfPage (page.wiki, page.title) (db.pageMinutes ⟨since, now⟩
        ((topOf db wiki limit ⟨since, now⟩).map (fun page => (page.wiki, page.title)))))).get? t).getD 0)
      (dateTrunc since) minutes.toNat (pageOf series page).perMinute := by
  have hrows := rowsOfPage_ne_nil hserves hpage
  have hbars := hget (page.wiki, page.title)
  rw [get?_byPage, rowsOf_of_mem hpage] at hbars
  unfold topOf at hbars ⊢
  rw [if_neg hrows, Option.map_some] at hbars
  unfold pageOf
  rw [hbars]
  exact (hseries _).map Bar.edits

/-- **Only the first minute is missing from what is stored.** -/
theorem isSeries_storedAt_iff {minutes : Int} {now since : Instant}
    (hsince : addMinutes now (-minutes) = .ok since) (hminutes : 0 < minutes) {pages : List (Str × Str)}
    {page : Str × Str} (hpage : page ∈ pages) {values : List Int}
    (hvalues : IsSeries (fun t => ((countsOf (rowsOfPage page (db.pageMinutes ⟨since, now⟩ pages))).get? t).getD 0)
      (dateTrunc since) minutes.toNat values) :
    IsSeries (storedAt tables page) (dateTrunc since) minutes.toNat values ↔
      storedAt tables page (dateTrunc since) = 0 := by
  rw [hvalues.congr_iff]
  simp only [getD_countsOf_page hserves hpage]
  constructor
  · intro h
    have hfirst := h 0 (by omega) (dateTrunc since) (by simp)
    rw [if_neg not_contains_first] at hfirst
    exact hfirst.symm
  · intro h k hk t ht
    rcases Nat.eq_zero_or_pos k with rfl | hpos
    · obtain rfl : t = dateTrunc since := Instant.ext (by simpa using ht)
      rw [if_neg not_contains_first, h]
    · rw [if_pos (contains_of_lt hsince hpos hk ht (dateTrunc_of_series ht))]

/-- **The bars of `trending` are those stored exactly if no page of the top has a count in the first minute.** -/
theorem trending_full_iff (minutes : Int) (wiki : Option Str) (limit : Int) (now : Instant) :
    (∃ answer, trending db minutes wiki limit now = .ok answer ∧
        StoredCounts tables (clampMinutes minutes) now answer.pages) ↔
      ∃ since, addMinutes now (-clampMinutes minutes) = .ok since ∧
        NoFirstCount tables since (topOf db wiki limit ⟨since, now⟩) := by
  have hminutes := clampMinutes_pos minutes
  rw [exists_trending_iff]
  refine exists_congr (fun since => ?_)
  by_cases hsince : addMinutes now (-clampMinutes minutes) = .ok since
  · have hstart := addMinutes_dateTrunc hsince
    have hall := fun rows => exists_minuteSeries rows (by omega : 0 ≤ clampMinutes minutes) hstart
    choose bars hbars hseries using hall
    obtain ⟨series, hok, hget⟩ := exists_seriesOf hbars (byPage (rowsOf db wiki limit ⟨since, now⟩))
    simp only [hsince, hok, true_and, Except.ok.injEq, exists_eq_left', StoredCounts, List.forall_mem_map, hstart]
    refine forall_congr' (fun page => forall_congr' (fun hpage => ?_))
    have hpageSeries := isSeries_pageOf hserves hseries hget hpage
    have hne : (pageOf series page).perMinute ≠ [] :=
      List.ne_nil_of_length_pos (hpageSeries.1.ge.trans_lt' (by omega))
    have hkey : (page.wiki, page.title) ∈
        (topOf db wiki limit ⟨since, now⟩).map (fun page => (page.wiki, page.title)) :=
      List.mem_map.mpr ⟨page, hpage, rfl⟩
    have hstored := isSeries_storedAt_iff hserves hsince (by omega) hkey hpageSeries
    rw [forall_prop_of_true hne]
    exact hstored
  · simp [hsince]

end Trending

/-! ## The result -/

/-- **Every bar is its minute's full count exactly if** the window begins within the supported years, no edit is cut
    off its first minute, and no page of the top has a count stored for that minute. -/
theorem full_bars_iff {tables : Tables} {db : Database} (hserves : Serves db tables)
    (rounded : Int → Int → Nat → Double) (minutes : Int) (wiki : Option Str) (limit : Int) (now : Instant) :
    ((∃ answer, overview rounded db minutes now = .ok answer ∧
          FullCounts tables (clampMinutes minutes) now answer.perMinute) ∧
        ∃ answer, trending db minutes wiki limit now = .ok answer ∧
          StoredCounts tables (clampMinutes minutes) now answer.pages) ↔
      ∃ since, addMinutes now (-clampMinutes minutes) = .ok since ∧ NoEditCut tables since ∧
        NoFirstCount tables since (topOf db wiki limit ⟨since, now⟩) := by
  rw [overview_full_iff hserves, trending_full_iff hserves]
  constructor
  · rintro ⟨⟨since, hsince, hedits⟩, since', hsince', htop⟩
    obtain rfl := Except.ok.inj (hsince.symm.trans hsince')
    exact ⟨since, hsince, hedits, htop⟩
  · rintro ⟨since, hsince, hedits, htop⟩
    exact ⟨⟨since, hsince, hedits⟩, since, hsince, htop⟩

/-! ## An hour of one page -/

/-- Half a minute past one. -/
def pastOne : Instant := ⟨noon.micros + 3630000000, by decide⟩

def halfPast : Instant := ⟨noon.micros + 1800000000, by decide⟩

theorem paris_minutes_nodup : [(lit "enwiki", lit "Paris", noon), (lit "enwiki", lit "Paris", halfPast)].Nodup := by
  decide

/-- An edit so many seconds past noon, and the page's counts in the minutes of noon and of half past. -/
def parisTables (seconds : Nat) (h : InRange (noon.micros + seconds * 1000000)) (atNoon : Int) : Tables where
  edits := [parisEdit "e1" ⟨_, h⟩]
  trendingMinutes :=
    ⟨[((lit "enwiki", lit "Paris", noon), atNoon), ((lit "enwiki", lit "Paris", halfPast), 1)], paris_minutes_nodup⟩

/-- The hour before half a minute past one begins half a minute past noon. -/
theorem since_pastOne : addMinutes pastOne (-clampMinutes 60) = .ok ⟨noon.micros + 30000000, by decide⟩ :=
  addMinutes_eq_ok.mpr (by decide)

/-- An edit forty seconds past noon is within the hour. -/
theorem late_edit_counted :
    (∃ answer, overview (fun _ _ _ => ⟨0, 0⟩) (answers (parisTables 40 (by decide) 0)) 60 pastOne = .ok answer ∧
        FullCounts (parisTables 40 (by decide) 0) (clampMinutes 60) pastOne answer.perMinute) ∧
      ∃ answer, trending (answers (parisTables 40 (by decide) 0)) 60 none 15 pastOne = .ok answer ∧
        StoredCounts (parisTables 40 (by decide) 0) (clampMinutes 60) pastOne answer.pages :=
  (full_bars_iff (serves_answers (parisTables 40 (by decide) 0)) _ 60 none 15 pastOne).mpr
    ⟨_, since_pastOne, by decide, by decide⟩

/-- An edit ten seconds past noon is in no bar, though its minute has one, and the three that the page had in that
    minute are shown as none. -/
theorem first_bars_too_low :
    Serves (answers (parisTables 10 (by decide) 3)) (parisTables 10 (by decide) 3) ∧
      (¬ ∃ answer, overview (fun _ _ _ => ⟨0, 0⟩) (answers (parisTables 10 (by decide) 3)) 60 pastOne = .ok answer ∧
        FullCounts (parisTables 10 (by decide) 3) (clampMinutes 60) pastOne answer.perMinute) ∧
      ¬ ∃ answer, trending (answers (parisTables 10 (by decide) 3)) 60 none 15 pastOne = .ok answer ∧
        StoredCounts (parisTables 10 (by decide) 3) (clampMinutes 60) pastOne answer.pages := by
  have hserves := serves_answers (parisTables 10 (by decide) 3)
  refine ⟨hserves, ?_, ?_⟩
  · rw [overview_full_iff hserves]
    rintro ⟨since, hsince, hedits⟩
    obtain rfl := Except.ok.inj (since_pastOne.symm.trans hsince)
    exact absurd hedits (by decide)
  · rw [trending_full_iff hserves]
    rintro ⟨since, hsince, htop⟩
    obtain rfl := Except.ok.inj (since_pastOne.symm.trans hsince)
    exact absurd htop (by decide)

end Queries
end Wikistream
