import Wikistream.Correctness.PageRecords
import Wikistream.Processors.Cleaner
import Wikistream.Scripts.PageSnapshot
import Wikistream.Web.Pages

/-!
# `Correctness.NewestPages` — event times sort as text the way they sort as time

The pages of the store carry the texts that `_event_time` wrote, and a search sorts and cuts off by these texts. Both
shapes of a text, with and without a fraction, are in the order of the instants, so the search shows the newest pages.

## Contents
- **The instant of an event** (`Occurs`), and its text (`eventTime_iso`).
- **What the pipeline writes** (`FromCleaner`, `FromPipeline`): every page in the store has such a text
  (`follow_dated`), and in a snapshot of the topic (`snapshotLoop_dated`).
- **The result** (`newest_pages_first`), for the list of a wiki's pages as well (`listWiki_showsNewest`).
-/

namespace Wikistream
namespace Pages

open Py Lib Models PageState PageSnapshot

variable {host : Host} {raw : Obj} {time : Str}

/-! ## The instant of an event -/

/-- The instant `_event_time` goes by: that of `meta.dt`, or that of `timestamp`. -/
def Occurs (host : Host) (raw : Obj) (t : Instant) : Prop :=
  (∃ dt parsed offset, dtText raw = .ok (some dt) ∧
      fromisoformat (replaceChr (chr 'Z') (lit "+00:00") dt) = .ok parsed ∧
      parsed.utcoffset host.zone = .ok offset ∧ t.micros = parsed.wallMicros - offset) ∨
    ∃ ts, lookup raw (lit "timestamp") = some (.int ts) ∧ t.micros = ts * 1000000

theorem fromtimestamp_eq_ok {ts : Int} {d : DateTime} (h : fromtimestamp ts = .ok d) :
    DateTime.ofWallMicros (ts * 1000000) (some 0) = some d := by
  unfold fromtimestamp at h
  split at h
  · exact absurd h (by simp)
  · split at h
    · exact absurd h (by simp)
    · split at h
      · next d' hd' => rw [hd', Except.ok.inj h]
      · exact absurd h (by simp)

theorem astimezoneUtc_eq_ok {zone : LocalZone} {d u : DateTime} (h : d.astimezoneUtc zone = .ok u) :
    ∃ o, d.utcoffset zone = .ok o ∧ DateTime.ofWallMicros (d.wallMicros - o) (some 0) = some u := by
  unfold DateTime.astimezoneUtc at h
  split at h
  · exact absurd h (by simp)
  · next o ho =>
      split at h
      · next u' hu' => exact ⟨o, ho, by rw [hu', Except.ok.inj h]⟩
      · exact absurd h (by simp)

theorem readTimestamp_iso (h : readTimestamp raw = .ok time) : ∃ t, Occurs host raw t ∧ time = t.iso := by
  unfold readTimestamp at h
  split at h
  · next ts hts =>
      obtain ⟨d, hd, rfl⟩ := map_eq_ok.mp h
      obtain ⟨t, hmicros, rfl⟩ := Instant.exists_of_ofWallMicros (fromtimestamp_eq_ok hd)
      exact ⟨t, Or.inr ⟨ts, hts, hmicros⟩, rfl⟩
  · exact absurd h (by simp [parseError])

theorem readDt_iso {dt : Str} (hdt : dtText raw = .ok (some dt)) (h : readDt host dt = .ok (some time)) :
    ∃ t, Occurs host raw t ∧ time = t.iso := by
  unfold readDt at h
  split at h
  · next e he =>
      split at h
      · exact absurd h (by simp)
      · exact absurd h (by simp)
  · next parsed hparsed =>
      split at h
      · next utc hutc =>
          obtain rfl := Option.some.inj (Except.ok.inj h)
          obtain ⟨o, ho, hmicros⟩ := astimezoneUtc_eq_ok hutc
          obtain ⟨t, ht, rfl⟩ := Instant.exists_of_ofWallMicros hmicros
          exact ⟨t, Or.inl ⟨dt, parsed, o, hdt, hparsed, ho, ht⟩, rfl⟩
      · next e he =>
          split at h
          · exact absurd h (by simp)
          · exact absurd h (by simp)

/-- **The text of an event time is that of its instant.** -/
theorem eventTime_iso (h : eventTime host raw = .ok time) : ∃ t, Occurs host raw t ∧ time = t.iso := by
  unfold eventTime at h
  obtain ⟨dt, hdt, h⟩ := bind_eq_ok.mp h
  cases dt with
  | none => exact readTimestamp_iso h
  | some dt =>
      obtain ⟨read, hread, h⟩ := bind_eq_ok.mp h
      cases read with
      | none => exact readTimestamp_iso h
      | some time' =>
          obtain rfl := Except.ok.inj h
          exact readDt_iso hdt hread

/-! ## What the pipeline writes -/

/-- A record of wiki.clean as the cleaner produced it. -/
def FromCleaner (env : Cleaner.Env) (r : KafkaRecord) : Prop :=
  ∃ caches m result out, Cleaner.handle env caches m = .ok result ∧ out ∈ result.2 ∧ out.topic = .clean ∧
    r.value = out.value

/-- A record of wiki.page-latest as page state produced it from one of wiki.clean. -/
def FromPipeline (env : Cleaner.Env) (r : KafkaRecord) : Prop :=
  ∃ guards m result out, FromCleaner env m.record ∧ handle env.host guards m = .ok result ∧ out ∈ result.2 ∧
    r.key = out.key ∧ r.value = out.value

variable {env : Cleaner.Env} {r : KafkaRecord} {event : CleanEvent} {page : PageLatest}

theorem cleanEvent_eventTime (h : cleanEvent host raw = .ok event) : eventTime host raw = .ok event.eventTime := by
  unfold cleanEvent at h
  simp only [bind_eq_ok] at h
  obtain ⟨id, _, type, _, wiki, _, title, _, n, _, time, htime, rev, _, len, _, hevent⟩ := h
  obtain rfl := Except.ok.inj hevent
  exact htime

theorem attempt_of_clean {payload : Payload} {cache cache' : Dedup.DedupCache} {messageTimeMs : Option Int}
    (h : Transform.transform host payload cache messageTimeMs = .ok (.clean event, cache')) :
    ∃ raw, parseRaw host payload = .ok raw ∧ cleanEvent host raw = .ok event := by
  have hattempt : Transform.attempt host payload = .ok (some event) := by
    unfold Transform.transform at h
    split at h
    · exact absurd h (by simp)
    · exact absurd h (by simp)
    · exact absurd h (by simp)
    · next event' hevent =>
        split at h
        · exact absurd h (by simp)
        · have houtcome := congrArg Prod.fst (Except.ok.inj h)
          unfold Transform.deduplicate at houtcome
          split at houtcome
          · obtain rfl := Transform.Outcome.clean.inj houtcome
            exact hevent
          · exact absurd houtcome (by simp)
  unfold Transform.attempt at hattempt
  obtain ⟨raw, hraw, hattempt⟩ := bind_eq_ok.mp hattempt
  split at hattempt
  · exact absurd (Except.ok.inj hattempt) (by simp)
  · obtain ⟨event', hevent, hattempt⟩ := bind_eq_ok.mp hattempt
    obtain rfl := Option.some.inj (Except.ok.inj hattempt)
    exact ⟨raw, hraw, hevent⟩

/-- The cleaner writes what `clean_event` made of a document. -/
theorem FromCleaner.exists_event (h : FromCleaner env r) : ∃ payload raw event b,
    parseRaw env.host payload = .ok raw ∧ cleanEvent env.host raw = .ok event ∧ event.toJson env.host = .ok b ∧
      r.payload = .bytes b := by
  obtain ⟨caches, m, result, out, hhandle, hout, htopic, hvalue⟩ := h
  unfold Cleaner.handle at hhandle
  split at hhandle
  · exact absurd hhandle (by simp)
  · next outcome cache htransform =>
      obtain ⟨outs, houts, rfl⟩ := map_eq_ok.mp hhandle
      cases outcome with
      | duplicate id =>
          obtain rfl := Except.ok.inj houts
          exact absurd hout (by simp)
      | skipped reason =>
          obtain rfl := Except.ok.inj houts
          exact absurd hout (by simp)
      | rejected reason payload =>
          -- an envelope goes to the dead letter topic
          obtain ⟨value, _, houts⟩ := bind_eq_ok.mp houts
          obtain rfl := Except.ok.inj houts
          obtain rfl := List.mem_singleton.mp hout
          exact absurd htopic (by simp)
      | clean event =>
          obtain ⟨key, _, houts⟩ := bind_eq_ok.mp houts
          obtain ⟨b, hb, houts⟩ := bind_eq_ok.mp houts
          obtain rfl := Except.ok.inj houts
          obtain rfl := List.mem_singleton.mp hout
          obtain ⟨raw, hraw, hevent⟩ := attempt_of_clean htransform
          refine ⟨_, raw, event, b, hraw, hevent, hb, ?_⟩
          unfold KafkaRecord.payload
          rw [hvalue]

/-- What is read from wiki.clean carries the text of an instant. -/
theorem FromCleaner.dated (h : FromCleaner env r) (hread : CleanEvent.fromJson env.host r.payload = .ok event) :
    ∃ t : Instant, event.eventTime = t.iso := by
  obtain ⟨payload, raw, written, b, hraw, hevent, hb, hpayload⟩ := h.exists_event
  have hfits := HandOver.fits_parseRaw hraw
  have hback := HandOver.event_read hfits.1 (HandOver.intFits_cleanEvent hfits hevent) hb
  rw [hpayload, hback] at hread
  obtain rfl := Except.ok.inj hread
  obtain ⟨t, _, ht⟩ := eventTime_iso (cleanEvent_eventTime hevent)
  exact ⟨t, ht⟩

/-- The page carries the text of an instant. -/
def Dated (page : PageLatest) : Prop := ∃ t : Instant, page.eventTime = t.iso

/-- **What page state writes is read as a page with the text of an instant.** -/
theorem FromPipeline.dated (h : FromPipeline env r) {b : Bytes} (hb : r.value = some b)
    (hread : PageLatest.fromJson env.host (.bytes b) = .ok page) : Dated page := by
  obtain ⟨guards, m, result, out, hclean, hhandle, hout, _, hvalue⟩ := h
  obtain ⟨key, record, timeMs, hupdate, _, hout⟩ := exists_update_of_mem hhandle hout
  obtain ⟨event, hevent, hpage, _⟩ := updateOf_eq_some hupdate
  obtain ⟨t, ht⟩ := hclean.dated hevent
  obtain ⟨_, _, _, ⟨_, hnone⟩ | ⟨pg, b', rfl, hb', hsome⟩⟩ := outputOf_eq_ok hout
  · exact absurd (hb.symm.trans (hvalue.trans hnone)) (by simp)
  · obtain rfl := Option.some.inj (hb.symm.trans (hvalue.trans hsome))
    obtain ⟨hdepth, hrevNew, hlengthNew⟩ := intFits_event hevent
    obtain rfl : pg = PageLatest.fromEvent env.host event := by simpa using (pageUpdate_eq_some hpage).2
    rw [HandOver.page_read hdepth hrevNew hlengthNew hb'] at hread
    obtain rfl := Except.ok.inj hread
    exact ⟨t, ht⟩

/-! ## The store -/

/-- Every page of the store carries the text of an instant. -/
def AllDated (pages : List PageLatest) : Prop := ∀ page ∈ pages, Dated page

variable {store store' : PageStore}

section Dict

variable {κ : Type} [DecidableEq κ] {pages : Dict κ PageLatest}

theorem AllDated.get? (h : AllDated pages.values) (k : κ) (page : PageLatest) (hk : pages.get? k = some page) :
    Dated page :=
  h page (Dict.mem_values_iff.mpr ⟨k, hk⟩)

theorem AllDated.erase (h : AllDated pages.values) (key : κ) : AllDated (pages.erase key).values := by
  intro page hpage
  obtain ⟨k, hk⟩ := Dict.mem_values_iff.mp hpage
  exact Dict.forall_get?_erase h.get? key k page hk

theorem AllDated.set (h : AllDated pages.values) (key : κ) (hpage : Dated page) :
    AllDated (pages.set key page).values := by
  intro page' hpage'
  obtain ⟨k, hk⟩ := Dict.mem_values_iff.mp hpage'
  exact Dict.forall_get?_set h.get? key hpage k page' hk

end Dict

/-- The instants of the pages, by which they carry their texts. -/
theorem AllDated.exists_time {pages : List PageLatest} (h : AllDated pages) :
    ∃ time : PageLatest → Instant, ∀ page ∈ pages, page.eventTime = (time page).iso := by
  have htime : ∀ page, ∃ t : Instant, page ∈ pages → page.eventTime = t.iso := by
    intro page
    by_cases hpage : page ∈ pages
    · obtain ⟨t, ht⟩ := h page hpage
      exact ⟨t, fun _ => ht⟩
    · exact ⟨⟨0, by decide⟩, fun h => absurd h hpage⟩
  exact Classical.axiomOfChoice htime

theorem AllDated.apply (hs : AllDated store.pages.values) (h : FromPipeline env r)
    (happly : store.apply env.host r.key r.value = .ok store') : AllDated store'.pages.values := by
  unfold PageStore.apply at happly
  split at happly
  · exact Except.ok.inj happly ▸ hs
  · split at happly
    · exact absurd happly (by simp)
    · next key _ =>
        split at happly
        · -- a tombstone
          exact Except.ok.inj happly ▸ hs.erase key
        · next b hb =>
            split at happly
            · next new hread => exact Except.ok.inj happly ▸ hs.set key (h.dated hb hread)
            · split at happly
              · exact Except.ok.inj happly ▸ hs
              · exact absurd happly (by simp)

/-- **Every page in the store carries the text of an instant.** -/
theorem follow_dated {feed : List KafkaRecord} (hfeed : ∀ r ∈ feed, FromPipeline env r)
    (h : follow env.host feed = .ok store) : AllDated store.pages.values := by
  have hfold : ∀ (rs : List KafkaRecord) (s : PageStore), (∀ r ∈ rs, FromPipeline env r) → AllDated s.pages.values →
      rs.foldlM (fun s r => s.apply env.host r.key r.value) s = .ok store → AllDated store.pages.values := by
    intro rs
    induction rs with
    | nil => exact fun s _ hs hfold => Except.ok.inj hfold ▸ hs
    | cons r rs ih =>
        intro s hrs hs hfold
        rw [List.foldlM_cons] at hfold
        obtain ⟨s', hs', hfold⟩ := bind_eq_ok.mp hfold
        exact ih s' (fun x hx => hrs x (List.mem_cons_of_mem _ hx)) (hs.apply (hrs r List.mem_cons_self) hs') hfold
  exact hfold feed {} hfeed (fun _ hpage => absurd hpage (by simp [Dict.values, Dict.empty])) h

/-! ## The snapshot -/

theorem addRecord_dated {s s' : Snapshot} (hs : AllDated s.pages.values) (h : FromPipeline env r)
    (hadd : addRecord env.host s r = .ok s') : AllDated s'.pages.values := by
  unfold addRecord at hadd
  split at hadd
  · exact absurd hadd (by simp)
  · next key _ =>
      split at hadd
      · exact Except.ok.inj hadd ▸ hs.erase key
      · next b hb =>
          split at hadd
          · exact absurd hadd (by simp)
          · next page hread => exact Except.ok.inj hadd ▸ hs.set key (h.dated hb hread)

/-- **Every page of a snapshot carries the text of an instant**, whatever the polls come back with. -/
theorem snapshotLoop_dated {count : Nat} {polls : List SnapshotPoll} {finished : Finset Nat} {s s' : Snapshot}
    (hpolls : ∀ p r, .record p r ∈ polls → FromPipeline env r) (hs : AllDated s.pages.values)
    (h : snapshotLoop env.host count polls finished s = .ok s') : AllDated s'.pages.values := by
  induction polls generalizing finished s with
  | nil => exact Except.ok.inj h ▸ hs
  | cons poll polls ih =>
      have hrest : ∀ p r, .record p r ∈ polls → FromPipeline env r :=
        fun p r hr => hpolls p r (List.mem_cons_of_mem _ hr)
      unfold snapshotLoop at h
      split at h
      · exact Except.ok.inj h ▸ hs
      · cases poll with
        | timeout => exact Except.ok.inj h ▸ hs
        | eof p => exact ih hrest hs h
        | error => exact absurd h (by simp)
        | record p r =>
            dsimp only at h
            split at h
            · exact absurd h (by simp)
            · next t hadd => exact ih hrest (addRecord_dated hs (hpolls p r List.mem_cons_self) hadd) h

/-! ## The result -/

/-- The pages shown are the newest of those that match: as many as there are up to the limit, in order, and none
    left out is newer. -/
def ShowsNewest (limit : Int) (matching shown : List PageLatest) (time : PageLatest → Instant) : Prop :=
  shown.length = min limit.toNat matching.length ∧
    ∃ rest, (shown ++ rest).Perm matching ∧ shown.Pairwise (fun p q => time q ≤ time p) ∧
      ∀ p ∈ shown, ∀ q ∈ rest, time q ≤ time p

/-- **Sorting by the text is sorting by the time.** -/
theorem showsNewest_upTo {matching : List PageLatest} {time : PageLatest → Instant}
    (htime : ∀ page ∈ matching, page.eventTime = (time page).iso) {limit : Int} (hlimit : 0 ≤ limit) :
    ShowsNewest limit matching (upTo limit (newestFirst PageLatest.eventTime matching)) time := by
  rw [upTo_of_nonneg hlimit]
  have htop := top_newestFirst PageLatest.eventTime limit.toNat matching
  obtain ⟨rest, hperm, hcross, _⟩ := htop.exists_rest
  have hle : ∀ p ∈ (newestFirst PageLatest.eventTime matching).take limit.toNat ++ rest,
      ∀ q ∈ (newestFirst PageLatest.eventTime matching).take limit.toNat ++ rest,
      NoOlder PageLatest.eventTime p q → time q ≤ time p := by
    intro p hp q hq h
    unfold NoOlder at h
    rwa [htime p (hperm.subset hp), htime q (hperm.subset hq), Instant.iso_le_iff] at h
  refine ⟨htop.length, rest, hperm, ?_, ?_⟩
  · refine htop.pairwise.imp_of_mem ?_
    exact fun hp hq => hle _ (List.mem_append_left _ hp) _ (List.mem_append_left _ hq)
  · exact fun p hp q hq => hle p (List.mem_append_left _ hp) q (List.mem_append_right _ hq) (hcross p hp q hq)

/-- **The list of a wiki's pages shows the newest.** -/
theorem listWiki_showsNewest {count : Nat} {polls : List SnapshotPoll} {s : Snapshot}
    (hpolls : ∀ p r, .record p r ∈ polls → FromPipeline env r) (h : buildSnapshot env.host count polls = .ok s) :
    ∃ time : PageLatest → Instant, (∀ page ∈ s.pages.values, page.eventTime = (time page).iso) ∧
      ∀ wiki limit, 0 ≤ limit →
        ShowsNewest limit (s.pages.values.filter (fun p => p.wiki == wiki)) (listWiki s wiki limit) time := by
  obtain ⟨s, hloop, rfl⟩ := map_eq_ok.mp h
  have hempty : AllDated ({} : Snapshot).pages.values := fun _ hpage => absurd hpage (by simp [Dict.values, Dict.empty])
  obtain ⟨time, htime⟩ := (snapshotLoop_dated hpolls hempty hloop).exists_time
  refine ⟨time, htime, fun wiki limit hlimit => ?_⟩
  exact showsNewest_upTo (fun page hpage => htime page (List.mem_filter.mp hpage).1) hlimit

/-- **Event times sort as text the way they sort as time**, and a search shows the newest of the pages that match. The
    text of an event time is that of its instant, and so is the text of every page that came through the pipeline. -/
theorem newest_pages_first (env : Cleaner.Env) (casefold : Str → Str) :
    (∀ t t' : Instant, (t.iso < t'.iso ↔ t < t') ∧ (t.iso = t'.iso ↔ t = t')) ∧
    (∀ host raw time, eventTime host raw = .ok time → ∃ t, Occurs host raw t ∧ time = t.iso) ∧
    ∀ feed store, (∀ r ∈ feed, FromPipeline env r) → follow env.host feed = .ok store →
      ∃ time : PageLatest → Instant, (∀ page ∈ store.pages.values, page.eventTime = (time page).iso) ∧
        ∀ query wiki limit, 0 ≤ limit →
          ShowsNewest limit (store.pages.values.filter (isMatch casefold (strip (casefold query)) wiki))
            (store.search casefold query wiki limit) time := by
  refine ⟨fun t t' => ⟨Instant.iso_lt_iff, Instant.iso_inj⟩, fun host raw time h => eventTime_iso h, ?_⟩
  intro feed store hfeed hstore
  obtain ⟨time, htime⟩ := (follow_dated hfeed hstore).exists_time
  refine ⟨time, htime, fun query wiki limit hlimit => ?_⟩
  exact showsNewest_upTo (fun page hpage => htime page (List.mem_filter.mp hpage).1) hlimit

/-- An edit of the page `title` at `dt`, as the ingestor sends it. -/
def rawEdit (title dt : String) : KafkaRecord where
  value := some (ascii (lit ("\x7b\"meta\":\x7b\"id\":\"a\",\"dt\":\"" ++ dt ++ "\"\x7d,\"type\":\"edit\"," ++
    "\"wiki\":\"w\",\"title\":\"" ++ title ++ "\",\"namespace\":0\x7d")))
  timestamp := 1000

/-- What the pipeline writes for it. -/
def fedEdit (title dt : String) : Option KafkaRecord := do
  let cleaned ← (Cleaner.handle { host := Transform.utcHost } Dict.empty ⟨0, 0, rawEdit title dt⟩).toOption
  let out ← cleaned.2.head?
  if out.topic = .clean then
    let clean : KafkaRecord := { key := out.key, value := out.value, timestamp := 1000 }
    let applied ← (handle Transform.utcHost Dict.empty ⟨0, 0, clean⟩).toOption
    let page ← applied.2.head?
    some { key := page.key, value := page.value, timestamp := page.timestamp }
  else none

theorem fromPipeline_of_fedEdit {title dt : String} (h : fedEdit title dt = some r) :
    FromPipeline { host := Transform.utcHost } r := by
  unfold fedEdit at h
  obtain ⟨cleaned, hcleaned, h⟩ := Option.bind_eq_some_iff.mp h
  obtain ⟨out, hout, h⟩ := Option.bind_eq_some_iff.mp h
  split at h
  · next htopic =>
      obtain ⟨applied, happlied, h⟩ := Option.bind_eq_some_iff.mp h
      obtain ⟨page, hpage, h⟩ := Option.bind_eq_some_iff.mp h
      obtain rfl := Option.some.inj h
      refine ⟨_, _, applied, page, ?_, toOption_eq_some.mp happlied, List.mem_of_head? hpage, rfl, rfl⟩
      exact ⟨_, _, cleaned, out, toOption_eq_some.mp hcleaned, List.mem_of_head? hout, htopic, rfl⟩
  · exact absurd h (by simp)

/-- Two edits within a second, of which one has a fraction: the later one is shown. -/
theorem later_edit_is_shown :
    ∃ first second store, ∃ time : PageLatest → Instant, fedEdit "t" "1970-01-01T00:00:01Z" = some first ∧
      fedEdit "u" "1970-01-01T00:00:01.5Z" = some second ∧ follow Transform.utcHost [first, second] = .ok store ∧
      (store.search id [] none 1).map PageLatest.title = [lit "u"] ∧
      ShowsNewest 1 (store.pages.values.filter (isMatch id [] none)) (store.search id [] none 1) time := by
  obtain ⟨first, hfirst, hread⟩ := Option.bind_eq_some_iff.mp
    (by decide +kernel : ((fedEdit "t" "1970-01-01T00:00:01Z").bind (fun a =>
      (fedEdit "u" "1970-01-01T00:00:01.5Z").bind (fun b => (follow Transform.utcHost [a, b]).toOption.map (fun store =>
        (store.search id [] none 1).map PageLatest.title)))) = some [lit "u"])
  obtain ⟨second, hsecond, hread⟩ := Option.bind_eq_some_iff.mp hread
  obtain ⟨store, hstore, hshown⟩ := Option.map_eq_some_iff.mp hread
  have hfeed : ∀ r ∈ [first, second], FromPipeline { host := Transform.utcHost } r := by
    intro r hr
    rcases List.mem_cons.mp hr with rfl | hr
    · exact fromPipeline_of_fedEdit hfirst
    · obtain rfl := List.mem_singleton.mp hr
      exact fromPipeline_of_fedEdit hsecond
  obtain ⟨time, _, hnewest⟩ := (newest_pages_first { host := Transform.utcHost } id).2.2 _ _ hfeed
    (toOption_eq_some.mp hstore)
  exact ⟨first, second, store, time, hfirst, hsecond, toOption_eq_some.mp hstore, hshown,
    hnewest [] none 1 (by decide)⟩

end Pages
end Wikistream
