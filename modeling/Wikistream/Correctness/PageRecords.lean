import Wikistream.Correctness.HandOver
import Wikistream.Processors.PageState

/-!
# `Correctness.PageRecords` — what page state writes can be read

The readers of wiki.page-latest decode the key of a record and the page in its value. The records that
`PageState.handle` writes can all be read, and carry the time of their event.

## Contents
- **Numbers** (`intFits_event`): what was decoded once can be decoded again.
- **Readable records** (`Reads`), and that page state writes such (`AsWritten.reads`).
-/

namespace Wikistream
namespace PageState

open Py Lib Models Transactional

variable {host : Host} {payload : Payload} {event : CleanEvent} {r : KafkaRecord} {key : Str} {page : Option PageLatest}

/-! ## Numbers -/

theorem fits_of_loadsPayload {v : Json} (h : loadsPayload host.json payload = .ok v) :
    Fits host.json.maxStrDigits v host.json.maxDepth := by
  cases payload with
  | none => exact absurd h (by simp [loadsPayload])
  | str s => exact fits_of_loads h
  | bytes b => exact fits_of_loadsBytes h

theorem intFits_orNull {d : Obj} {depth : Nat} {name : String} {x : Option Int}
    (hfits : FitsMembers host.json.maxStrDigits d depth)
    (h : argument (orNull asInt) d name = .ok x) :
    ∀ n ∈ x, IntFits host.json.maxStrDigits n := by
  obtain ⟨u, hlookup, hread⟩ := argument_eq_ok.mp h
  intro n hn
  obtain rfl := Option.mem_def.mp hn
  cases u with
  | int m =>
      obtain rfl : m = n := by simpa [orNull, asInt] using hread
      exact fits_lookup hfits hlookup
  | _ => exact absurd hread (by simp [orNull, asInt])

/-- Only an object with numbers of few enough digits is read. -/
theorem intFits_event (h : CleanEvent.fromJson host payload = .ok event) :
    0 < host.json.maxDepth ∧ (∀ n ∈ event.revNew, IntFits host.json.maxStrDigits n) ∧
      ∀ n ∈ event.lengthNew, IntFits host.json.maxStrDigits n := by
  obtain ⟨v, hloads, h⟩ := bind_eq_ok.mp h
  have hfits := fits_of_loadsPayload hloads
  unfold CleanEvent.ofDict at h
  simp only [bind_eq_ok] at h
  obtain ⟨d, hd, _, _, _, _, _, _, _, _, _, _, _, _, _, _, _, _, _, _, _, _, _, _, revNew, hrev, _, _, lengthNew,
    hlength, _, _, _, _, _, _, hevent⟩ := h
  obtain rfl := Except.ok.inj hevent
  obtain rfl := keywords_eq_ok hd
  exact ⟨hfits.1, intFits_orNull hfits.2.2 hrev, intFits_orNull hfits.2.2 hlength⟩

/-! ## Readable records -/

/-- A record as `handle` hands it to the producer. -/
def AsWritten (host : Host) (r : KafkaRecord) : Prop :=
  ∃ guards m result out, handle host guards m = .ok result ∧ out ∈ result.2 ∧ r.key = out.key ∧
    r.value = out.value ∧ r.timestamp = out.timestamp

/-- The record is that of the page `key`, or its tombstone, and says when. -/
structure Reads (host : Host) (r : KafkaRecord) (key : Str) (page : Option PageLatest) : Prop where
  key : ∃ k, r.key = some k ∧ k ≠ [] ∧ utf8Decode k = some key ∧ utf8Encode key = some k
  value : r.value = none ∧ page = none ∨
    ∃ b pg, r.value = some b ∧ page = some pg ∧ PageLatest.fromJson host (.bytes b) = .ok pg
  time : timeOfRecord host r.value r.timestamp = .ok r.timestamp

theorem updateOf_eq_some {timeMs : Int} (h : updateOf host r = some (key, page, timeMs)) :
    ∃ event, CleanEvent.fromJson host r.payload = .ok event ∧ PageLatest.pageUpdate host event = some (key, page) ∧
      PageLatest.eventMs host event.eventTime = .ok timeMs := by
  unfold updateOf at h
  split at h
  · exact absurd h (by simp)
  · next event hevent =>
      split at h
      · next hupdate htime =>
          obtain ⟨rfl, rfl, rfl⟩ : _ = key ∧ _ = page ∧ _ = timeMs := by simpa using h
          exact ⟨event, hevent, hupdate, htime⟩
      · exact absurd h (by simp)

theorem pageUpdate_eq_some (h : PageLatest.pageUpdate host event = some (key, page)) :
    key = event.pageKey ∧ (page = none ∨ page = some (PageLatest.fromEvent host event)) := by
  unfold PageLatest.pageUpdate at h
  split at h
  · obtain ⟨rfl, rfl⟩ : _ = key ∧ _ = page := by simpa using h
    exact ⟨rfl, Or.inr rfl⟩
  · split at h
    · obtain ⟨rfl, rfl⟩ : _ = key ∧ _ = page := by simpa using h
      exact ⟨rfl, Or.inl rfl⟩
    · exact absurd h (by simp)

/-- The record of an update can be read. -/
theorem reads_outputOf {timeMs : Int} {out : Produced} (hevent : CleanEvent.fromJson host payload = .ok event)
    (hupdate : PageLatest.pageUpdate host event = some (key, page))
    (htime : PageLatest.eventMs host event.eventTime = .ok timeMs) (hout : outputOf host key page timeMs = .ok out)
    (hkey : r.key = out.key) (hvalue : r.value = out.value) (hstamp : r.timestamp = out.timestamp) :
    Reads host r key page := by
  obtain ⟨_, hms, ⟨k, hk, houtKey⟩, hrecord⟩ := outputOf_eq_ok hout
  obtain ⟨rfl, hpage⟩ := pageUpdate_eq_some hupdate
  have hdecode := decode_encodeText hk
  refine ⟨⟨k, hkey.trans houtKey, ?_, hdecode, utf8Encode_of_encodeText hk⟩, ?_, ?_⟩
  · -- the key of a page has a colon in it
    rintro rfl
    have hempty : utf8Decode [] = some [] := rfl
    exact absurd (Option.some.inj (hdecode.symm.trans hempty)) (by simp [CleanEvent.pageKey])
  · rcases hrecord with ⟨rfl, hnone⟩ | ⟨pg, b, rfl, hb, hsome⟩
    · exact Or.inl ⟨hvalue.trans hnone, rfl⟩
    · obtain ⟨hdepth, hrevNew, hlengthNew⟩ := intFits_event hevent
      obtain rfl : pg = PageLatest.fromEvent host event := by simpa using hpage
      exact Or.inr ⟨b, _, hvalue.trans hsome, rfl, HandOver.page_read hdepth hrevNew hlengthNew hb⟩
  · rw [hvalue, hstamp, hms]
    rcases hrecord with ⟨rfl, hnone⟩ | ⟨pg, b, rfl, hb, hsome⟩
    · rw [hnone]
      rfl
    · obtain ⟨hdepth, hrevNew, hlengthNew⟩ := intFits_event hevent
      obtain rfl : pg = PageLatest.fromEvent host event := by simpa using hpage
      have hread := HandOver.page_read hdepth hrevNew hlengthNew hb
      have hvalueTime : valueTime host b = .ok timeMs :=
        bind_eq_ok.mpr ⟨_, PageLatest.eventTimeIn_of_fromJson hread, htime⟩
      rw [hsome]
      simp only [timeOfRecord, hvalueTime]

/-- **What page state writes can be read.** -/
theorem AsWritten.reads (h : AsWritten host r) : ∃ key page, Reads host r key page := by
  obtain ⟨guards, m, result, out, hhandle, hout, hkey, hvalue, hstamp⟩ := h
  obtain ⟨key, record, timeMs, hupdate, _, hout⟩ := exists_update_of_mem hhandle hout
  obtain ⟨event, hevent, hpage, htime⟩ := updateOf_eq_some hupdate
  exact ⟨key, record, reads_outputOf hevent hpage htime hout hkey hvalue hstamp⟩

end PageState
end Wikistream
