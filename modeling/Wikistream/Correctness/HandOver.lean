import Wikistream.Correctness.StorageAccepts
import Wikistream.Ingestor.Handle
import Wikistream.Processors.EditWarDetector
import Wikistream.Processors.PageLatest

/-!
# `Correctness.HandOver` — what one stage writes, the next one reads

`json.dumps(…, ensure_ascii=False)` writes a lone surrogate as itself, and `encode("utf-8")` refuses it. A
decoded text can have one, from an escape such as `\ud800`, and then the hand-over raises.

## Contents
- **Numbers** (`intFits_cleanEvent`): an integer of a decoded document can be read again.
- **Records** (`record_lossless_iff`): a record comes back exactly if none of its texts has a lone surrogate.
- **The result** (`hand_overs_lossless_iff`), over the four hand-overs.
-/

namespace Wikistream
namespace HandOver

open Py Models Ingestor EditWarDetector

/-! ## Numbers -/

section Numbers

variable {lim depth : Nat}

theorem fits_intOrNull {x : Option Int} (h : ∀ n ∈ x, IntFits lim n) : Fits lim (CleanEvent.intOrNull x) depth := by
  cases x with
  | none => trivial
  | some n => exact h n rfl

theorem fits_strOrNull (x : Option Str) : Fits lim (CleanEvent.strOrNull x) depth := by
  cases x <;> trivial

variable {host : Host} {raw : Obj} {payload : Payload}

/-- What `parse_raw` returns can be read again. -/
theorem fits_parseRaw (h : parseRaw host payload = .ok raw) :
    Fits host.json.maxStrDigits (.obj raw) host.json.maxDepth := by
  obtain ⟨text, _, hloads⟩ := Transform.parseRaw_eq_ok.mp h
  exact fits_of_loads hloads

theorem intFits_member {field name : String} {n : Int} (h : Fits lim (.obj raw) depth)
    (hn : Db.member raw field name = some (.int n)) : IntFits lim n := by
  unfold Db.member at hn
  split at hn
  · next members hmembers =>
      have hinner : Fits lim (.obj members) (depth - 1) := fits_lookup h.2.2 hmembers
      exact fits_lookup hinner.2.2 hn
  · exact absurd hn (by simp)

/-- The numbers of a clean event are those of the document. -/
theorem intFits_cleanEvent {event : CleanEvent} (hraw : Fits lim (.obj raw) depth)
    (h : cleanEvent host raw = .ok event) :
    IntFits lim event.pageNamespace ∧ (∀ n ∈ event.revOld, IntFits lim n) ∧ (∀ n ∈ event.revNew, IntFits lim n) ∧
      (∀ n ∈ event.lengthOld, IntFits lim n) ∧ ∀ n ∈ event.lengthNew, IntFits lim n := by
  unfold cleanEvent at h
  simp only [bind_eq_ok] at h
  obtain ⟨id, _, type, _, wiki, _, title, _, n, hn, time, _, rev, hrev, len, hlen, hevent⟩ := h
  obtain rfl := Except.ok.inj hevent
  have hnamespace : IntFits lim n := fits_lookup hraw.2.2 (Db.namespaceOf_eq_ok hn)
  have hrev := (Db.oldNew_eq_ok hrev (IntFits lim)).mpr (fun name _ m hm => intFits_member hraw hm)
  have hlen := (Db.oldNew_eq_ok hlen (IntFits lim)).mpr (fun name _ m hm => intFits_member hraw hm)
  exact ⟨hnamespace, hrev.1, hrev.2, hlen.1, hlen.2⟩

end Numbers
/-! ## Records -/

section Records

variable {host : Host}

theorem encodable_of_encodeText {s : Str} {b : Bytes} (h : encodeText s = .ok b) : Encodable s := by
  unfold encodeText at h
  by_cases hs : Encodable s
  · exact hs
  · rw [utf8Encode_of_not_encodable hs] at h
    exact absurd h (by simp)

theorem encodeText_of_encodable {s : Str} (h : Encodable s) :
    ∃ b, encodeText s = .ok b ∧ utf8Encode s = some b := by
  have hs := utf8Encode_of_encodable h
  refine ⟨s.flatMap utf8Char, ?_, hs⟩
  rw [encodeText, hs]

theorem encodable_membersTexts {d : Obj} :
    (∀ s ∈ membersTexts d, Encodable s) ↔
      (∀ k ∈ d.map Prod.fst, Encodable k) ∧ ∀ v ∈ d.map Prod.snd, ∀ s ∈ v.texts, Encodable s := by
  simp only [mem_membersTexts, List.forall_mem_map]
  constructor
  · intro h
    exact ⟨fun m hm => h m.1 ⟨m, hm, Or.inl rfl⟩, fun m hm s hs => h s ⟨m, hm, Or.inr hs⟩⟩
  · rintro ⟨hkeys, hvalues⟩ s ⟨m, hm, rfl | hs⟩
    · exact hkeys m hm
    · exact hvalues m hm s hs

section Record

variable {α : Type} {x : α} {d : Obj} {ofDict : Json → Except Exc α} {b : Bytes} (names : List String)

/-- A written record is read back. -/
theorem record_read (hofDict : ofDict (.obj d) = .ok x) (hnames : d.map Prod.fst = names.map lit)
    (hnodup : (names.map lit).Nodup) (hne : names ≠ []) (hdepth : 0 < host.json.maxDepth)
    (hfits : FitsMembers host.json.maxStrDigits d (host.json.maxDepth - 1)) (hfree : membersFloatFree d = true)
    (hb : encodeText (dumps host.floatRepr (.obj d)) = .ok b) :
    (loadsPayload host.json (.bytes b) >>= ofDict) = .ok x := by
  have hmembers : d ≠ [] := by
    rintro rfl
    exact hne (List.map_eq_nil_iff.mp hnames.symm)
  have hloads := loadsBytes_dumps_of_floatFree hmembers hfree ⟨hdepth, hnames ▸ hnodup, hfits⟩
    (utf8Encode_of_encodeText hb)
  apply bind_eq_ok.mpr
  exact ⟨.obj d, hloads, hofDict⟩

/-- **A record comes back exactly if every text in it can be encoded.** -/
theorem record_lossless_iff (hofDict : ofDict (.obj d) = .ok x) (hnames : d.map Prod.fst = names.map lit)
    (hnodup : (names.map lit).Nodup) (hascii : ∀ k ∈ names.map lit, Encodable k) (hne : names ≠ [])
    (hdepth : 0 < host.json.maxDepth)
    (hfits : FitsMembers host.json.maxStrDigits d (host.json.maxDepth - 1)) (hfree : membersFloatFree d = true) :
    (∃ b, encodeText (dumps host.floatRepr (.obj d)) = .ok b ∧
        (loadsPayload host.json (.bytes b) >>= ofDict) = .ok x) ↔
      ∀ v ∈ d.map Prod.snd, ∀ s ∈ v.texts, Encodable s := by
  have hobj : (Json.obj d).floatFree = true := hfree
  have htexts : Encodable (dumps host.floatRepr (.obj d)) ↔ ∀ v ∈ d.map Prod.snd, ∀ s ∈ v.texts, Encodable s := by
    rw [encodable_dumps_of_floatFree hobj]
    refine encodable_membersTexts.trans (and_iff_right ?_)
    rw [hnames]
    exact hascii
  rw [← htexts]
  constructor
  · rintro ⟨b, hb, _⟩
    exact encodable_of_encodeText hb
  · intro h
    obtain ⟨b, hb, _⟩ := encodeText_of_encodable h
    exact ⟨b, hb, record_read names hofDict hnames hnodup hne hdepth hfits hfree hb⟩

end Record

/-- The members of a record. -/
def recordOf : Json → Obj
  | .obj d => d
  | _ => []

theorem texts_intOrNull (x : Option Int) : (CleanEvent.intOrNull x).texts = [] := by
  cases x <;> rfl

theorem texts_strOrNull (x : Option Str) : (CleanEvent.strOrNull x).texts = x.toList := by
  cases x <;> rfl

theorem floatFree_intOrNull (x : Option Int) : (CleanEvent.intOrNull x).floatFree = true := by
  cases x <;> rfl

theorem floatFree_strOrNull (x : Option Str) : (CleanEvent.strOrNull x).floatFree = true := by
  cases x <;> rfl

/-- The event can be written, and is read back as an equal one. -/
def EventComesBack (host : Host) (event : CleanEvent) : Prop :=
  ∃ b, event.toJson host = .ok b ∧ CleanEvent.fromJson host (.bytes b) = .ok event

/-- The record of a page can be written, and is read back as an equal one. -/
def PageComesBack (host : Host) (page : PageLatest) : Prop :=
  ∃ b, page.toJson host = .ok b ∧ PageLatest.fromJson host (.bytes b) = .ok page

/-- The alert can be written, and is read back as an equal one. -/
def AlertComesBack (host : Host) (alert : EditWarAlert) : Prop :=
  ∃ b, alert.toJson host = .ok b ∧ EditWarAlert.fromJson host (.bytes b) = .ok alert

section Event

variable {event : CleanEvent} (hdepth : 0 < host.json.maxDepth)
  (hints : IntFits host.json.maxStrDigits event.pageNamespace ∧
    (∀ n ∈ event.revOld, IntFits host.json.maxStrDigits n) ∧
    (∀ n ∈ event.revNew, IntFits host.json.maxStrDigits n) ∧
    (∀ n ∈ event.lengthOld, IntFits host.json.maxStrDigits n) ∧
    ∀ n ∈ event.lengthNew, IntFits host.json.maxStrDigits n)

include hints

theorem fits_event : FitsMembers host.json.maxStrDigits (recordOf event.asDict) (host.json.maxDepth - 1) := by
  obtain ⟨hnamespace, hrevOld, hrevNew, hlengthOld, hlengthNew⟩ := hints
  exact ⟨trivial, trivial, trivial, trivial, hnamespace, trivial, trivial, trivial, trivial, trivial,
    fits_intOrNull hrevOld, fits_intOrNull hrevNew, fits_intOrNull hlengthOld, fits_intOrNull hlengthNew, trivial,
    fits_strOrNull _, fits_strOrNull _, trivial⟩

omit hints in
theorem floatFree_event : membersFloatFree (recordOf event.asDict) = true := by
  simp [recordOf, CleanEvent.asDict, membersFloatFree, Json.floatFree, floatFree_intOrNull, floatFree_strOrNull]

include hdepth

theorem event_read {b : Bytes} (hb : event.toJson host = .ok b) : CleanEvent.fromJson host (.bytes b) = .ok event :=
  record_read CleanEvent.fields (CleanEvent.ofDict_asDict event) rfl (by decide) (by decide) hdepth
    (fits_event hints) floatFree_event hb

theorem eventComesBack_iff : EventComesBack host event ↔ ∀ s ∈ event.texts, Encodable s := by
  have hrecord := record_lossless_iff CleanEvent.fields (CleanEvent.ofDict_asDict event) rfl (by decide)
    (by decide) (by decide) hdepth (fits_event hints) floatFree_event
  refine Iff.trans hrecord ?_
  simp [Json.texts, texts_intOrNull, texts_strOrNull, CleanEvent.texts, or_imp, forall_and]

end Event

section Page

variable {page : PageLatest} (hdepth : 0 < host.json.maxDepth)
  (hrevId : ∀ n ∈ page.revId, IntFits host.json.maxStrDigits n)
  (hlength : ∀ n ∈ page.length, IntFits host.json.maxStrDigits n)

include hrevId hlength

theorem fits_page : FitsMembers host.json.maxStrDigits (recordOf page.asDict) (host.json.maxDepth - 1) :=
  ⟨trivial, trivial, trivial, trivial, trivial, trivial, trivial, trivial, trivial, trivial, fits_intOrNull hrevId,
    fits_intOrNull hlength, trivial⟩

omit hrevId hlength in
theorem floatFree_page : membersFloatFree (recordOf page.asDict) = true := by
  simp [recordOf, PageLatest.asDict, membersFloatFree, Json.floatFree, floatFree_intOrNull]

include hdepth

theorem page_read {b : Bytes} (hb : page.toJson host = .ok b) : PageLatest.fromJson host (.bytes b) = .ok page :=
  record_read PageLatest.fields (PageLatest.ofDict_asDict page) rfl (by decide) (by decide) hdepth
    (fits_page hrevId hlength) floatFree_page hb

theorem pageComesBack_iff : PageComesBack host page ↔ ∀ s ∈ page.texts, Encodable s := by
  have hrecord := record_lossless_iff PageLatest.fields (PageLatest.ofDict_asDict page) rfl (by decide)
    (by decide) (by decide) hdepth (fits_page hrevId hlength) floatFree_page
  refine Iff.trans hrecord ?_
  simp [Json.texts, texts_intOrNull, PageLatest.texts]

end Page

theorem itemsTexts_map (texts : List Str) : itemsTexts (texts.map Json.str) = texts := by
  induction texts with
  | nil => rfl
  | cons s texts ih =>
      rw [List.map_cons, itemsTexts, ih]
      rfl

theorem fitsItems_map {lim depth : Nat} (texts : List Str) : FitsItems lim (texts.map Json.str) depth := by
  apply fitsItems_iff.mpr
  intro v hv
  obtain ⟨s, _, rfl⟩ := List.mem_map.mp hv
  trivial

theorem floatFree_map (texts : List Str) : itemsFloatFree (texts.map Json.str) = true := by
  induction texts with
  | nil => rfl
  | cons s texts ih => exact ih

/-- Only a number with few enough digits is read. -/
theorem intFits_alert {alert : EditWarAlert} {b : Bytes} (h : EditWarAlert.fromJson host (.bytes b) = .ok alert) :
    IntFits host.json.maxStrDigits alert.revertCount := by
  obtain ⟨v, hloads, h⟩ := bind_eq_ok.mp h
  have hfits := fits_of_loadsBytes hloads
  unfold EditWarAlert.ofDict at h
  simp only [bind_eq_ok] at h
  obtain ⟨_, _, _, _, d, hd, _, _, _, _, _, _, n, hn, _, _, _, _, _, _, _, _, halert⟩ := h
  obtain rfl := Except.ok.inj halert
  obtain rfl := keywords_eq_ok hd
  obtain ⟨u, hlookup, hcount⟩ := argument_eq_ok.mp hn
  unfold EditWarAlert.asCount at hcount
  split at hcount
  · next m =>
      split at hcount
      · next hpos =>
          obtain rfl := Option.some.inj hcount
          have hm : IntFits host.json.maxStrDigits m := fits_lookup hfits.2.2 hlookup
          dsimp only
          rwa [Int.toNat_of_nonneg hpos]
      · exact absurd hcount (by simp)
  · exact absurd hcount (by simp)

theorem alertComesBack_iff (hdepth : 2 ≤ host.json.maxDepth) {alert : EditWarAlert} :
    AlertComesBack host alert ↔
      IntFits host.json.maxStrDigits alert.revertCount ∧ ∀ s ∈ alert.texts, Encodable s := by
  have hiff : IntFits host.json.maxStrDigits alert.revertCount →
      (AlertComesBack host alert ↔ ∀ s ∈ alert.texts, Encodable s) := by
    intro hcount
    have hroom : 0 < host.json.maxDepth - 1 := by omega
    have hfits : FitsMembers host.json.maxStrDigits (recordOf alert.asDict) (host.json.maxDepth - 1) :=
      ⟨trivial, trivial, trivial, hcount, ⟨hroom, fitsItems_map _⟩, ⟨hroom, fitsItems_map _⟩, trivial, trivial,
        trivial⟩
    have hfree : membersFloatFree (recordOf alert.asDict) = true := by
      simp [recordOf, EditWarAlert.asDict, membersFloatFree, Json.floatFree, floatFree_map]
    have hrecord := record_lossless_iff EditWarAlert.fields (EditWarAlert.ofDict_asDict alert) rfl
      (by decide) (by decide) (by decide) (by omega) hfits hfree
    refine Iff.trans hrecord ?_
    simp [Json.texts, itemsTexts_map, EditWarAlert.texts, or_imp, forall_and]
    tauto
  constructor
  · -- what came back was parsed, so its numbers have few enough digits
    intro h
    have hcount : IntFits host.json.maxStrDigits alert.revertCount := by
      obtain ⟨b, _, hb⟩ := h
      exact intFits_alert hb
    exact ⟨hcount, (hiff hcount).mp h⟩
  · rintro ⟨hcount, h⟩
    exact (hiff hcount).mpr h

end Records

/-! ## Raw events -/

section Raw

variable {host : Host}

/-- The id is one of the texts. -/
theorem mem_texts_eventIdOf {raw : Obj} {id : Str} (h : eventIdOf raw = .ok id) : id ∈ (Json.obj raw).texts := by
  have hid := Db.eventIdOf_eq_ok h
  unfold Db.member at hid
  split at hid
  · next members hmembers =>
      have hmem : id ∈ membersTexts members :=
        mem_membersTexts.mpr ⟨_, mem_of_lookup hid, Or.inr (List.mem_singleton_self id)⟩
      exact mem_membersTexts.mpr ⟨_, mem_of_lookup hmembers, Or.inr hmem⟩
  · exact absurd hid (by simp)

/-- The message goes out; its key is the id, and its value is parsed as the same document. -/
def ComesThrough (host : Host) (url failedAt : Str) (event : SSEEvent) (raw : Obj) (id : Str) : Prop :=
  ∃ key value raw', handle host url failedAt event = .ok (some (.raw key value)) ∧ utf8Decode key = some id ∧
    parseRaw host (.bytes value) = .ok raw' ∧ Same host.floatRepr (.obj raw) (.obj raw')

theorem comesThrough_iff (hfloat : ReadsFloats host.json.maxStrDigits host.floatRepr) {url failedAt : Str}
    {event : SSEEvent} {raw : Obj} {id : Str} (hevent : event.event ≠ lit "error")
    (h : readEvent host event.data = .ok (raw, id)) :
    ComesThrough host url failedAt event raw id ↔ ∀ s ∈ (Json.obj raw).texts, Encodable s := by
  have hhandle : handle host url failedAt event = (rawMessage host raw id).map some := by
    unfold handle
    rw [if_neg hevent, h]
  obtain ⟨raw', hraw, h⟩ := bind_eq_ok.mp h
  obtain ⟨id', hid, h⟩ := bind_eq_ok.mp h
  obtain ⟨rfl, rfl⟩ := Prod.mk.inj (Except.ok.inj h)
  rw [← encodable_dumps hfloat]
  constructor
  · -- both the key and the value that were sent have bytes
    rintro ⟨key, value, _, hsent, _⟩
    rw [hhandle] at hsent
    obtain ⟨sent, hsent, _⟩ := map_eq_ok.mp hsent
    obtain ⟨_, _, hsent⟩ := bind_eq_ok.mp hsent
    obtain ⟨b, hb, _⟩ := bind_eq_ok.mp hsent
    exact encodable_of_encodeText hb
  · intro hdumps
    have hkey : Encodable id' := (encodable_dumps hfloat _).mp hdumps id' (mem_texts_eventIdOf hid)
    obtain ⟨key, hkey, hkeyBytes⟩ := encodeText_of_encodable hkey
    obtain ⟨value, hvalue, hvalueBytes⟩ := encodeText_of_encodable hdumps
    -- what was parsed once is printed so that it is parsed again
    obtain ⟨w, hsame, hloads⟩ := loads_dumps hfloat (fits_parseRaw hraw)
    obtain ⟨raw'', rfl, _⟩ := id hsame
    refine ⟨key, value, raw'', ?_, utf8Decode_encode hkeyBytes, ?_, hsame⟩
    · rw [hhandle]
      apply map_eq_ok.mpr
      refine ⟨.raw key value, ?_, rfl⟩
      apply bind_eq_ok.mpr
      refine ⟨key, hkey, ?_⟩
      apply bind_eq_ok.mpr
      exact ⟨value, hvalue, rfl⟩
    · apply Transform.parseRaw_eq_ok.mpr
      exact ⟨_, utf8Decode_encode hvalueBytes, hloads⟩

end Raw

/-! ## The result -/

/-- **When the hand-overs are lossless.** What one stage sends is read back by the next one exactly if no
    text in it has a lone surrogate; the id of an event is always the key of its message. -/
theorem hand_overs_lossless_iff {host : Host} (hfloat : ReadsFloats host.json.maxStrDigits host.floatRepr)
    (hdepth : 2 ≤ host.json.maxDepth) :
    (∀ url failedAt event raw id, event.event ≠ lit "error" → readEvent host event.data = .ok (raw, id) →
      (ComesThrough host url failedAt event raw id ↔ ∀ s ∈ (Json.obj raw).texts, Encodable s)) ∧
    (∀ payload raw event, parseRaw host payload = .ok raw → cleanEvent host raw = .ok event →
      (EventComesBack host event ↔ ∀ s ∈ event.texts, Encodable s) ∧
      (PageComesBack host (.fromEvent host event) ↔
        ∀ s ∈ (PageLatest.fromEvent host event).texts, Encodable s)) ∧
    ∀ cfg det event timeMs alert det', observe cfg host det event timeMs = (.ok (some alert), det') →
      (AlertComesBack host alert ↔
        IntFits host.json.maxStrDigits alert.revertCount ∧ ∀ s ∈ alert.texts, Encodable s) := by
  refine ⟨?_, ?_, ?_⟩
  · intro url failedAt event raw id hevent h
    exact comesThrough_iff hfloat hevent h
  · intro payload raw event hraw hevent
    have hints := intFits_cleanEvent (fits_parseRaw hraw) hevent
    have hroom : 0 < host.json.maxDepth := by omega
    exact ⟨eventComesBack_iff hroom hints, pageComesBack_iff hroom hints.2.2.1 hints.2.2.2.2⟩
  · intro cfg det event timeMs alert det' _
    exact alertComesBack_iff hdepth

/-- A host whose floats are all zero. -/
def zeroHost : Host := { Transform.utcHost with floatRepr := zeroText }

/-- An event without surrogates. -/
def plainEvent : SSEEvent where
  data := lit "\x7b\"meta\":\x7b\"id\":\"a\"\x7d,\"x\":0.0\x7d"
  eventId := none

theorem plain_event_comes_through :
    ∃ raw, readEvent zeroHost plainEvent.data = .ok (raw, lit "a") ∧
      ComesThrough zeroHost [] [] plainEvent raw (lit "a") := by
  have hread : (readEvent zeroHost plainEvent.data).map
      (fun r : Obj × Str => (r.2, decide (∀ s ∈ membersTexts r.1, Encodable s))) = .ok (lit "a", true) := by
    decide +kernel
  obtain ⟨⟨raw, id⟩, hraw, h⟩ := map_eq_ok.mp hread
  obtain ⟨rfl, htexts⟩ := Prod.mk.inj h
  refine ⟨raw, hraw, ?_⟩
  exact ((@hand_overs_lossless_iff zeroHost (readsFloats_zeroText _) (by decide)).1 [] [] plainEvent raw _ (by decide)
    hraw).mpr (of_decide_eq_true htexts)

/-- An event with an escaped lone surrogate. -/
def surrogateEvent : SSEEvent where
  data := lit "\x7b\"meta\":\x7b\"id\":\"a\"\x7d,\"x\":\"\\ud800\"\x7d"
  eventId := none

/-- The id is extracted, and then the message cannot be encoded. -/
theorem surrogate_event_raises :
    (∃ raw, readEvent zeroHost surrogateEvent.data = .ok (raw, lit "a")) ∧
      handle zeroHost [] [] surrogateEvent = .error .unicodeEncodeError := by
  have hread : (readEvent zeroHost surrogateEvent.data).map Prod.snd = .ok (lit "a") := by decide +kernel
  obtain ⟨⟨raw, id⟩, hraw, rfl⟩ := map_eq_ok.mp hread
  exact ⟨⟨raw, hraw⟩, by decide +kernel⟩

end HandOver
end Wikistream
