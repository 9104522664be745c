import Wikistream.Correctness.OneOutcome
import Wikistream.Sinks.Db

/-!
# `Correctness.StorageAccepts` — which valid events the edits table takes

`clean_event` asks of a number only that it is an `int`, and of a text at most that it is not empty. The
columns of `edits` ask more: a 32-bit or 64-bit range, and no NUL character. A lone surrogate, which JSON can name,
never gets as far as the columns.

## Contents
- **Reading a document** (`member`, `FitsColumns`): the condition, on the decoded document alone.
- **Texts** (`fitsText_textOf`, `fitsText_title`): normalising a text neither adds nor removes such a character.
- **The result** (`storable_iff`): the rows of a batch are stored exactly if every document meets the
  condition.
-/

namespace Wikistream
namespace Db

open Py Models Transform

/-! ## Reading a document -/

/-- `raw[field][name]`, where `raw[field]` is an object. -/
def member (raw : Obj) (field name : String) : Option Json :=
  match lookup raw (lit field) with
  | some (.obj members) => lookup members (lit name)
  | _ => none

/-- The numbers and texts of the document that end up in `edits` fit their columns. -/
structure FitsColumns (raw : Obj) : Prop where
  id : ∀ s, member raw "meta" "id" = some (.str s) → FitsText s
  texts : ∀ field ∈ ["wiki", "title", "user", "comment", "server_name"], ∀ s,
    lookup raw (lit field) = some (.str s) → FitsText s
  pageNamespace : ∀ n, lookup raw (lit "namespace") = some (.int n) → FitsBits 32 n
  lengths : ∀ name ∈ ["old", "new"], ∀ n, member raw "length" name = some (.int n) → FitsBits 32 n
  revisions : ∀ name ∈ ["old", "new"], ∀ n, member raw "revision" name = some (.int n) → FitsBits 64 n

/-- `repr` of anything but a string has no such character: it escapes those of the strings inside. -/
def ReprFitsText (host : Host) : Prop := ∀ v, (∀ s, v ≠ .str s) → FitsText (host.repr v)

variable {host : Host} {raw : Obj}

/-! ## Texts -/

theorem isSpace_of_refused {c : Chr} (hc : refused c = true) : isSpace c = false := by
  rw [Bool.eq_false_iff]
  intro hspace
  simp only [refused, isSurrogate, isSpace, Bool.or_eq_true, Bool.and_eq_true, decide_eq_true_eq,
    beq_iff_eq] at hc hspace
  omega

/-- Two texts with the same refused characters. -/
theorem fitsText_congr {s t : Str} (h : ∀ c, refused c = true → (c ∈ s ↔ c ∈ t)) : FitsText s ↔ FitsText t := by
  unfold FitsText
  simp only [List.any_eq_false]
  constructor
  · intro hs c hc hrefused
    exact hs c ((h c hrefused).mpr hc) hrefused
  · intro ht c hc hrefused
    exact ht c ((h c hrefused).mp hc) hrefused

theorem fitsText_strip (s : Str) : FitsText (strip s) ↔ FitsText s :=
  fitsText_congr (fun _ hc => mem_strip (isSpace_of_refused hc))

/-- Collapsing blanks keeps every refused character. -/
theorem fitsText_title (s : Str) : FitsText (join (lit " ") (splitWords s)) ↔ FitsText s := by
  refine fitsText_congr (fun c hc => ?_)
  have hspace := isSpace_of_refused hc
  have hsep : c ∉ lit " " := by
    intro hmem
    obtain rfl : c = chr ' ' := by simpa [lit, chr] using hmem
    exact absurd hspace (by decide)
  rw [mem_join hsep, splitWords, mem_splitFrom hspace]
  simp

/-- `str(raw.get(field) or "")` fits exactly if the field is no string or one that fits. -/
theorem fitsText_textOf (hrepr : ReprFitsText host) (field : String) :
    FitsText (textOf host raw field) ↔ ∀ s, lookup raw (lit field) = some (.str s) → FitsText s := by
  unfold textOf
  have hempty : FitsText [] := rfl
  cases hv : lookup raw (lit field) with
  | none => exact iff_of_true hempty (fun s hs => absurd hs (by simp))
  | some v =>
      cases v with
      | str s =>
          have hsame : strOf host (orElse (some (.str s)) (.str [])) = s := by
            cases s <;> rfl
          rw [hsame]
          simp
      | _ =>
          refine iff_of_true ?_ (fun s hs => absurd hs (by simp))
          unfold orElse
          dsimp only
          split
          · exact hrepr _ (by simp)
          · exact hempty

/-! ## What a clean event is made of -/

theorem member_of_obj {field : String} {members : Obj} (h : lookup raw (lit field) = some (.obj members))
    (name : String) : member raw field name = lookup members (lit name) := by
  unfold member
  rw [h]

theorem eventIdOf_eq_ok {id : Str} (h : eventIdOf raw = .ok id) : member raw "meta" "id" = some (.str id) := by
  unfold eventIdOf at h
  split at h
  · next info hinfo =>
      rw [member_of_obj hinfo]
      split at h
      · next id' hid =>
          split at h
          · exact absurd h (by simp [parseError])
          · exact Except.ok.inj h ▸ hid
      · exact absurd h (by simp [parseError])
      · exact absurd h (by simp [parseError])
  · exact absurd h (by simp [parseError])

theorem wikiOf_eq_ok {wiki : Str} (h : wikiOf raw = .ok wiki) : lookup raw (lit "wiki") = some (.str wiki) := by
  unfold wikiOf at h
  split at h
  · next w hw =>
      split at h
      · exact absurd h (by simp [parseError])
      · exact Except.ok.inj h ▸ hw
  · exact absurd h (by simp [parseError])

theorem titleOf_eq_ok {title : Str} (h : titleOf raw = .ok title) :
    lookup raw (lit "title") = some (.str title) := by
  unfold titleOf at h
  split at h
  · next t ht =>
      split at h
      · exact absurd h (by simp [parseError])
      · exact Except.ok.inj h ▸ ht
  · exact absurd h (by simp [parseError])

theorem namespaceOf_eq_ok {n : Int} (h : namespaceOf raw = .ok n) :
    lookup raw (lit "namespace") = some (.int n) := by
  unfold namespaceOf at h
  split at h
  · next m hm => exact Except.ok.inj h ▸ hm
  · exact absurd h (by simp [parseError])

theorem eventTypeOf_eq_ok {type : Str} (h : eventTypeOf host raw = .ok type) : type ∈ eventTypes := by
  unfold eventTypeOf at h
  split at h
  · exact absurd h (by simp)
  · exact absurd h (by simp)
  · split at h
    · next hs => exact Except.ok.inj h ▸ hs
    · exact absurd h (by simp [parseError])
  · exact absurd h (by simp [parseError])
  · exact absurd h (by simp [parseError])

/-- An optional number is one exactly if the member is. -/
theorem optionalInt_eq_ok {v : Option Json} {r : Option Int} (h : optionalInt v = .ok r) (n : Int) :
    n ∈ r ↔ v = some (.int n) := by
  unfold optionalInt at h
  split at h
  · obtain rfl := Except.ok.inj h
    simp
  · obtain rfl := Except.ok.inj h
    simp
  · obtain rfl := Except.ok.inj h
    simp [eq_comm]
  · exact absurd h (by simp [parseError])

theorem lookup_membersOf {field : String} {members : Obj} (h : membersOf raw field = .ok members)
    (name : String) : lookup members (lit name) = member raw field name := by
  rcases membersOf_cases raw field with ⟨_, ms, hms, hl⟩ | ⟨_, herr⟩
  · obtain rfl := Except.ok.inj (hms.symm.trans h)
    rcases hl with hl | ⟨rfl, hempty⟩
    · exact (member_of_obj hl name).symm
    · unfold member
      split
      · next m hm =>
          obtain rfl := hempty m hm
          rfl
      · rfl
  · exact absurd (herr.symm.trans h) (by simp)

/-- What holds of the numbers in `old` and `new` holds of those in the document. -/
theorem oldNew_eq_ok {field : String} {r : Option Int × Option Int} (h : oldNew raw field = .ok r)
    (P : Int → Prop) :
    ((∀ n ∈ r.1, P n) ∧ ∀ n ∈ r.2, P n) ↔
      ∀ name ∈ ["old", "new"], ∀ n, member raw field name = some (.int n) → P n := by
  unfold oldNew at h
  obtain ⟨members, hm, h⟩ := bind_eq_ok.mp h
  obtain ⟨old, hold, h⟩ := bind_eq_ok.mp h
  obtain ⟨new, hnew, h⟩ := bind_eq_ok.mp h
  obtain rfl := Except.ok.inj h
  rw [lookup_membersOf hm] at hold hnew
  simp only [optionalInt_eq_ok hold, optionalInt_eq_ok hnew]
  simp

/-! ## The result -/

/-- **When the row of a valid event fits its table.** -/
theorem storable_cleanEvent (hrepr : ReprFitsText host) {event : CleanEvent} (h : cleanEvent host raw = .ok event) :
    Storable (asRow host event) ↔ FitsColumns raw := by
  obtain ⟨d, hutc, htime⟩ := utc_of_cleanEvent h
  have hreadable : event.eventTime.any isSurrogate = false ∧ (fromisoformat event.eventTime).isOk = true := by
    rw [htime, fromisoformat_isoformat hutc]
    refine ⟨List.any_eq_false.mpr (fun c hc => ?_), rfl⟩
    have hascii := DateTime.isoformat_ascii hutc c hc
    simp only [isSurrogate, Bool.and_eq_true, decide_eq_true_eq]
    omega
  rw [storable_asRow]
  unfold cleanEvent at h
  simp only [bind_eq_ok] at h
  obtain ⟨id, hid, type, htype, wiki, hwiki, title, htitle, n, hn, time, _, rev, hrev, len, hlen, hevent⟩ := h
  obtain rfl := Except.ok.inj hevent
  have hid := eventIdOf_eq_ok hid
  have hwiki := wikiOf_eq_ok hwiki
  have htitle := titleOf_eq_ok htitle
  have hn := namespaceOf_eq_ok hn
  -- the type is one of four fixed texts
  have htype : FitsText type := by
    have hall : ∀ t ∈ eventTypes, FitsText t := by decide
    exact hall type (eventTypeOf_eq_ok htype)
  have hrev := oldNew_eq_ok hrev (FitsBits 64)
  have hlen := oldNew_eq_ok hlen (FitsBits 32)
  have huser := @fitsText_textOf host raw hrepr "user"
  have hcomment := @fitsText_textOf host raw hrepr "comment"
  have hserver := @fitsText_textOf host raw hrepr "server_name"
  dsimp only at hreadable ⊢
  -- what is left are the fields that come from the document
  rw [fitsText_title, fitsText_strip, huser, hcomment, hserver]
  constructor
  · rintro ⟨hid', hwiki', htitle', _, hn', huser', hcomment', _, hro, hrn, hlo, hln, hserver'⟩
    refine ⟨?_, ?_, ?_, hlen.mp ⟨hlo, hln⟩, hrev.mp ⟨hro, hrn⟩⟩
    · intro s hs
      rw [hid] at hs
      obtain rfl := Json.str.inj (Option.some.inj hs)
      exact hid'
    · intro field hfield s hs
      simp only [List.mem_cons, List.not_mem_nil, or_false] at hfield
      rcases hfield with rfl | rfl | rfl | rfl | rfl
      · rw [hwiki] at hs
        obtain rfl := Json.str.inj (Option.some.inj hs)
        exact hwiki'
      · rw [htitle] at hs
        obtain rfl := Json.str.inj (Option.some.inj hs)
        exact htitle'
      · exact huser' s hs
      · exact hcomment' s hs
      · exact hserver' s hs
    · intro m hm
      rw [hn] at hm
      obtain rfl := Json.int.inj (Option.some.inj hm)
      exact hn'
  · intro hfits
    obtain ⟨hro, hrn⟩ := hrev.mpr hfits.revisions
    obtain ⟨hlo, hln⟩ := hlen.mpr hfits.lengths
    exact ⟨hfits.id _ hid, hfits.texts "wiki" (by simp) _ hwiki, hfits.texts "title" (by simp) _ htitle, htype,
      hfits.pageNamespace _ hn, hfits.texts "user" (by simp), hfits.texts "comment" (by simp), hreadable,
      hro, hrn, hlo, hln, hfits.texts "server_name" (by simp)⟩

/-- **A batch of valid events is stored exactly if all their documents fit the columns**, whatever is in the
    table; a batch that is not stored now is not stored on any later attempt either. -/
theorem storable_iff (host : Host) (hrepr : ReprFitsText host) (table : List (List SqlValue))
    (batch : List (Obj × CleanEvent)) (h : ∀ x ∈ batch, cleanEvent host x.1 = .ok x.2) :
    (insertEdits host table (batch.map Prod.snd)).isSome = true ↔ ∀ x ∈ batch, FitsColumns x.1 := by
  rw [insertEdits_isSome, List.forall_mem_map]
  exact forall_congr' (fun x => forall_congr' (fun hx => storable_cleanEvent hrepr (h x hx)))

/-- A document with the given namespace. -/
def docInNamespace (n : Int) : Obj :=
  [(lit "meta", .obj [(lit "id", .str (lit "a"))]), (lit "type", .str (lit "edit")), (lit "wiki", .str (lit "w")),
    (lit "title", .str (lit "T")), (lit "namespace", .int n), (lit "timestamp", .int 1)]

/-- The event of the document. -/
def eventInNamespace (n : Int) : CleanEvent :=
  { eventId := lit "a", wiki := lit "w", title := lit "T", type := lit "edit", pageNamespace := n, user := []
    bot := false, minor := false, comment := [], eventTime := lit "1970-01-01T00:00:01+00:00"
    revOld := none, revNew := none, lengthOld := none, lengthNew := none, serverName := [] }

/-- A talk page fits. -/
theorem talk_page_fits : FitsColumns (docInNamespace 1) := by
  have hevent : cleanEvent utcHost (docInNamespace 1) = .ok (eventInNamespace 1) := by decide +kernel
  have hstored : (insertEdits utcHost [] [eventInNamespace 1]).isSome = true := by decide +kernel
  have hall : ∀ x ∈ [(docInNamespace 1, eventInNamespace 1)], FitsColumns x.1 :=
    (storable_iff utcHost (fun _ _ => rfl) [] _ (by simpa using hevent)).mp hstored
  exact hall _ (List.mem_singleton_self _)

/-- The validator lets a namespace of 2^31 pass, and no column takes it. -/
theorem namespace_out_of_range :
    cleanEvent utcHost (docInNamespace (2 ^ 31)) = .ok (eventInNamespace (2 ^ 31)) ∧
      ∀ table, insertEdits utcHost table [eventInNamespace (2 ^ 31)] = none := by
  refine ⟨by decide +kernel, fun table => ?_⟩
  have hnot : ¬ Storable (asRow utcHost (eventInNamespace (2 ^ 31))) := by decide +kernel
  unfold insertEdits
  dsimp only
  rw [if_neg]
  intro hall
  exact hnot (hall _ (List.mem_singleton_self _))

end Db
end Wikistream
