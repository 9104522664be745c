import Wikistream.Processors.Transform

/-!
# `Correctness.OneOutcome` — which payloads `transform` turns into an outcome

`transform` turns a `ParseError` into a `Rejected` and lets every other exception out. Whether one can
come up is decided by the payload alone: this file spells the condition out on the decoded document.

## Contents
- **Reading a document** (`HasId`, `KnownType`, …): when each part of `clean_event` succeeds.
- **`Harmless`**: no part that is reached can raise anything but `ParseError`.
- **The result** (`one_outcome_iff`), and a document that is not harmless (`unhashable_type_raises`).
-/

namespace Wikistream
namespace Transform

open Py Models Dedup

/-! ## Reading a document -/

/-- `meta.id` is a non-empty string. -/
def HasId (raw : Obj) : Prop :=
  ∃ info id, lookup raw (lit "meta") = some (.obj info) ∧ lookup info (lit "id") = some (.str id) ∧ id ≠ []

/-- `type` can be looked up in a set. -/
def HashableType (raw : Obj) : Prop :=
  (∀ items, lookup raw (lit "type") ≠ some (.arr items)) ∧
    ∀ members, lookup raw (lit "type") ≠ some (.obj members)

def KnownType (raw : Obj) : Prop := ∃ s ∈ eventTypes, lookup raw (lit "type") = some (.str s)

/-- `wiki` is a non-empty string and `title` one that is not blank. -/
def HasPage (raw : Obj) : Prop :=
  (∃ wiki, lookup raw (lit "wiki") = some (.str wiki) ∧ wiki ≠ []) ∧
    ∃ title, lookup raw (lit "title") = some (.str title) ∧ strip title ≠ []

def HasNamespace (raw : Obj) : Prop := ∃ n, lookup raw (lit "namespace") = some (.int n)

/-- `meta.dt` is a string that `fromisoformat` reads as `parsed`. -/
def HasDt (raw : Obj) (parsed : DateTime) : Prop :=
  ∃ info dt, lookup raw (lit "meta") = some (.obj info) ∧ lookup info (lit "dt") = some (.str dt) ∧
    fromisoformat (replaceChr (chr 'Z') (lit "+00:00") dt) = .ok parsed

/-- `meta.dt` gives the event's time. -/
def HasDtTime (host : Host) (raw : Obj) : Prop :=
  ∃ parsed o, HasDt raw parsed ∧ parsed.utcoffset host.zone = .ok o ∧ InRange (parsed.wallMicros - o)

/-- A `meta.dt` that reads as a time lies within the supported years once it is converted to UTC, and the
    host's time zone answers for a naive one, or refuses with a `ValueError`. -/
def DtConverts (host : Host) (raw : Obj) : Prop :=
  ∀ parsed, HasDt raw parsed →
    (∀ e, parsed.utcoffset host.zone = .error e → e.isValueError = true) ∧
      ∀ o, parsed.utcoffset host.zone = .ok o → InRange (parsed.wallMicros - o)

/-- A `timestamp` that is an integer lies within the supported years. -/
def TimestampConverts (raw : Obj) : Prop :=
  ∀ ts, lookup raw (lit "timestamp") = some (.int ts) → InRange (ts * 1000000)

/-- The time that `_event_time` reads lies within the supported years. -/
def TimeConverts (host : Host) (raw : Obj) : Prop :=
  DtConverts host raw ∧ (¬ HasDtTime host raw → TimestampConverts raw)

/-- The event has a time. -/
def HasTime (host : Host) (raw : Obj) : Prop :=
  HasDtTime host raw ∨ ∃ ts, lookup raw (lit "timestamp") = some (.int ts)

/-- The field is an object, or a value that counts as false. -/
def DictOrFalsy (raw : Obj) (field : String) : Prop :=
  ∀ v, lookup raw (lit field) = some v → v.truthy = true → ∃ members, v = .obj members

/-- The `old` and `new` of the field are integers where they are there at all. -/
def OptionalInts (raw : Obj) (field : String) : Prop :=
  ∀ members, lookup raw (lit field) = some (.obj members) → ∀ key ∈ ["old", "new"], ∀ v,
    lookup members (lit key) = some v → v = .null ∨ ∃ n, v = .int n

/-- **No exception but `ParseError` is reached.** Each part matters only for documents that pass the
    checks before it. -/
def Harmless (host : Host) (raw : Obj) : Prop :=
  isCanary raw = false → HasId raw →
    HashableType raw ∧
      (KnownType raw → HasPage raw → HasNamespace raw →
        TimeConverts host raw ∧
          (HasTime host raw → DictOrFalsy raw "revision" ∧
            (OptionalInts raw "revision" → DictOrFalsy raw "length")))

/-- The text `json.loads` is given. -/
def textOfPayload : Payload → Option Str
  | .none => none
  | .str s => some s
  | .bytes b => utf8Decode b

/-- `json.loads` refuses the payload with a `JSONDecodeError` or not at all: it meets no integer with more
    digits than `int()` converts and no nesting past the recursion limit. -/
def Decodes (host : Host) (payload : Payload) : Prop :=
  ∀ text e, textOfPayload payload = some text → loads host.json text = .error e →
    ∃ message, e = .jsonDecodeError message

/-- The cache holds no id it did not hold before, the id of an event found clean excepted. -/
def GainsCleanOnly (before after : DedupCache) (outcome : Outcome) : Prop :=
  ∀ id ∈ after.ids, id ∈ before.ids ∨ ∃ event, outcome = .clean event ∧ id = event.eventId

/-! ## The parts of `clean_event` -/

variable {host : Host} {raw : Obj}

/-- A value that is read twice is read once. -/
theorem obj_unique {d : Obj} {key : Str} {a b : Obj} (ha : lookup d key = some (.obj a))
    (hb : lookup d key = some (.obj b)) : a = b := by
  rw [ha] at hb
  exact Json.obj.inj (Option.some.inj hb)

theorem quiet_eventIdOf : Quiet (eventIdOf raw) := by
  unfold eventIdOf
  split
  · split
    · split <;> simp
    · simp
    · simp
  · simp

theorem exists_eventIdOf : (∃ id, eventIdOf raw = .ok id) ↔ HasId raw := by
  unfold eventIdOf HasId
  constructor
  · rintro ⟨id, h⟩
    split at h
    · next info hinfo =>
        split at h
        · next id' hid =>
            split at h
            · exact absurd h (by simp [parseError])
            · next hne => exact ⟨info, id', hinfo, hid, hne⟩
        · exact absurd h (by simp [parseError])
        · exact absurd h (by simp [parseError])
    · exact absurd h (by simp [parseError])
  · rintro ⟨info, id, hinfo, hid, hne⟩
    exact ⟨id, by simp [hinfo, hid, hne]⟩

theorem quiet_eventTypeOf : Quiet (eventTypeOf host raw) ↔ HashableType raw := by
  unfold eventTypeOf HashableType
  split
  · next items h => simp [h, Exc.isParseError]
  · next members h => simp [h, Exc.isParseError]
  · next s h => split <;> simp [h]
  · next v harr hobj hstr h =>
      refine iff_of_true (quiet_parseError _) ⟨fun items hv => ?_, fun members hv => ?_⟩
      · exact harr items (Option.some.inj (h.symm.trans hv))
      · exact hobj members (Option.some.inj (h.symm.trans hv))
  · next h => simp [h]

theorem exists_eventTypeOf : (∃ type, eventTypeOf host raw = .ok type) ↔ KnownType raw := by
  unfold eventTypeOf KnownType
  constructor
  · rintro ⟨type, h⟩
    split at h
    · exact absurd h (by simp)
    · exact absurd h (by simp)
    · next s hs =>
        split at h
        · next hmem => exact ⟨s, hmem, hs⟩
        · exact absurd h (by simp [parseError])
    · exact absurd h (by simp [parseError])
    · exact absurd h (by simp [parseError])
  · rintro ⟨s, hmem, hs⟩
    exact ⟨s, by simp [hs, hmem]⟩

theorem quiet_wikiOf : Quiet (wikiOf raw) := by
  unfold wikiOf
  split
  · split <;> simp
  · simp

theorem quiet_titleOf : Quiet (titleOf raw) := by
  unfold titleOf
  split
  · split <;> simp
  · simp

theorem exists_page : ((∃ wiki, wikiOf raw = .ok wiki) ∧ ∃ title, titleOf raw = .ok title) ↔ HasPage raw := by
  unfold wikiOf titleOf HasPage
  refine and_congr ?_ ?_
  · constructor
    · rintro ⟨wiki, h⟩
      split at h
      · next w hw =>
          split at h
          · exact absurd h (by simp [parseError])
          · next hne => exact ⟨w, hw, hne⟩
      · exact absurd h (by simp [parseError])
    · rintro ⟨wiki, hw, hne⟩
      exact ⟨wiki, by simp [hw, hne]⟩
  · constructor
    · rintro ⟨title, h⟩
      split at h
      · next t ht =>
          split at h
          · exact absurd h (by simp [parseError])
          · next hne => exact ⟨t, ht, hne⟩
      · exact absurd h (by simp [parseError])
    · rintro ⟨title, ht, hne⟩
      exact ⟨title, by simp [ht, hne]⟩

theorem quiet_namespaceOf : Quiet (namespaceOf raw) := by
  unfold namespaceOf
  split <;> simp

theorem exists_namespaceOf : (∃ n, namespaceOf raw = .ok n) ↔ HasNamespace raw := by
  unfold namespaceOf HasNamespace
  constructor
  · rintro ⟨n, h⟩
    split at h
    · next m hm => exact ⟨m, hm⟩
    · exact absurd h (by simp [parseError])
  · rintro ⟨n, hn⟩
    exact ⟨n, by simp [hn]⟩

theorem quiet_optionalInt (v : Option Json) : Quiet (optionalInt v) := by
  unfold optionalInt
  split <;> simp

/-- The field as a `dict`: itself, or the empty one in place of a value that counts as false. -/
theorem membersOf_cases (raw : Obj) (field : String) :
    (DictOrFalsy raw field ∧ ∃ members, membersOf raw field = .ok members ∧
      (lookup raw (lit field) = some (.obj members) ∨
        members = [] ∧ ∀ m, lookup raw (lit field) = some (.obj m) → m = [])) ∨
      (¬ DictOrFalsy raw field ∧ membersOf raw field = .error .attributeError) := by
  unfold membersOf DictOrFalsy orElse
  cases hv : lookup raw (lit field) with
  | none => exact Or.inl ⟨by simp, [], rfl, Or.inr ⟨rfl, by simp⟩⟩
  | some v =>
      by_cases ht : v.truthy = true
      · cases v with
        | obj members =>
            refine Or.inl ⟨?_, members, by simp [ht], Or.inl rfl⟩
            rintro w hw _
            exact ⟨members, (Option.some.inj hw).symm⟩
        | _ =>
            refine Or.inr ⟨?_, by simp [ht]⟩
            intro h
            obtain ⟨members, hm⟩ := h _ rfl ht
            exact absurd hm (by simp)
      · refine Or.inl ⟨?_, [], by simp [ht], Or.inr ⟨rfl, ?_⟩⟩
        · rintro w hw htw
          exact absurd (Option.some.inj hw ▸ htw) ht
        · intro m hm
          obtain rfl := Option.some.inj hm
          simpa [Json.truthy] using ht

theorem exists_optionalInt {v : Option Json} :
    (∃ n, optionalInt v = .ok n) ↔ ∀ w, v = some w → w = .null ∨ ∃ n, w = .int n := by
  unfold optionalInt
  split
  · simp
  · simp
  · simp
  · next w hnull hint =>
      refine iff_of_false (by simp [parseError]) (fun h => ?_)
      rcases h w rfl with rfl | ⟨n, rfl⟩
      · exact hnull rfl
      · exact hint n rfl

theorem quiet_oldNew {field : String} : Quiet (oldNew raw field) ↔ DictOrFalsy raw field := by
  unfold oldNew
  simp only [quiet_bind, quiet_optionalInt, quiet_pure, implies_true, and_true]
  rcases membersOf_cases raw field with ⟨hd, members, hm, _⟩ | ⟨hd, herr⟩
  · simp [hm, hd]
  · simp [herr, hd, Exc.isParseError]

theorem optionalInts_of_oldNew {field : String} {r : Option Int × Option Int}
    (h : oldNew raw field = .ok r) : OptionalInts raw field := by
  unfold oldNew at h
  intro members hmembers
  rcases membersOf_cases raw field with ⟨_, m, hm, hl⟩ | ⟨_, herr⟩
  · rw [hm] at h
    cases hold : optionalInt (lookup m (lit "old")) with
    | error e => simp [hold, bind, Except.bind] at h
    | ok old =>
        cases hnew : optionalInt (lookup m (lit "new")) with
        | error e => simp [hold, hnew, bind, Except.bind] at h
        | ok new =>
            have hmm : ∀ v key, lookup members key = some v → lookup m key = some v := by
              intro v key hv
              rcases hl with hl | ⟨rfl, hempty⟩
              · rwa [← obj_unique hl hmembers] at hv
              · rw [hempty members hmembers] at hv
                exact absurd hv (by simp [lookup])
            intro key hkey v hv
            rcases List.mem_pair.mp hkey with rfl | rfl
            · exact exists_optionalInt.mp ⟨old, hold⟩ v (hmm v _ hv)
            · exact exists_optionalInt.mp ⟨new, hnew⟩ v (hmm v _ hv)
  · simp [herr, bind, Except.bind] at h

theorem exists_oldNew {field : String} (hd : DictOrFalsy raw field) (hi : OptionalInts raw field) :
    ∃ r, oldNew raw field = .ok r := by
  unfold oldNew
  rcases membersOf_cases raw field with ⟨_, m, hm, hl⟩ | ⟨hnot, _⟩
  · have hint : ∀ key ∈ ["old", "new"], ∃ n, optionalInt (lookup m (lit key)) = .ok n := by
      intro key hkey
      refine exists_optionalInt.mpr (fun v hv => ?_)
      rcases hl with hl | ⟨rfl, _⟩
      · exact hi m hl key hkey v hv
      · exact absurd hv (by simp [lookup])
    obtain ⟨old, hold⟩ := hint "old" (by simp)
    obtain ⟨new, hnew⟩ := hint "new" (by simp)
    exact ⟨(old, new), by simp [hm, hold, hnew, bind, Except.bind, pure, Except.pure]⟩
  · exact absurd hd hnot

/-! ## The event's time -/

/-- Reading `dt` gives a time, leaves it to `timestamp`, or raises what nobody catches. -/
theorem readDt_cases (host : Host) (dt : Str) :
    (∃ (parsed : DateTime) (o : Int) (u : DateTime),
        fromisoformat (replaceChr (chr 'Z') (lit "+00:00") dt) = .ok parsed ∧
        parsed.utcoffset host.zone = .ok o ∧ InRange (parsed.wallMicros - o) ∧ u.offset = some 0 ∧
        readDt host dt = .ok (some u.isoformat)) ∨
      (readDt host dt = .ok none ∧
        ∀ parsed, fromisoformat (replaceChr (chr 'Z') (lit "+00:00") dt) = .ok parsed →
          ∃ e, parsed.utcoffset host.zone = .error e ∧ e.isValueError = true) ∨
      (∃ (e : Exc) (parsed : DateTime), readDt host dt = .error e ∧ e.isParseError = false ∧
        fromisoformat (replaceChr (chr 'Z') (lit "+00:00") dt) = .ok parsed ∧
        ((∃ e, parsed.utcoffset host.zone = .error e ∧ e.isValueError = false) ∨
          ∃ o, parsed.utcoffset host.zone = .ok o ∧ ¬ InRange (parsed.wallMicros - o))) := by
  unfold readDt
  cases hp : fromisoformat (replaceChr (chr 'Z') (lit "+00:00") dt) with
  | error e =>
      obtain rfl := fromisoformat_error hp
      exact Or.inr (Or.inl ⟨rfl, by simp⟩)
  | ok parsed =>
      dsimp only
      rcases parsed.astimezoneUtc_cases host.zone with ⟨e, ho, hu⟩ | ⟨o, ho, ⟨hin, u, hu, hutc⟩ | ⟨hout, hu⟩⟩
      · rw [hu]
        dsimp only
        -- `except ValueError` goes around the conversion too
        by_cases hv : e.isValueError = true
        · rw [if_pos hv]
          refine Or.inr (Or.inl ⟨rfl, fun p hpp => ?_⟩)
          obtain rfl := Except.ok.inj hpp
          exact ⟨e, ho, hv⟩
        · rw [if_neg hv]
          have hnot : e.isParseError = false := by
            cases e <;> simp_all [Exc.isParseError, Exc.isValueError]
          exact Or.inr (Or.inr ⟨e, parsed, rfl, hnot, rfl, Or.inl ⟨e, ho, by simpa using hv⟩⟩)
      · rw [hu]
        exact Or.inl ⟨parsed, o, u, rfl, ho, hin, hutc, rfl⟩
      · rw [hu]
        exact Or.inr (Or.inr ⟨_, parsed, rfl, rfl, rfl, Or.inr ⟨o, ho, hout⟩⟩)

theorem quiet_readTimestamp : Quiet (readTimestamp raw) ↔ TimestampConverts raw := by
  unfold readTimestamp TimestampConverts
  split
  · next ts hts =>
      have hiff : Quiet ((fromtimestamp ts).map DateTime.isoformat) ↔ InRange (ts * 1000000) := by
        rw [← exists_fromtimestamp]
        cases hd : fromtimestamp ts with
        | ok d => simp [Except.map]
        | error e =>
            have hne : e.isParseError = false := by
              unfold fromtimestamp at hd
              split at hd
              · exact Except.error.inj hd ▸ rfl
              · split at hd
                · exact Except.error.inj hd ▸ rfl
                · split at hd
                  · exact absurd hd (by simp)
                  · exact Except.error.inj hd ▸ rfl
            simp [Except.map, hne]
      rw [hiff]
      constructor
      · intro h ts' hts'
        obtain rfl := Json.int.inj (Option.some.inj (hts.symm.trans hts'))
        exact h
      · exact fun h => h ts hts
  · next hne =>
      refine iff_of_true (quiet_parseError _) (fun ts hts => ?_)
      exact absurd hts (hne ts)

/-- A time read from `timestamp` is a UTC time. -/
theorem utc_of_readTimestamp {time : Str} (h : readTimestamp raw = .ok time) :
    (∃ ts, lookup raw (lit "timestamp") = some (.int ts)) ∧
      ∃ d : DateTime, d.offset = some 0 ∧ time = d.isoformat := by
  unfold readTimestamp at h
  split at h
  · next ts hts =>
      cases hd : fromtimestamp ts with
      | error e => simp [hd, Except.map] at h
      | ok d =>
          rw [hd] at h
          exact ⟨⟨ts, hts⟩, d, fromtimestamp_offset hd, (Except.ok.inj h).symm⟩
  · exact absurd h (by simp [parseError])

theorem dtText_eq {info : Obj} (hinfo : lookup raw (lit "meta") = some (.obj info)) :
    (∃ dt, lookup info (lit "dt") = some (.str dt) ∧ dtText raw = .ok (some dt)) ∨
      ((∀ dt, lookup info (lit "dt") ≠ some (.str dt)) ∧ dtText raw = .ok none) := by
  unfold dtText
  rw [hinfo]
  dsimp only
  split
  · next dt hdt => exact Or.inl ⟨dt, hdt, rfl⟩
  · next hne => exact Or.inr ⟨fun dt hdt => hne dt hdt, rfl⟩

/-- What `_event_time` does, for a document with a `meta` object: the time of `dt`, that of `timestamp`, or
    an exception nobody catches. -/
theorem eventTime_cases (host : Host) {info : Obj} (hinfo : lookup raw (lit "meta") = some (.obj info)) :
    (HasDtTime host raw ∧ DtConverts host raw ∧
        ∃ d : DateTime, d.offset = some 0 ∧ eventTime host raw = .ok d.isoformat) ∨
      (¬ HasDtTime host raw ∧ DtConverts host raw ∧ eventTime host raw = readTimestamp raw) ∨
      (¬ DtConverts host raw ∧ ∃ e, eventTime host raw = .error e ∧ e.isParseError = false) := by
  have hdtOf {parsed : DateTime} (h : HasDt raw parsed) : ∃ dt, lookup info (lit "dt") = some (.str dt) ∧
      fromisoformat (replaceChr (chr 'Z') (lit "+00:00") dt) = .ok parsed := by
    obtain ⟨info', dt, hinfo', hdt, hp⟩ := h
    obtain rfl := obj_unique hinfo hinfo'
    exact ⟨dt, hdt, hp⟩
  unfold eventTime
  rcases dtText_eq hinfo with ⟨dt, hdt, htext⟩ | ⟨hno, htext⟩
  · have hparsed {parsed p : DateTime} (h : HasDt raw parsed)
        (hp : fromisoformat (replaceChr (chr 'Z') (lit "+00:00") dt) = .ok p) : parsed = p := by
      obtain ⟨dt', hdt', hp'⟩ := hdtOf h
      obtain rfl := Json.str.inj (Option.some.inj (hdt.symm.trans hdt'))
      exact Except.ok.inj (hp'.symm.trans hp)
    have hhas {p : DateTime} (hp : fromisoformat (replaceChr (chr 'Z') (lit "+00:00") dt) = .ok p) :
        HasDt raw p := ⟨info, dt, hinfo, hdt, hp⟩
    rcases readDt_cases host dt with ⟨p, o, u, hp, ho, hin, hutc, hr⟩ | ⟨hr, hnone⟩ |
        ⟨e, p, hr, he, hp, hbad⟩
    · -- the time is read and converted
      refine Or.inl ⟨⟨p, o, hhas hp, ho, hin⟩, ?_, u, hutc, by simp [htext, hr, bind, Except.bind]⟩
      intro q hq
      obtain rfl := hparsed hq hp
      refine ⟨fun e hoe => absurd (ho.symm.trans hoe) (by simp), fun o' ho' => ?_⟩
      obtain rfl := Except.ok.inj (ho.symm.trans ho')
      exact hin
    · -- its zone raises a `ValueError`: the timestamp is used
      have hno : ∀ q, HasDt raw q → ∃ e, q.utcoffset host.zone = .error e ∧ e.isValueError = true := by
        intro q hq
        obtain ⟨dt', hdt', hp'⟩ := hdtOf hq
        obtain rfl := Json.str.inj (Option.some.inj (hdt.symm.trans hdt'))
        exact hnone q hp'
      refine Or.inr (Or.inl ⟨?_, ?_, by simp [htext, hr, bind, Except.bind]⟩)
      · rintro ⟨q, o, hq, ho, _⟩
        obtain ⟨e, he, _⟩ := hno q hq
        exact absurd (ho.symm.trans he) (by simp)
      · intro q hq
        obtain ⟨e, he, hv⟩ := hno q hq
        refine ⟨fun e' he' => ?_, fun o ho => absurd (ho.symm.trans he) (by simp)⟩
        obtain rfl := Except.error.inj (he.symm.trans he')
        exact hv
    · -- anything else that is raised gets out of `_event_time`
      refine Or.inr (Or.inr ⟨?_, e, by simp [htext, hr, bind, Except.bind], he⟩)
      intro hconv
      rcases hbad with ⟨e', he', hv⟩ | ⟨o, ho, hout⟩
      · exact absurd ((hconv p (hhas hp)).1 e' he') (by simp [hv])
      · exact hout ((hconv p (hhas hp)).2 o ho)
  · -- no text to read: the timestamp is used
    have hnone (q : DateTime) : ¬ HasDt raw q := by
      intro hq
      obtain ⟨dt, hdt, _⟩ := hdtOf hq
      exact hno dt hdt
    refine Or.inr (Or.inl ⟨?_, fun q hq => absurd hq (hnone q), by simp [htext, bind, Except.bind]⟩)
    rintro ⟨q, o, hq, _⟩
    exact hnone q hq

theorem quiet_eventTime {info : Obj} (hinfo : lookup raw (lit "meta") = some (.obj info)) :
    Quiet (eventTime host raw) ↔ TimeConverts host raw := by
  unfold TimeConverts
  rcases eventTime_cases host hinfo with ⟨hhas, hconv, d, _, he⟩ | ⟨hno, hconv, he⟩ |
      ⟨hnot, e, he, hne⟩
  · simp [he, hhas, hconv]
  · rw [he, quiet_readTimestamp]
    simp [hno, hconv]
  · simp [he, hnot, hne]

/-- The event's time is a UTC time. -/
theorem utc_of_eventTime {info : Obj} {time : Str} (hinfo : lookup raw (lit "meta") = some (.obj info))
    (h : eventTime host raw = .ok time) :
    HasTime host raw ∧ ∃ d : DateTime, d.offset = some 0 ∧ time = d.isoformat := by
  rcases eventTime_cases host hinfo with ⟨hhas, _, d, hutc, he⟩ | ⟨_, _, he⟩ | ⟨_, e, he, _⟩
  · exact ⟨Or.inl hhas, d, hutc, Except.ok.inj (h.symm.trans he)⟩
  · obtain ⟨hts, hd⟩ := utc_of_readTimestamp (he ▸ h)
    exact ⟨Or.inr hts, hd⟩
  · exact absurd (h.symm.trans he) (by simp)

theorem exists_eventTime {info : Obj} (hinfo : lookup raw (lit "meta") = some (.obj info))
    (hconv : TimeConverts host raw) (htime : HasTime host raw) : ∃ time, eventTime host raw = .ok time := by
  rcases eventTime_cases host hinfo with ⟨_, _, d, _, he⟩ | ⟨hno, _, he⟩ | ⟨hnot, _⟩
  · exact ⟨_, he⟩
  · obtain ⟨ts, hts⟩ := htime.resolve_left hno
    obtain ⟨d, hd⟩ := exists_fromtimestamp.mpr (hconv.2 hno ts hts)
    exact ⟨d.isoformat, by rw [he, readTimestamp, hts]; simp [hd, Except.map]⟩
  · exact absurd hconv.1 hnot

/-! ## `transform` -/

/-- Is a document with an id turned into an event or refused with a `ParseError`? -/
theorem quiet_cleanEvent (hid : HasId raw) : Quiet (cleanEvent host raw) ↔
    HashableType raw ∧
      (KnownType raw → HasPage raw → HasNamespace raw →
        TimeConverts host raw ∧
          (HasTime host raw → DictOrFalsy raw "revision" ∧
            (OptionalInts raw "revision" → DictOrFalsy raw "length"))) := by
  obtain ⟨info, _, hinfo, _, _⟩ := id hid
  -- a step is quiet if it is on every document on which the steps before it have a result
  have hchain : Quiet (cleanEvent host raw) ↔
      Quiet (eventIdOf raw) ∧ ((∃ id, eventIdOf raw = .ok id) →
      Quiet (eventTypeOf host raw) ∧ ((∃ type, eventTypeOf host raw = .ok type) →
      Quiet (wikiOf raw) ∧ ((∃ wiki, wikiOf raw = .ok wiki) →
      Quiet (titleOf raw) ∧ ((∃ title, titleOf raw = .ok title) →
      Quiet (namespaceOf raw) ∧ ((∃ n, namespaceOf raw = .ok n) →
      Quiet (eventTime host raw) ∧ ((∃ time, eventTime host raw = .ok time) →
      Quiet (oldNew raw "revision") ∧ ((∃ r, oldNew raw "revision" = .ok r) →
      Quiet (oldNew raw "length") ∧ ((∃ r, oldNew raw "length" = .ok r) → True)))))))) :=
    quiet_bind_exists fun _ => quiet_bind_exists fun _ => quiet_bind_exists fun _ =>
      quiet_bind_exists fun _ => quiet_bind_exists fun _ => quiet_bind_exists fun _ =>
      quiet_bind_exists fun _ => quiet_bind_exists fun _ => iff_of_true (quiet_ok _) trivial
  rw [hchain]
  simp only [quiet_eventIdOf, exists_eventIdOf, hid, quiet_eventTypeOf, exists_eventTypeOf, quiet_wikiOf,
    quiet_titleOf, quiet_namespaceOf, exists_namespaceOf, quiet_eventTime hinfo, quiet_oldNew, true_and,
    forall_const, implies_true, and_true, ← exists_page]
  refine and_congr_right (fun _ => ⟨fun h ht hp hn => ?_, fun h ht hw htitle hn => ?_⟩)
  · obtain ⟨hconv, hrest⟩ := h ht hp.1 hp.2 hn
    refine ⟨hconv, fun htime => ?_⟩
    obtain ⟨hrev, hlen⟩ := hrest (exists_eventTime hinfo hconv htime)
    exact ⟨hrev, fun hints => hlen (exists_oldNew hrev hints)⟩
  · obtain ⟨hconv, hrest⟩ := h ht ⟨hw, htitle⟩ hn
    refine ⟨hconv, ?_⟩
    rintro ⟨time, htime⟩
    obtain ⟨hrev, hlen⟩ := hrest (utc_of_eventTime hinfo htime).1
    refine ⟨hrev, ?_⟩
    rintro ⟨r, hr⟩
    exact hlen (optionalInts_of_oldNew hr)

theorem decodeText_eq_ok {payload : Payload} {text : Str} :
    decodeText payload = .ok text ↔ textOfPayload payload = some text := by
  cases payload with
  | none => simp [decodeText, textOfPayload, parseError]
  | str s => simp [decodeText, textOfPayload]
  | bytes b =>
      rw [decodeText, textOfPayload]
      cases utf8Decode b <;> simp [parseError]

theorem quiet_decodeText (payload : Payload) : Quiet (decodeText payload) := by
  unfold decodeText
  split
  · simp
  · simp
  · split <;> simp

theorem decodeJson_eq_ok {text : Str} {v : Json} :
    decodeJson host text = .ok v ↔ loads host.json text = .ok v := by
  unfold decodeJson
  split
  · next h => simp [h, parseError]
  · next h => simp [h, parseError]
  · rfl

theorem quiet_decodeJson {text : Str} : Quiet (decodeJson host text) ↔
    ∀ e, loads host.json text = .error e → ∃ message, e = .jsonDecodeError message := by
  unfold decodeJson
  cases h : loads host.json text with
  | ok v => simp
  | error e =>
      have hkind : (∃ message, e = .jsonDecodeError message) ∨ e = .valueError ∨ e = .recursionError := by
        unfold loads at h
        split at h
        · exact Or.inl ⟨_, (Except.error.inj h).symm⟩
        · split at h
          · exact absurd h (by simp)
          · exact Or.inl ⟨_, (Except.error.inj h).symm⟩
          · exact Or.inr (Or.inl (Except.error.inj h).symm)
          · exact Or.inr (Or.inr (Except.error.inj h).symm)
      rcases hkind with ⟨message, rfl⟩ | rfl | rfl
      · simp
      · simp [Exc.isParseError]
      · simp [Exc.isParseError]

theorem parseRaw_eq_ok {payload : Payload} : parseRaw host payload = .ok raw ↔
    ∃ text, textOfPayload payload = some text ∧ loads host.json text = .ok (.obj raw) := by
  unfold parseRaw
  simp only [bind_eq_ok, decodeText_eq_ok, decodeJson_eq_ok]
  refine exists_congr (fun text => and_congr_right (fun _ => ?_))
  constructor
  · rintro ⟨v, hv, h⟩
    unfold asObject at h
    split at h
    · obtain rfl := Except.ok.inj h
      exact hv
    · exact absurd h (by simp [parseError])
  · intro hv
    exact ⟨_, hv, rfl⟩

theorem quiet_parseRaw {payload : Payload} : Quiet (parseRaw host payload) ↔ Decodes host payload := by
  have hlast (v : Json) : Quiet (asObject v) := by
    unfold asObject
    split <;> simp
  unfold parseRaw Decodes
  simp only [quiet_bind, quiet_decodeText, true_and, decodeText_eq_ok, quiet_decodeJson]
  constructor
  · exact fun h text e htext => (h text htext).1 e
  · exact fun h text htext => ⟨fun e => h text e htext, fun v _ => hlast v⟩

/-- The `try` of `transform` raises nothing it does not catch exactly on harmless documents. -/
theorem quiet_attempt {payload : Payload} : Quiet (attempt host payload) ↔
    Decodes host payload ∧ ∀ raw, parseRaw host payload = .ok raw → Harmless host raw := by
  unfold attempt
  rw [quiet_bind, quiet_parseRaw]
  refine and_congr_right (fun _ => forall_congr' (fun raw => imp_congr_right (fun _ => ?_)))
  unfold Harmless
  by_cases hc : isCanary raw = true
  · simp [hc]
  · rw [if_neg hc, quiet_bind]
    simp only [quiet_pure, implies_true, and_true, Bool.not_eq_true] at hc ⊢
    by_cases hid : HasId raw
    · rw [quiet_cleanEvent hid]
      simp [hc, hid]
    · -- without an id the only exception is the `ParseError` of `event_id_of`
      refine iff_of_true ?_ (fun _ h => absurd h hid)
      refine quiet_bind.mpr ⟨quiet_eventIdOf, fun id hok => ?_⟩
      exact absurd (exists_eventIdOf.mp ⟨id, hok⟩) hid

/-- The time of a clean event is a UTC time. -/
theorem utc_of_cleanEvent {event : CleanEvent} (h : cleanEvent host raw = .ok event) :
    ∃ d : DateTime, d.offset = some 0 ∧ event.eventTime = d.isoformat := by
  unfold cleanEvent at h
  simp only [bind_eq_ok] at h
  obtain ⟨id, hid, type, _, wiki, _, title, _, n, _, time, htime, rev, _, len, _, hevent⟩ := h
  obtain ⟨info, _, hinfo, _, _⟩ := exists_eventIdOf.mp ⟨id, hid⟩
  obtain ⟨_, d, hutc, rfl⟩ := utc_of_eventTime hinfo htime
  obtain rfl := Except.ok.inj hevent
  exact ⟨d, hutc, rfl⟩

/-- Once the event is known, nothing is raised any more. -/
theorem exists_eventTimeMs {payload : Payload} {event : CleanEvent}
    (h : attempt host payload = .ok (some event)) (fallbackMs : Option Int) :
    ∃ ms, eventTimeMs host event fallbackMs = .ok ms := by
  unfold attempt at h
  obtain ⟨raw, _, h⟩ := bind_eq_ok.mp h
  split at h
  · exact absurd (Except.ok.inj h) (by simp)
  · obtain ⟨event', hevent, h⟩ := bind_eq_ok.mp h
    obtain rfl := Option.some.inj (Except.ok.inj h)
    obtain ⟨d, hutc, htime⟩ := utc_of_cleanEvent hevent
    obtain ⟨ms, hms⟩ := epochMs_isoformat hutc host.zone
    exact ⟨ms, by rw [eventTimeMs, htime, hms]⟩

/-- What the cache gains is the id of a clean event. -/
theorem gainsCleanOnly_deduplicate (cache : DedupCache) (event : CleanEvent) (ms : Int) :
    GainsCleanOnly cache (deduplicate event (cache.isNew event.eventId ms)).2
      (deduplicate event (cache.isNew event.eventId ms)).1 := by
  intro id hid
  rcases DedupCache.mem_ids_isNew hid with hold | ⟨hnew, rfl⟩
  · exact Or.inl hold
  · exact Or.inr ⟨event, by simp [deduplicate, hnew], rfl⟩

/-- **`transform` ends in an outcome exactly on harmless documents**, whatever the cache and the message's
    time, and then the cache gains nothing but the id of a clean event. A payload fails when `json.loads`
    raises something else than a `JSONDecodeError`, or when its document reaches a field that makes
    `clean_event` raise something else than a `ParseError`. -/
theorem one_outcome_iff (host : Host) (payload : Payload) (cache : DedupCache)
    (messageTimeMs : Option Int) :
    (∃ outcome cache', transform host payload cache messageTimeMs = .ok (outcome, cache') ∧
        GainsCleanOnly cache cache' outcome) ↔
      Decodes host payload ∧ ∀ text raw, textOfPayload payload = some text →
        loads host.json text = .ok (.obj raw) → Harmless host raw := by
  have hcond : (Decodes host payload ∧ ∀ text raw, textOfPayload payload = some text →
      loads host.json text = .ok (.obj raw) → Harmless host raw) ↔ Quiet (attempt host payload) := by
    rw [quiet_attempt]
    simp only [parseRaw_eq_ok]
    exact and_congr_right (fun _ => ⟨fun h raw ⟨text, ht, hl⟩ => h text raw ht hl,
      fun h text raw ht hl => h raw ⟨text, ht, hl⟩⟩)
  rw [hcond]
  unfold transform
  cases ha : attempt host payload with
  | error e =>
      cases e with
      | parseError reason => simp [GainsCleanOnly, Exc.isParseError]
      | _ => simp [Exc.isParseError]
  | ok result =>
      cases result with
      | none => simp [GainsCleanOnly]
      | some event =>
          -- an event that is accepted has a time to file its id under
          obtain ⟨ms, hms⟩ := exists_eventTimeMs ha messageTimeMs
          dsimp only
          rw [hms]
          exact iff_of_true ⟨_, _, rfl, gainsCleanOnly_deduplicate cache event ms⟩ (quiet_ok _)

/-- A host in UTC with the interpreter's default limits. -/
def utcHost : Host where
  json := ⟨4300, 900⟩
  zone := ⟨fun d => .ok (d.wallMicros / 1000000), fun _ => .ok 0⟩
  repr := fun _ => []
  floatRepr := fun _ => []
  isRevertComment := fun _ => false

/-- A document whose `type` is a list: the lookup in `EVENT_TYPES` raises a `TypeError`. -/
theorem unhashable_type_raises :
    let payload := Payload.bytes (ascii (lit "\x7b\"meta\":\x7b\"id\":\"a\"\x7d,\"type\":[]\x7d"))
    transform utcHost payload {} none = .error (.typeError (lit "unhashable type: 'list'")) ∧
      ¬ ∃ outcome cache', transform utcHost payload {} none = .ok (outcome, cache') ∧
        GainsCleanOnly {} cache' outcome := by
  intro payload
  have ha : attempt utcHost payload = .error (.typeError (lit "unhashable type: 'list'")) := by
    decide +kernel +revert
  have ht : transform utcHost payload {} none = .error (.typeError (lit "unhashable type: 'list'")) := by
    rw [transform, ha]
  refine ⟨ht, ?_⟩
  rintro ⟨outcome, cache', h, _⟩
  exact absurd (ht.symm.trans h) (by simp)

end Transform
end Wikistream
