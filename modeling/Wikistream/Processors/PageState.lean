import Wikistream.Common.Records
import Wikistream.Processors.PageLatest
import Wikistream.Processors.Transactional

/-!
# `Processors.PageState` — the latest edit of every page

`wiki.page-latest` is keyed by page, and Kafka's compaction keeps the newest record of a key. The guard of a
partition remembers for every page the event time last applied; it is rebuilt from the topic.

## Contents
- **The guard** (`remember`, `isStale`, `guardOf`): it only moves forward.
- **Rebuilding it** (`timeOfRecord`, `loadApplied`).
- **Hooks** (`handle`, `pageState`). `handle_cases` says what one message can do.
-/

namespace Wikistream
namespace PageState

open Py Lib Models Transactional

/-! ## The guard -/

/-- The event time last applied to each page of a partition. -/
abbrev Guard := Dict Str Int

/-- `applied.get(key, -1)`. -/
def guardOf (applied : Guard) (key : Str) : Int := (applied.get? key).getD (-1)

/-- `remember`. -/
def remember (applied : Guard) (key : Str) (timeMs : Int) : Guard :=
  if guardOf applied key < timeMs then applied.set key timeMs else applied

/-- `is_stale`. -/
def isStale (applied : Guard) (key : Str) (timeMs : Int) : Bool := timeMs < guardOf applied key

theorem guardOf_remember (applied : Guard) (key : Str) (timeMs : Int) (k : Str) :
    guardOf (remember applied key timeMs) k =
      if k = key then max (guardOf applied key) timeMs else guardOf applied k := by
  unfold remember
  by_cases hlt : guardOf applied key < timeMs
  · rw [if_pos hlt]
    show ((applied.set key timeMs).get? k).getD (-1) = _
    rw [Dict.get?_set]
    split
    · exact (max_eq_right hlt.le).symm
    · rfl
  · rw [if_neg hlt]
    split
    · next hk => rw [hk, max_eq_left (not_lt.mp hlt)]
    · rfl

theorem le_guardOf_remember (applied : Guard) (key : Str) (timeMs : Int) (k : Str) :
    guardOf applied k ≤ guardOf (remember applied key timeMs) k := by
  rw [guardOf_remember]
  split
  · next hk => exact hk ▸ le_max_left _ _
  · exact le_refl _

/-! ## Rebuilding the guard -/

/-- Is `e` caught by `except (ValueError, TypeError, KeyError)`? -/
def isUnreadable (e : Exc) : Bool := e.isValueOrTypeError || e == .keyError

/-- `event_ms(PageLatest.from_json(value).event_time)`. -/
def valueTime (host : Host) (value : Bytes) : Except Exc Int := do
  let eventTime ← PageLatest.eventTimeIn host (.bytes value)
  PageLatest.eventMsOf host eventTime

/-- `time_of_record`. -/
def timeOfRecord (host : Host) (value : Option Bytes) (recordTimestamp : Int) : Except Exc Int :=
  match value with
  | none => .ok recordTimestamp
  | some b =>
      match valueTime host b with
      | .ok ms => .ok ms
      | .error e => if isUnreadable e then .ok recordTimestamp else .error e

/-- What a record of the output partition adds to the guard. -/
def readRecord (host : Host) (applied : Guard) (r : KafkaRecord) : Except Exc Guard :=
  match r.key with
  | none => .ok applied
  | some k =>
      match utf8Decode k with
      | none => .error .valueError
      | some key => (timeOfRecord host r.value r.timestamp).map (remember applied key)

/-- What a poll of `load_applied` comes to: the next record, or the end of the partition where there is
    none; no answer in time; an error. -/
inductive LoadPoll
  | next
  | timeout
  | error
  deriving DecidableEq

/-- The loop of `load_applied`, with the records it has not read yet. Running out of polls is a timeout. -/
def loadFrom (host : Host) : List KafkaRecord → List LoadPoll → Guard → Except Exc Guard
  | _, [], applied => .ok applied
  | _, .timeout :: _, applied => .ok applied
  | _, .error :: _, _ => .error .kafkaException
  | [], .next :: _, applied => .ok applied
  | r :: rest, .next :: polls, applied =>
      match readRecord host applied r with
      | .ok applied => loadFrom host rest polls applied
      | .error e => .error e

/-- `load_applied`, for an output partition that holds `topic`. -/
def loadApplied (host : Host) (topic : List KafkaRecord) (polls : List LoadPoll) : Except Exc Guard :=
  loadFrom host topic polls Dict.empty

/-- The records that `load_applied` reads. -/
def recordsRead : List KafkaRecord → List LoadPoll → List KafkaRecord
  | r :: rest, .next :: polls => r :: recordsRead rest polls
  | _, _ => []

/-! ## Hooks -/

/-- The guard of each partition. -/
abbrev Guards := Dict Nat Guard

/-- `self.applied.setdefault(partition, {})`. -/
def appliedFor (guards : Guards) (p : Nat) : Guard := (guards.get? p).getD Dict.empty

@[simp] theorem appliedFor_set (guards : Guards) (p q : Nat) (applied : Guard) :
    appliedFor (guards.set p applied) q = if q = p then applied else appliedFor guards q := by
  unfold appliedFor
  rw [Dict.get?_set]
  split <;> rfl

/-- The record for an update of the page `key`. -/
def outputOf (host : Host) (key : Str) (record : Option PageLatest) (timeMs : Int) : Except Exc Produced := do
  let keyBytes ← encodeText key
  match record with
  | some page =>
      let value ← page.toJson host
      return { topic := .pageLatest, key := some keyBytes, value := some value, timestamp := timeMs }
  | none => return { topic := .pageLatest, key := some keyBytes, value := none, timestamp := timeMs }

/-- The end of `handle`, for an update of the page `key`. -/
def update (host : Host) (guards : Guards) (p : Nat) (key : Str) (record : Option PageLatest) (timeMs : Int) :
    Except Exc (Guards × List Produced) :=
  let applied := appliedFor guards p
  if isStale applied key timeMs then .ok (guards.set p applied, [])
  else
    (outputOf host key record timeMs).map
      (fun out => (guards.set p (remember applied key timeMs), [out]))

/-- `handle`. -/
def handle (host : Host) (guards : Guards) (m : Message KafkaRecord) : Except Exc (Guards × List Produced) :=
  match CleanEvent.fromJson host m.record.payload with
  -- a record that is not a clean event is skipped
  | .error e => if e.isValueOrTypeError then .ok (guards, []) else .error e
  | .ok event =>
      match PageLatest.pageUpdate host event with
      | none => .ok (guards, [])
      | some (key, record) =>
          match PageLatest.eventMs host event.eventTime with
          | .error e => .error e
          | .ok timeMs => update host guards m.partition key record timeMs

/-- The guards of newly assigned partitions; `answers` is what each output partition holds and how the polls
    go. -/
def partitionsAssigned (host : Host) (answers : Nat → List KafkaRecord × List LoadPoll) :
    Guards → List Nat → Except Exc Guards
  | guards, [] => .ok guards
  | guards, p :: ps =>
      match loadApplied host (answers p).1 (answers p).2 with
      | .error e => .error e
      | .ok applied => partitionsAssigned host answers (guards.set p applied) ps

/-- The page state as a subclass of `TransactionalProcessor`. -/
def pageState (host : Host) :
    Processor Guards KafkaRecord Produced (Nat → List KafkaRecord × List LoadPoll) Exc where
  init := Dict.empty
  handle := handle host
  partitionsAssigned _ answers guards ps := partitionsAssigned host answers guards ps
  partitionsRevoked guards ps := ps.foldl Dict.erase guards

/-! ## What a message does -/

/-- The update that a record of the input asks for: the page, its record or nothing for a deletion, and the
    time of the event. -/
def updateOf (host : Host) (r : KafkaRecord) : Option (Str × Option PageLatest × Int) :=
  match CleanEvent.fromJson host r.payload with
  | .error _ => none
  | .ok event =>
      match PageLatest.pageUpdate host event, PageLatest.eventMs host event.eventTime with
      | some (key, record), .ok timeMs => some (key, record, timeMs)
      | _, _ => none

variable {host : Host} {guards : Guards} {m : Message KafkaRecord} {r : Guards × List Produced}

/-- **What one message can do.** It changes no page; or it is older than what its page shows; or it is
    written and remembered. -/
theorem handle_cases (h : handle host guards m = .ok r) :
    (updateOf host m.record = none ∧ r = (guards, [])) ∨
    ∃ key record timeMs, updateOf host m.record = some (key, record, timeMs) ∧
      ((timeMs < guardOf (appliedFor guards m.partition) key ∧
          r = (guards.set m.partition (appliedFor guards m.partition), [])) ∨
        (guardOf (appliedFor guards m.partition) key ≤ timeMs ∧
          ∃ out, outputOf host key record timeMs = .ok out ∧
            r = (guards.set m.partition (remember (appliedFor guards m.partition) key timeMs), [out]))) := by
  unfold handle at h
  unfold updateOf
  split at h
  · next e he =>
      split at h
      · exact Or.inl ⟨rfl, (Except.ok.inj h).symm⟩
      · exact absurd h (by simp)
  · next event hevent =>
      split at h
      · next hupdate => exact Or.inl ⟨by simp [hupdate], (Except.ok.inj h).symm⟩
      · next key record hupdate =>
          split at h
          · exact absurd h (by simp)
          · next timeMs htime =>
              refine Or.inr ⟨key, record, timeMs, by simp [hupdate, htime], ?_⟩
              simp only [update, isStale, decide_eq_true_eq] at h
              by_cases hstale : timeMs < guardOf (appliedFor guards m.partition) key
              · rw [if_pos hstale] at h
                exact Or.inl ⟨hstale, (Except.ok.inj h).symm⟩
              · rw [if_neg hstale] at h
                obtain ⟨out, hout, rfl⟩ := map_eq_ok.mp h
                exact Or.inr ⟨not_lt.mp hstale, out, hout, rfl⟩

/-- What is written comes from an update no older than what its page shows. -/
theorem exists_update_of_mem (h : handle host guards m = .ok r) {out : Produced} (hout : out ∈ r.2) :
    ∃ key record timeMs, updateOf host m.record = some (key, record, timeMs) ∧
      guardOf (appliedFor guards m.partition) key ≤ timeMs ∧ outputOf host key record timeMs = .ok out := by
  rcases handle_cases h with ⟨_, rfl⟩ | ⟨key, record, timeMs, hupdate, ⟨_, rfl⟩ | ⟨hle, out', hout', rfl⟩⟩
  · exact absurd hout (by simp)
  · exact absurd hout (by simp)
  · obtain rfl := List.mem_singleton.mp hout
    exact ⟨key, record, timeMs, hupdate, hle, hout'⟩

/-- What is written for an update: the page's record, or a tombstone, stamped with the event's time. -/
theorem outputOf_eq_ok {key : Str} {record : Option PageLatest} {timeMs : Int} {out : Produced}
    (h : outputOf host key record timeMs = .ok out) :
    out.topic = .pageLatest ∧ out.timestamp = timeMs ∧
      (∃ k, encodeText key = .ok k ∧ out.key = some k) ∧
      ((record = none ∧ out.value = none) ∨
        ∃ page b, record = some page ∧ page.toJson host = .ok b ∧ out.value = some b) := by
  unfold outputOf at h
  obtain ⟨k, hk, h⟩ := bind_eq_ok.mp h
  cases record with
  | none =>
      obtain rfl := Except.ok.inj h
      exact ⟨rfl, rfl, ⟨k, hk, rfl⟩, Or.inl ⟨rfl, rfl⟩⟩
  | some page =>
      obtain ⟨b, hb, h⟩ := bind_eq_ok.mp h
      obtain rfl := Except.ok.inj h
      exact ⟨rfl, rfl, ⟨k, hk, rfl⟩, Or.inr ⟨page, b, rfl, hb, rfl⟩⟩

/-- One record read: the guard moves forward, and is then at least the record's time. -/
theorem le_guardOf_readRecord {applied applied' : Guard} {x : KafkaRecord}
    (h : readRecord host applied x = .ok applied') :
    (∀ key, guardOf applied key ≤ guardOf applied' key) ∧
      ∀ k key ms, x.key = some k → utf8Decode k = some key → timeOfRecord host x.value x.timestamp = .ok ms →
        ms ≤ guardOf applied' key := by
  unfold readRecord at h
  split at h
  · next hnone =>
      obtain rfl := Except.ok.inj h
      exact ⟨fun key => le_refl _, fun k key ms hk => absurd (hnone.symm.trans hk) (by simp)⟩
  · next k hk =>
      split at h
      · exact absurd h (by simp)
      · next key hkey =>
          obtain ⟨ms, hms, rfl⟩ := map_eq_ok.mp h
          refine ⟨fun j => le_guardOf_remember _ _ _ j, ?_⟩
          intro k' key' ms' hk' hkey' hms'
          obtain rfl := Option.some.inj (hk.symm.trans hk')
          obtain rfl := Option.some.inj (hkey.symm.trans hkey')
          obtain rfl := Except.ok.inj (hms.symm.trans hms')
          rw [guardOf_remember, if_pos rfl]
          exact le_max_right _ _

/-- The guard of a rebuilt partition is at least the time of every record that was read. -/
theorem le_guardOf_loadFrom {topic : List KafkaRecord} {polls : List LoadPoll} {applied loaded : Guard}
    (h : loadFrom host topic polls applied = .ok loaded) :
    (∀ key, guardOf applied key ≤ guardOf loaded key) ∧
      ∀ x ∈ recordsRead topic polls, ∀ k key ms, x.key = some k → utf8Decode k = some key →
        timeOfRecord host x.value x.timestamp = .ok ms → ms ≤ guardOf loaded key := by
  fun_induction loadFrom host topic polls applied with
  | case1 topic applied =>
      obtain rfl := Except.ok.inj h
      exact ⟨fun key => le_refl _, fun x hx => absurd hx (by cases topic <;> simp [recordsRead])⟩
  | case2 topic polls applied =>
      obtain rfl := Except.ok.inj h
      exact ⟨fun key => le_refl _, fun x hx => absurd hx (by cases topic <;> simp [recordsRead])⟩
  | case3 topic polls applied => exact absurd h (by simp)
  | case4 polls applied =>
      obtain rfl := Except.ok.inj h
      exact ⟨fun key => le_refl _, fun x hx => absurd hx (by simp [recordsRead])⟩
  | case5 y rest polls applied applied' hread ih =>
      obtain ⟨hgrow, hrest⟩ := ih h
      obtain ⟨hstep, hone⟩ := le_guardOf_readRecord hread
      refine ⟨fun key => (hstep key).trans (hgrow key), ?_⟩
      intro x hx k key ms hk hkey hms
      rcases List.mem_cons.mp hx with rfl | hx
      · exact (hone k key ms hk hkey hms).trans (hgrow key)
      · exact hrest x hx k key ms hk hkey hms
  | case6 y rest polls applied e hread => exact absurd h (by simp)

end PageState
end Wikistream
