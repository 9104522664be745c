import Wikistream.Correctness.CleanerLossless
import Mathlib.Data.List.Induction

/-!
# `Correctness.CleanerRestart` — which duplicates a restarted cleaner still drops

A cleaner files an id under the time of its event; a restarted one fills its cache by the timestamps of the
records. Event times lag behind while a backlog is read, so an event can be recent by its time and lie outside
the window by its record.

## Contents
- **What a record does to the cache** (`eventOf`, `loadOf`): to the live one and to the one being warmed.
- **Two cleaners.** `processed` handled the log from its start, `restarted` was warmed at the committed offset.
- **Nothing new is raised** (`exists_restarted`): what the first one got through, the second does.
- **The result** (`duplicate_again_iff`): a repeated event is dropped again if and only if a copy of it lies
  behind the committed offset or within the window by its record's timestamp.
-/

namespace Wikistream
namespace Cleaner

open Py Lib Models Dedup Transform Warmup Transactional

/-- The id of an accepted record's event and its time. -/
def eventOf (host : Host) (r : KafkaRecord) : Option (Str × Int) :=
  match attempt host r.payload with
  | .ok (some event) =>
      match eventTimeMs host event (some r.timestamp) with
      | .ok ms => some (event.eventId, ms)
      | .error _ => none
  | _ => none

/-- What `_load` asks the cache about a record that has a timestamp. -/
def loadOf (host : Host) (r : KafkaRecord) : Option (Str × Int) :=
  match recordId host r with
  | .ok id => some (id, r.timestamp)
  | .error _ => none

/-- The message is classified as `Duplicate`. -/
def isDuplicate (env : Env) (caches : Caches) (m : Message KafkaRecord) : Bool :=
  match transform env.host m.record.payload (cacheFor caches m.partition) (some m.record.timestamp) with
  | .ok (.duplicate _, _) => true
  | _ => false

/-- A cleaner that handled the partition from its start up to offset `j`. -/
def processed (env : Env) (log : Log KafkaRecord) (p j : Nat) : Except Exc Caches :=
  handleAll (handle env) Dict.empty (visible log p 0 j)

/-- A cleaner that was warmed at the committed offset `c` and handled the partition from there up to `j`. -/
def restarted (env : Env) (log : Log KafkaRecord) (committed : Dict Nat Nat) (answers : Answers) (p c j : Nat) :
    Except Exc Caches :=
  match warm env log committed (fun _ => answers) Dict.empty [p] with
  | .error e => .error e
  | .ok caches => handleAll (handle env) caches (visible log p c j)

/-- The records of a `wiki.raw` partition: each has a timestamp, no earlier than its event and than the
    records before it, and copies carry the same payload. -/
structure RawPartition (host : Host) (log : Log KafkaRecord) (p : Nat) : Prop where
  stamped : ∀ o r, log p o = some r → 0 < r.timestamp
  ordered : TimeOrdered log p
  past : ∀ o r id t, log p o = some r → eventOf host r = some (id, t) → t ≤ r.timestamp
  samePayload : SamePayload host log

/-- The record at `j` repeats an event: the cleaner that processed the log drops it, and its earlier copy is
    within the window of the greatest event time processed before. -/
structure Repeats (env : Env) (log : Log KafkaRecord) (p j : Nat) (full : Caches) (r : KafkaRecord) (id : Str)
    (t : Int) : Prop where
  record : log p j = some r
  event : eventOf env.host r = some (id, t)
  duplicate : isDuplicate env full ⟨p, j, r⟩ = true
  copy : ∃ i r', i < j ∧ log p i = some r' ∧ eventOf env.host r' = some (id, t)
  recent : ∀ k r' id' t', k < j → log p k = some r' → eventOf env.host r' = some (id', t') → t' - hourMs ≤ t

/-- The circumstances of the restart: the warm-up at the committed offset `c`, which is one past a record as long
    as one is left below it, gets its answers from the partition and does not reach `max_records`. -/
structure WarmStart (env : Env) (log : Log KafkaRecord) (committed : Dict Nat Nat) (answers : Answers)
    (p c : Nat) : Prop where
  window : env.warmer.windowMs = hourMs
  offset : committed.get? p = some c
  last : ∀ o r, o < c → log p o = some r → ∃ last, log p (c - 1) = some last
  truthful : Truthful env.warmer log p c answers
  records : ∀ o r, o < c → log p o = some r → InWindow env.warmer log p c answers r →
    c - env.warmer.maxRecords ≤ o

/-- The record at `i` is handled after the restart, or lies in the window of the last committed record. -/
def SeenAgain (log : Log KafkaRecord) (p c i : Nat) (r : KafkaRecord) : Prop :=
  c ≤ i ∨ ∃ last, log p (c - 1) = some last ∧ last.timestamp - hourMs ≤ r.timestamp

variable {env : Env} {host : Host} {log : Log KafkaRecord} {p c j : Nat} {r : KafkaRecord} {id : Str} {t : Int}
variable {caches caches' : Caches} {m : Message KafkaRecord} {ms : List (Message KafkaRecord)} {event : CleanEvent}
variable {answers : Answers} {cache cache' : DedupCache}

/-! ## What a record does to the cache -/

/-- An accepted event has a time of its own, so the record's timestamp does not matter. -/
theorem exists_epochMs (h : Accepts host r event) : ∃ ms, epochMs host.zone event.eventTime = .ok ms := by
  obtain ⟨raw, _, _, hevent⟩ := h
  obtain ⟨d, hutc, htime⟩ := utc_of_cleanEvent hevent
  rw [htime]
  exact epochMs_isoformat hutc host.zone

theorem eventOf_eq_some : eventOf host r = some (id, t) ↔
    ∃ event, Accepts host r event ∧ event.eventId = id ∧ epochMs host.zone event.eventTime = .ok t := by
  constructor
  · intro h
    unfold eventOf at h
    split at h
    · next event ha =>
        obtain ⟨ms, hms⟩ := exists_epochMs (attempt_eq_some.mp ha)
        rw [eventTimeMs, hms] at h
        obtain ⟨hid, ht⟩ := Prod.mk.inj (Option.some.inj h)
        exact ⟨event, attempt_eq_some.mp ha, hid, ht ▸ hms⟩
    · exact absurd h (by simp)
  · rintro ⟨event, hacc, rfl, hms⟩
    unfold eventOf
    rw [attempt_eq_some.mpr hacc]
    simp only [eventTimeMs, hms]

/-- Copies of a record carry the same event at the same time. -/
theorem eventOf_of_value_eq {r' : KafkaRecord} (h : eventOf host r = some (id, t)) (hv : r.value = r'.value) :
    eventOf host r' = some (id, t) := by
  obtain ⟨event, hacc, hid, ht⟩ := eventOf_eq_some.mp h
  exact eventOf_eq_some.mpr ⟨event, hacc.of_value_eq hv, hid, ht⟩

theorem recordId_of_eventOf (h : eventOf host r = some (id, t)) : recordId host r = .ok id := by
  obtain ⟨event, hacc, rfl, _⟩ := eventOf_eq_some.mp h
  exact recordId_of_accepts hacc

/-- A record whose id the warm-up reads is a copy of any accepted record with that id. -/
theorem eventOf_of_recordId (hsame : SamePayload host log) {p q : Nat} {r' : KafkaRecord} (hr : log p j = some r)
    (hr' : log p q = some r') (h : eventOf host r = some (id, t)) (hid : recordId host r' = .ok id) :
    eventOf host r' = some (id, t) :=
  eventOf_of_value_eq h (hsame p j q r r' id hr hr' (recordId_of_eventOf h) hid)

/-- **One message** asks the cache about its event, if it has one. -/
theorem cacheFor_handle {result : Caches × List Produced} (h : handle env caches m = .ok result) :
    cacheFor result.1 m.partition = (cacheFor caches m.partition).fill (eventOf env.host m.record).toList := by
  by_cases hacc : ∃ event, Accepts env.host m.record event
  · obtain ⟨event, hacc⟩ := hacc
    obtain ⟨ms, hms⟩ := exists_epochMs hacc
    have hevent : eventOf env.host m.record = some (event.eventId, ms) :=
      eventOf_eq_some.mpr ⟨event, hacc, rfl, hms⟩
    unfold handle transform at h
    rw [attempt_eq_some.mpr hacc] at h
    simp only [eventTimeMs, hms, deduplicate] at h
    obtain ⟨_, _, rfl⟩ := map_eq_ok.mp h
    rw [cacheFor_set, if_pos rfl, hevent]
    rfl
  · have hnone : eventOf env.host m.record = none := by
      rw [Option.eq_none_iff_forall_ne_some]
      rintro ⟨id, t⟩ hevent
      obtain ⟨event, ha, _⟩ := eventOf_eq_some.mp hevent
      exact hacc ⟨event, ha⟩
    rw [handle_of_no_event (fun event ha => hacc ⟨event, attempt_eq_some.mp ha⟩) h, cacheFor_set, if_pos rfl,
      hnone]
    rfl

theorem cacheFor_handleAll (hp : ∀ m ∈ ms, m.partition = p) (h : handleAll (handle env) caches ms = .ok caches') :
    cacheFor caches' p = (cacheFor caches p).fill (ms.filterMap (fun m => eventOf env.host m.record)) := by
  induction ms generalizing caches with
  | nil =>
      obtain rfl := Except.ok.inj h
      rfl
  | cons m ms ih =>
      obtain ⟨caches₁, outs, hm, hrest⟩ := handleAll_cons.mp h
      have hfirst := cacheFor_handle hm
      rw [hp m List.mem_cons_self] at hfirst
      rw [ih (fun x hx => hp x (List.mem_cons_of_mem _ hx)) hrest, hfirst, ← DedupCache.fill_append]
      congr 1
      rw [List.filterMap_cons]
      cases eventOf env.host m.record <;> rfl

/-- **The answer** depends on whether the cache still holds the id at the event's time. -/
theorem isDuplicate_iff (h : eventOf env.host m.record = some (id, t)) :
    isDuplicate env caches m = true ↔ id ∈ ((cacheFor caches m.partition).expire t).ids := by
  obtain ⟨event, hacc, rfl, hms⟩ := eventOf_eq_some.mp h
  unfold isDuplicate transform
  rw [attempt_eq_some.mpr hacc, ← DedupCache.isNew_eq_false_iff]
  simp only [eventTimeMs, hms, deduplicate]
  cases ((cacheFor caches m.partition).isNew event.eventId t).1 <;> simp

/-! ## Nothing new is raised -/

/-- The event can be published. -/
def Encodable (host : Host) (event : CleanEvent) : Prop :=
  (∃ key, encodeText event.pageKey = .ok key) ∧ ∃ value, event.toJson host = .ok value

theorem exists_outputs_clean : (∃ outs, outputs env m (.clean event) = .ok outs) ↔ Encodable env.host event := by
  constructor
  · rintro ⟨outs, h⟩
    obtain ⟨key, hkey, h⟩ := bind_eq_ok.mp h
    obtain ⟨value, hvalue, _⟩ := bind_eq_ok.mp h
    exact ⟨⟨key, hkey⟩, value, hvalue⟩
  · rintro ⟨⟨key, hkey⟩, value, hvalue⟩
    exact ⟨_, bind_eq_ok.mpr ⟨key, hkey, bind_eq_ok.mpr ⟨value, hvalue, rfl⟩⟩⟩

/-- A message that one cache got through, another does too: only publishing its event could still raise. -/
theorem exists_handle {result : Caches × List Produced} (h : handle env caches m = .ok result)
    (henc : ∀ event, Accepts env.host m.record event → Encodable env.host event) (other : Caches) :
    ∃ result', handle env other m = .ok result' := by
  unfold handle transform at h ⊢
  cases ha : attempt env.host m.record.payload with
  | error e =>
      rw [ha] at h
      cases e with
      | parseError reason =>
          obtain ⟨outs, houts, _⟩ := map_eq_ok.mp h
          exact ⟨_, map_eq_ok.mpr ⟨outs, houts, rfl⟩⟩
      | _ => exact absurd h (by simp)
  | ok found =>
      cases found with
      | none => exact ⟨_, rfl⟩
      | some event =>
          have hacc := attempt_eq_some.mp ha
          obtain ⟨ms, hms⟩ := exists_epochMs hacc
          obtain ⟨outs, houts⟩ := (@exists_outputs_clean env m event).mpr (henc event hacc)
          simp only [eventTimeMs, hms, deduplicate]
          cases ((cacheFor other m.partition).isNew event.eventId ms).1 with
          | false => exact ⟨_, rfl⟩
          | true => exact ⟨_, map_eq_ok.mpr ⟨outs, houts, rfl⟩⟩

/-- **What a cleaner got through can be published**: the first copy of an event was. -/
theorem encodable_of_handleAll (hsame : SamePayload env.host log)
    (hms : ∀ m ∈ ms, m.partition = p ∧ Delivers log m) (h : handleAll (handle env) Dict.empty ms = .ok caches) :
    ∀ m ∈ ms, ∀ event, Accepts env.host m.record event → Encodable env.host event := by
  induction ms using List.reverseRecOn generalizing caches with
  | nil => exact fun m hm => absurd hm (by simp)
  | append_singleton ms last ih =>
      obtain ⟨mid, hmid, hlast⟩ := workAll_append.mp h
      have hinit : ∀ m ∈ ms, m.partition = p ∧ Delivers log m :=
        fun m hm => hms m (List.mem_append_left _ hm)
      have hbefore := ih hinit hmid
      obtain ⟨hp, hdel⟩ := hms last (List.mem_append_right _ (List.mem_singleton_self last))
      intro m hm event hacc
      rcases List.mem_append.mp hm with hm | hm
      · exact hbefore m hm event hacc
      obtain rfl := List.mem_singleton.mp hm
      obtain ⟨ms', hms'⟩ := exists_epochMs hacc
      obtain ⟨_, _, hhandle, _⟩ := handleAll_cons.mp hlast
      unfold handle transform at hhandle
      rw [attempt_eq_some.mpr hacc] at hhandle
      simp only [eventTimeMs, hms', deduplicate] at hhandle
      obtain ⟨outs, houts, _⟩ := map_eq_ok.mp hhandle
      cases hans : ((cacheFor mid m.partition).isNew event.eventId ms').1 with
      | true =>
          rw [hans] at houts
          exact exists_outputs_clean.mp ⟨outs, houts⟩
      | false =>
          -- an earlier copy was asked about, and it was published
          have hheld := DedupCache.mem_ids_of_isNew_eq_false hans
          rw [hp, cacheFor_handleAll (fun x hx => (hinit x hx).1) hmid] at hheld
          rcases DedupCache.mem_ids_fill hheld with hempty | ⟨call, hcall, hid⟩
          · exact absurd hempty (List.not_mem_nil)
          · obtain ⟨x, hx, hevent⟩ := List.mem_filterMap.mp hcall
            obtain ⟨event', hacc', hid', _⟩ := eventOf_eq_some.mp hevent
            obtain ⟨hxp, hxdel⟩ := hinit x hx
            have hvalue : x.record.value = m.record.value := by
              apply hsame p x.offset m.offset x.record m.record event.eventId (hxp ▸ hxdel) (hp ▸ hdel)
              · rw [recordId_of_accepts hacc', hid', hid]
              · exact recordId_of_accepts hacc
            have heq := attempt_eq_some.mpr (hacc'.of_value_eq hvalue)
            rw [attempt_eq_some.mpr hacc] at heq
            obtain rfl := Option.some.inj (Except.ok.inj heq)
            exact hbefore x hx _ hacc'

/-- `_load` never raises on a message that the cleaner got through. -/
theorem exists_load {result : Caches × List Produced} (h : handle env caches m = .ok result)
    (hstamp : 0 < m.record.timestamp) :
    ∃ used, load env.host answers cache m = .ok (cache.fill (loadOf env.host m.record).toList, used) := by
  unfold load loadOf
  cases hid : recordId env.host m.record with
  | ok id => exact ⟨true, by simp only [if_pos hstamp]; rfl⟩
  | error e =>
      have hquiet : e.isParseError = true := by
        unfold recordId at hid
        unfold handle transform attempt at h
        cases hraw : parseRaw env.host m.record.payload with
        | error e' =>
            rw [hraw] at hid h
            obtain rfl := Except.error.inj hid
            cases e' with
            | parseError reason => rfl
            | _ => exact absurd h (by simp [bind, Except.bind])
        | ok raw =>
            rw [hraw] at hid
            exact quiet_eventIdOf e hid
      cases e with
      | parseError reason => exact ⟨false, rfl⟩
      | _ => exact absurd hquiet (by simp [Exc.isParseError])

theorem callEach_load (h : ∀ m ∈ ms, 0 < m.record.timestamp ∧ ∃ before result, handle env before m = .ok result) :
    callEach (load env.host answers) cache ms =
      .ok (cache.fill (ms.filterMap (fun m => loadOf env.host m.record))) := by
  induction ms generalizing cache with
  | nil => rfl
  | cons m ms ih =>
      obtain ⟨hstamp, before, result, hm⟩ := h m List.mem_cons_self
      obtain ⟨used, hload⟩ := @exists_load env before m answers cache result hm hstamp
      rw [callEach, hload]
      simp only
      rw [ih (fun x hx => h x (List.mem_cons_of_mem _ hx)), ← DedupCache.fill_append]
      congr 2
      rw [List.filterMap_cons]
      cases loadOf env.host m.record <;> rfl

/-! ## The restarted cleaner -/

variable {committed : Dict Nat Nat}

/-- What the warm-up asks the cache about, and what the cleaner asks it about afterwards. -/
def loads (env : Env) (log : Log KafkaRecord) (answers : Answers) (p c : Nat) : List (Str × Int) :=
  (replayed env.warmer log p c answers).filterMap (fun m => loadOf env.host m.record)

def lives (env : Env) (log : Log KafkaRecord) (p c j : Nat) : List (Str × Int) :=
  (visible log p c j).filterMap (fun m => eventOf env.host m.record)

theorem mem_replayed_iff (hlog : RawPartition env.host log p) (hstart : WarmStart env log committed answers p c)
    {m : Message KafkaRecord} : m ∈ replayed env.warmer log p c answers ↔
      m.partition = p ∧ m.offset < c ∧ Delivers log m ∧
        ∃ last, log p (c - 1) = some last ∧ last.timestamp - hourMs ≤ m.record.timestamp := by
  rw [mem_replayed hstart.truthful hlog.ordered hstart.records]
  refine and_congr_right (fun hp => and_congr_right (fun hlt => and_congr_right (fun hdel => ?_)))
  obtain ⟨last, hlast⟩ := hstart.last m.offset m.record hlt (hp ▸ hdel)
  rw [InWindow, anchorTime_eq hstart.truthful hlast (hlog.stamped _ _ hlast), hstart.window]
  constructor
  · exact fun h => ⟨last, hlast, h⟩
  · rintro ⟨last', hlast', h⟩
    obtain rfl := Option.some.inj (hlast.symm.trans hlast')
    exact h

/-- **The restarted cleaner gets as far** as the one that processed the log, with a cache filled by both. -/
theorem exists_restarted (hlog : RawPartition env.host log p) (hstart : WarmStart env log committed answers p c)
    (hcj : c ≤ j) {full : Caches} (hfull : processed env log p j = .ok full) :
    ∃ caches, restarted env log committed answers p c j = .ok caches ∧
      cacheFor caches p = (DedupCache.fill {} (loads env log answers p c)).fill (lives env log p c j) := by
  have hin : ∀ {a b : Nat}, ∀ m ∈ visible log p a b, m.partition = p ∧ Delivers log m := by
    intro a b m hm
    obtain ⟨hp, _, _, hdel⟩ := mem_visible.mp hm
    exact ⟨hp, hdel⟩
  have hgot : ∀ m : Message KafkaRecord, m.partition = p → m.offset < j → Delivers log m →
      ∃ before result, handle env before m = .ok result :=
    fun m hp hlt hdel => handle_of_mem hfull (mem_visible.mpr ⟨hp, Nat.zero_le _, hlt, hdel⟩)
  -- the warm-up
  have hwarm : warm env log committed (fun _ => answers) Dict.empty [p] =
      .ok (Dict.empty.set p (DedupCache.fill {} (loads env log answers p c))) := by
    have hcall := @callEach_load env _ answers {} (fun m hm => by
      obtain ⟨hp, hlt, hdel, _⟩ := (mem_replayed_iff hlog hstart).mp hm
      exact ⟨hlog.stamped m.offset _ (hp ▸ hdel), hgot m hp (hlt.trans_le hcj) hdel⟩)
    have hreplay := @replay_truthful _ _ env.warmer log p c Exc.kafkaException (load env.host answers) answers
      hstart.truthful {}
    rw [hcall] at hreplay
    obtain ⟨result, hresult, hfst⟩ := map_eq_ok.mp hreplay
    have hempty : cacheFor Dict.empty p = {} := rfl
    simp only [warm, warmOne, hstart.offset, hempty, hresult]
    rw [hfst]
    rfl
  -- the messages from the committed offset on
  have henc := encodable_of_handleAll hlog.samePayload hin hfull
  obtain ⟨caches, hcaches⟩ := @exists_handleAll _ _ _ _ (handle env) (visible log p c j)
    (fun m hm other => by
      obtain ⟨hp, hle, hlt, hdel⟩ := mem_visible.mp hm
      obtain ⟨before, result, hm'⟩ := hgot m hp hlt hdel
      exact exists_handle hm' (henc m (mem_visible.mpr ⟨hp, Nat.zero_le _, hlt, hdel⟩)) other)
    (Dict.empty.set p (DedupCache.fill {} (loads env log answers p c)))
  refine ⟨caches, ?_, ?_⟩
  · rw [restarted, hwarm]
    exact hcaches
  · rw [cacheFor_handleAll (fun m hm => (hin m hm).1) hcaches, cacheFor_set, if_pos rfl]
    rfl

/-- What the warm-up filed an id under is late enough for the rest of the run. -/
theorem heldSince_loads (hlog : RawPartition env.host log p) (hstart : WarmStart env log committed answers p c)
    (hr : log p j = some r) (hevent : eventOf env.host r = some (id, t))
    (hcap : (DedupCache.fill {} (loads env log answers p c)).evictedEarly = 0)
    (h : ∃ call ∈ loads env log answers p c, call.1 = id) :
    (DedupCache.fill {} (loads env log answers p c)).HeldSince id t := by
  have hcall : ∀ call ∈ loads env log answers p c, ∃ (m : Message KafkaRecord) (last : KafkaRecord),
      log p m.offset = some m.record ∧
      log p (c - 1) = some last ∧ m.offset ≤ c - 1 ∧ last.timestamp - hourMs ≤ m.record.timestamp ∧
      recordId env.host m.record = .ok call.1 ∧ m.record.timestamp = call.2 := by
    intro call hcall
    obtain ⟨m, hm, hload⟩ := List.mem_filterMap.mp hcall
    obtain ⟨hp, hlt, hdel, last, hlast, hwindow⟩ := (mem_replayed_iff hlog hstart).mp hm
    unfold loadOf at hload
    split at hload
    · next id' hid' =>
        obtain rfl := Option.some.inj hload
        exact ⟨m, last, hp ▸ hdel, hlast, Nat.le_sub_one_of_lt hlt, hwindow, hid', rfl⟩
    · exact absurd hload (by simp)
  have ⟨_, hfirst, _⟩ := h
  obtain ⟨_, last, _, hlast, _⟩ := hcall _ hfirst
  -- all loads lie between the window's start and the last committed record
  refine DedupCache.HeldSince.mono (t := max t (last.timestamp - hourMs)) ?_ (le_max_left _ _)
  refine DedupCache.heldSince_fill hcap ?_ ?_ (fun hid => absurd hid List.not_mem_nil) (Or.inr h)
  · intro call hc
    obtain ⟨m, last', hm, hlast', hle, _, _, htime⟩ := hcall call hc
    obtain rfl := Option.some.inj (hlast.symm.trans hlast')
    have := hlog.ordered _ _ _ _ hle hm hlast
    refine le_trans ?_ (le_max_right _ _)
    show call.2 - hourMs ≤ _
    omega
  · rintro call hc rfl
    obtain ⟨m, last', hm, hlast', _, hwindow, hid, htime⟩ := hcall call hc
    obtain rfl := Option.some.inj (hlast.symm.trans hlast')
    have hcopy := eventOf_of_recordId hlog.samePayload hr hm hevent hid
    have := hlog.past _ _ _ _ hm hcopy
    rw [← htime]
    exact max_le this hwindow

/-- What the cleaner asked about since the restart. -/
theorem mem_lives {call : Str × Int} : call ∈ lives env log p c j ↔
    ∃ i r', c ≤ i ∧ i < j ∧ log p i = some r' ∧ eventOf env.host r' = some call := by
  unfold lives
  rw [List.mem_filterMap]
  constructor
  · rintro ⟨m, hm, hevent⟩
    obtain ⟨rfl, hle, hlt, hdel⟩ := mem_visible.mp hm
    exact ⟨m.offset, m.record, hle, hlt, hdel, hevent⟩
  · rintro ⟨i, r', hle, hlt, hr', hevent⟩
    exact ⟨⟨p, i, r'⟩, mem_visible.mpr ⟨rfl, hle, hlt, hr'⟩, hevent⟩

/-- What the cache holds, it has from a copy the restarted cleaner saw. -/
theorem seenAgain_of_mem_ids (hlog : RawPartition env.host log p)
    (hstart : WarmStart env log committed answers p c) (hcj : c ≤ j) (hr : log p j = some r)
    (hevent : eventOf env.host r = some (id, t))
    (h : id ∈ ((DedupCache.fill {} (loads env log answers p c)).fill (lives env log p c j)).ids) :
    ∃ i r', i < j ∧ log p i = some r' ∧ eventOf env.host r' = some (id, t) ∧ SeenAgain log p c i r' := by
  rcases DedupCache.mem_ids_fill h with h | ⟨call, hcall, rfl⟩
  · rcases DedupCache.mem_ids_fill h with h | ⟨call, hcall, rfl⟩
    · exact absurd h List.not_mem_nil
    · -- loaded by the warm-up
      obtain ⟨m, hm, hload⟩ := List.mem_filterMap.mp hcall
      obtain ⟨rfl, hlt, hdel, hwindow⟩ := (mem_replayed_iff hlog hstart).mp hm
      have hid : recordId env.host m.record = .ok call.1 := by
        unfold loadOf at hload
        split at hload
        · next hid => rw [hid, ← Option.some.inj hload]
        · exact absurd hload (by simp)
      exact ⟨m.offset, m.record, hlt.trans_le hcj, hdel,
        eventOf_of_recordId hlog.samePayload hr hdel hevent hid, Or.inr hwindow⟩
  · -- handled since
    obtain ⟨i, r', hle, hlt, hr', hcopy⟩ := mem_lives.mp hcall
    exact ⟨i, r', hlt, hr',
      eventOf_of_recordId hlog.samePayload hr hr' hevent (recordId_of_eventOf hcopy), Or.inl hle⟩

/-- A copy the restarted cleaner saw is still held when the event is repeated. -/
theorem heldSince_of_seenAgain (hlog : RawPartition env.host log p)
    (hstart : WarmStart env log committed answers p c) {full : Caches}
    (hrepeats : Repeats env log p j full r id t)
    (hcap : ((DedupCache.fill {} (loads env log answers p c)).fill (lives env log p c j)).evictedEarly = 0)
    {i : Nat} {r' : KafkaRecord} (hij : i < j) (hr' : log p i = some r')
    (hevent : eventOf env.host r' = some (id, t)) (hseen : SeenAgain log p c i r') :
    ((DedupCache.fill {} (loads env log answers p c)).fill (lives env log p c j)).HeldSince id t := by
  -- evictions are only counted up, so the warm-up has had none
  have hloaded : (DedupCache.fill {} (loads env log answers p c)).evictedEarly = 0 := by
    have := DedupCache.evictedEarly_le_fill (DedupCache.fill {} (loads env log answers p c)) (lives env log p c j)
    omega
  have hwarm := fun h => heldSince_loads hlog hstart hrepeats.record hrepeats.event hloaded h
  apply DedupCache.heldSince_fill (hcap.trans hloaded.symm)
  · intro call hcall
    obtain ⟨k, r'', _, hlt, hr'', hcall⟩ := mem_lives.mp hcall
    rw [DedupCache.windowMs_fill]
    exact hrepeats.recent k r'' call.1 call.2 hlt hr'' hcall
  · rintro call hcall rfl
    obtain ⟨k, r'', _, _, hr'', hcall⟩ := mem_lives.mp hcall
    have hcopy := eventOf_of_recordId hlog.samePayload hrepeats.record hr'' hrepeats.event
      (recordId_of_eventOf hcall)
    rw [hcall] at hcopy
    exact le_of_eq (congrArg Prod.snd (Option.some.inj hcopy)).symm
  · intro hid
    rcases DedupCache.mem_ids_fill hid with hid | hid
    · exact absurd hid List.not_mem_nil
    · exact hwarm hid
  · -- the copy was loaded by the warm-up, or it has been handled since
    rcases Nat.lt_or_ge i c with hic | hic
    · refine Or.inl (hwarm ?_).mem_ids
      have hm : (⟨p, i, r'⟩ : Message KafkaRecord) ∈ replayed env.warmer log p c answers :=
        (mem_replayed_iff hlog hstart).mpr ⟨rfl, hic, hr', hseen.resolve_left (Nat.not_le_of_lt hic)⟩
      refine ⟨(id, r'.timestamp), List.mem_filterMap.mpr ⟨_, hm, ?_⟩, rfl⟩
      simp only [loadOf, recordId_of_eventOf hevent]
    · exact Or.inr ⟨(id, t), mem_lives.mpr ⟨i, r', hic, hij, hr', hevent⟩, rfl⟩

/-- **Which repeats a restarted cleaner drops.** Over a `wiki.raw` partition and for a restart at any committed
    offset, with `max_records` not reached and nothing evicted for the size of the cache: a repeated event is
    dropped by the restarted cleaner if and only if a copy of it is handled after the restart or has a record
    timestamp within the window of the last committed record. -/
theorem duplicate_again_iff (hlog : RawPartition env.host log p)
    (hstart : WarmStart env log committed answers p c) (hcj : c ≤ j) {full : Caches}
    (hfull : processed env log p j = .ok full) (hrepeats : Repeats env log p j full r id t)
    (hsize : ∀ caches, restarted env log committed answers p c j = .ok caches →
      (cacheFor caches p).evictedEarly = 0) :
    (∃ caches, restarted env log committed answers p c j = .ok caches ∧
      isDuplicate env caches ⟨p, j, r⟩ = true) ↔
    ∃ i r', i < j ∧ log p i = some r' ∧ eventOf env.host r' = some (id, t) ∧ SeenAgain log p c i r' := by
  obtain ⟨caches, hcaches, hcache⟩ := exists_restarted hlog hstart hcj hfull
  have hcap := hsize caches hcaches
  rw [hcache] at hcap
  have hanswer := @isDuplicate_iff env id t caches ⟨p, j, r⟩ hrepeats.event
  rw [show cacheFor caches (⟨p, j, r⟩ : Message KafkaRecord).partition = _ from hcache] at hanswer
  constructor
  · rintro ⟨other, hother, hdup⟩
    obtain rfl := Except.ok.inj (hcaches.symm.trans hother)
    exact seenAgain_of_mem_ids hlog hstart hcj hrepeats.record hrepeats.event
      (DedupCache.mem_ids_expire (hanswer.mp hdup))
  · rintro ⟨i, r', hij, hr', hevent, hseen⟩
    refine ⟨caches, hcaches, hanswer.mpr ?_⟩
    have hheld := heldSince_of_seenAgain hlog hstart hrepeats hcap hij hr' hevent hseen
    apply DedupCache.HeldSince.mem_ids
    apply DedupCache.heldSince_expire hheld
    rw [DedupCache.windowMs_fill, DedupCache.windowMs_fill]
    show t - hourMs ≤ t
    unfold hourMs
    omega

/-! ## An edit that comes again after a restart -/

/-- Another edit. -/
def otherEdit : Bytes :=
  ascii (lit ("\x7b\"meta\":\x7b\"id\":\"b\"\x7d,\"type\":\"edit\",\"wiki\":\"w\",\"title\":\"T\"," ++
    "\"namespace\":0,\"timestamp\":2\x7d"))

/-- A record of the edit, or of the other one. -/
def firstEdit (time : Int) : KafkaRecord := { value := some anEdit, timestamp := time }

def secondEdit (time : Int) : KafkaRecord := { value := some otherEdit, timestamp := time }

/-- An edit, another one, and the first one again; the last two were written at `late`. -/
def editAgain (late : Int) : Log KafkaRecord
  | 0, 0 => some (firstEdit 1000)
  | 0, 1 => some (secondEdit late)
  | 0, 2 => some (firstEdit late)
  | _, _ => none

/-- What a partition with these records answers, when the loop of the replay polls for the given offsets. -/
def editAnswers (late : Int) (offsets : List Nat) : Answers where
  anchor := .record 1
  offsetForTime time := if time ≤ 1000 then 0 else if time ≤ late then 1 else -1
  polls := offsets.map .record

/-- Two records were committed before the restart. -/
def committedTwo : Dict Nat Nat := Dict.empty.set 0 2

variable {late : Int} {o : Nat}

theorem editAgain_cases (h : editAgain late p o = some r) :
    p = 0 ∧ ((o = 0 ∧ r = firstEdit 1000) ∨ (o = 1 ∧ r = secondEdit late) ∨ (o = 2 ∧ r = firstEdit late)) := by
  unfold editAgain at h
  split at h
  · exact ⟨rfl, Or.inl ⟨rfl, (Option.some.inj h).symm⟩⟩
  · exact ⟨rfl, Or.inr (Or.inl ⟨rfl, (Option.some.inj h).symm⟩)⟩
  · exact ⟨rfl, Or.inr (Or.inr ⟨rfl, (Option.some.inj h).symm⟩)⟩
  · exact absurd h (by simp)

theorem eventOf_firstEdit (time : Int) : eventOf utcHost (firstEdit time) = some (lit "a", 1000) := by
  have h : eventOf utcHost (firstEdit 1000) = some (lit "a", 1000) := by decide +kernel
  exact eventOf_of_value_eq h rfl

theorem eventOf_secondEdit (time : Int) : eventOf utcHost (secondEdit time) = some (lit "b", 2000) := by
  have h : eventOf utcHost (secondEdit 2000) = some (lit "b", 2000) := by decide +kernel
  exact eventOf_of_value_eq h rfl

/-- The id decides which of the two edits a record holds. -/
theorem value_editAgain {id : Str} (h : editAgain late p o = some r) (hid : recordId utcHost r = .ok id) :
    r.value = some (if id = lit "a" then anEdit else otherEdit) := by
  obtain ⟨_, ⟨_, rfl⟩ | ⟨_, rfl⟩ | ⟨_, rfl⟩⟩ := editAgain_cases h
  · obtain rfl := Except.ok.inj (hid.symm.trans (recordId_of_eventOf (eventOf_firstEdit _)))
    rfl
  · obtain rfl := Except.ok.inj (hid.symm.trans (recordId_of_eventOf (eventOf_secondEdit _)))
    rfl
  · obtain rfl := Except.ok.inj (hid.symm.trans (recordId_of_eventOf (eventOf_firstEdit _)))
    rfl

theorem rawPartition_editAgain (hlate : 2000 ≤ late) : RawPartition utcHost (editAgain late) 0 where
  stamped := by
    intro o r h
    obtain ⟨_, ⟨_, rfl⟩ | ⟨_, rfl⟩ | ⟨_, rfl⟩⟩ := editAgain_cases h <;> simp only [firstEdit, secondEdit] <;> omega
  ordered := by
    intro o x r r' hle h h'
    obtain ⟨_, ⟨rfl, rfl⟩ | ⟨rfl, rfl⟩ | ⟨rfl, rfl⟩⟩ := editAgain_cases h <;>
      obtain ⟨_, ⟨rfl, rfl⟩ | ⟨rfl, rfl⟩ | ⟨rfl, rfl⟩⟩ := editAgain_cases h' <;>
      simp only [firstEdit, secondEdit] <;> omega
  past := by
    intro o r id t h hevent
    obtain ⟨_, ⟨_, rfl⟩ | ⟨_, rfl⟩ | ⟨_, rfl⟩⟩ := editAgain_cases h
    · obtain rfl := congrArg Prod.snd (Option.some.inj ((eventOf_firstEdit _).symm.trans hevent))
      exact Int.le_refl _
    · obtain rfl := congrArg Prod.snd (Option.some.inj ((eventOf_secondEdit _).symm.trans hevent))
      exact hlate
    · obtain rfl := congrArg Prod.snd (Option.some.inj ((eventOf_firstEdit _).symm.trans hevent))
      show 1000 ≤ late
      omega
  samePayload := by
    intro p o o' r r' id h h' hid hid'
    rw [value_editAgain h hid, value_editAgain h' hid']

theorem warmStart_editAgain {offsets : List Nat}
    (hoffsets : ∀ start, startOffset {} (editAgain late) 0 2 (editAnswers late offsets) = some start →
      offsets = (visible (editAgain late) 0 start 2).map Message.offset) :
    WarmStart { host := utcHost } (editAgain late) committedTwo (editAnswers late offsets) 0 2 where
  window := rfl
  offset := rfl
  last o r _ _ := ⟨secondEdit late, rfl⟩
  truthful := {
    low := fun o h => absurd h (Nat.not_lt_zero o)
    anchor := fun r _ => rfl
    found := by
      intro time
      unfold editAnswers
      dsimp only
      -- the broker's answer: the first record that is as late, if there is one
      by_cases h0 : time ≤ 1000
      · rw [if_pos h0]
        exact Or.inr ⟨0, rfl, ⟨firstEdit 1000, rfl, h0⟩, fun x r hx => absurd hx (Nat.not_lt_zero x)⟩
      rw [if_neg h0]
      have hfirst : ∀ x r, x < 1 → editAgain late 0 x = some r → r.timestamp < time := by
        intro x r hx h
        obtain rfl : x = 0 := by omega
        rw [← Option.some.inj h]
        exact Int.not_le.mp h0
      by_cases h1 : time ≤ late
      · rw [if_pos h1]
        exact Or.inr ⟨1, rfl, ⟨secondEdit late, rfl, h1⟩, hfirst⟩
      · rw [if_neg h1]
        refine Or.inl ⟨by decide, fun o r ho h => ?_⟩
        rcases Nat.lt_or_ge o 1 with ho' | ho'
        · exact hfirst o r ho' h
        · obtain rfl : o = 1 := by omega
          rw [← Option.some.inj h]
          exact Int.not_le.mp h1
    polls := by
      intro start hstart
      refine ⟨[], ?_, by simp⟩
      rw [List.append_nil]
      show offsets.map Poll.record = _
      rw [hoffsets start hstart, List.map_map]
      rfl }
  records o r ho _ _ := by
    show 2 - 200000 ≤ o
    omega

theorem repeats_editAgain {full : Caches}
    (hdup : isDuplicate { host := utcHost } full ⟨0, 2, firstEdit late⟩ = true) :
    Repeats { host := utcHost } (editAgain late) 0 2 full (firstEdit late) (lit "a") 1000 where
  record := rfl
  event := eventOf_firstEdit late
  duplicate := hdup
  copy := ⟨0, firstEdit 1000, by decide, rfl, eventOf_firstEdit 1000⟩
  recent := by
    intro k r' id' t' hk h hevent
    obtain ⟨_, ⟨_, rfl⟩ | ⟨_, rfl⟩ | ⟨rfl, _⟩⟩ := editAgain_cases h
    · obtain ⟨_, rfl⟩ := Prod.mk.inj (Option.some.inj ((eventOf_firstEdit _).symm.trans hevent))
      decide
    · obtain ⟨_, rfl⟩ := Prod.mk.inj (Option.some.inj ((eventOf_secondEdit _).symm.trans hevent))
      decide
    · exact absurd hk (Nat.lt_irrefl _)

/-- What holds of what a computation returned. -/
theorem toOption_map {α β : Type} {x : Except Exc α} {f : α → β} {b : β} (h : x.toOption.map f = some b) :
    ∃ a, x = .ok a ∧ f a = b := by
  obtain ⟨a, ha, hb⟩ := Option.map_eq_some_iff.mp h
  exact ⟨a, toOption_eq_some.mp ha, hb⟩

/-- Two seconds after the first copy the restarted cleaner still knows it. -/
theorem duplicate_again_soon :
    ∃ caches, restarted { host := utcHost } (editAgain 2000) committedTwo (editAnswers 2000 [0, 1]) 0 2 2 =
      .ok caches ∧ isDuplicate { host := utcHost } caches ⟨0, 2, firstEdit 2000⟩ = true := by
  obtain ⟨full, hfull, hdup⟩ := toOption_map (f := fun full =>
    isDuplicate { host := utcHost } full ⟨0, 2, firstEdit 2000⟩) (b := true)
    (by decide +kernel : (processed { host := utcHost } (editAgain 2000) 0 2).toOption.map _ = some true)
  have hstart : WarmStart { host := utcHost } (editAgain 2000) committedTwo (editAnswers 2000 [0, 1]) 0 2 := by
    apply warmStart_editAgain
    intro start h
    have h0 : startOffset {} (editAgain 2000) 0 2 (editAnswers 2000 [0, 1]) = some 0 := by decide +kernel
    obtain rfl := Option.some.inj (h0.symm.trans h)
    rfl
  obtain ⟨caches, hcaches, hsize⟩ := toOption_map (f := fun caches => (cacheFor caches 0).evictedEarly) (b := 0)
    (by decide +kernel : (restarted { host := utcHost } (editAgain 2000) committedTwo (editAnswers 2000 [0, 1])
      0 2 2).toOption.map _ = some 0)
  refine (duplicate_again_iff (rawPartition_editAgain (by decide)) hstart (by decide) hfull (repeats_editAgain hdup)
    ?_).mpr ⟨0, firstEdit 1000, by decide, rfl, eventOf_firstEdit 1000,
      Or.inr ⟨secondEdit 2000, rfl, by decide⟩⟩
  intro other hother
  rw [hcaches] at hother
  exact Except.ok.inj hother ▸ hsize

/-- Two hours after the first copy, with a backlog behind it whose events are seconds apart, it is out of the
    window by its record's timestamp: the restarted cleaner takes the second copy for a new event. -/
theorem duplicate_readmitted :
    ∃ full caches, RawPartition utcHost (editAgain 7200000) 0 ∧
      WarmStart { host := utcHost } (editAgain 7200000) committedTwo (editAnswers 7200000 [1]) 0 2 ∧
      processed { host := utcHost } (editAgain 7200000) 0 2 = .ok full ∧
      Repeats { host := utcHost } (editAgain 7200000) 0 2 full (firstEdit 7200000) (lit "a") 1000 ∧
      restarted { host := utcHost } (editAgain 7200000) committedTwo (editAnswers 7200000 [1]) 0 2 2 = .ok caches ∧
      (cacheFor caches 0).evictedEarly = 0 ∧
      isDuplicate { host := utcHost } caches ⟨0, 2, firstEdit 7200000⟩ = false := by
  obtain ⟨full, hfull, hdup⟩ := toOption_map (f := fun full =>
    isDuplicate { host := utcHost } full ⟨0, 2, firstEdit 7200000⟩) (b := true)
    (by decide +kernel : (processed { host := utcHost } (editAgain 7200000) 0 2).toOption.map _ = some true)
  obtain ⟨caches, hcaches, hanswer⟩ := toOption_map (f := fun caches => ((cacheFor caches 0).evictedEarly,
    isDuplicate { host := utcHost } caches ⟨0, 2, firstEdit 7200000⟩)) (b := (0, false))
    (by decide +kernel : (restarted { host := utcHost } (editAgain 7200000) committedTwo
      (editAnswers 7200000 [1]) 0 2 2).toOption.map _ = some (0, false))
  refine ⟨full, caches, rawPartition_editAgain (by decide), ?_, hfull, repeats_editAgain hdup, hcaches,
    congrArg Prod.fst hanswer, congrArg Prod.snd hanswer⟩
  apply warmStart_editAgain
  intro start h
  have h1 : startOffset {} (editAgain 7200000) 0 2 (editAnswers 7200000 [1]) = some 1 := by decide +kernel
  obtain rfl := Option.some.inj (h1.symm.trans h)
  rfl

end Cleaner
end Wikistream
