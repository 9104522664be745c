import Wikistream.Correctness.CleanerRestart
import Wikistream.Correctness.DedupWindow

/-!
# `Correctness.WarmUpIds` — what the warm-up remembers, and what live processing remembers

The live cleaner files the id of an event that passes validation. The warm-up reads the id alone, so it also files
those of canaries and of rejected records.

## Contents
- **Two folds over a range of records** (`loaded`, `transformed`), as calls of `is_new` (`loadCalls`, `eventCalls`).
- **Within one window** (`WithinWindow`) a cache holds exactly the ids it was asked about, each under the time of
  its first call (`inBucket_of_withinWindow`).
- **The result** (`warm_up_ids_iff`).
-/

namespace Wikistream
namespace Dedup

open Py Lib

namespace DedupCache

variable {cache : DedupCache} {calls : List (Str × Int)} {id : Str} {t : Int}

/-! ## Within one window -/

/-- No two calls are more than a window apart. -/
def WithinWindow (windowMs : Int) (calls : List (Str × Int)) : Prop :=
  ∀ a ∈ calls, ∀ b ∈ calls, a.2 - windowMs ≤ b.2

instance (windowMs : Int) (calls : List (Str × Int)) : Decidable (WithinWindow windowMs calls) :=
  inferInstanceAs (Decidable (∀ _ ∈ _, ∀ _ ∈ _, _))

/-- The first call about the id is at the time `t`. -/
def FirstAsked (calls : List (Str × Int)) (id : Str) (t : Int) : Prop :=
  ∃ before after, calls = before ++ (id, t) :: after ∧ ∀ call ∈ before, call.1 ≠ id

theorem exists_firstAsked (h : ∃ call ∈ calls, call.1 = id) : ∃ t, FirstAsked calls id t := by
  induction calls with
  | nil =>
      obtain ⟨call, hcall, _⟩ := h
      exact absurd hcall (by simp)
  | cons c calls ih =>
      by_cases hc : c.1 = id
      · exact ⟨c.2, [], calls, by rw [← hc]; rfl, fun call hcall => absurd hcall (by simp)⟩
      · obtain ⟨call, hcall, hid⟩ := h
        rcases List.mem_cons.mp hcall with rfl | hcall
        · exact absurd hid hc
        · obtain ⟨t, before, after, rfl, hbefore⟩ := ih ⟨call, hcall, hid⟩
          refine ⟨t, c :: before, after, rfl, ?_⟩
          intro x hx
          rcases List.mem_cons.mp hx with rfl | hx
          · exact hc
          · exact hbefore x hx

/-- Within one window only the first call about an id is accepted. -/
theorem remembered_of_withinWindow (hempty : cache.held = Dict.empty) (hroom : Roomy cache calls)
    (hwithin : WithinWindow cache.windowMs calls) : Remembered cache calls id t ↔ FirstAsked calls id t := by
  induction calls using List.reverseRecOn generalizing t with
  | nil => exact iff_of_false (fun ⟨_, _, h, _⟩ => absurd h (by simp)) (fun ⟨_, _, h, _⟩ => absurd h (by simp))
  | append_singleton calls call ih =>
      have hbefore := (roomy_snoc.mp hroom).1
      have hwithin' : WithinWindow cache.windowMs calls :=
        fun a ha b hb => hwithin a (List.mem_append_left _ ha) b (List.mem_append_left _ hb)
      have hcut : ∀ {s}, (∃ x, (x, s) ∈ calls) →
          (call.2 - cache.windowMs) / cache.bucketSpanMs ≤ s / cache.bucketSpanMs := by
        rintro s ⟨x, hx⟩
        exact Int.ediv_le_ediv cache.bucketSpanMs_pos (hwithin call (by simp) (x, s) (List.mem_append_left _ hx))
      have hfirst : ∀ {x s}, FirstAsked calls x s → (x, s) ∈ calls := by
        rintro x s ⟨before, after, rfl, _⟩
        simp
      rw [remembered_snoc]
      constructor
      · rintro (⟨hold, _⟩ | ⟨rfl, hnew⟩)
        · obtain ⟨before, after, rfl, hfresh⟩ := (ih hbefore hwithin').mp hold
          exact ⟨before, after ++ [call], by simp, hfresh⟩
        · refine ⟨calls, [], rfl, ?_⟩
          intro c hc hid
          -- an earlier call about the id would be remembered, and this one a repeat
          obtain ⟨s, hs⟩ := exists_firstAsked ⟨c, hc, hid⟩
          have hrem := (ih hbefore hwithin').mpr hs
          have hbucket := (inBucket_fill hempty hbefore).mpr ⟨s, hrem, rfl⟩
          have hrepeat : ((cache.fill calls).isNew id t).1 = false := by
            rw [isNew_eq_false_iff, mem_ids_iff_inBucket]
            refine ⟨_, inBucket_expire.mpr ⟨hbucket, ?_⟩⟩
            rw [windowMs_fill, bucketSpanMs_fill]
            exact hcut ⟨id, hfirst hs⟩
          rw [hrepeat] at hnew
          exact absurd hnew (by simp)
      · rintro ⟨before, after, hsplit, hfresh⟩
        rcases List.eq_nil_or_concat after with rfl | ⟨after, last, rfl⟩
        · obtain ⟨rfl, hcall⟩ := List.append_inj' hsplit rfl
          obtain rfl := List.singleton_inj.mp hcall
          refine Or.inr ⟨rfl, ?_⟩
          by_contra hold
          have hin := mem_ids_of_isNew_eq_false (Bool.eq_false_of_not_eq_true hold)
          rcases mem_ids_fill hin with hbegin | ⟨c, hc, hid⟩
          · rw [ids, hempty] at hbegin
            exact absurd hbegin (by simp [Dict.values, Dict.empty])
          · exact hfresh c hc hid
        · rw [List.concat_eq_append, ← List.cons_append, ← List.append_assoc] at hsplit
          obtain ⟨rfl, hlast⟩ := List.append_inj' hsplit rfl
          refine Or.inl ⟨(ih hbefore hwithin').mpr ⟨before, after, rfl, hfresh⟩, ?_⟩
          exact hcut ⟨id, by simp⟩

/-- **Within one window** an id is in the bucket of the first call about it. -/
theorem inBucket_of_withinWindow (hempty : cache.held = Dict.empty) (hroom : Roomy cache calls)
    (hwithin : WithinWindow cache.windowMs calls) {index : Int} :
    (cache.fill calls).InBucket index id ↔ ∃ t, FirstAsked calls id t ∧ index = t / cache.bucketSpanMs := by
  rw [inBucket_fill hempty hroom]
  simp only [remembered_of_withinWindow hempty hroom hwithin]

theorem mem_ids_of_withinWindow (hempty : cache.held = Dict.empty) (hroom : Roomy cache calls)
    (hwithin : WithinWindow cache.windowMs calls) : id ∈ (cache.fill calls).ids ↔ ∃ call ∈ calls, call.1 = id := by
  rw [mem_ids_iff_inBucket]
  simp only [inBucket_of_withinWindow hempty hroom hwithin]
  constructor
  · rintro ⟨_, t, ⟨before, after, rfl, _⟩, _⟩
    exact ⟨(id, t), by simp, rfl⟩
  · intro h
    obtain ⟨t, ht⟩ := exists_firstAsked h
    exact ⟨_, t, ht, rfl⟩

/-- A cache holds its ids at least as long as another exactly if it files each in a bucket that is not older. -/
theorem isNew_false_imp_iff {cache' : DedupCache} (hspan : cache'.bucketSpanMs = cache.bucketSpanMs)
    (hwindow : cache'.windowMs = cache.windowMs) :
    (∀ id now, (cache.isNew id now).1 = false → (cache'.isNew id now).1 = false) ↔
      ∀ id index, cache.InBucket index id → ∃ index', cache'.InBucket index' id ∧ index ≤ index' := by
  simp only [isNew_eq_false_iff, mem_ids_iff_inBucket, inBucket_expire, hspan, hwindow]
  constructor
  · intro h id index hin
    -- asked at the last moment at which the bucket is in the window
    have hlast : (index * cache.bucketSpanMs + cache.windowMs - cache.windowMs) / cache.bucketSpanMs = index := by
      rw [Int.add_sub_cancel]
      exact Int.mul_ediv_cancel _ (ne_of_gt cache.bucketSpanMs_pos)
    obtain ⟨index', hin', hcut⟩ := h id (index * cache.bucketSpanMs + cache.windowMs) ⟨index, hin, le_of_eq hlast⟩
    exact ⟨index', hin', hlast ▸ hcut⟩
  · rintro h id now ⟨index, hin, hcut⟩
    obtain ⟨index', hin', hle⟩ := h id index hin
    exact ⟨index', hin', hcut.trans hle⟩

end DedupCache
end Dedup
end Wikistream

namespace Wikistream
namespace Cleaner

open Py Lib Models Dedup DedupCache Transform Warmup Transactional

/-! ## Two folds over a range of records -/

/-- The cache after `_load` of the records. -/
def loaded (host : Host) (answers : Answers) (cache : DedupCache) (ms : List (Message KafkaRecord)) :
    Except Exc DedupCache := callEach (load host answers) cache ms

/-- The cache after `transform` of the records. -/
def transformed (host : Host) : DedupCache → List (Message KafkaRecord) → Except Exc DedupCache
  | cache, [] => .ok cache
  | cache, m :: ms =>
      match transform host m.record.payload cache (some m.record.timestamp) with
      | .error e => .error e
      | .ok (_, cache) => transformed host cache ms

/-- The time under which `_load` files the id of a record. -/
def loadTime (answers : Answers) (m : Message KafkaRecord) : Int :=
  if 0 < m.record.timestamp then m.record.timestamp else answers.loadMs m.offset

/-- What `_load` asks the cache about. -/
def loadCalls (host : Host) (answers : Answers) (ms : List (Message KafkaRecord)) : List (Str × Int) :=
  ms.filterMap (fun m => (recordId host m.record).toOption.map (fun id => (id, loadTime answers m)))

/-- What `transform` asks the cache about. -/
def eventCalls (host : Host) (ms : List (Message KafkaRecord)) : List (Str × Int) :=
  ms.filterMap (fun m => eventOf host m.record)

variable {host : Host} {answers : Answers} {cache cache' warm live : DedupCache} {ms : List (Message KafkaRecord)}

theorem fill_of_loaded (h : loaded host answers cache ms = .ok cache') :
    cache' = cache.fill (loadCalls host answers ms) := by
  induction ms generalizing cache with
  | nil => exact (Except.ok.inj h).symm
  | cons m ms ih =>
      unfold loaded at h
      rw [callEach] at h
      unfold loadCalls
      rw [List.filterMap_cons]
      unfold load at h
      cases hid : recordId host m.record with
      | ok id =>
          rw [hid] at h
          exact ih h
      | error e =>
          rw [hid] at h
          cases e with
          | parseError reason => exact ih h
          | _ => exact absurd h (by simp)

theorem fill_of_transformed (h : transformed host cache ms = .ok cache') :
    cache' = cache.fill (eventCalls host ms) := by
  induction ms generalizing cache with
  | nil => exact (Except.ok.inj h).symm
  | cons m ms ih =>
      rw [transformed] at h
      unfold eventCalls
      rw [List.filterMap_cons]
      unfold eventOf
      unfold transform at h
      -- a record that gives an event is filed; a canary is not, and neither is one that is rejected
      cases hevent : attempt host m.record.payload with
      | error e =>
          rw [hevent] at h
          cases e with
          | parseError reason => exact ih h
          | _ => exact absurd h (by simp)
      | ok event =>
          cases event with
          | none =>
              rw [hevent] at h
              exact ih h
          | some event =>
              cases htime : eventTimeMs host event (some m.record.timestamp) with
              | error e =>
                  rw [hevent] at h
                  simp only [htime] at h
                  exact absurd h (by simp)
              | ok ms =>
                  rw [hevent] at h
                  simp only [htime] at h
                  simp only [htime]
                  exact ih h

/-! ## The result -/

/-- The records lie within one window by the times either fold files them under, and neither reaches the cap of a
    cache that was empty. -/
structure OneRange (host : Host) (answers : Answers) (cache : DedupCache) (ms : List (Message KafkaRecord)) :
    Prop where
  empty : cache.held = Dict.empty
  loads : WithinWindow cache.windowMs (loadCalls host answers ms)
  events : WithinWindow cache.windowMs (eventCalls host ms)
  roomLoads : Roomy cache (loadCalls host answers ms)
  roomEvents : Roomy cache (eventCalls host ms)

theorem exists_loadCall {id : Str} :
    (∃ call ∈ loadCalls host answers ms, call.1 = id) ↔ ∃ m ∈ ms, recordId host m.record = .ok id := by
  constructor
  · rintro ⟨call, hcall, rfl⟩
    obtain ⟨m, hm, hsome⟩ := List.mem_filterMap.mp hcall
    obtain ⟨id, hid, rfl⟩ := Option.map_eq_some_iff.mp hsome
    refine ⟨m, hm, ?_⟩
    cases hrecord : recordId host m.record with
    | ok id' =>
        rw [hrecord] at hid
        exact congrArg _ (Option.some.inj hid)
    | error e =>
        rw [hrecord] at hid
        exact absurd hid (by simp [Except.toOption])
  · rintro ⟨m, hm, hid⟩
    refine ⟨(id, loadTime answers m), List.mem_filterMap.mpr ⟨m, hm, ?_⟩, rfl⟩
    rw [hid]
    rfl

theorem exists_eventCall {id : Str} :
    (∃ call ∈ eventCalls host ms, call.1 = id) ↔ ∃ m ∈ ms, ∃ t, eventOf host m.record = some (id, t) := by
  constructor
  · rintro ⟨call, hcall, rfl⟩
    obtain ⟨m, hm, hsome⟩ := List.mem_filterMap.mp hcall
    exact ⟨m, hm, call.2, hsome⟩
  · rintro ⟨m, hm, t, hevent⟩
    exact ⟨(id, t), List.mem_filterMap.mpr ⟨m, hm, hevent⟩, rfl⟩

/-- **When the warm-up remembers what live processing does.** The ids are the same if and only if every id that a
    canary or a rejected record carries is also that of an accepted record. And no later record is a duplicate only
    because of the restart if and only if, besides, the first record with an id is filed no later than the first
    accepted one with it. -/
theorem warm_up_ids_iff (h : OneRange host answers cache ms) (hwarm : loaded host answers cache ms = .ok warm)
    (hlive : transformed host cache ms = .ok live) :
    ((∀ id, id ∈ warm.ids ↔ id ∈ live.ids) ↔
      ∀ m ∈ ms, ∀ id, recordId host m.record = .ok id → ∃ m' ∈ ms, ∃ t, eventOf host m'.record = some (id, t)) ∧
    ((∀ id now, (warm.isNew id now).1 = false → (live.isNew id now).1 = false) ↔
      ∀ id t, FirstAsked (loadCalls host answers ms) id t →
        ∃ t', FirstAsked (eventCalls host ms) id t' ∧ t / cache.bucketSpanMs ≤ t' / cache.bucketSpanMs) := by
  obtain rfl := fill_of_loaded hwarm
  obtain rfl := fill_of_transformed hlive
  constructor
  · -- within one window nothing expires, so a cache holds the ids that it was asked for
    simp only [mem_ids_of_withinWindow h.empty h.roomLoads h.loads,
      mem_ids_of_withinWindow h.empty h.roomEvents h.events, exists_loadCall, exists_eventCall]
    constructor
    · intro hsame m hm id hid
      exact (hsame id).mp ⟨m, hm, hid⟩
    · intro haccepted id
      constructor
      · rintro ⟨m, hm, hid⟩
        exact haccepted m hm id hid
      · rintro ⟨m, hm, t, hevent⟩
        exact ⟨m, hm, recordId_of_eventOf hevent⟩
  · rw [isNew_false_imp_iff (by rw [bucketSpanMs_fill, bucketSpanMs_fill]) (by rw [windowMs_fill, windowMs_fill])]
    simp only [inBucket_of_withinWindow h.empty h.roomLoads h.loads,
      inBucket_of_withinWindow h.empty h.roomEvents h.events]
    constructor
    · intro hlater id t ht
      obtain ⟨_, ⟨t', ht', rfl⟩, hle⟩ := hlater id _ ⟨t, ht, rfl⟩
      exact ⟨t', ht', hle⟩
    · rintro hlater id _ ⟨t, ht, rfl⟩
      obtain ⟨t', ht', hle⟩ := hlater id t ht
      exact ⟨_, ⟨t', ht', rfl⟩, hle⟩

/-! ## A canary in the range -/

/-- A canary with the id of the edit, as the stream sends it. -/
def aCanary : Bytes := ascii (lit "\x7b\"meta\":\x7b\"id\":\"a\",\"domain\":\"canary\"\x7d\x7d")

/-- The records of the range, in the order of their offsets, a second apart. -/
def rangeOf (payloads : List Bytes) : List (Message KafkaRecord) :=
  payloads.zipIdx.map (fun x => ⟨0, x.2, { value := some x.1, timestamp := 1000 + x.2 }⟩)

theorem oneRange_of_calls {loads events : List (Str × Int)} (hloads : loadCalls host answers ms = loads)
    (hevents : eventCalls host ms = events)
    (h : WithinWindow hourMs loads ∧ WithinWindow hourMs events ∧ Roomy {} loads ∧ Roomy {} events) :
    OneRange host answers {} ms := by
  subst hloads
  subst hevents
  exact ⟨rfl, h.1, h.2.1, h.2.2.1, h.2.2.2⟩

/-- A canary behind the edit with its id does no harm. -/
theorem same_ids_with_canary :
    ∃ warm live, loaded Transform.utcHost {} {} (rangeOf [anEdit, aCanary]) = .ok warm ∧
      transformed Transform.utcHost {} (rangeOf [anEdit, aCanary]) = .ok live ∧
      ∀ id, id ∈ warm.ids ↔ id ∈ live.ids := by
  obtain ⟨warm, hwarm, _⟩ := toOption_map (f := DedupCache.seenCount) (b := 2)
    (by decide +kernel : (loaded Transform.utcHost {} {} (rangeOf [anEdit, aCanary])).toOption.map _ = some 2)
  obtain ⟨live, hlive, _⟩ := toOption_map (f := DedupCache.seenCount) (b := 1)
    (by decide +kernel : (transformed Transform.utcHost {} (rangeOf [anEdit, aCanary])).toOption.map _ = some 1)
  have hrange := oneRange_of_calls
    (by decide +kernel : loadCalls Transform.utcHost {} (rangeOf [anEdit, aCanary]) =
      [(lit "a", 1000), (lit "a", 1001)])
    (by decide +kernel : eventCalls Transform.utcHost (rangeOf [anEdit, aCanary]) = [(lit "a", 1000)])
    ⟨by decide, by decide, by decide, by decide⟩
  refine ⟨warm, live, hwarm, hlive, (warm_up_ids_iff hrange hwarm hlive).1.mpr ?_⟩
  have hedit : eventOf Transform.utcHost { value := some anEdit, timestamp := 1000 } = some (lit "a", 1000) := by
    decide +kernel
  have hall : (rangeOf [anEdit, aCanary]).all
      (fun m => (recordId Transform.utcHost m.record).toOption == some (lit "a")) = true := by decide +kernel
  intro m hm id hid
  have hm' := List.all_eq_true.mp hall m hm
  rw [hid] at hm'
  obtain rfl : id = lit "a" := by simpa [Except.toOption] using hm'
  exact ⟨⟨0, 0, { value := some anEdit, timestamp := 1000 }⟩, by decide +kernel, 1000, hedit⟩

/-- A canary alone: the warm-up remembers its id, and live processing does not. -/
theorem canary_remembered :
    ∃ warm live, OneRange Transform.utcHost {} {} (rangeOf [aCanary]) ∧
      loaded Transform.utcHost {} {} (rangeOf [aCanary]) = .ok warm ∧
      transformed Transform.utcHost {} (rangeOf [aCanary]) = .ok live ∧
      lit "a" ∈ warm.ids ∧ lit "a" ∉ live.ids ∧
      (warm.isNew (lit "a") 2000).1 = false ∧ (live.isNew (lit "a") 2000).1 = true := by
  obtain ⟨warm, hwarm, hknown⟩ := toOption_map
    (f := fun (warm : DedupCache) => decide (lit "a" ∈ warm.ids ∧ (warm.isNew (lit "a") 2000).1 = false)) (b := true)
    (by decide +kernel : (loaded Transform.utcHost {} {} (rangeOf [aCanary])).toOption.map _ = some true)
  obtain ⟨live, hlive, hnew⟩ := toOption_map
    (f := fun (live : DedupCache) => decide (lit "a" ∉ live.ids ∧ (live.isNew (lit "a") 2000).1 = true)) (b := true)
    (by decide +kernel : (transformed Transform.utcHost {} (rangeOf [aCanary])).toOption.map _ = some true)
  have hrange := oneRange_of_calls
    (by decide +kernel : loadCalls Transform.utcHost {} (rangeOf [aCanary]) = [(lit "a", 1000)])
    (by decide +kernel : eventCalls Transform.utcHost (rangeOf [aCanary]) = [])
    ⟨by decide, by decide, by decide, by decide⟩
  obtain ⟨hin, hrepeat⟩ := of_decide_eq_true hknown
  obtain ⟨hout, hfirst⟩ := of_decide_eq_true hnew
  exact ⟨warm, live, hrange, hwarm, hlive, hin, hout, hrepeat, hfirst⟩

end Cleaner
end Wikistream
