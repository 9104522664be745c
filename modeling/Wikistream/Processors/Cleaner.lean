import Wikistream.Processors.Transactional
import Wikistream.Processors.Transform
import Wikistream.Processors.Warmup

/-!
# `Processors.Cleaner` — wiki.raw in, wiki.clean and wiki.dlq out

The cleaner keeps a dedup cache per partition. A new partition's cache is warmed up to the group's
committed offset, a revoked partition's cache is dropped.

## Contents
- **State.** `Caches`, `cacheFor`.
- **Hooks.** `warm`, `partitionsRevoked`, `handle`, and the `cleaner` they make up.
- **What `handle` does** to the cache and to the outputs, with and without an event (`handle_of_event`,
  `handle_of_no_event`).
-/

namespace Wikistream
namespace Cleaner

open Py Lib Models Dedup Transform Warmup Transactional

/-- The dedup cache of each partition. -/
abbrev Caches := Dict Nat DedupCache

/-- What the cleaner gets from outside: the host, its `CacheWarmer`, and the wall clock time at which the
    envelope of a rejected message is written. -/
structure Env where
  host : Host
  warmer : Warmup.Config := {}
  failedAt : Message KafkaRecord → Str := fun _ => []

/-- `cache_for`, and the `setdefault` of `warm`. -/
def cacheFor (caches : Caches) (p : Nat) : DedupCache := (caches.get? p).getD {}

/-- One round of the loop of `warm`. -/
def warmOne (env : Env) (log : Log KafkaRecord) (committed : Dict Nat Nat) (answers : Answers) (p : Nat)
    (caches : Caches) : Except Exc Caches :=
  let cache := cacheFor caches p
  match committed.get? p with
  | none => .ok (caches.set p cache)
  | some offset =>
      match replay env.warmer log .kafkaException (load env.host answers) p offset answers cache with
      | .error e => .error e
      | .ok (cache, _) => .ok (caches.set p cache)

/-- `warm`. -/
def warm (env : Env) (log : Log KafkaRecord) (committed : Dict Nat Nat) (answers : Nat → Answers) :
    Caches → List Nat → Except Exc Caches
  | caches, [] => .ok caches
  | caches, p :: ps =>
      match warmOne env log committed (answers p) p caches with
      | .error e => .error e
      | .ok caches => warm env log committed answers caches ps

/-- `partitions_revoked`. -/
def partitionsRevoked (caches : Caches) (ps : List Nat) : Caches := ps.foldl Dict.erase caches

/-- What `handle` produces for an outcome. -/
def outputs (env : Env) (m : Message KafkaRecord) : Outcome → Except Exc (List Produced)
  | .clean event => do
      let key ← encodeText event.pageKey
      let value ← event.toJson env.host
      return [{ topic := .clean, key, value, timestamp := max m.record.timestamp 0 }]
  | .duplicate _ => .ok []
  | .skipped _ => .ok []
  | .rejected reason payload => do
      let value ← envelope env.host (env.failedAt m) reason payload (lit "wiki.raw") m.partition m.offset
      return [{ topic := .dlq, value }]

/-- `handle`. -/
def handle (env : Env) (caches : Caches) (m : Message KafkaRecord) :
    Except Exc (Caches × List Produced) :=
  match transform env.host m.record.payload (cacheFor caches m.partition) (some m.record.timestamp) with
  | .error e => .error e
  | .ok (outcome, cache) => (outputs env m outcome).map (fun out => (caches.set m.partition cache, out))

/-- The cleaner as a subclass of `TransactionalProcessor`. -/
def cleaner (env : Env) (log : Log KafkaRecord) :
    Processor Caches KafkaRecord Produced (Nat → Answers) Exc where
  init := Dict.empty
  handle := handle env
  partitionsAssigned committed answers caches ps := warm env log committed answers caches ps
  partitionsRevoked := partitionsRevoked

/-! ## What `handle` does -/

/-- The record a clean event is published as. -/
def IsOutputOf (host : Host) (event : CleanEvent) (out : Produced) : Prop :=
  out.topic = .clean ∧ (∃ key, encodeText event.pageKey = .ok key ∧ out.key = some key) ∧
    ∃ value, event.toJson host = .ok value ∧ out.value = some value

variable {env : Env} {caches : Caches} {m : Message KafkaRecord} {r : Caches × List Produced}

@[simp] theorem cacheFor_set (p q : Nat) (cache : DedupCache) :
    cacheFor (caches.set p cache) q = if q = p then cache else cacheFor caches q := by
  unfold cacheFor
  rw [Dict.get?_set]
  split <;> rfl

/-- The caches of revoked partitions are gone. -/
theorem cacheFor_partitionsRevoked (ps : List Nat) (p : Nat) :
    cacheFor (partitionsRevoked caches ps) p = if p ∈ ps then {} else cacheFor caches p := by
  unfold cacheFor partitionsRevoked
  rw [Dict.get?_foldl_erase]
  split <;> rfl

theorem exists_output {event : CleanEvent} {outs : List Produced}
    (h : outputs env m (.clean event) = .ok outs) : ∃ out ∈ outs, IsOutputOf env.host event out := by
  rw [outputs] at h
  obtain ⟨key, hkey, h⟩ := bind_eq_ok.mp h
  obtain ⟨value, hvalue, h⟩ := bind_eq_ok.mp h
  obtain rfl := Except.ok.inj h
  exact ⟨_, List.mem_singleton_self _, rfl, ⟨key, hkey, rfl⟩, value, hvalue, rfl⟩

/-- An event is asked of the partition's cache, and published when it is new there. -/
theorem handle_of_event {event : CleanEvent} (ha : attempt env.host m.record.payload = .ok (some event))
    (h : handle env caches m = .ok r) :
    ∃ t, r.1 = caches.set m.partition ((cacheFor caches m.partition).isNew event.eventId t).2 ∧
      (((cacheFor caches m.partition).isNew event.eventId t).1 = true →
        ∃ out ∈ r.2, IsOutputOf env.host event out) := by
  unfold handle transform at h
  rw [ha] at h
  dsimp only at h
  cases ht : eventTimeMs env.host event (some m.record.timestamp) with
  | error e =>
      rw [ht] at h
      exact absurd h (by simp)
  | ok t =>
      rw [ht] at h
      obtain ⟨outs, houts, rfl⟩ := map_eq_ok.mp h
      refine ⟨t, rfl, fun hnew => ?_⟩
      rw [hnew, if_pos rfl] at houts
      exact exists_output houts

/-- Without an event the cache stays as it is. -/
theorem handle_of_no_event (ha : ∀ event, attempt env.host m.record.payload ≠ .ok (some event))
    (h : handle env caches m = .ok r) :
    r.1 = caches.set m.partition (cacheFor caches m.partition) := by
  unfold handle at h
  cases htr : transform env.host m.record.payload (cacheFor caches m.partition)
      (some m.record.timestamp) with
  | error e =>
      rw [htr] at h
      exact absurd h (by simp)
  | ok result =>
      rw [htr] at h
      obtain ⟨outs, _, rfl⟩ := map_eq_ok.mp h
      have hcache : result.2 = cacheFor caches m.partition := by
        unfold transform at htr
        split at htr
        · exact (Except.ok.inj htr) ▸ rfl
        · exact absurd htr (by simp)
        · exact (Except.ok.inj htr) ▸ rfl
        · next event hevent => exact absurd hevent (ha event)
      rw [← hcache]

end Cleaner
end Wikistream
