import Wikistream.Correctness.CleanerRestart
import Wikistream.Processors.DedupBuckets

/-!
# `Correctness.AbortedBatch.Cleaner` — what an aborted batch leaves in the dedup caches

## Contents
- **Questions** (`ask`): is an event with this id new at this time?
- **Idle records** (`Idle`): no event, or one whose id is held at a time that expires no bucket.
- **What leaves the caches alone** (`idleness`): idle records, and no others.
- **What a duplicate repeats** (`duplicate_of_kept`): an id from the start or of a kept batch.
-/

namespace Wikistream
namespace Dedup

open Py Lib

namespace DedupCache

/-- The caches differ in their counters at most. -/
structure SameIds (cache cache' : DedupCache) : Prop where
  held : cache.held = cache'.held
  windowMs : cache.windowMs = cache'.windowMs
  buckets : cache.buckets = cache'.buckets
  maxIds : cache.maxIds = cache'.maxIds

/-- The id is held, and at this time no bucket is out of the window. -/
def Settled (cache : DedupCache) (id : Str) (t : Int) : Prop :=
  id ∈ cache.ids ∧ ∀ index ∈ cache.held.keys, (t - cache.windowMs) / cache.bucketSpanMs ≤ index

variable {cache cache' : DedupCache} {id : Str} {t : Int}

instance : Decidable (cache.Settled id t) := inferInstanceAs (Decidable (_ ∧ _))

/-! ## Counters do not matter -/

theorem SameIds.ids (h : cache.SameIds cache') : cache.ids = cache'.ids := by
  unfold DedupCache.ids
  rw [h.held]

theorem SameIds.bucketSpanMs (h : cache.SameIds cache') : cache.bucketSpanMs = cache'.bucketSpanMs := by
  unfold DedupCache.bucketSpanMs
  rw [h.windowMs, h.buckets]

theorem SameIds.expire (h : cache.SameIds cache') : (cache.expire t).SameIds (cache'.expire t) where
  held := by
    unfold DedupCache.expire
    dsimp only
    rw [h.held, h.windowMs, h.bucketSpanMs]
  windowMs := h.windowMs
  buckets := h.buckets
  maxIds := h.maxIds

theorem SameIds.insert (h : cache.SameIds cache') (index : Int) :
    (cache.insert index id).SameIds (cache'.insert index id) where
  held := by
    unfold DedupCache.insert
    dsimp only
    rw [h.held]
  windowMs := h.windowMs
  buckets := h.buckets
  maxIds := h.maxIds

theorem SameIds.enforceSize (h : cache.SameIds cache') : cache.enforceSize.SameIds cache'.enforceSize where
  held := by
    unfold DedupCache.enforceSize
    simp only [h.held, h.maxIds]
  windowMs := h.windowMs
  buckets := h.buckets
  maxIds := h.maxIds

theorem SameIds.isNew (h : cache.SameIds cache') :
    (cache.isNew id t).1 = (cache'.isNew id t).1 ∧ (cache.isNew id t).2.SameIds (cache'.isNew id t).2 := by
  have hexpired : SameIds ({ cache with seenCount := cache.seenCount + 1 }.expire t)
      ({ cache' with seenCount := cache'.seenCount + 1 }.expire t) :=
    SameIds.expire ⟨h.held, h.windowMs, h.buckets, h.maxIds⟩
  unfold DedupCache.isNew
  dsimp only
  rw [hexpired.ids, hexpired.bucketSpanMs]
  split
  · exact ⟨rfl, hexpired.held, hexpired.windowMs, hexpired.buckets, hexpired.maxIds⟩
  · exact ⟨rfl, (hexpired.insert _).enforceSize⟩

theorem SameIds.symm (h : cache.SameIds cache') : cache'.SameIds cache :=
  ⟨h.held.symm, h.windowMs.symm, h.buckets.symm, h.maxIds.symm⟩

theorem SameIds.trans {cache'' : DedupCache} (h : cache.SameIds cache') (h' : cache'.SameIds cache'') :
    cache.SameIds cache'' :=
  ⟨h.held.trans h'.held, h.windowMs.trans h'.windowMs, h.buckets.trans h'.buckets, h.maxIds.trans h'.maxIds⟩

theorem SameIds.settled (h : cache.SameIds cache') : cache.Settled id t ↔ cache'.Settled id t := by
  unfold Settled
  rw [h.ids, h.windowMs, h.bucketSpanMs, h.held]

/-! ## What a call leaves behind -/

/-- Asking about a settled id only counts. -/
theorem Settled.sameIds (h : cache.Settled id t) : (cache.isNew id t).2.SameIds cache := by
  have hheld : ({ cache with seenCount := cache.seenCount + 1 }.expire t).held = cache.held := by
    unfold DedupCache.expire
    dsimp only
    apply Dict.filter_eq_self
    intro index bucket hb
    have hin := h.2 index (Dict.mem_keys_iff.mpr ⟨bucket, hb⟩)
    rw [Bool.not_eq_true', decide_eq_false_iff_not]
    exact Int.not_lt.mpr hin
  have hid : id ∈ ({ cache with seenCount := cache.seenCount + 1 }.expire t).ids := by
    unfold DedupCache.ids
    rw [hheld]
    exact h.1
  unfold DedupCache.isNew
  dsimp only
  rw [if_pos hid]
  exact ⟨hheld, rfl, rfl, rfl⟩

/-- A new id is held, unless its bucket, which then held other ids, was dropped at once. -/
theorem insert_cases (k : Int) : (∃ bucket, (cache.insert k id).enforceSize.held.get? k = some bucket ∧ id ∈ bucket) ∨
    ((cache.insert k id).enforceSize.held.get? k = none ∧ ∃ old, cache.held.get? k = some old) := by
  cases hkept : (cache.insert k id).enforceSize.held.get? k with
  | some bucket =>
      refine Or.inl ⟨bucket, rfl, ?_⟩
      rcases held_insert (held_enforceSize hkept) with ⟨_, rfl⟩ | ⟨hne, _⟩
      · exact List.mem_append_right _ (List.mem_singleton_self id)
      · exact absurd rfl hne
  | none =>
      refine Or.inr ⟨rfl, ?_⟩
      by_contra hold
      have hnone : cache.held.get? k = none := by
        rw [Option.eq_none_iff_forall_ne_some]
        exact fun old h => hold ⟨old, h⟩
      -- then the bucket is the last one
      have hentries : (cache.insert k id).held.entries = cache.held.entries ++ [(k, [id])] := by
        show upsert k (((cache.held.get? k).getD []) ++ [id]) cache.held.entries = _
        rw [hnone]
        exact upsert_of_notMem (Dict.get?_eq_none_iff.mp hnone) _
      have hmem : (k, [id]) ∈ (cache.insert k id).enforceSize.held.entries := by
        show (k, [id]) ∈ dropOldest cache.maxIds (cache.insert k id).held.entries
        rw [hentries]
        exact last_mem_dropOldest _ _ _
      rw [Dict.get?_eq_some_iff.mpr hmem] at hkept
      exact absurd hkept (by simp)

/-- **A call that changes no answer** asked about a settled id. -/
theorem settled_of_answers (h : cache.Regular)
    (hsame : ∀ x t', ((cache.isNew id t).2.isNew x t').1 = (cache.isNew x t').1) : cache.Settled id t := by
  have hids : ∀ x t', x ∈ ((cache.isNew id t).2.expire t').ids ↔ x ∈ (cache.expire t').ids := by
    intro x t'
    rw [← isNew_eq_false_iff, ← isNew_eq_false_iff, hsame x t']
  -- the cache when the id is looked up
  generalize hE : { cache with seenCount := cache.seenCount + 1 }.expire t = E
  have hEids : E.ids = (cache.expire t).ids := hE ▸ rfl
  have hE' : ∀ {i b}, E.held.get? i = some b →
      cache.held.get? i = some b ∧ (t - cache.windowMs) / cache.bucketSpanMs ≤ i := by
    intro i b hb
    exact @held_expire cache t i b (by rw [← hE] at hb; exact hb)
  have hcall : cache.isNew id t = if id ∈ E.ids then (false, { E with duplicateCount := E.duplicateCount + 1 })
      else (true, (E.insert (t / E.bucketSpanMs) id).enforceSize) := by
    subst hE
    rfl
  have hheld : id ∈ E.ids := by
    by_contra hnew
    rw [hcall, if_neg hnew] at hids
    rcases @insert_cases E id (t / E.bucketSpanMs) with ⟨bucket, hkept, hid⟩ | ⟨hdropped, old, hold⟩
    · -- the new id is held now, and was not
      have hspan : (E.insert (t / E.bucketSpanMs) id).enforceSize.HeldSince id t :=
        ⟨_, bucket, hkept, hid, Int.le_refl _⟩
      have hwindow : (E.insert (t / E.bucketSpanMs) id).enforceSize.windowMs = cache.windowMs := by
        subst hE
        rfl
      have hfresh : t - (E.insert (t / E.bucketSpanMs) id).enforceSize.windowMs ≤ t := by
        rw [hwindow]
        have := h.window
        omega
      have hnow := (hids id t).mp (heldSince_expire hspan hfresh).mem_ids
      exact hnew (hEids ▸ hnow)
    · -- another id of its bucket is gone
      obtain ⟨z, hz⟩ := List.exists_mem_of_ne_nil old (h.nonempty _ old (hE' hold).1)
      have hzE : z ∈ E.ids := mem_ids.mpr ⟨_, old, hold, hz⟩
      have hznow := (hids z t).mpr (hEids ▸ hzE)
      obtain ⟨j, b, hj, hzb⟩ := mem_ids.mp (mem_ids_expire hznow)
      rcases mem_insert (held_enforceSize hj) hzb with ⟨_, rfl⟩ | ⟨old', hj', hz'⟩
      · exact hnew hzE
      · obtain rfl := h.once _ _ _ _ z (hE' hj').1 (hE' hold).1 hz' hz
        rw [hdropped] at hj
        exact absurd hj (by simp)
  refine ⟨mem_ids_expire (hEids ▸ hheld), ?_⟩
  intro index hindex
  obtain ⟨bucket, hb⟩ := Dict.mem_keys_iff.mp hindex
  by_contra hold
  rw [hcall, if_pos hheld] at hids
  -- an id of a bucket that expired was known, and is not
  obtain ⟨z, hz⟩ := List.exists_mem_of_ne_nil bucket (h.nonempty index bucket hb)
  have hknown : cache.HeldSince z (index * cache.bucketSpanMs) :=
    ⟨index, bucket, hb, hz, le_of_eq (Int.mul_ediv_cancel _ (ne_of_gt cache.bucketSpanMs_pos))⟩
  have hbefore := (@heldSince_expire _ _ _ (index * cache.bucketSpanMs) hknown
    (by have := h.window; omega)).mem_ids
  have hafter := mem_ids_expire ((hids z _).mpr hbefore)
  obtain ⟨j, b, hj, hzb⟩ := mem_ids.mp hafter
  obtain ⟨hj', hfresh⟩ := hE' hj
  obtain rfl := h.once _ _ _ _ z hj' hb hzb hz
  exact hold hfresh

end DedupCache
end Dedup
end Wikistream

namespace Wikistream
namespace Cleaner

open Py Lib Models Dedup Transform Warmup Transactional

/-- Whether an event of this partition, with this id and time, is new, and the caches once it was asked. -/
def ask (caches : Caches) (q : Nat × Str × Int) : Bool × Caches :=
  let answer := (cacheFor caches q.1).isNew q.2.1 q.2.2
  (answer.1, caches.set q.1 answer.2)

/-- The caches agree on every partition. -/
def Same (caches caches' : Caches) : Prop := ∀ p, (cacheFor caches p).SameIds (cacheFor caches' p)

def Regular (caches : Caches) : Prop := ∀ p, (cacheFor caches p).Regular

/-- The record has no event, or one whose id is held at a time that expires no bucket. -/
def Idle (host : Host) (caches : Caches) (m : Message KafkaRecord) : Prop :=
  ∀ id t, eventOf host m.record = some (id, t) → (cacheFor caches m.partition).Settled id t

variable {env : Env} {caches caches' : Caches} {m : Message KafkaRecord} {t : Caches}

theorem Same.symm (h : Same caches caches') : Same caches' caches := fun p => (h p).symm

theorem Same.ask (h : Same caches caches') (q : Nat × Str × Int) :
    (ask caches q).1 = (ask caches' q).1 ∧ Same (ask caches q).2 (ask caches' q).2 := by
  obtain ⟨hanswer, hids⟩ := @DedupCache.SameIds.isNew _ _ q.2.1 q.2.2 (h q.1)
  refine ⟨hanswer, fun p => ?_⟩
  show (cacheFor (caches.set q.1 _) p).SameIds (cacheFor (caches'.set q.1 _) p)
  rw [cacheFor_set, cacheFor_set]
  split
  · exact hids
  · exact h p

/-- What `handle` does to the caches: it asks about its event, if it has one. -/
theorem cacheFor_stateAfter (h : stateAfter (handle env) caches m = .ok t) (p : Nat) :
    cacheFor t p = if p = m.partition then
      (cacheFor caches m.partition).fill (eventOf env.host m.record).toList else cacheFor caches p := by
  obtain ⟨outs, h⟩ := stateAfter_eq_ok.mp h
  by_cases hp : p = m.partition
  · rw [if_pos hp, hp]
    exact cacheFor_handle h
  · rw [if_neg hp]
    unfold handle at h
    split at h
    · exact absurd h (by simp)
    · obtain ⟨_, _, h⟩ := map_eq_ok.mp h
      obtain ⟨rfl, _⟩ := Prod.mk.inj h
      rw [cacheFor_set, if_neg hp]

/-- An event is asked about; without one nothing is. -/
theorem cacheFor_stateAfter_cases (h : stateAfter (handle env) caches m = .ok t) :
    (eventOf env.host m.record = none ∧ ∀ p, cacheFor t p = cacheFor caches p) ∨
    ∃ id ms, eventOf env.host m.record = some (id, ms) ∧
      ∀ p, cacheFor t p = cacheFor (ask caches (m.partition, id, ms)).2 p := by
  cases hevent : eventOf env.host m.record with
  | none =>
      refine Or.inl ⟨rfl, fun p => ?_⟩
      rw [cacheFor_stateAfter h, hevent]
      split
      · next hp =>
          rw [hp]
          rfl
      · rfl
  | some call =>
      refine Or.inr ⟨call.1, call.2, rfl, fun p => ?_⟩
      rw [cacheFor_stateAfter h, hevent]
      show _ = cacheFor (caches.set m.partition _) p
      rw [cacheFor_set]
      rfl

/-- The same caches handle a message the same way. -/
theorem Same.handle (h : Same caches caches') (hm : stateAfter (handle env) caches m = .ok t) :
    ∃ t', stateAfter (handle env) caches' m = .ok t' ∧ Same t t' := by
  have hexists : ∃ t', stateAfter (Cleaner.handle env) caches' m = .ok t' := by
    obtain ⟨outs, hm⟩ := stateAfter_eq_ok.mp hm
    simp only [stateAfter_eq_ok]
    -- every branch but the last answers without asking a cache
    unfold Cleaner.handle transform at hm ⊢
    split at hm
    · exact absurd hm (by simp)
    · next outcome cache htr =>
        obtain ⟨outs', houts, _⟩ := map_eq_ok.mp hm
        split at htr
        · next reason ha =>
            obtain ⟨rfl, _⟩ := Prod.mk.inj (Except.ok.inj htr)
            exact ⟨_, outs', map_eq_ok.mpr ⟨outs', houts, rfl⟩⟩
        · exact absurd htr (by simp)
        · next ha =>
            obtain ⟨rfl, _⟩ := Prod.mk.inj (Except.ok.inj htr)
            exact ⟨_, outs', map_eq_ok.mpr ⟨outs', houts, rfl⟩⟩
        · next event ha =>
            split at htr
            · exact absurd htr (by simp)
            · next ms hms =>
                -- the two caches answer alike
                obtain ⟨rfl, _⟩ := Prod.mk.inj (Except.ok.inj htr)
                have hanswer := (@DedupCache.SameIds.isNew _ _ event.eventId ms (h m.partition)).1
                simp only [deduplicate]
                rw [hanswer] at houts
                exact ⟨_, outs', map_eq_ok.mpr ⟨outs', houts, rfl⟩⟩
  obtain ⟨t', ht'⟩ := hexists
  refine ⟨t', ht', fun p => ?_⟩
  -- only the cache that was asked has changed, in both
  rcases cacheFor_stateAfter_cases hm with ⟨hnone, hkeep⟩ | ⟨id, ms, hsome, hasked⟩
  · rcases cacheFor_stateAfter_cases ht' with ⟨_, hkeep'⟩ | ⟨id', ms', hsome', _⟩
    · rw [hkeep, hkeep']
      exact h p
    · exact absurd (hnone.symm.trans hsome') (by simp)
  · rcases cacheFor_stateAfter_cases ht' with ⟨hnone', _⟩ | ⟨id', ms', hsome', hasked'⟩
    · exact absurd (hnone'.symm.trans hsome) (by simp)
    · obtain ⟨rfl, rfl⟩ := Prod.mk.inj (Option.some.inj (hsome.symm.trans hsome'))
      rw [hasked, hasked']
      exact (h.ask _).2 p

theorem Regular.stateAfter (h : Regular caches) (hm : stateAfter (handle env) caches m = .ok t) : Regular t := by
  intro p
  rcases cacheFor_stateAfter_cases hm with ⟨_, hkeep⟩ | ⟨id, ms, _, hasked⟩
  · exact hkeep p ▸ h p
  · rw [hasked]
    show (cacheFor (caches.set m.partition _) p).Regular
    rw [cacheFor_set]
    split
    · exact (h m.partition).isNew
    · exact h p

/-- An idle record only counts. -/
theorem Idle.same (h : Idle env.host caches m) (hm : Transactional.stateAfter (handle env) caches m = .ok t) :
    Same t caches := by
  intro p
  rcases cacheFor_stateAfter_cases hm with ⟨_, hkeep⟩ | ⟨id, ms, hevent, hasked⟩
  · rw [hkeep]
    exact ⟨rfl, rfl, rfl, rfl⟩
  · rw [hasked]
    show (cacheFor (caches.set m.partition _) p).SameIds _
    rw [cacheFor_set]
    split
    · next hp =>
        rw [hp]
        exact (h id ms hevent).sameIds
    · exact ⟨rfl, rfl, rfl, rfl⟩

/-- A record that is not idle changes the answer about some id. -/
theorem idle_of_alike (h : Regular caches) (hm : Transactional.stateAfter (handle env) caches m = .ok t)
    (halike : Alike ask t caches) : Idle env.host caches m := by
  intro id ms hevent
  apply DedupCache.settled_of_answers (h m.partition)
  intro x t'
  rcases cacheFor_stateAfter_cases hm with ⟨hnone, _⟩ | ⟨id', ms', hevent', hasked⟩
  · exact absurd (hnone.symm.trans hevent) (by simp)
  · obtain ⟨rfl, rfl⟩ := Prod.mk.inj (Option.some.inj (hevent.symm.trans hevent'))
    have hanswer : ((cacheFor t m.partition).isNew x t').1 = ((cacheFor caches m.partition).isNew x t').1 :=
      halike.fst_ask (m.partition, x, t')
    rw [hasked] at hanswer
    have hset : cacheFor (ask caches (m.partition, id, ms)).2 m.partition =
        ((cacheFor caches m.partition).isNew id ms).2 := by
      show cacheFor (caches.set m.partition _) m.partition = _
      rw [cacheFor_set, if_pos rfl]
    rw [hset] at hanswer
    exact hanswer

/-- **What leaves the caches alone.** -/
theorem idleness (env : Env) : Idleness ask (stateAfter (handle env)) Regular Same (Idle env.host) where
  refl _ _ := ⟨rfl, rfl, rfl, rfl⟩
  symm _ _ h := h.symm
  trans _ _ _ h h' p := (h p).trans (h' p)
  alike _ _ h := alike_of_bisim (fun _ _ q hs => hs.ask q) h
  congr _ _ _ h hidle id t hevent := (h _).settled.mp (hidle id t hevent)
  same_work _ _ _ _ h hm := h.handle hm
  fit _ _ _ h hm := h.stateAfter hm
  idle _ _ _ _ hm h := h.same hm
  busy _ _ _ h hm halike := idle_of_alike h hm halike

/-! ## Every cleaner's caches are regular -/

theorem regular_set {cache : DedupCache} (h : Regular caches) (hcache : cache.Regular) (p : Nat) :
    Regular (caches.set p cache) := by
  intro q
  rw [cacheFor_set]
  split
  · exact hcache
  · exact h q

theorem regular_warm {log : Log KafkaRecord} {committed : Dict Nat Nat} {answers : Nat → Answers} {ps : List Nat}
    (h : Regular caches) (hwarm : warm env log committed answers caches ps = .ok caches') : Regular caches' := by
  induction ps generalizing caches with
  | nil => exact Except.ok.inj hwarm ▸ h
  | cons p ps ih =>
      rw [warm] at hwarm
      split at hwarm
      · exact absurd hwarm (by simp)
      · next caches₁ hone =>
          refine ih ?_ hwarm
          unfold warmOne at hone
          dsimp only at hone
          split at hone
          · exact Except.ok.inj hone ▸ regular_set h (h p) p
          · split at hone
            · exact absurd hone (by simp)
            · next cache result hreplay =>
                refine Except.ok.inj hone ▸ regular_set h ?_ p
                refine replay_induction (I := DedupCache.Regular) ?_ (h p) hreplay
                intro cache m r hreg _ _ _ hload
                unfold load at hload
                split at hload
                · exact Except.ok.inj hload ▸ hreg
                · exact absurd hload (by simp)
                · exact Except.ok.inj hload ▸ hreg.isNew

theorem regular_revoked (h : Regular caches) (ps : List Nat) : Regular (partitionsRevoked caches ps) := by
  intro p
  rw [cacheFor_partitionsRevoked]
  split
  · exact DedupCache.regular_default
  · exact h p

/-- **Every state of every run** has regular caches. -/
theorem regular_of_run {log : Log KafkaRecord} {acts : List (Action (Nat → Answers))}
    {g : Group Caches KafkaRecord Produced} (hrun : run (step (cleaner env log) log) {} acts = some g) {i : Nat}
    {inst : Instance Caches KafkaRecord Produced} (hi : g.instances.get? i = some inst) : Regular inst.state := by
  have hput : ∀ {g : Group Caches KafkaRecord Produced} {i inst},
      (∀ j x, g.instances.get? j = some x → Regular x.state) → Regular inst.state →
      ∀ j x, (g.put i inst).instances.get? j = some x → Regular x.state := by
    intro g i inst hall hreg j x hj
    rw [get?_put] at hj
    split at hj
    · exact Option.some.inj hj ▸ hreg
    · exact hall j x hj
  -- the invariant of all instances, by the steps of the group
  refine run_state_invariant (I := fun g => ∀ j x, g.instances.get? j = some x → Regular x.state)
    (fun j x hj => absurd hj (by simp)) ?_ (always_of_forall (fun _ _ => trivial) _ _) hrun i inst hi
  intro g a g' hall _ hstep
  cases step_inv hstep with
  | start hi => exact hput hall (fun p => DedupCache.regular_default)
  | assign hi htxn hfree hook => exact hput hall (regular_warm (hall _ _ hi) hook)
  | revoke hi htxn =>
      rw [onRevoke_of_txn_none _ htxn]
      exact hput hall (regular_revoked (hall _ _ hi) _)
  | poll hi htxn hcur hr hnext =>
      have hreg := hall _ _ hi
      exact hput hall hreg
  | beginBatch hi htxn =>
      have hreg := hall _ _ hi
      exact hput hall hreg
  | handleNext hi htxn htodo hook =>
      exact hput hall ((hall _ _ hi).stateAfter (stateAfter_eq_ok.mpr ⟨_, hook⟩))
  | commitBatch hi htxn htodo =>
      intro j x hj
      rw [get?_commit] at hj
      split at hj
      · have hreg := hall _ _ hi
        exact Option.some.inj hj ▸ hreg
      · exact hall j x hj
  | abort hi htxn =>
      have hreg := hall _ _ hi
      exact hput hall hreg
  | periodic hi htxn =>
      have hreg := hall _ _ hi
      exact hput hall hreg
  | die =>
      intro j x hj
      rw [get?_remove] at hj
      split at hj
      · exact absurd hj (by simp)
      · exact hall j x hj

/-! ## What a duplicate repeats -/

/-- The caches hold what they held at the start, and the ids of the events that were handled. -/
theorem mem_ids_handleAll {ms : List (Message KafkaRecord)} (h : handleAll (handle env) caches ms = .ok t) {p : Nat}
    {id : Str} (hid : id ∈ (cacheFor t p).ids) :
    id ∈ (cacheFor caches p).ids ∨
      ∃ m ∈ ms, m.partition = p ∧ ∃ time, eventOf env.host m.record = some (id, time) := by
  induction ms generalizing caches with
  | nil => exact Or.inl (Except.ok.inj h ▸ hid)
  | cons m ms ih =>
      obtain ⟨s', outs, hm, hrest⟩ := handleAll_cons.mp h
      rcases ih hrest with hid | ⟨x, hx, hevent⟩
      · rw [cacheFor_stateAfter (stateAfter_eq_ok.mpr ⟨outs, hm⟩)] at hid
        split at hid
        · next hp =>
            rcases DedupCache.mem_ids_fill hid with hid | ⟨call, hcall, rfl⟩
            · exact Or.inl (hp ▸ hid)
            · exact Or.inr ⟨m, List.mem_cons_self, hp.symm, call.2, Option.mem_toList.mp hcall⟩
        · exact Or.inl hid
      · exact Or.inr ⟨x, List.mem_cons_of_mem _ hx, hevent⟩

/-- **A duplicate repeats a kept record**, when every batch that was broken off was idle. -/
theorem duplicate_of_kept (hfit : Regular caches) {history : List (Batch (Message KafkaRecord))}
    (hwork : workThrough (stateAfter (handle env)) caches history = .ok t)
    (hidle : BrokenOffIdle (stateAfter (handle env)) (Idle env.host) caches history) {id : Str} {time : Int}
    (hevent : eventOf env.host m.record = some (id, time)) (hdup : isDuplicate env t m = true) :
    id ∈ (cacheFor caches m.partition).ids ∨
      ∃ x ∈ kept history, x.partition = m.partition ∧ ∃ time', eventOf env.host x.record = some (id, time') := by
  obtain ⟨u, hu, hsame⟩ := (idleness env).exists_kept hfit hwork hidle
  have hheld := DedupCache.mem_ids_expire ((isDuplicate_iff hevent).mp hdup)
  rw [(hsame m.partition).ids] at hheld
  exact mem_ids_handleAll hu hheld

end Cleaner
end Wikistream
