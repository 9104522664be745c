import Wikistream.Lib.Dict
import Wikistream.Python.Str

/-!
# `Processors.Dedup` — the set of event ids seen on one partition

Ids are held in time buckets; dropping a bucket expires a slice of the window.

## Contents
- **The cache** (`DedupCache`), of at least one bucket: `expire`, `enforceSize`, `isNew`.
- **What a call can change** (`mem_ids_isNew`, `mem_ids_of_isNew_eq_false`): the only id a call adds is its own, and
  only when it answers `True`; it answers `False` only for an id it holds.
- **How long an id stays** (`HeldSince`): in the bucket it was filed under, until a call comes more than a window
  later, as long as `evicted_early` does not count (`heldSince_isNew`).
- **Many calls** (`fill`): what was asked is held (`heldSince_fill`), and nothing else is (`mem_ids_fill`).
-/

namespace Wikistream
namespace Dedup

open Py Lib

def hourMs : Int := 60 * 60 * 1000

structure DedupCache where
  windowMs : Int := hourMs
  /-- Into how many buckets the window is cut. -/
  buckets : Nat := 12
  maxIds : Nat := 500000
  /-- `_buckets`, oldest insertion first. -/
  held : Dict Int (List Str) := Dict.empty
  seenCount : Nat := 0
  duplicateCount : Nat := 0
  evictedEarly : Nat := 0
  /-- With no bucket `bucket_span_ms` divides by zero, and `is_new` raises. No caller asks for that. -/
  buckets_pos : 0 < buckets := by decide

namespace DedupCache

def bucketSpanMs (cache : DedupCache) : Int := max (cache.windowMs / cache.buckets) 1

/-- The ids of all buckets. -/
def ids (cache : DedupCache) : List Str := cache.held.values.flatten

def size (cache : DedupCache) : Nat := cache.ids.length

/-- `_expire`. -/
def expire (cache : DedupCache) (nowMs : Int) : DedupCache :=
  let cutoff := (nowMs - cache.windowMs) / cache.bucketSpanMs
  { cache with held := cache.held.filter (fun index _ => !(index < cutoff)) }

/-- Drop the bucket inserted first while there are too many ids and more than one bucket. -/
def dropOldest (maxIds : Nat) : List (Int × List Str) → List (Int × List Str)
  | b :: b' :: bs =>
      if maxIds < ((b :: b' :: bs).map Prod.snd).flatten.length then dropOldest maxIds (b' :: bs)
      else b :: b' :: bs
  | bs => bs

theorem dropOldest_suffix (maxIds : Nat) (bs : List (Int × List Str)) : dropOldest maxIds bs <:+ bs := by
  fun_induction dropOldest maxIds bs with
  | case1 b b' bs h ih => exact ih.trans (List.suffix_cons b _)
  | case2 b b' bs h => exact List.suffix_refl _
  | case3 bs h => exact List.suffix_refl _

/-- `_enforce_size`. -/
def enforceSize (cache : DedupCache) : DedupCache :=
  let kept : Dict Int (List Str) :=
    { entries := dropOldest cache.maxIds cache.held.entries
      nodup := ((dropOldest_suffix _ _).sublist.map Prod.fst).nodup cache.held.nodup }
  { cache with
    held := kept
    evictedEarly := cache.evictedEarly + (cache.size - kept.values.flatten.length) }

/-- `self._buckets.setdefault(index, set()).add(event_id)`, for an id no bucket holds. -/
def insert (cache : DedupCache) (index : Int) (eventId : Str) : DedupCache :=
  { cache with held := cache.held.set index (((cache.held.get? index).getD []) ++ [eventId]) }

/-- `is_new`. -/
def isNew (cache : DedupCache) (eventId : Str) (eventTimeMs : Int) : Bool × DedupCache :=
  let cache := { cache with seenCount := cache.seenCount + 1 }.expire eventTimeMs
  if eventId ∈ cache.ids then (false, { cache with duplicateCount := cache.duplicateCount + 1 })
  else (true, (cache.insert (eventTimeMs / cache.bucketSpanMs) eventId).enforceSize)

/-! ## What a call can change -/

theorem mem_ids {cache : DedupCache} {id : Str} :
    id ∈ cache.ids ↔ ∃ index bucket, cache.held.get? index = some bucket ∧ id ∈ bucket := by
  unfold ids
  rw [List.mem_flatten]
  constructor
  · rintro ⟨bucket, hb, hid⟩
    obtain ⟨index, hindex⟩ := Dict.mem_values_iff.mp hb
    exact ⟨index, bucket, hindex, hid⟩
  · rintro ⟨index, bucket, hindex, hid⟩
    exact ⟨bucket, Dict.mem_values_iff.mpr ⟨index, hindex⟩, hid⟩

theorem mem_ids_expire {cache : DedupCache} {t : Int} {id : Str} (h : id ∈ (cache.expire t).ids) :
    id ∈ cache.ids := by
  obtain ⟨index, bucket, hindex, hid⟩ := mem_ids.mp h
  have hfilter : (cache.held.filter _).get? index = some bucket := hindex
  rw [Dict.get?_filter] at hfilter
  obtain ⟨hget, _⟩ := Option.filter_eq_some_iff.mp hfilter
  exact mem_ids.mpr ⟨index, bucket, hget, hid⟩

theorem mem_ids_enforceSize {cache : DedupCache} {id : Str} (h : id ∈ cache.enforceSize.ids) :
    id ∈ cache.ids := by
  unfold ids at h ⊢
  obtain ⟨bucket, hb, hid⟩ := List.mem_flatten.mp h
  exact List.mem_flatten.mpr
    ⟨bucket, ((dropOldest_suffix _ _).sublist.map Prod.snd).subset hb, hid⟩

theorem mem_ids_insert {cache : DedupCache} {index : Int} {eventId id : Str}
    (h : id ∈ (cache.insert index eventId).ids) : id ∈ cache.ids ∨ id = eventId := by
  obtain ⟨i, bucket, hi, hid⟩ := mem_ids.mp h
  have hset : (cache.held.set index _).get? i = some bucket := hi
  rw [Dict.get?_set] at hset
  split at hset
  · obtain rfl := Option.some.inj hset
    rcases List.mem_append.mp hid with hold | hnew
    · cases hg : cache.held.get? index with
      | none =>
          rw [hg] at hold
          exact absurd hold (by simp)
      | some old =>
          rw [hg] at hold
          exact Or.inl (mem_ids.mpr ⟨index, old, hg, hold⟩)
    · exact Or.inr (List.mem_singleton.mp hnew)
  · exact Or.inl (mem_ids.mpr ⟨i, bucket, hset, hid⟩)

/-- **A call adds its own id at most**, and only when it answers `True`. -/
theorem mem_ids_isNew {cache : DedupCache} {eventId id : Str} {t : Int}
    (h : id ∈ (cache.isNew eventId t).2.ids) :
    id ∈ cache.ids ∨ ((cache.isNew eventId t).1 = true ∧ id = eventId) := by
  unfold isNew at h ⊢
  dsimp only at h ⊢
  split at h
  · next hold => exact Or.inl (mem_ids_expire h)
  · next hnew =>
      rw [if_neg hnew]
      rcases mem_ids_insert (mem_ids_enforceSize h) with hid | rfl
      · exact Or.inl (mem_ids_expire hid)
      · exact Or.inr ⟨rfl, rfl⟩

/-- A call answers `False` only for an id the cache holds. -/
theorem mem_ids_of_isNew_eq_false {cache : DedupCache} {eventId : Str} {t : Int}
    (h : (cache.isNew eventId t).1 = false) : eventId ∈ cache.ids := by
  unfold isNew at h
  dsimp only at h
  split at h
  · next hold => exact mem_ids_expire hold
  · exact absurd h (by simp)

theorem isNew_eq_false_iff {cache : DedupCache} {eventId : Str} {t : Int} :
    (cache.isNew eventId t).1 = false ↔ eventId ∈ (cache.expire t).ids := by
  unfold isNew
  dsimp only
  split
  · next hold => exact iff_of_true rfl hold
  · next hnew => exact iff_of_false (by simp) hnew

/-! ## How long an id stays -/

/-- The id is in a bucket of time `t` or later. -/
def HeldSince (cache : DedupCache) (id : Str) (t : Int) : Prop :=
  ∃ index bucket, cache.held.get? index = some bucket ∧ id ∈ bucket ∧ t / cache.bucketSpanMs ≤ index

theorem bucketSpanMs_pos (cache : DedupCache) : 0 < cache.bucketSpanMs :=
  lt_of_lt_of_le Int.zero_lt_one (Int.le_max_right _ _)

@[simp] theorem windowMs_isNew (cache : DedupCache) (id : Str) (t : Int) :
    (cache.isNew id t).2.windowMs = cache.windowMs := by
  unfold isNew
  dsimp only
  split <;> rfl

@[simp] theorem bucketSpanMs_isNew (cache : DedupCache) (id : Str) (t : Int) :
    (cache.isNew id t).2.bucketSpanMs = cache.bucketSpanMs := by
  unfold isNew
  dsimp only
  split <;> rfl

theorem HeldSince.mem_ids {cache : DedupCache} {id : Str} {t : Int} (h : cache.HeldSince id t) :
    id ∈ cache.ids := by
  obtain ⟨index, bucket, hindex, hid, _⟩ := h
  exact DedupCache.mem_ids.mpr ⟨index, bucket, hindex, hid⟩

theorem HeldSince.mono {cache : DedupCache} {id : Str} {t t' : Int} (h : cache.HeldSince id t) (hle : t' ≤ t) :
    cache.HeldSince id t' := by
  obtain ⟨index, bucket, hindex, hid, ht⟩ := h
  exact ⟨index, bucket, hindex, hid, (Int.ediv_le_ediv cache.bucketSpanMs_pos hle).trans ht⟩

/-- A bucket of the window is not expired. -/
theorem heldSince_expire {cache : DedupCache} {id : Str} {t now : Int} (h : cache.HeldSince id t)
    (hfresh : now - cache.windowMs ≤ t) : (cache.expire now).HeldSince id t := by
  obtain ⟨index, bucket, hindex, hid, ht⟩ := h
  refine ⟨index, bucket, ?_, hid, ht⟩
  show (cache.held.filter _).get? index = some bucket
  rw [Dict.get?_filter, hindex, Option.filter_some, if_pos]
  have hcut := (Int.ediv_le_ediv cache.bucketSpanMs_pos hfresh).trans ht
  simpa using hcut

theorem heldSince_insert {cache : DedupCache} {id id' : Str} {t : Int} {index : Int} (h : cache.HeldSince id t) :
    (cache.insert index id').HeldSince id t := by
  obtain ⟨i, bucket, hi, hid, ht⟩ := h
  by_cases hsame : i = index
  · subst hsame
    refine ⟨i, bucket ++ [id'], ?_, List.mem_append_left _ hid, ht⟩
    show (cache.held.set i _).get? i = _
    rw [Dict.get?_set_self, hi]
    rfl
  · exact ⟨i, bucket, (Dict.get?_set_ne _ _ hsame).trans hi, hid, ht⟩

theorem heldSince_insert_self (cache : DedupCache) (id : Str) (t : Int) :
    (cache.insert (t / cache.bucketSpanMs) id).HeldSince id t :=
  ⟨_, _, Dict.get?_set_self _ _ _, List.mem_append_right _ (List.mem_singleton_self id), Int.le_refl _⟩

/-- While `evicted_early` does not count, only empty buckets leave. -/
theorem heldSince_enforceSize {cache : DedupCache} {id : Str} {t : Int} (h : cache.HeldSince id t)
    (hcap : cache.enforceSize.evictedEarly = cache.evictedEarly) : cache.enforceSize.HeldSince id t := by
  obtain ⟨index, bucket, hindex, hid, ht⟩ := h
  refine ⟨index, bucket, Dict.get?_eq_some_iff.mpr ?_, hid, ht⟩
  show (index, bucket) ∈ dropOldest cache.maxIds cache.held.entries
  obtain ⟨dropped, hsplit⟩ := dropOldest_suffix cache.maxIds cache.held.entries
  have hmem : (index, bucket) ∈ dropped ++ dropOldest cache.maxIds cache.held.entries := by
    rw [hsplit]
    exact Dict.get?_eq_some_iff.mp hindex
  refine (List.mem_append.mp hmem).resolve_left (fun hdropped => ?_)
  -- a dropped bucket that holds the id would be counted
  have hsize : cache.size = ((dropped.map Prod.snd).flatten ++
      ((dropOldest cache.maxIds cache.held.entries).map Prod.snd).flatten).length := by
    rw [← List.flatten_append, ← List.map_append, hsplit]
    rfl
  have hcount : cache.evictedEarly + (cache.size -
      ((dropOldest cache.maxIds cache.held.entries).map Prod.snd).flatten.length) = cache.evictedEarly := hcap
  rw [hsize, List.length_append] at hcount
  have hnil : (dropped.map Prod.snd).flatten = [] := List.length_eq_zero_iff.mp (by omega)
  have hin : id ∈ (dropped.map Prod.snd).flatten :=
    List.mem_flatten.mpr ⟨bucket, List.mem_map_of_mem hdropped, hid⟩
  rw [hnil] at hin
  exact absurd hin (by simp)

theorem evictedEarly_le_isNew (cache : DedupCache) (id : Str) (t : Int) :
    cache.evictedEarly ≤ (cache.isNew id t).2.evictedEarly := by
  unfold isNew
  dsimp only
  split
  · exact Nat.le_refl _
  · exact Nat.le_add_right _ _

/-- **An id stays for a window.** -/
theorem heldSince_isNew {cache : DedupCache} {id eventId : Str} {t now : Int} (h : cache.HeldSince id t)
    (hfresh : now - cache.windowMs ≤ t)
    (hcap : (cache.isNew eventId now).2.evictedEarly = cache.evictedEarly) :
    (cache.isNew eventId now).2.HeldSince id t := by
  have hexpire := @heldSince_expire { cache with seenCount := cache.seenCount + 1 } id t now h hfresh
  unfold isNew at hcap ⊢
  dsimp only at hcap ⊢
  split
  · exact hexpire
  · next hnew =>
      rw [if_neg hnew] at hcap
      exact heldSince_enforceSize (heldSince_insert hexpire) hcap

/-- A new id is filed under its time. -/
theorem heldSince_isNew_self {cache : DedupCache} {id : Str} {t : Int} (hnew : (cache.isNew id t).1 = true)
    (hcap : (cache.isNew id t).2.evictedEarly = cache.evictedEarly) : (cache.isNew id t).2.HeldSince id t := by
  unfold isNew at hnew hcap ⊢
  dsimp only at hnew hcap ⊢
  split
  · next hold =>
      rw [if_pos hold] at hnew
      exact absurd hnew (by simp)
  · next h =>
      rw [if_neg h] at hcap
      apply heldSince_enforceSize _ hcap
      exact heldSince_insert_self _ id t

/-! ## Many calls -/

/-- The cache after calls of `is_new`. -/
def fill (cache : DedupCache) (calls : List (Str × Int)) : DedupCache :=
  calls.foldl (fun cache call => (cache.isNew call.1 call.2).2) cache

theorem fill_append (cache : DedupCache) (calls more : List (Str × Int)) :
    cache.fill (calls ++ more) = (cache.fill calls).fill more := List.foldl_append ..

@[simp] theorem windowMs_fill (cache : DedupCache) (calls : List (Str × Int)) :
    (cache.fill calls).windowMs = cache.windowMs := by
  induction calls generalizing cache with
  | nil => rfl
  | cons call calls ih => exact (ih _).trans (windowMs_isNew _ _ _)

theorem evictedEarly_le_fill (cache : DedupCache) (calls : List (Str × Int)) :
    cache.evictedEarly ≤ (cache.fill calls).evictedEarly := by
  induction calls generalizing cache with
  | nil => exact Nat.le_refl _
  | cons call calls ih => exact (evictedEarly_le_isNew cache call.1 call.2).trans (ih _)

/-- The cache holds nothing but what it held before or was asked about. -/
theorem mem_ids_fill {cache : DedupCache} {calls : List (Str × Int)} {id : Str} (h : id ∈ (cache.fill calls).ids) :
    id ∈ cache.ids ∨ ∃ call ∈ calls, call.1 = id := by
  induction calls generalizing cache with
  | nil => exact Or.inl h
  | cons call calls ih =>
      rcases ih h with hid | ⟨c, hc, hid⟩
      · rcases mem_ids_isNew hid with hold | ⟨_, rfl⟩
        · exact Or.inl hold
        · exact Or.inr ⟨call, List.mem_cons_self, rfl⟩
      · exact Or.inr ⟨c, List.mem_cons_of_mem _ hc, hid⟩

/-- **What was asked about is held**, when no call came more than a window after `t` and the id was never
    filed under an earlier time. -/
theorem heldSince_fill {cache : DedupCache} {calls : List (Str × Int)} {id : Str} {t : Int}
    (hcap : (cache.fill calls).evictedEarly = cache.evictedEarly)
    (hfresh : ∀ call ∈ calls, call.2 - cache.windowMs ≤ t)
    (hlate : ∀ call ∈ calls, call.1 = id → t ≤ call.2) (hheld : id ∈ cache.ids → cache.HeldSince id t)
    (h : id ∈ cache.ids ∨ ∃ call ∈ calls, call.1 = id) : (cache.fill calls).HeldSince id t := by
  induction calls generalizing cache with
  | nil =>
      rcases h with h | ⟨call, hcall, _⟩
      · exact hheld h
      · exact absurd hcall (by simp)
  | cons call calls ih =>
      have hfirst := evictedEarly_le_isNew cache call.1 call.2
      have hrest := evictedEarly_le_fill (cache.isNew call.1 call.2).2 calls
      have hone : (cache.isNew call.1 call.2).2.evictedEarly = cache.evictedEarly :=
        Nat.le_antisymm (hrest.trans (le_of_eq hcap)) hfirst
      have hnow : call.2 - cache.windowMs ≤ t := hfresh call List.mem_cons_self
      -- held from before, or filed now
      have hstep : id ∈ cache.ids ∨ call.1 = id → (cache.isNew call.1 call.2).2.HeldSince id t := by
        intro hor
        by_cases hold : id ∈ cache.ids
        · exact heldSince_isNew (hheld hold) hnow hone
        · obtain rfl := hor.resolve_left hold
          have hnew : (cache.isNew call.1 call.2).1 = true := by
            by_contra hfalse
            exact hold (mem_ids_of_isNew_eq_false (Bool.eq_false_of_not_eq_true hfalse))
          exact (heldSince_isNew_self hnew hone).mono (hlate call List.mem_cons_self rfl)
      show ((cache.isNew call.1 call.2).2.fill calls).HeldSince id t
      apply ih
      · exact hcap.trans hone.symm
      · intro c hc
        rw [windowMs_isNew]
        exact hfresh c (List.mem_cons_of_mem _ hc)
      · intro c hc
        exact hlate c (List.mem_cons_of_mem _ hc)
      · intro hid
        exact hstep ((mem_ids_isNew hid).imp_right (fun hnew => hnew.2.symm))
      · rcases h with hid | ⟨c, hc, hid⟩
        · exact Or.inl (hstep (Or.inl hid)).mem_ids
        · rcases List.mem_cons.mp hc with rfl | hc
          · exact Or.inl (hstep (Or.inr hid)).mem_ids
          · exact Or.inr ⟨c, hc, hid⟩

end DedupCache
end Dedup
end Wikistream
