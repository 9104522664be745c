import Wikistream.Processors.Dedup

/-!
# `Processors.DedupBuckets` — what the buckets of a cache hold

## Contents
- **Ids in buckets** (`InBucket`): one equation for each part of `is_new`.
- **Regular caches** (`Regular`): no bucket is empty, and an id is in one bucket only.
- **The cap** (`filed`, `held_isNew`): a new id is filed first, and then the buckets inserted first are dropped.
-/

namespace Wikistream
namespace Dedup

open Py Lib

namespace DedupCache

variable {cache cache' : DedupCache} {id : Str} {t : Int}

/-! ## Ids in buckets -/

/-- The id is in the bucket `index`. -/
def InBucket (cache : DedupCache) (index : Int) (id : Str) : Prop :=
  ∃ bucket, cache.held.get? index = some bucket ∧ id ∈ bucket

theorem mem_ids_iff_inBucket : id ∈ cache.ids ↔ ∃ index, cache.InBucket index id := by
  rw [mem_ids]
  constructor
  · rintro ⟨index, bucket, hindex, hid⟩
    exact ⟨index, bucket, hindex, hid⟩
  · rintro ⟨index, bucket, hindex, hid⟩
    exact ⟨index, bucket, hindex, hid⟩

theorem inBucket_expire {index : Int} :
    (cache.expire t).InBucket index id ↔
      cache.InBucket index id ∧ (t - cache.windowMs) / cache.bucketSpanMs ≤ index := by
  have hget : (cache.expire t).held.get? index = (cache.held.get? index).filter
      (fun _ => !decide (index < (t - cache.windowMs) / cache.bucketSpanMs)) := Dict.get?_filter _ _ _
  unfold InBucket
  simp only [hget, Option.filter_eq_some_iff, Bool.not_eq_true', decide_eq_false_iff_not, Int.not_lt]
  constructor
  · rintro ⟨bucket, ⟨hb, hcut⟩, hid⟩
    exact ⟨⟨bucket, hb, hid⟩, hcut⟩
  · rintro ⟨⟨bucket, hb, hid⟩, hcut⟩
    exact ⟨bucket, ⟨hb, hcut⟩, hid⟩

theorem inBucket_insert {index i : Int} {x : Str} :
    (cache.insert index x).InBucket i id ↔ cache.InBucket i id ∨ (i = index ∧ id = x) := by
  have hget : (cache.insert index x).held.get? i =
      if i = index then some (((cache.held.get? index).getD []) ++ [x]) else cache.held.get? i :=
    Dict.get?_set _ _ _ _
  unfold InBucket
  rw [hget]
  by_cases hi : i = index
  · subst hi
    rw [if_pos rfl]
    cases cache.held.get? i with
    | none => simp
    | some old => simp
  · rw [if_neg hi]
    simp [hi]

/-! ## Regular caches -/

/-- What every cache keeps from its creation on. -/
structure Regular (cache : DedupCache) : Prop where
  window : 0 ≤ cache.windowMs
  nonempty : ∀ index bucket, cache.held.get? index = some bucket → bucket ≠ []
  once : ∀ i j b b' id, cache.held.get? i = some b → cache.held.get? j = some b' → id ∈ b → id ∈ b' → i = j

theorem regular_default : Regular {} where
  window := by decide
  nonempty index bucket h := absurd h (by simp)
  once i j b b' id h := absurd h (by simp)

/-- Fewer buckets are as regular. -/
theorem Regular.of_held {cache' : DedupCache} (h : cache.Regular) (hw : cache'.windowMs = cache.windowMs)
    (hsub : ∀ index bucket, cache'.held.get? index = some bucket → cache.held.get? index = some bucket) :
    cache'.Regular where
  window := hw ▸ h.window
  nonempty index bucket hb := h.nonempty index bucket (hsub index bucket hb)
  once i j b b' id hb hb' := h.once i j b b' id (hsub i b hb) (hsub j b' hb')

theorem held_expire {index : Int} {bucket : List Str} (h : (cache.expire t).held.get? index = some bucket) :
    cache.held.get? index = some bucket ∧ (t - cache.windowMs) / cache.bucketSpanMs ≤ index := by
  have hfilter : (cache.held.filter _).get? index = some bucket := h
  rw [Dict.get?_filter] at hfilter
  obtain ⟨hget, hkeep⟩ := Option.filter_eq_some_iff.mp hfilter
  exact ⟨hget, by simpa using hkeep⟩

theorem held_enforceSize {index : Int} {bucket : List Str} (h : cache.enforceSize.held.get? index = some bucket) :
    cache.held.get? index = some bucket :=
  Dict.get?_eq_some_iff.mpr ((dropOldest_suffix _ _).subset (Dict.get?_eq_some_iff.mp h))

theorem Regular.expire (h : cache.Regular) : (cache.expire t).Regular :=
  h.of_held rfl (fun _ _ hb => (held_expire hb).1)

theorem Regular.enforceSize (h : cache.Regular) : cache.enforceSize.Regular :=
  h.of_held rfl (fun _ _ hb => held_enforceSize hb)

/-- The bucket of a new id. -/
theorem held_insert {index i : Int} {bucket : List Str} (h : (cache.insert index id).held.get? i = some bucket) :
    (i = index ∧ bucket = ((cache.held.get? index).getD []) ++ [id]) ∨
      (i ≠ index ∧ cache.held.get? i = some bucket) := by
  have hset : (cache.held.set index _).get? i = some bucket := h
  rw [Dict.get?_set] at hset
  split at hset
  · next hi => exact Or.inl ⟨hi, (Option.some.inj hset).symm⟩
  · next hi => exact Or.inr ⟨hi, hset⟩

/-- An id in a bucket after an insertion is the new one, or was there before. -/
theorem mem_insert {index i : Int} {bucket : List Str} {x : Str}
    (h : (cache.insert index id).held.get? i = some bucket) (hx : x ∈ bucket) :
    (i = index ∧ x = id) ∨ ∃ old, cache.held.get? i = some old ∧ x ∈ old := by
  rcases held_insert h with ⟨rfl, rfl⟩ | ⟨_, hi⟩
  · rcases List.mem_append.mp hx with hold | hnew
    · cases hg : cache.held.get? i with
      | none =>
          rw [hg] at hold
          exact absurd hold (by simp)
      | some old =>
          rw [hg] at hold
          exact Or.inr ⟨old, rfl, hold⟩
    · exact Or.inl ⟨rfl, List.mem_singleton.mp hnew⟩
  · exact Or.inr ⟨bucket, hi, hx⟩

theorem Regular.insert (h : cache.Regular) (hnew : id ∉ cache.ids) (index : Int) : (cache.insert index id).Regular where
  window := h.window
  nonempty i bucket hb := by
    rcases held_insert hb with ⟨_, rfl⟩ | ⟨_, hi⟩
    · simp
    · exact h.nonempty i bucket hi
  once i j b b' x hb hb' hx hx' := by
    have hfresh : ∀ {k old}, cache.held.get? k = some old → id ∉ old :=
      fun hk hold => hnew (mem_ids.mpr ⟨_, _, hk, hold⟩)
    rcases mem_insert hb hx with ⟨rfl, rfl⟩ | ⟨old, hi, hold⟩
    · rcases mem_insert hb' hx' with ⟨rfl, _⟩ | ⟨old', hj, hold'⟩
      · rfl
      · exact absurd hold' (hfresh hj)
    · rcases mem_insert hb' hx' with ⟨rfl, rfl⟩ | ⟨old', hj, hold'⟩
      · exact absurd hold (hfresh hi)
      · exact h.once i j old old' x hi hj hold hold'

theorem Regular.isNew (h : cache.Regular) : (cache.isNew id t).2.Regular := by
  have hcounted : Regular { cache with seenCount := cache.seenCount + 1 } := ⟨h.window, h.nonempty, h.once⟩
  have hexpired := @Regular.expire _ t hcounted
  unfold DedupCache.isNew
  dsimp only
  split
  · exact ⟨hexpired.window, hexpired.nonempty, hexpired.once⟩
  · next hnew => exact (hexpired.insert hnew _).enforceSize

/-! ## The cap -/

/-- The cache once the id is filed, before `_enforce_size`. -/
def filed (cache : DedupCache) (id : Str) (t : Int) : DedupCache :=
  if id ∈ (cache.expire t).ids then cache.expire t
  else (cache.expire t).insert (t / cache.bucketSpanMs) id

@[simp] theorem maxIds_isNew (cache : DedupCache) (id : Str) (t : Int) :
    (cache.isNew id t).2.maxIds = cache.maxIds := by
  unfold isNew
  dsimp only
  split <;> rfl

theorem maxIds_filed (cache : DedupCache) (id : Str) (t : Int) : (cache.filed id t).maxIds = cache.maxIds := by
  unfold filed
  split <;> rfl

/-- **What a call leaves in the buckets.** -/
theorem held_isNew (cache : DedupCache) (id : Str) (t : Int) :
    (cache.isNew id t).2.held =
      if id ∈ (cache.expire t).ids then (cache.filed id t).held else (cache.filed id t).enforceSize.held := by
  unfold isNew filed
  dsimp only
  split
  · next hid =>
      have hid' : id ∈ (cache.expire t).ids := hid
      rw [if_pos hid', if_pos hid']
      rfl
  · next hid =>
      have hid' : id ∉ (cache.expire t).ids := hid
      rw [if_neg hid', if_neg hid']
      rfl

theorem dropOldest_of_le {maxIds : Nat} {bs : List (Int × List Str)} (h : (bs.map Prod.snd).flatten.length ≤ maxIds) :
    dropOldest maxIds bs = bs := by
  unfold dropOldest
  split
  · exact if_neg (Nat.not_lt.mpr h)
  · rfl

/-- Below the cap nothing is dropped. -/
theorem held_enforceSize_of_le (h : cache.size ≤ cache.maxIds) : cache.enforceSize.held = cache.held := by
  have hentries : dropOldest cache.maxIds cache.held.entries = cache.held.entries := dropOldest_of_le h
  unfold enforceSize
  dsimp only
  congr

/-- Below the cap a call files its id. -/
theorem held_isNew_of_le (h : (cache.filed id t).size ≤ (cache.filed id t).maxIds) :
    (cache.isNew id t).2.held = (cache.filed id t).held := by
  rw [held_isNew]
  split
  · rfl
  · exact held_enforceSize_of_le h

theorem dropOldest_ne_nil (maxIds : Nat) {bs : List (Int × List Str)} (h : bs ≠ []) : dropOldest maxIds bs ≠ [] := by
  fun_induction dropOldest maxIds bs with
  | case1 b b' bs hmany ih => exact ih (by simp)
  | case2 b b' bs hfew => exact h
  | case3 bs hshort => exact h

/-- The bucket inserted last is never dropped. -/
theorem last_mem_dropOldest (maxIds : Nat) (bs : List (Int × List Str)) (b : Int × List Str) :
    b ∈ dropOldest maxIds (bs ++ [b]) := by
  obtain ⟨dropped, hsplit⟩ := dropOldest_suffix maxIds (bs ++ [b])
  rcases List.eq_nil_or_concat (dropOldest maxIds (bs ++ [b])) with hnil | ⟨front, last, hlast⟩
  · exact absurd hnil (dropOldest_ne_nil maxIds (by simp))
  · rw [hlast, List.concat_eq_append, ← List.append_assoc] at hsplit
    have hb : [last] = [b] := (List.append_inj' hsplit rfl).2
    rw [hlast, List.concat_eq_append, hb]
    exact List.mem_append_right _ (List.mem_singleton_self b)

end DedupCache
end Dedup
end Wikistream
