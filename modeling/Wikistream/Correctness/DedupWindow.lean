import Mathlib.Data.List.Induction
import Wikistream.Processors.DedupBuckets

/-!
# `Correctness.DedupWindow` — when a repeat is caught

Calls come with times in any order, so buckets appear in any order and a call may expire any of them. What a
bucket holds can still be told from the calls alone, as long as the cap is not reached.

## Contents
- **Runs below the cap** (`Roomy`).
- **What is remembered** (`Remembered`): an accepted call, when no later one was too late for its bucket. The
  buckets hold exactly that (`inBucket_fill`, by induction on the calls).
- **The result** (`repeat_caught_iff`).
-/

namespace Wikistream
namespace Dedup

open Py Lib

namespace DedupCache

/-! ## Runs below the cap -/

/-- The number of ids never exceeds the cap, not even within a call. -/
def Roomy : DedupCache → List (Str × Int) → Prop
  | _, [] => True
  | cache, call :: calls =>
      (cache.filed call.1 call.2).size ≤ cache.maxIds ∧ Roomy (cache.isNew call.1 call.2).2 calls

instance decidableRoomy : ∀ (cache : DedupCache) (calls : List (Str × Int)), Decidable (Roomy cache calls)
  | _, [] => isTrue trivial
  | cache, call :: calls =>
      have := decidableRoomy (cache.isNew call.1 call.2).2 calls
      inferInstanceAs (Decidable (_ ∧ _))

variable {cache : DedupCache} {calls : List (Str × Int)} {call : Str × Int} {id : Str} {t now : Int}

theorem fill_snoc (cache : DedupCache) (calls : List (Str × Int)) (call : Str × Int) :
    cache.fill (calls ++ [call]) = ((cache.fill calls).isNew call.1 call.2).2 := fill_append _ _ _

@[simp] theorem bucketSpanMs_fill (cache : DedupCache) (calls : List (Str × Int)) :
    (cache.fill calls).bucketSpanMs = cache.bucketSpanMs := by
  induction calls generalizing cache with
  | nil => rfl
  | cons call calls ih => exact (ih _).trans (bucketSpanMs_isNew _ _ _)

theorem roomy_snoc : Roomy cache (calls ++ [call]) ↔
    Roomy cache calls ∧
      ((cache.fill calls).filed call.1 call.2).size ≤ ((cache.fill calls).filed call.1 call.2).maxIds := by
  induction calls generalizing cache with
  | nil =>
      rw [maxIds_filed]
      exact ⟨fun h => ⟨trivial, h.1⟩, fun h => ⟨h.2, trivial⟩⟩
  | cons c calls ih =>
      show _ ∧ Roomy _ (calls ++ [call]) ↔ _
      rw [ih]
      exact and_assoc.symm

/-! ## What is remembered -/

/-- The id was accepted at the time `t`, and no later call was too late for its bucket. -/
def Remembered (cache : DedupCache) (calls : List (Str × Int)) (id : Str) (t : Int) : Prop :=
  ∃ before after, calls = before ++ (id, t) :: after ∧ ((cache.fill before).isNew id t).1 = true ∧
    ∀ n ∈ after, (n.2 - cache.windowMs) / cache.bucketSpanMs ≤ t / cache.bucketSpanMs

theorem remembered_snoc : Remembered cache (calls ++ [call]) id t ↔
    (Remembered cache calls id t ∧ (call.2 - cache.windowMs) / cache.bucketSpanMs ≤ t / cache.bucketSpanMs) ∨
      (call = (id, t) ∧ ((cache.fill calls).isNew id t).1 = true) := by
  constructor
  · rintro ⟨before, after, hsplit, hnew, hlater⟩
    -- the id was filed by the last call, or before it and has not expired since
    rcases List.eq_nil_or_concat after with rfl | ⟨after, last, rfl⟩
    · obtain ⟨rfl, hcall⟩ := List.append_inj' hsplit rfl
      exact Or.inr ⟨List.singleton_inj.mp hcall, hnew⟩
    · rw [List.concat_eq_append, ← List.cons_append, ← List.append_assoc] at hsplit
      obtain ⟨rfl, hlast⟩ := List.append_inj' hsplit rfl
      obtain rfl := List.singleton_inj.mp hlast
      refine Or.inl ⟨⟨before, after, rfl, hnew, ?_⟩, ?_⟩
      · intro n hn
        exact hlater n (by simp [hn])
      · exact hlater call (by simp)
  · rintro (⟨⟨before, after, rfl, hnew, hlater⟩, hcall⟩ | ⟨rfl, hnew⟩)
    · refine ⟨before, after ++ [call], by simp, hnew, ?_⟩
      intro n hn
      rcases List.mem_append.mp hn with hn | hn
      · exact hlater n hn
      · exact List.mem_singleton.mp hn ▸ hcall
    · exact ⟨calls, [], rfl, hnew, fun n hn => absurd hn (by simp)⟩

/-- What one call does to the buckets: it expires some, and files an id it accepts. -/
theorem inBucket_isNew {index : Int} {x : Str} (hroom : (cache.filed x now).size ≤ (cache.filed x now).maxIds) :
    (cache.isNew x now).2.InBucket index id ↔
      (cache.InBucket index id ∧ (now - cache.windowMs) / cache.bucketSpanMs ≤ index) ∨
        ((cache.isNew x now).1 = true ∧ index = now / cache.bucketSpanMs ∧ id = x) := by
  have hheld : (cache.isNew x now).2.InBucket index id ↔ (cache.filed x now).InBucket index id := by
    unfold InBucket
    rw [held_isNew_of_le hroom]
  rw [hheld, ← inBucket_expire]
  unfold filed
  by_cases hx : x ∈ (cache.expire now).ids
  · have hfalse : (cache.isNew x now).1 = false := isNew_eq_false_iff.mpr hx
    rw [if_pos hx, hfalse]
    simp
  · have htrue : (cache.isNew x now).1 = true := by
      by_contra hnot
      exact hx (isNew_eq_false_iff.mp (Bool.eq_false_of_not_eq_true hnot))
    rw [if_neg hx, htrue, inBucket_insert]
    simp

/-- **The buckets hold what is remembered.** -/
theorem inBucket_fill (hempty : cache.held = Dict.empty) (hroom : Roomy cache calls) {index : Int} :
    (cache.fill calls).InBucket index id ↔ ∃ t, Remembered cache calls id t ∧ index = t / cache.bucketSpanMs := by
  induction calls using List.reverseRecOn generalizing index with
  | nil =>
      refine iff_of_false ?_ ?_
      · rintro ⟨bucket, hb, _⟩
        have hb' : cache.held.get? index = some bucket := hb
        rw [hempty] at hb'
        exact absurd hb' (by simp)
      · rintro ⟨t, ⟨before, after, hsplit, _⟩, _⟩
        exact absurd hsplit (by simp)
  | append_singleton calls call ih =>
      obtain ⟨hbefore, hcall⟩ := roomy_snoc.mp hroom
      rw [fill_snoc, inBucket_isNew hcall, ih hbefore, windowMs_fill, bucketSpanMs_fill]
      constructor
      · rintro (⟨⟨t, ht, rfl⟩, hcut⟩ | ⟨hnew, rfl, rfl⟩)
        · exact ⟨t, remembered_snoc.mpr (Or.inl ⟨ht, hcut⟩), rfl⟩
        · exact ⟨call.2, remembered_snoc.mpr (Or.inr ⟨rfl, hnew⟩), rfl⟩
      · rintro ⟨t, ht, rfl⟩
        rcases remembered_snoc.mp ht with ⟨hold, hcut⟩ | ⟨rfl, hnew⟩
        · exact Or.inl ⟨⟨t, hold, rfl⟩, hcut⟩
        · exact Or.inr ⟨hnew, rfl, rfl⟩

theorem regular_fill (h : cache.Regular) : (cache.fill calls).Regular := by
  induction calls generalizing cache with
  | nil => exact h
  | cons call calls ih => exact ih h.isNew

/-! ## The result -/

/-- **A repeat is caught exactly while its bucket is in the window.** The cache starts empty, and its cap is never
    reached: `is_new` answers `False` if and only if the id was accepted before and no call since then, this one
    included, was too late for its bucket. None is that is at most a window later; and an id is in one bucket. -/
theorem repeat_caught_iff (hempty : cache.held = Dict.empty) (hwindow : 0 ≤ cache.windowMs)
    (hroom : Roomy cache calls) (id : Str) (now : Int) :
    (((cache.fill calls).isNew id now).1 = false ↔
      ∃ before t after, calls = before ++ (id, t) :: after ∧ ((cache.fill before).isNew id t).1 = true ∧
        ∀ n ∈ after.map Prod.snd ++ [now], (n - cache.windowMs) / cache.bucketSpanMs ≤ t / cache.bucketSpanMs) ∧
    (∀ before t after, calls = before ++ (id, t) :: after → ((cache.fill before).isNew id t).1 = true →
      (∀ n ∈ after.map Prod.snd ++ [now], n ≤ t + cache.windowMs) → ((cache.fill calls).isNew id now).1 = false) ∧
    ∀ i j, (cache.fill calls).InBucket i id → (cache.fill calls).InBucket j id → i = j := by
  have hiff : ((cache.fill calls).isNew id now).1 = false ↔
      ∃ before t after, calls = before ++ (id, t) :: after ∧ ((cache.fill before).isNew id t).1 = true ∧
        ∀ n ∈ after.map Prod.snd ++ [now], (n - cache.windowMs) / cache.bucketSpanMs ≤ t / cache.bucketSpanMs := by
    rw [isNew_eq_false_iff, mem_ids_iff_inBucket]
    simp only [inBucket_expire, inBucket_fill hempty hroom, windowMs_fill, bucketSpanMs_fill]
    constructor
    · rintro ⟨_, ⟨t, ⟨before, after, hsplit, hnew, hlater⟩, rfl⟩, hnow⟩
      refine ⟨before, t, after, hsplit, hnew, ?_⟩
      intro n hn
      rcases List.mem_append.mp hn with hn | hn
      · obtain ⟨c, hc, rfl⟩ := List.mem_map.mp hn
        exact hlater c hc
      · exact List.mem_singleton.mp hn ▸ hnow
    · rintro ⟨before, t, after, hsplit, hnew, hlater⟩
      refine ⟨_, ⟨t, ⟨before, after, hsplit, hnew, ?_⟩, rfl⟩, hlater now (by simp)⟩
      intro c hc
      exact hlater c.2 (List.mem_append_left _ (List.mem_map_of_mem hc))
  refine ⟨hiff, ?_, ?_⟩
  · intro before t after hsplit hnew hlater
    apply hiff.mpr
    refine ⟨before, t, after, hsplit, hnew, ?_⟩
    intro n hn
    -- a time within the window is in a bucket that has not been cut off
    apply Int.ediv_le_ediv cache.bucketSpanMs_pos
    have := hlater n hn
    omega
  · intro i j hi hj
    -- a fresh cache has no bucket, so none is out of place
    have hregular : cache.Regular := by
      refine ⟨hwindow, ?_, ?_⟩
      · intro index bucket hb
        rw [hempty] at hb
        exact absurd hb (by simp)
      · intro i j b b' id hb
        rw [hempty] at hb
        exact absurd hb (by simp)
    obtain ⟨b, hb, hid⟩ := hi
    obtain ⟨b', hb', hid'⟩ := hj
    exact (regular_fill hregular).once i j b b' id hb hb' hid hid'

/-- The first copy, an event of two hours earlier, and a second copy 50 minutes after the first: it is caught. -/
theorem repeat_caught_late :
    let calls := [(lit "a", 7200000), (lit "b", 0)]
    ((({} : DedupCache).fill calls).isNew (lit "a") 10200000).1 = false := by
  intro calls
  have hroom : Roomy {} calls := by decide +revert
  refine (repeat_caught_iff rfl (by decide) hroom (lit "a") 10200000).1.mpr ?_
  refine ⟨[], 7200000, [(lit "b", 0)], rfl, by decide, ?_⟩
  intro n hn
  simp only [List.map_cons, List.map_nil, List.cons_append, List.nil_append, List.mem_cons, List.not_mem_nil,
    or_false] at hn
  rcases hn with rfl | rfl
  · decide
  · decide

end DedupCache
end Dedup
end Wikistream
