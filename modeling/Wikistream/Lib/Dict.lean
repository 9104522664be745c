import Mathlib.Algebra.GroupWithZero.Nat
import Mathlib.Algebra.Order.BigOperators.Group.List
import Mathlib.Algebra.Order.Group.Nat
import Mathlib.Data.List.Nodup
import Mathlib.Tactic.Common

/-!
# `Lib.Dict` — dictionaries that remember insertion order

A `Dict κ ν` is a list of entries with distinct keys. Overwriting a key keeps its place, a new key
goes to the end, and removing a key closes the gap: the behaviour of a Python `dict`.

## Contents
- **Operations.** `get?`, `set`, `setDefault`, `erase`, `filter`, `mapVals`, `filterMapVals`,
  `update`, `keys`, `values`.
- **Totals** (`total_set`, `total_filter`): sums over the values.
- **Reading after writing.** Every operation has one `get?_*` equation; proofs about dictionaries go
  through these and never look at the entry list.

The distinct-keys invariant is a field, so no lemma takes it as a hypothesis.
-/

namespace Lib

/-- Entries with distinct keys, oldest first. -/
structure Dict (κ ν : Type) where
  entries : List (κ × ν)
  nodup : (entries.map Prod.fst).Nodup
  deriving DecidableEq

/-- Replace the value under `k` where it stands, or append a new entry. -/
def upsert {κ ν : Type} [DecidableEq κ] (k : κ) (v : ν) : List (κ × ν) → List (κ × ν)
  | [] => [(k, v)]
  | e :: es => if e.1 = k then (k, v) :: es else e :: upsert k v es

section Upsert

variable {κ ν : Type} [DecidableEq κ]

theorem map_fst_upsert (k : κ) (v : ν) (es : List (κ × ν)) :
    (upsert k v es).map Prod.fst =
      if k ∈ es.map Prod.fst then es.map Prod.fst else es.map Prod.fst ++ [k] := by
  induction es with
  | nil => simp [upsert]
  | cons e es ih =>
      by_cases he : e.1 = k
      · simp [upsert, he]
      · have hk : ¬ k = e.1 := fun h => he h.symm
        simp only [upsert, he, if_false, List.map_cons, ih, List.mem_cons, hk, false_or]
        split <;> simp

theorem upsert_of_notMem {k : κ} {es : List (κ × ν)} (h : k ∉ es.map Prod.fst) (v : ν) :
    upsert k v es = es ++ [(k, v)] := by
  induction es with
  | nil => rfl
  | cons e es ih =>
      rw [List.map_cons, List.mem_cons, not_or] at h
      rw [upsert, if_neg (fun he => h.1 he.symm), ih h.2]
      rfl

theorem nodup_upsert {k : κ} {v : ν} {es : List (κ × ν)} (h : (es.map Prod.fst).Nodup) :
    ((upsert k v es).map Prod.fst).Nodup := by
  rw [map_fst_upsert]
  split
  · exact h
  · next hk =>
      refine List.nodup_append.mpr ⟨h, by simp, ?_⟩
      intro a ha b hb hab
      rw [List.mem_singleton] at hb
      exact hk (hb ▸ hab ▸ ha)

theorem mem_upsert {k : κ} {v : ν} {es : List (κ × ν)} (h : (es.map Prod.fst).Nodup) (e : κ × ν) :
    e ∈ upsert k v es ↔ e = (k, v) ∨ (e.1 ≠ k ∧ e ∈ es) := by
  induction es with
  | nil => simp [upsert]
  | cons d es ih =>
      rw [List.map_cons, List.nodup_cons] at h
      by_cases hd : d.1 = k
      · -- the key is here, so it is nowhere behind
        have hfresh : ∀ x ∈ es, x.1 ≠ k := fun x hx hxk =>
          h.1 (hd ▸ hxk ▸ List.mem_map.mpr ⟨x, hx, rfl⟩)
        simp only [upsert, hd, if_true, List.mem_cons]
        constructor
        · rintro (rfl | he)
          · exact Or.inl rfl
          · exact Or.inr ⟨hfresh e he, Or.inr he⟩
        · rintro (rfl | ⟨hne, rfl | he⟩)
          · exact Or.inl rfl
          · exact absurd hd hne
          · exact Or.inr he
      · simp only [upsert, hd, if_false, List.mem_cons, ih h.2]
        constructor
        · rintro (rfl | rfl | ⟨hne, he⟩)
          · exact Or.inr ⟨hd, Or.inl rfl⟩
          · exact Or.inl rfl
          · exact Or.inr ⟨hne, Or.inr he⟩
        · rintro (rfl | ⟨hne, rfl | he⟩)
          · exact Or.inr (Or.inl rfl)
          · exact Or.inl rfl
          · exact Or.inr (Or.inr ⟨hne, he⟩)

end Upsert

namespace Dict

variable {κ ν μ : Type}

/-- The dictionary with no entry. -/
def empty : Dict κ ν := ⟨[], by simp⟩

instance : Inhabited (Dict κ ν) := ⟨empty⟩

def keys (d : Dict κ ν) : List κ := d.entries.map Prod.fst

def values (d : Dict κ ν) : List ν := d.entries.map Prod.snd

def size (d : Dict κ ν) : Nat := d.entries.length

/-- Keep the entries `p` accepts. -/
def filter (p : κ → ν → Bool) (d : Dict κ ν) : Dict κ ν where
  entries := d.entries.filter (fun e => p e.1 e.2)
  nodup := (List.filter_sublist.map Prod.fst).nodup d.nodup

/-- Apply `f` to every value. -/
def mapVals (f : ν → μ) (d : Dict κ ν) : Dict κ μ where
  entries := d.entries.map (fun e => (e.1, f e.2))
  nodup := by simpa [List.map_map, Function.comp_def] using d.nodup

/-- Apply `f` to every value and keep the entries with a result. -/
def filterMapVals (f : ν → Option μ) (d : Dict κ ν) : Dict κ μ where
  entries := d.entries.filterMap (fun e => (f e.2).map (fun w => (e.1, w)))
  nodup := by
    have h : (d.entries.filterMap (fun e => (f e.2).map (fun w => (e.1, w)))).map Prod.fst =
        (d.entries.filter (fun e => (f e.2).isSome)).map Prod.fst := by
      induction d.entries with
      | nil => rfl
      | cons e es ih => cases hf : f e.2 <;> simp [hf, ih]
    rw [h]
    exact (List.filter_sublist.map Prod.fst).nodup d.nodup

variable [DecidableEq κ]

/-- The value under `k`, if there is one. -/
def get? (d : Dict κ ν) (k : κ) : Option ν :=
  (d.entries.find? (fun e => e.1 = k)).map Prod.snd

/-- Store `v` under `k`. -/
def set (d : Dict κ ν) (k : κ) (v : ν) : Dict κ ν where
  entries := upsert k v d.entries
  nodup := nodup_upsert d.nodup

/-- Drop the entry under `k`. -/
def erase (d : Dict κ ν) (k : κ) : Dict κ ν := d.filter (fun x _ => x ≠ k)

/-- Store `v` under `k` unless `k` already has a value. -/
def setDefault (d : Dict κ ν) (k : κ) (v : ν) : Dict κ ν :=
  match d.get? k with
  | some _ => d
  | none => d.set k v

/-- Store every entry of `u`, as Python's `dict.update`. -/
def update (d u : Dict κ ν) : Dict κ ν := u.entries.foldl (fun d e => d.set e.1 e.2) d

/-! ## Membership of entries -/

omit [DecidableEq κ] in
theorem eq_of_mem {d : Dict κ ν} {k : κ} {v w : ν} (hv : (k, v) ∈ d.entries)
    (hw : (k, w) ∈ d.entries) : v = w := by
  have := List.inj_on_of_nodup_map d.nodup hv hw rfl
  exact congrArg Prod.snd this

theorem get?_eq_some_iff {d : Dict κ ν} {k : κ} {v : ν} :
    d.get? k = some v ↔ (k, v) ∈ d.entries := by
  unfold get?
  constructor
  · intro h
    obtain ⟨e, he, rfl⟩ := Option.map_eq_some_iff.mp h
    have hk : e.1 = k := by simpa using List.find?_some he
    exact hk ▸ List.mem_of_find?_eq_some he
  · intro h
    cases hf : d.entries.find? (fun e => decide (e.1 = k)) with
    | none => exact absurd (List.find?_eq_none.mp hf (k, v) h) (by simp)
    | some e =>
        have hk : e.1 = k := by simpa using List.find?_some hf
        have hm : (k, e.2) ∈ d.entries := hk ▸ List.mem_of_find?_eq_some hf
        rw [Option.map_some, eq_of_mem hm h]

theorem get?_eq_none_iff {d : Dict κ ν} {k : κ} : d.get? k = none ↔ k ∉ d.keys := by
  constructor
  · intro h hk
    obtain ⟨e, he, rfl⟩ := List.mem_map.mp hk
    have hs : d.get? e.1 = some e.2 := get?_eq_some_iff.mpr he
    rw [h] at hs
    exact absurd hs (by simp)
  · intro h
    cases hg : d.get? k with
    | none => rfl
    | some v => exact absurd (List.mem_map.mpr ⟨_, get?_eq_some_iff.mp hg, rfl⟩) h

theorem mem_keys_iff {d : Dict κ ν} {k : κ} : k ∈ d.keys ↔ ∃ v, d.get? k = some v := by
  rw [← Option.isSome_iff_exists, ← not_iff_not, Option.not_isSome_iff_eq_none, get?_eq_none_iff]

theorem mem_values_iff {d : Dict κ ν} {v : ν} : v ∈ d.values ↔ ∃ k, d.get? k = some v := by
  constructor
  · intro h
    obtain ⟨e, he, rfl⟩ := List.mem_map.mp h
    exact ⟨e.1, get?_eq_some_iff.mpr he⟩
  · rintro ⟨k, hk⟩
    exact List.mem_map.mpr ⟨_, get?_eq_some_iff.mp hk, rfl⟩

theorem mem_entries_iff {d : Dict κ ν} {e : κ × ν} : e ∈ d.entries ↔ d.get? e.1 = some e.2 :=
  get?_eq_some_iff.symm

/-- A dictionary's reading function decides emptiness. -/
theorem entries_eq_nil_iff {d : Dict κ ν} : d.entries = [] ↔ ∀ k, d.get? k = none := by
  constructor
  · intro h k
    exact get?_eq_none_iff.mpr (by simp [keys, h])
  · intro h
    cases he : d.entries with
    | nil => rfl
    | cons e es =>
        have : d.get? e.1 = some e.2 := mem_entries_iff.mp (by simp [he])
        rw [h] at this
        exact absurd this (by simp)

/-! ## Reading after writing -/

@[simp] theorem get?_empty (k : κ) : (empty : Dict κ ν).get? k = none := rfl

theorem get?_set (d : Dict κ ν) (k j : κ) (v : ν) :
    (d.set k v).get? j = if j = k then some v else d.get? j := by
  apply Option.ext
  intro w
  rw [get?_eq_some_iff, show (d.set k v).entries = upsert k v d.entries from rfl,
    mem_upsert d.nodup]
  by_cases hj : j = k
  · simp [hj, eq_comm]
  · simp [hj, get?_eq_some_iff]

@[simp] theorem get?_set_self (d : Dict κ ν) (k : κ) (v : ν) : (d.set k v).get? k = some v := by
  rw [get?_set, if_pos rfl]

theorem get?_set_ne (d : Dict κ ν) {k j : κ} (v : ν) (h : j ≠ k) :
    (d.set k v).get? j = d.get? j := by
  rw [get?_set, if_neg h]

theorem mem_keys_set {d : Dict κ ν} {k j : κ} {v : ν} : j ∈ (d.set k v).keys ↔ j = k ∨ j ∈ d.keys := by
  simp only [mem_keys_iff, get?_set]
  by_cases hj : j = k
  · simp [hj]
  · simp [hj]

theorem get?_filter (d : Dict κ ν) (p : κ → ν → Bool) (k : κ) :
    (d.filter p).get? k = (d.get? k).filter (p k) := by
  apply Option.ext
  intro w
  rw [get?_eq_some_iff, Option.filter_eq_some_iff, get?_eq_some_iff]
  simp [filter]

/-- A filter that every entry passes changes nothing. -/
theorem filter_eq_self {d : Dict κ ν} {p : κ → ν → Bool} (h : ∀ k v, d.get? k = some v → p k v = true) :
    d.filter p = d := by
  have hentries : d.entries.filter (fun e => p e.1 e.2) = d.entries := by
    apply List.filter_eq_self.mpr
    intro e he
    exact h e.1 e.2 (get?_eq_some_iff.mpr he)
  obtain ⟨entries, nodup⟩ := d
  show Dict.mk _ _ = _
  congr 1

theorem get?_erase (d : Dict κ ν) (k j : κ) :
    (d.erase k).get? j = if j = k then none else d.get? j := by
  rw [erase, get?_filter]
  by_cases hj : j = k
  · cases d.get? j <;> simp [hj]
  · cases d.get? j <;> simp [hj]

/-- Only the keys that are removed are gone. -/
theorem get?_foldl_erase (ks : List κ) (d : Dict κ ν) (k : κ) :
    (ks.foldl erase d).get? k = if k ∈ ks then none else d.get? k := by
  induction ks generalizing d with
  | nil => simp
  | cons j ks ih =>
      rw [List.foldl_cons, ih, get?_erase]
      by_cases hk : k ∈ ks
      · simp [hk]
      · by_cases hj : k = j
        · simp [hj]
        · simp [hk, hj]

/-- What holds of every value, and of a new one, holds after the new one is stored. -/
theorem forall_get?_set {d : Dict κ ν} {P : ν → Prop} (h : ∀ j w, d.get? j = some w → P w) (k : κ) {v : ν} (hv : P v) :
    ∀ j w, (d.set k v).get? j = some w → P w := by
  intro j w hj
  rw [get?_set] at hj
  split at hj
  · exact Option.some.inj hj ▸ hv
  · exact h j w hj

theorem forall_get?_erase {d : Dict κ ν} {P : ν → Prop} (h : ∀ j w, d.get? j = some w → P w) (k : κ) :
    ∀ j w, (d.erase k).get? j = some w → P w := by
  intro j w hj
  rw [get?_erase] at hj
  split at hj
  · exact absurd hj (by simp)
  · exact h j w hj

theorem get?_mapVals (d : Dict κ ν) (f : ν → μ) (k : κ) :
    (d.mapVals f).get? k = (d.get? k).map f := by
  apply Option.ext
  intro w
  rw [get?_eq_some_iff, Option.map_eq_some_iff]
  simp only [mapVals, List.mem_map, Prod.mk.injEq, Prod.exists]
  constructor
  · rintro ⟨a, b, hab, rfl, rfl⟩
    exact ⟨b, get?_eq_some_iff.mpr hab, rfl⟩
  · rintro ⟨b, hb, rfl⟩
    exact ⟨k, b, get?_eq_some_iff.mp hb, rfl, rfl⟩

theorem get?_filterMapVals (d : Dict κ ν) (f : ν → Option μ) (k : κ) :
    (d.filterMapVals f).get? k = (d.get? k).bind f := by
  apply Option.ext
  intro w
  rw [get?_eq_some_iff, Option.bind_eq_some_iff]
  simp only [filterMapVals, List.mem_filterMap, Option.map_eq_some_iff, Prod.mk.injEq, Prod.exists]
  constructor
  · rintro ⟨a, b, hab, u, hu, rfl, rfl⟩
    exact ⟨b, get?_eq_some_iff.mpr hab, hu⟩
  · rintro ⟨b, hb, hw⟩
    exact ⟨k, b, get?_eq_some_iff.mp hb, w, hw, rfl, rfl⟩

/-- The value the last of `es` stores under `k`, over what `d` holds. -/
theorem get?_foldl_set (es : List (κ × ν)) (hes : (es.map Prod.fst).Nodup) (d : Dict κ ν) (k : κ) :
    (es.foldl (fun d e => d.set e.1 e.2) d).get? k =
      ((es.find? (fun e => e.1 = k)).map Prod.snd).or (d.get? k) := by
  induction es generalizing d with
  | nil => rfl
  | cons e es ih =>
      rw [List.map_cons, List.nodup_cons] at hes
      rw [List.foldl_cons, ih hes.2, get?_set, List.find?_cons]
      by_cases he : e.1 = k
      · have hnone : es.find? (fun x => x.1 = k) = none := by
          refine List.find?_eq_none.mpr (fun x hx => ?_)
          have hmem : x.1 ∈ es.map Prod.fst := List.mem_map.mpr ⟨x, hx, rfl⟩
          simp only [decide_eq_true_eq]
          rintro rfl
          exact hes.1 (he ▸ hmem)
        simp [he, hnone]
      · have hk : ¬ k = e.1 := fun h => he h.symm
        simp [he, hk]

theorem get?_update (d u : Dict κ ν) (k : κ) : (d.update u).get? k = (u.get? k).or (d.get? k) :=
  get?_foldl_set u.entries u.nodup d k

/-! ## Size -/

omit [DecidableEq κ] in
theorem size_filter_le (d : Dict κ ν) (p : κ → ν → Bool) : (d.filter p).size ≤ d.size :=
  List.length_filter_le _ _

theorem size_set (d : Dict κ ν) (k : κ) (v : ν) :
    (d.set k v).size = if k ∈ d.keys then d.size else d.size + 1 := by
  have h := congrArg List.length (map_fst_upsert k v d.entries)
  rw [List.length_map] at h
  show (upsert k v d.entries).length = _
  rw [h]
  unfold keys size
  split <;> simp

/-! ## Totals -/

/-- The sum of `f` over the values. -/
def total {κ ν : Type} (f : ν → Nat) (d : Dict κ ν) : Nat := (d.values.map f).sum

theorem total_entries {κ ν : Type} (f : ν → Nat) (d : Dict κ ν) :
    d.total f = (d.entries.map (fun e => f e.2)).sum := by
  unfold total values
  rw [List.map_map]
  rfl

theorem sum_upsert (f : ν → Nat) (k : κ) (v : ν) (es : List (κ × ν)) :
    ((upsert k v es).map (fun e => f e.2)).sum + (((es.find? (fun e => e.1 = k)).map Prod.snd).map f).getD 0 =
      (es.map (fun e => f e.2)).sum + f v := by
  induction es with
  | nil => simp [upsert]
  | cons e es ih =>
      by_cases he : e.1 = k
      · simp only [upsert, he, if_true, List.map_cons, List.sum_cons, List.find?_cons, decide_true,
          Option.map_some, Option.getD_some]
        omega
      · simp only [upsert, he, if_false, List.map_cons, List.sum_cons, List.find?_cons, decide_false]
        omega

/-- **A new value counts instead of the one it replaces.** -/
theorem total_set (f : ν → Nat) (d : Dict κ ν) (k : κ) (v : ν) :
    (d.set k v).total f + ((d.get? k).map f).getD 0 = d.total f + f v := by
  rw [total_entries, total_entries]
  exact sum_upsert f k v d.entries

omit [DecidableEq κ] in
theorem total_mapVals (f : μ → Nat) (g : ν → μ) (d : Dict κ ν) :
    (d.mapVals g).total f = d.total (fun v => f (g v)) := by
  simp [total, values, mapVals, Function.comp_def]

omit [DecidableEq κ] in
/-- What a filter takes away and what it leaves make up the whole. -/
theorem total_filter (f : ν → Nat) (p : κ → ν → Bool) (d : Dict κ ν) :
    (d.filter p).total f + ((d.entries.filter (fun e => !p e.1 e.2)).map (fun e => f e.2)).sum = d.total f := by
  rw [total_entries, total_entries]
  show ((d.entries.filter _).map _).sum + _ = _
  induction d.entries with
  | nil => rfl
  | cons e es ih =>
      cases hp : p e.1 e.2 with
      | true =>
          rw [List.filter_cons_of_pos (by simpa using hp), List.filter_cons_of_neg (by simpa using hp)]
          simp only [List.map_cons, List.sum_cons] at ih ⊢
          omega
      | false =>
          rw [List.filter_cons_of_neg (by simpa using hp), List.filter_cons_of_pos (by simpa using hp)]
          simp only [List.map_cons, List.sum_cons] at ih ⊢
          omega

omit [DecidableEq κ] in
/-- Fewer entries, all of which count, make a smaller total. -/
theorem total_lt_of_sublist {d d' : Dict κ ν} {f : ν → Nat} (hf : ∀ v ∈ d.values, 1 ≤ f v)
    (h : d'.entries.Sublist d.entries) (hlt : d'.size < d.size) : d'.total f < d.total f := by
  have main : ∀ {xs ys : List ν}, xs.Sublist ys → (∀ v ∈ ys, 1 ≤ f v) → xs.length < ys.length →
      (xs.map f).sum < (ys.map f).sum := by
    intro xs ys hsub
    induction hsub with
    | slnil => exact fun _ hlen => absurd hlen (by simp)
    | cons y hsub ih =>
        intro hpos _
        have hy := hpos y List.mem_cons_self
        have hle := (hsub.map f).sum_le_sum (fun _ _ => Nat.zero_le _)
        rw [List.map_cons, List.sum_cons]
        omega
    | cons_cons y _ ih =>
        intro hpos hlen
        have := ih (fun v hv => hpos v (List.mem_cons_of_mem _ hv)) (by simpa using hlen)
        rw [List.map_cons, List.sum_cons, List.map_cons, List.sum_cons]
        omega
  refine main (h.map Prod.snd) hf ?_
  show (d'.entries.map Prod.snd).length < (d.entries.map Prod.snd).length
  rw [List.length_map, List.length_map]
  exact hlt

end Dict

end Lib
