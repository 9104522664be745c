import Mathlib.Data.List.Sort

/-!
# `Lib.NewestFirst` — the first few of a list by a key, greatest first

A list is put in non-increasing order of a key and cut off after some elements. The order among equal keys is open:
a stable sort keeps the one it finds, a database may answer in any.

## Contents
- **Order** (`NoOlder`, `newestFirst`): the keys of a list in order are determined by its members (`map_key_eq`).
- **Cutting off** (`upTo`, `Top`): what is left out is no newer than what is kept (`Top.exists_rest`).
-/

namespace Lib

variable {α κ : Type} [LinearOrder κ] (key : α → κ)

/-- `b` may come after `a`. -/
def NoOlder (a b : α) : Prop := key b ≤ key a

instance : DecidableRel (NoOlder key) := fun a b => inferInstanceAs (Decidable (key b ≤ key a))

instance : Std.Total (NoOlder key) := ⟨fun a b => le_total (key b) (key a)⟩

instance : IsTrans α (NoOlder key) := ⟨fun _ _ _ hab hbc => le_trans hbc hab⟩

/-- `sorted(l, key=key, reverse=True)`, a stable sort. -/
def newestFirst (l : List α) : List α := l.insertionSort (NoOlder key)

theorem perm_newestFirst (l : List α) : (newestFirst key l).Perm l := List.perm_insertionSort _ l

theorem pairwise_newestFirst (l : List α) : (newestFirst key l).Pairwise (NoOlder key) :=
  List.pairwise_insertionSort _ l

variable {key} {l xs ys rows : List α} {n : Nat}

/-- **The keys of a list in order** depend on its members only. -/
theorem map_key_eq (h : xs.Perm ys) (hxs : xs.Pairwise (NoOlder key)) (hys : ys.Pairwise (NoOlder key)) :
    xs.map key = ys.map key := by
  have hmapx : (xs.map key).Pairwise (· ≥ ·) := List.pairwise_map.mpr hxs
  have hmapy : (ys.map key).Pairwise (· ≥ ·) := List.pairwise_map.mpr hys
  exact (h.map key).eq_of_pairwise' hmapx hmapy

/-- `l[:limit]`. -/
def upTo (limit : Int) (l : List α) : List α :=
  if 0 ≤ limit then l.take limit.toNat else l.take (l.length - limit.natAbs)

theorem upTo_of_nonneg {limit : Int} (h : 0 ≤ limit) (l : List α) : upTo limit l = l.take limit.toNat := if_pos h

variable (key)

/-- The first `n` rows of `l` by the key, with any order among equal ones: `ORDER BY key DESC LIMIT n`. -/
def Top (n : Nat) (l rows : List α) : Prop :=
  ∃ sorted : List α, sorted.Perm l ∧ sorted.Pairwise (NoOlder key) ∧ rows = sorted.take n

theorem top_newestFirst (n : Nat) (l : List α) : Top key n l ((newestFirst key l).take n) :=
  ⟨_, perm_newestFirst key l, pairwise_newestFirst key l, rfl⟩

variable {key}

theorem Top.pairwise (h : Top key n l rows) : rows.Pairwise (NoOlder key) := by
  obtain ⟨sorted, _, hsorted, rfl⟩ := h
  exact hsorted.sublist (List.take_sublist n sorted)

theorem Top.length (h : Top key n l rows) : rows.length = min n l.length := by
  obtain ⟨sorted, hperm, _, rfl⟩ := h
  rw [List.length_take, hperm.length_eq]

/-- **What is left out** is no newer than what is kept, and nothing is left out as long as there is room. -/
theorem Top.exists_rest (h : Top key n l rows) :
    ∃ rest, (rows ++ rest).Perm l ∧ (∀ a ∈ rows, ∀ b ∈ rest, NoOlder key a b) ∧
      rest.Pairwise (NoOlder key) ∧ rows.length ≤ n ∧ (rest ≠ [] → rows.length = n) := by
  obtain ⟨sorted, hperm, hsorted, rfl⟩ := h
  rw [← List.take_append_drop n sorted] at hperm hsorted
  obtain ⟨_, hrest, hcross⟩ := List.pairwise_append.mp hsorted
  refine ⟨sorted.drop n, hperm, hcross, hrest, List.length_take_le n sorted, fun hne => ?_⟩
  rw [List.length_take]
  have hlt : n < sorted.length := by
    by_contra hge
    exact hne (List.drop_eq_nil_of_le (Nat.le_of_not_lt hge))
  omega

end Lib
