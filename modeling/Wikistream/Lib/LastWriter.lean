import Mathlib.Data.List.Forall2
import Wikistream.Lib.Compacted

/-!
# `Lib.LastWriter` — the last writer wins, in any order of arrival

Elements with a key and a measure come in, in any order. One is written unless an element of its key is there
that is greater. The newest that was written is then the greatest that came in, key by key.

## Contents
- **What is written** (`keepNewer`, `keptOf`), one more element at a time (`keptOf_snoc_of_le`, `keptOf_snoc_of_lt`).
- **The newest is the greatest** (`newest_keptOf`).
- **Logs element by element** (`newest_forall₂`): the newest records of two logs that correspond do.
-/

namespace Lib

variable {α κ : Type} [DecidableEq κ]

/-! ## What is written -/

section Kept

variable (key : α → κ) (measure : α → Int)

/-- The greatest of the elements with the key `k`, the last of them. -/
def greatestOf (k : κ) (xs : List α) : Option α := greatest measure (xs.filter (fun x => key x = k))

/-- One more element: it is written unless a greater one of its key is there. -/
def keepNewer (kept : List α) (x : α) : List α :=
  match newest key (key x) kept with
  | none => kept ++ [x]
  | some y => if measure x < measure y then kept else kept ++ [x]

/-- What is written of `xs`. -/
def keptOf (xs : List α) : List α := xs.foldl (keepNewer key measure) []

variable {key measure} {k : κ} {xs : List α} {x : α}

theorem greatestOf_snoc : greatestOf key measure k (xs ++ [x]) =
    if key x = k then better measure (greatestOf key measure k xs) x else greatestOf key measure k xs := by
  unfold greatestOf
  by_cases h : key x = k
  · rw [List.filter_append, List.filter_cons_of_pos (by simpa using h), List.filter_nil, greatest_snoc, if_pos h]
  · rw [List.filter_append, List.filter_cons_of_neg (by simpa using h), List.filter_nil, List.append_nil, if_neg h]

theorem mem_of_greatestOf (h : greatestOf key measure k xs = some x) : x ∈ xs ∧ key x = k := by
  have hmem := (le_greatest h).1
  rw [List.mem_filter] at hmem
  exact ⟨hmem.1, by simpa using hmem.2⟩

theorem le_greatestOf (h : greatestOf key measure k xs = some x) {y : α} (hy : y ∈ xs) (hkey : key y = k) :
    measure y ≤ measure x :=
  (le_greatest h).2 y (List.mem_filter.mpr ⟨hy, by simpa using hkey⟩)

theorem greatestOf_eq_none_iff : greatestOf key measure k xs = none ↔ ∀ x ∈ xs, key x ≠ k := by
  unfold greatestOf
  rw [greatest_eq_none_iff, List.filter_eq_nil_iff]
  simp

theorem keptOf_snoc (xs : List α) (x : α) :
    keptOf key measure (xs ++ [x]) = keepNewer key measure (keptOf key measure xs) x := by
  unfold keptOf
  rw [List.foldl_append]
  rfl

theorem mem_keepNewer {kept : List α} {y : α} (h : y ∈ keepNewer key measure kept x) : y ∈ kept ∨ y = x := by
  unfold keepNewer at h
  split at h
  · simpa using h
  · split at h
    · exact Or.inl h
    · simpa using h

theorem mem_of_mem_keptOf {y : α} (h : y ∈ keptOf key measure xs) : y ∈ xs := by
  induction xs using List.reverseRecOn with
  | nil => exact absurd h (by simp [keptOf])
  | append_singleton xs x ih =>
      rw [keptOf_snoc] at h
      rcases mem_keepNewer h with h | rfl
      · exact List.mem_append_left _ (ih h)
      · simp

/-! ## The newest is the greatest -/

/-- **The last writer wins**: the newest that is written is the greatest of its key. -/
theorem newest_keptOf (k : κ) (xs : List α) :
    newest key k (keptOf key measure xs) = greatestOf key measure k xs := by
  induction xs using List.reverseRecOn generalizing k with
  | nil => rfl
  | append_singleton xs x ih =>
      rw [keptOf_snoc, greatestOf_snoc, ← ih k]
      unfold keepNewer better
      split
      · next hnone =>
          rw [newest_snoc]
          by_cases hk : key x = k
          · rw [if_pos hk, if_pos hk, ← hk, hnone]
          · rw [if_neg hk, if_neg hk]
      · next y hy =>
          by_cases hk : key x = k
          · rw [if_pos hk, ← hk, hy]
            dsimp only
            split
            · next hlt => rw [hy, if_neg (not_le.mpr hlt)]
            · next hle => rw [newest_snoc, if_pos rfl, if_pos (not_lt.mp hle)]
          · rw [if_neg hk]
            split
            · rfl
            · rw [newest_snoc, if_neg hk]

/-- An element is written if none of its key is greater. -/
theorem keptOf_snoc_of_le (h : ∀ y, greatestOf key measure (key x) xs = some y → measure y ≤ measure x) :
    keptOf key measure (xs ++ [x]) = keptOf key measure xs ++ [x] := by
  rw [keptOf_snoc]
  unfold keepNewer
  rw [newest_keptOf]
  cases hy : greatestOf key measure (key x) xs with
  | none => rfl
  | some y => exact if_neg (not_lt.mpr (h y hy))

/-- It is not if one is. -/
theorem keptOf_snoc_of_lt {y : α} (hy : greatestOf key measure (key x) xs = some y) (hlt : measure x < measure y) :
    keptOf key measure (xs ++ [x]) = keptOf key measure xs := by
  rw [keptOf_snoc]
  unfold keepNewer
  rw [newest_keptOf, hy]
  exact if_pos hlt

end Kept

/-! ## Logs element by element -/

section Correspondence

variable {β : Type} {key : α → κ} {key' : β → κ} {R : α → β → Prop} {xs : List α} {ys : List β}

theorem newest_cons (k : κ) (x : α) (xs : List α) :
    newest key k (x :: xs) = (newest key k xs).or (if key x = k then some x else none) := by
  rw [← List.singleton_append, newest_append]
  congr 1
  exact newest_snoc k [] x

/-- **The newest records of a key correspond.** -/
theorem newest_forall₂ (h : List.Forall₂ R xs ys) (hkey : ∀ x y, R x y → key x = key' y) (k : κ) :
    Option.Rel R (newest key k xs) (newest key' k ys) := by
  induction h with
  | nil => exact .none
  | @cons x y xs ys hxy hrest ih =>
      rw [newest_cons, newest_cons, hkey x y hxy]
      revert ih
      cases newest key k xs <;> cases newest key' k ys <;> intro ih
      · split
        · exact .some hxy
        · exact .none
      · exact absurd ih (by rintro ⟨⟩)
      · exact absurd ih (by rintro ⟨⟩)
      · exact ih

theorem forall₂_mem_right (h : List.Forall₂ R xs ys) {y : β} (hy : y ∈ ys) : ∃ x ∈ xs, R x y := by
  induction h with
  | nil => exact absurd hy (by simp)
  | @cons x z xs ys hxz hrest ih =>
      rcases List.mem_cons.mp hy with rfl | hy
      · exact ⟨x, List.mem_cons_self, hxz⟩
      · obtain ⟨w, hw, hwy⟩ := ih hy
        exact ⟨w, List.mem_cons_of_mem _ hw, hwy⟩

end Correspondence

end Lib
