import Mathlib.Data.List.TakeWhile
import Mathlib.Tactic.Common

/-!
# `Lib.Prefix` — the longest prefix whose items are done

A queue whose items are done in any order and leave it in theirs: what has left is the longest prefix of done items
(`takeWhile`), and what waits is the rest (`dropWhile`). When more items get done, the prefix grows by the longest
done prefix of what waited.
-/

namespace Lib.Prefix

variable {α : Type} {p q : α → Bool} {l : List α}

theorem takeWhile_congr (h : ∀ x ∈ l, p x = q x) : l.takeWhile p = l.takeWhile q := by
  induction l with
  | nil => rfl
  | cons x l ih =>
      rw [List.takeWhile_cons, List.takeWhile_cons, h x List.mem_cons_self,
        ih (fun y hy => h y (List.mem_cons_of_mem _ hy))]

theorem dropWhile_congr (h : ∀ x ∈ l, p x = q x) : l.dropWhile p = l.dropWhile q := by
  induction l with
  | nil => rfl
  | cons x l ih =>
      rw [List.dropWhile_cons, List.dropWhile_cons, h x List.mem_cons_self,
        ih (fun y hy => h y (List.mem_cons_of_mem _ hy))]

/-- When more is done, less waits. -/
theorem dropWhile_dropWhile (h : ∀ x ∈ l, p x = true → q x = true) : (l.dropWhile p).dropWhile q = l.dropWhile q := by
  induction l with
  | nil => rfl
  | cons x l ih =>
      by_cases hp : p x = true
      · rw [List.dropWhile_cons_of_pos hp, List.dropWhile_cons_of_pos (h x List.mem_cons_self hp)]
        exact ih (fun y hy => h y (List.mem_cons_of_mem _ hy))
      · rw [List.dropWhile_cons_of_neg hp]

/-- The prefix grows by what is done of the rest. -/
theorem takeWhile_append_takeWhile (h : ∀ x ∈ l, p x = true → q x = true) :
    l.takeWhile p ++ (l.dropWhile p).takeWhile q = l.takeWhile q := by
  induction l with
  | nil => rfl
  | cons x l ih =>
      by_cases hp : p x = true
      · rw [List.takeWhile_cons_of_pos hp, List.dropWhile_cons_of_pos hp,
          List.takeWhile_cons_of_pos (h x List.mem_cons_self hp), List.cons_append]
        exact congrArg _ (ih (fun y hy => h y (List.mem_cons_of_mem _ hy)))
      · rw [List.takeWhile_cons_of_neg hp, List.dropWhile_cons_of_neg hp]
        rfl

/-- An item that is not done waits at the end, whatever is in front of it. -/
theorem dropWhile_snoc {x : α} (hx : p x = false) : (l ++ [x]).dropWhile p = l.dropWhile p ++ [x] := by
  induction l with
  | nil => simp [hx]
  | cons y l ih =>
      by_cases hy : p y = true
      · rw [List.cons_append, List.dropWhile_cons_of_pos hy, List.dropWhile_cons_of_pos hy]
        exact ih
      · rw [List.cons_append, List.dropWhile_cons_of_neg hy, List.dropWhile_cons_of_neg hy]
        rfl

theorem takeWhile_snoc {x : α} (hx : p x = false) : (l ++ [x]).takeWhile p = l.takeWhile p := by
  induction l with
  | nil => simp [hx]
  | cons y l ih =>
      by_cases hy : p y = true
      · rw [List.cons_append, List.takeWhile_cons_of_pos hy, List.takeWhile_cons_of_pos hy, ih]
      · rw [List.cons_append, List.takeWhile_cons_of_neg hy, List.takeWhile_cons_of_neg hy]

end Lib.Prefix
