import Mathlib.Algebra.Order.Ring.Int
import Mathlib.Data.List.Dedup
import Wikistream.Lib.Dict

/-!
# `Lib.Groups` — sums by a key

A list is split by a key, and each part is summed. The sums of some of the parts add up to the sum of what is in them.

## Contents
- **The sum of a part** (`groupSum`).
- **Adding up** (`sum_groupSum`): over keys that are all different. With every key of the list it is the sum of the list
  (`sum_groupSum_dedup`).
- **Counting**: parts of ones (`groupSum_one`), none of which is empty (`groupSum_one_pos`).
- **Dictionaries** (`sum_filter_le`): a dictionary whose values only grew.
-/

namespace Lib

variable {α κ : Type} [DecidableEq κ] (g : α → κ) (v : α → Int)

/-- The sum over the elements with key `k`. -/
def groupSum (l : List α) (k : κ) : Int := ((l.filter (fun a => g a = k)).map v).sum

variable {g v} {l : List α} {ks : List κ}

theorem groupSum_cons (a : α) (l : List α) (k : κ) :
    groupSum g v (a :: l) k = (if g a = k then v a else 0) + groupSum g v l k := by
  unfold groupSum
  by_cases hk : g a = k
  · rw [List.filter_cons_of_pos (by simpa using hk), List.map_cons, List.sum_cons, if_pos hk]
  · rw [List.filter_cons_of_neg (by simpa using hk), if_neg hk, Int.zero_add]

/-- A value counted under one of several different keys. -/
theorem sum_single (hks : ks.Nodup) (k : κ) (x : Int) :
    (ks.map (fun j => if k = j then x else 0)).sum = if k ∈ ks then x else 0 := by
  induction ks with
  | nil => rfl
  | cons j ks ih =>
      obtain ⟨hj, hks⟩ := List.nodup_cons.mp hks
      rw [List.map_cons, List.sum_cons, ih hks]
      by_cases hk : k = j
      · subst hk
        rw [if_pos rfl, if_neg hj, if_pos List.mem_cons_self, Int.add_zero]
      · simp only [hk, if_false, List.mem_cons, false_or, Int.zero_add]

/-- **The parts add up** to what is in them. -/
theorem sum_groupSum (hks : ks.Nodup) (l : List α) :
    (ks.map (groupSum g v l)).sum = ((l.filter (fun a => g a ∈ ks)).map v).sum := by
  induction l with
  | nil =>
      have hzero : ∀ ks : List κ, (ks.map (groupSum g v [])).sum = 0 := by
        intro ks
        induction ks with
        | nil => rfl
        | cons k ks ih =>
            rw [List.map_cons, List.sum_cons, ih]
            rfl
      exact hzero ks
  | cons a l ih =>
      have hsplit : ks.map (groupSum g v (a :: l)) =
          ks.map (fun k => (if g a = k then v a else 0) + groupSum g v l k) :=
        List.map_congr_left (fun k _ => groupSum_cons a l k)
      rw [hsplit, List.sum_map_add, ih, sum_single hks]
      by_cases ha : g a ∈ ks
      · rw [if_pos ha, List.filter_cons_of_pos (by simpa using ha), List.map_cons, List.sum_cons]
      · rw [if_neg ha, List.filter_cons_of_neg (by simpa using ha), Int.zero_add]

theorem sum_groupSum_dedup (l : List α) : ((l.map g).dedup.map (groupSum g v l)).sum = (l.map v).sum := by
  rw [sum_groupSum (List.nodup_dedup _), List.filter_eq_self.mpr]
  intro a ha
  simpa using ⟨a, ha, rfl⟩

/-! ## Counting -/

theorem groupSum_one (l : List α) (k : κ) : groupSum g (fun _ => 1) l k = l.countP (fun a => g a = k) := by
  unfold groupSum
  rw [List.countP_eq_length_filter]
  simp

theorem groupSum_one_pos {k : κ} (hk : k ∈ l.map g) : 0 < groupSum g (fun _ => 1) l k := by
  obtain ⟨a, ha, rfl⟩ := List.mem_map.mp hk
  rw [groupSum_one]
  have hpos : 0 < l.countP (fun b => decide (g b = g a)) := List.countP_pos_iff.mpr ⟨a, ha, by simp⟩
  omega

/-! ## Parts of a sum -/

/-- A part of a sum of counts is no greater. -/
theorem sum_filter_le_sum (hv : ∀ a ∈ l, 0 ≤ v a) (p : α → Bool) : ((l.filter p).map v).sum ≤ (l.map v).sum := by
  induction l with
  | nil => exact Int.le_refl 0
  | cons a l ih =>
      have ha := hv a List.mem_cons_self
      have hl := ih (fun b hb => hv b (List.mem_cons_of_mem _ hb))
      rw [List.filter_cons]
      split
      · rw [List.map_cons, List.map_cons, List.sum_cons, List.sum_cons]
        omega
      · rw [List.map_cons, List.sum_cons]
        omega

/-! ## Dictionaries -/

/-- The value under a key is the sum of the entries with the key. -/
theorem groupSum_entries (d : Dict κ Int) (k : κ) : groupSum Prod.fst Prod.snd d.entries k = (d.get? k).getD 0 := by
  have hpart : ∀ es : List (κ × Int), (es.map Prod.fst).Nodup →
      groupSum Prod.fst Prod.snd es k = ((es.find? (fun e => e.1 = k)).map Prod.snd).getD 0 := by
    intro es hes
    induction es with
    | nil => rfl
    | cons e es ih =>
        obtain ⟨he, hes⟩ := List.nodup_cons.mp hes
        rw [groupSum_cons, List.find?_cons]
        by_cases hk : e.1 = k
        · -- the key does not come again
          have hnone : es.filter (fun d => d.1 = k) = [] := by
            refine List.filter_eq_nil_iff.mpr (fun d hd => ?_)
            simp only [decide_eq_true_eq]
            exact fun hdk => he (hk ▸ hdk ▸ List.mem_map.mpr ⟨d, hd, rfl⟩)
          unfold groupSum
          rw [hnone, if_pos hk]
          simp [hk]
        · rw [ih hes]
          simp [hk]
  exact hpart d.entries d.nodup

/-- **A dictionary whose values only grew** sums to no less over any keys. -/
theorem sum_filter_le {d d' : Dict κ Int} (hgrow : ∀ k x, d.get? k = some x → ∃ y, d'.get? k = some y ∧ x ≤ y)
    (hnonneg : ∀ k y, d'.get? k = some y → 0 ≤ y) (p : κ → Bool) :
    ((d.entries.filter (fun e => p e.1)).map Prod.snd).sum ≤
      ((d'.entries.filter (fun e => p e.1)).map Prod.snd).sum := by
  have hnodup : ((d.entries.filter (fun e => p e.1)).map Prod.fst).Nodup :=
    (List.filter_sublist.map Prod.fst).nodup d.nodup
  have hle : ∀ e ∈ d.entries.filter (fun e => p e.1),
      e.2 ≤ groupSum Prod.fst Prod.snd (d'.entries.filter (fun e => p e.1)) e.1 := by
    intro e he
    obtain ⟨hmem, hp⟩ := List.mem_filter.mp he
    obtain ⟨y, hy, hxy⟩ := hgrow e.1 e.2 (Dict.mem_entries_iff.mp hmem)
    have hsame : groupSum Prod.fst Prod.snd (d'.entries.filter (fun e => p e.1)) e.1 =
        groupSum Prod.fst Prod.snd d'.entries e.1 := by
      unfold groupSum
      rw [List.filter_filter]
      refine congrArg (fun l : List (κ × Int) => (l.map Prod.snd).sum) (List.filter_congr (fun a _ => ?_))
      by_cases ha : a.1 = e.1
      · simp [ha, hp]
      · simp [ha]
    rw [hsame, groupSum_entries, hy]
    exact hxy
  calc ((d.entries.filter (fun e => p e.1)).map Prod.snd).sum
      ≤ ((d.entries.filter (fun e => p e.1)).map
          (fun e => groupSum Prod.fst Prod.snd (d'.entries.filter (fun e => p e.1)) e.1)).sum := List.sum_le_sum hle
    _ = (((d.entries.filter (fun e => p e.1)).map Prod.fst).map
          (groupSum Prod.fst Prod.snd (d'.entries.filter (fun e => p e.1)))).sum := by
        rw [List.map_map]
        rfl
    _ ≤ ((d'.entries.filter (fun e => p e.1)).map Prod.snd).sum := by
        rw [sum_groupSum hnodup]
        refine sum_filter_le_sum (fun e he => ?_) _
        exact hnonneg e.1 e.2 (Dict.mem_entries_iff.mp (List.mem_of_mem_filter he))

end Lib
