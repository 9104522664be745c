import Mathlib.Algebra.Order.Ring.Int
import Mathlib.Data.List.Induction
import Mathlib.Tactic.Common

/-!
# `Lib.Compacted` — logs with a key, and what their compaction keeps

A log lists records with a key, oldest first. Compaction may remove a record once a newer one of its key is
there, so it never changes which record of a key is the newest.

## Contents
- **The newest record of a key** (`newest`, `newest_snoc`).
- **Compaction** (`Superseded`, `newest_eraseIdx`).
- **The greatest by a measure** (`greatest`): the last of the elements with the greatest measure, found in
  one pass, and what that means (`greatest_eq_some_iff`, `greatest_eq_none_iff`).
-/

namespace Lib

/-! ## The newest record of a key -/

section Newest

variable {ρ κ : Type} [DecidableEq κ] (key : ρ → κ)

/-- The last record of the key `k`. -/
def newest (k : κ) (log : List ρ) : Option ρ := (log.filter (fun r => key r = k)).getLast?

variable {key}

theorem newest_snoc (k : κ) (log : List ρ) (r : ρ) :
    newest key k (log ++ [r]) = if key r = k then some r else newest key k log := by
  unfold newest
  by_cases h : key r = k
  · rw [List.filter_append, List.filter_cons_of_pos (by simpa using h), if_pos h]
    simp
  · rw [List.filter_append, List.filter_cons_of_neg (by simpa using h), if_neg h]
    simp

theorem newest_append (k : κ) (log more : List ρ) :
    newest key k (log ++ more) = (newest key k more).or (newest key k log) := by
  unfold newest
  rw [List.filter_append, List.getLast?_append]

theorem newest_eq_none_iff {k : κ} {log : List ρ} : newest key k log = none ↔ ∀ r ∈ log, key r ≠ k := by
  unfold newest
  rw [List.getLast?_eq_none_iff, List.filter_eq_nil_iff]
  simp

theorem mem_of_newest {k : κ} {log : List ρ} {r : ρ} (h : newest key k log = some r) : r ∈ log ∧ key r = k := by
  have hmem := List.mem_of_getLast? h
  rw [List.mem_filter] at hmem
  exact ⟨hmem.1, by simpa using hmem.2⟩

/-! ## Compaction -/

variable (key)

/-- There is a newer record of its key than the one at `i`. -/
def Superseded (log : List ρ) (i : Nat) : Prop := ∃ r ∈ log[i]?, ∃ r' ∈ log.drop (i + 1), key r' = key r

instance (log : List ρ) (i : Nat) : Decidable (Superseded key log i) :=
  match h : log[i]? with
  | none => isFalse (fun ⟨r, hr, _⟩ => by simp [h] at hr)
  | some r =>
      decidable_of_iff (∃ r' ∈ log.drop (i + 1), key r' = key r)
        ⟨fun hr' => ⟨r, h, hr'⟩, fun ⟨x, hx, hr'⟩ => by
          obtain rfl := Option.some.inj (h.symm.trans hx)
          exact hr'⟩

variable {key}

omit [DecidableEq κ] in
/-- A record that is superseded stays so when more follow, and when keys are identified. -/
theorem Superseded.append {κ' : Type} {log : List ρ} {i : Nat} (h : Superseded key log i) (f : κ → κ')
    (more : List ρ) : Superseded (fun r => f (key r)) (log ++ more) i := by
  obtain ⟨r, hr, r', hr', hkey⟩ := h
  obtain ⟨hi, hget⟩ := List.getElem?_eq_some_iff.mp hr
  refine ⟨r, ?_, r', ?_, congrArg f hkey⟩
  · rw [List.getElem?_append_left hi]
    exact hr
  · rw [List.drop_append_of_le_length hi]
    exact List.mem_append_left _ hr'

/-- **Compaction keeps the newest record of every key.** -/
theorem newest_eraseIdx {log : List ρ} {i : Nat} (h : Superseded key log i) (k : κ) :
    newest key k (log.eraseIdx i) = newest key k log := by
  obtain ⟨r, hr, r', hr', hkey⟩ := h
  have hsplit : log = log.take i ++ r :: log.drop (i + 1) := by
    obtain ⟨hi, rfl⟩ := List.getElem?_eq_some_iff.mp hr
    rw [List.getElem_cons_drop, List.take_append_drop]
  have herase : log.eraseIdx i = log.take i ++ log.drop (i + 1) := List.eraseIdx_eq_take_drop_succ log i
  unfold newest
  rw [herase]
  conv_rhs => rw [hsplit]
  rw [List.filter_append, List.filter_append]
  by_cases hk : key r = k
  · -- the newer record is in the rest, so the rest decides
    have hmem : r' ∈ (log.drop (i + 1)).filter (fun x => key x = k) :=
      List.mem_filter.mpr ⟨hr', by simpa using hkey.trans hk⟩
    obtain ⟨rest, last, hrest⟩ := (List.eq_nil_or_concat _).resolve_left (List.ne_nil_of_mem hmem)
    rw [List.filter_cons_of_pos (by simpa using hk), hrest, List.concat_eq_append, ← List.append_assoc,
      ← List.cons_append, ← List.append_assoc, List.getLast?_concat, List.getLast?_concat]
  · rw [List.filter_cons_of_neg (by simpa using hk)]

end Newest

/-! ## The greatest by a measure -/

section Greatest

variable {α : Type} (measure : α → Int)

/-- One more element: it wins unless the best so far is greater. -/
def better (best : Option α) (x : α) : Option α :=
  match best with
  | none => some x
  | some y => if measure y ≤ measure x then some x else some y

/-- The last of the elements with the greatest measure. -/
def greatest (xs : List α) : Option α := xs.foldl (better measure) none

variable {measure}

theorem greatest_snoc (xs : List α) (x : α) :
    greatest measure (xs ++ [x]) = better measure (greatest measure xs) x := by
  unfold greatest
  rw [List.foldl_append]
  rfl

theorem greatest_eq_none_iff {xs : List α} : greatest measure xs = none ↔ xs = [] := by
  induction xs using List.reverseRecOn with
  | nil => exact iff_of_true rfl rfl
  | append_singleton xs x ih =>
      rw [greatest_snoc]
      refine iff_of_false ?_ (by simp)
      unfold better
      split
      · simp
      · split <;> simp

/-- **What the pass finds**: no element before it is greater, and every element after it is less. -/
theorem greatest_eq_some_iff {xs : List α} {x : α} :
    greatest measure xs = some x ↔
      ∃ before after, xs = before ++ x :: after ∧ (∀ y ∈ before, measure y ≤ measure x) ∧
        ∀ y ∈ after, measure y < measure x := by
  induction xs using List.reverseRecOn generalizing x with
  | nil => exact iff_of_false (by simp [greatest]) (by simp)
  | append_singleton xs z ih =>
      rw [greatest_snoc]
      constructor
      · intro h
        unfold better at h
        split at h
        · next hnone =>
            obtain rfl := Option.some.inj h
            obtain rfl := greatest_eq_none_iff.mp hnone
            exact ⟨[], [], rfl, by simp, by simp⟩
        · next y hy =>
            obtain ⟨before, after, rfl, hbefore, hafter⟩ := ih.mp hy
            split at h
            -- it wins: all that was before is behind it now
            · next hle =>
                obtain rfl := Option.some.inj h
                refine ⟨before ++ y :: after, [], rfl, ?_, by simp⟩
                intro w hw
                rcases List.mem_append.mp hw with hw | hw
                · exact (hbefore w hw).trans hle
                · rcases List.mem_cons.mp hw with rfl | hw
                  · exact hle
                  · exact (hafter w hw).le.trans hle
            -- it loses: it joins those that are less
            · next hlt =>
                obtain rfl := Option.some.inj h
                refine ⟨before, after ++ [z], by simp, hbefore, ?_⟩
                intro w hw
                rcases List.mem_append.mp hw with hw | hw
                · exact hafter w hw
                · obtain rfl := List.mem_singleton.mp hw
                  exact not_le.mp hlt
      · rintro ⟨before, after, heq, hbefore, hafter⟩
        induction after using List.reverseRecOn with
        | nil =>
            -- the last element itself
            obtain ⟨rfl, hz⟩ := List.append_inj' heq rfl
            obtain rfl := List.singleton_inj.mp hz
            unfold better
            split
            · rfl
            · next y hy =>
                obtain ⟨before', after', rfl, _, _⟩ := ih.mp hy
                rw [if_pos (hbefore y (by simp))]
        | append_singleton after z' _ =>
            -- an element further back, with at least one behind it that is less
            have heq' : xs ++ [z] = (before ++ x :: after) ++ [z'] := by rw [heq]; simp
            obtain ⟨rfl, hz⟩ := List.append_inj' heq' rfl
            obtain rfl := List.singleton_inj.mp hz
            have hx : greatest measure (before ++ x :: after) = some x :=
              ih.mpr ⟨before, after, rfl, hbefore, fun y hy => hafter y (List.mem_append_left _ hy)⟩
            have hz : measure z < measure x := hafter z (by simp)
            rw [hx]
            unfold better
            dsimp only
            rw [if_neg (not_le.mpr hz)]

theorem le_greatest {xs : List α} {x : α} (h : greatest measure xs = some x) :
    x ∈ xs ∧ ∀ y ∈ xs, measure y ≤ measure x := by
  obtain ⟨before, after, rfl, hbefore, hafter⟩ := greatest_eq_some_iff.mp h
  refine ⟨by simp, ?_⟩
  intro y hy
  rcases List.mem_append.mp hy with hy | hy
  · exact hbefore y hy
  · rcases List.mem_cons.mp hy with rfl | hy
    · exact le_refl _
    · exact (hafter y hy).le

end Greatest

end Lib
