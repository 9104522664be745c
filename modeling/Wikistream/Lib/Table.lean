import Wikistream.Lib.Compacted
import Wikistream.Lib.Dict

/-!
# `Lib.Table` — a keyed log read as a table

A record of a keyed log sets its key or removes it, and the last one counts. The table is a function of the newest
records alone, so it does not change when compaction removes others, or a removal that was the last word.

## Contents
- **Tables** (`tableOf`, `get?_tableOf`).
- **Compacted logs** (`Compacted`, `Compacted.bind_value`).
- **Parts** (`partOf`, `newest_partOf`): where a key lives in one part of a log, that part decides.
-/

namespace Lib

variable {ρ κ ν : Type} [DecidableEq κ]

/-! ## Tables -/

section Table

variable (key : ρ → κ) (value : ρ → Option ν)

/-- One record: its key is set, or removed. -/
def applyRecord (t : Dict κ ν) (r : ρ) : Dict κ ν :=
  match value r with
  | some v => t.set (key r) v
  | none => t.erase (key r)

/-- The table after all records. -/
def tableOf (log : List ρ) : Dict κ ν := log.foldl (applyRecord key value) Dict.empty

variable {key value}

theorem get?_applyRecord (t : Dict κ ν) (r : ρ) (k : κ) :
    (applyRecord key value t r).get? k = if key r = k then value r else t.get? k := by
  unfold applyRecord
  cases hv : value r with
  | some v =>
      rw [Dict.get?_set]
      by_cases hk : key r = k
      · rw [if_pos hk.symm, if_pos hk]
      · rw [if_neg (fun h => hk h.symm), if_neg hk]
  | none =>
      rw [Dict.get?_erase]
      by_cases hk : key r = k
      · rw [if_pos hk.symm, if_pos hk]
      · rw [if_neg (fun h => hk h.symm), if_neg hk]

/-- **The last record of a key decides.** -/
theorem get?_tableOf (k : κ) (log : List ρ) : (tableOf key value log).get? k = (newest key k log).bind value := by
  induction log using List.reverseRecOn with
  | nil => rfl
  | append_singleton log r ih =>
      unfold tableOf at ih ⊢
      rw [List.foldl_append, newest_snoc]
      show (applyRecord key value _ r).get? k = _
      rw [get?_applyRecord, ih]
      split
      · rfl
      · rfl

end Table

/-! ## Compacted logs -/

/-- What compaction may leave of a log: of every key the last record, or nothing if the last one is `gone`. -/
structure Compacted (key : ρ → κ) (gone : ρ → Prop) (log kept : List ρ) : Prop where
  sublist : kept.Sublist log
  keeps : ∀ k, newest key k kept = newest key k log ∨
    newest key k kept = none ∧ ∃ r, newest key k log = some r ∧ gone r

variable {key : ρ → κ} {gone : ρ → Prop} {log kept : List ρ}

/-- More records come in. -/
theorem Compacted.append (h : Compacted key gone log kept) (more : List ρ) :
    Compacted key gone (log ++ more) (kept ++ more) where
  sublist := h.sublist.append (List.Sublist.refl more)
  keeps k := by
    rw [newest_append, newest_append]
    cases hmore : newest key k more with
    | some r => exact Or.inl rfl
    | none => exact h.keeps k

/-- One more record is removed. -/
theorem Compacted.eraseIdx {i : Nat} (h : Compacted key gone log kept) (hi : Superseded key kept i) :
    Compacted key gone log (kept.eraseIdx i) where
  sublist := (List.eraseIdx_sublist kept i).trans h.sublist
  keeps k := by
    rw [newest_eraseIdx hi]
    exact h.keeps k

/-- **Compaction does not change the table**, if what is gone was removed. -/
theorem Compacted.bind_value {value : ρ → Option ν} (h : Compacted key gone log kept)
    (hgone : ∀ r ∈ log, gone r → value r = none) (k : κ) :
    (newest key k kept).bind value = (newest key k log).bind value := by
  rcases h.keeps k with hsame | ⟨hnone, r, hr, hr'⟩
  · rw [hsame]
  · rw [hnone, hr]
    exact (hgone r (mem_of_newest hr).1 hr').symm

/-- A key that still has a record has its last one. -/
theorem Compacted.keeps_newest (h : Compacted key gone log kept) {k : κ} (hk : ∃ r ∈ kept, key r = k) :
    newest key k kept = newest key k log := by
  rcases h.keeps k with hsame | ⟨hnone, _⟩
  · exact hsame
  · obtain ⟨r, hr, hkey⟩ := hk
    exact absurd hkey (newest_eq_none_iff.mp hnone r hr)

/-! ## Parts -/

section Parts

variable {π : Type} [DecidableEq π]

/-- The records of part `p` of a log in parts, in order. -/
def partOf (p : π) (feed : List (π × ρ)) : List ρ := (feed.filter (fun x => x.1 = p)).map Prod.snd

theorem mem_partOf {p : π} {feed : List (π × ρ)} {r : ρ} : r ∈ partOf p feed ↔ (p, r) ∈ feed := by
  unfold partOf
  rw [List.mem_map]
  constructor
  · rintro ⟨⟨q, r⟩, hx, rfl⟩
    obtain ⟨hmem, hq⟩ := List.mem_filter.mp hx
    obtain rfl : q = p := of_decide_eq_true hq
    exact hmem
  · intro h
    exact ⟨(p, r), List.mem_filter.mpr ⟨h, decide_eq_true rfl⟩, rfl⟩

/-- **The part a key lives in decides**, however the parts are interleaved. -/
theorem newest_partOf {p : π} {feed : List (π × ρ)} {k : κ} (h : ∀ x ∈ feed, key x.2 = k → x.1 = p) :
    newest key k (partOf p feed) = newest key k (feed.map Prod.snd) := by
  unfold newest partOf
  rw [List.filter_map, List.filter_map, List.filter_filter]
  congr 2
  apply List.filter_congr
  intro x hx
  by_cases hk : key x.2 = k
  · simp [hk, h x hx hk]
  · simp [hk]

end Parts

/-- Two ways to name the same key. -/
theorem newest_congr {κ' : Type} [DecidableEq κ'] {key' : ρ → κ'} {k : κ} {k' : κ'}
    (h : ∀ r ∈ log, key r = k ↔ key' r = k') : newest key k log = newest key' k' log := by
  unfold newest
  congr 1
  apply List.filter_congr
  intro r hr
  simp [h r hr]

end Lib
