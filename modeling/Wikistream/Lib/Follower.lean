import Mathlib.Data.List.TakeDrop
import Wikistream.Lib.Table

/-!
# `Lib.Follower` — a table that is read while its log grows and is compacted

A reader goes through what compaction has left of a log, and keeps of every key what the last record it read says. The
log grows meanwhile, and compaction removes records before and behind the reader. What the reader shows for a key is
what the log said about it at some moment, and what it says now if the reader has nothing of the key left to read.

## Contents
- **The invariant** (`Follows`), for one key: `lo` is a length of the log that what is shown is not older than.
- **What keeps it**: a fresh start (`follows_init`), a record read (`Follows.read`, `Follows.skip`), records appended
  (`Follows.append`) and removed (`Follows.eraseIdx`).
- **At the end of the log** (`Follows.atEnd`) what is shown is up to date, and from then on not older.
-/

namespace Lib

variable {ρ κ ν : Type} [DecidableEq κ]

/-- The reader has read `n` of the records `kept` of `log`, and shows `shown` for the key `k`. -/
structure Follows (key : ρ → κ) (value : ρ → Option ν) (log kept : List ρ) (n lo : Nat) (k : κ) (shown : Option ν) :
    Prop where
  /-- What is left to read came after the first `lo` records of the log. -/
  ahead : (kept.drop n).Sublist (log.drop lo)
  /-- What is shown is what some prefix of the log says. -/
  dated : ∃ j, lo ≤ j ∧ j ≤ log.length ∧ shown = (newest key k (log.take j)).bind value
  /-- With nothing of the key left to read, the prefix is the whole log. -/
  current : newest key k (kept.drop n) = none → shown = (newest key k log).bind value

variable {key : ρ → κ} {value : ρ → Option ν} {log kept : List ρ} {n lo i : Nat} {k : κ} {shown : Option ν} {r : ρ}

/-- A reader that has read nothing and shows nothing. -/
theorem follows_init (hkept : Compacted key (fun _ => False) log kept) (k : κ) :
    Follows key value log kept 0 0 k none where
  ahead := hkept.sublist
  dated := ⟨0, le_refl _, Nat.zero_le _, rfl⟩
  current hnone := by
    rcases hkept.keeps k with hsame | ⟨_, _, _, hfalse⟩
    · rw [List.drop_zero] at hnone
      rw [← hsame, hnone]
      rfl
    · exact hfalse.elim

/-- A record of another key. -/
theorem Follows.skip (h : Follows key value log kept n lo k shown) (hr : kept[n]? = some r) (hkey : key r ≠ k) :
    Follows key value log kept (n + 1) lo k shown := by
  obtain ⟨hn, hget⟩ := List.getElem?_eq_some_iff.mp hr
  have hdrop : kept.drop n = r :: kept.drop (n + 1) := by rw [List.drop_eq_getElem_cons hn, hget]
  refine ⟨?_, h.dated, fun hnone => h.current ?_⟩
  · have hahead := h.ahead
    rw [hdrop] at hahead
    exact (List.sublist_cons_self _ _).trans hahead
  · rw [hdrop]
    rw [newest_eq_none_iff] at hnone ⊢
    intro x hx
    rcases List.mem_cons.mp hx with rfl | hx
    · exact hkey
    · exact hnone x hx

/-- **A record of the key**: what it says is shown. -/
theorem Follows.read (hkept : Compacted key (fun _ => False) log kept) (h : Follows key value log kept n lo k shown)
    (hr : kept[n]? = some r) (hkey : key r = k) : Follows key value log kept (n + 1) lo k (value r) := by
  obtain ⟨hn, hget⟩ := List.getElem?_eq_some_iff.mp hr
  have hdrop : kept.drop n = r :: kept.drop (n + 1) := by rw [List.drop_eq_getElem_cons hn, hget]
  have hahead := h.ahead
  rw [hdrop] at hahead
  refine ⟨(List.sublist_cons_self _ _).trans hahead, ?_, fun hnone => ?_⟩
  · -- the record is one of those after the first `lo`
    obtain ⟨i, hi, hri⟩ := List.getElem_of_mem (hahead.subset List.mem_cons_self)
    rw [List.length_drop] at hi
    rw [List.getElem_drop] at hri
    refine ⟨lo + i + 1, by omega, by omega, ?_⟩
    rw [List.take_add_one, List.getElem?_eq_getElem (by omega), hri, Option.toList_some, newest_snoc, if_pos hkey]
    rfl
  · rcases hkept.keeps k with hsame | ⟨_, _, _, hfalse⟩
    · rw [← hsame, ← List.take_append_drop n kept, hdrop, newest_append, ← List.singleton_append, newest_append, hnone]
      have hone : newest key k [r] = some r := by
        rw [← List.nil_append [r], newest_snoc, if_pos hkey]
      rw [hone]
      rfl
    · exact hfalse.elim

/-- More records come in. -/
theorem Follows.append (h : Follows key value log kept n lo k shown) (hn : n ≤ kept.length) (hlo : lo ≤ log.length)
    (more : List ρ) : Follows key value (log ++ more) (kept ++ more) n lo k shown where
  ahead := by
    rw [List.drop_append_of_le_length hn, List.drop_append_of_le_length hlo]
    exact h.ahead.append (List.Sublist.refl more)
  dated := by
    obtain ⟨j, hj, hlen, hshown⟩ := h.dated
    refine ⟨j, hj, ?_, ?_⟩
    · rw [List.length_append]
      omega
    · rw [List.take_append_of_le_length hlen, hshown]
  current hnone := by
    rw [List.drop_append_of_le_length hn, newest_append, Option.or_eq_none_iff] at hnone
    rw [newest_append, hnone.1, h.current hnone.2]
    rfl

/-- **Compaction removes a record**, behind the reader or before it. -/
theorem Follows.eraseIdx (h : Follows key value log kept n lo k shown) (hi : Superseded key kept i) :
    Follows key value log (kept.eraseIdx i) (if i < n then n - 1 else n) lo k shown := by
  split
  · next hin =>
      have hdrop : (kept.eraseIdx i).drop (n - 1) = kept.drop n := by
        apply List.ext_getElem?
        intro x
        rw [List.getElem?_drop, List.getElem?_drop, List.getElem?_eraseIdx, if_neg (by omega)]
        congr 1
        omega
      exact ⟨hdrop ▸ h.ahead, h.dated, hdrop ▸ h.current⟩
  · next hin =>
      have hdrop : (kept.eraseIdx i).drop n = (kept.drop n).eraseIdx (i - n) := by
        apply List.ext_getElem?
        intro x
        rw [List.getElem?_drop, List.getElem?_eraseIdx, List.getElem?_eraseIdx, List.getElem?_drop, List.getElem?_drop]
        by_cases hx : x < i - n
        · rw [if_pos (by omega), if_pos hx]
        · rw [if_neg (by omega), if_neg hx, Nat.add_assoc]
      have hsuperseded : Superseded key (kept.drop n) (i - n) := by
        obtain ⟨x, hx, y, hy, hkey⟩ := hi
        refine ⟨x, ?_, y, ?_, hkey⟩
        · rw [List.getElem?_drop, Nat.add_sub_cancel' (Nat.not_lt.mp hin)]
          exact hx
        · rw [List.drop_drop]
          have hsame : n + (i - n + 1) = i + 1 := by omega
          rw [hsame]
          exact hy
      refine ⟨?_, h.dated, fun hnone => h.current ?_⟩
      · rw [hdrop]
        exact (List.eraseIdx_sublist _ _).trans h.ahead
      · rw [hdrop, newest_eraseIdx hsuperseded] at hnone
        exact hnone

/-- **At the end of the log** what is shown is what the log says, and it will not get older. -/
theorem Follows.atEnd (h : Follows key value log kept n lo k shown) (hn : kept.length ≤ n) :
    shown = (newest key k log).bind value ∧ Follows key value log kept n log.length k shown := by
  have hdrop : kept.drop n = [] := List.drop_of_length_le hn
  have hshown : shown = (newest key k log).bind value := by
    apply h.current
    rw [hdrop]
    rfl
  refine ⟨hshown, ?_, ⟨log.length, le_refl _, le_refl _, ?_⟩, h.current⟩
  · rw [hdrop]
    exact List.nil_sublist _
  · rw [List.take_length]
    exact hshown

end Lib
