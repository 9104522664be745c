import Wikistream.Lib.Dict
import Wikistream.Lib.Log

/-!
# `Common.Topics` — taking and giving up partitions

What the rebalance callbacks of every consumer do first: `take_partitions` and `release_partitions`, in the
cooperative protocol, which hands over only the partitions that move. A consumer is a dictionary from the
partitions it is assigned to its cursors in them.
-/

namespace Wikistream
namespace Topics

open Lib

/-- `take_partitions`: the new partitions start at their committed offsets, or at the beginning. -/
def takePartitions (committed : Dict Nat Nat) (ps : List Nat) (cursors : Dict Nat Cursor) :
    Dict Nat Cursor :=
  ps.foldl (fun c p => c.set p ⟨(committed.get? p).getD 0, none⟩) cursors

/-- `release_partitions`: just these. -/
def releasePartitions (ps : List Nat) (cursors : Dict Nat Cursor) : Dict Nat Cursor :=
  ps.foldl Dict.erase cursors

/-- The cursors after a poll that returned the record at offset `o` of partition `p`. -/
def advance (p o : Nat) (cursors : Dict Nat Cursor) : Dict Nat Cursor :=
  cursors.set p ⟨o + 1, some (o + 1)⟩

/-- `position()` of the assigned partitions, for those that were read from. -/
def positions (cursors : Dict Nat Cursor) : Dict Nat Nat := cursors.filterMapVals Cursor.position

theorem get?_takePartitions (committed : Dict Nat Nat) (ps : List Nat) (cursors : Dict Nat Cursor)
    (p : Nat) : (takePartitions committed ps cursors).get? p =
      if p ∈ ps then some ⟨(committed.get? p).getD 0, none⟩ else cursors.get? p := by
  unfold takePartitions
  induction ps generalizing cursors with
  | nil => simp
  | cons q ps ih =>
      rw [List.foldl_cons, ih, Dict.get?_set]
      by_cases hp : p ∈ ps
      · simp [hp]
      · by_cases hq : p = q
        · simp [hq]
        · simp [hp, hq]

theorem get?_releasePartitions (ps : List Nat) (cursors : Dict Nat Cursor) (p : Nat) :
    (releasePartitions ps cursors).get? p = if p ∈ ps then none else cursors.get? p :=
  Dict.get?_foldl_erase _ _ _

section Cursors

variable {committed : Dict Nat Nat} {ps : List Nat} {cursors : Dict Nat Cursor} {p : Nat} {cur : Cursor}

/-- A cursor that is new starts at the committed offset and has no position yet. -/
theorem takePartitions_cases (h : (takePartitions committed ps cursors).get? p = some cur) :
    cur = ⟨(committed.get? p).getD 0, none⟩ ∨ cursors.get? p = some cur := by
  rw [get?_takePartitions] at h
  split at h
  · exact Or.inl (Option.some.inj h).symm
  · exact Or.inr h

/-- A cursor with a position was there before. -/
theorem get?_of_position {q : Nat} (h : (takePartitions committed ps cursors).get? p = some cur)
    (hq : cur.position = some q) : cursors.get? p = some cur := by
  rcases takePartitions_cases h with rfl | hcur
  · exact absurd hq (by simp)
  · exact hcur

theorem get?_of_releasePartitions (h : (releasePartitions ps cursors).get? p = some cur) :
    p ∉ ps ∧ cursors.get? p = some cur := by
  rw [get?_releasePartitions] at h
  split at h
  · exact absurd h (by simp)
  · next hp => exact ⟨hp, h⟩

end Cursors

theorem get?_advance (p o : Nat) (cursors : Dict Nat Cursor) (q : Nat) :
    (advance p o cursors).get? q = if q = p then some ⟨o + 1, some (o + 1)⟩ else cursors.get? q :=
  Dict.get?_set _ _ _ _

theorem get?_positions (cursors : Dict Nat Cursor) (p : Nat) :
    (positions cursors).get? p = (cursors.get? p).bind Cursor.position := Dict.get?_filterMapVals _ _ _

end Topics
end Wikistream
