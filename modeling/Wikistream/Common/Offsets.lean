import Wikistream.Lib.Dict

/-!
# `Common.Offsets` — committed offsets that fell behind retention

Kafka deletes the oldest records of a partition. A group that stays away for too long finds its committed offset before
the log start, and `auto.offset.reset` moves it to the oldest record still kept. `on_assign` of every consumer reports
such gaps.

## Contents
- **A gap** (`RetentionGap`), and the offsets that its report counts (`RetentionGap.Covers`).
- **The check** (`findRetentionGaps`, `reportRetentionGaps`), and which gaps it finds (`mem_findRetentionGaps`).
-/

namespace Wikistream
namespace Offsets

open Lib

/-! ## The check -/

/-- The fields are what is logged as an error. The topic is the input topic of the group. -/
structure RetentionGap where
  partition : Nat
  committed : Nat
  logStart : Nat
  deriving DecidableEq

def RetentionGap.lost (gap : RetentionGap) : Nat := gap.logStart - gap.committed

/-- The gap of one partition. Without a commit there is none: a new group, nothing to have lost. -/
def gapOf (committed : Dict Nat Nat) (logStart : Nat → Nat) (p : Nat) : Option RetentionGap :=
  match committed.get? p with
  | none => none
  | some c => if c < logStart p then some ⟨p, c, logStart p⟩ else none

/-- `find_retention_gaps`, given what `committed` and `get_watermark_offsets` answer. -/
def findRetentionGaps (committed : Dict Nat Nat) (logStart : Nat → Nat) (partitions : List Nat) : List RetentionGap :=
  partitions.filterMap (gapOf committed logStart)

/-- `report_retention_gaps`: the gaps that are logged, and the total that is returned. -/
def reportRetentionGaps (committed : Dict Nat Nat) (logStart : Nat → Nat) (partitions : List Nat) :
    List RetentionGap × Nat :=
  let gaps := findRetentionGaps committed logStart partitions
  (gaps, (gaps.map RetentionGap.lost).sum)

/-- An offset that the report of the gap counts. -/
def RetentionGap.Covers (gap : RetentionGap) (p o : Nat) : Prop :=
  gap.partition = p ∧ gap.committed ≤ o ∧ o < gap.logStart

instance (gap : RetentionGap) (p o : Nat) : Decidable (gap.Covers p o) := inferInstanceAs (Decidable (_ ∧ _ ∧ _))

theorem gapOf_eq_some {committed : Dict Nat Nat} {logStart : Nat → Nat} {p : Nat} {gap : RetentionGap} :
    gapOf committed logStart p = some gap ↔
      gap.partition = p ∧ committed.get? p = some gap.committed ∧ gap.logStart = logStart p ∧
        gap.committed < gap.logStart := by
  unfold gapOf
  constructor
  · intro h
    split at h
    · exact absurd h (by simp)
    · next c hc =>
        split at h
        · next hlt =>
            obtain rfl := Option.some.inj h
            exact ⟨rfl, hc, rfl, hlt⟩
        · exact absurd h (by simp)
  · rintro ⟨rfl, hc, hstart, hlt⟩
    rw [hc]
    dsimp only
    rw [hstart] at hlt
    rw [if_pos hlt, ← hstart]

theorem mem_findRetentionGaps {committed : Dict Nat Nat} {logStart : Nat → Nat} {ps : List Nat} {gap : RetentionGap} :
    gap ∈ findRetentionGaps committed logStart ps ↔
      gap.partition ∈ ps ∧ committed.get? gap.partition = some gap.committed ∧
        gap.logStart = logStart gap.partition ∧ gap.committed < gap.logStart := by
  unfold findRetentionGaps
  rw [List.mem_filterMap]
  constructor
  · rintro ⟨p, hp, hgap⟩
    obtain ⟨rfl, h⟩ := gapOf_eq_some.mp hgap
    exact ⟨hp, h⟩
  · rintro ⟨hp, h⟩
    exact ⟨_, hp, gapOf_eq_some.mpr ⟨rfl, h⟩⟩

end Offsets
end Wikistream
