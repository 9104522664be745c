import Mathlib.Data.Finset.Card
import Wikistream.Lib.NewestFirst
import Wikistream.Processors.PageState
import Wikistream.Python.TimeOrder

/-!
# `Scripts.PageSnapshot` — the state of every page, from one pass over the topic

`build_snapshot` reads wiki.page-latest from the beginning until every partition has reported its end.

## Contents
- **The state** (`Snapshot`, `Stats`) and one record (`addRecord`).
- **The loop** (`snapshotLoop`, `buildSnapshot`) over what the polls come back with, and the list of a wiki's pages
  (`listWiki`).
- **A pass over the whole topic** (`Whole`, `snapshotLoop_whole`).
-/

namespace Wikistream
namespace PageSnapshot

open Py Lib PageState

structure Stats where
  records : Nat := 0
  tombstones : Nat := 0
  pagesRemoved : Nat := 0
  superseded : Nat := 0
  pages : Nat := 0

/-- A record without a key, or with an empty one, is filed under `None`. -/
structure Snapshot where
  pages : Dict (Option Str) PageLatest := Dict.empty
  stats : Stats := {}

/-- `msg.key().decode("utf-8") if msg.key() else None`. -/
def keyOf : Option Bytes → Except Exc (Option Str)
  | none | some [] => .ok none
  | some k =>
      match utf8Decode k with
      | some key => .ok (some key)
      | none => .error .valueError

/-- One record of the loop; an unreadable value raises. -/
def addRecord (host : Host) (s : Snapshot) (r : KafkaRecord) : Except Exc Snapshot :=
  match keyOf r.key with
  | .error e => .error e
  | .ok key =>
      match r.value with
      | none =>
          .ok {
            pages := s.pages.erase key
            stats := { s.stats with
              records := s.stats.records + 1
              tombstones := s.stats.tombstones + 1
              pagesRemoved := if (s.pages.get? key).isSome then s.stats.pagesRemoved + 1 else s.stats.pagesRemoved } }
      | some b =>
          match PageLatest.fromJson host (.bytes b) with
          | .error e => .error e
          | .ok page =>
              .ok {
                -- the later record for the key replaces the earlier one
                pages := s.pages.set key page
                stats := { s.stats with
                  records := s.stats.records + 1
                  superseded :=
                    if (s.pages.get? key).isSome then s.stats.superseded + 1 else s.stats.superseded } }

/-- What a `poll` comes back with. -/
inductive SnapshotPoll
  | timeout
  | eof (partition : Nat)
  | error
  | record (partition : Nat) (r : KafkaRecord)

/-- The loop of `build_snapshot`; `finished` are the partitions that have reported their end. Running out of polls is
    a timeout. -/
def snapshotLoop (host : Host) (partitionCount : Nat) :
    List SnapshotPoll → Finset Nat → Snapshot → Except Exc Snapshot
  | [], _, s => .ok s
  | poll :: polls, finished, s =>
      if partitionCount ≤ finished.card then .ok s
      else
        match poll with
        -- a quiet topic ends the read, whatever is unfinished
        | .timeout => .ok s
        | .eof p => snapshotLoop host partitionCount polls (insert p finished) s
        | .error => .error .kafkaException
        | .record _ r =>
            match addRecord host s r with
            | .error e => .error e
            | .ok s => snapshotLoop host partitionCount polls finished s

/-- `build_snapshot`. -/
def buildSnapshot (host : Host) (partitionCount : Nat) (polls : List SnapshotPoll) : Except Exc Snapshot :=
  (snapshotLoop host partitionCount polls ∅ {}).map
    (fun s => { s with stats := { s.stats with pages := s.pages.size } })

/-- The pages `main` prints for `--wiki`, most recently changed first. -/
def listWiki (s : Snapshot) (wiki : Str) (limit : Int) : List PageLatest :=
  upTo limit (newestFirst PageLatest.eventTime (s.pages.values.filter (fun p => p.wiki == wiki)))

/-! ## A pass over the whole topic -/

/-- The record a poll hands out, with its partition. -/
def SnapshotPoll.handed : SnapshotPoll → Option (Nat × KafkaRecord)
  | .record p r => some (p, r)
  | _ => none

/-- The polls hand out the records of `feed`, no poll times out or fails, and the end of a partition is reported
    behind its records. -/
structure Whole (partitionCount : Nat) (feed : List (Nat × KafkaRecord)) (polls : List SnapshotPoll) : Prop where
  records : polls.filterMap SnapshotPoll.handed = feed
  answered : .timeout ∉ polls ∧ .error ∉ polls
  atEnd : polls.Pairwise (fun a b => ∀ p, a = .eof p → ∀ r, b ≠ .record p r)
  partitions : ∀ x ∈ polls, ∀ p, x = .eof p ∨ (∃ r, x = .record p r) → p < partitionCount

variable {host : Host} {partitionCount : Nat} {feed : List (Nat × KafkaRecord)} {polls : List SnapshotPoll}

/-- **The pass reads every record.** The loop stops early only when no partition has records left. -/
theorem snapshotLoop_whole (h : Whole partitionCount feed polls) {finished : Finset Nat}
    (hrange : ∀ p ∈ finished, p < partitionCount)
    (hdone : ∀ p ∈ finished, ∀ r, SnapshotPoll.record p r ∉ polls) (s : Snapshot) :
    snapshotLoop host partitionCount polls finished s = feed.foldlM (fun s x => addRecord host s x.2) s := by
  induction polls generalizing feed finished s with
  | nil =>
      obtain rfl : [] = feed := h.records
      rfl
  | cons poll polls ih =>
      have hrest : ∀ {feed'}, polls.filterMap SnapshotPoll.handed = feed' → Whole partitionCount feed' polls := by
        intro feed' hfeed
        refine ⟨hfeed, ⟨fun hm => h.answered.1 (List.mem_cons_of_mem _ hm),
          fun hm => h.answered.2 (List.mem_cons_of_mem _ hm)⟩, h.atEnd.of_cons, ?_⟩
        exact fun x hx => h.partitions x (List.mem_cons_of_mem _ hx)
      have hdone' : ∀ p ∈ finished, ∀ r, SnapshotPoll.record p r ∉ polls :=
        fun p hp r hm => hdone p hp r (List.mem_cons_of_mem _ hm)
      unfold snapshotLoop
      split
      · next hall =>
          -- every partition has reported its end, so there is no record left
          have hfull : finished = Finset.range partitionCount := by
            apply Finset.eq_of_subset_of_card_le
            · exact fun p hp => Finset.mem_range.mpr (hrange p hp)
            · rwa [Finset.card_range]
          have hnone : (poll :: polls).filterMap SnapshotPoll.handed = [] := by
            apply List.filterMap_eq_nil_iff.mpr
            intro x hx
            cases x with
            | record p r =>
                have hp := h.partitions _ hx p (Or.inr ⟨r, rfl⟩)
                exact absurd hx (hdone p (hfull ▸ Finset.mem_range.mpr hp) r)
            | timeout => rfl
            | eof p => rfl
            | error => rfl
          obtain rfl : feed = [] := h.records.symm.trans hnone
          rfl
      · cases poll with
        | timeout => exact absurd List.mem_cons_self h.answered.1
        | error => exact absurd List.mem_cons_self h.answered.2
        | eof p =>
            refine ih (hrest h.records) ?_ ?_ s
            · intro q hq
              rcases Finset.mem_insert.mp hq with rfl | hq
              · exact h.partitions _ List.mem_cons_self q (Or.inl rfl)
              · exact hrange q hq
            · intro q hq r hm
              rcases Finset.mem_insert.mp hq with rfl | hq
              · exact (List.pairwise_cons.mp h.atEnd).1 _ hm q rfl r rfl
              · exact hdone' q hq r hm
        | record p r =>
            obtain rfl : (p, r) :: polls.filterMap SnapshotPoll.handed = feed := h.records
            rw [List.foldlM_cons]
            dsimp only
            cases addRecord host s r with
            | error e => rfl
            | ok s => exact ih (hrest rfl) hrange hdone' s

end PageSnapshot
end Wikistream
