import Mathlib.Data.List.Perm.Subperm
import Mathlib.Order.Basic
import Wikistream.Common.Watchdog

/-!
# `Correctness.Rejoins` — the watchdog acts on real gaps, and on every second sight in a row

A rejoin stops the whole group for a moment. It happens after two looks at a stable group in a row that each saw a
partition nobody holds, and after no others.

## Contents
- **What is seen is there** (`exists_unowned`).
- **The looks are apart** (`apart_performed`).
- **What the watchdog has done** (`foldl_check`).
- **The result** (`rejoins_eq`).
-/

namespace Wikistream
namespace Topics

open Py Lib

variable {τ : Type} [AddCommGroup τ] [LinearOrder τ] {topics : List Str} {look : Look}

theorem mem_owned {tp : TopicPartition} :
    tp ∈ owned topics look ↔ tp.1 ∈ topics ∧ ∃ member ∈ look.members, tp ∈ member := by
  unfold owned
  rw [List.mem_dedup, List.mem_filter, List.mem_flatten, decide_eq_true_iff, and_comm]

theorem mem_listed {name : Str} {tp : TopicPartition} :
    tp ∈ listed look name ↔
      tp.1 = name ∧ ∃ topic, look.metadata.get? name = some topic ∧ topic.failed = false ∧ tp.2 ∈ topic.partitions := by
  unfold listed
  split
  · next hnone => simp [hnone]
  · next topic hsome =>
      cases hfailed : topic.failed with
      | true => simp [hsome, hfailed]
      | false =>
          rw [if_neg (by simp)]
          simp only [List.mem_map, hsome, Option.some.injEq, exists_eq_left', hfailed, true_and]
          constructor
          · rintro ⟨p, hp, rfl⟩
            exact ⟨rfl, hp⟩
          · rintro ⟨rfl, hp⟩
            exact ⟨tp.2, hp, rfl⟩

theorem nodup_listed (look : Look) (name : Str) : (listed look name).Nodup := by
  unfold listed
  split
  · exact List.nodup_nil
  · split
    · exact List.nodup_nil
    · next topic _ _ => exact topic.nodup.map (Prod.mk_right_injective name)

/-- **What is seen is there**: the group is stable, and no member holds the partition. -/
theorem exists_unowned (htopics : topics.Nodup) (h : unownedPartitions topics look ≠ 0) :
    look.stable = true ∧ ∃ name ∈ topics, ∃ topic, look.metadata.get? name = some topic ∧ topic.failed = false ∧
      ∃ p ∈ topic.partitions, ∀ member ∈ look.members, (name, p) ∉ member := by
  unfold unownedPartitions at h
  split at h
  · next hstable =>
      refine ⟨hstable, ?_⟩
      by_contra hall
      -- if every partition had an owner, there would be as many owned as listed
      have hnodup : (topics.flatMap (listed look)).Nodup := by
        rw [List.nodup_flatMap]
        refine ⟨fun name _ => nodup_listed look name, htopics.imp ?_⟩
        intro a b hab
        have hdisjoint : List.Disjoint (listed look a) (listed look b) := by
          rw [List.disjoint_left]
          intro tp ha hb
          exact hab ((mem_listed.mp ha).1.symm.trans (mem_listed.mp hb).1)
        exact hdisjoint
      have hsub : topics.flatMap (listed look) ⊆ owned topics look := by
        intro tp htp
        obtain ⟨name, hname, hlisted⟩ := List.mem_flatMap.mp htp
        obtain ⟨rfl, topic, hget, hfailed, hp⟩ := mem_listed.mp hlisted
        refine mem_owned.mpr ⟨hname, ?_⟩
        by_contra hnone
        exact hall ⟨tp.1, hname, topic, hget, hfailed, tp.2, hp, fun member hm hmem => hnone ⟨member, hm, hmem⟩⟩
      have hle := (hnodup.subperm hsub).length_le
      rw [List.length_flatMap] at hle
      exact h (Nat.sub_eq_zero_of_le hle)
  · exact absurd rfl h

/-- Two looks in a row are `intervalSec` apart, and the first one is that far from the start. -/
theorem apart_performed (intervalSec last : τ) (calls : List (τ × Option Look)) :
    List.IsChain (fun earlier later => intervalSec ≤ later - earlier)
      (last :: (performed intervalSec last calls).map Prod.fst) := by
  induction calls generalizing last with
  | nil => exact .singleton last
  | cons call calls ih =>
      rw [performed]
      split
      · exact ih last
      · next hdue => exact .cons_cons (not_lt.mp hdue) (ih call.1)

/-- The calls that do not look change nothing, and the others count what they see. -/
theorem foldl_check (dog : AssignmentWatchdog τ) (calls : List (τ × Option Look)) :
    (calls.foldl AssignmentWatchdog.check dog).strikes =
      (sights dog.topics (performed dog.intervalSec dog.lastCheck calls)).foldl (Strikes.see strikesBeforeRejoin)
        dog.strikes := by
  induction calls generalizing dog with
  | nil => rfl
  | cons call calls ih =>
      rw [List.foldl_cons, ih, performed]
      unfold AssignmentWatchdog.check
      split
      · rfl
      · cases hanswer : call.2 with
        | none =>
            have hsights : sights dog.topics (call :: performed dog.intervalSec call.1 calls) =
                sights dog.topics (performed dog.intervalSec call.1 calls) :=
              List.filterMap_cons_none (by rw [hanswer]; rfl)
            rw [hsights]
        | some look =>
            have hsights : sights dog.topics (call :: performed dog.intervalSec call.1 calls) =
                decide (unownedPartitions dog.topics look ≠ 0) ::
                  sights dog.topics (performed dog.intervalSec call.1 calls) :=
              List.filterMap_cons_some (by rw [hanswer]; rfl)
            rw [hsights]
            rfl

/-- **When the group is made to rejoin.** However often `check` is called and whatever it is answered, the watchdog
    has had its consumer rejoin once for every two looks in a row that saw a partition without an owner, where a look
    that raised is left out; the looks are at least an interval apart; and what they saw is real: the group was stable,
    and no member held some partition of a subscribed topic. -/
theorem rejoins_eq (topics : List Str) (intervalSec start : τ) (calls : List (τ × Option Look)) :
    let looks := performed intervalSec start calls
    (calls.foldl AssignmentWatchdog.check (.new topics intervalSec start)).strikes.acts =
        ((runs (sights topics.dedup looks)).map (· / 2)).sum ∧
      List.IsChain (fun earlier later => intervalSec ≤ later - earlier) (start :: looks.map Prod.fst) ∧
      ∀ look, unownedPartitions topics.dedup look ≠ 0 → look.stable = true ∧
        ∃ name ∈ topics, ∃ topic, look.metadata.get? name = some topic ∧ topic.failed = false ∧
          ∃ p ∈ topic.partitions, ∀ member ∈ look.members, (name, p) ∉ member := by
  intro looks
  refine ⟨?_, apart_performed intervalSec start calls, ?_⟩
  · rw [foldl_check]
    exact foldl_see (by decide) _
  · intro look h
    obtain ⟨hstable, name, hname, hrest⟩ := exists_unowned (List.nodup_dedup topics) h
    exact ⟨hstable, name, List.mem_dedup.mp hname, hrest⟩

end Topics
end Wikistream
