import Mathlib.Algebra.Order.Group.Defs
import Mathlib.Data.List.Dedup
import Wikistream.Lib.Dict
import Wikistream.Lib.Strikes
import Wikistream.Python.Str

/-!
# `Common.Watchdog` — partitions of the subscribed topics that no member holds

A group that formed right after its topic was created can be stable with partitions that nobody reads.
`AssignmentWatchdog` looks at the group from time to time, and has its consumer rejoin after two such sights in a row.

## Contents
- **What is known of the group** (`Look`) and the count (`unownedPartitions`).
- **The watchdog** (`AssignmentWatchdog`, `check`).
- **The checks that look** (`performed`), of all that are called.
-/

namespace Wikistream
namespace Topics

open Py Lib

/-- Topic and partition. -/
abbrev TopicPartition := Str × Nat

structure TopicMetadata where
  /-- `topic.error` is set. -/
  failed : Bool := false
  partitions : List Nat
  nodup : partitions.Nodup

/-- What `describe_consumer_groups` and `list_topics` answer. -/
structure Look where
  stable : Bool
  /-- What each member is assigned. -/
  members : List (List TopicPartition)
  metadata : Dict Str TopicMetadata

/-- The partitions of the topics that some member holds, as a set. -/
def owned (topics : List Str) (look : Look) : List TopicPartition :=
  (look.members.flatten.filter (fun tp => tp.1 ∈ topics)).dedup

/-- The partitions a topic adds to the total. -/
def listed (look : Look) (name : Str) : List TopicPartition :=
  match look.metadata.get? name with
  | none => []
  | some topic => if topic.failed then [] else topic.partitions.map (Prod.mk name)

/-- `unowned_partitions`: 0 if the group is mid rebalance. -/
def unownedPartitions (topics : List Str) (look : Look) : Nat :=
  if look.stable then (topics.map (fun name => (listed look name).length)).sum - (owned topics look).length else 0

/-- `STRIKES_BEFORE_REJOIN`. -/
def strikesBeforeRejoin : Nat := 2

/-- `AssignmentWatchdog`; `strikes.acts` is `rejoins`, the calls of `rejoin`. -/
structure AssignmentWatchdog (τ : Type) where
  /-- Without repetition: a set. -/
  topics : List Str
  intervalSec : τ
  lastCheck : τ
  strikes : Strikes := {}

variable {τ : Type} [AddCommGroup τ] [LinearOrder τ]

/-- `__init__` at the time `now`. -/
def AssignmentWatchdog.new (topics : List Str) (intervalSec now : τ) : AssignmentWatchdog τ where
  topics := topics.dedup
  intervalSec := intervalSec
  lastCheck := now

/-- `check` at the time `now`. The answer is `none` where `unowned_partitions` raises, and then nothing is counted. -/
def AssignmentWatchdog.check (dog : AssignmentWatchdog τ) (call : τ × Option Look) : AssignmentWatchdog τ :=
  if call.1 - dog.lastCheck < dog.intervalSec then dog
  else
    match call.2 with
    | none => { dog with lastCheck := call.1 }
    | some look =>
        { dog with
          lastCheck := call.1
          strikes := dog.strikes.see strikesBeforeRejoin (decide (unownedPartitions dog.topics look ≠ 0)) }

/-- The calls that look at the group, after one at `last`. -/
def performed (intervalSec last : τ) : List (τ × Option Look) → List (τ × Option Look)
  | [] => []
  | call :: calls =>
      if call.1 - last < intervalSec then performed intervalSec last calls
      else call :: performed intervalSec call.1 calls

/-- What those that got an answer saw: whether a partition had no owner. -/
def sights (topics : List Str) (calls : List (τ × Option Look)) : List Bool :=
  calls.filterMap (fun call => call.2.map (fun look => decide (unownedPartitions topics look ≠ 0)))

end Topics
end Wikistream
