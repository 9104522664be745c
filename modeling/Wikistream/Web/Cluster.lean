import Mathlib.Data.List.Induction
import Wikistream.Lib.Dict
import Wikistream.Python.Exc

/-!
# `Web.Cluster` — the lag of the consumer groups, read from Kafka

## Contents
- **Names.** Topics and groups within a namespace (`topicName`, `scopedName`), and what each group reads (`groups`).
- **Answers of the admin client** (`Admin`), the only thing read.
- **`endOffsets`, `groupLag`**, and the part of `pipeline` that goes through the groups (`groupsOf`).
-/

namespace Wikistream
namespace Cluster

open Py Lib

/-! ## Names -/

/-- `DEFAULT_NAMESPACE`. -/
def defaultNamespace : Str := lit "wiki"

/-- `topic_name`, in the namespace `ns`. -/
def topicName (ns name : Str) : Str := ns ++ lit "." ++ name

/-- `scoped`, a word that is taken here. -/
def scopedName (ns name : Str) : Str := if ns = defaultNamespace then name else ns ++ lit "." ++ name

/-- `GROUPS`: each group with the topic it reads. -/
def groups (ns : Str) : List (Str × Str) :=
  [(scopedName ns (lit "cleaner"), topicName ns (lit "raw")),
    (scopedName ns (lit "page-state"), topicName ns (lit "clean")),
    (scopedName ns (lit "edit-wars"), topicName ns (lit "clean")),
    (scopedName ns (lit "trending"), topicName ns (lit "clean")),
    (scopedName ns (lit "storage"), topicName ns (lit "clean")),
    (scopedName ns (lit "alerts-storage"), topicName ns (lit "alerts"))]

/-! ## Answers of the admin client -/

/-- An offset a group has committed; negative where there is none. -/
structure TopicPartition where
  topic : Str
  partition : Nat
  offset : Int

structure GroupDescription where
  /-- The name of the state, in lower case. -/
  state : Str
  members : Nat

/-- `AdminClient`, as far as it is asked. `listOffsets` answers for `OffsetSpec.latest()` and `READ_COMMITTED`. -/
structure Admin where
  listOffsets : Str → Nat → Except Exc Int
  listConsumerGroupOffsets : Str → Except Exc (List TopicPartition)
  describeConsumerGroups : Str → Except Exc GroupDescription

/-! ## `group_lag` -/

structure PartitionLag where
  partition : Nat
  committed : Int
  endOffset : Int
  lag : Int

structure GroupLag where
  group : Str
  topic : Str
  state : Str
  members : Nat
  lag : Int
  caughtUp : Bool
  partitions : List PartitionLag

/-- `end_offsets`. -/
def endOffsets (admin : Admin) (topic : Str) (partitions : Nat) : Except Exc (Dict Nat Int) :=
  (List.range partitions).foldlM
    (fun ends p => do
      let last ← admin.listOffsets topic p
      return ends.set p last)
    Dict.empty

/-- `committed`: the offsets listed for the topic. -/
def committedOffsets (topic : Str) (listed : List TopicPartition) : Dict Nat Int :=
  listed.foldl (fun committed tp => if tp.topic = topic then committed.set tp.partition tp.offset else committed)
    Dict.empty

/-- One round of the loop over the partitions. -/
def partitionLag (committed ends : Dict Nat Int) (partition : Nat) : PartitionLag :=
  let offset := (committed.get? partition).getD (-1)
  let endOffset := (ends.get? partition).getD 0
  { partition, committed := offset, endOffset, lag := if 0 ≤ offset then endOffset - offset else endOffset }

/-- `group_lag`. -/
def groupLag (admin : Admin) (group topic : Str) (partitions : Nat) (ends : Dict Nat Int) : Except Exc GroupLag := do
  let listed ← admin.listConsumerGroupOffsets group
  let committed := committedOffsets topic listed
  let description ← admin.describeConsumerGroups group
  let perPartition := (List.range partitions).map (partitionLag committed ends)
  return {
    group, topic
    state := description.state
    members := description.members
    lag := (perPartition.map PartitionLag.lag).sum
    caughtUp := perPartition.all (fun p => p.lag ≤ 1)
    partitions := perPartition }

/-! ## `pipeline` -/

/-- An entry of `groups`: the lag, or the group whose lag could not be read. -/
inductive GroupReport
  | lag (answer : GroupLag)
  | failed (group topic : Str) (error : Exc)

/-- `ends_cache[topic]`, read from Kafka the first time. -/
def endsOf (admin : Admin) (endsCache : Dict Str (Dict Nat Int)) (topic : Str) (count : Nat) :
    Except Exc (Dict Nat Int) :=
  match endsCache.get? topic with
  | some ends => .ok ends
  | none => endOffsets admin topic count

/-- The loop over `GROUPS`. A topic's end offsets are read once, outside the `try`. -/
def groupsOf (admin : Admin) (partitionCounts : Dict Str Nat) :
    List (Str × Str) → (endsCache : Dict Str (Dict Nat Int)) → Except Exc (List GroupReport)
  | [], _ => .ok []
  | (group, topic) :: rest, endsCache =>
      match partitionCounts.get? topic with
      | none | some 0 => groupsOf admin partitionCounts rest endsCache
      | some count => do
          let ends ← endsOf admin endsCache topic count
          let report := match groupLag admin group topic count ends with
            | .ok answer => GroupReport.lag answer
            | .error e => .failed group topic e
          let reports ← groupsOf admin partitionCounts rest (endsCache.set topic ends)
          return report :: reports

/-! ## What is read -/

theorem get?_committedOffsets {topic : Str} {partition : Nat} (listed : List TopicPartition) :
    (committedOffsets topic listed).get? partition =
      ((listed.filter (fun tp => tp.topic = topic ∧ tp.partition = partition)).getLast?).map TopicPartition.offset := by
  induction listed using List.reverseRecOn with
  | nil => rfl
  | append_singleton listed tp ih =>
      unfold committedOffsets at ih ⊢
      rw [List.foldl_append, List.filter_append, List.foldl_cons, List.foldl_nil]
      by_cases ht : tp.topic = topic
      · rw [if_pos ht, Dict.get?_set, ih]
        by_cases hp : partition = tp.partition
        · simp [ht, hp]
        · have hne : ¬ tp.partition = partition := fun h => hp h.symm
          simp [hp, hne]
      · simp [ht, ih]

theorem get?_endOffsets {admin : Admin} {topic : Str} {partitions : Nat} {ends : Dict Nat Int}
    (h : endOffsets admin topic partitions = .ok ends) {p : Nat} (hp : p < partitions) :
    ∃ last, admin.listOffsets topic p = .ok last ∧ ends.get? p = some last := by
  unfold endOffsets at h
  induction partitions generalizing ends with
  | zero => exact absurd hp (Nat.not_lt_zero p)
  | succ n ih =>
      rw [List.range_succ, List.foldlM_append] at h
      obtain ⟨before, hbefore, h⟩ := bind_eq_ok.mp h
      rw [List.foldlM_cons] at h
      obtain ⟨after, hafter, h⟩ := bind_eq_ok.mp h
      obtain rfl : after = ends := Except.ok.inj h
      obtain ⟨last, hlast, hafter⟩ := bind_eq_ok.mp hafter
      obtain rfl := Except.ok.inj hafter
      rw [Dict.get?_set]
      by_cases hpn : p = n
      · exact ⟨last, hpn ▸ hlast, if_pos hpn⟩
      · rw [if_neg hpn]
        exact ih hbefore (by omega)

/-- `group_lag` returns what it was told, the total and whether every partition is within one offset of its end. -/
theorem groupLag_eq_ok {admin : Admin} {group topic : Str} {partitions : Nat} {ends : Dict Nat Int}
    {answer : GroupLag} :
    groupLag admin group topic partitions ends = .ok answer ↔
      ∃ listed description, admin.listConsumerGroupOffsets group = .ok listed ∧
        admin.describeConsumerGroups group = .ok description ∧
        answer = {
          group, topic
          state := description.state
          members := description.members
          lag := (((List.range partitions).map (partitionLag (committedOffsets topic listed) ends)).map
            PartitionLag.lag).sum
          caughtUp := ((List.range partitions).map (partitionLag (committedOffsets topic listed) ends)).all
            (fun p => p.lag ≤ 1)
          partitions := (List.range partitions).map (partitionLag (committedOffsets topic listed) ends) } := by
  unfold groupLag
  simp only [bind_eq_ok]
  constructor
  · rintro ⟨listed, hlisted, description, hdescription, h⟩
    exact ⟨listed, description, hlisted, hdescription, (Except.ok.inj h).symm⟩
  · rintro ⟨listed, description, hlisted, hdescription, rfl⟩
    exact ⟨listed, hlisted, description, hdescription, rfl⟩

/-- The answer was computed for one of the pairs, from end offsets read for its own topic. -/
def IsFresh (admin : Admin) (counts : Dict Str Nat) (pairs : List (Str × Str)) (answer : GroupLag) : Prop :=
  ∃ group topic count ends, (group, topic) ∈ pairs ∧ counts.get? topic = some count ∧
    endOffsets admin topic count = .ok ends ∧ groupLag admin group topic count ends = .ok answer

theorem IsFresh.cons {admin : Admin} {counts : Dict Str Nat} {pairs : List (Str × Str)} {answer : GroupLag}
    (h : IsFresh admin counts pairs answer) (pair : Str × Str) : IsFresh admin counts (pair :: pairs) answer := by
  obtain ⟨group, topic, count, ends, hmem, hrest⟩ := h
  exact ⟨group, topic, count, ends, List.mem_cons_of_mem pair hmem, hrest⟩

/-- **The cached end offsets are as good as fresh ones.** -/
theorem mem_groupsOf {admin : Admin} {counts : Dict Str Nat} {pairs : List (Str × Str)}
    {endsCache : Dict Str (Dict Nat Int)}
    (hcache : ∀ topic ends count, endsCache.get? topic = some ends → counts.get? topic = some count →
      endOffsets admin topic count = .ok ends)
    {reports : List GroupReport} (h : groupsOf admin counts pairs endsCache = .ok reports) {answer : GroupLag}
    (hanswer : GroupReport.lag answer ∈ reports) : IsFresh admin counts pairs answer := by
  induction pairs generalizing endsCache reports with
  | nil =>
      obtain rfl := Except.ok.inj h
      exact absurd hanswer List.not_mem_nil
  | cons pair pairs ih =>
      obtain ⟨group, topic⟩ := pair
      rw [groupsOf] at h
      split at h
      · exact (ih hcache h hanswer).cons _
      · exact (ih hcache h hanswer).cons _
      · next count hzero hcount =>
          obtain ⟨ends, hends, h⟩ := bind_eq_ok.mp h
          obtain ⟨rest, hrest, h⟩ := bind_eq_ok.mp h
          obtain rfl := Except.ok.inj h
          have hfresh : endOffsets admin topic count = .ok ends := by
            unfold endsOf at hends
            split at hends
            · next cached hcached =>
                obtain rfl := Except.ok.inj hends
                exact hcache topic cached count hcached hcount
            · exact hends
          rcases List.mem_cons.mp hanswer with hhead | htail
          · cases hlag : groupLag admin group topic count ends with
            | error e => exact absurd (hlag ▸ hhead) (by simp)
            | ok answer' =>
                rw [hlag] at hhead
                obtain rfl := GroupReport.lag.inj hhead
                exact ⟨group, topic, count, ends, List.mem_cons_self, hcount, hfresh, hlag⟩
          · refine (ih ?_ hrest htail).cons _
            intro topic' ends' count' hget hcount'
            rw [Dict.get?_set] at hget
            split at hget
            · next heq =>
                subst heq
                obtain rfl := Option.some.inj hget
                obtain rfl := Option.some.inj (hcount.symm.trans hcount')
                exact hfresh
            · exact hcache topic' ends' count' hget hcount'

end Cluster
end Wikistream
