import Wikistream.Lib.TxnLog
import Wikistream.Web.Cluster

/-!
# `Correctness.CaughtUp` — when a group that is reported as caught up has nothing left to read

`group_lag` allows every partition one offset past the committed one, for the marker that ends a transaction. Whether
that offset holds a marker is not looked at, and neither is how many markers there are.

## Contents
- **What Kafka answers** (`Serves`), and the lag it makes (`lag_partitionLag`).
- **What lies past a position** (`Behind`, `LoneRecord`, `OnlyMarkers`, by the tail of the log there), and which logs
  have it. The slack misleads at a tail of one record and at one of two offsets or more without a record
  (`misled_iff`).
- **One kind of topic** (`caughtUp_of_committed`, `caughtUp_of_plain_iff`).
- **The result** (`caught_up_iff`), for the answers of `pipeline` as well (`caught_up_pipeline_iff`), and the two ways
  it fails (`caught_up_misses`).
-/

namespace Wikistream
namespace Cluster

open Py Lib

variable {ρ : Type}

/-! ## What Kafka answers -/

/-- The position an offset stands for: none when nothing was committed. -/
def positionOf (offset : Int) : Option Nat := if 0 ≤ offset then some offset.toNat else none

/-- The client tells the last stable offset of each log and the offsets each group has committed. -/
structure Serves (admin : Admin) (logs : Str → Nat → TxnLog ρ) (positions : Str → Str → Nat → Option Nat) : Prop where
  listOffsets : ∀ topic p last, admin.listOffsets topic p = .ok last → last = (logs topic p).stable
  isCommitted : ∀ group listed, admin.listConsumerGroupOffsets group = .ok listed →
    ∀ tp ∈ listed, positions group tp.topic tp.partition = positionOf tp.offset
  isListed : ∀ group listed, admin.listConsumerGroupOffsets group = .ok listed →
    ∀ topic p o, positions group topic p = some o → ∃ tp ∈ listed, tp.topic = topic ∧ tp.partition = p

/-- A position as a consumer commits it: one past a record it has read. -/
def ReadTo (log : TxnLog ρ) (position : Option Nat) : Prop :=
  ∀ o, position = some o → ∃ o' r, o = o' + 1 ∧ log.recordAt o' = some r

/-- A record is left to read. -/
def Unread (log : TxnLog ρ) (position : Option Nat) : Prop := ∃ o r, position.getD 0 ≤ o ∧ log.recordAt o = some r

section Serves

variable {admin : Admin} {logs : Str → Nat → TxnLog ρ} {positions : Str → Str → Nat → Option Nat}
  (hserves : Serves admin logs positions) {group topic : Str} {partitions : Nat} {ends : Dict Nat Int}

include hserves

/-- The offset found for a partition stands for the group's position. -/
theorem positionOf_committedOffsets {listed : List TopicPartition}
    (hlisted : admin.listConsumerGroupOffsets group = .ok listed) (p : Nat) :
    positionOf (((committedOffsets topic listed).get? p).getD (-1)) = positions group topic p := by
  rw [get?_committedOffsets]
  cases hlast : (listed.filter (fun tp => tp.topic = topic ∧ tp.partition = p)).getLast? with
  | none =>
      have hnone : ∀ tp ∈ listed, ¬ (tp.topic = topic ∧ tp.partition = p) := by
        simpa using List.getLast?_eq_none_iff.mp hlast
      cases hposition : positions group topic p with
      | none => rfl
      | some o =>
          obtain ⟨tp, hmem, htp⟩ := hserves.isListed group listed hlisted topic p o hposition
          exact absurd htp (hnone tp hmem)
  | some tp =>
      have hmem := List.mem_of_getLast? hlast
      simp only [List.mem_filter, decide_eq_true_eq] at hmem
      obtain ⟨hmem, rfl, rfl⟩ := hmem
      exact (hserves.isCommitted group listed hlisted tp hmem).symm

/-- **The lag is the number of offsets past the position**, below the last stable one. -/
theorem lag_partitionLag (hends : endOffsets admin topic partitions = .ok ends) {listed : List TopicPartition}
    (hlisted : admin.listConsumerGroupOffsets group = .ok listed) {p : Nat} (hp : p < partitions) :
    (partitionLag (committedOffsets topic listed) ends p).lag =
      (logs topic p).stable - ((positions group topic p).getD 0 : Nat) := by
  obtain ⟨last, hlast, hget⟩ := get?_endOffsets hends hp
  obtain rfl := hserves.listOffsets topic p last hlast
  rw [← positionOf_committedOffsets hserves hlisted, partitionLag]
  simp only [hget, Option.getD_some, positionOf]
  split
  · simp only [Option.getD_some]
    omega
  · simp

end Serves

/-! ## What lies past a position -/

section Tail

variable {log : TxnLog ρ} {position : Option Nat}

/-- What the group would get from its position on. -/
def tailFrom (log : TxnLog ρ) (position : Option Nat) : List (Option ρ) := log.tail (position.getD 0)

/-- Two offsets or more, with a record among them. -/
def Behind (log : TxnLog ρ) (position : Option Nat) : Prop :=
  2 ≤ (tailFrom log position).length ∧ ∃ r, some r ∈ tailFrom log position

/-- One offset, and it holds a record. -/
def LoneRecord (log : TxnLog ρ) (position : Option Nat) : Prop := ∃ r, tailFrom log position = [some r]

/-- Two offsets or more of markers and aborted records. -/
def OnlyMarkers (log : TxnLog ρ) (position : Option Nat) : Prop :=
  ∃ n, tailFrom log position = List.replicate (n + 2) none

theorem unread_iff : Unread log position ↔ ∃ r, some r ∈ tailFrom log position := by
  unfold Unread tailFrom
  rw [exists_comm]
  refine exists_congr (fun r => ?_)
  rw [TxnLog.mem_tail]
  exact exists_congr (fun o => and_congr_right (fun _ => ⟨fun h => ⟨(TxnLog.lt_stable h).2, h⟩, And.right⟩))

theorem not_unread_iff : ¬ Unread log position ↔ ∀ o < log.stable, position.getD 0 ≤ o → log.recordAt o = none := by
  unfold Unread
  constructor
  · intro h o _ ho
    cases hr : log.recordAt o with
    | none => rfl
    | some r => exact absurd ⟨o, r, ho, hr⟩ h
  · rintro h ⟨o, r, ho, hr⟩
    exact absurd ((h o (TxnLog.lt_stable hr).2 ho).symm.trans hr) (by simp)

theorem behind_iff : Behind log position ↔ position.getD 0 + 2 ≤ log.stable ∧ Unread log position := by
  rw [Behind, unread_iff, tailFrom, TxnLog.length_tail]
  refine and_congr_left (fun _ => ?_)
  omega

/-- A record left to read within the slack is alone. -/
theorem loneRecord_iff : LoneRecord log position ↔ log.stable ≤ position.getD 0 + 1 ∧ Unread log position := by
  unfold LoneRecord Unread tailFrom
  constructor
  · rintro ⟨r, htail⟩
    obtain ⟨hstable, hr⟩ := TxnLog.tail_eq_singleton.mp htail
    exact ⟨hstable.ge, _, r, Nat.le_refl _, hr⟩
  · rintro ⟨hstable, o, r, ho, hr⟩
    have hlt := (TxnLog.lt_stable hr).2
    obtain rfl : o = position.getD 0 := by omega
    exact ⟨r, TxnLog.tail_eq_singleton.mpr ⟨by omega, hr⟩⟩

theorem onlyMarkers_iff : OnlyMarkers log position ↔ position.getD 0 + 2 ≤ log.stable ∧ ¬ Unread log position := by
  have hlength := log.length_tail (position.getD 0)
  unfold OnlyMarkers
  rw [unread_iff]
  constructor
  · rintro ⟨n, htail⟩
    rw [← tailFrom, htail, List.length_replicate] at hlength
    refine ⟨by omega, ?_⟩
    rintro ⟨r, hr⟩
    rw [htail] at hr
    exact absurd (List.eq_of_mem_replicate hr) (by simp)
  · rintro ⟨hstable, hnone⟩
    refine ⟨log.stable - position.getD 0 - 2, List.eq_replicate_iff.mpr ⟨?_, ?_⟩⟩
    · rw [tailFrom, hlength]
      omega
    · intro x hx
      cases x with
      | none => rfl
      | some r => exact absurd ⟨r, hx⟩ hnone

/-- **Where the slack misleads**: at a lone record, and where nothing but markers is left and there are several. -/
theorem misled_iff : ¬ (log.stable ≤ position.getD 0 + 1 ↔ ¬ Unread log position) ↔
    LoneRecord log position ∨ OnlyMarkers log position := by
  rw [loneRecord_iff, onlyMarkers_iff]
  by_cases hunread : Unread log position
  · simp only [hunread, not_true_eq_false, iff_false, not_not, and_true, and_false, or_false]
  · simp only [hunread, not_false_eq_true, iff_true, and_false, and_true, false_or]
    omega

/-- **A log without transactions has no markers**, where the position is not behind what is kept. -/
theorem not_onlyMarkers_of_plain (hplain : Plain log.entries) (hstart : log.start ≤ position.getD 0) :
    ¬ OnlyMarkers log position := by
  rw [onlyMarkers_iff, not_unread_iff]
  rintro ⟨hstable, hnone⟩
  obtain ⟨r, hr⟩ := recordAt_of_plain hplain hstart (by omega)
  exact absurd ((hnone _ (by omega) (Nat.le_refl _)).symm.trans hr) (by simp)

/-- **A log of decided transactions ends in a marker or an aborted record.** -/
theorem not_loneRecord_of_transactional (htxn : Transactional log.entries) (hdecided : AllDecided log.entries) :
    ¬ LoneRecord log position := by
  rintro ⟨r, htail⟩
  obtain ⟨hstable, hr⟩ := TxnLog.tail_eq_singleton.mp htail
  exact absurd ((recordAt_last htxn hdecided hstable).symm.trans hr) (by simp)

/-- **Markers that come one at a time are no run of markers.** -/
theorem not_onlyMarkers_of_isChain (hchain : (seen log.entries).IsChain (fun a b => a = none → b ≠ none))
    (hstart : log.start ≤ position.getD 0) : ¬ OnlyMarkers log position := by
  rw [onlyMarkers_iff, not_unread_iff]
  rintro ⟨hstable, hnone⟩
  have hlength : position.getD 0 - log.start + 1 < (seen log.entries).length := by
    unfold TxnLog.stable at hstable
    omega
  have hat (k : Nat) (hk : k ≤ 1) : (seen log.entries)[position.getD 0 - log.start + k]? = some none := by
    have hrecord := hnone (position.getD 0 + k) (by omega) (by omega)
    unfold TxnLog.recordAt at hrecord
    rw [if_neg (by omega), show position.getD 0 + k - log.start = position.getD 0 - log.start + k by omega,
      List.getElem?_eq_getElem (by omega), Option.join_some] at hrecord
    rw [List.getElem?_eq_getElem (by omega), hrecord]
  have hfirst := (List.getElem?_eq_some_iff.mp (hat 0 (by omega))).2
  have hsecond := (List.getElem?_eq_some_iff.mp (hat 1 (by omega))).2
  exact hchain.getElem _ hlength hfirst hsecond

end Tail

/-! ## The result -/

/-- Claims about single partitions are put together by what kinds of tails there are. -/
theorem forall_iff_forall_iff {n : Nat} (logs : Nat → TxnLog ρ) (positions : Nat → Option Nat) :
    ((∀ p < n, (logs p).stable ≤ (positions p).getD 0 + 1) ↔ ∀ p < n, ¬ Unread (logs p) (positions p)) ↔
      (∃ p < n, Behind (logs p) (positions p)) ∨
        ((∃ p < n, LoneRecord (logs p) (positions p)) ↔ ∃ p < n, OnlyMarkers (logs p) (positions p)) := by
  by_cases hbehind : ∃ p < n, Behind (logs p) (positions p)
  · obtain ⟨p, hp, hbehind⟩ := hbehind
    obtain ⟨hlong, hunread⟩ := behind_iff.mp hbehind
    refine iff_of_true (iff_of_false (fun h => ?_) (fun h => h p hp hunread)) (Or.inl ⟨p, hp, hbehind⟩)
    have := h p hp
    omega
  · have hlone : (∀ p < n, ¬ Unread (logs p) (positions p)) ↔ ¬ ∃ p < n, LoneRecord (logs p) (positions p) := by
      constructor
      · rintro h ⟨p, hp, hl⟩
        exact h p hp (loneRecord_iff.mp hl).2
      · intro h p hp hunread
        by_cases hshort : (logs p).stable ≤ (positions p).getD 0 + 1
        · exact h ⟨p, hp, loneRecord_iff.mpr ⟨hshort, hunread⟩⟩
        · exact hbehind ⟨p, hp, behind_iff.mpr ⟨by omega, hunread⟩⟩
    have hmarkers : (∀ p < n, (logs p).stable ≤ (positions p).getD 0 + 1) ↔
        ¬ ∃ p < n, OnlyMarkers (logs p) (positions p) := by
      constructor
      · rintro h ⟨p, hp, hmarkers⟩
        have hlong := (onlyMarkers_iff.mp hmarkers).1
        have := h p hp
        omega
      · intro h p hp
        by_contra hlong
        by_cases hunread : Unread (logs p) (positions p)
        · exact hbehind ⟨p, hp, behind_iff.mpr ⟨by omega, hunread⟩⟩
        · exact h ⟨p, hp, onlyMarkers_iff.mpr ⟨by omega, hunread⟩⟩
    rw [hlone, hmarkers, or_iff_right hbehind, not_iff_not]
    exact Iff.comm

section Result

variable {admin : Admin} {logs : Str → Nat → TxnLog ρ} {positions : Str → Str → Nat → Option Nat}
  (hserves : Serves admin logs positions) {group topic : Str} {partitions : Nat} {ends : Dict Nat Int}
  {answer : GroupLag}

include hserves

/-- A group is reported as caught up when no partition has more than one offset past the position. -/
theorem caughtUp_eq_true (hends : endOffsets admin topic partitions = .ok ends)
    (hlag : groupLag admin group topic partitions ends = .ok answer) : answer.caughtUp = true ↔
      ∀ p < partitions, (logs topic p).stable ≤ (positions group topic p).getD 0 + 1 := by
  obtain ⟨listed, description, hlisted, _, rfl⟩ := groupLag_eq_ok.mp hlag
  simp only [List.all_eq_true, List.forall_mem_map, List.mem_range, decide_eq_true_eq]
  refine forall_congr' (fun p => imp_congr_right (fun hp => ?_))
  rw [lag_partitionLag hserves hends hlisted hp]
  omega

/-- **The setting the slack is made for**: one producer, no empty transaction and none aborted. -/
theorem caughtUp_of_committed (hends : endOffsets admin topic partitions = .ok ends)
    (hlag : groupLag admin group topic partitions ends = .ok answer)
    (hcommitted : ∀ p < partitions, ∃ producer batches,
      [] ∉ batches ∧ (logs topic p).entries = committed producer batches)
    (hstart : ∀ p < partitions, (logs topic p).start ≤ (positions group topic p).getD 0) :
    answer.caughtUp = true ↔ ∀ p < partitions, ¬ Unread (logs topic p) (positions group topic p) := by
  rw [caughtUp_eq_true hserves hends hlag]
  refine forall_congr' (fun p => imp_congr_right (fun hp => ?_))
  obtain ⟨producer, batches, hempty, hentries⟩ := hcommitted p hp
  by_contra hmisled
  rcases misled_iff.mp hmisled with hlone | hmarkers
  · exact not_loneRecord_of_transactional (hentries ▸ transactional_committed producer batches)
      (hentries ▸ allDecided_committed producer batches) hlone
  · exact not_onlyMarkers_of_isChain (hentries ▸ isChain_seen_committed producer hempty) (hstart p hp) hmarkers

/-- **On a topic without transactions the slack hides a record.** -/
theorem caughtUp_of_plain_iff (hends : endOffsets admin topic partitions = .ok ends)
    (hlag : groupLag admin group topic partitions ends = .ok answer)
    (hplain : ∀ p < partitions, Plain (logs topic p).entries)
    (hstart : ∀ p < partitions, (logs topic p).start ≤ (positions group topic p).getD 0) :
    (answer.caughtUp = true ↔ ∀ p < partitions, ¬ Unread (logs topic p) (positions group topic p)) ↔
      (∃ p < partitions, Behind (logs topic p) (positions group topic p)) ∨
        ¬ ∃ p < partitions, LoneRecord (logs topic p) (positions group topic p) := by
  have hmarkers : ¬ ∃ p < partitions, OnlyMarkers (logs topic p) (positions group topic p) := by
    rintro ⟨p, hp, hmarkers⟩
    exact not_onlyMarkers_of_plain (hplain p hp) (hstart p hp) hmarkers
  rw [caughtUp_eq_true hserves hends hlag, forall_iff_forall_iff (logs topic) (positions group topic),
    iff_false_right hmarkers]

/-- What every lag that the dashboard shows says. -/
theorem caught_up_pipeline_iff {ns : Str} {counts : Dict Str Nat} {reports : List GroupReport}
    (h : groupsOf admin counts (groups ns) Dict.empty = .ok reports) (hanswer : GroupReport.lag answer ∈ reports) :
    ∃ group topic count, (group, topic) ∈ groups ns ∧ counts.get? topic = some count ∧
      ((answer.caughtUp = true ↔ ∀ p < count, ¬ Unread (logs topic p) (positions group topic p)) ↔
        (∃ p < count, Behind (logs topic p) (positions group topic p)) ∨
          ((∃ p < count, LoneRecord (logs topic p) (positions group topic p)) ↔
            ∃ p < count, OnlyMarkers (logs topic p) (positions group topic p))) := by
  obtain ⟨group, topic, count, ends, hmem, hcount, hends, hlag⟩ := mem_groupsOf (by simp) h hanswer
  refine ⟨group, topic, count, hmem, hcount, ?_⟩
  rw [caughtUp_eq_true hserves hends hlag]
  exact forall_iff_forall_iff (logs topic) (positions group topic)

/-- **`caught_up` says whether there is something left to read, exactly when** some partition is behind by two offsets
    or more with a record among them, or lone records and runs of markers come only together. -/
theorem caught_up_iff (hends : endOffsets admin topic partitions = .ok ends)
    (hlag : groupLag admin group topic partitions ends = .ok answer) :
    (answer.caughtUp = true ↔ ∀ p < partitions, ¬ Unread (logs topic p) (positions group topic p)) ↔
      (∃ p < partitions, Behind (logs topic p) (positions group topic p)) ∨
        ((∃ p < partitions, LoneRecord (logs topic p) (positions group topic p)) ↔
          ∃ p < partitions, OnlyMarkers (logs topic p) (positions group topic p)) := by
  rw [caughtUp_eq_true hserves hends hlag]
  exact forall_iff_forall_iff (logs topic) (positions group topic)

end Result

/-! ## A cluster at rest -/

/-- A client that answers for these logs and offsets. -/
def adminOf (logs : Str → Nat → TxnLog ρ) (listed : List TopicPartition) : Admin where
  listOffsets topic p := .ok (logs topic p).stable
  listConsumerGroupOffsets _ := .ok listed
  describeConsumerGroups _ := .ok ⟨lit "stable", 1⟩

/-- One partition of one topic is written and was read up to `position`. -/
def oneLog (topic : Str) (entries : List (Entry ρ)) : Str → Nat → TxnLog ρ :=
  fun t p => if t = topic ∧ p = 0 then ⟨0, entries⟩ else ⟨0, []⟩

def onePosition (topic : Str) (position : Nat) : Str → Str → Nat → Option Nat :=
  fun _ t p => if t = topic ∧ p = 0 then some position else none

theorem serves_adminOf (topic : Str) (entries : List (Entry ρ)) (position : Nat) :
    Serves (adminOf (oneLog topic entries) [⟨topic, 0, position⟩]) (oneLog topic entries)
      (onePosition topic position) where
  listOffsets _ _ _ h := (Except.ok.inj h).symm
  isCommitted group listed h tp htp := by
    obtain rfl := Except.ok.inj h
    obtain rfl := List.mem_singleton.mp htp
    simp [onePosition, positionOf]
  isListed group listed h t p o ho := by
    obtain rfl := Except.ok.inj h
    unfold onePosition at ho
    split at ho
    · next heq => exact ⟨_, List.mem_singleton_self _, heq.1.symm, heq.2.symm⟩
    · exact absurd ho (by simp)

def rawTopic : Str := topicName defaultNamespace (lit "raw")

def cleanTopic : Str := topicName defaultNamespace (lit "clean")

theorem readTo_oneLog {topic group : Str} {entries : List (Entry ρ)} {o : Nat} {r : ρ}
    (h : (TxnLog.mk 0 entries).recordAt o = some r) (p : Nat) :
    ReadTo (oneLog topic entries topic p) (onePosition topic (o + 1) group topic p) := by
  intro position hposition
  unfold onePosition at hposition
  split at hposition
  · next hp =>
      obtain rfl := Option.some.inj hposition
      exact ⟨o, r, rfl, by rw [oneLog, if_pos hp]; exact h⟩
  · exact absurd hposition (by simp)

theorem not_unread_oneLog {topic group : Str} {entries : List (Entry ρ)} {position : Nat}
    (h : ∀ o < (TxnLog.mk 0 entries).stable, position ≤ o → (TxnLog.mk 0 entries).recordAt o = none) (p : Nat) :
    ¬ Unread (oneLog topic entries topic p) (onePosition topic position group topic p) := by
  rw [not_unread_iff, oneLog, onePosition]
  split
  · exact h
  · exact fun o ho => absurd ho (Nat.not_lt_zero o)

/-- A transaction of two records of which one is read. -/
theorem caught_up_right :
    let logs := oneLog cleanTopic [.inTxn 1 "a", .inTxn 1 "b", .commit 1]
    let admin := adminOf logs [⟨cleanTopic, 0, 1⟩]
    ∃ ends answer, endOffsets admin cleanTopic 6 = .ok ends ∧
      groupLag admin (lit "storage") cleanTopic 6 ends = .ok answer ∧
      (answer.caughtUp = true ↔
        ∀ p < 6, ¬ Unread (logs cleanTopic p) (onePosition cleanTopic 1 (lit "storage") cleanTopic p)) := by
  intro logs admin
  have hends : endOffsets admin cleanTopic 6 = .ok _ := rfl
  refine ⟨_, _, hends, rfl, ?_⟩
  refine (caught_up_iff (serves_adminOf _ _ 1) hends ?_).mpr (Or.inl ?_)
  · rfl
  · exact ⟨0, by decide, by decide, "b", by decide⟩

/-- The topic the cleaner reads is written without transactions: with one of its two records read it is reported as
    caught up. A group that has read all there is of two interleaved transactions is not. -/
theorem caught_up_misses :
    (let logs := oneLog rawTopic [.plain "a", .plain "b"]
      let admin := adminOf logs [⟨rawTopic, 0, 1⟩]
      let position := onePosition rawTopic 1 (lit "cleaner") rawTopic
      (lit "cleaner", rawTopic) ∈ groups defaultNamespace ∧ (∀ p < 6, ReadTo (logs rawTopic p) (position p)) ∧
        ∃ ends answer, endOffsets admin rawTopic 6 = .ok ends ∧
          groupLag admin (lit "cleaner") rawTopic 6 ends = .ok answer ∧ answer.caughtUp = true ∧
          Unread (logs rawTopic 0) (position 0)) ∧
    (let logs := oneLog cleanTopic [.inTxn 1 "a", .inTxn 2 "b", .commit 1, .commit 2]
      let admin := adminOf logs [⟨cleanTopic, 0, 2⟩]
      let position := onePosition cleanTopic 2 (lit "storage") cleanTopic
      (lit "storage", cleanTopic) ∈ groups defaultNamespace ∧ (∀ p < 6, ReadTo (logs cleanTopic p) (position p)) ∧
        ∃ ends answer, endOffsets admin cleanTopic 6 = .ok ends ∧
          groupLag admin (lit "storage") cleanTopic 6 ends = .ok answer ∧ answer.caughtUp = false ∧
          ∀ p < 6, ¬ Unread (logs cleanTopic p) (position p)) := by
  refine ⟨⟨by decide, ?_, _, _, rfl, rfl, by decide, 1, "b", by decide, by decide⟩,
    ⟨by decide, ?_, _, _, rfl, rfl, by decide, ?_⟩⟩
  · exact fun p _ => readTo_oneLog (r := "a") rfl p
  · exact fun p _ => readTo_oneLog (r := "b") rfl p
  · exact fun p _ => not_unread_oneLog (by decide) p

end Cluster
end Wikistream
