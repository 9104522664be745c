import Wikistream.Processors.EditWarDetector
import Wikistream.Processors.Transactional
import Wikistream.Processors.Transform
import Wikistream.Processors.Warmup

/-!
# `Processors.EditWar` — wiki.clean in, edit war alerts out

Each partition has a detector of its own. A new partition gets a fresh one that is warmed with the last window
of history up to the committed offset; the alerts of the replay are discarded.

## Contents
- **State.** `Detectors`, `detectorFor`, and the settings (`Env`).
- **Reading a record** (`clean`): the event and the time it is observed under, or nothing.
- **Hooks** (`warm`, `handle`, `periodic`) and the `editWar` processor they make up.
- **What `handle` does** (`handle_cases`).
-/

namespace Wikistream
namespace EditWar

open Py Lib Models Transform Warmup EditWarDetector

/-- The detector of each partition. -/
abbrev Detectors := Dict Nat Detector

/-- What the processor gets from outside: the host and its replayer. -/
structure Env where
  host : Host
  replayer : Warmup.Config := { windowMs := 30 * minuteMs }

/-- `detector_for`. -/
def detectorFor (detectors : Detectors) (p : Nat) : Detector := (detectors.get? p).getD {}

/-- The event of a record and the time it is observed under. A record that does not read raises `ValueError` or
    `TypeError`, which is caught. -/
def clean (host : Host) (r : KafkaRecord) : Except Exc (Option Obs) :=
  match CleanEvent.fromJson host r.payload with
  | .error e => if e.isValueOrTypeError then .ok none else .error e
  | .ok event => (eventTimeMs host event (some r.timestamp)).map (fun ms => some (event, ms))

/-- `_replay_into`. -/
def replayInto (host : Host) (det : Detector) (m : Message KafkaRecord) : Except Exc (Detector × Bool) :=
  match clean host m.record with
  | .error e => .error e
  | .ok none => .ok (det, false)
  | .ok (some o) =>
      match observe {} host det o.1 o.2 with
      | (.error e, _) => .error e
      | (.ok _, det) => .ok (det, true)

/-- One round of the loop of `warm`. -/
def warmOne (env : Env) (log : Log KafkaRecord) (committed : Dict Nat Nat) (answers : Answers) (p : Nat)
    (detectors : Detectors) : Except Exc Detectors :=
  match committed.get? p with
  | none => .ok (detectors.set p {})
  | some offset =>
      match replay env.replayer log .kafkaException (replayInto env.host) p offset answers {} with
      | .error e => .error e
      | .ok (det, _) => .ok (detectors.set p det)

/-- `warm`. -/
def warm (env : Env) (log : Log KafkaRecord) (committed : Dict Nat Nat) (answers : Nat → Answers) :
    Detectors → List Nat → Except Exc Detectors
  | detectors, [] => .ok detectors
  | detectors, p :: ps =>
      match warmOne env log committed (answers p) p detectors with
      | .error e => .error e
      | .ok detectors => warm env log committed answers detectors ps

/-- What `handle` produces for an alert. -/
def outputOf (host : Host) (alert : EditWarAlert) : Except Exc Produced := do
  let key ← encodeText alert.pageKey
  let value ← alert.toJson host
  return { topic := .alerts, key, value }

/-- `handle`. -/
def handle (env : Env) (detectors : Detectors) (m : Message KafkaRecord) :
    Except Exc (Detectors × List Produced) :=
  match clean env.host m.record with
  | .error e => .error e
  | .ok none => .ok (detectors, [])
  | .ok (some o) =>
      match observe {} env.host (detectorFor detectors m.partition) o.1 o.2 with
      | (.error e, _) => .error e
      -- also without an alert the detector has seen the revert
      | (.ok none, det) => .ok (detectors.set m.partition det, [])
      | (.ok (some alert), det) =>
          (outputOf env.host alert).map (fun out => (detectors.set m.partition det, [out]))

/-- `periodic`, when the interval is up. -/
def periodic (detectors : Detectors) : Detectors := detectors.mapVals (fun det => (expire {} det).2)

/-- The edit war detection as a subclass of `TransactionalProcessor`. -/
def editWar (env : Env) (log : Log KafkaRecord) :
    Transactional.Processor Detectors KafkaRecord Produced (Nat → Answers) Exc where
  init := Dict.empty
  handle := handle env
  partitionsAssigned committed answers detectors ps := warm env log committed answers detectors ps
  partitionsRevoked detectors ps := ps.foldl Dict.erase detectors
  periodic := periodic

/-! ## What `handle` does -/

variable {env : Env} {detectors : Detectors} {m : Message KafkaRecord} {r : Detectors × List Produced}

@[simp] theorem detectorFor_set (p q : Nat) (det : Detector) :
    detectorFor (detectors.set p det) q = if q = p then det else detectorFor detectors q := by
  unfold detectorFor
  rw [Dict.get?_set]
  split <;> rfl

/-- **What one message can do.** It does not read, or its event is observed by its partition's detector. -/
theorem handle_cases (h : handle env detectors m = .ok r) :
    (clean env.host m.record = .ok none ∧ r.1 = detectors) ∨
    ∃ o, clean env.host m.record = .ok (some o) ∧
      r.1 = detectors.set m.partition (observe {} env.host (detectorFor detectors m.partition) o.1 o.2).2 := by
  unfold handle at h
  split at h
  · exact absurd h (by simp)
  · next hclean => exact Or.inl ⟨hclean, (congrArg Prod.fst (Except.ok.inj h)).symm⟩
  · next o hclean =>
      refine Or.inr ⟨o, hclean, ?_⟩
      split at h
      · exact absurd h (by simp)
      · next det hobs =>
          obtain rfl := Except.ok.inj h
          rw [hobs]
      · next alert det hobs =>
          obtain ⟨out, _, rfl⟩ := map_eq_ok.mp h
          rw [hobs]

end EditWar
end Wikistream
