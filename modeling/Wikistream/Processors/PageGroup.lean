import Wikistream.Processors.PageTopic

/-!
# `Processors.PageGroup` — the instances of page state over one partition, and its output

Any number of instances run the shared loop over one partition of `wiki.clean`. What their transactions commit goes to
the same partition of `wiki.page-latest`, which Kafka compacts at the same time.

## Contents
- **The state** (`World`): the group, and what compaction has left of the committed records.
- **`step`**: a step of the group, for which `load_applied` reads the topic as it is, or one of compaction.
-/

namespace Wikistream
namespace PageGroup

open Py Lib PageState PageTopic Transactional

/-- What `load_applied` reads of each output partition, and how its polls go. -/
abbrev Loads := Nat → List KafkaRecord × List LoadPoll

structure World where
  group : Group Guards KafkaRecord Produced := {}
  /-- The output partition, oldest record first. -/
  topic : List KafkaRecord := []

inductive Action
  /-- A step of the loop; a transaction that commits does so at the wall clock time `now`. -/
  | loop (a : Transactional.Action Loads) (now : Int)
  /-- Compaction removes a record that has a newer one of its key. -/
  | supersede (i : Nat)
  /-- Compaction removes a tombstone that has aged out. -/
  | expire (i : Nat)

/-- All that committed transactions have produced, oldest first. -/
def published (g : Group Guards KafkaRecord Produced) : List Produced := g.commits.flatMap Commit.outputs

/-- `wiki.clean` with messages in partition `p` only. -/
def messagesOf (p : Nat) (log : List KafkaRecord) : Log KafkaRecord := fun q o => if q = p then log[o]? else none

/-- `load_applied` finds what is in the output partition. -/
def ReadsTopic (p : Nat) (w : World) : Transactional.Action Loads → Prop
  | .assign _ ps loads => p ∈ ps → (loads p).1 = w.topic
  | _ => True

instance (p : Nat) (w : World) : ∀ a, Decidable (ReadsTopic p w a)
  | .assign _ ps loads => inferInstanceAs (Decidable (p ∈ ps → (loads p).1 = w.topic))
  | .start .. | .revoke .. | .poll .. | .beginBatch .. | .handleNext .. | .commitBatch .. | .abort .. | .crash ..
  | .periodic .. => isTrue trivial

/-- The group has moved on to `g`; the records of a new transaction are in the topic. -/
def World.after (w : World) (now : Int) (g : Group Guards KafkaRecord Produced) : World where
  group := g
  topic := w.topic ++ ((g.commits.drop w.group.commits.length).flatMap Commit.outputs).map (stored now)

variable (host : Host) (p : Nat) (log : List KafkaRecord)

/-- One step of the partition. -/
def step (w : World) : Action → Option World
  | .loop a now =>
      if ReadsTopic p w a ∧ 0 < now then
        (Transactional.step (pageState host) (messagesOf p log) w.group a).map (w.after now)
      else none
  | .supersede i => if Superseded KafkaRecord.key w.topic i then some { w with topic := w.topic.eraseIdx i } else none
  | .expire i => if IsTombstone w.topic i then some { w with topic := w.topic.eraseIdx i } else none

variable {host p log}

/-- A step changes nothing but the topic, or is one of the group. -/
theorem step_cases {w w' : World} {a : Action} (h : step host p log w a = some w') :
    w'.group = w.group ∨ ∃ b now, a = .loop b now ∧ ReadsTopic p w b ∧
      Transactional.Step (pageState host) (messagesOf p log) w.group b w'.group := by
  cases a with
  | loop b now =>
      simp only [step] at h
      split at h
      · next hreads =>
          obtain ⟨g, hg, rfl⟩ := Option.map_eq_some_iff.mp h
          exact Or.inr ⟨b, now, rfl, hreads.1, step_inv hg⟩
      · exact absurd h (by simp)
  | supersede i =>
      simp only [step] at h
      split at h
      · exact Or.inl (Option.some.inj h ▸ rfl)
      · exact absurd h (by simp)
  | expire i =>
      simp only [step] at h
      split at h
      · exact Or.inl (Option.some.inj h ▸ rfl)
      · exact absurd h (by simp)

theorem partition_of_messagesOf {q o : Nat} {r : KafkaRecord} (h : messagesOf p log q o = some r) : q = p := by
  unfold messagesOf at h
  split at h
  · assumption
  · exact absurd h (by simp)

end PageGroup
end Wikistream
