import Wikistream.Correctness.CleanerLossless
import Wikistream.Correctness.HandOver
import Wikistream.Correctness.PipelineRuns
import Wikistream.Sinks.AlertsSink

/-!
# `Correctness.EndToEnd` — from a raw record to its row

The cleaner and the storage sink are two stages around wiki.clean. Each group alone loses nothing and stores nothing
twice; here they run beside each other.

## Contents
- **Routing** (`recordOf`, `routeTo`): the record an output becomes, and its partition.
- **The hand-over** (`event_comes_back`, `accepted_of_output`): what is sent can be read, and was accepted.
- **The result** (`edits_exactly_once`): what the cleaner commits is stored once, and nothing else is.
-/

namespace Wikistream
namespace EndToEnd

open Py Lib Models Transactional Pipeline PostgresSink

/-! ## Routing -/

/-- The record of an output; one without a timestamp gets the time of sending. -/
def recordOf (sentAt : Produced → Int) (out : Produced) : KafkaRecord where
  key := out.key
  value := out.value
  timestamp := if out.timestamp = 0 then sentAt out else out.timestamp

/-- The outputs for `topic`, each in the partition that the partitioner picks for its key. -/
def routeTo (topic : Topic) (partitioner : Option Bytes → Nat) (sentAt : Produced → Int) (out : Produced) :
    Option (Nat × KafkaRecord) :=
  if out.topic = topic then some (partitioner out.key, recordOf sentAt out) else none

theorem routeTo_eq_some {topic : Topic} {partitioner : Option Bytes → Nat} {sentAt : Produced → Int} {out : Produced}
    {p : Nat} {r : KafkaRecord} :
    routeTo topic partitioner sentAt out = some (p, r) ↔
      out.topic = topic ∧ partitioner out.key = p ∧ recordOf sentAt out = r := by
  unfold routeTo
  split
  · next h => simp [h]
  · next h => simp [h]

theorem payload_recordOf {sentAt : Produced → Int} {out : Produced} {b : Bytes} (h : out.value = some b) :
    (recordOf sentAt out).payload = .bytes b := by
  rw [KafkaRecord.payload, recordOf, h]

/-! ## Edits -/

section Edits

variable (env : Cleaner.Env) (raw : Log KafkaRecord) (partitioner : Option Bytes → Nat) (sentAt : Produced → Int)

/-- wiki.raw to the edits table. -/
def edits : Stages Cleaner.Caches KafkaRecord Produced (Nat → Warmup.Answers) Exc KafkaRecord (List Db.SqlValue)
    (Option Db.SqlValue) where
  processor := Cleaner.cleaner env raw
  input := raw
  route := routeTo .clean partitioner sentAt
  sink := storage env.host

variable {env raw partitioner sentAt}

/-- The action is no abort of the cleaner. -/
def NoAbort {ω : Type} : Pipeline.Action ω → Prop
  | .process a => Transactional.NoAbort a
  | .deliver .. | .expire .. | .marker .. | .store .. => True

instance {ω : Type} (a : Pipeline.Action ω) : Decidable (NoAbort a) := by
  unfold NoAbort
  split <;> infer_instance

/-- An accepted event can be read from the record it is published as. -/
theorem event_comes_back {host : Host} (hdepth : 0 < host.json.maxDepth) {r : KafkaRecord} {event : CleanEvent}
    (hacc : Cleaner.Accepts host r event) {out : Produced} (hout : Cleaner.IsOutputOf host event out) :
    CleanEvent.fromJson host (recordOf sentAt out).payload = .ok event := by
  obtain ⟨doc, hdoc, _, hevent⟩ := hacc
  obtain ⟨_, _, value, hvalue, hsent⟩ := hout
  rw [payload_recordOf hsent]
  exact HandOver.event_read hdepth (HandOver.intFits_cleanEvent (HandOver.fits_parseRaw hdoc) hevent) hvalue

/-- `transform` finds an event clean only if it was accepted. -/
theorem accepts_of_clean {host : Host} {r : KafkaRecord} {cache cache' : Dedup.DedupCache} {t : Option Int}
    {event : CleanEvent} (h : Transform.transform host r.payload cache t = .ok (.clean event, cache')) :
    Cleaner.Accepts host r event := by
  apply Cleaner.attempt_eq_some.mp
  unfold Transform.transform at h
  split at h
  · exact absurd h (by simp)
  · exact absurd h (by simp)
  · exact absurd h (by simp)
  · next event' hevent =>
      split at h
      · exact absurd h (by simp)
      · have houtcome := congrArg Prod.fst (Except.ok.inj h)
        unfold Transform.deduplicate at houtcome
        dsimp only at houtcome
        split at houtcome
        · rw [hevent, Transform.Outcome.clean.inj houtcome]
        · exact absurd houtcome (by simp)

/-- What the cleaner sends to wiki.clean is the event of a record it accepts. -/
theorem accepted_of_output {out : Produced} (h : FromLog (Cleaner.cleaner env raw) raw (fun _ => True) out)
    (htopic : out.topic = .clean) :
    ∃ p o r event, raw p o = some r ∧ Cleaner.Accepts env.host r event ∧ Cleaner.IsOutputOf env.host event out := by
  obtain ⟨m, caches, r, hm, _, hhandle, hout⟩ := h
  change Cleaner.handle env caches m = .ok r at hhandle
  unfold Cleaner.handle at hhandle
  split at hhandle
  · exact absurd hhandle (by simp)
  · next outcome cache htransform =>
      obtain ⟨outs, houts, rfl⟩ := map_eq_ok.mp hhandle
      -- only a clean event is sent there
      cases outcome with
      | clean event =>
          rw [Cleaner.outputs] at houts
          obtain ⟨key, hkey, houts⟩ := bind_eq_ok.mp houts
          obtain ⟨value, hvalue, houts⟩ := bind_eq_ok.mp houts
          obtain rfl := Except.ok.inj houts
          obtain rfl := List.mem_singleton.mp hout
          refine ⟨_, _, _, event, hm, accepts_of_clean htransform, rfl, ⟨key, hkey, rfl⟩, value,
            hvalue, rfl⟩
      | duplicate id =>
          obtain rfl := Except.ok.inj houts
          exact absurd hout List.not_mem_nil
      | skipped reason =>
          obtain rfl := Except.ok.inj houts
          exact absurd hout List.not_mem_nil
      | rejected reason payload =>
          rw [Cleaner.outputs] at houts
          obtain ⟨value, _, houts⟩ := bind_eq_ok.mp houts
          obtain rfl := Except.ok.inj houts
          obtain rfl := List.mem_singleton.mp hout
          exact absurd htopic (by simp)

/-- The event is in wiki.clean, in a committed transaction, and from when the sinks' committed offset is past it, the
    edits table has exactly one row with its id. -/
abbrev EditStored (env : Cleaner.Env) (raw : Log KafkaRecord) (partitioner : Option Bytes → Nat)
    (sentAt : Produced → Int) (s : State Cleaner.Caches KafkaRecord Produced KafkaRecord (List Db.SqlValue))
    (event : CleanEvent) : Prop :=
  StoredOnce (edits env raw partitioner sentAt) s (fun r => CleanEvent.fromJson env.host r.payload = .ok event)
    (some (.text event.eventId))

theorem works_run {acts : List (Pipeline.Action (Nat → Warmup.Answers))}
    {s : State Cleaner.Caches KafkaRecord Produced KafkaRecord (List Db.SqlValue)}
    (hrun : run (step (edits env raw partitioner sentAt)) {} acts = some s) :
    Works (edits env raw partitioner sentAt) (fun _ => True) s :=
  run_state_invariant works_init (fun _ _ _ ht _ hstep => ht.step hookInvariant_true hstep)
    (@always_of_forall _ _ _ (fun _ _ => True) (fun _ _ => trivial) _ _) hrun

/-- A cleaner that never aborts and goes on, and finds a repeated id under the same payload only, loses nothing. -/
theorem lossless_run (hsame : Cleaner.SamePayload env.host raw)
    {acts : List (Pipeline.Action (Nat → Warmup.Answers))}
    {s : State Cleaner.Caches KafkaRecord Produced KafkaRecord (List Db.SqlValue)}
    (hok : Always (step (edits env raw partitioner sentAt)) (fun _ => NoAbort) {} acts)
    (hrun : run (step (edits env raw partitioner sentAt)) {} acts = some s) :
    Cleaner.Lossless env.host raw s.group := by
  refine run_state_invariant (I := fun s => Cleaner.Lossless env.host raw s.group) Cleaner.lossless_init ?_ hok hrun
  intro t a t' ht ha hstep
  rcases (step_parts hstep).1 with hgroup | ⟨b, rfl, hmove⟩
  · exact hgroup ▸ ht
  · exact ht.step hsame ha hmove

/-- What a committed transaction sent of an accepted record is stored once. -/
theorem stored_of_committed (hdepth : 0 < env.host.json.maxDepth)
    {s : State Cleaner.Caches KafkaRecord Produced KafkaRecord (List Db.SqlValue)}
    (hworks : Works (edits env raw partitioner sentAt) (fun _ => True) s) {c : Commit KafkaRecord Produced}
    (hc : c ∈ s.group.commits) {out : Produced} (hout : out ∈ c.outputs) {r : KafkaRecord} {event : CleanEvent}
    (hacc : Cleaner.Accepts env.host r event) (his : Cleaner.IsOutputOf env.host event out) :
    EditStored env raw partitioner sentAt s event := by
  have hread := @event_comes_back sentAt _ hdepth _ _ hacc _ his
  have hroute : (edits env raw partitioner sentAt).route out = some (partitioner out.key, recordOf sentAt out) :=
    routeTo_eq_some.mpr ⟨his.1, rfl, rfl⟩
  have hrow : (edits env raw partitioner sentAt).sink.decode (recordOf sentAt out) =
      .row (Db.asRow env.host event) := decodeWith_eq_row.mpr ⟨event, hread, rfl⟩
  exact hworks.stored_once hc hout hroute hrow hread

/-- **From a raw record to its row, exactly once.** In every run of any number of cleaners and sinks, with aborts,
    crashes, restarts, rebalances, lost database connections and the records of open transactions wherever they fall in
    wiki.clean: what a committed transaction sent there is the event of an accepted record, and it is stored once; and
    every row of the table is that of an accepted record. If moreover no cleaner aborts a batch and goes on, and copies
    of an id carry the same payload, the event of every accepted record below the cleaners' committed offset is stored
    once. -/
theorem edits_exactly_once (env : Cleaner.Env) (raw : Log KafkaRecord) (partitioner : Option Bytes → Nat)
    (sentAt : Produced → Int) (hdepth : 0 < env.host.json.maxDepth)
    {acts : List (Pipeline.Action (Nat → Warmup.Answers))}
    {s : State Cleaner.Caches KafkaRecord Produced KafkaRecord (List Db.SqlValue)}
    (hrun : run (step (edits env raw partitioner sentAt)) {} acts = some s) :
    (∀ c ∈ s.group.commits, ∀ out ∈ c.outputs, out.topic = .clean → ∃ p o r event, raw p o = some r ∧
      Cleaner.Accepts env.host r event ∧ Cleaner.IsOutputOf env.host event out ∧
      EditStored env raw partitioner sentAt s event) ∧
    (∀ row ∈ s.sinks.table, ∃ p o r event, raw p o = some r ∧ Cleaner.Accepts env.host r event ∧
      row = Db.asRow env.host event) ∧
    (Cleaner.SamePayload env.host raw → Always (step (edits env raw partitioner sentAt)) (fun _ => NoAbort) {} acts →
      ∀ p c o r event, s.group.committed.get? p = some c → o < c → raw p o = some r →
        Cleaner.Accepts env.host r event → EditStored env raw partitioner sentAt s event) := by
  have hworks := works_run hrun
  refine ⟨?_, ?_, ?_⟩
  · intro c hc out hout htopic
    obtain ⟨p, o, r, event, hr, hacc, his⟩ := accepted_of_output (hworks.fromLog.commits c hc out hout) htopic
    exact ⟨p, o, r, event, hr, hacc, his, stored_of_committed hdepth hworks hc hout hacc his⟩
  · intro row hrow
    obtain ⟨commit, hcommit, out, hout, q, record, hroute, hdecode⟩ := hworks.row_from hrow
    obtain ⟨htopic, _, rfl⟩ := routeTo_eq_some.mp hroute
    obtain ⟨p, o, r, event, hr, hacc, his⟩ :=
      accepted_of_output (hworks.fromLog.commits commit hcommit out hout) htopic
    obtain ⟨event', hread, rfl⟩ := decodeWith_eq_row.mp hdecode
    have hevent := @event_comes_back sentAt _ hdepth _ _ hacc _ his
    obtain rfl := Except.ok.inj (hread.symm.trans hevent)
    exact ⟨p, o, r, event', hr, hacc, rfl⟩
  · intro hsame hok p c o r event hc ho hr hacc
    have hlossless := lossless_run hsame hok hrun
    have hhandled := hlossless.covered.committed p c hc o ho (by rw [hr]; rfl)
    obtain ⟨commit, hcommit, out, hout, his⟩ := hlossless.published p o r event hhandled hr hacc
    exact stored_of_committed hdepth hworks hcommit hout hacc his

/-- The cleaner crashes with a record of its open transaction in wiki.clean, starts again and commits; the sink's
    connection is lost after its first write. The edit, which is in wiki.raw twice, has one row. -/
theorem edits_exactly_once_after_crash :
    let env : Cleaner.Env := { host := Transform.utcHost }
    let cold : Nat → Warmup.Answers := fun _ => {}
    let stages := edits env Cleaner.editTwice (fun _ => 0) (fun _ => 0)
    let acts : List (Pipeline.Action (Nat → Warmup.Answers)) :=
      [.process (.start 0), .process (.assign 0 [0] cold), .process (.poll 0 0 0), .process (.beginBatch 0),
        .process (.handleNext 0), .deliver 0 0, .process (.crash 0), .process (.start 0),
        .process (.assign 0 [0] cold), .process (.poll 0 0 0), .process (.poll 0 0 1), .process (.beginBatch 0),
        .process (.handleNext 0), .process (.handleNext 0), .deliver 0 0, .process (.commitBatch 0),
        .store (.start 0), .store (.assign 0 [0]), .store (.poll 0 0 2), .store (.decode 0), .store (.lose 0 true),
        .store (.write 0), .store (.commit 0)]
    ∃ s, run (step stages) {} acts = some s ∧ s.sinks.committed.get? 0 = some 3 ∧ s.sinks.table.length = 1 ∧
      EditStored env Cleaner.editTwice (fun _ => 0) (fun _ => 0) s Cleaner.theEvent := by
  intro env cold stages acts
  have hrun : (run (step stages) {} acts).isSome = true := by decide +kernel
  obtain ⟨hc, hd, hrows⟩ : ((run (step stages) {} acts).get hrun).group.committed.get? 0 = some 2 ∧
      ((run (step stages) {} acts).get hrun).sinks.committed.get? 0 = some 3 ∧
      ((run (step stages) {} acts).get hrun).sinks.table.length = 1 := by
    decide +kernel +revert
  have hsame : Cleaner.SamePayload env.host Cleaner.editTwice := by
    intro p o o' r r' id hr hr' _ _
    unfold Cleaner.editTwice at hr hr'
    split at hr
    · split at hr'
      · exact (Option.some.inj hr).symm.trans (Option.some.inj hr') ▸ rfl
      · exact absurd hr' (by simp)
    · exact absurd hr (by simp)
  have hacc : Transform.attempt Transform.utcHost (.bytes Cleaner.anEdit) = .ok (some Cleaner.theEvent) := by
    decide +kernel
  refine ⟨_, (Option.some_get hrun).symm, hd, hrows, ?_⟩
  exact (edits_exactly_once env Cleaner.editTwice (fun _ => 0) (fun _ => 0) (by decide)
    (Option.some_get hrun).symm).2.2 hsame (by decide +kernel) 0 2 1 _ _ hc (by decide) rfl
    (Cleaner.attempt_eq_some.mp hacc)

end Edits

end EndToEnd
end Wikistream
