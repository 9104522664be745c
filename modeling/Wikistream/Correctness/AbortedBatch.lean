import Wikistream.Correctness.AbortedBatch.Cleaner
import Wikistream.Correctness.AbortedBatch.EditWar
import Wikistream.Correctness.AbortedBatch.PageState

/-!
# `Correctness.AbortedBatch` — when an aborted batch leaves no trace

`process_batch` handles the messages of a batch one by one, and each `handle` changes the processor's state at
once. An abort drops the outputs; nothing takes the state back.

## Contents
- **Aborts** (`aborting`, `AbortsLeaveNoTrace`): the steps of a `process_batch` that is aborted after so many
  messages, and what they leave in memory (`abortsLeaveNoTrace_iff`).
- **The result** (`aborted_batch_iff`): for each of the three processors, no trace is left if and only if every
  handled message was idle; and then duplicates and stale events are told by kept records alone.
-/

namespace Wikistream
namespace Transactional

open Lib

variable {σ ρ ο ω ε κ α : Type} {P : Processor σ ρ ο ω ε} {log : Log ρ} {ask : σ → κ → α × σ}
variable {g g' : Group σ ρ ο} {inst : Instance σ ρ ο} {i : Nat}

/-! ## Aborts -/

/-- A `process_batch` that is aborted once `n` messages are handled. -/
def aborting (i n : Nat) : List (Action ω) :=
  .beginBatch i :: (List.replicate n (.handleNext i) ++ [.abort i])

/-- An abort after at most `n` messages leaves the instance a state like the one before its batch. -/
def AbortsLeaveNoTrace (ask : σ → κ → α × σ) (P : Processor σ ρ ο ω ε) (log : Log ρ) (g : Group σ ρ ο)
    (i n : Nat) : Prop :=
  ∀ k ≤ n, ∀ g' inst inst', g.instances.get? i = some inst → run (step P log) g (aborting i k) = some g' →
    g'.instances.get? i = some inst' → Alike ask inst'.state inst.state

/-- A round of the loop handles the next message of the batch, or the instance is gone. -/
theorem step_handleNext {t : Txn ρ ο} {m : Message ρ} {todo : List (Message ρ)} (hi : g.instances.get? i = some inst)
    (htxn : inst.txn = some t) (htodo : t.todo = m :: todo) :
    step P log g (.handleNext i) = some (g.putOrCrash i (inst.handleNext P t m todo)) := by
  simp only [step, hi, htxn, htodo]

/-- **The messages handled, then the abort**: it goes through exactly if the messages are handled, and leaves the
    state they make. -/
theorem run_handleNext_abort {done rest : List (Message ρ)} {t : Txn ρ ο} (hi : g.instances.get? i = some inst)
    (htxn : inst.txn = some t) (htodo : t.todo = done ++ rest) {s : σ} :
    (∃ g' inst', run (step P log) g (List.replicate done.length (.handleNext i) ++ [.abort i]) = some g' ∧
      g'.instances.get? i = some inst' ∧ inst'.state = s) ↔ handleAll P.handle inst.state done = .ok s := by
  induction done generalizing g inst t with
  | nil =>
      have habort : run (step P log) g [.abort i] = some (g.put i inst.abort) := by
        simp [run_cons, step, hi, htxn]
      constructor
      · rintro ⟨g', inst', hrun, hi', rfl⟩
        obtain rfl := Option.some.inj (habort.symm.trans hrun)
        rw [get?_put, if_pos rfl] at hi'
        have hsame : inst.abort = inst' := Option.some.inj hi'
        exact hsame ▸ rfl
      · intro h
        refine ⟨_, inst.abort, habort, ?_, Except.ok.inj h⟩
        rw [get?_put, if_pos rfl]
  | cons m done ih =>
      have hstep := @step_handleNext _ _ _ _ _ P log g inst i t m (done ++ rest) hi htxn htodo
      rw [List.length_cons, List.replicate_succ, List.cons_append]
      simp only [run_cons, hstep, Option.bind_some]
      unfold Instance.handleNext
      cases hm : P.handle inst.state m with
      | error e =>
          -- the instance is gone, and nothing it would do is possible
          refine iff_of_false ?_ ?_
          · rintro ⟨g', inst', hrun, _⟩
            have hgone : (g.remove i).instances.get? i = none := by
              rw [get?_remove, if_pos rfl]
            change run (step P log) (g.remove i) _ = some g' at hrun
            cases done with
            | nil => exact absurd hrun (by simp [run_cons, step, hgone])
            | cons x done =>
                rw [List.length_cons, List.replicate_succ, List.cons_append] at hrun
                exact absurd hrun (by simp [run_cons, step, hgone])
          · rw [handleAll_cons]
            rintro ⟨_, _, hok, _⟩
            exact absurd (hm.symm.trans hok) (by simp)
      | ok r =>
          have hi' : (g.put i (inst.handled t m (done ++ rest) r)).instances.get? i =
              some (inst.handled t m (done ++ rest) r) := by
            rw [get?_put, if_pos rfl]
          rw [show (Except.map (inst.handled t m (done ++ rest)) (.ok r) : Except ε _) =
            .ok (inst.handled t m (done ++ rest) r) from rfl]
          refine (ih hi' rfl rfl).trans ?_
          rw [handleAll_cons]
          constructor
          · exact fun h => ⟨r.1, r.2, hm, h⟩
          · rintro ⟨s', outs, hok, h⟩
            obtain rfl := Except.ok.inj (hm.symm.trans hok)
            exact h

/-- **What an aborted `process_batch` leaves** is what the loop over the handled messages made. -/
theorem run_aborting (hi : g.instances.get? i = some inst) (htxn : inst.txn = none) (hbatch : inst.batch ≠ [])
    {done rest : List (Message ρ)} (hsplit : inst.batch = done ++ rest) {s : σ} :
    (∃ g' inst', run (step P log) g (aborting i done.length) = some g' ∧ g'.instances.get? i = some inst' ∧
      inst'.state = s) ↔ handleAll P.handle inst.state done = .ok s := by
  have hbegin : step P log g (.beginBatch i) = some (g.put i inst.beginBatch) := by
    simp [step, hi, htxn, hbatch]
  have hi' : (g.put i inst.beginBatch).instances.get? i = some inst.beginBatch := by
    rw [get?_put, if_pos rfl]
  unfold aborting
  simp only [run_cons, hbegin, Option.bind_some]
  exact run_handleNext_abort hi' rfl hsplit

theorem abortsLeaveNoTrace_iff (hi : g.instances.get? i = some inst) (htxn : inst.txn = none)
    (hbatch : inst.batch ≠ []) {n : Nat} (hn : n ≤ inst.batch.length) :
    AbortsLeaveNoTrace ask P log g i n ↔
      LeavesNoTrace ask (stateAfter P.handle) inst.state (inst.batch.take n) := by
  constructor
  · intro h done rest s hsplit hdone
    -- the messages that are dropped with the batch come behind
    have hwhole : inst.batch = done ++ (rest ++ inst.batch.drop n) := by
      rw [← List.append_assoc, ← hsplit, List.take_append_drop]
    have hle : done.length ≤ n := by
      have := congrArg List.length hsplit
      rw [List.length_take, List.length_append] at this
      omega
    obtain ⟨g', inst', hrun, hi', rfl⟩ := (@run_aborting _ _ _ _ _ P log g inst i hi htxn hbatch _ _ hwhole s).mpr hdone
    exact h done.length hle g' inst inst' hi hrun hi'
  · intro h k hk g' inst₀ inst' hi₀ hrun hi'
    obtain rfl := Option.some.inj (hi.symm.trans hi₀)
    have hlength : (inst.batch.take k).length = k := by
      rw [List.length_take]
      omega
    have hdone := (@run_aborting _ _ _ _ _ P log g inst i hi htxn hbatch (inst.batch.take k) (inst.batch.drop k)
      (List.take_append_drop k _).symm inst'.state).mp ⟨g', inst', by rw [hlength]; exact hrun, hi', rfl⟩
    have hsplit := List.take_append_drop k (inst.batch.take n)
    rw [List.take_take, Nat.min_eq_left hk] at hsplit
    exact h _ _ _ hsplit.symm hdone

end Transactional
end Wikistream

namespace Wikistream
namespace AbortedBatch

open Py Lib Models Transactional

/-- In the group `g`, whatever instance aborts whatever part of its batch: no trace is left if and only if every
    message it handled is idle. -/
def ExactlyIdle {σ ο ω κ α : Type} (ask : σ → κ → α × σ) (P : Processor σ KafkaRecord ο ω Exc)
    (log : Log KafkaRecord) (Idle : σ → Message KafkaRecord → Prop) (g : Group σ KafkaRecord ο) : Prop :=
  ∀ i inst n s, g.instances.get? i = some inst → inst.txn = none → inst.batch ≠ [] → n ≤ inst.batch.length →
    handleAll P.handle inst.state (inst.batch.take n) = .ok s →
    (AbortsLeaveNoTrace ask P log g i n ↔ ∀ m ∈ inst.batch.take n, Idle inst.state m)

/-- **When an aborted batch leaves no trace in memory.** For the cleaner in every state of every run, and for the
    edit war detection and the page state in any state: exactly if every handled record was idle. And as long as
    every batch that was aborted was idle, the cleaner drops only repeats of what it held at the start or of a
    record of a committed batch, and an event is stale only against a time from the start or of such a record. -/
theorem aborted_batch_iff (env : Cleaner.Env) (wars : EditWar.Env) (log : Log KafkaRecord) (host : Host) :
    (∀ acts g, run (step (Cleaner.cleaner env log) log) {} acts = some g →
      ExactlyIdle Cleaner.ask (Cleaner.cleaner env log) log (Cleaner.Idle env.host) g) ∧
    ((∃ comment, wars.host.isRevertComment comment = true) → ∀ g,
      ExactlyIdle (EditWar.ask wars.host) (EditWar.editWar wars log) log (EditWar.Idle wars.host) g) ∧
    (∀ g, ExactlyIdle PageState.ask (PageState.pageState host) log (PageState.Idle host) g) ∧
    (∀ caches history t, Cleaner.Regular caches →
      workThrough (stateAfter (Cleaner.handle env)) caches history = .ok t →
      BrokenOffIdle (stateAfter (Cleaner.handle env)) (Cleaner.Idle env.host) caches history →
      ∀ (m : Message KafkaRecord) id time, Cleaner.eventOf env.host m.record = some (id, time) →
        Cleaner.isDuplicate env t m = true →
        id ∈ (Cleaner.cacheFor caches m.partition).ids ∨ ∃ x ∈ kept history, x.partition = m.partition ∧
          ∃ time', Cleaner.eventOf env.host x.record = some (id, time')) ∧
    (∀ guards history t, workThrough (stateAfter (PageState.handle host)) guards history = .ok t →
      BrokenOffIdle (stateAfter (PageState.handle host)) (PageState.Idle host) guards history →
      ∀ p key timeMs, PageState.isStale (PageState.appliedFor t p) key timeMs = true →
        timeMs < PageState.guardOf (PageState.appliedFor guards p) key ∨
          ∃ m ∈ kept history, m.partition = p ∧
            ∃ record newer, PageState.updateOf host m.record = some (key, record, newer) ∧ timeMs < newer) := by
  refine ⟨?_, ?_, ?_, ?_, ?_⟩
  · intro acts g hrun i inst n s hi htxn hbatch hn hwork
    rw [abortsLeaveNoTrace_iff hi htxn hbatch hn]
    exact (Cleaner.idleness env).leavesNoTrace_iff (Cleaner.regular_of_run hrun hi) hwork
  · intro hrevert g i inst n s hi htxn hbatch hn hwork
    rw [abortsLeaveNoTrace_iff hi htxn hbatch hn]
    exact (EditWar.idleness wars hrevert).leavesNoTrace_iff trivial hwork
  · intro g i inst n s hi htxn hbatch hn hwork
    rw [abortsLeaveNoTrace_iff hi htxn hbatch hn]
    exact (PageState.idleness host).leavesNoTrace_iff trivial hwork
  · intro caches history t hfit hwork hidle m id time hevent hdup
    exact Cleaner.duplicate_of_kept hfit hwork hidle hevent hdup
  · intro guards history t hwork hidle p key timeMs hstale
    exact PageState.stale_against hwork hidle hstale

/-! ## The edit that was aborted, and the edit that was committed before -/

section Edits

open Cleaner Transform

/-- The second copy of the edit, as it is polled. -/
def secondCopy : Message KafkaRecord := ⟨0, 1, { value := some anEdit, timestamp := 1000 }⟩

/-- Once the first copy is committed the second is idle: its batch may be aborted, and no trace is left. -/
theorem aborted_repeat_no_trace :
    let P := cleaner { host := utcHost } editTwice
    ∃ g, run (step P editTwice) {} [.start 0, .assign 0 [0] (fun _ => {}), .poll 0 0 0, .beginBatch 0,
        .handleNext 0, .commitBatch 0, .poll 0 0 1] = some g ∧
      AbortsLeaveNoTrace ask P editTwice g 0 1 := by
  have h : (run (step (cleaner { host := utcHost } editTwice) editTwice) {} [.start 0, .assign 0 [0] (fun _ => {}),
      .poll 0 0 0, .beginBatch 0, .handleNext 0, .commitBatch 0, .poll 0 0 1]).bind (fun g =>
        (g.instances.get? 0).bind (fun inst =>
          (handleAll (handle { host := utcHost }) inst.state (inst.batch.take 1)).toOption.map (fun _ =>
            (inst.txn.isSome, inst.batch, decide ((cacheFor inst.state 0).Settled (lit "a") 1000))))) =
      some (false, [secondCopy], true) := by
    decide +kernel
  obtain ⟨g, hg, h⟩ := Option.bind_eq_some_iff.mp h
  obtain ⟨inst, hinst, h⟩ := Option.bind_eq_some_iff.mp h
  obtain ⟨s, hs, h⟩ := toOption_map h
  obtain ⟨htxn, h⟩ := Prod.mk.inj h
  obtain ⟨hbatch, hsettled⟩ := Prod.mk.inj h
  have hevent : eventOf utcHost secondCopy.record = some (lit "a", 1000) := by decide +kernel
  have hcleaner := (aborted_batch_iff { host := utcHost } { host := utcHost } editTwice utcHost).1
  refine ⟨g, hg, (hcleaner _ _ hg 0 inst 1 s hinst ?_ ?_ ?_ hs).mpr ?_⟩
  · exact Option.not_isSome_iff_eq_none.mp (by simp [htxn])
  · simp [hbatch]
  · simp [hbatch]
  · intro m hm id t hid
    rw [hbatch] at hm
    obtain rfl := List.mem_singleton.mp hm
    obtain ⟨rfl, rfl⟩ := Prod.mk.inj (Option.some.inj (hevent.symm.trans hid))
    exact of_decide_eq_true hsettled

/-- The cleaner takes the second copy for new, handles the first in a transaction that is aborted, and then takes the
    second for a duplicate, with nothing committed. -/
theorem aborted_edit_held :
    let P := cleaner { host := utcHost } editTwice
    ∃ g g' inst inst', run (step P editTwice) {} [.start 0, .assign 0 [0] (fun _ => {}), .poll 0 0 0] = some g ∧
      g.instances.get? 0 = some inst ∧ run (step P editTwice) g (aborting 0 1) = some g' ∧
      g'.instances.get? 0 = some inst' ∧ g'.commits.length = 0 ∧
      isDuplicate { host := utcHost } inst.state secondCopy = false ∧
      isDuplicate { host := utcHost } inst'.state secondCopy = true := by
  have h : ((run (step (cleaner { host := utcHost } editTwice) editTwice) {}
      [.start 0, .assign 0 [0] (fun _ => {}), .poll 0 0 0]).bind (fun g =>
      (g.instances.get? 0).bind (fun inst =>
        (run (step (cleaner { host := utcHost } editTwice) editTwice) g (aborting 0 1)).bind (fun g' =>
          (g'.instances.get? 0).map (fun inst' => (g'.commits.length,
            isDuplicate { host := utcHost } inst.state secondCopy,
            isDuplicate { host := utcHost } inst'.state secondCopy)))))) = some (0, false, true) := by
    decide +kernel
  obtain ⟨g, hg, h⟩ := Option.bind_eq_some_iff.mp h
  obtain ⟨inst, hinst, h⟩ := Option.bind_eq_some_iff.mp h
  obtain ⟨g', hg', h⟩ := Option.bind_eq_some_iff.mp h
  obtain ⟨inst', hinst', h⟩ := Option.map_eq_some_iff.mp h
  obtain ⟨hcommits, h⟩ := Prod.mk.inj h
  obtain ⟨hbefore, hafter⟩ := Prod.mk.inj h
  exact ⟨g, g', inst, inst', hg, hinst, hg', hinst', hcommits, hbefore, hafter⟩

end Edits

end AbortedBatch
end Wikistream
