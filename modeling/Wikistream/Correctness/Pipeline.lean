import Wikistream.Correctness.ExactlyOnce
import Wikistream.Correctness.Storage
import Wikistream.Lib.TxnAppend
import Mathlib.Data.List.Perm.Basic

/-!
# `Correctness.Pipeline` — a transactional group, the topic it writes and the group that stores the topic

Two stages run beside each other. The producers of the first append to the partitions of a topic, each record when
its producer gets round to it, and the markers of their transactions end up between the records. The sinks of the
second read the topic as it stands, up to the last stable offset.

## Contents
- **The two stages** (`Stages`, `State`, `Action`, `step`). A producer that is gone leaves an open transaction behind;
  the broker ends it after its timeout, or when a process with the same transactional id starts.
- **The invariant of the topic** (`Flows`): its committed records are what the committed transactions produced.
- **One step** keeps it (`Flows.step`), and only ever adds to the topic (`prefix_step`).
-/

namespace Wikistream
namespace Pipeline

open Lib Transactional

/-- What the two stages are. `ο` is an output of the processor, `π` a record of the topic between them. -/
structure Stages (σ ρ ο ω ε π ν κ : Type) where
  processor : Processor σ ρ ο ω ε
  input : Log ρ
  /-- The partition and the record of an output, if it goes to the topic. -/
  route : ο → Option (Nat × π)
  sink : PostgresSink.Sink π ν κ

structure State (σ ρ ο π ν : Type) where
  group : Group σ ρ ο := {}
  topic : Nat → List (Entry π) := fun _ => []
  /-- The records that a producer accepted and the topic does not have yet, with their partitions. -/
  queued : Nat → List (Nat × π) := fun _ => []
  sinks : PostgresSink.Group π ν := {}

inductive Action (ω : Type)
  | process (a : Transactional.Action ω)
  /-- The `k`-th record in the queue of producer `i` reaches its partition. -/
  | deliver (i k : Nat)
  /-- The transaction of a producer that is gone is aborted. -/
  | expire (i : Nat)
  /-- A marker of producer `i` in a partition that none of the records of its transaction reached. -/
  | marker (i p : Nat)
  | store (a : PostgresSink.Action)

variable {σ ρ ο ω ε π ν κ : Type} (S : Stages σ ρ ο ω ε π ν κ)

/-- The marker goes to every partition that has records of the producer's transaction. -/
def conclude (i : Nat) (marker : Entry π) (topic : Nat → List (Entry π)) : Nat → List (Entry π) := fun p =>
  match opened i (topic p) with
  | [] => topic p
  | _ :: _ => topic p ++ [marker]

def setQueue (queued : Nat → List (Nat × π)) (i : Nat) (records : List (Nat × π)) : Nat → List (Nat × π) :=
  Function.update queued i records

/-- What the processor produces for the message it handles next. -/
def produced (g : Group σ ρ ο) (i : Nat) : List ο :=
  match g.instances.get? i with
  | none => []
  | some inst =>
      match inst.txn with
      | none => []
      | some t =>
          match t.todo with
          | [] => []
          | m :: _ =>
              match S.processor.handle inst.state m with
              | .error _ => []
              | .ok r => r.2

/-- An action of the processors, which leaves them as `g`, seen from the producers and the topic. -/
def follow (s : State σ ρ ο π ν) (g : Group σ ρ ο) : Transactional.Action ω → Option (State σ ρ ο π ν)
  | .handleNext i =>
      some { s with
        group := g
        queued := setQueue s.queued i (s.queued i ++ (produced S s.group i).filterMap S.route) }
  | .commitBatch i =>
      match s.queued i with
      -- `commit_transaction` flushes the producer first
      | [] => some { s with group := g, topic := conclude i (.commit i) s.topic }
      | _ :: _ => none
  | .abort i =>
      some { s with group := g, topic := conclude i (.abort i) s.topic, queued := setQueue s.queued i [] }
  | .start i =>
      -- `init_transactions` ends what a process with the same transactional id left open, and fences it off
      some { s with group := g, topic := conclude i (.abort i) s.topic, queued := setQueue s.queued i [] }
  | .assign .. | .revoke .. | .poll .. | .beginBatch .. | .periodic .. | .crash .. => some { s with group := g }

/-- One step of the two stages. -/
def step [DecidableEq κ] (s : State σ ρ ο π ν) : Action ω → Option (State σ ρ ο π ν)
  | .process a => (Transactional.step S.processor S.input s.group a).bind (fun g => follow S s g a)
  | .deliver i k =>
      match (s.queued i)[k]? with
      | none => none
      | some (p, r) =>
          some { s with
            topic := Function.update s.topic p (s.topic p ++ [.inTxn i r])
            queued := setQueue s.queued i ((s.queued i).eraseIdx k) }
  | .expire i =>
      match s.group.instances.get? i with
      | some _ => none
      | none => some { s with topic := conclude i (.abort i) s.topic, queued := setQueue s.queued i [] }
  | .marker i p =>
      match opened i (s.topic p) with
      | _ :: _ => none
      | [] => some { s with topic := Function.update s.topic p (s.topic p ++ [.abort i]) }
  | .store a =>
      (PostgresSink.step S.sink (view s.topic) s.sinks a).map (fun sinks => { s with sinks := sinks })

/-! ## The topic -/

/-- The topic has the record at some offset, in a committed transaction. -/
def Has (topic : Nat → List (Entry π)) (p : Nat) (r : π) : Prop := ∃ o, settledAt (topic p) o = some r

/-- What the open transaction of an instance has produced. -/
def emitted (inst : Instance σ ρ ο) : List ο :=
  match inst.txn with
  | none => []
  | some t => t.outputs

/-- What went into the topic is what was produced. -/
structure Flows (s : State σ ρ ο π ν) : Prop where
  /-- The committed records are the outputs of the committed transactions. -/
  settled : ∀ p r, Has s.topic p r ↔ ∃ c ∈ s.group.commits, ∃ out ∈ c.outputs, S.route out = some (p, r)
  /-- What an instance has queued and delivered is what its open transaction produced. -/
  pending : ∀ i inst, s.group.instances.get? i = some inst → ∀ p r,
    ((p, r) ∈ s.queued i ∨ r ∈ opened i (s.topic p)) ↔
      ∃ out ∈ emitted inst, S.route out = some (p, r)

variable {S} {s s' : State σ ρ ο π ν} {topic : Nat → List (Entry π)} {i j p q : Nat} {r : π} {e : Entry π}

/-- A marker concerns its own producer only. -/
theorem opened_conclude (topic : Nat → List (Entry π)) (he : e = .commit i ∨ e = .abort i) (j p : Nat) :
    opened j (conclude i e topic p) = if i = j then [] else opened j (topic p) := by
  unfold conclude
  split
  · next hnone =>
      split
      · next hij => rw [← hij, hnone]
      · rfl
  · exact opened_snoc_marker _ j i he

theorem has_conclude_abort : Has (conclude i (.abort i) topic) p r ↔ Has topic p r := by
  unfold Has conclude
  split
  · rfl
  · simp only [settledAt_snoc_abort]

theorem has_conclude_commit : Has (conclude i (.commit i) topic) p r ↔ Has topic p r ∨ r ∈ opened i (topic p) := by
  unfold Has conclude
  split
  · next hnone => simp [hnone]
  · exact settled_commit _ _ _

theorem prefix_conclude (topic : Nat → List (Entry π)) (i : Nat) (e : Entry π) (p : Nat) :
    topic p <+: conclude i e topic p := by
  unfold conclude
  split
  · exact List.prefix_refl _
  · exact List.prefix_append _ _

theorem prefix_update (topic : Nat → List (Entry π)) (q : Nat) (e : Entry π) (p : Nat) :
    topic p <+: Function.update topic q (topic q ++ [e]) p := by
  by_cases hp : p = q
  · subst hp
    simp
  · simp [Function.update_of_ne hp]

/-! ## One step -/

section Step

variable {inst inst' : Instance σ ρ ο} {g : Group σ ρ ο} {queued : Nat → List (Nat × π)}

theorem emitted_of_txn {t : Txn ρ ο} (h : inst.txn = some t) : emitted inst = t.outputs := by
  rw [emitted, h]

theorem emitted_of_txn_none (h : inst.txn = none) : emitted inst = [] := by
  rw [emitted, h]

theorem setQueue_self (queued : Nat → List (Nat × π)) (i : Nat) (records : List (Nat × π)) :
    setQueue queued i records i = records := Function.update_self ..

theorem setQueue_ne (queued : Nat → List (Nat × π)) (records : List (Nat × π)) (h : j ≠ i) :
    setQueue queued i records j = queued j := Function.update_of_ne h ..

theorem flows_init : Flows S ({} : State σ ρ ο π ν) where
  settled p r := by
    constructor
    · rintro ⟨o, h⟩
      exact absurd h (by simp [settledAt])
    · rintro ⟨c, hc, _⟩
      exact absurd hc (by simp)
  pending i inst hi := absurd hi (by simp)

/-- The processors moved, and no producer noticed. -/
theorem Flows.withGroup (h : Flows S s) (hcommits : g.commits = s.group.commits)
    (hinst : ∀ i inst', g.instances.get? i = some inst' →
      ∃ inst, s.group.instances.get? i = some inst ∧ emitted inst' = emitted inst) :
    Flows S { s with group := g } where
  settled p r := by
    rw [hcommits]
    exact h.settled p r
  pending i inst' hi p r := by
    obtain ⟨inst, hold, hsame⟩ := hinst i inst' hi
    rw [hsame]
    exact h.pending i inst hold p r

/-- An instance changed, but not what it emitted. -/
theorem Flows.put (h : Flows S s) (hi : s.group.instances.get? i = some inst) (hsame : emitted inst' = emitted inst) :
    Flows S { s with group := s.group.put i inst' } := by
  refine h.withGroup rfl (fun j other hj => ?_)
  rw [get?_put] at hj
  split at hj
  · next hji => exact ⟨inst, hji ▸ hi, (Option.some.inj hj) ▸ hsame⟩
  · exact ⟨other, hj, rfl⟩

theorem Flows.remove (h : Flows S s) (i : Nat) : Flows S { s with group := s.group.remove i } := by
  refine h.withGroup rfl (fun j other hj => ?_)
  rw [get?_remove] at hj
  split at hj
  · exact absurd hj (by simp)
  · exact ⟨other, hj, rfl⟩

/-- A producer whose transaction is ended has nothing left. -/
theorem pending_cleared (he : e = .commit i ∨ e = .abort i) :
    ((p, r) ∈ setQueue queued i [] j ∨ r ∈ opened j (conclude i e topic p)) ↔
      i ≠ j ∧ ((p, r) ∈ queued j ∨ r ∈ opened j (topic p)) := by
  rw [opened_conclude topic he]
  by_cases hij : i = j
  · subst hij
    simp [setQueue_self]
  · simp [setQueue_ne _ _ (Ne.symm hij), hij]

/-- The transaction of a producer is aborted, and its instance, if there is one, starts afresh. -/
theorem Flows.aborted (h : Flows S s) (hcommits : g.commits = s.group.commits)
    (hinst : ∀ j inst', g.instances.get? j = some inst' →
      (j = i ∧ emitted inst' = []) ∨ (j ≠ i ∧ s.group.instances.get? j = some inst')) :
    Flows S { s with group := g, topic := conclude i (.abort i) s.topic, queued := setQueue s.queued i [] } where
  settled p r := by
    rw [has_conclude_abort, hcommits]
    exact h.settled p r
  pending j inst' hj p r := by
    rw [pending_cleared (Or.inr rfl)]
    rcases hinst j inst' hj with ⟨rfl, hnone⟩ | ⟨hne, hold⟩
    · simp [hnone]
    · rw [h.pending j inst' hold p r]
      exact and_iff_right (Ne.symm hne)

theorem Flows.handled (h : Flows S s) {t : Txn ρ ο} {m : Message ρ} {todo : List (Message ρ)} {out : σ × List ο}
    (hi : s.group.instances.get? i = some inst) (htxn : inst.txn = some t) :
    Flows S { s with
      group := s.group.put i (inst.handled t m todo out)
      queued := setQueue s.queued i (s.queued i ++ out.2.filterMap S.route) } where
  settled := h.settled
  pending j inst' hj p r := by
    rw [get?_put] at hj
    split at hj
    · next hji =>
        subst hji
        obtain rfl := Option.some.inj hj
        have hnew : emitted (inst.handled t m todo out) = t.outputs ++ out.2 := rfl
        have hold := h.pending j inst hi p r
        rw [emitted_of_txn htxn] at hold
        dsimp only
        rw [hnew, setQueue_self, List.mem_append, or_right_comm, hold, List.mem_filterMap]
        simp only [List.mem_append, or_and_right, exists_or]
    · next hji =>
        dsimp only
        rw [setQueue_ne _ _ hji]
        exact h.pending j inst' hj p r

/-- **A commit settles what its transaction produced.** -/
theorem Flows.commit (h : Flows S s) {t : Txn ρ ο} (hi : s.group.instances.get? i = some inst)
    (htxn : inst.txn = some t) (hflushed : s.queued i = []) :
    Flows S { s with group := s.group.commit i inst t, topic := conclude i (.commit i) s.topic } where
  settled p r := by
    have hpending := h.pending i inst hi p r
    rw [emitted_of_txn htxn, hflushed] at hpending
    simp only [List.not_mem_nil, false_or] at hpending
    rw [has_conclude_commit, h.settled, hpending]
    change _ ↔ ∃ c ∈ s.group.commits ++ [⟨t.handled, t.outputs⟩], _
    simp [or_and_right, exists_or]
  pending j inst' hj p r := by
    have hqueue : s.queued = setQueue s.queued i [] := by
      rw [setQueue, ← hflushed, Function.update_eq_self]
    rw [hqueue, pending_cleared (Or.inl rfl)]
    rw [get?_commit] at hj
    split at hj
    · next hji =>
        subst hji
        obtain rfl := Option.some.inj hj
        simp [emitted, Instance.closeTxn]
    · next hji =>
        rw [h.pending j inst' hj p r]
        exact and_iff_right (Ne.symm hji)

/-- A record moves from the queue to the topic. -/
theorem Flows.delivered (h : Flows S s) {k : Nat} (hk : (s.queued i)[k]? = some (q, r)) :
    Flows S { s with
      topic := Function.update s.topic q (s.topic q ++ [.inTxn i r])
      queued := setQueue s.queued i ((s.queued i).eraseIdx k) } where
  settled p x := by
    rw [← h.settled p x]
    dsimp only [Has]
    by_cases hp : p = q
    · subst hp
      simp only [Function.update_self, settledAt_snoc_inTxn]
    · simp only [Function.update_of_ne hp]
  pending j inst hj p x := by
    rw [← h.pending j inst hj p x]
    dsimp only
    have hopened : opened j (Function.update s.topic q (s.topic q ++ [.inTxn i r]) p) =
        opened j (s.topic p) ++ (if p = q ∧ i = j then [r] else []) := by
      by_cases hp : p = q
      · subst hp
        rw [Function.update_self, opened_snoc_inTxn]
        simp
      · rw [Function.update_of_ne hp, if_neg (fun hc => hp hc.1), List.append_nil]
    rw [hopened]
    by_cases hij : i = j
    · subst hij
      obtain ⟨hlt, hget⟩ := List.getElem?_eq_some_iff.mp hk
      have hperm := List.getElem_cons_eraseIdx_perm hlt
      rw [setQueue_self, ← hperm.mem_iff, hget]
      by_cases hp : p = q
      · subst hp
        simp
        tauto
      · simp [hp]
    · rw [setQueue_ne _ _ (Ne.symm hij)]
      simp [hij]

/-- A marker of a producer that has nothing in the partition. -/
theorem Flows.marked (h : Flows S s) (hnone : opened i (s.topic q) = []) :
    Flows S { s with topic := Function.update s.topic q (s.topic q ++ [.abort i]) } where
  settled p x := by
    rw [← h.settled p x]
    dsimp only [Has]
    by_cases hp : p = q
    · subst hp
      simp only [Function.update_self, settledAt_snoc_abort]
    · simp only [Function.update_of_ne hp]
  pending j inst hj p x := by
    rw [← h.pending j inst hj p x]
    dsimp only
    by_cases hp : p = q
    · subst hp
      rw [Function.update_self, opened_snoc_marker _ j i (Or.inr rfl)]
      split
      · next hij => rw [← hij, hnone]
      · rfl
    · rw [Function.update_of_ne hp]

theorem produced_eq {t : Txn ρ ο} {m : Message ρ} {todo : List (Message ρ)} {out : σ × List ο}
    (hi : s.group.instances.get? i = some inst) (htxn : inst.txn = some t) (htodo : t.todo = m :: todo)
    (hook : S.processor.handle inst.state m = .ok out) : produced S s.group i = out.2 := by
  simp only [produced, hi, htxn, htodo, hook]

/-- The queue of a producer that is gone does not matter. -/
theorem Flows.withQueue (h : Flows S s) (hgone : s.group.instances.get? i = none) (records : List (Nat × π)) :
    Flows S { s with queued := setQueue s.queued i records } where
  settled := h.settled
  pending j inst hj p r := by
    have hji : j ≠ i := by
      rintro rfl
      exact absurd (hgone.symm.trans hj) (by simp)
    dsimp only
    rw [setQueue_ne _ _ hji]
    exact h.pending j inst hj p r

/-- **The producers keep up with the processors.** -/
theorem Flows.process (h : Flows S s) {a : Transactional.Action ω}
    (hmove : Step S.processor S.input s.group a g) (hfollow : follow S s g a = some s') : Flows S s' := by
  cases hmove with
  | @start i hi =>
      obtain rfl := Option.some.inj hfollow
      refine h.aborted rfl (fun j inst' hj => ?_)
      rw [get?_put] at hj
      split at hj
      · next hji => exact Or.inl ⟨hji, (Option.some.inj hj) ▸ rfl⟩
      · next hji => exact Or.inr ⟨hji, hj⟩
  | assign hi =>
      obtain rfl := Option.some.inj hfollow
      exact h.put hi rfl
  | revoke hi htxn =>
      obtain rfl := Option.some.inj hfollow
      rw [onRevoke_of_txn_none _ htxn]
      exact h.put hi rfl
  | poll hi =>
      obtain rfl := Option.some.inj hfollow
      exact h.put hi rfl
  | beginBatch hi htxn =>
      obtain rfl := Option.some.inj hfollow
      exact h.put hi (emitted_of_txn_none htxn).symm
  | handleNext hi htxn htodo hook =>
      obtain rfl := Option.some.inj hfollow
      rw [produced_eq hi htxn htodo hook]
      exact h.handled hi htxn
  | commitBatch hi htxn =>
      unfold follow at hfollow
      dsimp only at hfollow
      split at hfollow
      · next hflushed =>
          obtain rfl := Option.some.inj hfollow
          exact h.commit hi htxn hflushed
      · exact absurd hfollow (by simp)
  | @abort i inst t hi htxn =>
      obtain rfl := Option.some.inj hfollow
      refine h.aborted rfl (fun j inst' hj => ?_)
      rw [get?_put] at hj
      split at hj
      · next hji => exact Or.inl ⟨hji, (Option.some.inj hj) ▸ rfl⟩
      · next hji => exact Or.inr ⟨hji, hj⟩
  | periodic hi =>
      obtain rfl := Option.some.inj hfollow
      exact h.put hi rfl
  | @die i a ha =>
      have hgone : (s.group.remove i).instances.get? i = none := by rw [get?_remove, if_pos rfl]
      rcases ha with rfl | rfl | ⟨ps, answers, rfl⟩
      · obtain rfl := Option.some.inj hfollow
        exact h.remove i
      · obtain rfl := Option.some.inj hfollow
        exact (h.remove i).withQueue hgone _
      · obtain rfl := Option.some.inj hfollow
        exact h.remove i

variable [DecidableEq κ]

/-- **One step of the two stages** keeps the topic in line with the commits. -/
theorem Flows.step (h : Flows S s) {a : Action ω} (hstep : step S s a = some s') : Flows S s' := by
  cases a with
  | process a =>
      obtain ⟨g, hgroup, hfollow⟩ := Option.bind_eq_some_iff.mp hstep
      exact h.process (step_inv hgroup) hfollow
  | deliver i k =>
      simp only [Pipeline.step] at hstep
      split at hstep
      · exact absurd hstep (by simp)
      · next hk =>
          obtain rfl := Option.some.inj hstep
          exact h.delivered hk
  | expire i =>
      simp only [Pipeline.step] at hstep
      split at hstep
      · exact absurd hstep (by simp)
      · next hgone =>
          obtain rfl := Option.some.inj hstep
          refine h.aborted rfl (fun j inst hj => Or.inr ⟨?_, hj⟩)
          rintro rfl
          exact absurd (hgone.symm.trans hj) (by simp)
  | marker i p =>
      simp only [Pipeline.step] at hstep
      split at hstep
      · exact absurd hstep (by simp)
      · next hnone =>
          obtain rfl := Option.some.inj hstep
          exact h.marked hnone
  | store a =>
      obtain ⟨sinks, _, rfl⟩ := Option.map_eq_some_iff.mp hstep
      exact ⟨h.settled, h.pending⟩

/-- Nothing is ever taken out of the topic. -/
theorem prefix_step {a : Action ω} (hstep : step S s a = some s') (p : Nat) : s.topic p <+: s'.topic p := by
  cases a with
  | process a =>
      obtain ⟨g, _, hfollow⟩ := Option.bind_eq_some_iff.mp hstep
      unfold follow at hfollow
      split at hfollow
      · obtain rfl := Option.some.inj hfollow
        exact List.prefix_refl _
      · split at hfollow
        · obtain rfl := Option.some.inj hfollow
          exact prefix_conclude _ _ _ _
        · exact absurd hfollow (by simp)
      · obtain rfl := Option.some.inj hfollow
        exact prefix_conclude _ _ _ _
      · obtain rfl := Option.some.inj hfollow
        exact prefix_conclude _ _ _ _
      all_goals
        obtain rfl := Option.some.inj hfollow
        exact List.prefix_refl _
  | deliver i k =>
      simp only [Pipeline.step] at hstep
      split at hstep
      · exact absurd hstep (by simp)
      · obtain rfl := Option.some.inj hstep
        exact prefix_update _ _ _ _
  | expire i =>
      simp only [Pipeline.step] at hstep
      split at hstep
      · exact absurd hstep (by simp)
      · obtain rfl := Option.some.inj hstep
        exact prefix_conclude _ _ _ _
  | marker i q =>
      simp only [Pipeline.step] at hstep
      split at hstep
      · exact absurd hstep (by simp)
      · obtain rfl := Option.some.inj hstep
        exact prefix_update _ _ _ _
  | store a =>
      obtain ⟨sinks, _, rfl⟩ := Option.map_eq_some_iff.mp hstep
      exact List.prefix_refl _

end Step

end Pipeline
end Wikistream
