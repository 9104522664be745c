import Wikistream.Correctness.Pipeline

/-!
# `Correctness.PipelineRuns` — what the second stage stores of what the first one commits

The sinks read a topic that keeps growing. Whatever they did so far they could have done with the topic as it is now,
so what holds of sinks on a fixed topic holds of them.

## Contents
- **The sinks** (`ReadsTopic`) and their offsets, which never pass the end of the topic (`committed_le`).
- **Provenance** (`AllFromLog`): a processor makes nothing up.
- **Runs** (`Works`): a committed output has its row, and only one, from when the sinks' offset is past it
  (`StoredOnce`, `Works.stored_once`), and every row is that of a committed output (`Works.row_from`), for any
  processor, any routing of its outputs and any sink.
-/

namespace Wikistream
namespace Pipeline

open Lib Transactional

variable {σ ρ ο ω ε π ν κ : Type} {S : Stages σ ρ ο ω ε π ν κ} {s s' : State σ ρ ο π ν}

/-! ## The sinks -/

section Sinks

variable [DecidableEq κ] {P : PostgresSink.Sink π ν κ} {log log' : Log π} {g g' : PostgresSink.Group π ν}

/-- What a sink can do, it can do when more has been written. -/
theorem sink_step_grows (hgrows : Grows log log') {a : PostgresSink.Action}
    (hstep : PostgresSink.step P log g a = some g') : PostgresSink.step P log' g a = some g' := by
  cases a with
  | poll i p o =>
      simp only [PostgresSink.step] at hstep ⊢
      split at hstep
      · split at hstep
        · next cur r hcur hr =>
            split at hstep
            · next hok =>
                simp only [hcur, hgrows.eq_some hr]
                rw [if_pos ⟨hok.1, hgrows.nextVisible hr hok.2⟩]
                exact hstep
            · exact absurd hstep (by simp)
        · exact absurd hstep (by simp)
      · exact absurd hstep (by simp)
  | start i => exact hstep
  | assign i ps => exact hstep
  | revoke i ps => exact hstep
  | decode i => exact hstep
  | write i => exact hstep
  | lose i applied => exact hstep
  | commit i => exact hstep
  | crash i => exact hstep

theorem sink_run_grows (hgrows : Grows log log') {acts : List PostgresSink.Action}
    (hrun : run (PostgresSink.step P log) g acts = some g') : run (PostgresSink.step P log') g acts = some g' := by
  induction acts generalizing g with
  | nil => exact hrun
  | cons a acts ih =>
      obtain ⟨u, hu, hrest⟩ := Option.bind_eq_some_iff.mp hrun
      rw [run_cons, sink_step_grows hgrows hu]
      exact ih hrest

/-- The cursors are not past the ends `n` of the partitions. -/
def CursorsWithin (n : Nat → Nat) (cursors : Dict Nat Cursor) : Prop :=
  ∀ p cur, cursors.get? p = some cur → cur.fetch ≤ n p ∧ ∀ q, cur.position = some q → q ≤ n p

/-- No offset is past the ends of the partitions. -/
structure Within (n : Nat → Nat) (g : PostgresSink.Group π ν) : Prop where
  committed : ∀ p c, g.committed.get? p = some c → c ≤ n p
  cursors : ∀ i inst, g.instances.get? i = some inst → CursorsWithin n inst.cursors

variable {n : Nat → Nat} {cursors : Dict Nat Cursor} {i : Nat}

theorem cursorsWithin_empty : CursorsWithin n Dict.empty := fun p cur hcur => absurd hcur (by simp)

theorem Within.taken (h : Within n g) (hc : CursorsWithin n cursors) (ps : List Nat) :
    CursorsWithin n (Topics.takePartitions g.committed ps cursors) := by
  intro p cur hcur
  rcases Topics.takePartitions_cases hcur with rfl | hold
  · refine ⟨?_, fun q hq => absurd hq (by simp)⟩
    cases hp : g.committed.get? p with
    | none => exact Nat.zero_le _
    | some c => exact h.committed p c hp
  · exact hc p cur hold

theorem CursorsWithin.advance (hc : CursorsWithin n cursors) {p o : Nat} (ho : o < n p) :
    CursorsWithin n (Topics.advance p o cursors) := by
  intro q cur hcur
  rw [Topics.get?_advance] at hcur
  split at hcur
  · next hqp =>
      subst hqp
      obtain rfl := Option.some.inj hcur
      exact ⟨ho, fun x hx => (Option.some.inj hx) ▸ ho⟩
  · exact hc q cur hcur

theorem Within.put (h : Within n g) {inst : PostgresSink.Instance π ν} (hinst : CursorsWithin n inst.cursors) :
    Within n (g.put i inst) where
  committed := h.committed
  cursors := Dict.forall_get?_set h.cursors i hinst

theorem Within.remove (h : Within n g) (i : Nat) : Within n (g.remove i) where
  committed := h.committed
  cursors := Dict.forall_get?_erase h.cursors i

theorem within_step (hend : ∀ p o r, log p o = some r → o < n p) (h : Within n g) {a : PostgresSink.Action}
    (hstep : PostgresSink.step P log g a = some g') : Within n g' := by
  cases a with
  | start i =>
      simp only [PostgresSink.step] at hstep
      split at hstep
      · exact (Option.some.inj hstep) ▸ h.put cursorsWithin_empty
      · exact absurd hstep (by simp)
  | assign i ps =>
      simp only [PostgresSink.step] at hstep
      split at hstep
      · next hi => exact (Option.some.inj hstep) ▸ h.put (h.taken (h.cursors _ _ hi) ps)
      · exact absurd hstep (by simp)
  | revoke i ps =>
      simp only [PostgresSink.step] at hstep
      split at hstep
      · next hi =>
          refine (Option.some.inj hstep) ▸ h.put (fun p cur hcur => ?_)
          exact h.cursors _ _ hi p cur (Topics.get?_of_releasePartitions hcur).2
      · exact absurd hstep (by simp)
  | poll i p o =>
      simp only [PostgresSink.step] at hstep
      split at hstep
      · next hi =>
          split at hstep
          · next cur r hcur hr =>
              split at hstep
              · exact (Option.some.inj hstep) ▸ h.put ((h.cursors _ _ hi).advance (hend p o r hr))
              · exact absurd hstep (by simp)
          · exact absurd hstep (by simp)
      · exact absurd hstep (by simp)
  | decode i =>
      simp only [PostgresSink.step] at hstep
      split at hstep
      · next hi =>
          have hcursors := h.cursors _ _ hi
          split at hstep
          · split at hstep
            · exact (Option.some.inj hstep) ▸ h.put hcursors
            · exact (Option.some.inj hstep) ▸ h.remove i
          · exact absurd hstep (by simp)
      · exact absurd hstep (by simp)
  | write i =>
      simp only [PostgresSink.step] at hstep
      split at hstep
      · next cursors batch rows hi =>
          obtain rfl := Option.some.inj hstep
          have hcursors := h.cursors _ _ hi
          have hput : Within n (g.put i ⟨cursors, batch, .written⟩) := h.put hcursors
          exact ⟨hput.committed, hput.cursors⟩
      · exact absurd hstep (by simp)
  | lose i applied =>
      simp only [PostgresSink.step] at hstep
      split at hstep
      · exact (Option.some.inj hstep) ▸ ⟨h.committed, h.cursors⟩
      · exact absurd hstep (by simp)
  | commit i =>
      simp only [PostgresSink.step] at hstep
      split at hstep
      · next cursors batch hi =>
          obtain rfl := Option.some.inj hstep
          have hcursors := h.cursors _ _ hi
          have hput : Within n (g.put i ⟨cursors, [], .collecting⟩) := h.put hcursors
          refine ⟨fun p c hc => ?_, hput.cursors⟩
          change (g.committed.update (Topics.positions cursors)).get? p = some c at hc
          rw [Dict.get?_update, Topics.get?_positions] at hc
          -- a new offset is the position of a cursor
          rcases Option.or_eq_some_iff.mp hc with hnew | ⟨_, hold⟩
          · obtain ⟨cur, hcur, hposition⟩ := Option.bind_eq_some_iff.mp hnew
            exact (hcursors p cur hcur).2 c hposition
          · exact h.committed p c hold
      · exact absurd hstep (by simp)
  | crash i =>
      simp only [PostgresSink.step] at hstep
      split at hstep
      · exact (Option.some.inj hstep) ▸ h.remove i
      · exact absurd hstep (by simp)

/-- **No committed offset is past the end of its partition.** -/
theorem committed_le (hend : ∀ p o r, log p o = some r → o < n p) {acts : List PostgresSink.Action}
    (hrun : run (PostgresSink.step P log) {} acts = some g) {p c : Nat} (hc : g.committed.get? p = some c) :
    c ≤ n p := by
  have hinit : Within n ({} : PostgresSink.Group π ν) :=
    ⟨fun p c hc => absurd hc (by simp), fun i inst hi => absurd hi (by simp)⟩
  have h : Within n g := run_state_invariant hinit (fun t a t' ht _ hstep => within_step hend ht hstep)
    (@always_of_forall _ _ _ (fun _ _ => True) (fun _ _ => trivial) _ _) hrun
  exact h.committed p c hc

end Sinks

/-! ## Outputs and the records they come from -/

section Provenance

variable {P : Processor σ ρ ο ω ε} {log : Log ρ} {Inv : σ → Prop} {g g' : Group σ ρ ο} {i : Nat}

/-- A property of the processor's state that its hooks keep, on messages of the log. -/
structure HookInvariant (P : Processor σ ρ ο ω ε) (log : Log ρ) (Inv : σ → Prop) : Prop where
  init : Inv P.init
  assigned : ∀ committed answers s ps s', Inv s → P.partitionsAssigned committed answers s ps = .ok s' → Inv s'
  revoked : ∀ s ps, Inv s → Inv (P.partitionsRevoked s ps)
  handle : ∀ s m r, Inv s → Delivers log m → P.handle s m = .ok r → Inv r.1
  periodic : ∀ s, Inv s → Inv (P.periodic s)

theorem hookInvariant_true : HookInvariant P log (fun _ => True) where
  init := trivial
  assigned _ _ _ _ _ _ _ := trivial
  revoked _ _ _ := trivial
  handle _ _ _ _ _ _ := trivial
  periodic _ _ := trivial

/-- The output was produced for a record of the log, in a state that has the property. -/
def FromLog (P : Processor σ ρ ο ω ε) (log : Log ρ) (Inv : σ → Prop) (out : ο) : Prop :=
  ∃ m before r, Delivers log m ∧ Inv before ∧ P.handle before m = .ok r ∧ out ∈ r.2

/-- What an instance has in hand and what it has produced come from the log. -/
structure InstanceFromLog (P : Processor σ ρ ο ω ε) (log : Log ρ) (Inv : σ → Prop) (inst : Instance σ ρ ο) :
    Prop where
  state : Inv inst.state
  genuine : Genuine log inst
  emitted : ∀ out ∈ emitted inst, FromLog P log Inv out

structure AllFromLog (P : Processor σ ρ ο ω ε) (log : Log ρ) (Inv : σ → Prop) (g : Group σ ρ ο) : Prop where
  commits : ∀ c ∈ g.commits, ∀ out ∈ c.outputs, FromLog P log Inv out
  instances : ∀ i inst, g.instances.get? i = some inst → InstanceFromLog P log Inv inst

theorem allFromLog_init : AllFromLog P log Inv {} where
  commits c hc := absurd hc (by simp)
  instances i inst hi := absurd hi (by simp)

theorem AllFromLog.put (h : AllFromLog P log Inv g) {inst : Instance σ ρ ο} (hinst : InstanceFromLog P log Inv inst) :
    AllFromLog P log Inv (g.put i inst) where
  commits := h.commits
  instances := Dict.forall_get?_set h.instances i hinst

/-- **A processor makes nothing up**: whatever it commits comes from records of its input, and from a state that has
    every property its hooks keep. -/
theorem AllFromLog.step (hooks : HookInvariant P log Inv) (h : AllFromLog P log Inv g) {a : Transactional.Action ω}
    (hmove : Step P log g a g') : AllFromLog P log Inv g' := by
  cases hmove with
  | start hi =>
      refine h.put ⟨hooks.init, fun m hm => absurd hm (by simp [Instance.inHand]), fun out hout => absurd hout ?_⟩
      exact List.not_mem_nil
  | assign hi htxn hfree hook =>
      have hinst := h.instances _ _ hi
      exact h.put ⟨hooks.assigned _ _ _ _ _ hinst.state hook, hinst.genuine, hinst.emitted⟩
  | revoke hi htxn =>
      have hinst := h.instances _ _ hi
      rw [onRevoke_of_txn_none _ htxn]
      exact h.put ⟨hooks.revoked _ _ hinst.state, hinst.genuine, hinst.emitted⟩
  | poll hi htxn hcur hr hnext =>
      have hinst := h.instances _ _ hi
      exact h.put ⟨hinst.state, hinst.genuine.collect hr, hinst.emitted⟩
  | beginBatch hi htxn =>
      have hinst := h.instances _ _ hi
      exact h.put ⟨hinst.state, hinst.genuine.beginBatch htxn, fun out hout => absurd hout List.not_mem_nil⟩
  | @handleNext i inst t m todo r hi htxn htodo hook =>
      have hinst := h.instances _ _ hi
      have hm : Delivers log m := by
        apply hinst.genuine
        rw [inHand_of_txn htxn, htodo]
        simp
      refine h.put ⟨hooks.handle _ _ _ hinst.state hm hook, hinst.genuine.handled htxn htodo, fun out hout => ?_⟩
      change out ∈ t.outputs ++ r.2 at hout
      rcases List.mem_append.mp hout with hold | hnew
      · exact hinst.emitted out (emitted_of_txn htxn ▸ hold)
      · exact ⟨m, inst.state, r, hm, hinst.state, hook, hnew⟩
  | @commitBatch i inst t hi htxn htodo =>
      have hinst := h.instances _ _ hi
      refine ⟨fun c hc out hout => ?_, ?_⟩
      · rcases List.mem_append.mp hc with hc | hc
        · exact h.commits c hc out hout
        · obtain rfl := List.mem_singleton.mp hc
          exact hinst.emitted out (emitted_of_txn htxn ▸ hout)
      · refine Dict.forall_get?_set h.instances i ⟨hinst.state, hinst.genuine.closeTxn, fun out hout => ?_⟩
        exact absurd hout List.not_mem_nil
  | abort hi htxn =>
      have hinst := h.instances _ _ hi
      exact h.put ⟨hinst.state, hinst.genuine.closeTxn, fun out hout => absurd hout List.not_mem_nil⟩
  | periodic hi htxn =>
      have hinst := h.instances _ _ hi
      exact h.put ⟨hooks.periodic _ hinst.state, hinst.genuine, hinst.emitted⟩
  | die => exact ⟨h.commits, Dict.forall_get?_erase h.instances _⟩

end Provenance

/-! ## Runs -/

section Runs

variable [DecidableEq κ]

/-- What the sinks did, they could have done with the topic as it is now. -/
def ReadsTopic (S : Stages σ ρ ο ω ε π ν κ) (s : State σ ρ ο π ν) : Prop :=
  ∃ acts, run (PostgresSink.step S.sink (view s.topic)) {} acts = some s.sinks

omit [DecidableEq κ] in
theorem follow_kept {g : Group σ ρ ο} {a : Transactional.Action ω} (hfollow : follow S s g a = some s') :
    s'.group = g ∧ s'.sinks = s.sinks := by
  unfold follow at hfollow
  split at hfollow
  case h_2 =>
    split at hfollow
    · exact (Option.some.inj hfollow) ▸ ⟨rfl, rfl⟩
    · exact absurd hfollow (by simp)
  all_goals exact (Option.some.inj hfollow) ▸ ⟨rfl, rfl⟩

/-- The processors take a step of their own, or the sinks do, or neither. -/
theorem step_parts {a : Action ω} (hstep : step S s a = some s') :
    (s'.group = s.group ∨ ∃ b, a = .process b ∧ Step S.processor S.input s.group b s'.group) ∧
      (s'.sinks = s.sinks ∨ ∃ b, PostgresSink.step S.sink (view s.topic) s.sinks b = some s'.sinks) := by
  cases a with
  | process a =>
      obtain ⟨g, hgroup, hfollow⟩ := Option.bind_eq_some_iff.mp hstep
      obtain ⟨rfl, hsinks⟩ := follow_kept hfollow
      exact ⟨Or.inr ⟨a, rfl, step_inv hgroup⟩, Or.inl hsinks⟩
  | deliver i k =>
      simp only [Pipeline.step] at hstep
      split at hstep
      · exact absurd hstep (by simp)
      · exact (Option.some.inj hstep) ▸ ⟨Or.inl rfl, Or.inl rfl⟩
  | expire i =>
      simp only [Pipeline.step] at hstep
      split at hstep
      · exact absurd hstep (by simp)
      · exact (Option.some.inj hstep) ▸ ⟨Or.inl rfl, Or.inl rfl⟩
  | marker i q =>
      simp only [Pipeline.step] at hstep
      split at hstep
      · exact absurd hstep (by simp)
      · exact (Option.some.inj hstep) ▸ ⟨Or.inl rfl, Or.inl rfl⟩
  | store a =>
      obtain ⟨sinks, hsinks, rfl⟩ := Option.map_eq_some_iff.mp hstep
      exact ⟨Or.inl rfl, Or.inr ⟨a, hsinks⟩⟩

theorem ReadsTopic.step (h : ReadsTopic S s) {a : Action ω} (hstep : step S s a = some s') : ReadsTopic S s' := by
  obtain ⟨acts, hrun⟩ := h
  have hgrows : Grows (view s.topic) (view s'.topic) := view_grows (prefix_step hstep)
  have hrun' := sink_run_grows hgrows hrun
  rcases (step_parts hstep).2 with hsame | ⟨b, hb⟩
  · exact ⟨acts, hsame ▸ hrun'⟩
  · refine ⟨acts ++ [b], ?_⟩
    rw [run_append, hrun']
    change (PostgresSink.step S.sink (view s'.topic) s.sinks b).bind some = some s'.sinks
    rw [sink_step_grows hgrows hb]
    rfl

/-- What every run keeps, whatever the processor. -/
structure Works (S : Stages σ ρ ο ω ε π ν κ) (Inv : σ → Prop) (s : State σ ρ ο π ν) : Prop where
  flows : Flows S s
  reads : ReadsTopic S s
  fromLog : AllFromLog S.processor S.input Inv s.group

variable {Inv : σ → Prop}

theorem works_init : Works S Inv ({} : State σ ρ ο π ν) := ⟨flows_init, ⟨[], rfl⟩, allFromLog_init⟩

theorem Works.step (hooks : HookInvariant S.processor S.input Inv) (h : Works S Inv s) {a : Action ω}
    (hstep : step S s a = some s') : Works S Inv s' := by
  refine ⟨h.flows.step hstep, h.reads.step hstep, ?_⟩
  rcases (step_parts hstep).1 with hsame | ⟨b, _, hmove⟩
  · exact hsame ▸ h.fromLog
  · exact h.fromLog.step hooks hmove

/-- A committed output is in the topic, and from when the sinks' offset is past it, its row is in the table. -/
theorem Works.stored (h : Works S Inv s) {c : Commit ρ ο} (hc : c ∈ s.group.commits) {out : ο} (hout : out ∈ c.outputs)
    {p : Nat} {r : π} (hroute : S.route out = some (p, r)) {row : ν} (hrow : S.sink.decode r = .row row) :
    ∃ o, settledAt (s.topic p) o = some r ∧
      ∀ d, s.sinks.committed.get? p = some d → o < d → PostgresSink.HasRow S.sink s.sinks.table row := by
  obtain ⟨o, ho⟩ := (h.flows.settled p r).mpr ⟨c, hc, out, hout, hroute⟩
  refine ⟨o, ho, fun d hd hod => ?_⟩
  obtain ⟨acts, hrun⟩ := h.reads
  have hend : ∀ p o r, view s.topic p o = some r → o < (seen (s.topic p)).length := by
    intro p o r hr
    by_contra hlt
    exact absurd (hr.symm.trans (view_eq_none (Nat.not_lt.mp hlt))) (by simp)
  have hle : d ≤ (seen (s.topic p)).length := committed_le hend hrun hd
  have hread : view s.topic p o = some r := view_of_settledAt ho (Nat.lt_of_lt_of_le hod hle)
  exact (PostgresSink.stored_init.run hrun).1.committed p d hd o hod r row hread hrow

/-- A row was decoded from a committed output. -/
theorem Works.row_from (h : Works S Inv s) {row : ν} (hrow : row ∈ s.sinks.table) :
    ∃ c ∈ s.group.commits, ∃ out ∈ c.outputs, ∃ p r, S.route out = some (p, r) ∧ S.sink.decode r = .row row := by
  obtain ⟨acts, hrun⟩ := h.reads
  obtain ⟨p, o, r, hr, hdecode⟩ := (PostgresSink.stored_init.run hrun).1.decoded row hrow
  obtain ⟨c, hc, out, hout, hroute⟩ := (h.flows.settled p r).mp ⟨o, settledAt_of_view hr⟩
  exact ⟨c, hc, out, hout, p, r, hroute, hdecode⟩

theorem Works.nodup (h : Works S Inv s) : (s.sinks.table.map S.sink.rowId).Nodup := by
  obtain ⟨acts, hrun⟩ := h.reads
  exact (PostgresSink.stored_init.run hrun).1.nodup

/-- The topic has a record with the property, in a committed transaction, and from when the sinks' committed offset is
    past it, the table has exactly one row with the id. -/
def StoredOnce (S : Stages σ ρ ο ω ε π ν κ) (s : State σ ρ ο π ν) (Reads : π → Prop) (id : κ) : Prop :=
  ∃ p o r, settledAt (s.topic p) o = some r ∧ Reads r ∧
    ∀ d, s.sinks.committed.get? p = some d → o < d →
      ∃ row ∈ s.sinks.table, S.sink.rowId row = id ∧ ∀ other ∈ s.sinks.table, S.sink.rowId other = id → other = row

/-- **What is committed is stored once.** -/
theorem Works.stored_once (h : Works S Inv s) {c : Commit ρ ο} (hc : c ∈ s.group.commits) {out : ο}
    (hout : out ∈ c.outputs) {p : Nat} {r : π} (hroute : S.route out = some (p, r)) {row : ν}
    (hrow : S.sink.decode r = .row row) {Reads : π → Prop} (hreads : Reads r) :
    StoredOnce S s Reads (S.sink.rowId row) := by
  obtain ⟨o, ho, hstored⟩ := h.stored hc hout hroute hrow
  refine ⟨p, o, r, ho, hreads, ?_⟩
  intro d hd hod
  obtain ⟨row', hmem, hid⟩ := hstored d hd hod
  refine ⟨row', hmem, hid, ?_⟩
  intro other hother hoid
  exact List.inj_on_of_nodup_map h.nodup hother hmem (hoid.trans hid.symm)

end Runs

end Pipeline
end Wikistream
