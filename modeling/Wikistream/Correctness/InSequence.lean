import Wikistream.Correctness.ExactlyOnce
import Wikistream.Correctness.NoDuplicate

/-!
# `Correctness.InSequence` — a processor comes to the records of a partition one after the other

As long as no partition is revoked while the batch holds its messages, what an instance has still to handle of a
partition lies behind everything that its state for the partition has seen.

## Contents
- **What a subclass has to keep** (`SequentialHooks`): a property of its state for a partition and an offset, nothing
  from the offset on has been seen.
- **The invariant** (`InSequence`) and its step: each message finds the state with nothing seen from its offset on, and
  so did those whose outputs were committed (`FromSequence`).
-/

namespace Wikistream
namespace Transactional

open Lib Topics

variable {σ ρ ο ω ε : Type}

/-- The hooks keep a property of the state, a partition and an offset of it: the state has seen nothing of the
    partition from the offset on. -/
structure SequentialHooks (P : Processor σ ρ ο ω ε) (log : Log ρ) (SeenBelow : σ → Nat → Nat → Prop) : Prop where
  mono : ∀ s p o o', SeenBelow s p o → o ≤ o' → SeenBelow s p o'
  assigned : ∀ committed answers s ps s', P.partitionsAssigned committed answers s ps = .ok s' →
    (∀ p ∈ ps, SeenBelow s' p ((committed.get? p).getD 0)) ∧ ∀ p, p ∉ ps → ∀ o, SeenBelow s p o → SeenBelow s' p o
  revoked : ∀ s ps p, p ∉ ps → ∀ o, SeenBelow s p o → SeenBelow (P.partitionsRevoked s ps) p o
  handle : ∀ s m r, Delivers log m → SeenBelow s m.partition m.offset → P.handle s m = .ok r →
    SeenBelow r.1 m.partition (m.offset + 1)
  other : ∀ s m r, P.handle s m = .ok r → ∀ p, p ≠ m.partition → ∀ o, SeenBelow s p o → SeenBelow r.1 p o
  periodic : ∀ s p o, SeenBelow s p o → SeenBelow (P.periodic s) p o

/-- The output was produced for a record of the log, in a state that had seen nothing from it on. -/
def FromSequence (P : Processor σ ρ ο ω ε) (log : Log ρ) (SeenBelow : σ → Nat → Nat → Prop) (out : ο) : Prop :=
  ∃ m before r, Delivers log m ∧ SeenBelow before m.partition m.offset ∧ P.handle before m = .ok r ∧ out ∈ r.2

/-- What an instance has polled and not handled. -/
def Instance.ahead (inst : Instance σ ρ ο) : List (Message ρ) :=
  (match inst.txn with
    | some t => t.todo
    | none => []) ++ inst.batch

structure InstanceInSequence (P : Processor σ ρ ο ω ε) (log : Log ρ) (SeenBelow : σ → Nat → Nat → Prop)
    (inst : Instance σ ρ ο) : Prop where
  genuine : Genuine log inst
  ahead : ∀ m ∈ inst.ahead, SeenBelow inst.state m.partition m.offset
  cursor : ∀ p cur, inst.cursors.get? p = some cur → SeenBelow inst.state p cur.fetch
  outputs : ∀ t, inst.txn = some t → ∀ out ∈ t.outputs, FromSequence P log SeenBelow out

structure InSequence (P : Processor σ ρ ο ω ε) (log : Log ρ) (SeenBelow : σ → Nat → Nat → Prop) (g : Group σ ρ ο) :
    Prop where
  once : Once g
  instances : ∀ i inst, g.instances.get? i = some inst → InstanceInSequence P log SeenBelow inst
  commits : ∀ c ∈ g.commits, ∀ out ∈ c.outputs, FromSequence P log SeenBelow out

variable {P : Processor σ ρ ο ω ε} {log : Log ρ} {SeenBelow : σ → Nat → Nat → Prop} {g g' : Group σ ρ ο}
variable {inst : Instance σ ρ ο} {i : Nat}

theorem ahead_of_txn_none (h : inst.txn = none) : inst.ahead = inst.batch := by
  rw [Instance.ahead, h]
  rfl

theorem ahead_of_txn {t : Txn ρ ο} (h : inst.txn = some t) : inst.ahead = t.todo ++ inst.batch := by
  rw [Instance.ahead, h]

theorem inHand_of_ahead {m : Message ρ} (h : m ∈ inst.ahead) : m ∈ inst.inHand := by
  cases htxn : inst.txn with
  | none =>
      rw [ahead_of_txn_none htxn] at h
      rwa [inHand_of_txn_none htxn]
  | some t =>
      rw [ahead_of_txn htxn] at h
      rw [inHand_of_txn htxn, List.append_assoc]
      exact List.mem_append_right _ h

/-! ## The steps -/

theorem InstanceInSequence.assigned (hooks : SequentialHooks P log SeenBelow)
    (h : InstanceInSequence P log SeenBelow inst) (honce : OnceBy g inst)
    {ps : List Nat} (hfree : ∀ p ∈ ps, inst.cursors.get? p = none) {answers : ω} {s : σ}
    (hook : P.partitionsAssigned g.committed answers inst.state ps = .ok s) :
    InstanceInSequence P log SeenBelow (inst.assigned g.committed ps s) := by
  obtain ⟨hnew, hold⟩ := hooks.assigned _ _ _ _ _ hook
  refine ⟨h.genuine, ?_, ?_, h.outputs⟩
  · intro m hm
    -- no one owned the partitions that come in
    obtain ⟨cur, hcur, _⟩ := honce.owned m (inHand_of_ahead hm)
    refine hold _ ?_ _ (h.ahead m hm)
    intro hps
    exact absurd ((hfree _ hps).symm.trans hcur) (by simp)
  · intro p cur hcur
    change (takePartitions g.committed ps inst.cursors).get? p = some cur at hcur
    rw [get?_takePartitions] at hcur
    split at hcur
    · next hp =>
        obtain rfl := Option.some.inj hcur
        exact hnew p hp
    · next hp => exact hold p hp _ (h.cursor p cur hcur)

theorem InstanceInSequence.revoked (hooks : SequentialHooks P log SeenBelow)
    (h : InstanceInSequence P log SeenBelow inst)
    (htxn : inst.txn = none) {ps : List Nat} (hout : ∀ m ∈ inst.batch, m.partition ∉ ps) :
    InstanceInSequence P log SeenBelow (inst.onRevoke P ps) := by
  rw [onRevoke_of_txn_none P htxn]
  refine ⟨h.genuine, ?_, ?_, h.outputs⟩
  · intro m hm
    have hbatch : m ∈ inst.batch := by rwa [← ahead_of_txn_none htxn]
    exact hooks.revoked _ _ _ (hout m hbatch) _ (h.ahead m hm)
  · intro p cur hcur
    obtain ⟨hp, hcur⟩ := get?_of_releasePartitions hcur
    exact hooks.revoked _ _ _ hp _ (h.cursor p cur hcur)

theorem InstanceInSequence.collected (hooks : SequentialHooks P log SeenBelow)
    (h : InstanceInSequence P log SeenBelow inst) (htxn : inst.txn = none) {p o : Nat} {cur : Cursor} {r : ρ}
    (hcur : inst.cursors.get? p = some cur)
    (hr : log p o = some r) (hle : cur.fetch ≤ o) : InstanceInSequence P log SeenBelow (inst.collect ⟨p, o, r⟩) := by
  have hseen := hooks.mono _ _ _ _ (h.cursor p cur hcur) hle
  refine ⟨h.genuine.collect hr, ?_, ?_, h.outputs⟩
  · intro m hm
    rw [show (inst.collect ⟨p, o, r⟩).ahead = _ from ahead_of_txn_none htxn] at hm
    rcases List.mem_append.mp hm with hm | hm
    · exact h.ahead m (by rwa [ahead_of_txn_none htxn])
    · obtain rfl := List.mem_singleton.mp hm
      exact hseen
  · intro q cur' hcur'
    change (advance p o inst.cursors).get? q = some cur' at hcur'
    rw [get?_advance] at hcur'
    split at hcur'
    · next hqp =>
        subst hqp
        obtain rfl := Option.some.inj hcur'
        exact hooks.mono _ _ _ _ hseen (Nat.le_succ o)
    · exact h.cursor q cur' hcur'

/-- A message is handled: what comes after it in its partition lies behind it. -/
theorem InstanceInSequence.handled (hooks : SequentialHooks P log SeenBelow)
    (h : InstanceInSequence P log SeenBelow inst) (honce : OnceBy g inst)
    {t : Txn ρ ο} {m : Message ρ} {todo : List (Message ρ)} {r : σ × List ο}
    (htxn : inst.txn = some t) (htodo : t.todo = m :: todo) (hook : P.handle inst.state m = .ok r) :
    InstanceInSequence P log SeenBelow (inst.handled t m todo r) := by
  have hahead : inst.ahead = m :: (todo ++ inst.batch) := by
    rw [ahead_of_txn htxn, htodo]
    rfl
  have hm : m ∈ inst.ahead := hahead ▸ List.mem_cons_self
  have hdel : Delivers log m := h.genuine m (inHand_of_ahead hm)
  have hseen := h.ahead m hm
  have hnow := hooks.handle _ _ _ hdel hseen hook
  have hsorted : (m :: (todo ++ inst.batch)).Pairwise Before := by
    refine honce.sorted.sublist ?_
    rw [inHand_of_txn htxn, htodo, List.append_assoc]
    exact List.sublist_append_right _ _
  refine ⟨h.genuine.handled htxn htodo, ?_, ?_, ?_⟩
  · intro x hx
    have hx' : x ∈ todo ++ inst.batch := hx
    by_cases hp : x.partition = m.partition
    · have hlt := (List.pairwise_cons.mp hsorted).1 x hx' hp.symm
      exact hp ▸ hooks.mono _ _ _ _ hnow hlt
    · exact hooks.other _ _ _ hook _ hp _ (h.ahead x (hahead ▸ List.mem_cons_of_mem _ hx'))
  · intro p cur hcur
    by_cases hp : p = m.partition
    · subst hp
      obtain ⟨cur', hcur', _, hlt⟩ := honce.owned m (inHand_of_ahead hm)
      obtain rfl := Option.some.inj (hcur'.symm.trans hcur)
      exact hooks.mono _ _ _ _ hnow hlt
    · exact hooks.other _ _ _ hook _ hp _ (h.cursor p cur hcur)
  · intro t' ht' out hout
    obtain rfl := Option.some.inj ht'
    rcases List.mem_append.mp hout with hold | hnew
    · exact h.outputs t htxn out hold
    · exact ⟨m, inst.state, r, hdel, hseen, hook, hnew⟩

theorem InstanceInSequence.closeTxn (h : InstanceInSequence P log SeenBelow inst) {t : Txn ρ ο}
    (htxn : inst.txn = some t) : InstanceInSequence P log SeenBelow inst.closeTxn := by
  refine ⟨h.genuine.closeTxn, ?_, h.cursor, fun t ht => absurd ht (by simp [Instance.closeTxn])⟩
  intro m hm
  rw [show inst.closeTxn.ahead = _ from ahead_of_txn_none rfl] at hm
  refine h.ahead m ?_
  rw [ahead_of_txn htxn]
  exact List.mem_append_right _ hm

/-- **One step keeps the records in order.** -/
theorem InSequence.step (hooks : SequentialHooks P log SeenBelow) (h : InSequence P log SeenBelow g) {a : Action ω}
    (hok : RevokesOutsideBatch g a) (hstep : Step P log g a g') : InSequence P log SeenBelow g' := by
  have honce := h.once.step hok hstep
  have hput : ∀ {i : Nat} {inst' : Instance σ ρ ο}, Once (g.put i inst') → InstanceInSequence P log SeenBelow inst' →
      InSequence P log SeenBelow (g.put i inst') :=
    fun honce hinst => ⟨honce, Dict.forall_get?_set h.instances _ hinst, h.commits⟩
  cases hstep with
  | start hi =>
      refine hput honce ⟨?_, ?_, ?_, ?_⟩
      · exact fun m hm => absurd hm (by simp [Instance.inHand])
      · exact fun m hm => absurd hm (by simp [Instance.ahead])
      · exact fun p cur hcur => absurd hcur (by simp)
      · exact fun t ht => absurd ht (by simp)
  | @assign i ps answers inst s hi htxn hfree hook =>
      have hown : ∀ p ∈ ps, inst.cursors.get? p = none := fun p hp =>
        Option.isNone_iff_eq_none.mp (hfree p hp inst (Dict.mem_values_iff.mpr ⟨i, hi⟩))
      exact hput honce ((h.instances _ _ hi).assigned hooks (h.once.instances _ _ hi) hown hook)
  | @revoke i ps inst hi htxn =>
      have hout : ∀ m ∈ inst.batch, m.partition ∉ ps := by
        simpa only [RevokesOutsideBatch, hi] using hok
      exact hput honce ((h.instances _ _ hi).revoked hooks htxn hout)
  | poll hi htxn hcur hr hnext => exact hput honce ((h.instances _ _ hi).collected hooks htxn hcur hr hnext.1)
  | @beginBatch i inst hi htxn =>
      have hinst := h.instances _ _ hi
      refine hput honce ⟨hinst.genuine.beginBatch htxn, ?_, hinst.cursor, ?_⟩
      · intro m hm
        refine hinst.ahead m ?_
        rw [ahead_of_txn_none htxn]
        simpa [Instance.ahead, Instance.beginBatch] using hm
      · intro t ht out hout
        obtain rfl := Option.some.inj ht
        exact absurd hout List.not_mem_nil
  | handleNext hi htxn htodo hook =>
      exact hput honce ((h.instances _ _ hi).handled hooks (h.once.instances _ _ hi) htxn htodo hook)
  | @commitBatch i inst t hi htxn htodo =>
      have hinst := h.instances _ _ hi
      refine ⟨honce, Dict.forall_get?_set h.instances _ (hinst.closeTxn htxn), ?_⟩
      intro c hc out hout
      rcases List.mem_append.mp hc with hc | hc
      · exact h.commits c hc out hout
      · obtain rfl := List.mem_singleton.mp hc
        exact hinst.outputs t htxn out hout
  | abort hi htxn => exact hput honce ((h.instances _ _ hi).closeTxn htxn)
  | periodic hi htxn =>
      have hinst := h.instances _ _ hi
      exact hput honce ⟨hinst.genuine, fun m hm => hooks.periodic _ _ _ (hinst.ahead m hm),
        fun p cur hcur => hooks.periodic _ _ _ (hinst.cursor p cur hcur), hinst.outputs⟩
  | die _ => exact ⟨honce, Dict.forall_get?_erase h.instances _, h.commits⟩

end Transactional
end Wikistream
