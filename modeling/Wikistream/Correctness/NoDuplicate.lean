import Mathlib.Order.Nat
import Wikistream.Correctness.NoSkip

/-!
# `Correctness.NoDuplicate` — output for a partition that moved away

`on_revoke` aborts an open transaction, but it only ever runs while a batch is being collected, when none
is open. What matters is the batch: messages of a revoked partition that are already in it are processed
and committed after the partition has moved.

## Contents
- **The condition** (`RevokesOutsideBatch`): no partition is revoked while the batch holds its messages.
- **The invariant** (`Once`): the messages in hand are of partitions the instance owns, in order, from the
  committed offset on, and the committed ones come before it.
- **The result** (`owned_and_once`), and the run of two instances that commits one record twice
  (`moved_record_committed_twice`).
-/

namespace Wikistream
namespace Transactional

open Lib Topics

variable {σ ρ ο ω ε : Type}

/-- No revoked partition has a message in the batch. -/
def RevokesOutsideBatch (g : Group σ ρ ο) : Action ω → Prop
  | .revoke i ps =>
      match g.instances.get? i with
      | some inst => ∀ m ∈ inst.batch, m.partition ∉ ps
      | none => True
  | _ => True

instance (g : Group σ ρ ο) (a : Action ω) : Decidable (RevokesOutsideBatch g a) :=
  match a with
  | .revoke i ps =>
      decidable_of_iff (∀ inst ∈ g.instances.get? i, ∀ m ∈ inst.batch, m.partition ∉ ps) (by
        cases h : g.instances.get? i <;> simp [RevokesOutsideBatch, h])
  | .start .. | .assign .. | .poll .. | .beginBatch .. | .handleNext .. | .commitBatch .. | .abort ..
  | .crash .. | .periodic .. => isTrue trivial

/-- The messages handled in committed transactions, in order. -/
def Group.done (g : Group σ ρ ο) : List (Message ρ) := g.commits.flatMap Commit.handled

/-- Two messages of one partition are in offset order. -/
def Before (a b : Message ρ) : Prop := a.partition = b.partition → a.offset < b.offset

/-! ## The invariant -/

/-- The messages in the hands of an instance are of partitions it owns, in order, and none is below its
    partition's committed offset. -/
structure OnceBy (g : Group σ ρ ο) (inst : Instance σ ρ ο) : Prop where
  owned : ∀ m ∈ inst.inHand, ∃ cur, inst.cursors.get? m.partition = some cur ∧
    cur.position = some cur.fetch ∧ m.offset < cur.fetch
  sorted : inst.inHand.Pairwise Before
  above : ∀ m ∈ inst.inHand, ∀ c, g.committed.get? m.partition = some c → c ≤ m.offset
  behind : ∀ p cur, inst.cursors.get? p = some cur → ∀ c, g.committed.get? p = some c → c ≤ cur.fetch
  position : ∀ p cur, inst.cursors.get? p = some cur → ∀ q, cur.position = some q → q = cur.fetch
  batch : inst.txn.isSome = true → inst.batch = []

structure Once (g : Group σ ρ ο) : Prop where
  exclusive : ∀ i inst, g.instances.get? i = some inst → ∀ j inst', g.instances.get? j = some inst' →
    ∀ p, (inst.cursors.get? p).isSome = true → (inst'.cursors.get? p).isSome = true → i = j
  instances : ∀ i inst, g.instances.get? i = some inst → OnceBy g inst
  sorted : g.done.Pairwise Before
  below : ∀ m ∈ g.done, ∃ c, g.committed.get? m.partition = some c ∧ m.offset < c

variable {P : Processor σ ρ ο ω ε} {log : Log ρ} {g : Group σ ρ ο} {i : Nat} {inst : Instance σ ρ ο}

theorem once_init : Once ({} : Group σ ρ ο) where
  exclusive i inst hi := absurd hi (by simp)
  instances i inst hi := absurd hi (by simp)
  sorted := List.Pairwise.nil
  below m hm := absurd hm (by simp [Group.done])

/-- Changing one instance, which takes no partition another one owns. -/
theorem Once.put (h : Once g) (hinst : OnceBy g inst)
    (hown : ∀ j other, j ≠ i → g.instances.get? j = some other → ∀ p,
      (inst.cursors.get? p).isSome = true → (other.cursors.get? p).isSome = true → False) :
    Once (g.put i inst) where
  exclusive := by
    intro j a hj k b hk p hpa hpb
    rw [get?_put] at hj hk
    split at hj
    · next hji =>
        obtain rfl := Option.some.inj hj
        split at hk
        · next hki => rw [hji, hki]
        · next hki => exact (hown k b hki hk p hpa hpb).elim
    · next hji =>
        split at hk
        · obtain rfl := Option.some.inj hk
          exact (hown j a hji hj p hpb hpa).elim
        · exact h.exclusive j a hj k b hk p hpa hpb
  instances := by
    intro j a hj
    rw [get?_put] at hj
    split at hj
    · obtain rfl := Option.some.inj hj
      exact ⟨hinst.owned, hinst.sorted, hinst.above, hinst.behind, hinst.position, hinst.batch⟩
    · have := h.instances j a hj
      exact ⟨this.owned, this.sorted, this.above, this.behind, this.position, this.batch⟩
  sorted := h.sorted
  below := h.below

/-- Changing one instance, which gains no partition. -/
theorem Once.put_of_cursors (h : Once g) {old : Instance σ ρ ο} (hi : g.instances.get? i = some old)
    (hinst : OnceBy g inst)
    (hsub : ∀ p, (inst.cursors.get? p).isSome = true → (old.cursors.get? p).isSome = true) :
    Once (g.put i inst) :=
  h.put hinst (fun j other hj hother p hp hq =>
    hj (h.exclusive j other hother i old hi p hq (hsub p hp)))

/-- A change that keeps the cursors and the messages in hand. -/
theorem OnceBy.congr {inst' : Instance σ ρ ο} (h : OnceBy g inst) (hcur : inst'.cursors = inst.cursors)
    (hhand : inst'.inHand.Sublist inst.inHand) (hbatch : inst'.txn.isSome = true → inst'.batch = []) :
    OnceBy g inst' where
  owned m hm := hcur ▸ h.owned m (hhand.subset hm)
  sorted := h.sorted.sublist hhand
  above m hm := h.above m (hhand.subset hm)
  behind p cur hc := h.behind p cur (hcur ▸ hc)
  position p cur hc := h.position p cur (hcur ▸ hc)
  batch := hbatch

/-! ## One step -/

theorem onceBy_assigned (h : OnceBy g inst) {ps : List Nat}
    (hfree : ∀ p ∈ ps, inst.cursors.get? p = none) (s : σ) :
    OnceBy g (inst.assigned g.committed ps s) where
  owned := by
    intro m hm
    obtain ⟨cur, hcur, hpos, hlt⟩ := h.owned m hm
    -- no one owns the partitions that come in, so the message is of another one
    have hps : m.partition ∉ ps := by
      intro hmem
      rw [hfree _ hmem] at hcur
      exact absurd hcur (by simp)
    refine ⟨cur, ?_, hpos, hlt⟩
    show (takePartitions g.committed ps inst.cursors).get? _ = _
    rw [get?_takePartitions, if_neg hps, hcur]
  sorted := h.sorted
  above := h.above
  behind := by
    intro p cur hcur c hc
    rcases takePartitions_cases hcur with rfl | hcur
    · simp [hc]
    · exact h.behind p cur hcur c hc
  position p cur hcur q hq := h.position p cur (get?_of_position hcur hq) q hq
  batch := h.batch

theorem onceBy_revoked (h : OnceBy g inst) (htxn : inst.txn = none) {ps : List Nat}
    (hout : ∀ m ∈ inst.batch, m.partition ∉ ps) : OnceBy g (inst.onRevoke P ps) := by
  rw [onRevoke_of_txn_none P htxn]
  have hget : ∀ p cur, (releasePartitions ps inst.cursors).get? p = some cur →
      inst.cursors.get? p = some cur := fun p cur hcur => (get?_of_releasePartitions hcur).2
  refine ⟨?_, h.sorted, h.above, fun p cur hcur => h.behind p cur (hget p cur hcur),
    fun p cur hcur => h.position p cur (hget p cur hcur), h.batch⟩
  intro m hm
  obtain ⟨cur, hcur, hpos, hlt⟩ := h.owned m hm
  refine ⟨cur, ?_, hpos, hlt⟩
  have hmem : m ∈ inst.batch := by
    have hm' : m ∈ inst.inHand := hm
    rwa [inHand_of_txn_none htxn] at hm'
  show (releasePartitions ps inst.cursors).get? _ = _
  rw [get?_releasePartitions, if_neg (hout m hmem), hcur]

theorem onceBy_collected (h : OnceBy g inst) (htxn : inst.txn = none) {p o : Nat} {cur : Cursor} {r : ρ}
    (hcur : inst.cursors.get? p = some cur) (hnext : NextVisible log p cur.fetch o) :
    OnceBy g (inst.collect ⟨p, o, r⟩) := by
  have hget : ∀ q, (inst.collect ⟨p, o, r⟩).cursors.get? q =
      if q = p then some ⟨o + 1, some (o + 1)⟩ else inst.cursors.get? q :=
    fun q => get?_advance _ _ _ _
  -- what is in hand for the partition lies behind the old cursor, so before the new message
  have hold : ∀ m ∈ inst.inHand, m.partition = p → m.offset < o := by
    intro m hm hmp
    obtain ⟨cur', hcur', _, hlt⟩ := h.owned m hm
    rw [hmp, hcur] at hcur'
    obtain rfl := Option.some.inj hcur'
    exact hlt.trans_le hnext.1
  refine ⟨?_, ?_, ?_, ?_, ?_, fun hs => absurd hs (by simp [Instance.collect, htxn])⟩
  · intro m hm
    rw [inHand_collect htxn, List.mem_append, List.mem_singleton] at hm
    rw [hget]
    rcases hm with hm | rfl
    · by_cases hmp : m.partition = p
      · rw [if_pos hmp]
        exact ⟨_, rfl, rfl, Nat.lt_succ_of_lt (hold m hm hmp)⟩
      · rw [if_neg hmp]
        exact h.owned m hm
    · rw [if_pos rfl]
      exact ⟨_, rfl, rfl, Nat.lt_succ_self o⟩
  · rw [inHand_collect htxn, List.pairwise_append]
    refine ⟨h.sorted, List.pairwise_singleton _ _, ?_⟩
    intro m hm b hb
    rw [List.mem_singleton.mp hb]
    exact hold m hm
  · intro m hm c hc
    rw [inHand_collect htxn, List.mem_append, List.mem_singleton] at hm
    rcases hm with hm | rfl
    · exact h.above m hm c hc
    · exact (h.behind p cur hcur c hc).trans hnext.1
  · intro q cur' hcur' c hc
    rw [hget] at hcur'
    split at hcur'
    · next hqp =>
        subst hqp
        obtain rfl := Option.some.inj hcur'
        exact ((h.behind q cur hcur c hc).trans hnext.1).trans (Nat.le_succ o)
    · exact h.behind q cur' hcur' c hc
  · intro q cur' hcur' y hy
    rw [hget] at hcur'
    split at hcur'
    · obtain rfl := Option.some.inj hcur'
      exact (Option.some.inj hy).symm
    · exact h.position q cur' hcur' y hy

theorem done_commit (t : Txn ρ ο) : (g.commit i inst t).done = g.done ++ t.handled := by
  simp [Group.done, Group.commit]

/-- The committed offset of an owned partition only moves forward, up to the cursor. -/
theorem committed_commit (h : OnceBy g inst) {t : Txn ρ ο} {p c : Nat}
    (hc : (g.commit i inst t).committed.get? p = some c) :
    ((positions inst.cursors).get? p = none ∧ g.committed.get? p = some c) ∨
      ∃ cur, inst.cursors.get? p = some cur ∧ cur.position = some c ∧ c = cur.fetch := by
  rw [get?_committed_commit] at hc
  cases hpos : (positions inst.cursors).get? p with
  | none =>
      rw [hpos, Option.none_or] at hc
      exact Or.inl ⟨rfl, hc⟩
  | some q =>
      rw [hpos, Option.some_or] at hc
      obtain rfl := Option.some.inj hc
      rw [get?_positions, Option.bind_eq_some_iff] at hpos
      obtain ⟨cur, hcur, hq⟩ := hpos
      exact Or.inr ⟨cur, hcur, hq, h.position p cur hcur q hq⟩

theorem Once.commit (h : Once g) (hi : g.instances.get? i = some inst) {t : Txn ρ ο}
    (htxn : inst.txn = some t) (htodo : t.todo = []) : Once (g.commit i inst t) := by
  have hinst := h.instances i inst hi
  have hand : inst.inHand = t.handled := by
    rw [inHand_of_txn htxn, htodo, hinst.batch (by simp [htxn]), List.append_nil, List.append_nil]
  have hdone := @done_commit _ _ _ g i inst t
  refine ⟨?_, ?_, ?_, ?_⟩
  · intro j a hj k b hk p hpa hpb
    have hcur : ∀ l c, (g.commit i inst t).instances.get? l = some c →
        ∃ c', g.instances.get? l = some c' ∧ c.cursors = c'.cursors := by
      intro l c hl
      rw [get?_commit] at hl
      split at hl
      · next hli =>
          obtain rfl := Option.some.inj hl
          exact ⟨inst, hli ▸ hi, rfl⟩
      · exact ⟨c, hl, rfl⟩
    obtain ⟨a', ha', hca⟩ := hcur j a hj
    obtain ⟨b', hb', hcb⟩ := hcur k b hk
    rw [hca] at hpa
    rw [hcb] at hpb
    exact h.exclusive j a' ha' k b' hb' p hpa hpb
  · intro j a hj
    rw [get?_commit] at hj
    split at hj
    · -- the committing instance has nothing in hand any more
      obtain rfl := Option.some.inj hj
      have hnil : inst.closeTxn.inHand = [] := by
        rw [show inst.closeTxn.inHand = _ from inHand_of_txn_none rfl]
        exact hinst.batch (by simp [htxn])
      refine ⟨by simp [hnil], by simp [hnil], by simp [hnil], ?_, hinst.position,
        fun hs => absurd hs (by simp [Instance.closeTxn])⟩
      intro p cur hcur c hc
      rcases committed_commit hinst hc with ⟨_, hold⟩ | ⟨cur', hcur', _, hfetch⟩
      · exact hinst.behind p cur hcur c hold
      · rw [show inst.cursors.get? p = some cur from hcur] at hcur'
        obtain rfl := Option.some.inj hcur'
        exact hfetch.le
    · next hji =>
        -- another instance owns none of the committed partitions
        have hj' := h.instances j a hj
        have hsame : ∀ p c, (a.cursors.get? p).isSome = true →
            (g.commit i inst t).committed.get? p = some c → g.committed.get? p = some c := by
          intro p c hp hc
          rcases committed_commit hinst hc with ⟨_, hold⟩ | ⟨cur, hcur, _⟩
          · exact hold
          · exact absurd (h.exclusive j a hj i inst hi p hp (by simp [hcur])) hji
        refine ⟨hj'.owned, hj'.sorted, ?_, ?_, hj'.position, hj'.batch⟩
        · intro m hm c hc
          obtain ⟨cur, hcur, _⟩ := hj'.owned m hm
          exact hj'.above m hm c (hsame _ c (by simp [hcur]) hc)
        · intro p cur hcur c hc
          exact hj'.behind p cur hcur c (hsame p c (by simp [hcur]) hc)
  · rw [hdone, List.pairwise_append]
    refine ⟨h.sorted, hand ▸ hinst.sorted, ?_⟩
    intro d hd m hm hdm
    obtain ⟨c, hc, hlt⟩ := h.below d hd
    rw [hdm] at hc
    exact hlt.trans_le (hinst.above m (hand ▸ hm) c hc)
  · intro m hm
    rw [hdone, List.mem_append] at hm
    rw [get?_committed_commit, get?_positions]
    rcases hm with hm | hm
    · obtain ⟨c, hc, hlt⟩ := h.below m hm
      cases hcur : inst.cursors.get? m.partition with
      | none => exact ⟨c, by simp [hc], hlt⟩
      | some cur =>
          cases hpos : cur.position with
          | none => exact ⟨c, by simp [hpos, hc], hlt⟩
          | some q =>
              refine ⟨q, by simp [hpos], hlt.trans_le ?_⟩
              rw [hinst.position _ cur hcur q hpos]
              exact hinst.behind _ cur hcur c hc
    · obtain ⟨cur, hcur, hpos, hlt⟩ := hinst.owned m (hand ▸ hm)
      exact ⟨cur.fetch, by simp [hcur, hpos], hlt⟩

/-- **One step keeps every record in hand or committed once.** -/
theorem Once.step (h : Once g) {a : Action ω} {g' : Group σ ρ ο} (hok : RevokesOutsideBatch g a)
    (hstep : Step P log g a g') : Once g' := by
  cases hstep with
  | start hi =>
      refine h.put ⟨?_, ?_, ?_, ?_, ?_, fun hs => absurd hs (by simp)⟩
        (fun j other _ _ p hp => absurd hp (by simp))
      · exact fun m hm => absurd hm (by simp [Instance.inHand])
      · exact List.Pairwise.nil
      · exact fun m hm => absurd hm (by simp [Instance.inHand])
      · exact fun p cur hcur => absurd hcur (by simp)
      · exact fun p cur hcur => absurd hcur (by simp)
  | @assign i ps answers inst s hi htxn hfree hook =>
      have hown : ∀ j other, g.instances.get? j = some other → ∀ p ∈ ps,
          other.cursors.get? p = none := fun j other hj p hp =>
        Option.isNone_iff_eq_none.mp (hfree p hp other (Dict.mem_values_iff.mpr ⟨j, hj⟩))
      refine h.put (onceBy_assigned (h.instances _ _ hi) (hown i inst hi) s) ?_
      intro j other hj hother p hp hq
      change ((takePartitions g.committed ps inst.cursors).get? p).isSome = true at hp
      rw [get?_takePartitions] at hp
      -- either the partition comes in now, and no one owned it, or the instance had it before
      split at hp
      · next hmem =>
          rw [hown j other hother p hmem] at hq
          exact absurd hq (by simp)
      · exact hj (h.exclusive j other hother i inst hi p hq hp)
  | @revoke i ps inst hi htxn =>
      have hout : ∀ m ∈ inst.batch, m.partition ∉ ps := by
        simpa only [RevokesOutsideBatch, hi] using hok
      refine h.put_of_cursors hi (onceBy_revoked (h.instances _ _ hi) htxn hout) (fun p hp => ?_)
      rw [onRevoke_of_txn_none P htxn] at hp
      change ((releasePartitions ps inst.cursors).get? p).isSome = true at hp
      rw [get?_releasePartitions] at hp
      split at hp
      · exact absurd hp (by simp)
      · exact hp
  | @poll i p o inst cur r hi htxn hcur hr hnext =>
      refine h.put_of_cursors hi (onceBy_collected (h.instances _ _ hi) htxn hcur hnext) ?_
      intro q hq
      change ((advance p o inst.cursors).get? q).isSome = true at hq
      rw [get?_advance] at hq
      split at hq
      · next hqp => simp [hqp, hcur]
      · exact hq
  | @beginBatch i inst hi htxn =>
      refine h.put_of_cursors hi ((h.instances _ _ hi).congr rfl ?_ (fun _ => rfl)) (fun _ hp => hp)
      rw [inHand_beginBatch htxn]
  | @handleNext i inst t m todo r hi htxn htodo hook =>
      have hinst := h.instances _ _ hi
      refine h.put_of_cursors hi (hinst.congr rfl ?_ (fun _ => hinst.batch (by simp [htxn])))
        (fun _ hp => hp)
      rw [inHand_handled htxn htodo]
  | commitBatch hi htxn htodo => exact h.commit hi htxn htodo
  | @abort i inst t hi htxn =>
      refine h.put_of_cursors hi ((h.instances _ _ hi).congr rfl ?_
        (fun hs => absurd hs (by simp [Instance.abort, Instance.closeTxn]))) (fun _ hp => hp)
      exact inHand_closeTxn_sublist htxn
  | @periodic i inst hi htxn =>
      have hinst := h.instances _ _ hi
      exact h.put_of_cursors hi (hinst.congr rfl (List.Sublist.refl _) hinst.batch) (fun _ hp => hp)
  | @die i a ha =>
      -- what is left are instances that were there before
      have hget : ∀ j inst', (g.remove i).instances.get? j = some inst' →
          g.instances.get? j = some inst' := by
        intro j inst' hj
        rw [get?_remove] at hj
        split at hj
        · exact absurd hj (by simp)
        · exact hj
      refine ⟨fun j a hj k b hk => h.exclusive j a (hget j a hj) k b (hget k b hk), ?_, h.sorted,
        h.below⟩
      intro j a hj
      have := h.instances j a (hget j a hj)
      exact ⟨this.owned, this.sorted, this.above, this.behind, this.position, this.batch⟩

/-- No record is handled in two committed transactions, or twice in one. -/
theorem Once.nodup_done (h : Once g) : (g.done.map (fun m => (m.partition, m.offset))).Nodup := by
  rw [List.nodup_iff_pairwise_ne, List.pairwise_map]
  refine h.sorted.imp (fun {a b} hab heq => ?_)
  rw [Prod.mk.injEq] at heq
  exact absurd heq.2 (Nat.ne_of_lt (hab heq.1))

theorem once_run {acts : List (Action ω)} (hok : Always (step P log) RevokesOutsideBatch {} acts)
    (hrun : run (step P log) {} acts = some g) : Once g :=
  run_state_invariant (I := Once) once_init (fun _ _ _ h hguard hstep => h.step hguard (step_inv hstep))
    hok hrun

/-- **Only owned partitions are committed, and each record once.** In every run in which no partition is
    revoked while the batch holds its messages, every message of an open transaction is of a partition its
    instance owns, and no record is handled in two committed transactions, or twice in one. -/
theorem owned_and_once {acts : List (Action ω)}
    (hok : Always (step P log) RevokesOutsideBatch {} acts)
    (hrun : run (step P log) {} acts = some g) :
    (∀ i inst t, g.instances.get? i = some inst → inst.txn = some t →
        ∀ m ∈ t.handled ++ t.todo, (inst.cursors.get? m.partition).isSome = true) ∧
      (g.done.map (fun m => (m.partition, m.offset))).Nodup := by
  have h := once_run hok hrun
  constructor
  · intro i inst t hi htxn m hm
    have hand : m ∈ inst.inHand := by
      rw [inHand_of_txn htxn]
      exact List.mem_append_left _ hm
    obtain ⟨cur, hcur, _⟩ := (h.instances i inst hi).owned m hand
    simp [hcur]
  · exact h.nodup_done

/-! ## A partition that moves -/

/-- A partition that moves between two batches is handled once by each owner's share. -/
theorem owned_and_once_after_move :
    let acts : List (Action Unit) := [.start 0, .start 1, .assign 0 [0] (), .poll 0 0 0, .beginBatch 0,
      .handleNext 0, .commitBatch 0, .revoke 0 [0], .assign 1 [0] (), .poll 1 0 1, .beginBatch 1,
      .handleNext 1, .commitBatch 1]
    ∃ g, run (step relay twoRecords) {} acts = some g ∧
      (g.done.map (fun m => (m.partition, m.offset))).Nodup := by
  intro acts
  have hrun : (run (step relay twoRecords) {} acts).isSome = true := by decide +kernel
  refine ⟨_, (Option.some_get hrun).symm, ?_⟩
  exact (owned_and_once (by decide +kernel) (Option.some_get hrun).symm).2

/-- Instance 0 polls a record, loses its partition in the same `collect_batch` and commits the record's
    output all the same; the new owner resumes before the record and commits its output again. -/
theorem moved_record_committed_twice :
    let moved : List (Action Unit) := [.start 0, .start 1, .assign 0 [0] (), .poll 0 0 0, .revoke 0 [0],
      .assign 1 [0] (), .beginBatch 0]
    let rest : List (Action Unit) := [.handleNext 0, .commitBatch 0, .poll 1 0 0, .beginBatch 1,
      .handleNext 1, .commitBatch 1]
    (∃ g inst t, run (step relay twoRecords) {} moved = some g ∧ g.instances.get? 0 = some inst ∧
      inst.txn = some t ∧ ∃ m ∈ t.todo, inst.cursors.get? m.partition = none) ∧
    ∃ g, run (step relay twoRecords) {} (moved ++ rest) = some g ∧
      g.commits.map Commit.outputs = [[0], [0]] ∧
      ¬ (g.done.map (fun m => (m.partition, m.offset))).Nodup := by
  intro moved rest
  constructor
  · have hrun : (run (step relay twoRecords) {} moved).isSome = true := by decide +kernel
    have hinst : (((run (step relay twoRecords) {} moved).get hrun).instances.get? 0).isSome = true := by
      decide +kernel +revert
    have htxn : (((((run (step relay twoRecords) {} moved).get hrun).instances.get? 0).get
        hinst).txn).isSome = true := by
      decide +kernel +revert
    refine ⟨_, _, _, (Option.some_get hrun).symm, (Option.some_get hinst).symm,
      (Option.some_get htxn).symm, ?_⟩
    decide +kernel +revert
  · have hrun : (run (step relay twoRecords) {} (moved ++ rest)).isSome = true := by decide +kernel
    refine ⟨_, (Option.some_get hrun).symm, ?_, ?_⟩
    · decide +kernel +revert
    · decide +kernel +revert

end Transactional
end Wikistream
