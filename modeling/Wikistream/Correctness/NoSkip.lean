import Wikistream.Lib.Run
import Wikistream.Processors.Transactional

/-!
# `Correctness.NoSkip` — which records the committed offset may leave behind

The offset committed for a partition is the consumer's position. An aborted transaction does not move the
position back, so the records of its batch are behind the position and in no committed transaction.

## Contents
- **Records in hand** (`inHand`) and records handled in a committed transaction (`Handled`).
- **The monitor** (`watch`): which records of aborted batches an instance has left behind its position.
- **The invariant** (`Covered`): everything behind a cursor was handled, is in hand, or was left behind.
- **The result** (`committed_handled`), for runs that commit no partition with records left behind, and
  the run that shows the condition is needed (`aborted_record_skipped`).
-/

namespace Wikistream
namespace Transactional

open Lib Topics

variable {σ ρ ο ω ε : Type}

/-- The messages an instance has polled and not yet committed or aborted. -/
def Instance.inHand (inst : Instance σ ρ ο) : List (Message ρ) :=
  (match inst.txn with
    | some t => t.handled ++ t.todo
    | none => []) ++ inst.batch

/-- The record at offset `o` of partition `p` was handled in a transaction that committed. -/
def Handled (g : Group σ ρ ο) (p o : Nat) : Prop :=
  ∃ c ∈ g.commits, ∃ m ∈ c.handled, m.partition = p ∧ m.offset = o

instance (g : Group σ ρ ο) (p o : Nat) : Decidable (Handled g p o) :=
  inferInstanceAs (Decidable (∃ _ ∈ _, _))

/-- The message is in the hands of the instance. -/
def InHand (inst : Instance σ ρ ο) (p o : Nat) : Prop :=
  ∃ m ∈ inst.inHand, m.partition = p ∧ m.offset = o

/-! ## Records left behind -/

/-- For each instance, the partition and offset of the records it left behind. -/
abbrev LeftBehind := Nat → List (Nat × Nat)

/-- The records of an aborted batch that will not be polled again: they are behind the cursor of a
    partition the instance holds, and not committed. -/
def abandoned (g : Group σ ρ ο) (inst : Instance σ ρ ο) : List (Nat × Nat) :=
  (inst.inHand.filter (fun m =>
    (inst.cursors.get? m.partition).any (fun cur => m.offset < cur.fetch) &&
      decide ((g.committed.get? m.partition).getD 0 ≤ m.offset))).map (fun m => (m.partition, m.offset))

/-- What the monitor records. A partition that leaves the instance takes its records along. -/
def watch (left : LeftBehind) (g : Group σ ρ ο) : Action ω → LeftBehind
  | .start i => Function.update left i []
  | .revoke i ps => Function.update left i ((left i).filter (fun x => x.1 ∉ ps))
  | .abort i =>
      Function.update left i (left i ++ ((g.instances.get? i).map (abandoned g)).getD [])
  | _ => left

/-- No batch is committed while its instance holds, and commits the position of, a partition with records
    left behind. -/
def CommitsNothingLeft (s : Group σ ρ ο × LeftBehind) : Action ω → Prop
  | .commitBatch i =>
      match s.1.instances.get? i with
      | some inst => ∀ x ∈ s.2 i, (positions inst.cursors).get? x.1 = none
      | none => True
  | _ => True

instance (s : Group σ ρ ο × LeftBehind) (a : Action ω) : Decidable (CommitsNothingLeft s a) := by
  unfold CommitsNothingLeft
  split
  · split <;> infer_instance
  · infer_instance

/-! ## The invariant -/

/-- Everything visible behind a cursor of the instance was handled, is in hand or was left behind. -/
structure CoveredBy (log : Log ρ) (g : Group σ ρ ο) (left : List (Nat × Nat)) (inst : Instance σ ρ ο) :
    Prop where
  cursor : ∀ p cur, inst.cursors.get? p = some cur → ∀ o < cur.fetch, (log p o).isSome = true →
    Handled g p o ∨ InHand inst p o ∨ (p, o) ∈ left
  position : ∀ p cur, inst.cursors.get? p = some cur → ∀ q, cur.position = some q → q = cur.fetch
  /-- Nothing is collected while a transaction is open. -/
  batch : inst.txn.isSome = true → inst.batch = []

structure Covered (log : Log ρ) (g : Group σ ρ ο) (left : LeftBehind) : Prop where
  /-- Everything visible below a committed offset was handled in a committed transaction. -/
  committed : ∀ p c, g.committed.get? p = some c → ∀ o < c, (log p o).isSome = true → Handled g p o
  instances : ∀ i inst, g.instances.get? i = some inst → CoveredBy log g (left i) inst

variable {P : Processor σ ρ ο ω ε} {log : Log ρ} {g : Group σ ρ ο} {left : LeftBehind} {i : Nat}
variable {inst : Instance σ ρ ο}

theorem covered_init : Covered log ({} : Group σ ρ ο) left where
  committed p c hc := absurd hc (by simp)
  instances i inst hi := absurd hi (by simp)

/-- Changing one instance and its own list. -/
theorem Covered.put (h : Covered log g left) {left' : LeftBehind} (hne : ∀ j, j ≠ i → left' j = left j)
    (hinst : CoveredBy log g (left' i) inst) : Covered log (g.put i inst) left' where
  committed := h.committed
  instances := by
    intro j inst' hj
    rw [get?_put] at hj
    split at hj
    · next hji =>
        obtain rfl := Option.some.inj hj
        subst hji
        exact ⟨hinst.cursor, hinst.position, hinst.batch⟩
    · next hji =>
        have := h.instances j inst' hj
        rw [hne j hji]
        exact ⟨this.cursor, this.position, this.batch⟩

/-- A change that keeps the cursors and loses nothing in hand. -/
theorem CoveredBy.congr {l : List (Nat × Nat)} {inst' : Instance σ ρ ο} (h : CoveredBy log g l inst)
    (hcur : inst'.cursors = inst.cursors) (hhand : ∀ p o, InHand inst p o → InHand inst' p o)
    (hbatch : inst'.txn.isSome = true → inst'.batch = []) : CoveredBy log g l inst' where
  cursor p cur hc o ho hvis :=
    (h.cursor p cur (hcur ▸ hc) o ho hvis).imp_right (fun hr => hr.imp_left (hhand p o))
  position p cur hc := h.position p cur (hcur ▸ hc)
  batch := hbatch

theorem inHand_of_sublist {inst' : Instance σ ρ ο} {p o : Nat} (h : inst.inHand.Sublist inst'.inHand)
    (hhand : InHand inst p o) : InHand inst' p o := by
  obtain ⟨m, hm, hmo⟩ := hhand
  exact ⟨m, h.subset hm, hmo⟩

theorem inHand_of_eq {inst' : Instance σ ρ ο} {p o : Nat} (h : inst'.inHand = inst.inHand) (hhand : InHand inst p o) :
    InHand inst' p o := inHand_of_sublist (h ▸ List.Sublist.refl _) hhand

theorem inHand_of_txn_none (h : inst.txn = none) : inst.inHand = inst.batch := by
  simp [Instance.inHand, h]

theorem inHand_of_txn {t : Txn ρ ο} (h : inst.txn = some t) :
    inst.inHand = t.handled ++ t.todo ++ inst.batch := by
  simp [Instance.inHand, h]

theorem inHand_collect (h : inst.txn = none) (m : Message ρ) : (inst.collect m).inHand = inst.inHand ++ [m] := by
  rw [show (inst.collect m).inHand = _ from inHand_of_txn_none h, inHand_of_txn_none h]
  rfl

theorem inHand_beginBatch (h : inst.txn = none) : inst.beginBatch.inHand = inst.inHand := by
  rw [show inst.beginBatch.inHand = _ from inHand_of_txn rfl, inHand_of_txn_none h]
  simp [Instance.beginBatch]

/-- The message moves from one half of the transaction to the other. -/
theorem inHand_handled {t : Txn ρ ο} {m : Message ρ} {todo : List (Message ρ)} (h : inst.txn = some t)
    (htodo : t.todo = m :: todo) (r : σ × List ο) : (inst.handled t m todo r).inHand = inst.inHand := by
  rw [show (inst.handled t m todo r).inHand = _ from inHand_of_txn rfl, inHand_of_txn h, htodo]
  simp [Instance.handled]

/-- Without the transaction, less is in hand. -/
theorem inHand_closeTxn_sublist {t : Txn ρ ο} (h : inst.txn = some t) : inst.closeTxn.inHand.Sublist inst.inHand := by
  rw [show inst.closeTxn.inHand = _ from inHand_of_txn_none rfl, inHand_of_txn h]
  exact List.sublist_append_right _ _

theorem Handled.commit {p o : Nat} {t : Txn ρ ο} (h : Handled g p o) :
    Handled (g.commit i inst t) p o := by
  obtain ⟨c, hc, hm⟩ := h
  exact ⟨c, List.mem_append_left _ hc, hm⟩

/-- What a commit makes of the records in hand. -/
theorem handled_commit_of_inHand (h : CoveredBy log g (left i) inst) {t : Txn ρ ο}
    (htxn : inst.txn = some t) (htodo : t.todo = []) {p o : Nat} (hhand : InHand inst p o) :
    Handled (g.commit i inst t) p o := by
  obtain ⟨m, hm, hmo⟩ := hhand
  rw [inHand_of_txn htxn, htodo, h.batch (by simp [htxn]), List.append_nil, List.append_nil] at hm
  exact ⟨⟨t.handled, t.outputs⟩, List.mem_append_right _ (List.mem_singleton_self _), m, hm, hmo⟩

/-! ## One step -/

theorem coveredBy_assigned (h : Covered log g left) (hi : g.instances.get? i = some inst)
    (ps : List Nat) (s : σ) : CoveredBy log g (left i) (inst.assigned g.committed ps s) where
  cursor := by
    intro p cur hcur o ho hvis
    rcases takePartitions_cases hcur with rfl | hcur
    · cases hc : g.committed.get? p with
      | none =>
          rw [hc] at ho
          exact absurd ho (Nat.not_lt_zero o)
      | some c =>
          rw [hc] at ho
          exact Or.inl (h.committed p c hc o ho hvis)
    · exact (h.instances i inst hi).cursor p cur hcur o ho hvis
  position p cur hcur q hq := (h.instances i inst hi).position p cur (get?_of_position hcur hq) q hq
  batch := (h.instances i inst hi).batch

theorem coveredBy_revoked (h : CoveredBy log g (left i) inst) (htxn : inst.txn = none)
    (ps : List Nat) :
    CoveredBy log g ((left i).filter (fun x => x.1 ∉ ps)) (inst.onRevoke P ps) := by
  rw [onRevoke_of_txn_none P htxn]
  refine ⟨?_, ?_, h.batch⟩
  · intro p cur hcur o ho hvis
    obtain ⟨hp, hcur⟩ := get?_of_releasePartitions hcur
    rcases h.cursor p cur hcur o ho hvis with hh | hh | hh
    · exact Or.inl hh
    · exact Or.inr (Or.inl hh)
    · exact Or.inr (Or.inr (List.mem_filter.mpr ⟨hh, by simpa using hp⟩))
  · intro p cur hcur
    exact h.position p cur (get?_of_releasePartitions hcur).2

theorem coveredBy_collected (h : CoveredBy log g (left i) inst) (htxn : inst.txn = none) {p o : Nat}
    {cur : Cursor} {r : ρ} (hcur : inst.cursors.get? p = some cur)
    (hnext : NextVisible log p cur.fetch o) :
    CoveredBy log g (left i) (inst.collect ⟨p, o, r⟩) := by
  have hhand := inHand_collect htxn ⟨p, o, r⟩
  have hmono : ∀ q x, InHand inst q x → InHand (inst.collect ⟨p, o, r⟩) q x := by
    rintro q x ⟨m, hm, hmx⟩
    exact ⟨m, by rw [hhand]; exact List.mem_append_left _ hm, hmx⟩
  refine ⟨?_, ?_, fun hs => absurd hs (by simp [Instance.collect, htxn])⟩
  · intro q cur' hcur' x hx hvis
    change (advance p o inst.cursors).get? q = some cur' at hcur'
    rw [get?_advance] at hcur'
    split at hcur'
    · next hqp =>
        subst hqp
        obtain rfl := Option.some.inj hcur'
        rcases Nat.lt_or_ge x cur.fetch with hlt | hge
        · exact (h.cursor q cur hcur x hlt hvis).imp_right (fun hr => hr.imp_left (hmono q x))
        · -- between the cursor and the record polled nothing is visible
          rcases Nat.lt_or_ge x o with hxo | hxo
          · have hnone := hnext.2 x hxo hge
            rw [Option.isNone_iff_eq_none] at hnone
            rw [hnone] at hvis
            exact absurd hvis (by simp)
          · have hxo' : x = o := Nat.le_antisymm (Nat.le_of_lt_succ hx) hxo
            refine Or.inr (Or.inl ⟨⟨q, o, r⟩, ?_, rfl, hxo'.symm⟩)
            rw [hhand]
            exact List.mem_append_right _ (List.mem_singleton_self _)
    · exact (h.cursor q cur' hcur' x hx hvis).imp_right (fun hr => hr.imp_left (hmono q x))
  · intro q cur' hcur' y hy
    change (advance p o inst.cursors).get? q = some cur' at hcur'
    rw [get?_advance] at hcur'
    split at hcur'
    · obtain rfl := Option.some.inj hcur'
      exact (Option.some.inj hy).symm
    · exact h.position q cur' hcur' y hy

theorem coveredBy_abort (h : Covered log g left) (hi : g.instances.get? i = some inst) :
    CoveredBy log g (left i ++ abandoned g inst) inst.abort := by
  have hinst := h.instances i inst hi
  refine ⟨?_, hinst.position, fun hs => absurd hs (by simp [Instance.abort, Instance.closeTxn])⟩
  intro p cur hcur o ho hvis
  rcases hinst.cursor p cur hcur o ho hvis with hh | ⟨m, hm, rfl, rfl⟩ | hh
  · exact Or.inl hh
  · rcases Nat.lt_or_ge m.offset ((g.committed.get? m.partition).getD 0) with hlt | hge
    · cases hc : g.committed.get? m.partition with
      | none =>
          rw [hc] at hlt
          exact absurd hlt (Nat.not_lt_zero _)
      | some c =>
          rw [hc] at hlt
          exact Or.inl (h.committed _ c hc _ hlt hvis)
    · have hcur' : inst.cursors.get? m.partition = some cur := hcur
      refine Or.inr (Or.inr (List.mem_append_right _ (List.mem_map.mpr ⟨m, ?_, rfl⟩)))
      refine List.mem_filter.mpr ⟨hm, ?_⟩
      simp [hcur', ho, hge]
  · exact Or.inr (Or.inr (List.mem_append_left _ hh))

theorem Covered.commit (h : Covered log g left) (hi : g.instances.get? i = some inst)
    {t : Txn ρ ο} (htxn : inst.txn = some t) (htodo : t.todo = [])
    (hok : ∀ x ∈ left i, (positions inst.cursors).get? x.1 = none) :
    Covered log (g.commit i inst t) left := by
  have hinst := h.instances i inst hi
  refine ⟨?_, ?_⟩
  · intro p c hc o ho hvis
    rw [get?_committed_commit] at hc
    cases hpos : (positions inst.cursors).get? p with
    | none =>
        -- a partition without a position keeps its committed offset
        rw [hpos, Option.none_or] at hc
        exact (h.committed p c hc o ho hvis).commit
    | some q =>
        rw [hpos, Option.some_or] at hc
        obtain rfl := Option.some.inj hc
        have hcur := hpos
        rw [get?_positions, Option.bind_eq_some_iff] at hcur
        obtain ⟨cur, hcur, hq⟩ := hcur
        rw [hinst.position p cur hcur q hq] at ho
        -- what lies before the position was handled, is in hand and gets handled now, or was left behind by an abort
        rcases hinst.cursor p cur hcur o ho hvis with hh | hh | hh
        · exact hh.commit
        · exact handled_commit_of_inHand hinst htxn htodo hh
        · have := hok _ hh
          rw [hpos] at this
          exact absurd this (by simp)
  · intro j inst' hj
    rw [get?_commit] at hj
    split at hj
    · next hji =>
        subst hji
        obtain rfl := Option.some.inj hj
        refine ⟨?_, hinst.position, fun hs => absurd hs (by simp [Instance.closeTxn])⟩
        intro p cur hcur o ho hvis
        rcases hinst.cursor p cur hcur o ho hvis with hh | hh | hh
        · exact Or.inl hh.commit
        · exact Or.inl (handled_commit_of_inHand hinst htxn htodo hh)
        · exact Or.inr (Or.inr hh)
    · have hj' := h.instances j inst' hj
      exact ⟨fun p cur hcur o ho hvis =>
        (hj'.cursor p cur hcur o ho hvis).imp_left Handled.commit, hj'.position, hj'.batch⟩

/-- **One step keeps everything behind a cursor accounted for.** -/
theorem Covered.step (h : Covered log g left) {a : Action ω} {g' : Group σ ρ ο}
    (hok : CommitsNothingLeft (g, left) a) (hstep : Step P log g a g') :
    Covered log g' (watch left g a) := by
  cases hstep with
  | @start i hi =>
      refine h.put (fun j hj => Function.update_of_ne hj _ _) ⟨?_, ?_, ?_⟩
      · exact fun p cur hcur => absurd hcur (by simp)
      · exact fun p cur hcur => absurd hcur (by simp)
      · exact fun hs => absurd hs (by simp)
  | assign hi htxn hfree hook => exact h.put (fun _ _ => rfl) (coveredBy_assigned h hi _ _)
  | revoke hi htxn =>
      refine h.put (fun j hj => Function.update_of_ne hj _ _) ?_
      show CoveredBy log g (Function.update left _ _ _) _
      rw [Function.update_self]
      exact coveredBy_revoked (h.instances _ _ hi) htxn _
  | poll hi htxn hcur hr hnext =>
      exact h.put (fun _ _ => rfl) (coveredBy_collected (h.instances _ _ hi) htxn hcur hnext)
  | @beginBatch i inst hi htxn =>
      refine h.put (fun _ _ => rfl) ((h.instances _ _ hi).congr rfl ?_ (fun _ => rfl))
      exact fun p o hm => inHand_of_eq (inHand_beginBatch htxn) hm
  | @handleNext i inst t m todo r hi htxn htodo hook =>
      have hinst := h.instances _ _ hi
      refine h.put (fun _ _ => rfl) (hinst.congr rfl ?_ (fun _ => hinst.batch (by simp [htxn])))
      exact fun p o hm => inHand_of_eq (inHand_handled htxn htodo r) hm
  | commitBatch hi htxn htodo =>
      refine h.commit hi htxn htodo ?_
      simpa only [CommitsNothingLeft, hi] using hok
  | @abort i inst t hi htxn =>
      refine h.put (fun j hj => Function.update_of_ne hj _ _) ?_
      show CoveredBy log g (Function.update left i _ i) _
      rw [Function.update_self, hi]
      exact coveredBy_abort h hi
  | periodic hi htxn =>
      have hinst := h.instances _ _ hi
      exact h.put (fun _ _ => rfl) (hinst.congr rfl (fun _ _ hm => hm) hinst.batch)
  | @die i a ha =>
      -- what the instance had left behind goes with it
      have hw : ∀ j inst', (g.remove i).instances.get? j = some inst' →
          g.instances.get? j = some inst' ∧ watch left g a j = left j := by
        intro j inst' hj
        rw [get?_remove] at hj
        split at hj
        · exact absurd hj (by simp)
        · refine ⟨hj, ?_⟩
          rcases ha with rfl | rfl | ⟨ps, ω', rfl⟩ <;> rfl
      refine ⟨h.committed, fun j inst' hj => ?_⟩
      obtain ⟨hj', hwj⟩ := hw j inst' hj
      rw [hwj]
      exact ⟨(h.instances j inst' hj').cursor, (h.instances j inst' hj').position,
        (h.instances j inst' hj').batch⟩

/-! ## Runs -/

/-- The loop with the monitor beside it. -/
abbrev watched (P : Processor σ ρ ο ω ε) (log : Log ρ) :
    Group σ ρ ο × LeftBehind → Action ω → Option (Group σ ρ ο × LeftBehind) :=
  monitored (step P log) watch

theorem covered_run {acts : List (Action ω)} {s : Group σ ρ ο × LeftBehind}
    (hok : Always (watched P log) CommitsNothingLeft ({}, fun _ => []) acts)
    (hrun : run (watched P log) ({}, fun _ => []) acts = some s) : Covered log s.1 s.2 := by
  refine run_state_invariant (I := fun s => Covered log s.1 s.2) covered_init ?_ hok hrun
  intro s a s' hs hguard hstep
  obtain ⟨hg, hw⟩ := monitored_eq_some.mp hstep
  rw [hw]
  exact hs.step hguard (step_inv hg)

/-- Only visible records are polled. -/
theorem polled_visible {acts : List (Action ω)} {s : Group σ ρ ο × LeftBehind}
    (hok : Always (watched P log) CommitsNothingLeft ({}, fun _ => []) acts)
    (hrun : run (watched P log) ({}, fun _ => []) acts = some s) {p o : Nat}
    (hpoll : .poll i p o ∈ acts) : (log p o).isSome = true := by
  refine run_invariant (I := fun acts _ => .poll i p o ∈ acts → (log p o).isSome = true)
    (fun h => absurd h (by simp)) ?_ hok hrun hpoll
  intro as t a t' ih _ hstep hmem
  rcases List.mem_append.mp hmem with hmem' | hmem'
  · exact ih hmem'
  · obtain rfl := List.mem_singleton.mp hmem'
    have hinv := step_inv (monitored_eq_some.mp hstep).1
    generalize t'.1 = g' at hinv
    cases hinv with
    | poll hi htxn hcur hr hnext => simp [hr]
    | die ha => simp at ha

/-- **Nothing below the committed offset is skipped.** In every run in which no batch is committed while
    its instance holds a partition with records left behind by an aborted one, every record polled below a
    committed offset was handled in a transaction that committed. -/
theorem committed_handled {acts : List (Action ω)} {s : Group σ ρ ο × LeftBehind}
    (hok : Always (watched P log) CommitsNothingLeft ({}, fun _ => []) acts)
    (hrun : run (watched P log) ({}, fun _ => []) acts = some s) {p o c : Nat}
    (hpoll : .poll i p o ∈ acts) (hc : s.1.committed.get? p = some c) (ho : o < c) :
    Handled s.1 p o :=
  (covered_run hok hrun).committed p c hc o ho (polled_visible hok hrun hpoll)

/-! ## An aborted batch -/

/-- A subclass that passes its input on. -/
def relay : Processor Unit Nat Nat Unit Unit where
  init := ()
  handle s m := .ok (s, [m.record])

/-- A topic with one partition of two records. -/
def twoRecords : Log Nat := fun p o => if p = 0 ∧ o < 2 then some o else none

/-- An abort followed by a restart commits nothing it did not handle. -/
theorem committed_handled_after_restart :
    let acts : List (Action Unit) := [.start 0, .assign 0 [0] (), .poll 0 0 0, .beginBatch 0, .abort 0,
      .crash 0, .start 0, .assign 0 [0] (), .poll 0 0 0, .beginBatch 0, .handleNext 0, .commitBatch 0]
    ∃ s, run (watched relay twoRecords) ({}, fun _ => []) acts = some s ∧
      s.1.committed.get? 0 = some 1 ∧ Handled s.1 0 0 := by
  intro acts
  have hrun : (run (watched relay twoRecords) ({}, fun _ => []) acts).isSome = true := by
    decide +kernel
  have hc : ((run (watched relay twoRecords) ({}, fun _ => []) acts).get hrun).1.committed.get? 0 =
      some 1 := by
    decide +kernel +revert
  refine ⟨_, (Option.some_get hrun).symm, hc, ?_⟩
  exact committed_handled (i := 0) (by decide +kernel) (Option.some_get hrun).symm
    (by simp [acts]) hc (by decide)

/-- The batch of the first record is aborted, the next one commits position 2, and the first record is
    handled in no committed transaction. -/
theorem aborted_record_skipped :
    let acts : List (Action Unit) := [.start 0, .assign 0 [0] (), .poll 0 0 0, .beginBatch 0,
      .handleNext 0, .abort 0, .poll 0 0 1, .beginBatch 0, .handleNext 0, .commitBatch 0]
    ∃ g, run (step relay twoRecords) {} acts = some g ∧ .poll 0 0 0 ∈ acts ∧
      g.committed.get? 0 = some 2 ∧ ¬ Handled g 0 0 := by
  intro acts
  have hrun : (run (step relay twoRecords) {} acts).isSome = true := by decide +kernel
  refine ⟨_, (Option.some_get hrun).symm, by simp [acts], ?_, ?_⟩
  · decide +kernel +revert
  · decide +kernel +revert

end Transactional
end Wikistream
