import Wikistream.Correctness.NoDuplicate
import Wikistream.Processors.Retention

/-!
# `Correctness.RetentionGaps` — records that expire unread are reported

A group that was away for too long resumes at the log start. What is still kept is skipped by no commit, as without
retention; what is deleted was handled, or is in the hands of an instance, or a report counts it, or it was deleted
while an instance still had it to read.

## Contents
- **What is not read any more** (`Lost`).
- **The invariant** (`Accounts`): what became of a deleted record, for the group and for each instance that is assigned
  its partition.
- **Lost for good** (`Unhandled`): while no partition is revoked with messages of it in the batch, nothing that is lost
  is ever handled.
- **The result** (`losses_reported`).
-/

namespace Wikistream
namespace Retention

open Lib Topics Offsets Transactional

variable {σ ρ ο ω ε : Type}

/-- A report counts the offset, or it was deleted under the eyes of an instance. -/
def World.Lost (w : World σ ρ ο) (p o : Nat) : Prop := (∃ gap ∈ w.gaps, gap.Covers p o) ∨ (p, o) ∈ w.overtaken

/-! ## The monitor -/

/-- Which records of aborted batches an instance has left behind its position. -/
def watch (left : LeftBehind) (w : World σ ρ ο) : Action ω → LeftBehind
  | .loop a => Transactional.watch left w.group a
  | .expire _ _ => left

/-- No batch is committed while its instance holds, and commits the position of, a partition with records left
    behind. -/
def NothingLeft (s : World σ ρ ο × LeftBehind) : Action ω → Prop
  | .loop a => CommitsNothingLeft (s.1.group, s.2) a
  | .expire _ _ => True

/-- No revoked partition has a message in the batch. -/
def OutsideBatch (s : World σ ρ ο × LeftBehind) : Action ω → Prop
  | .loop a => RevokesOutsideBatch s.1.group a
  | .expire _ _ => True

instance (s : World σ ρ ο × LeftBehind) : ∀ a : Action ω, Decidable (NothingLeft s a)
  | .loop a => inferInstanceAs (Decidable (CommitsNothingLeft (s.1.group, s.2) a))
  | .expire _ _ => isTrue trivial

instance (s : World σ ρ ο × LeftBehind) : ∀ a : Action ω, Decidable (OutsideBatch s a)
  | .loop a => inferInstanceAs (Decidable (RevokesOutsideBatch s.1.group a))
  | .expire _ _ => isTrue trivial

/-! ## The invariant -/

/-- What became of the record at `o`, for an instance that reads partition `p` at `cur`. -/
def Explained (w : World σ ρ ο) (left : List (Nat × Nat)) (inst : Instance σ ρ ο) (p o : Nat) (cur : Cursor) : Prop :=
  Handled w.group p o ∨ w.Lost p o ∨ (o < cur.fetch ∧ InHand inst p o) ∨ (p, o) ∈ left

/-- The instance can explain every deleted record of its partition, from where the group began. -/
def Explains (log : Log ρ) (w : World σ ρ ο) (left : List (Nat × Nat)) (inst : Instance σ ρ ο) (p : Nat)
    (cur : Cursor) : Prop :=
  ∃ b, w.began.get? p = some b ∧
    ∀ o, b ≤ o → o < w.logStart p → (log p o).isSome = true → Explained w left inst p o cur

structure Accounts (log : Log ρ) (w : World σ ρ ο) (left : LeftBehind) : Prop where
  /-- What is kept is skipped by no commit. -/
  kept : Covered (kept log w.logStart) w.group left
  /-- What is deleted below a committed offset was handled or lost. -/
  committed : ∀ p c, w.group.committed.get? p = some c → ∃ b, w.began.get? p = some b ∧
    ∀ o, b ≤ o → o < c → o < w.logStart p → (log p o).isSome = true → Handled w.group p o ∨ w.Lost p o
  cursor : ∀ i inst, w.group.instances.get? i = some inst → ∀ p cur, inst.cursors.get? p = some cur →
    Explains log w (left i) inst p cur

variable {P : Processor σ ρ ο ω ε} {log : Log ρ} {w : World σ ρ ο} {left : LeftBehind} {i : Nat}
variable {inst : Instance σ ρ ο}

theorem accounts_init : Accounts log ({} : World σ ρ ο) left where
  kept := covered_init
  committed p c hc := absurd hc (by simp)
  cursor i inst hi := absurd hi (by simp)

/-- One instance changes, and explains what it did before. -/
theorem Accounts.put (h : Accounts log w left) {inst' : Instance σ ρ ο} {left' : LeftBehind}
    (hkept : Covered (Retention.kept log w.logStart) (w.group.put i inst') left')
    (hne : ∀ j, j ≠ i → left' j = left j)
    (hcur : ∀ p cur, inst'.cursors.get? p = some cur → Explains log w (left' i) inst' p cur) :
    Accounts log { w with group := w.group.put i inst' } left' where
  kept := hkept
  committed := h.committed
  cursor := by
    intro j inst'' hj
    change (w.group.put i inst').instances.get? j = some inst'' at hj
    rw [get?_put] at hj
    split at hj
    · next hji =>
        obtain rfl := Option.some.inj hj
        subst hji
        exact hcur
    · next hji =>
        rw [hne j hji]
        exact h.cursor j inst'' hj

/-- A cursor that stays, or moves on. -/
theorem Explains.mono {l l' : List (Nat × Nat)} {inst' : Instance σ ρ ο} {p : Nat} {cur cur' : Cursor}
    (h : Explains log w l inst p cur) (hfetch : cur.fetch ≤ cur'.fetch)
    (hhand : ∀ o, InHand inst p o → InHand inst' p o) (hleft : ∀ o, (p, o) ∈ l → (p, o) ∈ l') :
    Explains log w l' inst' p cur' := by
  obtain ⟨b, hb, hall⟩ := h
  refine ⟨b, hb, ?_⟩
  intro o hlow hlt hvis
  rcases hall o hlow hlt hvis with hdone | hlost | ⟨hbehind, hmine⟩ | hgone
  · exact Or.inl hdone
  · exact Or.inr (Or.inl hlost)
  · exact Or.inr (Or.inr (Or.inl ⟨hbehind.trans_le hfetch, hhand o hmine⟩))
  · exact Or.inr (Or.inr (Or.inr (hleft o hgone)))

/-! ## The steps of the loop -/

/-- A partition comes in: what its committed offset fell behind is reported. -/
theorem Accounts.assign (h : Accounts log w left) {ps : List Nat} {answers : ω} {g : Group σ ρ ο}
    (hkept : Covered (Retention.kept log w.logStart) g left)
    (hcommits : g.commits = w.group.commits) (hcommitted : g.committed = w.group.committed)
    (hold : ∀ j inst', g.instances.get? j = some inst' → ∀ p cur, inst'.cursors.get? p = some cur →
      p ∈ ps ∧ cur = ⟨(w.group.committed.get? p).getD 0, none⟩ ∨
        ∃ inst, w.group.instances.get? j = some inst ∧ inst.cursors.get? p = some cur ∧ inst'.inHand = inst.inHand) :
    Accounts log (w.after g (.assign i ps answers)) left := by
  have hhandled : ∀ p o, Handled g p o ↔ Handled w.group p o := by
    intro p o
    unfold Handled
    rw [hcommits]
  have hlost : ∀ p o, w.Lost p o → (w.after g (.assign i ps answers)).Lost p o := by
    rintro p o (⟨gap, hgap, hcov⟩ | hmem)
    · exact Or.inl ⟨gap, List.mem_append_left _ hgap, hcov⟩
    · exact Or.inr hmem
  -- a partition with a committed offset keeps where the group began
  have hbegan : ∀ p, ¬ (p ∈ ps ∧ w.group.committed.get? p = none) → (w.beginnings ps).get? p = w.began.get? p := by
    intro p hp
    rw [get?_beginnings, if_neg hp]
  -- and one that comes in without has nothing to explain
  have hfresh : ∀ j p inst cur, p ∈ ps ∧ w.group.committed.get? p = none →
      Explains log (w.after g (.assign i ps answers)) (left j) inst p cur := by
    intro j p inst cur hp
    refine ⟨w.logStart p, ?_, fun o hlow hlt => absurd hlt (Nat.not_lt.mpr hlow)⟩
    show (w.beginnings ps).get? p = _
    rw [get?_beginnings, if_pos hp]
  refine ⟨hkept, ?_, ?_⟩
  · intro p c hc
    change g.committed.get? p = some c at hc
    rw [hcommitted] at hc
    obtain ⟨b, hb, hall⟩ := h.committed p c hc
    refine ⟨b, (hbegan p (fun hp => by simp [hc] at hp)).trans hb, ?_⟩
    intro o hlow hoc hlt hvis
    exact (hall o hlow hoc hlt hvis).imp ((hhandled p o).mpr) (hlost p o)
  · intro j inst' hj p cur hcur
    rcases hold j inst' hj p cur hcur with ⟨hp, rfl⟩ | ⟨inst, hinst, hcur', hhand⟩
    · cases hc : w.group.committed.get? p with
      | none => exact hfresh j p _ _ ⟨hp, hc⟩
      | some c =>
          obtain ⟨b, hb, hall⟩ := h.committed p c hc
          refine ⟨b, (hbegan p (fun hp => by simp [hc] at hp)).trans hb, ?_⟩
          intro o hlow hlt hvis
          rcases Nat.lt_or_ge o c with hoc | hco
          · rcases hall o hlow hoc hlt hvis with hdone | hgone
            · exact Or.inl ((hhandled p o).mpr hdone)
            · exact Or.inr (Or.inl (hlost p o hgone))
          · -- from the committed offset to the log start, which is the gap of the partition
            refine Or.inr (Or.inl (Or.inl ⟨⟨p, c, w.logStart p⟩, List.mem_append_right _ ?_, rfl, hco, hlt⟩))
            exact mem_findRetentionGaps.mpr ⟨hp, hc, rfl, hco.trans_lt hlt⟩
    · by_cases hp : p ∈ ps ∧ w.group.committed.get? p = none
      · exact hfresh j p _ _ hp
      obtain ⟨b, hb, hall⟩ := h.cursor j inst hinst p cur hcur'
      refine ⟨b, (hbegan p hp).trans hb, ?_⟩
      intro o hlow hlt hvis
      rcases hall o hlow hlt hvis with hdone | hgone | ⟨hbehind, hmine⟩ | hleft
      · exact Or.inl ((hhandled p o).mpr hdone)
      · exact Or.inr (Or.inl (hlost p o hgone))
      · refine Or.inr (Or.inr (Or.inl ⟨hbehind, ?_⟩))
        unfold InHand
        rwa [hhand]
      · exact Or.inr (Or.inr (Or.inr hleft))

/-- A batch is aborted: what is behind the cursor is left behind. -/
theorem explains_abort (h : Accounts log w left) (hi : w.group.instances.get? i = some inst) {p : Nat} {cur : Cursor}
    (hcur : inst.cursors.get? p = some cur) :
    Explains log w (left i ++ abandoned w.group inst) inst.abort p cur := by
  obtain ⟨b, hb, hall⟩ := h.cursor i inst hi p cur hcur
  refine ⟨b, hb, ?_⟩
  intro o hlow hlt hvis
  rcases hall o hlow hlt hvis with hdone | hlost | ⟨hbehind, m, hm, rfl, rfl⟩ | hleft
  · exact Or.inl hdone
  · exact Or.inr (Or.inl hlost)
  · rcases Nat.lt_or_ge m.offset ((w.group.committed.get? m.partition).getD 0) with hoc | hco
    · cases hc : w.group.committed.get? m.partition with
      | none =>
          rw [hc] at hoc
          exact absurd hoc (Nat.not_lt_zero _)
      | some c =>
          rw [hc] at hoc
          obtain ⟨b', hb', hall'⟩ := h.committed _ c hc
          obtain rfl := Option.some.inj (hb.symm.trans hb')
          rcases hall' _ hlow hoc hlt hvis with hdone | hlost
          · exact Or.inl hdone
          · exact Or.inr (Or.inl hlost)
    · refine Or.inr (Or.inr (Or.inr (List.mem_append_right _ (List.mem_map.mpr ⟨m, ?_, rfl⟩))))
      refine List.mem_filter.mpr ⟨hm, ?_⟩
      simp [hcur, hbehind, hco]
  · exact Or.inr (Or.inr (Or.inr (List.mem_append_left _ hleft)))

/-- A transaction commits: what was in hand is handled now, and nothing was left behind. -/
theorem Accounts.commit (h : Accounts log w left) (hi : w.group.instances.get? i = some inst) {t : Txn ρ ο}
    (htxn : inst.txn = some t) (htodo : t.todo = [])
    (hok : ∀ x ∈ left i, (positions inst.cursors).get? x.1 = none) :
    Accounts log { w with group := w.group.commit i inst t } left := by
  have hinst := h.kept.instances i inst hi
  have hnow : ∀ p o, InHand inst p o → Handled (w.group.commit i inst t) p o :=
    fun p o hhand => handled_commit_of_inHand hinst htxn htodo hhand
  refine ⟨h.kept.commit hi htxn htodo hok, ?_, ?_⟩
  · intro p c hc
    change (w.group.commit i inst t).committed.get? p = some c at hc
    rw [get?_committed_commit] at hc
    cases hpos : (positions inst.cursors).get? p with
    | none =>
        rw [hpos, Option.none_or] at hc
        obtain ⟨b, hb, hall⟩ := h.committed p c hc
        exact ⟨b, hb, fun o hlow hoc hlt hvis => (hall o hlow hoc hlt hvis).imp_left Handled.commit⟩
    | some q =>
        obtain ⟨cur, hcur, _⟩ := Option.bind_eq_some_iff.mp ((get?_positions inst.cursors p).symm.trans hpos)
        obtain ⟨b, hb, hall⟩ := h.cursor i inst hi p cur hcur
        refine ⟨b, hb, ?_⟩
        intro o hlow _ hlt hvis
        rcases hall o hlow hlt hvis with hdone | hlost | ⟨_, hmine⟩ | hleft
        · exact Or.inl hdone.commit
        · exact Or.inr hlost
        · exact Or.inl (hnow p o hmine)
        · exact absurd ((hok _ hleft).symm.trans hpos) (by simp)
  · intro j inst' hj p cur hcur
    change (w.group.commit i inst t).instances.get? j = some inst' at hj
    rw [get?_commit] at hj
    split at hj
    · next hji =>
        subst hji
        obtain rfl := Option.some.inj hj
        obtain ⟨b, hb, hall⟩ := h.cursor j inst hi p cur hcur
        refine ⟨b, hb, ?_⟩
        intro o hlow hlt hvis
        rcases hall o hlow hlt hvis with hdone | hlost | ⟨_, hmine⟩ | hleft
        · exact Or.inl hdone.commit
        · exact Or.inr (Or.inl hlost)
        · exact Or.inl (hnow p o hmine)
        · exact Or.inr (Or.inr (Or.inr hleft))
    · obtain ⟨b, hb, hall⟩ := h.cursor j inst' hj p cur hcur
      exact ⟨b, hb, fun o hlow hlt hvis => (hall o hlow hlt hvis).imp_left Handled.commit⟩

/-- An instance dies. -/
theorem Accounts.remove (h : Accounts log w left) {left' : LeftBehind}
    (hkept : Covered (Retention.kept log w.logStart) (w.group.remove i) left') (hsame : ∀ j, left' j = left j) :
    Accounts log { w with group := w.group.remove i } left' where
  kept := hkept
  committed := h.committed
  cursor := by
    intro j inst' hj
    change (w.group.remove i).instances.get? j = some inst' at hj
    rw [get?_remove] at hj
    split at hj
    · exact absurd hj (by simp)
    · rw [hsame]
      exact h.cursor j inst' hj

/-- **A step of the loop.** -/
theorem Accounts.loop (h : Accounts log w left) {a : Transactional.Action ω} {g : Group σ ρ ο}
    (hok : CommitsNothingLeft (w.group, left) a)
    (hstep : Transactional.Step P (Retention.kept log w.logStart) w.group a g) :
    Accounts log (w.after g a) (Transactional.watch left w.group a) := by
  have hkept := h.kept.step hok hstep
  cases hstep with
  | @start i hi =>
      exact h.put hkept (fun j hj => Function.update_of_ne hj _ _) (fun p cur hcur => absurd hcur (by simp))
  | @assign i ps answers inst s hi htxn hfree hook =>
      refine h.assign hkept rfl rfl ?_
      intro j inst' hj p cur hcur
      rw [get?_put] at hj
      split at hj
      · next hji =>
          obtain rfl := Option.some.inj hj
          change (takePartitions w.group.committed ps inst.cursors).get? p = some cur at hcur
          rw [get?_takePartitions] at hcur
          split at hcur
          · next hp => exact Or.inl ⟨hp, (Option.some.inj hcur).symm⟩
          · exact Or.inr ⟨inst, hji ▸ hi, hcur, rfl⟩
      · exact Or.inr ⟨inst', hj, hcur, rfl⟩
  | @revoke i ps inst hi htxn =>
      refine h.put hkept (fun j hj => Function.update_of_ne hj _ _) ?_
      intro p cur hcur
      rw [onRevoke_of_txn_none P htxn] at hcur ⊢
      obtain ⟨hp, hcur'⟩ := get?_of_releasePartitions hcur
      refine (h.cursor i inst hi p cur hcur').mono (Nat.le_refl _) (fun _ hm => hm) ?_
      intro o ho
      rw [show Transactional.watch left w.group (Transactional.Action.revoke i ps : Transactional.Action ω) i = _ from
        Function.update_self _ _ _]
      exact List.mem_filter.mpr ⟨ho, by simpa using hp⟩
  | @poll i p o inst cur r hi htxn hcur hr hnext =>
      refine h.put hkept (fun _ _ => rfl) ?_
      intro q cur' hcur'
      have hmono : ∀ x, InHand inst q x → InHand (inst.collect ⟨p, o, r⟩) q x := by
        rintro x ⟨m, hm, hmx⟩
        refine ⟨m, ?_, hmx⟩
        rw [inHand_collect htxn]
        exact List.mem_append_left _ hm
      change (advance p o inst.cursors).get? q = some cur' at hcur'
      rw [get?_advance] at hcur'
      split at hcur'
      · next hqp =>
          subst hqp
          obtain rfl := Option.some.inj hcur'
          exact (h.cursor i inst hi q cur hcur).mono (hnext.1.trans (Nat.le_succ o)) hmono (fun _ hx => hx)
      · exact (h.cursor i inst hi q cur' hcur').mono (Nat.le_refl _) hmono (fun _ hx => hx)
  | @beginBatch i inst hi htxn =>
      refine h.put hkept (fun _ _ => rfl) ?_
      intro p cur hcur
      refine (h.cursor i inst hi p cur hcur).mono (Nat.le_refl _) ?_ (fun _ hx => hx)
      exact fun o hm => inHand_of_eq (inHand_beginBatch htxn) hm
  | @handleNext i inst t m todo r hi htxn htodo hook =>
      refine h.put hkept (fun _ _ => rfl) ?_
      intro p cur hcur
      refine (h.cursor i inst hi p cur hcur).mono (Nat.le_refl _) ?_ (fun _ hx => hx)
      exact fun o hm => inHand_of_eq (inHand_handled htxn htodo r) hm
  | @commitBatch i inst t hi htxn htodo =>
      refine h.commit hi htxn htodo ?_
      simpa only [CommitsNothingLeft, hi] using hok
  | @abort i inst t hi htxn =>
      refine h.put hkept (fun j hj => Function.update_of_ne hj _ _) ?_
      intro p cur hcur
      rw [show Transactional.watch left w.group (Transactional.Action.abort i : Transactional.Action ω) i = _ from
        Function.update_self _ _ _, hi]
      exact explains_abort h hi hcur
  | @periodic i inst hi htxn =>
      refine h.put hkept (fun _ _ => rfl) ?_
      exact fun p cur hcur => (h.cursor i inst hi p cur hcur).mono (Nat.le_refl _) (fun _ hm => hm) (fun _ hx => hx)
  | @die i a ha =>
      rcases ha with rfl | rfl | ⟨ps, answers, rfl⟩
      · exact h.remove hkept (fun _ => rfl)
      · exact h.remove hkept (fun _ => rfl)
      · refine h.assign hkept rfl rfl ?_
        intro j inst' hj p cur hcur
        rw [get?_remove] at hj
        split at hj
        · exact absurd hj (by simp)
        · exact Or.inr ⟨inst', hj, hcur, rfl⟩

/-- **Retention moves on.** What the instances had still to read is overtaken. -/
theorem Accounts.expire (h : Accounts log w left) {p n : Nat} (hlt : w.logStart p < n) :
    Accounts log (w.expire p n) left := by
  have hstart : ∀ q, (w.expire p n).logStart q = if q = p then n else w.logStart q := by
    intro q
    show Function.update w.logStart p n q = _
    rw [Function.update_apply]
  have hlost : ∀ q o, w.Lost q o → (w.expire p n).Lost q o := by
    rintro q o (hgap | hmem)
    · exact Or.inl hgap
    · exact Or.inr (List.mem_append_left _ hmem)
  -- what is deleted now was kept before
  have hbefore : ∀ q o, o < (w.expire p n).logStart q → (log q o).isSome = true →
      o < w.logStart q ∨ q = p ∧ w.logStart p ≤ o ∧ o < n ∧ (Retention.kept log w.logStart q o).isSome = true := by
    intro q o ho hvis
    rw [hstart] at ho
    split at ho
    · next hq =>
        subst hq
        rcases Nat.lt_or_ge o (w.logStart q) with hold | hnew
        · exact Or.inl hold
        · exact Or.inr ⟨rfl, hnew, ho, isSome_kept.mpr ⟨hnew, hvis⟩⟩
    · exact Or.inl ho
  refine ⟨?_, ?_, ?_⟩
  · -- what is kept still was kept before
    have hkept : ∀ q o, (Retention.kept log (w.expire p n).logStart q o).isSome = true →
        (Retention.kept log w.logStart q o).isSome = true := by
      intro q o ho
      obtain ⟨hle, hvis⟩ := isSome_kept.mp ho
      refine isSome_kept.mpr ⟨?_, hvis⟩
      rw [hstart] at hle
      split at hle
      · next hq => exact hq ▸ (hlt.le.trans hle)
      · exact hle
    refine ⟨fun q c hc o ho hvis => h.kept.committed q c hc o ho (hkept q o hvis), ?_⟩
    intro j inst' hj
    have hinst := h.kept.instances j inst' hj
    exact ⟨fun q cur hcur o ho hvis => hinst.cursor q cur hcur o ho (hkept q o hvis), hinst.position, hinst.batch⟩
  · intro q c hc
    obtain ⟨b, hb, hall⟩ := h.committed q c hc
    refine ⟨b, hb, ?_⟩
    intro o hlow hoc ho hvis
    rcases hbefore q o ho hvis with hold | ⟨_, _, _, hseen⟩
    · exact (hall o hlow hoc hold hvis).imp_right (hlost q o)
    · exact Or.inl (h.kept.committed q c hc o hoc hseen)
  · intro j inst' hj q cur hcur
    obtain ⟨b, hb, hall⟩ := h.cursor j inst' hj q cur hcur
    refine ⟨b, hb, ?_⟩
    intro o hlow ho hvis
    rcases hbefore q o ho hvis with hold | ⟨rfl, hge, hn, hseen⟩
    · rcases hall o hlow hold hvis with hdone | hgone | hrest
      · exact Or.inl hdone
      · exact Or.inr (Or.inl (hlost q o hgone))
      · exact Or.inr (Or.inr hrest)
    · rcases Nat.lt_or_ge o cur.fetch with hbehind | hahead
      · rcases (h.kept.instances j inst' hj).cursor q cur hcur o hbehind hseen with hdone | hmine | hleft
        · exact Or.inl hdone
        · exact Or.inr (Or.inr (Or.inl ⟨hbehind, hmine⟩))
        · exact Or.inr (Or.inr (Or.inr hleft))
      · -- the instance had not come to it
        refine Or.inr (Or.inl (Or.inr (List.mem_append_right _ ?_)))
        exact mem_missed.mpr ⟨rfl, j, inst', cur, hj, hcur, max_le hahead hge, hn⟩

/-! ## Where messages come from -/

section Messages

variable {g g' : Group σ ρ ο} {a : Transactional.Action ω} {p o : Nat}

/-- What a step handles was in the hands of an instance. -/
theorem handled_of_step (h : Transactional.Step P log g a g') (hdone : Handled g' p o) :
    Handled g p o ∨ ∃ i inst, g.instances.get? i = some inst ∧ InHand inst p o := by
  cases h with
  | @commitBatch i inst t hi htxn htodo =>
      obtain ⟨c, hc, m, hm, hmo⟩ := hdone
      rcases List.mem_append.mp hc with hc | hc
      · exact Or.inl ⟨c, hc, m, hm, hmo⟩
      · obtain rfl := List.mem_singleton.mp hc
        refine Or.inr ⟨i, inst, hi, m, ?_, hmo⟩
        rw [inHand_of_txn htxn]
        exact List.mem_append_left _ (List.mem_append_left _ hm)
  | start | assign | revoke | poll | beginBatch | handleNext | abort | periodic | die => exact Or.inl hdone

/-- What an instance has in hand after a step it had before, or it is in the log. -/
theorem inHand_of_step (h : Transactional.Step P log g a g') {inst' : Instance σ ρ ο}
    (hi' : g'.instances.get? i = some inst') (hhand : InHand inst' p o) :
    (∃ inst, g.instances.get? i = some inst ∧ InHand inst p o) ∨ (log p o).isSome = true := by
  -- only the instance that takes the step can have something else in hand
  have hput : ∀ {j : Nat} {inst new : Instance σ ρ ο}, g.instances.get? j = some inst →
      (g.put j new).instances.get? i = some inst' → (InHand new p o → InHand inst p o ∨ (log p o).isSome = true) →
      (∃ inst, g.instances.get? i = some inst ∧ InHand inst p o) ∨ (log p o).isSome = true := by
    intro j inst new hj hi' hnew
    rw [get?_put] at hi'
    split at hi'
    · next hij =>
        obtain rfl := Option.some.inj hi'
        exact (hnew hhand).imp_left (fun hold => ⟨inst, hij ▸ hj, hold⟩)
    · exact Or.inl ⟨inst', hi', hhand⟩
  cases h with
  | start hi =>
      rw [get?_put] at hi'
      split at hi'
      · obtain rfl := Option.some.inj hi'
        obtain ⟨m, hm, _⟩ := hhand
        exact absurd hm List.not_mem_nil
      · exact Or.inl ⟨inst', hi', hhand⟩
  | assign hi _ _ _ => exact hput hi hi' Or.inl
  | revoke hi htxn =>
      rw [onRevoke_of_txn_none P htxn] at hi'
      exact hput hi hi' Or.inl
  | poll hi htxn _ hr _ =>
      refine hput hi hi' ?_
      rintro ⟨m, hm, rfl, rfl⟩
      rw [inHand_collect htxn] at hm
      rcases List.mem_append.mp hm with hm | hm
      · exact Or.inl ⟨m, hm, rfl, rfl⟩
      · obtain rfl := List.mem_singleton.mp hm
        exact Or.inr (Option.isSome_iff_exists.mpr ⟨_, hr⟩)
  | beginBatch hi htxn => exact hput hi hi' (fun hm => Or.inl (inHand_of_eq (inHand_beginBatch htxn).symm hm))
  | handleNext hi htxn htodo _ =>
      exact hput hi hi' (fun hm => Or.inl (inHand_of_eq (inHand_handled htxn htodo _).symm hm))
  | commitBatch hi htxn _ => exact hput hi hi' (fun hm => Or.inl (inHand_of_sublist (inHand_closeTxn_sublist htxn) hm))
  | abort hi htxn => exact hput hi hi' (fun hm => Or.inl (inHand_of_sublist (inHand_closeTxn_sublist htxn) hm))
  | periodic hi _ => exact hput hi hi' Or.inl
  | die _ =>
      rw [get?_remove] at hi'
      split at hi'
      · exact absurd hi' (by simp)
      · exact Or.inl ⟨inst', hi', hhand⟩

end Messages

/-! ## Nothing that is lost is handled -/

/-- What is lost is deleted, was handled in no committed transaction and is in no one's hands. -/
structure Unhandled (w : World σ ρ ο) : Prop where
  once : Once w.group
  deleted : ∀ p o, w.Lost p o → o < w.logStart p
  handled : ∀ p o, w.Lost p o → ¬ Handled w.group p o
  inHand : ∀ p o, w.Lost p o → ∀ i inst, w.group.instances.get? i = some inst → ¬ InHand inst p o

theorem unhandled_init : Unhandled ({} : World σ ρ ο) where
  once := once_init
  deleted p o ho := by
    rcases ho with ⟨gap, hgap, _⟩ | hmem
    · exact absurd hgap List.not_mem_nil
    · exact absurd hmem List.not_mem_nil
  handled p o _ hdone := by
    obtain ⟨c, hc, _⟩ := hdone
    exact absurd hc List.not_mem_nil
  inHand p o _ i inst hi := absurd hi (by simp)

/-- The owner of a message in hand is assigned its partition, and reads it behind it. -/
theorem Unhandled.owner (h : Unhandled w) (hi : w.group.instances.get? i = some inst) {p o : Nat}
    (hhand : InHand inst p o) : ∃ cur, inst.cursors.get? p = some cur ∧ o < cur.fetch := by
  obtain ⟨m, hm, rfl, rfl⟩ := hhand
  obtain ⟨cur, hcur, _, hlt⟩ := (h.once.instances i inst hi).owned m hm
  exact ⟨cur, hcur, hlt⟩

/-- What was handled is below the committed offset. -/
theorem Unhandled.below (h : Unhandled w) {p o : Nat} (hdone : Handled w.group p o) :
    ∃ c, w.group.committed.get? p = some c ∧ o < c := by
  obtain ⟨c, hc, m, hm, rfl, rfl⟩ := hdone
  exact h.once.below m (List.mem_flatMap.mpr ⟨c, hc, hm⟩)

/-- What the reports of an assignment count lies between the committed offset and the log start. -/
theorem lost_after {a : Transactional.Action ω} {g : Group σ ρ ο} {p o : Nat} (hlost : (w.after g a).Lost p o) :
    w.Lost p o ∨ ∃ i ps answers c, a = .assign i ps answers ∧ p ∈ ps ∧ w.group.committed.get? p = some c ∧ c ≤ o ∧
      o < w.logStart p := by
  cases a with
  | assign i ps answers =>
      rcases hlost with ⟨gap, hgap, hcov⟩ | hmem
      · rcases List.mem_append.mp hgap with hold | hnew
        · exact Or.inl (Or.inl ⟨gap, hold, hcov⟩)
        · obtain ⟨rfl, hco, hlt⟩ := hcov
          obtain ⟨hp, hc, hstart, _⟩ := mem_findRetentionGaps.mp hnew
          exact Or.inr ⟨i, ps, answers, _, rfl, hp, hc, hco, hstart ▸ hlt⟩
      · exact Or.inl (Or.inr hmem)
  | start | revoke | poll | beginBatch | handleNext | commitBatch | abort | periodic | crash => exact Or.inl hlost

theorem unowned_of_step {g g' : Group σ ρ ο} {ps : List Nat} {answers : ω}
    (h : Transactional.step P log g (.assign i ps answers) = some g') : ∀ p ∈ ps, Unowned g p := by
  simp only [Transactional.step] at h
  split at h
  · split at h
    · next hc => exact hc.2
    · exact absurd h (by simp)
  · exact absurd h (by simp)

theorem group_after (w : World σ ρ ο) (g : Group σ ρ ο) (a : Transactional.Action ω) : (w.after g a).group = g := by
  cases a <;> rfl

theorem logStart_after (w : World σ ρ ο) (g : Group σ ρ ο) (a : Transactional.Action ω) :
    (w.after g a).logStart = w.logStart := by
  cases a <;> rfl

/-- **A step of the loop** handles nothing that is lost. -/
theorem Unhandled.loop (h : Unhandled w) {a : Transactional.Action ω} {g : Group σ ρ ο}
    (hok : RevokesOutsideBatch w.group a)
    (hstep : Transactional.step P (Retention.kept log w.logStart) w.group a = some g) : Unhandled (w.after g a) := by
  have hinv := step_inv hstep
  -- what was lost before is not even in hand, and what is lost now was neither handled nor is it in hand
  have hnone : ∀ p o, (w.after g a).Lost p o → o < w.logStart p ∧ ¬ Handled w.group p o ∧
      ∀ i inst, w.group.instances.get? i = some inst → ¬ InHand inst p o := by
    intro p o hlost
    rcases lost_after hlost with hold | ⟨i, ps, answers, c, rfl, hp, hc, hco, hlt⟩
    · exact ⟨h.deleted p o hold, h.handled p o hold, h.inHand p o hold⟩
    · refine ⟨hlt, ?_, ?_⟩
      · intro hdone
        obtain ⟨c', hc', hoc⟩ := h.below hdone
        obtain rfl := Option.some.inj (hc.symm.trans hc')
        omega
      · intro j inst hj hhand
        obtain ⟨cur, hcur, _⟩ := h.owner hj hhand
        have hfree := unowned_of_step hstep p hp inst (Dict.mem_values_iff.mpr ⟨j, hj⟩)
        rw [hcur] at hfree
        exact absurd hfree (by simp)
  refine ⟨?_, ?_, ?_, ?_⟩
  · rw [group_after]
    exact h.once.step hok hinv
  · intro p o hlost
    rw [logStart_after]
    exact (hnone p o hlost).1
  · intro p o hlost hdone
    rw [group_after] at hdone
    rcases handled_of_step hinv hdone with hold | ⟨i, inst, hi, hhand⟩
    · exact (hnone p o hlost).2.1 hold
    · exact (hnone p o hlost).2.2 i inst hi hhand
  · intro p o hlost j inst' hj hhand
    rw [group_after] at hj
    rcases inHand_of_step hinv hj hhand with ⟨inst, hi, hold⟩ | hvis
    · exact (hnone p o hlost).2.2 j inst hi hold
    · -- a poll hands out nothing that is deleted
      have := (isSome_kept.mp hvis).1
      have := (hnone p o hlost).1
      omega

theorem Unhandled.expire (h : Unhandled w) {p n : Nat} (hlt : w.logStart p < n) : Unhandled (w.expire p n) := by
  have hcases : ∀ q o, (w.expire p n).Lost q o → w.Lost q o ∨ q = p ∧ ∃ i inst cur,
      w.group.instances.get? i = some inst ∧ inst.cursors.get? p = some cur ∧ cur.fetch ≤ o ∧ o < n := by
    rintro q o (hgap | hmem)
    · exact Or.inl (Or.inl hgap)
    · rcases List.mem_append.mp hmem with hold | hnew
      · exact Or.inl (Or.inr hold)
      · obtain ⟨rfl, i, inst, cur, hi, hcur, hlow, hn⟩ := mem_missed.mp hnew
        exact Or.inr ⟨rfl, i, inst, cur, hi, hcur, (le_max_left _ _).trans hlow, hn⟩
  refine ⟨h.once, ?_, ?_, ?_⟩
  · intro q o hlost
    show o < Function.update w.logStart p n q
    rw [Function.update_apply]
    rcases hcases q o hlost with hold | ⟨rfl, _, _, _, _, _, _, hn⟩
    · have := h.deleted q o hold
      split
      · next hq =>
          subst hq
          omega
      · exact this
    · rwa [if_pos rfl]
  · intro q o hlost hdone
    rcases hcases q o hlost with hold | ⟨rfl, i, inst, cur, hi, hcur, hge, _⟩
    · exact h.handled q o hold hdone
    · obtain ⟨c, hc, hoc⟩ := h.below hdone
      have := (h.once.instances i inst hi).behind q cur hcur c hc
      omega
  · intro q o hlost j inst' hj hhand
    rcases hcases q o hlost with hold | ⟨rfl, i, inst, cur, hi, hcur, hge, _⟩
    · exact h.inHand q o hold j inst' hj hhand
    · -- the instance that has it in hand owns the partition, and has read past it
      obtain ⟨cur', hcur', hlt'⟩ := h.owner hj hhand
      obtain rfl := h.once.exclusive i inst hi j inst' hj q (by simp [hcur]) (by simp [hcur'])
      obtain rfl := Option.some.inj (hi.symm.trans hj)
      obtain rfl := Option.some.inj (hcur.symm.trans hcur')
      omega

/-! ## The result -/

/-- The loop beside retention, with the monitor. -/
abbrev watched (P : Processor σ ρ ο ω ε) (log : Log ρ) :
    World σ ρ ο × LeftBehind → Action ω → Option (World σ ρ ο × LeftBehind) :=
  monitored (step P log) watch

theorem accounts_run {acts : List (Action ω)} {s : World σ ρ ο × LeftBehind}
    (hok : Always (watched P log) NothingLeft ({}, fun _ => []) acts)
    (hrun : run (watched P log) ({}, fun _ => []) acts = some s) : Accounts log s.1 s.2 := by
  refine run_state_invariant (I := fun s => Accounts log s.1 s.2) accounts_init ?_ hok hrun
  intro t a t' ht hguard hstep
  obtain ⟨hg, hw⟩ := monitored_eq_some.mp hstep
  rw [hw]
  rcases step_cases hg with ⟨b, g, rfl, hloop, heq⟩ | ⟨p, o, rfl, hlt, heq⟩
  · rw [heq]
    exact ht.loop hguard (step_inv hloop)
  · rw [heq]
    exact ht.expire hlt

theorem unhandled_run {acts : List (Action ω)} {s : World σ ρ ο × LeftBehind}
    (hok : Always (watched P log) OutsideBatch ({}, fun _ => []) acts)
    (hrun : run (watched P log) ({}, fun _ => []) acts = some s) : Unhandled s.1 := by
  refine run_state_invariant (I := fun s => Unhandled s.1) unhandled_init ?_ hok hrun
  intro t a t' ht hguard hstep
  obtain ⟨hg, _⟩ := monitored_eq_some.mp hstep
  rcases step_cases hg with ⟨b, g, rfl, hloop, heq⟩ | ⟨p, o, rfl, hlt, heq⟩
  · rw [heq]
    exact ht.loop hguard hloop
  · rw [heq]
    exact ht.expire hlt

/-- **No record is lost in silence.** In every run of any number of instances, with aborts, rebalances, crashes and
    retention at any time, in which no batch is committed over records that an aborted one left behind: every record
    between the offset at which the group began and the committed offset was handled in a transaction that committed, or
    a report counts it, or it was deleted while an instance still had it to read. As long as no partition is revoked
    while the batch holds its messages, it is one or the other, and it is handled once. -/
theorem losses_reported {acts : List (Action ω)} {s : World σ ρ ο × LeftBehind}
    (hok : Always (watched P log) NothingLeft ({}, fun _ => []) acts)
    (hrun : run (watched P log) ({}, fun _ => []) acts = some s) :
    (∀ p c, s.1.group.committed.get? p = some c → ∃ b, s.1.began.get? p = some b ∧
      ∀ o, b ≤ o → o < c → (log p o).isSome = true →
        Handled s.1.group p o ∨ (∃ gap ∈ s.1.gaps, gap.Covers p o) ∨ (p, o) ∈ s.1.overtaken) ∧
    (Always (watched P log) OutsideBatch ({}, fun _ => []) acts →
      (s.1.group.done.map (fun m => (m.partition, m.offset))).Nodup ∧
      ∀ p o, Handled s.1.group p o → (∀ gap ∈ s.1.gaps, ¬ gap.Covers p o) ∧ (p, o) ∉ s.1.overtaken) := by
  constructor
  · intro p c hc
    have hall := accounts_run hok hrun
    obtain ⟨b, hb, hdeleted⟩ := hall.committed p c hc
    refine ⟨b, hb, ?_⟩
    intro o hlow hoc hvis
    rcases Nat.lt_or_ge o (s.1.logStart p) with hgone | hkept
    · exact hdeleted o hlow hoc hgone hvis
    · exact Or.inl (hall.kept.committed p c hc o hoc (isSome_kept.mpr ⟨hkept, hvis⟩))
  · intro hout
    have h := unhandled_run hout hrun
    refine ⟨h.once.nodup_done, ?_⟩
    intro p o hdone
    exact ⟨fun gap hgap hcov => h.handled p o (Or.inl ⟨gap, hgap, hcov⟩) hdone,
      fun hmem => h.handled p o (Or.inr hmem) hdone⟩

/-- Records 0 to 8, and a marker at 5. -/
def withMarker : Log Nat := fun p o => if p = 0 ∧ o < 9 ∧ o ≠ 5 then some o else none

/-- An instance handles record 0 and goes away; the next one finds five offsets gone, of which one is the marker, and
    loses one more while it reads. -/
theorem losses_reported_away :
    let acts : List (Action Unit) := [.loop (.start 1), .loop (.assign 1 [0] ()), .loop (.poll 1 0 0),
      .loop (.beginBatch 1), .loop (.handleNext 1), .loop (.commitBatch 1), .loop (.crash 1), .expire 0 6,
      .loop (.start 2), .loop (.assign 2 [0] ()), .expire 0 7, .loop (.poll 2 0 7), .loop (.beginBatch 2),
      .loop (.handleNext 2), .loop (.commitBatch 2)]
    ∃ s, run (watched relay withMarker) ({}, fun _ => []) acts = some s ∧
      s.1.gaps = [⟨0, 1, 6⟩] ∧ s.1.overtaken = [(0, 6)] ∧
      (∃ b, s.1.began.get? 0 = some b ∧ ∀ o, b ≤ o → o < 8 → (withMarker 0 o).isSome = true →
        Handled s.1.group 0 o ∨ (∃ gap ∈ s.1.gaps, gap.Covers 0 o) ∨ (0, o) ∈ s.1.overtaken) ∧
      ∀ p o, Handled s.1.group p o → (∀ gap ∈ s.1.gaps, ¬ gap.Covers p o) ∧ (p, o) ∉ s.1.overtaken := by
  intro acts
  have hrun : (run (watched relay withMarker) ({}, fun _ => []) acts).isSome = true := by decide +kernel
  have hc : ((run (watched relay withMarker) ({}, fun _ => []) acts).get hrun).1.group.committed.get? 0 = some 8 := by
    decide +kernel +revert
  have hgaps : ((run (watched relay withMarker) ({}, fun _ => []) acts).get hrun).1.gaps = [⟨0, 1, 6⟩] := by
    decide +kernel +revert
  have hovertaken : ((run (watched relay withMarker) ({}, fun _ => []) acts).get hrun).1.overtaken = [(0, 6)] := by
    decide +kernel +revert
  have hall := losses_reported (by decide +kernel) (Option.some_get hrun).symm
  exact ⟨_, (Option.some_get hrun).symm, hgaps, hovertaken, hall.1 0 8 hc, (hall.2 (by decide +kernel)).2⟩

end Retention
end Wikistream
