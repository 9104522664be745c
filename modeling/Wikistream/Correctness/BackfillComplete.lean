import Wikistream.Admin.BackfillReverts
import Wikistream.Correctness.EditWarOrdered

/-!
# `Correctness.BackfillComplete` — when the backfill says it is complete, it is, for good

Several backfills and the sink may work on the table at once, and any of them may stop. What is written into
`is_revert` is always what the pipeline writes for the event, so nothing is overwritten with something else; and rows
that the sink adds have a value from the start.

## Contents
- **The table** (`Agrees`, `Filled`, `Later`), row by row through an update (`updateRow_spec`) and a batch.
- **The invariant** (`Consistent`) and its step.
- **The result** (`backfill_complete`).
- **One backfill** (`Counts`, `backfill_alone`): how many rounds it takes, and what it reports.
-/

namespace Wikistream
namespace BackfillReverts

open Py Lib Models

variable {host : Host} {edits edits' : Edits} {w w' : World} {values : List (Str × Bool)}

/-! ## The table -/

/-- A value in the table is the one the pipeline writes. -/
def Agrees (host : Host) (edits : Edits) : Prop :=
  ∀ id row, edits.get? id = some row → ∀ b, row.isRevert = some b → b = row.event.isRevert host

/-- No row is `NULL`. -/
def Filled (edits : Edits) : Prop := ∀ id row, edits.get? id = some row → row.isRevert.isSome = true

/-- Rows and values stay as they are. -/
def Later (edits edits' : Edits) : Prop :=
  ∀ id row, edits.get? id = some row → ∃ row', edits'.get? id = some row' ∧ row'.event = row.event ∧
    ∀ b, row.isRevert = some b → row'.isRevert = some b

/-- The value is the one the pipeline writes for the event of its row. -/
def Right (host : Host) (edits : Edits) (value : Str × Bool) : Prop :=
  ∃ row, edits.get? value.1 = some row ∧ value.2 = row.event.isRevert host

theorem Later.refl (edits : Edits) : Later edits edits := fun _ row h => ⟨row, h, rfl, fun _ hb => hb⟩

theorem Later.trans {edits'' : Edits} (h : Later edits edits') (h' : Later edits' edits'') : Later edits edits'' := by
  intro id row hrow
  obtain ⟨row', hrow', hevent, hkeep⟩ := h id row hrow
  obtain ⟨row'', hrow'', hevent', hkeep'⟩ := h' id row' hrow'
  exact ⟨row'', hrow'', hevent'.trans hevent, fun b hb => hkeep' b (hkeep b hb)⟩

theorem Right.later {value : Str × Bool} (h : Right host edits value) (hlater : Later edits edits') :
    Right host edits' value := by
  obtain ⟨row, hrow, hvalue⟩ := h
  obtain ⟨row', hrow', hevent, _⟩ := hlater _ _ hrow
  exact ⟨row', hrow', hevent ▸ hvalue⟩

theorem mem_nulls {id : Str} : id ∈ nulls edits ↔ ∃ row, edits.get? id = some row ∧ row.isRevert = none := by
  unfold nulls
  rw [Dict.mem_keys_iff]
  simp only [Dict.get?_filter, Option.filter_eq_some_iff, Option.isNone_iff_eq_none]

theorem filled_of_selects (h : Selects edits []) : Filled edits := by
  obtain ⟨_, _, hlength⟩ := h
  have hnil : nulls edits = [] := by
    apply List.eq_nil_of_length_eq_zero
    unfold batch at hlength
    rw [List.length_nil] at hlength
    omega
  intro id row hrow
  cases hvalue : row.isRevert with
  | some b => rfl
  | none => exact absurd (mem_nulls.mpr ⟨row, hrow, hvalue⟩) (by rw [hnil]; exact List.not_mem_nil)

/-- What a select computes is what the pipeline writes. -/
theorem right_of_mem_valuesOf {ids : List Str} {value : Str × Bool} (h : value ∈ valuesOf host edits ids) :
    Right host edits value := by
  obtain ⟨id, _, hvalue⟩ := List.mem_filterMap.mp h
  obtain ⟨row, hrow, rfl⟩ := Option.map_eq_some_iff.mp hvalue
  exact ⟨row, hrow, rfl⟩

/-- **One row is updated.** -/
theorem updateRow_spec {value : Str × Bool} (hagrees : Agrees host edits) (hright : Right host edits value) :
    Later edits (updateRow edits value) ∧ Agrees host (updateRow edits value) ∧
      (Filled edits → Filled (updateRow edits value)) := by
  obtain ⟨row, hrow, hvalue⟩ := hright
  unfold updateRow
  rw [hrow]
  dsimp only
  have hcases : ∀ id x, (edits.set value.1 { row with isRevert := some value.2 }).get? id = some x →
      id = value.1 ∧ x = { row with isRevert := some value.2 } ∨ edits.get? id = some x := by
    intro id x hx
    rw [Dict.get?_set] at hx
    split at hx
    · next hid => exact Or.inl ⟨hid, (Option.some.inj hx).symm⟩
    · exact Or.inr hx
  refine ⟨?_, ?_, ?_⟩
  · intro id x hx
    by_cases hid : id = value.1
    · subst hid
      obtain rfl := Option.some.inj (hrow.symm.trans hx)
      refine ⟨{ row with isRevert := some value.2 }, by rw [Dict.get?_set, if_pos rfl], rfl, ?_⟩
      intro b hb
      rw [hvalue, hagrees _ _ hrow b hb]
    · exact ⟨x, by rw [Dict.get?_set_ne _ _ hid, hx], rfl, fun b hb => hb⟩
  · intro id x hx b hb
    rcases hcases id x hx with ⟨_, rfl⟩ | hold
    · exact (Option.some.inj hb).symm.trans hvalue
    · exact hagrees id x hold b hb
  · intro hfilled id x hx
    rcases hcases id x hx with ⟨_, rfl⟩ | hold
    · rfl
    · exact hfilled id x hold

/-- **A batch is updated.** -/
theorem updateBatch_spec (hagrees : Agrees host edits) (hright : ∀ value ∈ values, Right host edits value) :
    Later edits (updateBatch edits values) ∧ Agrees host (updateBatch edits values) ∧
      (Filled edits → Filled (updateBatch edits values)) := by
  induction values generalizing edits with
  | nil => exact ⟨Later.refl edits, hagrees, id⟩
  | cons value values ih =>
      obtain ⟨hlater, hagrees', hfilled⟩ := updateRow_spec hagrees (hright value List.mem_cons_self)
      obtain ⟨hlater', hagrees'', hfilled'⟩ :=
        ih hagrees' (fun x hx => (hright x (List.mem_cons_of_mem _ hx)).later hlater)
      exact ⟨hlater.trans hlater', hagrees'', fun h => hfilled' (hfilled h)⟩

/-- **The sink stores an event.** -/
theorem insertEdit_spec (hagrees : Agrees host edits) (event : CleanEvent) :
    Later edits (insertEdit host edits event) ∧ Agrees host (insertEdit host edits event) ∧
      (Filled edits → Filled (insertEdit host edits event)) := by
  unfold insertEdit Dict.setDefault
  cases hold : edits.get? event.eventId with
  | some row => exact ⟨Later.refl edits, hagrees, id⟩
  | none =>
      dsimp only
      have hcases : ∀ id x,
          (edits.set event.eventId { event := event, isRevert := some (event.isRevert host) }).get? id = some x →
            x = { event := event, isRevert := some (event.isRevert host) } ∨ edits.get? id = some x := by
        intro id x hx
        rw [Dict.get?_set] at hx
        split at hx
        · exact Or.inl (Option.some.inj hx).symm
        · exact Or.inr hx
      refine ⟨?_, ?_, ?_⟩
      · intro id x hx
        have hid : id ≠ event.eventId := by
          rintro rfl
          rw [hold] at hx
          exact absurd hx (by simp)
        exact ⟨x, by rw [Dict.get?_set_ne _ _ hid, hx], rfl, fun b hb => hb⟩
      · intro id x hx b hb
        rcases hcases id x hx with rfl | hx
        · exact (Option.some.inj hb).symm
        · exact hagrees id x hx b hb
      · intro hfilled id x hx
        rcases hcases id x hx with rfl | hx
        · rfl
        · exact hfilled id x hx

/-! ## The invariant -/

/-- What holds between steps, for a table that began as `before`. -/
structure Consistent (host : Host) (before : Edits) (w : World) : Prop where
  later : Later before w.edits
  agrees : Agrees host w.edits
  pending : ∀ i job values, w.jobs.get? i = some job → job.pending = some values →
    ∀ value ∈ values, Right host w.edits value
  finished : ∀ i job, w.jobs.get? i = some job → job.finished = true → Filled w.edits

/-- The table moves on. -/
theorem Consistent.advance {before : Edits} (h : Consistent host before w)
    (hedits : Later w.edits edits ∧ Agrees host edits ∧ (Filled w.edits → Filled edits)) :
    Consistent host before { w with edits := edits } where
  later := h.later.trans hedits.1
  agrees := hedits.2.1
  pending i job values hjob hpending value hvalue := (h.pending i job values hjob hpending value hvalue).later hedits.1
  finished i job hjob hfinished := hedits.2.2 (h.finished i job hjob hfinished)

/-- A job changes. -/
theorem Consistent.setJob {before : Edits} {job : Job} (h : Consistent host before w) (i : Nat)
    (hpending : ∀ values, job.pending = some values → ∀ value ∈ values, Right host w.edits value)
    (hfinished : job.finished = true → Filled w.edits) :
    Consistent host before { w with jobs := w.jobs.set i job } where
  later := h.later
  agrees := h.agrees
  pending j x values hx := by
    change (w.jobs.set i job).get? j = some x at hx
    rw [Dict.get?_set] at hx
    split at hx
    · obtain rfl := Option.some.inj hx
      exact hpending values
    · exact h.pending j x values hx
  finished j x hx := by
    change (w.jobs.set i job).get? j = some x at hx
    rw [Dict.get?_set] at hx
    split at hx
    · obtain rfl := Option.some.inj hx
      exact hfinished
    · exact h.finished j x hx

theorem Consistent.step {before : Edits} {a : Action} (h : Consistent host before w)
    (hstep : step host w a = some w') : Consistent host before w' := by
  cases step_inv hstep with
  | start _ =>
      exact h.setJob _ (fun values hpending => absurd hpending (by simp)) (fun hfinished => absurd hfinished (by simp))
  | @select i ids job hjob hopen _ hids =>
      refine h.setJob i ?_ ?_
      · intro values hpending value hvalue
        cases ids with
        | nil => exact h.pending i job values hjob hpending value hvalue
        | cons id ids =>
            obtain rfl := Option.some.inj hpending
            exact right_of_mem_valuesOf hvalue
      · intro hfinished
        cases ids with
        | nil => exact filled_of_selects hids
        | cons id ids => exact absurd (hopen.symm.trans hfinished) (by simp)
  | @update i job values hjob hpending =>
      have hupdated := h.advance (updateBatch_spec h.agrees (h.pending i job values hjob hpending))
      exact hupdated.setJob i (fun _ hnone => absurd hnone (by simp [Job.advance]))
        (fun hfinished => hupdated.finished i job hjob hfinished)
  | @stop i _ _ _ =>
      refine ⟨h.later, h.agrees, fun j x values hx => ?_, fun j x hx => ?_⟩
      · change (w.jobs.erase i).get? j = some x at hx
        rw [Dict.get?_erase] at hx
        split at hx
        · exact absurd hx (by simp)
        · exact h.pending j x values hx
      · change (w.jobs.erase i).get? j = some x at hx
        rw [Dict.get?_erase] at hx
        split at hx
        · exact absurd hx (by simp)
        · exact h.finished j x hx
  | @insert event => exact h.advance (insertEdit_spec h.agrees event)

/-! ## The result -/

/-- **When a backfill is complete, it is complete for good.** In every run of any number of backfills beside the sink,
    wherever they are stopped and started again: no row is lost, no value that was there changes, and every value is
    what the pipeline writes for the event. Once some backfill has come to its end, no row is `NULL`, then or later. -/
theorem backfill_complete {before : Edits} (hagrees : Agrees host before) {acts : List Action}
    (hrun : run (step host) { edits := before } acts = some w) :
    Later before w.edits ∧ Agrees host w.edits ∧
      ((∃ i job, w.jobs.get? i = some job ∧ job.finished = true) →
        ∀ id row, w.edits.get? id = some row → row.isRevert = some (row.event.isRevert host)) := by
  have hinit : Consistent host before { edits := before } :=
    ⟨Later.refl before, hagrees, fun i job values h => absurd h (by simp), fun i job h => absurd h (by simp)⟩
  have h : Consistent host before w :=
    run_state_invariant hinit (fun _ _ _ h _ hstep => h.step hstep)
      (@always_of_forall _ _ _ (fun _ _ => True) (fun _ _ => trivial) _ _) hrun
  refine ⟨h.later, h.agrees, ?_⟩
  rintro ⟨i, job, hjob, hfinished⟩ id row hrow
  obtain ⟨b, hb⟩ := Option.isSome_iff_exists.mp (h.finished i job hjob hfinished id row hrow)
  rw [hb, h.agrees id row hrow b hb]

/-- Two reverts that were stored before the column existed. -/
def oldRows : Edits :=
  (Dict.empty.set (lit "a") { event := (EditWarDetector.revertBy "T" "u" "a" 0).1, isRevert := none }).set (lit "b")
    { event := (EditWarDetector.revertBy "T" "v" "b" 0).1, isRevert := none }

theorem agrees_oldRows : Agrees EditWarDetector.revertHost oldRows := by
  intro id row hrow b hb
  have hnull : row.isRevert = none := by
    unfold oldRows at hrow
    rw [Dict.get?_set, Dict.get?_set] at hrow
    split at hrow
    · exact (Option.some.inj hrow) ▸ rfl
    · split at hrow
      · exact (Option.some.inj hrow) ▸ rfl
      · exact absurd hrow (by simp)
  rw [hnull] at hb
  exact absurd hb (by simp)

/-- A backfill is stopped in its transaction, another one fills the rows. -/
theorem backfill_complete_stopped :
    ∃ w, run (step EditWarDetector.revertHost) { edits := oldRows }
        [.start 0, .select 0 [lit "a", lit "b"], .start 1, .stop 0,
          .insert (EditWarDetector.revertBy "T" "u" "c" 0).1, .select 1 [lit "b", lit "a"], .update 1,
          .select 1 []] = some w ∧
      ∀ id row, w.edits.get? id = some row → row.isRevert = some (row.event.isRevert EditWarDetector.revertHost) := by
  have hstate : (run (step EditWarDetector.revertHost) { edits := oldRows }
      [.start 0, .select 0 [lit "a", lit "b"], .start 1, .stop 0, .insert (EditWarDetector.revertBy "T" "u" "c" 0).1,
        .select 1 [lit "b", lit "a"], .update 1, .select 1 []]).map
      (fun w => (w.jobs.get? 1).map Job.finished) = some (some true) := by
    decide +kernel
  obtain ⟨w, hrun, hw⟩ := Option.map_eq_some_iff.mp hstate
  obtain ⟨job, hjob, hfinished⟩ := Option.map_eq_some_iff.mp hw
  exact ⟨w, hrun, (backfill_complete agrees_oldRows hrun).2.2 ⟨1, job, hjob, hfinished⟩⟩

/-! ## One backfill -/

/-- A row that has to be updated. -/
def missing (row : StoredEdit) : Nat := if row.isRevert.isNone then 1 else 0

theorem length_nulls (edits : Edits) : (nulls edits).length = edits.total missing := by
  rw [Dict.total_entries]
  unfold nulls Dict.keys
  rw [List.length_map]
  show (edits.entries.filter (fun e => e.2.isRevert.isNone)).length = _
  induction edits.entries with
  | nil => rfl
  | cons e es ih =>
      rw [List.map_cons, List.sum_cons, ← ih]
      unfold missing
      cases hvalue : e.2.isRevert.isNone with
      | true => simp [hvalue, Nat.add_comm]
      | false => simp [hvalue]

/-- The sink adds nothing to update. -/
theorem nulls_insertEdit (edits : Edits) (event : CleanEvent) : nulls (insertEdit host edits event) = nulls edits := by
  unfold insertEdit Dict.setDefault
  cases hold : edits.get? event.eventId with
  | some row => rfl
  | none =>
      have hentries : (edits.set event.eventId { event := event, isRevert := some (event.isRevert host) }).entries =
          edits.entries ++ [(event.eventId, { event := event, isRevert := some (event.isRevert host) })] :=
        upsert_of_notMem (Dict.get?_eq_none_iff.mp hold) _
      unfold nulls Dict.keys
      show (List.filter _ (edits.set event.eventId _).entries).map Prod.fst = (List.filter _ edits.entries).map Prod.fst
      rw [hentries, List.filter_append]
      simp

/-- **A batch of rows that are `NULL` leaves that many fewer.** -/
theorem length_nulls_updateBatch (hnodup : (values.map Prod.fst).Nodup)
    (hnulls : ∀ value ∈ values, value.1 ∈ nulls edits) :
    (nulls (updateBatch edits values)).length + values.length = (nulls edits).length := by
  induction values generalizing edits with
  | nil => rfl
  | cons value values ih =>
      obtain ⟨row, hrow, hnone⟩ := mem_nulls.mp (hnulls value List.mem_cons_self)
      have hupdate : updateRow edits value = edits.set value.1 { row with isRevert := some value.2 } := by
        unfold updateRow
        rw [hrow]
      rw [List.map_cons, List.nodup_cons] at hnodup
      have hrest : ∀ x ∈ values, x.1 ∈ nulls (updateRow edits value) := by
        intro x hx
        obtain ⟨other, hother, hnull⟩ := mem_nulls.mp (hnulls x (List.mem_cons_of_mem _ hx))
        have hne : x.1 ≠ value.1 := fun heq => hnodup.1 (heq ▸ List.mem_map_of_mem hx)
        refine mem_nulls.mpr ⟨other, ?_, hnull⟩
        rw [hupdate, Dict.get?_set_ne _ _ hne, hother]
      have hone : (nulls (updateRow edits value)).length + 1 = (nulls edits).length := by
        have htotal := Dict.total_set missing edits value.1 { row with isRevert := some value.2 }
        rw [hrow] at htotal
        rw [length_nulls, length_nulls, hupdate]
        simpa [missing, hnone] using htotal
      have hrec := ih hnodup.2 hrest
      show (nulls (updateBatch (updateRow edits value) values)).length + (values.length + 1) = _
      omega

theorem valuesOf_spec {ids : List Str} (hids : ∀ id ∈ ids, id ∈ nulls edits) :
    (valuesOf host edits ids).map Prod.fst = ids := by
  induction ids with
  | nil => rfl
  | cons id ids ih =>
      obtain ⟨row, hrow, _⟩ := mem_nulls.mp (hids id List.mem_cons_self)
      unfold valuesOf at ih ⊢
      rw [List.filterMap_cons, hrow]
      show id :: _ = id :: ids
      rw [ih (fun x hx => hids x (List.mem_cons_of_mem _ hx))]

/-- Only backfill 0 is there, and it is not stopped. -/
def Action.Alone : Action → Prop
  | .start i | .select i _ | .update i => i = 0
  | .stop _ => False
  | .insert _ => True

instance : ∀ a : Action, Decidable a.Alone
  | .start i | .select i _ | .update i => inferInstanceAs (Decidable (i = 0))
  | .stop _ => isFalse id
  | .insert _ => isTrue trivial

/-- The updates among the actions. -/
def rounds (acts : List Action) : Nat := acts.countP (· = .update 0)

def Action.isSelect : Action → Bool
  | .select _ _ => true
  | _ => false

/-- The selects among the actions. -/
def selects (acts : List Action) : Nat := acts.countP Action.isSelect

/-- What backfill 0 has done so far, of the `n` rows there were to update. -/
structure Counts (n : Nat) (acts : List Action) (w : World) : Prop where
  only : ∀ i, i ≠ 0 → w.jobs.get? i = none
  none_yet : w.jobs.get? 0 = none → rounds acts = 0 ∧ selects acts = 0 ∧ (nulls w.edits).length = n
  counts : ∀ job, w.jobs.get? 0 = some job → job.updated + (nulls w.edits).length = n ∧
    (rounds acts * batch = job.updated ∨ nulls w.edits = []) ∧ rounds acts * batch < n + batch
  /-- Only an update that leaves no row is smaller than a batch. -/
  sizes : ∀ job, w.jobs.get? 0 = some job → job.sizes.length = rounds acts ∧
    (∀ size ∈ job.sizes.dropLast, size = batch) ∧ (nulls w.edits ≠ [] → ∀ size ∈ job.sizes, size = batch)
  /-- Behind each select there is an update, or the end. -/
  selects : ∀ job, w.jobs.get? 0 = some job →
    selects acts = rounds acts + (if job.pending.isSome then 1 else 0) + if job.finished then 1 else 0
  pending : ∀ job values, w.jobs.get? 0 = some job → job.pending = some values →
    values ≠ [] ∧ (values.map Prod.fst).Nodup ∧ (∀ value ∈ values, value.1 ∈ nulls w.edits) ∧
      values.length = min batch (nulls w.edits).length
  finished : ∀ job, w.jobs.get? 0 = some job → job.finished = true → nulls w.edits = []

/-- The job is the one just set. -/
theorem eq_of_setJob {jobs : Dict Nat Job} {job x : Job} (h : (jobs.set 0 job).get? 0 = some x) : x = job := by
  rw [Dict.get?_set, if_pos rfl] at h
  exact (Option.some.inj h).symm

theorem Counts.only_setJob {n : Nat} {acts : List Action} (h : Counts n acts w) (job : Job) (i : Nat) (hi : i ≠ 0) :
    (w.jobs.set 0 job).get? i = none := by
  rw [Dict.get?_set_ne _ _ hi]
  exact h.only i hi

/-- A select: rows to update, or the end. -/
theorem Counts.selected {n : Nat} {acts : List Action} {job : Job} {ids : List Str} (h : Counts n acts w)
    (hjob : w.jobs.get? 0 = some job) (hopen : job.finished = false) (hnone : job.pending = none)
    (hids : Selects w.edits ids) :
    Counts n (acts ++ [.select 0 ids]) { w with jobs := w.jobs.set 0 (job.select host w.edits ids) } := by
  have hrounds : rounds (acts ++ [.select 0 ids]) = rounds acts := by simp [rounds]
  have hselects : BackfillReverts.selects (acts ++ [.select 0 ids]) = BackfillReverts.selects acts + 1 := by
    simp [BackfillReverts.selects, Action.isSelect]
  have hbefore := h.selects job hjob
  rw [hopen, hnone] at hbefore
  have hupdated : (job.select host w.edits ids).updated = job.updated ∧
      (job.select host w.edits ids).sizes = job.sizes := by
    cases ids <;> exact ⟨rfl, rfl⟩
  refine ⟨h.only_setJob _, fun hno => ?_, fun x hx => ?_, fun x hx => ?_, fun x hx => ?_,
    fun x values hx hpending => ?_, fun x hx hfinished => ?_⟩
  · rw [Dict.get?_set, if_pos rfl] at hno
    exact absurd hno (by simp)
  · obtain rfl := eq_of_setJob hx
    rw [hrounds, hupdated.1]
    exact h.counts job hjob
  · obtain rfl := eq_of_setJob hx
    rw [hrounds, hupdated.2]
    exact h.sizes job hjob
  · obtain rfl := eq_of_setJob hx
    rw [hrounds, hselects, hbefore]
    cases ids with
    | nil => simp [Job.select, hnone]
    | cons id ids => simp [Job.select, hopen]
  · obtain rfl := eq_of_setJob hx
    cases ids with
    | nil => exact absurd (hnone.symm.trans hpending) (by simp)
    | cons id ids =>
        obtain rfl := Option.some.inj hpending
        have hkeys := @valuesOf_spec host _ _ hids.2.1
        have hlength := congrArg List.length hkeys
        rw [List.length_map] at hlength
        refine ⟨?_, by rw [hkeys]; exact hids.1, fun value hvalue => ?_, hlength.trans hids.2.2⟩
        · intro hnil
          rw [hnil] at hlength
          exact absurd hlength (by simp)
        · exact hids.2.1 _ (hkeys ▸ List.mem_map_of_mem hvalue)
  · obtain rfl := eq_of_setJob hx
    cases ids with
    | nil =>
        have hfilled := filled_of_selects hids
        apply List.eq_nil_iff_forall_not_mem.mpr
        intro id hid
        obtain ⟨row, hrow, hnull⟩ := mem_nulls.mp hid
        have := hfilled id row hrow
        rw [hnull] at this
        exact absurd this (by simp)
    | cons id ids => exact absurd (hopen.symm.trans hfinished) (by simp)

/-- An update: a whole batch, or all that was left. -/
theorem Counts.updated {n : Nat} {acts : List Action} {job : Job} (h : Counts n acts w)
    (hjob : w.jobs.get? 0 = some job) (hpending : job.pending = some values) :
    Counts n (acts ++ [.update 0])
      { edits := updateBatch w.edits values, jobs := w.jobs.set 0 (job.advance values) } := by
  obtain ⟨hsum, hround, hbound⟩ := h.counts job hjob
  obtain ⟨hcount, hdropped, hfull⟩ := h.sizes job hjob
  obtain ⟨hne, hnodup, hnulls, hlength⟩ := h.pending job values hjob hpending
  have hfewer := length_nulls_updateBatch hnodup hnulls
  have hpos := List.length_pos_of_ne_nil hne
  have hnonempty : nulls w.edits ≠ [] := by
    intro hnil
    rw [hnil, List.length_nil] at hfewer
    omega
  have hopen : job.finished = false := by
    by_contra hfinished
    exact hnonempty (h.finished job hjob (by simpa using hfinished))
  have hrounds : rounds (acts ++ [.update 0]) = rounds acts + 1 := by simp [rounds]
  have hselects : BackfillReverts.selects (acts ++ [.update 0]) = BackfillReverts.selects acts := by
    simp [BackfillReverts.selects, Action.isSelect]
  have hbefore := h.selects job hjob
  rw [hpending, hopen] at hbefore
  have hwhole : rounds acts * batch = job.updated := hround.resolve_right hnonempty
  refine ⟨h.only_setJob _, fun hno => ?_, fun x hx => ?_, fun x hx => ?_, fun x hx => ?_, fun x values' hx hnew => ?_,
    fun x hx hfinished => ?_⟩
  · rw [Dict.get?_set, if_pos rfl] at hno
    exact absurd hno (by simp)
  · obtain rfl := eq_of_setJob hx
    rw [hrounds, Nat.succ_mul]
    show job.updated + values.length + (nulls (updateBatch w.edits values)).length = n ∧
      (rounds acts * batch + batch = job.updated + values.length ∨ nulls (updateBatch w.edits values) = []) ∧
        rounds acts * batch + batch < n + batch
    refine ⟨by omega, ?_, by omega⟩
    rcases Nat.lt_or_ge (nulls w.edits).length batch with hlast | hmore
    · exact Or.inr (List.eq_nil_of_length_eq_zero (by omega))
    · exact Or.inl (by omega)
  · obtain rfl := eq_of_setJob hx
    rw [hrounds]
    refine ⟨by simp [Job.advance, hcount], fun size hsize => ?_, fun hmore size hsize => ?_⟩
    · -- what was the last update before is a whole batch, as there was more to do
      simp only [Job.advance, List.dropLast_concat] at hsize
      exact hfull hnonempty size hsize
    · simp only [Job.advance, List.mem_append, List.mem_singleton] at hsize
      rcases hsize with hold | rfl
      · exact hfull hnonempty size hold
      · have hleft := List.length_pos_of_ne_nil hmore
        dsimp only at hleft
        omega
  · obtain rfl := eq_of_setJob hx
    rw [hrounds, hselects, hbefore]
    simp [Job.advance, hopen]
  · obtain rfl := eq_of_setJob hx
    exact absurd hnew (by simp [Job.advance])
  · obtain rfl := eq_of_setJob hx
    exact absurd (hopen.symm.trans hfinished) (by simp)

theorem Counts.step {n : Nat} {acts : List Action} {a : Action} (h : Counts n acts w) (halone : a.Alone)
    (hstep : step host w a = some w') : Counts n (acts ++ [a]) w' := by
  cases step_inv hstep with
  | @start i hnone =>
      obtain rfl := halone
      obtain ⟨hzero, hselects, hn⟩ := h.none_yet hnone
      have hrounds : rounds (acts ++ [.start 0]) = 0 := by simpa [rounds] using hzero
      have hnew : BackfillReverts.selects (acts ++ [.start 0]) = 0 := by
        simpa [BackfillReverts.selects, Action.isSelect] using hselects
      have hbatch : 0 < batch := by decide
      refine ⟨h.only_setJob _, fun hno => ?_, fun x hx => ?_, fun x hx => ?_, fun x hx => ?_,
        fun x values hx hpending => ?_, fun x hx hfinished => ?_⟩
      · rw [Dict.get?_set, if_pos rfl] at hno
        exact absurd hno (by simp)
      · obtain rfl := eq_of_setJob hx
        rw [hrounds, Nat.zero_mul]
        exact ⟨(Nat.zero_add _).trans hn, Or.inl rfl, by omega⟩
      · obtain rfl := eq_of_setJob hx
        rw [hrounds]
        exact ⟨rfl, fun size hsize => absurd hsize (by simp), fun _ size hsize => absurd hsize (by simp)⟩
      · obtain rfl := eq_of_setJob hx
        rw [hrounds, hnew]
        rfl
      · obtain rfl := eq_of_setJob hx
        exact absurd hpending (by simp)
      · obtain rfl := eq_of_setJob hx
        exact absurd hfinished (by simp)
  | @select i ids job hjob hopen hnone hids =>
      obtain rfl := halone
      exact h.selected hjob hopen hnone hids
  | @update i job values hjob hpending =>
      obtain rfl := halone
      exact h.updated hjob hpending
  | stop _ _ => exact halone.elim
  | @insert event =>
      have hrounds : rounds (acts ++ [.insert event]) = rounds acts := by simp [rounds]
      have hselects : BackfillReverts.selects (acts ++ [.insert event]) = BackfillReverts.selects acts := by
        simp [BackfillReverts.selects, Action.isSelect]
      refine ⟨h.only, ?_, ?_, ?_, ?_, ?_, ?_⟩
      · rw [hrounds, hselects, nulls_insertEdit]
        exact h.none_yet
      · rw [hrounds, nulls_insertEdit]
        exact h.counts
      · rw [hrounds, nulls_insertEdit]
        exact h.sizes
      · rw [hrounds, hselects]
        exact h.selects
      · rw [nulls_insertEdit]
        exact h.pending
      · rw [nulls_insertEdit]
        exact h.finished

/-- As long as it has not come to its end, the backfill can go on. -/
theorem exists_step_of_open {job : Job} (hjob : w.jobs.get? 0 = some job) (hopen : job.finished = false) :
    (step host w (.update 0)).isSome = true ∨ ∃ ids, (step host w (.select 0 ids)).isSome = true := by
  simp only [BackfillReverts.step, hjob]
  cases hpending : job.pending with
  | some values => exact Or.inl rfl
  | none =>
      have hids : Selects w.edits ((nulls w.edits).take batch) :=
        ⟨(List.take_sublist batch _).nodup (w.edits.filter _).nodup, fun id hid => List.mem_of_mem_take hid,
          List.length_take⟩
      refine Or.inr ⟨(nulls w.edits).take batch, ?_⟩
      rw [if_pos ⟨rfl, hopen, hids⟩]
      rfl

/-- **One backfill ends, and counts what it did.** In every run of one backfill beside the sink: it can go on until it
    has come to its end, and there are no more updates than the rows at the start need, and at most one select more;
    every update but the last one fills a whole batch; and at the end the number it reports is the number of rows that
    were `NULL` at the start. -/
theorem backfill_alone {before : Edits} {acts : List Action} (halone : ∀ a ∈ acts, a.Alone)
    (hrun : run (step host) { edits := before } acts = some w) :
    rounds acts * batch < (nulls before).length + batch ∧ selects acts ≤ rounds acts + 1 ∧
      ∀ job, w.jobs.get? 0 = some job →
        (job.finished = false →
          (step host w (.update 0)).isSome = true ∨ ∃ ids, (step host w (.select 0 ids)).isSome = true) ∧
        (job.sizes.length = rounds acts ∧ ∀ size ∈ job.sizes.dropLast, size = batch) ∧
        (job.finished = true → job.updated = (nulls before).length) := by
  have hinit : Counts (nulls before).length [] { edits := before } :=
    ⟨fun i _ => rfl, fun _ => ⟨rfl, rfl, rfl⟩, fun job h => absurd h (by simp), fun job h => absurd h (by simp),
      fun job h => absurd h (by simp), fun job values h => absurd h (by simp), fun job h => absurd h (by simp)⟩
  have hok : Always (step host) (fun _ a => a.Alone) { edits := before } acts := always_of_mem halone _
  have h : Counts (nulls before).length acts w :=
    run_invariant hinit (fun as t a t' ht ha hstep => ht.step ha hstep) hok hrun
  refine ⟨?_, ?_, fun job hjob => ⟨exists_step_of_open hjob, ?_, fun hfinished => ?_⟩⟩
  · cases hjob : w.jobs.get? 0 with
    | none =>
        obtain ⟨hzero, _⟩ := h.none_yet hjob
        rw [hzero, Nat.zero_mul]
        exact Nat.add_pos_right _ (by decide)
    | some job => exact (h.counts job hjob).2.2
  · cases hjob : w.jobs.get? 0 with
    | none =>
        obtain ⟨_, hzero, _⟩ := h.none_yet hjob
        omega
    | some job =>
        have hselects := h.selects job hjob
        have hends : job.pending.isSome = true → job.finished = false := by
          intro hsome
          by_contra hfinished
          obtain ⟨values, hvalues⟩ := Option.isSome_iff_exists.mp hsome
          obtain ⟨hne, _, hnulls, _⟩ := h.pending job values hjob hvalues
          obtain ⟨value, hvalue⟩ := List.exists_mem_of_ne_nil values hne
          have hmem := hnulls value hvalue
          rw [h.finished job hjob (by simpa using hfinished)] at hmem
          exact absurd hmem List.not_mem_nil
        split at hselects
        · next hsome =>
            rw [hends hsome] at hselects
            simp at hselects
            omega
        · split at hselects <;> omega
  · obtain ⟨hcount, hdropped, _⟩ := h.sizes job hjob
    exact ⟨hcount, hdropped⟩
  · have hsum := (h.counts job hjob).1
    rw [h.finished job hjob hfinished, List.length_nil] at hsum
    exact hsum

/-- Two rows take one round. -/
theorem backfill_alone_two :
    ∃ w job, run (step EditWarDetector.revertHost) { edits := oldRows }
        [.start 0, .select 0 [lit "a", lit "b"], .insert (EditWarDetector.revertBy "T" "u" "c" 0).1, .update 0,
          .select 0 []] = some w ∧ w.jobs.get? 0 = some job ∧ job.updated = (nulls oldRows).length := by
  have hstate : (run (step EditWarDetector.revertHost) { edits := oldRows }
      [.start 0, .select 0 [lit "a", lit "b"], .insert (EditWarDetector.revertBy "T" "u" "c" 0).1, .update 0,
        .select 0 []]).map (fun w => (w.jobs.get? 0).map Job.finished) = some (some true) := by
    decide +kernel
  obtain ⟨w, hrun, hw⟩ := Option.map_eq_some_iff.mp hstate
  obtain ⟨job, hjob, hfinished⟩ := Option.map_eq_some_iff.mp hw
  exact ⟨w, job, hrun, hjob, ((backfill_alone (by decide) hrun).2.2 job hjob).2.2 hfinished⟩

end BackfillReverts
end Wikistream
