import Wikistream.Lib.Run
import Wikistream.Sinks.PostgresSink

/-!
# `Correctness.Storage` — exactly-once storage without a distributed transaction

Every readable record below a committed offset has its row, whatever the rebalances, retries and crashes.
A committed offset is the position of an instance whose whole batch is written, and everything visible
behind a position is stored or in that batch.

## Contents
- **The invariant** (`Stored`, `StoredBy`).
- **The result** (`stored_exactly_once`): rows below the committed offsets, one row per id, and rows that
  never change.

Nothing here needs a partition to have one owner at a time.
-/

namespace Wikistream
namespace PostgresSink

open Lib Topics Db

variable {ρ ν κ : Type}

def HasRow (S : Sink ρ ν κ) (table : List ν) (row : ν) : Prop :=
  ∃ stored ∈ table, S.rowId stored = S.rowId row

/-- What the phase of an instance says about its batch. -/
def PhaseOk (S : Sink ρ ν κ) (table : List ν) (batch : List (Message ρ)) : Phase ν → Prop
  | .collecting => True
  | .writing rows => decodeBatch S batch = some rows
  | .written => ∀ m ∈ batch, ∀ row, S.decode m.record = .row row → HasRow S table row

structure StoredBy (S : Sink ρ ν κ) (log : Log ρ) (table : List ν) (inst : Instance ρ ν) : Prop where
  /-- Every readable record behind a cursor has its row or is in the batch. -/
  cursor : ∀ p cur, inst.cursors.get? p = some cur → ∀ o < cur.fetch, ∀ r row, log p o = some r →
    S.decode r = .row row → HasRow S table row ∨ ⟨p, o, r⟩ ∈ inst.batch
  position : ∀ p cur, inst.cursors.get? p = some cur → ∀ q, cur.position = some q → q = cur.fetch
  delivered : ∀ m ∈ inst.batch, Delivers log m
  phase : PhaseOk S table inst.batch inst.phase

structure Stored (S : Sink ρ ν κ) (log : Log ρ) (g : Group ρ ν) : Prop where
  committed : ∀ p c, g.committed.get? p = some c → ∀ o < c, ∀ r row, log p o = some r →
    S.decode r = .row row → HasRow S g.table row
  instances : ∀ i inst, g.instances.get? i = some inst → StoredBy S log g.table inst
  nodup : (g.table.map S.rowId).Nodup
  /-- Every row was decoded from a record. -/
  decoded : ∀ row ∈ g.table, ∃ p o r, log p o = some r ∧ S.decode r = .row row

variable {S : Sink ρ ν κ} {log : Log ρ} {g g' : Group ρ ν} {table table' : List ν}
variable {inst : Instance ρ ν} {i : Nat}

theorem HasRow.mono {row : ν} (h : HasRow S table row) (hsub : table ⊆ table') : HasRow S table' row := by
  obtain ⟨stored, hs, hid⟩ := h
  exact ⟨stored, hsub hs, hid⟩

theorem PhaseOk.mono {batch : List (Message ρ)} {phase : Phase ν} (h : PhaseOk S table batch phase)
    (hsub : table ⊆ table') : PhaseOk S table' batch phase := by
  cases phase with
  | collecting => trivial
  | writing rows => exact h
  | written => exact fun m hm row hr => (h m hm row hr).mono hsub

theorem StoredBy.mono (h : StoredBy S log table inst) (hsub : table ⊆ table') :
    StoredBy S log table' inst where
  cursor p cur hc o ho r row hr hd := (h.cursor p cur hc o ho r row hr hd).imp_left (·.mono hsub)
  position := h.position
  delivered := h.delivered
  phase := h.phase.mono hsub

/-- A decoded batch gives a row for each of its readable records, and no other rows. -/
theorem mem_decodeBatch {batch : List (Message ρ)} {rows : List ν} (h : decodeBatch S batch = some rows)
    (row : ν) : row ∈ rows ↔ ∃ m ∈ batch, S.decode m.record = .row row := by
  induction batch generalizing rows with
  | nil =>
      obtain rfl := Option.some.inj h
      simp
  | cons m batch ih =>
      unfold decodeBatch at h
      cases hm : S.decode m.record with
      | row r =>
          simp only [hm, Option.map_eq_some_iff] at h
          obtain ⟨rest, hrest, rfl⟩ := h
          simp [ih hrest, hm, eq_comm]
      | unreadable =>
          simp only [hm] at h
          simp [ih h, hm]
      | raises =>
          simp only [hm] at h
          exact absurd h (by simp)

/-! ## One step -/

theorem stored_init : Stored S log ({} : Group ρ ν) where
  committed p c hc := absurd hc (by simp)
  instances i inst hi := absurd hi (by simp)
  nodup := List.nodup_nil
  decoded row hrow := absurd hrow (by simp)

theorem get?_put (g : Group ρ ν) (i : Nat) (inst : Instance ρ ν) (j : Nat) :
    (g.put i inst).instances.get? j = if j = i then some inst else g.instances.get? j :=
  Dict.get?_set _ _ _ _

theorem Stored.put (h : Stored S log g) (hinst : StoredBy S log g.table inst) :
    Stored S log (g.put i inst) where
  committed := h.committed
  instances := by
    intro j other hj
    rw [get?_put] at hj
    split at hj
    · exact Option.some.inj hj ▸ hinst
    · exact h.instances j other hj
  nodup := h.nodup
  decoded := h.decoded

theorem Stored.remove (h : Stored S log g) (i : Nat) : Stored S log (g.remove i) where
  committed := h.committed
  instances := by
    intro j other hj
    change (g.instances.erase i).get? j = some other at hj
    rw [Dict.get?_erase] at hj
    split at hj
    · exact absurd hj (by simp)
    · exact h.instances j other hj
  nodup := h.nodup
  decoded := h.decoded

/-- An attempt that was applied, whatever the instance is told about it. -/
theorem Stored.insert [DecidableEq κ] (h : Stored S log g) (hi : g.instances.get? i = some inst) {rows : List ν}
    (hphase : inst.phase = .writing rows) :
    Stored S log { g with table := insertRows S.rowId g.table rows } where
  committed p c hc o ho r row hr hd :=
    (h.committed p c hc o ho r row hr hd).mono (prefix_insertRows _ _).subset
  instances j other hj := (h.instances j other hj).mono (prefix_insertRows _ _).subset
  nodup := nodup_insertRows h.nodup rows
  decoded := by
    intro row hrow
    rcases mem_of_mem_insertRows hrow with hold | hnew
    · exact h.decoded row hold
    · have hinst := h.instances i inst hi
      have hdec : decodeBatch S inst.batch = some rows := by
        have := hinst.phase
        rwa [hphase] at this
      obtain ⟨m, hm, hmr⟩ := (mem_decodeBatch hdec row).mp hnew
      exact ⟨_, _, _, hinst.delivered m hm, hmr⟩

theorem storedBy_taken {cursors : Dict Nat Cursor} {batch : List (Message ρ)} (h : Stored S log g)
    (hinst : StoredBy S log g.table ⟨cursors, batch, .collecting⟩) (ps : List Nat) :
    StoredBy S log g.table ⟨takePartitions g.committed ps cursors, batch, .collecting⟩ where
  cursor := by
    intro p cur hcur o ho r row hr hd
    rcases takePartitions_cases hcur with rfl | hcur
    · cases hc : g.committed.get? p with
      | none =>
          rw [hc] at ho
          exact absurd ho (Nat.not_lt_zero o)
      | some c =>
          rw [hc] at ho
          exact Or.inl (h.committed p c hc o ho r row hr hd)
    · exact hinst.cursor p cur hcur o ho r row hr hd
  position p cur hcur q hq := hinst.position p cur (get?_of_position hcur hq) q hq
  delivered := hinst.delivered
  phase := trivial

theorem storedBy_released {cursors : Dict Nat Cursor} {batch : List (Message ρ)}
    (hinst : StoredBy S log table ⟨cursors, batch, .collecting⟩) (ps : List Nat) :
    StoredBy S log table ⟨releasePartitions ps cursors, batch, .collecting⟩ := by
  have hget : ∀ p cur, (releasePartitions ps cursors).get? p = some cur → cursors.get? p = some cur :=
    fun p cur hcur => (get?_of_releasePartitions hcur).2
  exact ⟨fun p cur hcur => hinst.cursor p cur (hget p cur hcur),
    fun p cur hcur => hinst.position p cur (hget p cur hcur), hinst.delivered, trivial⟩

theorem storedBy_collected {cursors : Dict Nat Cursor} {batch : List (Message ρ)}
    (hinst : StoredBy S log table ⟨cursors, batch, .collecting⟩) {p o : Nat} {cur : Cursor} {r : ρ}
    (hcur : cursors.get? p = some cur) (hr : log p o = some r) (hnext : NextVisible log p cur.fetch o) :
    StoredBy S log table (Instance.collect ⟨cursors, batch, .collecting⟩ ⟨p, o, r⟩) where
  cursor := by
    intro q cur' hcur' x hx r' row hr' hd
    change (advance p o cursors).get? q = some cur' at hcur'
    rw [get?_advance] at hcur'
    have hmono : HasRow S table row ∨ ⟨q, x, r'⟩ ∈ batch →
        HasRow S table row ∨ ⟨q, x, r'⟩ ∈ batch ++ [(⟨p, o, r⟩ : Message ρ)] :=
      fun h => h.imp_right (List.mem_append_left _)
    split at hcur'
    · next hqp =>
        subst hqp
        obtain rfl := Option.some.inj hcur'
        rcases Nat.lt_or_ge x cur.fetch with hlt | hge
        · -- below the old fetch offset the row is there already; between it and the record polled nothing is visible
          exact hmono (hinst.cursor q cur hcur x hlt r' row hr' hd)
        · rcases Nat.lt_or_ge x o with hxo | hxo
          · have hnone := hnext.2 x hxo hge
            rw [hr'] at hnone
            exact absurd hnone (by simp)
          · obtain rfl : x = o := Nat.le_antisymm (Nat.le_of_lt_succ hx) hxo
            rw [hr] at hr'
            obtain rfl := Option.some.inj hr'
            exact Or.inr (List.mem_append_right _ (List.mem_singleton_self _))
    · exact hmono (hinst.cursor q cur' hcur' x hx r' row hr' hd)
  position := by
    intro q cur' hcur' y hy
    change (advance p o cursors).get? q = some cur' at hcur'
    rw [get?_advance] at hcur'
    split at hcur'
    · obtain rfl := Option.some.inj hcur'
      exact (Option.some.inj hy).symm
    · exact hinst.position q cur' hcur' y hy
  delivered := by
    intro m hm
    rcases List.mem_append.mp hm with hm' | hm'
    · exact hinst.delivered m hm'
    · rw [List.mem_singleton.mp hm']
      exact hr
  phase := trivial

theorem Stored.commit (h : Stored S log g) {cursors : Dict Nat Cursor} {batch : List (Message ρ)}
    (hinst : StoredBy S log g.table ⟨cursors, batch, .written⟩) :
    Stored S log { g.put i ⟨cursors, [], .collecting⟩ with
      committed := g.committed.update (positions cursors) } := by
  -- the batch is written, so everything readable behind a cursor has its row
  have hrow : ∀ p cur, cursors.get? p = some cur → ∀ o < cur.fetch, ∀ r row, log p o = some r →
      S.decode r = .row row → HasRow S g.table row := by
    intro p cur hcur o ho r row hr hd
    rcases hinst.cursor p cur hcur o ho r row hr hd with hh | hh
    · exact hh
    · exact hinst.phase _ hh row hd
  have hput : Stored S log (g.put i ⟨cursors, [], .collecting⟩) := h.put
    ⟨fun p cur hcur o ho r row hr hd => Or.inl (hrow p cur hcur o ho r row hr hd), hinst.position,
      fun m hm => absurd hm (by simp), trivial⟩
  refine ⟨?_, hput.instances, hput.nodup, hput.decoded⟩
  intro p c hc o ho r row hr hd
  change (g.committed.update (positions cursors)).get? p = some c at hc
  rw [Dict.get?_update, get?_positions] at hc
  cases hcur : cursors.get? p with
  | none =>
      rw [hcur] at hc
      exact h.committed p c hc o ho r row hr hd
  | some cur =>
      rw [hcur] at hc
      cases hq : cur.position with
      | none =>
          rw [Option.bind_some, hq] at hc
          exact h.committed p c hc o ho r row hr hd
      | some q =>
          rw [Option.bind_some, hq] at hc
          obtain rfl := Option.some.inj hc
          rw [hinst.position p cur hcur q hq] at ho
          exact hrow p cur hcur o ho r row hr hd

section Runs

variable [DecidableEq κ]

/-- **One step keeps the rows ahead of the offsets**, and only ever appends to the table. -/
theorem Stored.step (h : Stored S log g) {a : Action} (hstep : step S log g a = some g') :
    Stored S log g' ∧ g.table <+: g'.table := by
  cases a with
  | start i =>
      simp only [PostgresSink.step] at hstep
      split at hstep
      · obtain rfl := Option.some.inj hstep
        -- a process that starts has no partitions and no batch
        refine ⟨h.put ⟨?_, ?_, fun m hm => absurd hm (by simp), trivial⟩, List.prefix_refl _⟩
        · exact fun p cur hcur => absurd hcur (by simp)
        · exact fun p cur hcur => absurd hcur (by simp)
      · exact absurd hstep (by simp)
  | assign i ps =>
      simp only [PostgresSink.step] at hstep
      split at hstep
      · next hi =>
          obtain rfl := Option.some.inj hstep
          exact ⟨h.put (storedBy_taken h (h.instances _ _ hi) ps), List.prefix_refl _⟩
      · exact absurd hstep (by simp)
  | revoke i ps =>
      simp only [PostgresSink.step] at hstep
      split at hstep
      · next hi =>
          obtain rfl := Option.some.inj hstep
          exact ⟨h.put (storedBy_released (h.instances _ _ hi) ps), List.prefix_refl _⟩
      · exact absurd hstep (by simp)
  | poll i p o =>
      simp only [PostgresSink.step] at hstep
      split at hstep
      · next hi =>
          split at hstep
          · next hcur hr =>
              split at hstep
              · next hc =>
                  obtain rfl := Option.some.inj hstep
                  exact ⟨h.put (storedBy_collected (h.instances _ _ hi) hcur hr hc.2),
                    List.prefix_refl _⟩
              · exact absurd hstep (by simp)
          · exact absurd hstep (by simp)
      · exact absurd hstep (by simp)
  | decode i =>
      simp only [PostgresSink.step] at hstep
      split at hstep
      · next hi =>
          have hinst := h.instances _ _ hi
          split at hstep
          · split at hstep
            · next rows hrows =>
                -- the batch has rows: they wait to be written
                obtain rfl := Option.some.inj hstep
                exact ⟨h.put ⟨hinst.cursor, hinst.position, hinst.delivered, hrows⟩,
                  List.prefix_refl _⟩
            · obtain rfl := Option.some.inj hstep
              -- an unreadable record ends the process
              exact ⟨h.remove i, List.prefix_refl _⟩
          · exact absurd hstep (by simp)
      · exact absurd hstep (by simp)
  | write i =>
      simp only [PostgresSink.step] at hstep
      split at hstep
      · next cursors batch rows hi =>
          obtain rfl := Option.some.inj hstep
          have hins := h.insert hi rfl
          have hinst := hins.instances i _ hi
          have hdec : decodeBatch S batch = some rows := hinst.phase
          -- the rows of the batch are in the table now, which only grows
          refine ⟨hins.put (i := i) ⟨hinst.cursor, hinst.position, hinst.delivered, ?_⟩,
            prefix_insertRows _ _⟩
          intro m hm row hr
          exact exists_mem_insertRows _ ((mem_decodeBatch hdec row).mpr ⟨m, hm, hr⟩)
      · exact absurd hstep (by simp)
  | lose i applied =>
      simp only [PostgresSink.step] at hstep
      split at hstep
      · next hi =>
          obtain rfl := Option.some.inj hstep
          cases applied with
          -- the connection is lost before or after the rows were applied; the loop writes them again either way
          | false => exact ⟨h, List.prefix_refl _⟩
          | true => exact ⟨h.insert hi rfl, prefix_insertRows _ _⟩
      · exact absurd hstep (by simp)
  | commit i =>
      simp only [PostgresSink.step] at hstep
      split at hstep
      · next hi =>
          obtain rfl := Option.some.inj hstep
          exact ⟨h.commit (h.instances _ _ hi), List.prefix_refl _⟩
      · exact absurd hstep (by simp)
  | crash i =>
      simp only [PostgresSink.step] at hstep
      split at hstep
      · obtain rfl := Option.some.inj hstep
        exact ⟨h.remove i, List.prefix_refl _⟩
      · exact absurd hstep (by simp)

/-- A run keeps the invariant and only appends to the table. -/
theorem Stored.run {acts : List Action} (h : Stored S log g)
    (hrun : run (PostgresSink.step S log) g acts = some g') : Stored S log g' ∧ g.table <+: g'.table := by
  refine run_state_invariant (I := fun t => Stored S log t ∧ g.table <+: t.table)
    ⟨h, List.prefix_refl _⟩ ?_ (@always_of_forall _ _ _ (fun _ _ => True) (fun _ _ => trivial) _ _) hrun
  intro t a t' ht _ hstep
  have := ht.1.step hstep
  exact ⟨this.1, ht.2.trans this.2⟩

/-- **Rows first, offsets second is exactly once.** After any interleaving of polls, rebalances, writes,
    retries, commits and crashes over any number of instances: every readable record below its partition's
    committed offset has its row, every row was decoded from a record, no id has two rows, and whatever
    happens next the stored rows stay as they are. -/
theorem stored_exactly_once {acts : List Action}
    (hrun : run (PostgresSink.step S log) {} acts = some g) :
    (∀ p c, g.committed.get? p = some c → ∀ o < c, ∀ r row, log p o = some r → S.decode r = .row row →
        HasRow S g.table row) ∧
      (∀ row ∈ g.table, ∃ p o r, log p o = some r ∧ S.decode r = .row row) ∧
      (g.table.map S.rowId).Nodup ∧
      ∀ next g'', Lib.run (PostgresSink.step S log) g next = some g'' → g.table <+: g''.table := by
  have h := (stored_init : Stored S log {}).run hrun
  exact ⟨h.1.committed, h.1.decoded, h.1.nodup, fun next g'' hnext => (h.1.run hnext).2⟩

end Runs

/-- A partition moves in the middle of a batch and the old owner's write is applied but reported lost: both
    instances write the record, and it is stored once. -/
theorem stored_exactly_once_after_move :
    let S : Sink Nat Nat Nat := { decode := .row, rowId := id }
    let log : Log Nat := fun p o => if p = 0 ∧ o < 2 then some (o + 10) else none
    let acts : List Action := [.start 0, .start 1, .assign 0 [0], .poll 0 0 0, .revoke 0 [0],
      .assign 1 [0], .decode 0, .lose 0 true, .poll 1 0 0, .poll 1 0 1, .decode 1, .write 1, .write 0,
      .commit 1, .crash 0]
    ∃ g, run (step S log) {} acts = some g ∧ g.committed.get? 0 = some 2 ∧ HasRow S g.table 11 ∧
      (g.table.map S.rowId).Nodup := by
  intro S log acts
  have hrun : (run (step S log) {} acts).isSome = true := by decide +kernel
  have hc : ((run (step S log) {} acts).get hrun).committed.get? 0 = some 2 := by
    decide +kernel +revert
  obtain ⟨hrows, _, hnodup, _⟩ := stored_exactly_once (Option.some_get hrun).symm
  exact ⟨_, (Option.some_get hrun).symm, hc, hrows 0 2 hc 1 (by decide) 11 11 rfl rfl, hnodup⟩

end PostgresSink
end Wikistream
