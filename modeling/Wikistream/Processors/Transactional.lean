import Wikistream.Common.Topics
import Wikistream.Lib.Machine

/-!
# `Processors.Transactional` — the shared loop that consumes, transforms and produces

Several instances of one consumer group run the loop of `transactional.py` over one input topic. A
`Processor` is what a subclass supplies; the state of an instance is the subclass's state, the consumer's
cursors, the batch being collected and the open transaction.

## Contents
- **The hooks** (`Processor`) and the state of an instance and of the group (`Instance`, `Group`).
- **The loop**, cut into the steps between which something else may happen: `poll` collects a message,
  `beginBatch`, `handleNext` and `commitBatch` are `process_batch`, `abort` is its exception path.
- **A whole batch** (`handleAll`): what the `for` loop of `process_batch` does to the state.
- **Rebalance callbacks** (`onAssign`, `onRevoke`). They run inside `consumer.poll`, so only while a batch
  is being collected.
- **`step`**, the transition system of the group. A crash removes an instance; whatever it held is gone.

Kafka is modelled by what the loop relies on: a poll moves the cursor, `position()` is one past the last
message polled since the assignment, a transaction publishes its outputs and offsets together or not at
all, a partition has one owner at a time, and a new owner resumes at the committed offset or, without one,
at the beginning.
-/

namespace Wikistream
namespace Transactional

open Lib Topics

/-- What a subclass of `TransactionalProcessor` supplies. `σ` is its state, `ρ` an input record, `ο` an
    output record, `ω` what the warm-up reads from Kafka, `ε` what may be raised. -/
structure Processor (σ ρ ο ω ε : Type) where
  init : σ
  maxBatch : Nat := 2000
  /-- Process one message; the outputs are those it produces. -/
  handle : σ → Message ρ → Except ε (σ × List ο)
  /-- Build state for newly assigned partitions, given the group's committed offsets. -/
  partitionsAssigned : Dict Nat Nat → ω → σ → List Nat → Except ε σ := fun _ _ s _ => .ok s
  partitionsRevoked : σ → List Nat → σ := fun s _ => s
  periodic : σ → σ := id

/-- A transaction in progress: what is left of its batch, what was handled and what that produced. -/
structure Txn (ρ ο : Type) where
  todo : List (Message ρ)
  handled : List (Message ρ) := []
  outputs : List ο := []

structure Instance (σ ρ ο : Type) where
  state : σ
  cursors : Dict Nat Cursor := Dict.empty
  batch : List (Message ρ) := []
  txn : Option (Txn ρ ο) := none

/-- A committed transaction. -/
structure Commit (ρ ο : Type) where
  handled : List (Message ρ)
  outputs : List ο

structure Group (σ ρ ο : Type) where
  committed : Dict Nat Nat := Dict.empty
  /-- The committed transactions, oldest first. -/
  commits : List (Commit ρ ο) := []
  instances : Dict Nat (Instance σ ρ ο) := Dict.empty

variable {σ ρ ο ω ε : Type}

def Instance.inTransaction (inst : Instance σ ρ ο) : Bool := inst.txn.isSome

/-! ## The loop -/

/-- A message handed out by `consumer.poll` in `collect_batch`. -/
def Instance.collect (inst : Instance σ ρ ο) (m : Message ρ) : Instance σ ρ ο :=
  { inst with
    cursors := advance m.partition m.offset inst.cursors
    batch := inst.batch ++ [m] }

/-- The start of `process_batch`. -/
def Instance.beginBatch (inst : Instance σ ρ ο) : Instance σ ρ ο :=
  { inst with
    batch := []
    txn := some { todo := inst.batch } }

def Instance.handled (inst : Instance σ ρ ο) (t : Txn ρ ο) (m : Message ρ) (todo : List (Message ρ))
    (r : σ × List ο) : Instance σ ρ ο :=
  { inst with
    state := r.1
    txn := some { todo := todo, handled := t.handled ++ [m], outputs := t.outputs ++ r.2 } }

/-- One round of the `for` loop of `process_batch`. -/
def Instance.handleNext (P : Processor σ ρ ο ω ε) (inst : Instance σ ρ ο) (t : Txn ρ ο) (m : Message ρ)
    (todo : List (Message ρ)) : Except ε (Instance σ ρ ο) :=
  (P.handle inst.state m).map (inst.handled t m todo)

def Instance.closeTxn (inst : Instance σ ρ ο) : Instance σ ρ ο := { inst with txn := none }

/-- `_abort`: the outputs are dropped; the consumer's position and the state stay where they are. -/
def Instance.abort (inst : Instance σ ρ ο) : Instance σ ρ ο := inst.closeTxn

/-! ## A whole batch -/

/-- What handling a message does to the state. -/
def stateAfter (handle : σ → Message ρ → Except ε (σ × List ο)) (s : σ) (m : Message ρ) : Except ε σ :=
  (handle s m).map Prod.fst

/-- What the `for` loop of `process_batch` does to the state. -/
def handleAll (handle : σ → Message ρ → Except ε (σ × List ο)) (s : σ) (ms : List (Message ρ)) : Except ε σ :=
  workAll (stateAfter handle) s ms

section HandleAll

variable {handle : σ → Message ρ → Except ε (σ × List ο)} {s t : σ} {m : Message ρ} {ms : List (Message ρ)}

theorem stateAfter_eq_ok : stateAfter handle s m = .ok t ↔ ∃ outs, handle s m = .ok (t, outs) := by
  unfold stateAfter
  cases handle s m with
  | error e => exact ⟨fun h => absurd h (by simp [Except.map]), fun ⟨_, h⟩ => absurd h (by simp)⟩
  | ok r =>
      constructor
      · intro h
        exact ⟨r.2, congrArg Except.ok (Prod.ext (Except.ok.inj h) rfl)⟩
      · rintro ⟨outs, h⟩
        rw [Except.ok.inj h]
        rfl

theorem handleAll_cons :
    handleAll handle s (m :: ms) = .ok t ↔ ∃ s' outs, handle s m = .ok (s', outs) ∧ handleAll handle s' ms = .ok t := by
  unfold handleAll
  rw [workAll_cons]
  refine exists_congr (fun s' => ?_)
  rw [stateAfter_eq_ok, exists_and_right]

/-- Each message of the batch was handled, in some state. -/
theorem handle_of_mem (h : handleAll handle s ms = .ok t) (hm : m ∈ ms) : ∃ before r, handle before m = .ok r := by
  induction ms generalizing s with
  | nil => exact absurd hm (by simp)
  | cons x ms ih =>
      obtain ⟨s', outs, hx, hrest⟩ := handleAll_cons.mp h
      rcases List.mem_cons.mp hm with rfl | hm
      · exact ⟨s, _, hx⟩
      · exact ih hrest hm

/-- Messages that are handled in any state make up a batch that is. -/
theorem exists_handleAll (h : ∀ m ∈ ms, ∀ before, ∃ r, handle before m = .ok r) (s : σ) :
    ∃ t, handleAll handle s ms = .ok t := by
  induction ms generalizing s with
  | nil => exact ⟨s, rfl⟩
  | cons m ms ih =>
      obtain ⟨r, hm⟩ := h m List.mem_cons_self s
      obtain ⟨t, ht⟩ := ih (fun x hx => h x (List.mem_cons_of_mem _ hx)) r.1
      exact ⟨t, handleAll_cons.mpr ⟨r.1, r.2, hm, ht⟩⟩

end HandleAll

/-! ## Rebalance callbacks -/

def Instance.assigned (inst : Instance σ ρ ο) (committed : Dict Nat Nat) (ps : List Nat) (s : σ) :
    Instance σ ρ ο :=
  { inst with
    state := s
    cursors := takePartitions committed ps inst.cursors }

def Instance.onAssign (P : Processor σ ρ ο ω ε) (committed : Dict Nat Nat) (answers : ω)
    (inst : Instance σ ρ ο) (ps : List Nat) : Except ε (Instance σ ρ ο) :=
  (P.partitionsAssigned committed answers inst.state ps).map (inst.assigned committed ps)

/-- An open transaction is aborted before the state for the revoked partitions is dropped. -/
def Instance.onRevoke (P : Processor σ ρ ο ω ε) (inst : Instance σ ρ ο) (ps : List Nat) :
    Instance σ ρ ο :=
  let inst := if inst.inTransaction then inst.abort else inst
  { inst with
    state := P.partitionsRevoked inst.state ps
    cursors := releasePartitions ps inst.cursors }

/-! ## The group -/

inductive Action (ω : Type)
  | start (i : Nat)
  | assign (i : Nat) (ps : List Nat) (answers : ω)
  | revoke (i : Nat) (ps : List Nat)
  | poll (i p o : Nat)
  | beginBatch (i : Nat)
  | handleNext (i : Nat)
  | commitBatch (i : Nat)
  | abort (i : Nat)
  | periodic (i : Nat)
  | crash (i : Nat)

/-- No instance is assigned partition `p`. -/
def Unowned (g : Group σ ρ ο) (p : Nat) : Prop :=
  ∀ inst ∈ g.instances.values, (inst.cursors.get? p).isNone = true

instance (g : Group σ ρ ο) (p : Nat) : Decidable (Unowned g p) :=
  inferInstanceAs (Decidable (∀ _ ∈ _, _))

def Group.put (g : Group σ ρ ο) (i : Nat) (inst : Instance σ ρ ο) : Group σ ρ ο :=
  { g with instances := g.instances.set i inst }

def Group.remove (g : Group σ ρ ο) (i : Nat) : Group σ ρ ο :=
  { g with instances := g.instances.erase i }

/-- Keep the instance, or lose it to what it raised. -/
def Group.putOrCrash (g : Group σ ρ ο) (i : Nat) : Except ε (Instance σ ρ ο) → Group σ ρ ο
  | .ok inst => g.put i inst
  | .error _ => g.remove i

/-- The end of `process_batch`: outputs and positions are published together. -/
def Group.commit (g : Group σ ρ ο) (i : Nat) (inst : Instance σ ρ ο) (t : Txn ρ ο) : Group σ ρ ο where
  committed := g.committed.update (positions inst.cursors)
  commits := g.commits ++ [⟨t.handled, t.outputs⟩]
  instances := g.instances.set i inst.closeTxn

variable (P : Processor σ ρ ο ω ε) (log : Log ρ)

/-- One step of the group. -/
def step (g : Group σ ρ ο) : Action ω → Option (Group σ ρ ο)
  | .start i =>
      match g.instances.get? i with
      | none => some (g.put i { state := P.init })
      | some _ => none
  | .assign i ps answers =>
      match g.instances.get? i with
      | some inst =>
          -- the callback runs inside `poll`, never inside a transaction; a partition has one owner
          if inst.txn.isNone ∧ ∀ p ∈ ps, Unowned g p then
            some (g.putOrCrash i (inst.onAssign P g.committed answers ps))
          else none
      | none => none
  | .revoke i ps =>
      match g.instances.get? i with
      | some inst => if inst.txn.isNone then some (g.put i (inst.onRevoke P ps)) else none
      | none => none
  | .poll i p o =>
      match g.instances.get? i with
      | some inst =>
          -- a poll passes over what a compaction removed
          match inst.cursors.get? p, log p o with
          | some cur, some r =>
              if inst.txn.isNone ∧ inst.batch.length < P.maxBatch ∧ NextVisible log p cur.fetch o then
                some (g.put i (inst.collect ⟨p, o, r⟩))
              else none
          | _, _ => none
      | none => none
  | .beginBatch i =>
      match g.instances.get? i with
      | some inst =>
          if inst.txn.isNone ∧ inst.batch ≠ [] then some (g.put i inst.beginBatch) else none
      | none => none
  | .handleNext i =>
      match g.instances.get? i with
      | some inst =>
          match inst.txn with
          | some t =>
              match t.todo with
              | m :: todo => some (g.putOrCrash i (inst.handleNext P t m todo))
              | [] => none
          | none => none
      | none => none
  | .commitBatch i =>
      match g.instances.get? i with
      | some inst =>
          match inst.txn with
          -- the transaction ends when the whole batch is handled
          | some t => if t.todo = [] then some (g.commit i inst t) else none
          | none => none
      | none => none
  | .abort i =>
      match g.instances.get? i with
      | some inst => if inst.txn.isSome then some (g.put i inst.abort) else none
      | none => none
  | .periodic i =>
      match g.instances.get? i with
      | some inst =>
          -- `run` calls it between two batches
          if inst.txn.isNone ∧ inst.batch = [] then
            some (g.put i { inst with state := P.periodic inst.state })
          else none
      | none => none
  | .crash i =>
      match g.instances.get? i with
      | some _ => some (g.remove i)
      | none => none

/-! ## Reading the state after a change -/

theorem get?_put (g : Group σ ρ ο) (i : Nat) (inst : Instance σ ρ ο) (j : Nat) :
    (g.put i inst).instances.get? j = if j = i then some inst else g.instances.get? j :=
  Dict.get?_set _ _ _ _

theorem get?_remove (g : Group σ ρ ο) (i j : Nat) :
    (g.remove i).instances.get? j = if j = i then none else g.instances.get? j :=
  Dict.get?_erase _ _ _

theorem get?_commit (g : Group σ ρ ο) (i : Nat) (inst : Instance σ ρ ο) (t : Txn ρ ο) (j : Nat) :
    (g.commit i inst t).instances.get? j =
      if j = i then some inst.closeTxn else g.instances.get? j := Dict.get?_set _ _ _ _

theorem get?_committed_commit (g : Group σ ρ ο) (i : Nat) (inst : Instance σ ρ ο) (t : Txn ρ ο)
    (p : Nat) : (g.commit i inst t).committed.get? p =
      ((positions inst.cursors).get? p).or (g.committed.get? p) := Dict.get?_update _ _ _

/-- Inside a callback no transaction is open, so `on_revoke` never aborts one. -/
theorem onRevoke_of_txn_none {inst : Instance σ ρ ο} (h : inst.txn = none) (ps : List Nat) :
    inst.onRevoke P ps =
      { inst with
        state := P.partitionsRevoked inst.state ps
        cursors := releasePartitions ps inst.cursors } := by
  have hin : inst.inTransaction = false := by simp [Instance.inTransaction, h]
  simp [Instance.onRevoke, hin]

/-! ## What a step can be -/

/-- The steps, one constructor for each way an action can succeed. -/
inductive Step (g : Group σ ρ ο) : Action ω → Group σ ρ ο → Prop
  | start {i : Nat} (hi : g.instances.get? i = none) :
      Step g (.start i) (g.put i { state := P.init })
  | assign {i : Nat} {ps : List Nat} {answers : ω} {inst : Instance σ ρ ο} {s : σ}
      (hi : g.instances.get? i = some inst) (htxn : inst.txn = none)
      (hfree : ∀ p ∈ ps, Unowned g p)
      (hook : P.partitionsAssigned g.committed answers inst.state ps = .ok s) :
      Step g (.assign i ps answers) (g.put i (inst.assigned g.committed ps s))
  | revoke {i : Nat} {ps : List Nat} {inst : Instance σ ρ ο}
      (hi : g.instances.get? i = some inst) (htxn : inst.txn = none) :
      Step g (.revoke i ps) (g.put i (inst.onRevoke P ps))
  | poll {i p o : Nat} {inst : Instance σ ρ ο} {cur : Cursor} {r : ρ}
      (hi : g.instances.get? i = some inst) (htxn : inst.txn = none)
      (hcur : inst.cursors.get? p = some cur) (hr : log p o = some r)
      (hnext : NextVisible log p cur.fetch o) :
      Step g (.poll i p o) (g.put i (inst.collect ⟨p, o, r⟩))
  | beginBatch {i : Nat} {inst : Instance σ ρ ο}
      (hi : g.instances.get? i = some inst) (htxn : inst.txn = none) :
      Step g (.beginBatch i) (g.put i inst.beginBatch)
  | handleNext {i : Nat} {inst : Instance σ ρ ο} {t : Txn ρ ο} {m : Message ρ}
      {todo : List (Message ρ)} {r : σ × List ο}
      (hi : g.instances.get? i = some inst) (htxn : inst.txn = some t) (htodo : t.todo = m :: todo)
      (hook : P.handle inst.state m = .ok r) :
      Step g (.handleNext i) (g.put i (inst.handled t m todo r))
  | commitBatch {i : Nat} {inst : Instance σ ρ ο} {t : Txn ρ ο}
      (hi : g.instances.get? i = some inst) (htxn : inst.txn = some t) (htodo : t.todo = []) :
      Step g (.commitBatch i) (g.commit i inst t)
  | abort {i : Nat} {inst : Instance σ ρ ο} {t : Txn ρ ο}
      (hi : g.instances.get? i = some inst) (htxn : inst.txn = some t) :
      Step g (.abort i) (g.put i inst.abort)
  | periodic {i : Nat} {inst : Instance σ ρ ο}
      (hi : g.instances.get? i = some inst) (htxn : inst.txn = none) :
      Step g (.periodic i) (g.put i { inst with state := P.periodic inst.state })
  /-- A crash, or an exception out of a hook. -/
  | die {i : Nat} {a : Action ω} (ha : a = .crash i ∨ a = .handleNext i ∨ ∃ ps ω', a = .assign i ps ω') :
      Step g a (g.remove i)

variable {P log}

theorem step_inv {g g' : Group σ ρ ο} {a : Action ω} (h : step P log g a = some g') :
    Step P log g a g' := by
  cases a with
  | start i =>
      simp only [step] at h
      split at h
      · next hi => exact Option.some.inj h ▸ .start hi
      · exact absurd h (by simp)
  | assign i ps answers =>
      simp only [step] at h
      split at h
      · next inst hi =>
          split at h
          · next hc =>
              obtain rfl := Option.some.inj h
              unfold Instance.onAssign
              cases hook : P.partitionsAssigned g.committed answers inst.state ps with
              | ok s => exact .assign hi (Option.isNone_iff_eq_none.mp hc.1) hc.2 hook
              | error e => exact .die (Or.inr (Or.inr ⟨ps, answers, rfl⟩))
          · exact absurd h (by simp)
      · exact absurd h (by simp)
  | revoke i ps =>
      simp only [step] at h
      split at h
      · next inst hi =>
          split at h
          · next hc => exact Option.some.inj h ▸ .revoke hi (Option.isNone_iff_eq_none.mp hc)
          · exact absurd h (by simp)
      · exact absurd h (by simp)
  | poll i p o =>
      simp only [step] at h
      split at h
      · next inst hi =>
          split at h
          · next cur r hcur hr =>
              split at h
              · next hc =>
                  exact Option.some.inj h ▸
                    .poll hi (Option.isNone_iff_eq_none.mp hc.1) hcur hr hc.2.2
              · exact absurd h (by simp)
          · exact absurd h (by simp)
      · exact absurd h (by simp)
  | beginBatch i =>
      simp only [step] at h
      split at h
      · next inst hi =>
          split at h
          · next hc => exact Option.some.inj h ▸ .beginBatch hi (Option.isNone_iff_eq_none.mp hc.1)
          · exact absurd h (by simp)
      · exact absurd h (by simp)
  | handleNext i =>
      simp only [step] at h
      split at h
      · next inst hi =>
          split at h
          · next t htxn =>
              split at h
              · next m todo htodo =>
                  obtain rfl := Option.some.inj h
                  unfold Instance.handleNext
                  cases hook : P.handle inst.state m with
                  | ok r => exact .handleNext hi htxn htodo hook
                  | error e => exact .die (Or.inr (Or.inl rfl))
              · exact absurd h (by simp)
          · exact absurd h (by simp)
      · exact absurd h (by simp)
  | commitBatch i =>
      simp only [step] at h
      split at h
      · next inst hi =>
          split at h
          · next t htxn =>
              split at h
              · next htodo => exact Option.some.inj h ▸ .commitBatch hi htxn htodo
              · exact absurd h (by simp)
          · exact absurd h (by simp)
      · exact absurd h (by simp)
  | abort i =>
      simp only [step] at h
      split at h
      · next inst hi =>
          split at h
          · next hc =>
              obtain ⟨t, htxn⟩ := Option.isSome_iff_exists.mp hc
              exact Option.some.inj h ▸ .abort hi htxn
          · exact absurd h (by simp)
      · exact absurd h (by simp)
  | periodic i =>
      simp only [step] at h
      split at h
      · next inst hi =>
          split at h
          · next hc => exact Option.some.inj h ▸ .periodic hi (Option.isNone_iff_eq_none.mp hc.1)
          · exact absurd h (by simp)
      · exact absurd h (by simp)
  | crash i =>
      simp only [step] at h
      split at h
      · exact Option.some.inj h ▸ .die (Or.inl rfl)
      · exact absurd h (by simp)

end Transactional
end Wikistream
