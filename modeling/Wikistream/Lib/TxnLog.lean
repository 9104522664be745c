import Mathlib.Data.List.Chain
import Mathlib.Tactic.Common

/-!
# `Lib.TxnLog` — a partition log with transactions, as its readers see it

Producers append records, with or without a transaction around them, and a transaction ends with a marker that takes an
offset like any record. A `read_committed` reader goes up to the last stable offset, where the first transaction still
open begins, and gets the records of committed transactions and those outside any.

## Contents
- **Logs.** `Entry`, `TxnLog`; `decision` finds the marker that ends a transaction.
- **What a reader sees** (`seen`, `stable`, `recordAt`): one answer for each stable offset, also from an offset on
  (`tail`).
- **Logs of one kind**: without transactions every stable offset has a record (`recordAt_of_plain`); with nothing but
  decided transactions the last one has none (`recordAt_last`).
- **One producer that commits** (`committed`): no two markers come in a row (`isChain_seen_committed`).
-/

namespace Lib

/-- What takes an offset. -/
inductive Entry (ρ : Type)
  | plain (record : ρ)
  | inTxn (producer : Nat) (record : ρ)
  | commit (producer : Nat)
  | abort (producer : Nat)
  deriving DecidableEq

/-- A partition's log; what came before `start` is no longer kept. -/
structure TxnLog (ρ : Type) where
  start : Nat
  entries : List (Entry ρ)

variable {ρ : Type}

/-- How the open transaction of a producer ends: the first of its markers tells. -/
def decision (producer : Nat) : List (Entry ρ) → Option Bool
  | [] => none
  | .commit p :: es => if p = producer then some true else decision producer es
  | .abort p :: es => if p = producer then some false else decision producer es
  | .plain _ :: es | .inTxn _ _ :: es => decision producer es

/-- What a reader gets at each offset, up to the last stable one. -/
def seen : List (Entry ρ) → List (Option ρ)
  | [] => []
  | .plain r :: es => some r :: seen es
  | .commit _ :: es | .abort _ :: es => none :: seen es
  | .inTxn p r :: es =>
      match decision p es with
      | none => []
      | some true => some r :: seen es
      | some false => none :: seen es

namespace TxnLog

/-- The last stable offset, the end of the log for a `read_committed` reader. -/
def stable (log : TxnLog ρ) : Nat := log.start + (seen log.entries).length

/-- The record a reader gets at offset `o`. -/
def recordAt (log : TxnLog ρ) (o : Nat) : Option ρ :=
  if o < log.start then none else ((seen log.entries)[o - log.start]?).join

theorem recordAt_eq_some {log : TxnLog ρ} {o : Nat} {r : ρ} :
    log.recordAt o = some r ↔ log.start ≤ o ∧ (seen log.entries)[o - log.start]? = some (some r) := by
  unfold recordAt
  split
  · next h => simp only [reduceCtorEq, false_iff, not_and]; omega
  · next h => rw [Option.join_eq_some_iff, and_iff_right (Nat.not_lt.mp h)]

/-- Nothing is read at the last stable offset, or past it. -/
theorem lt_stable {log : TxnLog ρ} {o : Nat} {r : ρ} (h : log.recordAt o = some r) :
    log.start ≤ o ∧ o < log.stable := by
  obtain ⟨hstart, hget⟩ := recordAt_eq_some.mp h
  have hlt := (List.getElem?_eq_some_iff.mp hget).1
  unfold stable
  omega

/-- What a reader gets from offset `o` on. -/
def tail (log : TxnLog ρ) (o : Nat) : List (Option ρ) := (List.range' o (log.stable - o)).map log.recordAt

theorem length_tail (log : TxnLog ρ) (o : Nat) : (log.tail o).length = log.stable - o := by
  rw [tail, List.length_map, List.length_range']

theorem mem_tail {log : TxnLog ρ} {o : Nat} {x : Option ρ} :
    x ∈ log.tail o ↔ ∃ o', o ≤ o' ∧ o' < log.stable ∧ log.recordAt o' = x := by
  unfold tail
  rw [List.mem_map]
  refine exists_congr (fun o' => ?_)
  rw [List.mem_range'_1, ← and_assoc]
  refine and_congr_left (fun _ => and_congr_right (fun _ => ?_))
  omega

/-- A tail of one is what is at its offset. -/
theorem tail_eq_singleton {log : TxnLog ρ} {o : Nat} {x : Option ρ} :
    log.tail o = [x] ↔ o + 1 = log.stable ∧ log.recordAt o = x := by
  constructor
  · intro h
    have hlength := log.length_tail o
    rw [h, List.length_singleton] at hlength
    refine ⟨by omega, ?_⟩
    rw [tail, ← hlength] at h
    exact List.singleton_inj.mp h
  · rintro ⟨hstable, rfl⟩
    rw [tail, show log.stable - o = 1 by omega]
    rfl

end TxnLog

/-! ## Logs of one kind -/

/-- No producer used a transaction. -/
def Plain (es : List (Entry ρ)) : Prop := ∀ e ∈ es, ∃ r, e = .plain r

/-- Every record is in a transaction. -/
def Transactional (es : List (Entry ρ)) : Prop := ∀ e ∈ es, ∀ r, e ≠ .plain r

/-- No transaction is open at the end of the log. -/
def AllDecided : List (Entry ρ) → Prop
  | [] => True
  | .inTxn p _ :: es => decision p es ≠ none ∧ AllDecided es
  | _ :: es => AllDecided es

theorem seen_of_plain {es : List (Entry ρ)} (h : Plain es) : (seen es).length = es.length ∧ none ∉ seen es := by
  induction es with
  | nil => simp [seen]
  | cons e es ih =>
      obtain ⟨r, rfl⟩ := h e List.mem_cons_self
      obtain ⟨hlength, hnone⟩ := ih (fun e he => h e (List.mem_cons_of_mem _ he))
      simp [seen, hlength, hnone]

/-- **Without transactions every stable offset has a record.** -/
theorem recordAt_of_plain {log : TxnLog ρ} (h : Plain log.entries) {o : Nat} (hstart : log.start ≤ o)
    (ho : o < log.stable) : ∃ r, log.recordAt o = some r := by
  have hlt : o - log.start < (seen log.entries).length := by
    unfold TxnLog.stable at ho
    omega
  cases hr : (seen log.entries)[o - log.start] with
  | none => exact absurd (hr ▸ List.getElem_mem hlt) (seen_of_plain h).2
  | some r => exact ⟨r, TxnLog.recordAt_eq_some.mpr ⟨hstart, hr ▸ List.getElem?_eq_getElem hlt⟩⟩

/-- A decided log is stable to its end. -/
theorem length_seen {es : List (Entry ρ)} (h : AllDecided es) : (seen es).length = es.length := by
  induction es with
  | nil => rfl
  | cons e es ih =>
      cases e with
      | inTxn p r =>
          obtain ⟨hdecided, hrest⟩ := h
          cases hd : decision p es with
          | none => exact absurd hd hdecided
          | some committed => cases committed <;> simp [seen, hd, ih hrest]
      | plain r => simp [seen, ih h]
      | commit p => simp [seen, ih h]
      | abort p => simp [seen, ih h]

/-- A decided transaction has a marker after each of its records. -/
theorem ne_nil_of_decision {p : Nat} {es : List (Entry ρ)} (h : decision p es ≠ none) : es ≠ [] := by
  rintro rfl
  exact h rfl

theorem getLast?_seen {es : List (Entry ρ)} (htxn : Transactional es) (hdecided : AllDecided es) (r : ρ) :
    (seen es).getLast? ≠ some (some r) := by
  induction es with
  | nil => simp [seen]
  | cons e es ih =>
      have htxn' : Transactional es := fun e he => htxn e (List.mem_cons_of_mem _ he)
      cases e with
      | plain r' => exact absurd rfl (htxn _ List.mem_cons_self r')
      | commit p =>
          rw [seen, List.getLast?_cons]
          cases hlast : (seen es).getLast? with
          | none => simp
          | some x => simpa [hlast] using ih htxn' hdecided
      | abort p =>
          rw [seen, List.getLast?_cons]
          cases hlast : (seen es).getLast? with
          | none => simp
          | some x => simpa [hlast] using ih htxn' hdecided
      | inTxn p r' =>
          obtain ⟨hd, hrest⟩ := hdecided
          -- its marker is still to come, so the record is not the last entry
          have hne : seen es ≠ [] := by
            intro h
            have hlength := length_seen hrest
            rw [h] at hlength
            exact ne_nil_of_decision hd (List.length_eq_zero_iff.mp hlength.symm)
          have hlast := ih htxn' hrest
          cases hp : decision p es with
          | none => exact absurd hp hd
          | some committed =>
              cases committed <;> simp only [seen, hp] <;> rwa [List.getLast?_cons_of_ne_nil hne]

/-- **Where every record is in a transaction and every transaction is decided, the last stable offset holds a marker or
    an aborted record.** -/
theorem recordAt_last {log : TxnLog ρ} (htxn : Transactional log.entries) (hdecided : AllDecided log.entries) {o : Nat}
    (ho : o + 1 = log.stable) : log.recordAt o = none := by
  cases hr : log.recordAt o with
  | none => rfl
  | some r =>
      obtain ⟨hstart, hget⟩ := TxnLog.recordAt_eq_some.mp hr
      have hlast : o - log.start = (seen log.entries).length - 1 := by
        unfold TxnLog.stable at ho
        omega
      rw [hlast, ← List.getLast?_eq_getElem?] at hget
      exact absurd hget (getLast?_seen htxn hdecided r)

/-! ## One producer that commits -/

/-- Transactions of one producer, each committed. -/
def committed (producer : Nat) (batches : List (List ρ)) : List (Entry ρ) :=
  batches.flatMap (fun batch => batch.map (.inTxn producer) ++ [.commit producer])

theorem decision_batch (producer : Nat) (batch : List ρ) (es : List (Entry ρ)) :
    decision producer (batch.map (.inTxn producer) ++ .commit producer :: es) = some true := by
  induction batch with
  | nil => simp [decision]
  | cons r batch ih => simpa [decision] using ih

theorem seen_batch (producer : Nat) (batch : List ρ) (es : List (Entry ρ)) :
    seen (batch.map (.inTxn producer) ++ .commit producer :: es) = batch.map some ++ none :: seen es := by
  induction batch with
  | nil => rfl
  | cons r batch ih =>
      rw [List.map_cons, List.cons_append, seen, decision_batch]
      simp only [ih, List.map_cons, List.cons_append]

theorem seen_committed (producer : Nat) (batches : List (List ρ)) :
    seen (committed producer batches) = batches.flatMap (fun batch => batch.map some ++ [none]) := by
  induction batches with
  | nil => rfl
  | cons batch batches ih =>
      rw [committed, List.flatMap_cons, List.append_assoc, List.singleton_append, seen_batch]
      change _ ++ none :: seen (committed producer batches) = _
      rw [ih, List.flatMap_cons, List.append_assoc, List.singleton_append]

theorem transactional_committed (producer : Nat) (batches : List (List ρ)) :
    Transactional (committed producer batches) := by
  intro e he r
  obtain ⟨batch, _, hmem⟩ := List.mem_flatMap.mp he
  rcases List.mem_append.mp hmem with hrecord | hmarker
  · obtain ⟨r', _, rfl⟩ := List.mem_map.mp hrecord
    simp
  · obtain rfl := List.mem_singleton.mp hmarker
    simp

theorem allDecided_batch (producer : Nat) (batch : List ρ) {es : List (Entry ρ)} (h : AllDecided es) :
    AllDecided (batch.map (.inTxn producer) ++ .commit producer :: es) := by
  induction batch with
  | nil => exact h
  | cons r batch ih =>
      have hdecision := decision_batch producer batch es
      exact ⟨fun hopen => absurd (hdecision.symm.trans hopen) (by simp), ih⟩

theorem allDecided_committed (producer : Nat) (batches : List (List ρ)) : AllDecided (committed producer batches) := by
  induction batches with
  | nil => trivial
  | cons batch batches ih =>
      rw [committed, List.flatMap_cons, List.append_assoc, List.singleton_append]
      exact allDecided_batch producer batch ih

/-- **No two markers come in a row** where every transaction has a record. -/
theorem isChain_seen_committed (producer : Nat) {batches : List (List ρ)} (h : [] ∉ batches) :
    (seen (committed producer batches)).IsChain (fun a b => a = none → b ≠ none) := by
  rw [seen_committed]
  induction batches with
  | nil => exact .nil
  | cons batch batches ih =>
      rw [List.mem_cons, not_or] at h
      have hrecords : (batch.map some).IsChain (fun a b : Option ρ => a = none → b ≠ none) :=
        (List.isChain_map some).mpr (List.pairwise_of_forall (by simp)).isChain
      have hbatch : (batch.map some ++ [(none : Option ρ)]).IsChain (fun a b => a = none → b ≠ none) := by
        refine List.isChain_append.mpr ⟨hrecords, .singleton _, fun a ha b _ hnone => ?_⟩
        obtain ⟨r, _, rfl⟩ := List.mem_map.mp (List.mem_of_getLast? ha)
        exact absurd hnone (by simp)
      rw [List.flatMap_cons, List.isChain_append]
      refine ⟨hbatch, ih h.2, fun a _ b hb _ => ?_⟩
      -- the next transaction begins with a record
      cases batches with
      | nil => exact absurd hb (by simp)
      | cons next batches =>
          cases next with
          | nil => exact absurd List.mem_cons_self h.2
          | cons r next =>
              obtain rfl : some r = b := by simpa using hb
              simp

end Lib
