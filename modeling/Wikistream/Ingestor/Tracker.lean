import Mathlib.Data.Finset.Basic
import Wikistream.Lib.Prefix

/-!
# `Ingestor.Tracker` — stream ids in produce order

`DeliveryTracker` keeps the messages the producer accepted in the order they were sent and releases the
longest confirmed prefix, whatever order the confirmations come in.

## Contents
- **`register`, `confirm`.** The loop of `confirm` is `release`.
- **What a release takes** (`release_spec`): a prefix of the pending messages, all of them confirmed, and
  the newest stream id among them (`lastId`); with distinct sequence numbers the longest such prefix
  (`release_eq`).
-/

namespace Wikistream
namespace Ingestor

variable {ι : Type}

/-- `pending` pairs sequence numbers with stream ids, oldest first; an absent or empty id is `none`. -/
structure DeliveryTracker (ι : Type) where
  pending : List (Nat × Option ι) := []
  confirmed : Finset Nat := ∅

def DeliveryTracker.register (t : DeliveryTracker ι) (seq : Nat) (streamId : Option ι) :
    DeliveryTracker ι := { t with pending := t.pending ++ [(seq, streamId)] }

/-- What the `while` loop of `confirm` leaves and returns. -/
structure Released (ι : Type) where
  tracker : DeliveryTracker ι
  released : Option ι
  count : Nat

/-- The `while` loop of `confirm`. -/
def release (confirmed : Finset Nat) (released : Option ι) (count : Nat) :
    List (Nat × Option ι) → Released ι
  | [] => ⟨⟨[], confirmed⟩, released, count⟩
  | (seq, streamId) :: pending =>
      if seq ∈ confirmed then
        release (confirmed.erase seq) (streamId.or released) (count + 1) pending
      else ⟨⟨(seq, streamId) :: pending, confirmed⟩, released, count⟩

/-- Mark one message delivered; the newest id now safe to save and how many messages that covered. -/
def DeliveryTracker.confirm (t : DeliveryTracker ι) (seq : Nat) : Released ι :=
  release (insert seq t.confirmed) none 0 t.pending

def DeliveryTracker.inFlight (t : DeliveryTracker ι) : Nat := t.pending.length

/-- The stream id the last of `es` with an id carries. -/
def lastId (es : List (Nat × Option ι)) : Option ι := es.foldl (fun r e => e.2.or r) none

theorem foldl_or (es : List (Nat × Option ι)) (r : Option ι) :
    es.foldl (fun r e => e.2.or r) r = (lastId es).or r := by
  induction es generalizing r with
  | nil => rfl
  | cons e es ih =>
      rw [List.foldl_cons, ih]
      show _ = (List.foldl _ (e.2.or none) es).or r
      rw [ih (e.2.or none), Option.or_none, Option.or_assoc]

theorem lastId_cons (e : Nat × Option ι) (es : List (Nat × Option ι)) :
    lastId (e :: es) = (lastId es).or e.2 := by
  show List.foldl _ (e.2.or none) es = _
  rw [foldl_or, Option.or_none]

/-- **What a release takes.** A prefix of the pending messages whose sequence numbers are confirmed; it
    ends at the first that is not. -/
theorem release_spec (confirmed : Finset Nat) (released : Option ι) (count : Nat)
    (pending : List (Nat × Option ι)) :
    ∃ taken, pending = taken ++ (release confirmed released count pending).tracker.pending ∧
      (∀ e ∈ taken, e.1 ∈ confirmed) ∧
      (release confirmed released count pending).released = (lastId taken).or released ∧
      (release confirmed released count pending).count = count + taken.length ∧
      (release confirmed released count pending).tracker.confirmed ⊆ confirmed := by
  induction pending generalizing confirmed released count with
  | nil => exact ⟨[], rfl, by simp, rfl, rfl, Finset.Subset.refl _⟩
  | cons e pending ih =>
      obtain ⟨seq, streamId⟩ := e
      unfold release
      by_cases hseq : seq ∈ confirmed
      · rw [if_pos hseq]
        obtain ⟨taken, hsplit, hmem, hid, hcount, hsub⟩ :=
          ih (confirmed.erase seq) (streamId.or released) (count + 1)
        refine ⟨(seq, streamId) :: taken, ?_, ?_, ?_, ?_, ?_⟩
        · rw [List.cons_append, ← hsplit]
        · intro e he
          rcases List.mem_cons.mp he with rfl | he'
          · exact hseq
          · exact Finset.mem_of_mem_erase (hmem e he')
        · rw [hid, lastId_cons, Option.or_assoc]
        · rw [hcount, List.length_cons]
          omega
        · exact hsub.trans (Finset.erase_subset _ _)
      · rw [if_neg hseq]
        exact ⟨[], rfl, by simp, rfl, rfl, Finset.Subset.refl _⟩

/-- The message's number is among the confirmed ones. -/
def isConfirmed (confirmed : Finset Nat) (e : Nat × Option ι) : Bool := e.1 ∈ confirmed

/-- With distinct sequence numbers a release takes the longest prefix that is confirmed. -/
theorem release_eq {pending : List (Nat × Option ι)} (hnodup : (pending.map Prod.fst).Nodup) (confirmed : Finset Nat)
    (released : Option ι) (count : Nat) :
    (release confirmed released count pending).tracker.pending = pending.dropWhile (isConfirmed confirmed) ∧
    (∀ n, n ∈ (release confirmed released count pending).tracker.confirmed ↔
      n ∈ confirmed ∧ n ∉ (pending.takeWhile (isConfirmed confirmed)).map Prod.fst) ∧
    (release confirmed released count pending).released =
      (lastId (pending.takeWhile (isConfirmed confirmed))).or released ∧
    (release confirmed released count pending).count =
      count + (pending.takeWhile (isConfirmed confirmed)).length := by
  induction pending generalizing confirmed released count with
  | nil => exact ⟨rfl, fun n => by simp [release], rfl, rfl⟩
  | cons e pending ih =>
      obtain ⟨seq, streamId⟩ := e
      rw [List.map_cons, List.nodup_cons] at hnodup
      unfold release
      by_cases hseq : seq ∈ confirmed
      · have hpos : isConfirmed confirmed (seq, streamId) = true := decide_eq_true hseq
        rw [if_pos hseq, List.dropWhile_cons_of_pos hpos, List.takeWhile_cons_of_pos hpos]
        -- the numbers behind are others
        have hsame : ∀ e ∈ pending, isConfirmed (confirmed.erase seq) e = isConfirmed confirmed e := by
          intro e he
          have hne : e.1 ≠ seq := fun heq => hnodup.1 (List.mem_map.mpr ⟨e, he, heq⟩)
          simp [isConfirmed, hne]
        obtain ⟨hpending, hconfirmed, hid, hcount⟩ :=
          ih hnodup.2 (confirmed.erase seq) (streamId.or released) (count + 1)
        rw [Lib.Prefix.dropWhile_congr hsame] at hpending
        simp only [Lib.Prefix.takeWhile_congr hsame] at hconfirmed hid hcount
        refine ⟨hpending, ?_, ?_, ?_⟩
        · intro n
          rw [hconfirmed, Finset.mem_erase, List.map_cons, List.mem_cons, not_or]
          tauto
        · rw [hid, lastId_cons, Option.or_assoc]
        · rw [hcount, List.length_cons]
          omega
      · have hneg : ¬ isConfirmed confirmed (seq, streamId) = true := by simpa [isConfirmed] using hseq
        rw [if_neg hseq, List.dropWhile_cons_of_neg hneg, List.takeWhile_cons_of_neg hneg]
        exact ⟨rfl, fun n => by simp, rfl, rfl⟩

/-- The newest id of a list is the id of one of its entries. -/
theorem lastId_eq_some {es : List (Nat × Option ι)} {x : ι} (h : lastId es = some x) :
    ∃ before seq after, es = before ++ (seq, some x) :: after := by
  induction es with
  | nil => exact absurd h (by simp [lastId])
  | cons e es ih =>
      rw [lastId_cons] at h
      cases hes : lastId es with
      | some y =>
          rw [hes, Option.some_or] at h
          obtain ⟨before, seq, after, rfl⟩ := ih (hes.trans h)
          exact ⟨e :: before, seq, after, rfl⟩
      | none =>
          rw [hes, Option.none_or] at h
          exact ⟨[], e.1, es, by rw [← h]; rfl⟩

end Ingestor
end Wikistream
