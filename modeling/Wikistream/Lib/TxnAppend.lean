import Wikistream.Lib.Log
import Wikistream.Lib.TxnLog

/-!
# `Lib.TxnAppend` — a log with transactions while it is written

Producers append to a partition, and a reader goes up to its last stable offset. What a reader has seen never
changes: an append only ever adds to it.

## Contents
- **Records of committed transactions** (`settledAt`), whether or not a reader has come to them (`seen_eq_settledAt`).
- **Records of an open transaction** (`opened`): what an append does to both, with `settled_commit` for the marker that
  turns the ones into the others.
- **Growing logs.** `Grows`, and a topic as its readers see it (`view`), which grows with every append (`view_grows`).
-/

namespace Lib

variable {ρ : Type}

/-! ## Committed records -/

/-- The record an entry delivers, given what comes after it. -/
def delivered : Entry ρ → List (Entry ρ) → Option ρ
  | .plain r, _ => some r
  | .inTxn p r, es => if decision p es = some true then some r else none
  | .commit _, _ | .abort _, _ => none

/-- The record at offset `o`, if its transaction is committed. -/
def settledAt : List (Entry ρ) → Nat → Option ρ
  | [], _ => none
  | e :: es, 0 => delivered e es
  | _ :: es, o + 1 => settledAt es o

/-- The records of a producer's open transaction. -/
def opened (i : Nat) : List (Entry ρ) → List ρ
  | [] => []
  | .inTxn p r :: es => if p = i ∧ decision i es = none then r :: opened i es else opened i es
  | .plain _ :: es | .commit _ :: es | .abort _ :: es => opened i es

variable {es es' : List (Entry ρ)} {i p o : Nat} {r : ρ}

/-- A marker that has come stays the first. -/
theorem decision_append {b : Bool} (h : decision p es = some b) (es' : List (Entry ρ)) :
    decision p (es ++ es') = some b := by
  induction es with
  | nil => exact absurd h (by simp [decision])
  | cons e es ih =>
      cases e with
      | plain r => exact ih h
      | inTxn q r => exact ih h
      | commit q =>
          rw [decision] at h
          rw [List.cons_append, decision]
          split at h
          · next hq => rw [if_pos hq, h]
          · next hq => rw [if_neg hq, ih h]
      | abort q =>
          rw [decision] at h
          rw [List.cons_append, decision]
          split at h
          · next hq => rw [if_pos hq, h]
          · next hq => rw [if_neg hq, ih h]

/-- Without a marker so far, what comes decides. -/
theorem decision_append_of_none (h : decision p es = none) (es' : List (Entry ρ)) :
    decision p (es ++ es') = decision p es' := by
  induction es with
  | nil => rfl
  | cons e es ih =>
      cases e with
      | plain r => exact ih h
      | inTxn q r => exact ih h
      | commit q =>
          rw [decision] at h
          split at h
          · exact absurd h (by simp)
          · next hq => rw [List.cons_append, decision, if_neg hq, ih h]
      | abort q =>
          rw [decision] at h
          split at h
          · exact absurd h (by simp)
          · next hq => rw [List.cons_append, decision, if_neg hq, ih h]

/-- **A reader gets exactly the committed records**, as far as it can read. -/
theorem seen_eq_settledAt (h : o < (seen es).length) : (seen es)[o]? = some (settledAt es o) := by
  induction es generalizing o with
  | nil => exact absurd h (Nat.not_lt_zero o)
  | cons e es ih =>
      cases e with
      | plain x =>
          cases o with
          | zero => rfl
          | succ o => exact ih (Nat.lt_of_succ_lt_succ h)
      | commit q =>
          cases o with
          | zero => rfl
          | succ o => exact ih (Nat.lt_of_succ_lt_succ h)
      | abort q =>
          cases o with
          | zero => rfl
          | succ o => exact ih (Nat.lt_of_succ_lt_succ h)
      | inTxn q x =>
          cases hq : decision q es with
          | none => simp [seen, hq] at h
          | some b =>
              cases b <;> simp only [seen, hq] at h ⊢ <;> cases o with
              | zero => simp [settledAt, delivered, hq]
              | succ o => simpa [settledAt] using ih (Nat.lt_of_succ_lt_succ h)

/-- What a reader has seen stays, whatever is appended. -/
theorem seen_prefix (es es' : List (Entry ρ)) : seen es <+: seen (es ++ es') := by
  induction es with
  | nil => exact List.nil_prefix
  | cons e es ih =>
      cases e with
      | plain x => exact List.cons_prefix_cons.mpr ⟨rfl, ih⟩
      | commit q => exact List.cons_prefix_cons.mpr ⟨rfl, ih⟩
      | abort q => exact List.cons_prefix_cons.mpr ⟨rfl, ih⟩
      | inTxn q x =>
          rw [List.cons_append, seen, seen]
          cases hq : decision q es with
          | none => exact List.nil_prefix
          | some b =>
              rw [decision_append hq es']
              cases b <;> exact List.cons_prefix_cons.mpr ⟨rfl, ih⟩

/-! ## One more entry -/

/-- Only a commit marker commits anything. -/
theorem settledAt_snoc_inTxn (es : List (Entry ρ)) (q : Nat) (x : ρ) (o : Nat) :
    settledAt (es ++ [.inTxn q x]) o = settledAt es o := by
  induction es generalizing o with
  | nil => cases o <;> rfl
  | cons e es ih =>
      cases o with
      | succ o => exact ih o
      | zero =>
          have hsame : ∀ p, decision p (es ++ [.inTxn q x]) = decision p es := by
            intro p
            cases hp : decision p es with
            | none => rw [decision_append_of_none hp]; rfl
            | some b => exact decision_append hp _
          cases e <;> simp [settledAt, delivered, hsame]

theorem settledAt_snoc_abort (es : List (Entry ρ)) (q o : Nat) :
    settledAt (es ++ [.abort q]) o = settledAt es o := by
  induction es generalizing o with
  | nil => cases o <;> rfl
  | cons e es ih =>
      cases o with
      | succ o => exact ih o
      | zero =>
          have hsame : ∀ p, decision p (es ++ [.abort q]) = some true ↔ decision p es = some true := by
            intro p
            cases hp : decision p es with
            | none =>
                rw [decision_append_of_none hp, decision]
                split <;> simp [decision]
            | some b => rw [decision_append hp]
          cases e <;> simp [settledAt, delivered, hsame]

/-- **A commit marker settles the open transaction of its producer**, and nothing else. -/
theorem settled_commit (es : List (Entry ρ)) (i : Nat) (r : ρ) :
    (∃ o, settledAt (es ++ [.commit i]) o = some r) ↔ (∃ o, settledAt es o = some r) ∨ r ∈ opened i es := by
  have hmarker : ∀ p es, decision p (es ++ [.commit i]) = some true ↔
      decision p es = some true ∨ p = i ∧ decision i (es : List (Entry ρ)) = none := by
    intro p es
    cases hp : decision p es with
    | none =>
        rw [decision_append_of_none hp, decision]
        by_cases hpi : i = p
        · subst hpi
          simp [hp]
        · simp [decision, hpi, Ne.symm hpi]
    | some b =>
        rw [decision_append hp]
        refine (or_iff_left ?_).symm
        rintro ⟨rfl, hnone⟩
        exact absurd (hp.symm.trans hnone) (by simp)
  have hfirst : ∀ (e : Entry ρ) es, (∃ o, settledAt (e :: es) o = some r) ↔
      delivered e es = some r ∨ ∃ o, settledAt es o = some r := by
    intro e es
    constructor
    · rintro ⟨o, h⟩
      cases o with
      | zero => exact Or.inl h
      | succ o => exact Or.inr ⟨o, h⟩
    · rintro (h | ⟨o, h⟩)
      · exact ⟨0, h⟩
      · exact ⟨o + 1, h⟩
  induction es with
  | nil =>
      rw [List.nil_append, hfirst]
      simp [delivered, settledAt, opened]
  | cons e es ih =>
      rw [List.cons_append, hfirst, hfirst]
      simp only [ih]
      cases e with
      | plain x => simp [delivered, opened, or_assoc]
      | commit q => simp [delivered, opened]
      | abort q => simp [delivered, opened]
      | inTxn q x =>
          -- the record is settled now if its transaction is committed already, or is the one that is committed here
          simp only [delivered, hmarker, opened]
          by_cases hopen : q = i ∧ decision i es = none
          · rw [if_pos (Or.inr hopen), if_pos hopen, List.mem_cons, Option.some.injEq]
            have hnot : decision q es ≠ some true := by
              rw [hopen.1, hopen.2]
              simp
            rw [if_neg hnot]
            tauto
          · rw [if_neg hopen]
            simp only [hopen, or_false]
            tauto

theorem opened_snoc_inTxn (es : List (Entry ρ)) (i q : Nat) (x : ρ) :
    opened i (es ++ [.inTxn q x]) = opened i es ++ (if q = i then [x] else []) := by
  induction es with
  | nil =>
      rw [List.nil_append, opened]
      by_cases hq : q = i <;> simp [hq, decision, opened]
  | cons e es ih =>
      have hsame : decision i (es ++ [.inTxn q x]) = decision i es := by
        cases hi : decision i es with
        | none => rw [decision_append_of_none hi]; rfl
        | some b => exact decision_append hi _
      cases e with
      | plain y => exact ih
      | commit y => exact ih
      | abort y => exact ih
      | inTxn p y =>
          rw [List.cons_append, opened, opened, hsame]
          split
          · rw [ih, List.cons_append]
          · exact ih

/-- A marker ends the transaction of its producer. -/
theorem opened_snoc_marker (es : List (Entry ρ)) (i q : Nat) {e : Entry ρ} (he : e = .commit q ∨ e = .abort q) :
    opened i (es ++ [e]) = if q = i then [] else opened i es := by
  have hmarker : decision i [e] = none ↔ q ≠ i := by
    rcases he with rfl | rfl <;> by_cases hq : q = i <;> simp [decision, hq]
  induction es with
  | nil => rcases he with rfl | rfl <;> simp [opened]
  | cons x es ih =>
      cases x with
      | plain y => exact ih
      | commit y => exact ih
      | abort y => exact ih
      | inTxn p y =>
          rw [List.cons_append, opened, opened, ih]
          cases hi : decision i es with
          | none =>
              simp only [decision_append_of_none hi, hmarker]
              by_cases hq : q = i <;> simp [hq]
          | some b => simp [decision_append hi]

/-! ## Growing logs -/

/-- `log'` is `log` with more at the end of its partitions. -/
def Grows (log log' : Log ρ) : Prop :=
  ∀ p, ∃ n, (∀ o < n, log' p o = log p o) ∧ ∀ o, n ≤ o → log p o = none

/-- A topic as its readers see it. -/
def view (topic : Nat → List (Entry ρ)) : Log ρ := fun p o => ((seen (topic p))[o]?).join

theorem view_eq_some {topic : Nat → List (Entry ρ)} :
    view topic p o = some r ↔ (seen (topic p))[o]? = some (some r) := Option.join_eq_some_iff

/-- What a reader gets is committed. -/
theorem settledAt_of_view {topic : Nat → List (Entry ρ)} (h : view topic p o = some r) :
    settledAt (topic p) o = some r := by
  have hget := view_eq_some.mp h
  have hlt := (List.getElem?_eq_some_iff.mp hget).1
  exact Option.some.inj ((seen_eq_settledAt hlt).symm.trans hget)

/-- What is committed is read, once the reader comes to it. -/
theorem view_of_settledAt {topic : Nat → List (Entry ρ)} (h : settledAt (topic p) o = some r)
    (ho : o < (seen (topic p)).length) : view topic p o = some r := by
  rw [view_eq_some, seen_eq_settledAt ho, h]

theorem view_eq_none {topic : Nat → List (Entry ρ)} (ho : (seen (topic p)).length ≤ o) : view topic p o = none := by
  rw [view, List.getElem?_eq_none ho]
  rfl

/-- **Appending to a topic makes its view grow.** -/
theorem view_grows {topic topic' : Nat → List (Entry ρ)} (h : ∀ p, topic p <+: topic' p) :
    Grows (view topic) (view topic') := by
  intro p
  refine ⟨(seen (topic p)).length, fun o ho => ?_, fun o ho => view_eq_none ho⟩
  obtain ⟨more, hmore⟩ := h p
  obtain ⟨rest, hrest⟩ := seen_prefix (topic p) more
  rw [view, view, ← hmore, ← hrest, List.getElem?_append_left ho]

/-- A record that is there stays. -/
theorem Grows.eq_some {log log' : Log ρ} (h : Grows log log') (hr : log p o = some r) : log' p o = some r := by
  obtain ⟨n, hlow, hhigh⟩ := h p
  rcases Nat.lt_or_ge o n with ho | ho
  · rw [hlow o ho, hr]
  · exact absurd (hr.symm.trans (hhigh o ho)) (by simp)

/-- Nothing appears before a record that is there. -/
theorem Grows.nextVisible {log log' : Log ρ} (h : Grows log log') (hr : log p o = some r) {start : Nat}
    (hnext : NextVisible log p start o) : NextVisible log' p start o := by
  obtain ⟨n, hlow, hhigh⟩ := h p
  refine ⟨hnext.1, fun x hx hstart => ?_⟩
  have hon : o < n := by
    by_contra hn
    exact absurd (hr.symm.trans (hhigh o (Nat.not_lt.mp hn))) (by simp)
  rw [hlow x (by omega)]
  exact hnext.2 x hx hstart

end Lib
