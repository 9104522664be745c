import Mathlib.Data.List.Nodup
import Mathlib.Tactic.Common

/-!
# `Lib.Log` — partitioned logs and the consumers that read them

A log gives every partition and offset a record or nothing: a control marker, an aborted record and an
offset not written yet all read as nothing. A consumer of a partition holds a `Cursor`, and a poll hands
it the first visible record at or after the cursor.

## Contents
- **Logs and messages.** `Log`, `Message`, `Delivers` (a message is its log's record).
- **Reading in order.** `NextVisible`, the condition for a poll to return the record at an offset.
- **The visible records of a range** (`visible`), from its front (`visible_succ`), in parts (`visible_append`) and from
  its end (`visible_snoc`);
  a list that is strictly increasing with the right members is that range (`eq_visible`).
-/

namespace Lib

/-- The record at each partition and offset, if a reader can see one. -/
abbrev Log (ρ : Type) := Nat → Nat → Option ρ

/-- A record as it is handed to the consumer. -/
structure Message (ρ : Type) where
  partition : Nat
  offset : Nat
  record : ρ
  deriving DecidableEq

/-- Where a consumer stands in a partition it is assigned. -/
structure Cursor where
  /-- The next poll looks from this offset on. -/
  fetch : Nat
  /-- One past the last record handed out since the assignment, if there is one. -/
  position : Option Nat
  deriving DecidableEq

variable {ρ : Type}

/-- The message is what the log holds at its place. -/
def Delivers (log : Log ρ) (m : Message ρ) : Prop := log m.partition m.offset = some m.record

/-- The record at `o` is the first one visible from `from` on. -/
def NextVisible (log : Log ρ) (p start o : Nat) : Prop :=
  start ≤ o ∧ ∀ x < o, start ≤ x → (log p x).isNone = true

instance (log : Log ρ) (p start o : Nat) : Decidable (NextVisible log p start o) :=
  inferInstanceAs (Decidable (_ ∧ _))

/-- The messages of partition `p` with offsets in `[a, b)`, in order. -/
def visible (log : Log ρ) (p a b : Nat) : List (Message ρ) :=
  (List.range' a (b - a)).filterMap (fun o => (log p o).map (Message.mk p o))

theorem mem_visible {log : Log ρ} {p a b : Nat} {m : Message ρ} :
    m ∈ visible log p a b ↔ m.partition = p ∧ a ≤ m.offset ∧ m.offset < b ∧ Delivers log m := by
  unfold visible Delivers
  simp only [List.mem_filterMap, List.mem_range'_1, Option.map_eq_some_iff]
  constructor
  · rintro ⟨o, ho, r, hr, rfl⟩
    refine ⟨rfl, ho.1, ?_, hr⟩
    show o < b
    omega
  · rintro ⟨rfl, ha, hb, hr⟩
    exact ⟨m.offset, ⟨ha, by omega⟩, m.record, hr, rfl⟩

theorem sorted_visible (log : Log ρ) (p a b : Nat) :
    (visible log p a b).Pairwise (fun x y => x.offset < y.offset) := by
  unfold visible
  refine (List.pairwise_lt_range').filterMap _ ?_
  intro o o' hlt m hm m' hm'
  obtain ⟨r, _, rfl⟩ := Option.map_eq_some_iff.mp hm
  obtain ⟨r', _, rfl⟩ := Option.map_eq_some_iff.mp hm'
  exact hlt

theorem visible_of_le {log : Log ρ} {p a b : Nat} (h : b ≤ a) : visible log p a b = [] := by
  unfold visible
  rw [Nat.sub_eq_zero_of_le h]
  rfl

/-- A range read from its first offset. -/
theorem visible_succ (log : Log ρ) (p : Nat) {a b : Nat} (h : a < b) :
    visible log p a b = ((log p a).map (Message.mk p a)).toList ++ visible log p (a + 1) b := by
  unfold visible
  rw [show b - a = (b - (a + 1)) + 1 by omega, List.range'_succ, List.filterMap_cons]
  cases log p a <;> rfl

/-- A range in two parts. -/
theorem visible_append (log : Log ρ) (p : Nat) {a b c : Nat} (hab : a ≤ b) (hbc : b ≤ c) :
    visible log p a c = visible log p a b ++ visible log p b c := by
  unfold visible
  rw [← List.filterMap_append, show c - a = (b - a) + (c - b) by omega, ← List.range'_append_1,
    show a + (b - a) = b by omega]

/-- A range with one more offset. -/
theorem visible_snoc (log : Log ρ) (p : Nat) {a b : Nat} (h : a ≤ b) :
    visible log p a (b + 1) = visible log p a b ++ ((log p b).map (Message.mk p b)).toList := by
  rw [visible_append log p h (Nat.le_succ b), visible_succ log p (Nat.lt_succ_self b), visible_of_le (Nat.le_refl _),
    List.append_nil]

/-- A strictly increasing list is determined by its members. -/
theorem eq_of_sorted {xs ys : List (Message ρ)} (hx : xs.Pairwise (fun x y => x.offset < y.offset))
    (hy : ys.Pairwise (fun x y => x.offset < y.offset)) (h : ∀ m, m ∈ xs ↔ m ∈ ys) : xs = ys := by
  induction xs generalizing ys with
  | nil =>
      cases ys with
      | nil => rfl
      | cons y ys => exact absurd ((h y).mpr List.mem_cons_self) (by simp)
  | cons x xs ih =>
      cases ys with
      | nil => exact absurd ((h x).mp List.mem_cons_self) (by simp)
      | cons y ys =>
          rw [List.pairwise_cons] at hx hy
          -- the heads are the least elements of the same set
          have hxy : x = y := by
            rcases List.mem_cons.mp ((h x).mp List.mem_cons_self) with rfl | hxys
            · rfl
            rcases List.mem_cons.mp ((h y).mpr List.mem_cons_self) with rfl | hyxs
            · rfl
            have h1 := hy.1 x hxys
            have h2 := hx.1 y hyxs
            omega
          subst hxy
          refine congrArg _ (ih hx.2 hy.2 (fun m => ?_))
          have hm := h m
          simp only [List.mem_cons] at hm
          constructor
          · intro hmem
            rcases hm.mp (Or.inr hmem) with rfl | hys
            · exact absurd (hx.1 _ hmem) (Nat.lt_irrefl _)
            · exact hys
          · intro hmem
            rcases hm.mpr (Or.inr hmem) with rfl | hxs
            · exact absurd (hy.1 _ hmem) (Nat.lt_irrefl _)
            · exact hxs

/-- A strictly increasing list that holds exactly the visible messages of a range is that range. -/
theorem eq_visible {log : Log ρ} {p a b : Nat} {ms : List (Message ρ)}
    (hs : ms.Pairwise (fun x y => x.offset < y.offset))
    (h : ∀ m, m ∈ ms ↔ m.partition = p ∧ a ≤ m.offset ∧ m.offset < b ∧ Delivers log m) :
    ms = visible log p a b :=
  eq_of_sorted hs (sorted_visible log p a b) (fun m => (h m).trans mem_visible.symm)

end Lib
