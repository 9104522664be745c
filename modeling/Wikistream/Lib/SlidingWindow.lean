import Mathlib.Data.List.Basic
import Mathlib.Data.List.Induction
import Mathlib.Data.List.Pairwise
import Mathlib.Data.List.TakeWhile
import Mathlib.Order.Basic
import Mathlib.Data.Int.Order.Basic
import Mathlib.Tactic.Common

/-!
# `Lib.SlidingWindow` — a queue that is emptied by age from its front

Items enter a queue at the back in arrival order. `evict` removes items from the front for as long as they
are older than a cutoff, so an old item behind a newer one stays.

## Contents
- **What stays** (`evict_append_of_old`).
- **Arrivals in time order** (`evict_eq_filter`): then nothing hides behind a newer item, and evicting is
  filtering.
- **Evicting again** (`evict_filter_append`): a queue that is the window of its whole history stays so.
- **Arrivals in any order** (`queue_split`): what the queue is without its items being sorted. Its items span
  at most a window exactly if the old ones arrived before the others (`spread_iff`).
-/

namespace Lib.SlidingWindow

variable {α : Type} (time : α → Int)

/-- Drop items from the front while they are older than `cutoff`. -/
def evict (cutoff : Int) (items : List α) : List α := items.dropWhile (fun x => time x < cutoff)

/-- The items arrived in time order. -/
abbrev InOrder (items : List α) : Prop := items.Pairwise (fun x y => time x ≤ time y)

variable {time} {cutoff : Int} {items : List α}

/-- Older items at the front do not matter. -/
theorem evict_append_of_old (h : ∀ x ∈ items, time x < cutoff) (more : List α) :
    evict time cutoff (items ++ more) = evict time cutoff more := by
  apply List.dropWhile_append_of_pos
  intro x hx
  exact decide_eq_true (h x hx)

/-- **On arrivals in time order evicting is filtering.** -/
theorem evict_eq_filter (h : InOrder time items) :
    evict time cutoff items = items.filter (fun x => cutoff ≤ time x) := by
  induction items with
  | nil => rfl
  | cons x items ih =>
      obtain ⟨hx, hitems⟩ := List.pairwise_cons.mp h
      by_cases hold : time x < cutoff
      · show List.dropWhile _ _ = _
        rw [List.dropWhile_cons_of_pos (by simpa using hold), List.filter_cons_of_neg (by simpa using hold)]
        exact ih hitems
      · -- the front item stays, and every later one is at least as new
        have hall : ∀ y ∈ x :: items, decide (cutoff ≤ time y) = true := by
          intro y hy
          rcases List.mem_cons.mp hy with rfl | hy
          · exact decide_eq_true (Int.not_lt.mp hold)
          · exact decide_eq_true ((Int.not_lt.mp hold).trans (hx y hy))
        show List.dropWhile _ _ = _
        rw [List.dropWhile_cons_of_neg (by simpa using hold), List.filter_eq_self.mpr hall]

/-- The last of the items in time order is the newest. -/
theorem InOrder.le_last {x : α} (h : InOrder time (items ++ [x])) : ∀ y ∈ items ++ [x], time y ≤ time x := by
  intro y hy
  rcases List.mem_append.mp hy with hy | hy
  · exact (List.pairwise_append.mp h).2.2 y hy x (List.mem_singleton_self x)
  · exact le_of_eq (congrArg time (List.mem_singleton.mp hy))

/-- A window of the history, one arrival later. -/
theorem evict_filter_append {cutoff' : Int} {x : α} (h : InOrder time (items ++ [x])) (hle : cutoff ≤ cutoff') :
    evict time cutoff' (items.filter (fun y => cutoff ≤ time y) ++ [x]) =
      (items ++ [x]).filter (fun y => cutoff' ≤ time y) := by
  have horder : InOrder time (items.filter (fun y => cutoff ≤ time y) ++ [x]) :=
    h.sublist (List.filter_sublist.append_right [x])
  rw [evict_eq_filter horder, List.filter_append, List.filter_append, List.filter_filter]
  congr 1
  apply List.filter_congr
  intro y _
  by_cases hy : cutoff' ≤ time y
  · simp [hy, hle.trans hy]
  · simp [hy]

/-! ## Arrivals in any order -/

/-- One arrival: what is more than a window older leaves, as far as it stands in front. -/
def push (time : α → Int) (window : Int) (items : List α) (x : α) : List α :=
  evict time (time x - window) (items ++ [x])

/-- The queue after the arrivals. -/
def queue (time : α → Int) (window : Int) (arrivals : List α) : List α :=
  arrivals.foldl (push time window) []

theorem queue_snoc (time : α → Int) (window : Int) (arrivals : List α) (x : α) :
    queue time window (arrivals ++ [x]) = push time window (queue time window arrivals) x :=
  List.foldl_concat ..

/-- Some arrival is more than a window newer. -/
def OutOfDate (time : α → Int) (window : Int) (arrivals : List α) (x : α) : Prop :=
  ∃ y ∈ arrivals, time x + window < time y

/-- What is out of date arrived before everything that is not. -/
def OldFirst (time : α → Int) (window : Int) (arrivals : List α) : Prop :=
  arrivals.Pairwise (fun x y => OutOfDate time window arrivals y → OutOfDate time window arrivals x)

/-- **The queue of arrivals in any order.** It is a last part of them: what left is out of date by an item of
    the queue, and no item of the queue is more than a window newer than its front. -/
structure Split (time : α → Int) (window : Int) (gone held : List α) : Prop where
  gone_old : ∀ x ∈ gone, ∃ y ∈ held, time x + window < time y
  front_fresh : ∀ x rest, held = x :: rest → ∀ y ∈ held, time y ≤ time x + window

theorem dropWhile_split (p : α → Bool) (items : List α) :
    ∃ popped, items = popped ++ items.dropWhile p ∧ ∀ x ∈ popped, p x = true :=
  ⟨items.takeWhile p, (List.takeWhile_append_dropWhile).symm, fun _ hx => List.mem_takeWhile_imp hx⟩

theorem Split.push {window : Int} {gone held : List α} (h : Split time window gone held)
    (hw : 0 ≤ window) (x : α) :
    ∃ popped, held ++ [x] = popped ++ push time window held x ∧
      Split time window (gone ++ popped) (push time window held x) := by
  obtain ⟨popped, hsplit, hpopped⟩ := dropWhile_split (fun y => decide (time y < time x - window)) (held ++ [x])
  have hold : ∀ y ∈ popped, time y + window < time x := by
    intro y hy
    have := of_decide_eq_true (hpopped y hy)
    omega
  -- an item is never older than itself, so it stays
  have hxin : x ∈ SlidingWindow.push time window held x := by
    have hx : x ∈ popped ++ SlidingWindow.push time window held x := hsplit ▸ by simp
    rcases List.mem_append.mp hx with hx | hx
    · exact absurd (hold x hx) (by omega)
    · exact hx
  refine ⟨popped, hsplit, ?_, ?_⟩
  · -- what left earlier is older than an item that is still there, or than one that leaves now
    intro y hy
    rcases List.mem_append.mp hy with hy | hy
    · obtain ⟨z, hz, hyz⟩ := h.gone_old y hy
      have hz' : z ∈ popped ++ SlidingWindow.push time window held x :=
        hsplit ▸ List.mem_append_left _ hz
      rcases List.mem_append.mp hz' with hz' | hz'
      · have := hold z hz'
        exact ⟨x, hxin, by omega⟩
      · exact ⟨z, hz', hyz⟩
    · exact ⟨x, hxin, hold y hy⟩
  · intro a rest heq y hy
    -- the front of the queue is what `dropWhile` has stopped at
    have ha : time x ≤ time a + window := by
      have hnot := List.head?_dropWhile_not (fun y => decide (time y < time x - window)) (held ++ [x])
      rw [show List.dropWhile _ _ = a :: rest from heq] at hnot
      have : ¬ time a < time x - window := by simpa using hnot
      omega
    have hy' : y ∈ held ++ [x] := hsplit ▸ List.mem_append_right _ hy
    rcases List.mem_append.mp hy' with hy' | hy'
    · -- the old front stood at least as far back as the new one
      cases held with
      | nil => exact absurd hy' (by simp)
      | cons f others =>
          have hf := h.front_fresh f others rfl y hy'
          cases popped with
          | nil =>
              have hfa : f = a := by
                have hsame : f :: others ++ [x] = a :: rest := hsplit.trans heq
                exact (List.cons.inj hsame).1
              exact hfa ▸ hf
          | cons g popped =>
              have hfg : f = g := (List.cons.inj hsplit).1
              have := hold g List.mem_cons_self
              subst hfg
              omega
    · rw [List.mem_singleton.mp hy']
      exact ha

theorem queue_split {window : Int} (hw : 0 ≤ window) (arrivals : List α) :
    ∃ gone, arrivals = gone ++ queue time window arrivals ∧
      Split time window gone (queue time window arrivals) := by
  induction arrivals using List.reverseRecOn with
  | nil => exact ⟨[], rfl, fun x hx => absurd hx (by simp), fun x rest h => absurd h (by simp [queue])⟩
  | append_singleton arrivals x ih =>
      obtain ⟨gone, hsplit, h⟩ := ih
      obtain ⟨popped, hpush, h⟩ := h.push hw x
      rw [queue_snoc]
      refine ⟨gone ++ popped, ?_, h⟩
      rw [List.append_assoc, ← hpush, ← List.append_assoc, ← hsplit]

/-- **When the queue spans at most a window.** -/
theorem spread_iff {window : Int} (hw : 0 ≤ window) (arrivals : List α) :
    (∀ x ∈ queue time window arrivals, ∀ y ∈ queue time window arrivals, time y ≤ time x + window) ↔
      OldFirst time window arrivals := by
  obtain ⟨gone, hsplit, h⟩ := @queue_split _ time window hw arrivals
  generalize queue time window arrivals = held at hsplit h
  subst hsplit
  constructor
  · intro hspread
    have hgone : ∀ x ∈ gone, OutOfDate time window (gone ++ held) x := by
      -- what has left is out of date by its very leaving, and what is held is not
      intro x hx
      obtain ⟨y, hy, hxy⟩ := h.gone_old x hx
      exact ⟨y, List.mem_append_right _ hy, hxy⟩
    have hheld : ∀ x ∈ held, ¬ OutOfDate time window (gone ++ held) x := by
      rintro x hx ⟨y, hy, hxy⟩
      rcases List.mem_append.mp hy with hy | hy
      · obtain ⟨z, hz, hyz⟩ := h.gone_old y hy
        have := hspread x hx z hz
        omega
      · have := hspread x hx y hy
        omega
    refine List.pairwise_append.mpr ⟨?_, ?_, ?_⟩
    · exact List.pairwise_of_forall_mem_list (fun x hx y _ _ => hgone x hx)
    · exact List.pairwise_of_forall_mem_list (fun x _ y hy hold => absurd hold (hheld y hy))
    · intro x hx y _ _
      exact hgone x hx
  · intro hfirst x hx y hy
    by_contra hlt
    obtain ⟨a, rest, rfl⟩ : ∃ a rest, held = a :: rest := by
      cases held with
      | nil => exact absurd hx (by simp)
      | cons a rest => exact ⟨a, rest, rfl⟩
    have hfresh := h.front_fresh a rest rfl
    have hold : OutOfDate time window (gone ++ a :: rest) x := ⟨y, List.mem_append_right _ hy, by omega⟩
    rcases List.mem_cons.mp hx with rfl | hx
    · exact hlt (hfresh y hy)
    · -- the front would be out of date, by an item of the queue or by one that left because of one
      obtain ⟨z, hz, haz⟩ :=
        (List.pairwise_cons.mp (List.pairwise_append.mp hfirst).2.1).1 x hx hold
      rcases List.mem_append.mp hz with hz | hz
      · obtain ⟨u, hu, hzu⟩ := h.gone_old z hz
        have := hfresh u hu
        omega
      · have := hfresh z hz
        omega

end Lib.SlidingWindow
