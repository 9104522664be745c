import Mathlib.Order.Monotone.Basic
import Mathlib.Order.MinMax
import Mathlib.Data.Int.Order.Basic
import Mathlib.Tactic.Common

/-!
# `Lib.Watermark` — event-time streams with a running maximum

A stream of events carries event times in any order. Its *watermark* is the largest time seen so far,
and an event is *on time* when its bucket is not yet below the cutoff the watermark sets, the event
itself included.

## Contents
- **Watermark.** `mark W es`, the running maximum of `es` from `W`.
- **On-time events.** `onTime W es`, the sublist of `es` accepted from watermark `W`.
- **Closed buckets stay closed** (`cutoff_le_of_mem_onTime`): no event accepted from watermark `W` lies
  in a bucket below the cutoff of `W`.
- **Restarting** (`Ahead`): a suffix whose first event already carries the watermark accepts the same
  events from the initial watermark as from the one the prefix left behind.

The bucket and cutoff functions are parameters; the two facts used about them are monotonicity and that
a time is never past the cutoff it sets itself.
-/

namespace Lib.Watermark

variable {ε : Type} (time : ε → Int) (bucket cutoff : Int → Int)

/-- The running maximum of the event times of `es`, starting from `W`. -/
def mark (W : Int) (es : List ε) : Int := es.foldl (fun w e => max w (time e)) W

/-- The events of `es` that are on time when the stream starts from watermark `W`. -/
def onTime (W : Int) : List ε → List ε
  | [] => []
  | e :: es =>
      if cutoff (max W (time e)) ≤ bucket (time e)
      then e :: onTime (max W (time e)) es
      else onTime (max W (time e)) es

variable {time bucket cutoff}

@[simp] theorem mark_nil (W : Int) : mark time W [] = W := rfl

@[simp] theorem mark_cons (W : Int) (e : ε) (es : List ε) :
    mark time W (e :: es) = mark time (max W (time e)) es := rfl

theorem mark_append (W : Int) (xs ys : List ε) :
    mark time W (xs ++ ys) = mark time (mark time W xs) ys := List.foldl_append

theorem le_mark (W : Int) (es : List ε) : W ≤ mark time W es := by
  induction es generalizing W with
  | nil => exact le_refl W
  | cons e es ih => exact (le_max_left W (time e)).trans (ih _)

theorem time_le_mark {W : Int} {es : List ε} {e : ε} (h : e ∈ es) : time e ≤ mark time W es := by
  induction es generalizing W with
  | nil => exact absurd h (by simp)
  | cons d es ih =>
      rcases List.mem_cons.mp h with rfl | h'
      · exact (le_max_right W (time e)).trans (le_mark _ es)
      · exact ih h'

theorem onTime_append (W : Int) (xs ys : List ε) :
    onTime time bucket cutoff W (xs ++ ys) =
      onTime time bucket cutoff W xs ++ onTime time bucket cutoff (mark time W xs) ys := by
  induction xs generalizing W with
  | nil => rfl
  | cons x xs ih =>
      simp only [List.cons_append, onTime, mark_cons, ih]
      split <;> rfl

theorem mem_of_mem_onTime {W : Int} {es : List ε} {e : ε}
    (h : e ∈ onTime time bucket cutoff W es) : e ∈ es := by
  induction es generalizing W with
  | nil => exact absurd h (by simp [onTime])
  | cons d es ih =>
      unfold onTime at h
      split at h
      · rcases List.mem_cons.mp h with rfl | h'
        · exact List.mem_cons_self
        · exact List.mem_cons_of_mem _ (ih h')
      · exact List.mem_cons_of_mem _ (ih h)

/-- **Closed buckets stay closed.** Nothing accepted from watermark `W` on lies in a bucket below the
    cutoff of `W`. -/
theorem cutoff_le_of_mem_onTime (hc : ∀ {a b : Int}, a ≤ b → cutoff a ≤ cutoff b) {W : Int} {es : List ε} {e : ε}
    (h : e ∈ onTime time bucket cutoff W es) : cutoff W ≤ bucket (time e) := by
  induction es generalizing W with
  | nil => exact absurd h (by simp [onTime])
  | cons d es ih =>
      have hstep : cutoff W ≤ cutoff (max W (time d)) := hc (le_max_left W (time d))
      unfold onTime at h
      split at h
      · next hd =>
          rcases List.mem_cons.mp h with rfl | h'
          · exact hstep.trans hd
          · exact hstep.trans (ih h')
      · exact hstep.trans (ih h)

/-- A watermark above its start is the time of an event that was on time. -/
theorem exists_onTime_of_lt_mark (hself : ∀ t, cutoff t ≤ bucket t) {W : Int} {es : List ε}
    (h : W < mark time W es) :
    ∃ e ∈ onTime time bucket cutoff W es, time e = mark time W es := by
  induction es generalizing W with
  | nil => exact absurd h (lt_irrefl W)
  | cons d es ih =>
      rw [mark_cons] at h ⊢
      -- either a later event sets the watermark, or `d` has
      rcases lt_or_ge (max W (time d)) (mark time (max W (time d)) es) with hlt | hge
      · obtain ⟨e, he, ht⟩ := ih hlt
        refine ⟨e, ?_, ht⟩
        unfold onTime
        split
        · exact List.mem_cons_of_mem _ he
        · exact he
      · -- nothing later passes `d`, so `d` itself carries the watermark
        have hmark : mark time (max W (time d)) es = max W (time d) := le_antisymm hge (le_mark _ es)
        have hd : max W (time d) = time d := by
          rcases max_choice W (time d) with hm | hm
          · rw [hmark, hm] at h
            exact absurd h (lt_irrefl W)
          · exact hm
        refine ⟨d, ?_, by rw [hmark, hd]⟩
        unfold onTime
        rw [hd, if_pos (hself (time d))]
        exact List.mem_cons_self

/-! ## Restarting in the middle of a stream -/

/-- The first event of `es`, if there is one, is already at watermark `W` or beyond (counted from the
    initial watermark `0`), so nothing is lost by forgetting `W`. -/
def Ahead (time : ε → Int) (W : Int) (es : List ε) : Prop := ∀ e ∈ es.head?, W ≤ max 0 (time e)

theorem Ahead.of_nonpos {W : Int} {es : List ε} (h : W ≤ 0) : Ahead time W es :=
  fun e _ => h.trans (le_max_left 0 (time e))

theorem Ahead.max_eq {W : Int} (hW : 0 ≤ W) {e : ε} {es : List ε} (h : Ahead time W (e :: es)) :
    max W (time e) = max 0 (time e) := by
  have := h e (by simp)
  omega

/-- **A restart accepts the same events** when the suffix is ahead of the forgotten watermark. -/
theorem Ahead.onTime_eq {W : Int} (hW : 0 ≤ W) {es : List ε} (h : Ahead time W es) :
    onTime time bucket cutoff W es = onTime time bucket cutoff 0 es := by
  cases es with
  | nil => rfl
  | cons e es =>
      unfold onTime
      rw [h.max_eq hW]

theorem Ahead.mark_eq {W : Int} (hW : 0 ≤ W) {es : List ε} (h : Ahead time W es) (hne : es ≠ []) :
    mark time W es = mark time 0 es := by
  cases es with
  | nil => exact absurd rfl hne
  | cons e es => rw [mark_cons, mark_cons, h.max_eq hW]

end Lib.Watermark
