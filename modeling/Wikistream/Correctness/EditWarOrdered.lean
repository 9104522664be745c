import Wikistream.Correctness.OneOutcome
import Wikistream.Processors.EditWarDetector

/-!
# `Correctness.EditWarOrdered` — on ordered input the detector equals its specification

The specification recomputes everything from the page's whole history at every revert. The detector keeps a
queue that it empties from its front and one moving time. When the times do not decrease the queue is the
window of the history, and the moving time stands for the latest revert that alerted or was absorbed.

## Contents
- **The specification.** `warOf` says which war a revert starts, `specResults` what a run answers.
- **The queue is the window** (`heldAt_eq`), and the moving time (`alertedUntil_eq`).
- **The result** (`results_eq_spec`).
-/

namespace Wikistream
namespace EditWarDetector

open Py Lib Models SlidingWindow Transform

/-! ## The specification -/

section Spec

variable (cfg : Config) (host : Host)

/-- The reverts of the page with times in `[t - window, t]`, for a revert at time `t` after `past`. -/
def windowAt (past : List Revert) (r : Revert) : List Revert :=
  (past ++ [r]).filter (fun x => r.timeMs - cfg.windowMs ≤ x.timeMs ∧ x.timeMs ≤ r.timeMs)

/-- `last` is the time of the page's latest revert that alerted or was absorbed; a revert up to a window
    later is absorbed. -/
def Absorbed (last : Option Int) (r : Revert) : Prop := ∃ u ∈ last, r.timeMs ≤ u + cfg.windowMs

instance (last : Option Int) (r : Revert) : Decidable (Absorbed cfg last r) :=
  inferInstanceAs (Decidable (∃ _ ∈ _, _))

/-- One more revert: the history, and the time of the latest one that alerted or was absorbed. -/
def extend (h : List Revert × Option Int) (r : Revert) : List Revert × Option Int :=
  (h.1 ++ [r], if Absorbed cfg h.2 r ∨ IsWar cfg (windowAt cfg h.1 r) then some r.timeMs else h.2)

/-- The time of the latest revert among `past` that alerted or was absorbed. -/
def lastTouched (past : List Revert) : Option Int := (past.foldl (extend cfg) ([], none)).2

/-- The war that the revert `r` starts after `past`, in order of time and event id. -/
def warOf (past : List Revert) (r : Revert) : Option (List Revert) :=
  if Absorbed cfg (lastTouched cfg past) r then none
  else if IsWar cfg (windowAt cfg past r) then some (sortReverts (windowAt cfg past r))
  else none

/-- What is answered to `o` after the observations `seen`. -/
def specResult (seen : List Obs) (o : Obs) : Except Exc (Option EditWarAlert) :=
  if counts cfg host o.1 then
    answer o.1 (warOf cfg (pageReverts cfg host o.1.pageKey seen) (revertOf o.1 o.2))
  else .ok none

/-- What is answered to the observations `obs`, one by one, after `seen`. -/
def specResults (seen : List Obs) : List Obs → List (Except Exc (Option EditWarAlert))
  | [] => []
  | o :: obs => specResult cfg host seen o :: specResults (seen ++ [o]) obs

/-- What the detector answers to the observations, one by one. -/
def results (det : Detector) : List Obs → List (Except Exc (Option EditWarAlert))
  | [] => []
  | o :: obs => (observe cfg host det o.1 o.2).1 :: results (observe cfg host det o.1 o.2).2 obs

end Spec

variable {cfg : Config} {host : Host} {past : List Revert} {r : Revert}

/-! ## The queue is the window -/

/-- **On a history in time order the page holds the window.** -/
theorem heldAt_eq (h : InOrder Revert.timeMs (past ++ [r])) :
    heldAt cfg (afterReverts cfg {} past).reverts r =
      (past ++ [r]).filter (fun x => r.timeMs - cfg.windowMs ≤ x.timeMs) := by
  induction past using List.reverseRecOn generalizing r with
  | nil => exact evict_eq_filter h
  | append_singleton past q ih =>
      have hpast : InOrder Revert.timeMs (past ++ [q]) := h.sublist (List.sublist_append_left _ _)
      have hle : q.timeMs ≤ r.timeMs := h.le_last q (by simp)
      rw [afterReverts_snoc, observePage_reverts, ih hpast]
      exact evict_filter_append h (by omega)

theorem heldAt_eq_windowAt (h : InOrder Revert.timeMs (past ++ [r])) :
    heldAt cfg (afterReverts cfg {} past).reverts r = windowAt cfg past r := by
  rw [heldAt_eq h]
  apply List.filter_congr
  intro x hx
  have hle : x.timeMs ≤ r.timeMs := h.le_last x hx
  simp [hle]

/-! ## The moving time -/

theorem history_fst (past : List Revert) : (past.foldl (extend cfg) ([], none)).1 = past := by
  induction past using List.reverseRecOn with
  | nil => rfl
  | append_singleton past q ih =>
      rw [List.foldl_concat]
      show (past.foldl (extend cfg) ([], none)).1 ++ [q] = past ++ [q]
      rw [ih]

theorem lastTouched_snoc (past : List Revert) (r : Revert) :
    lastTouched cfg (past ++ [r]) =
      if Absorbed cfg (lastTouched cfg past) r ∨ IsWar cfg (windowAt cfg past r) then some r.timeMs
      else lastTouched cfg past := by
  unfold lastTouched
  rw [List.foldl_concat]
  show (if _ ∨ IsWar cfg (windowAt cfg (past.foldl (extend cfg) ([], none)).1 r) then _ else _) = _
  rw [history_fst]

/-- The `alerted_until_ms` that a latest alerted or absorbed revert leaves. -/
def untilOf (cfg : Config) : Option Int → Int
  | none => -1
  | some u => u + cfg.windowMs

theorem le_untilOf_iff {last : Option Int} (hr : 0 ≤ r.timeMs) :
    r.timeMs ≤ untilOf cfg last ↔ Absorbed cfg last r := by
  cases last with
  | none =>
      refine iff_of_false ?_ (by simp [Absorbed])
      show ¬ r.timeMs ≤ -1
      omega
  | some u => simp [untilOf, Absorbed]

/-- **The moving time stands for the latest revert that alerted or was absorbed.** -/
theorem alertedUntil_eq (horder : InOrder Revert.timeMs past) (hpos : ∀ x ∈ past, 0 ≤ x.timeMs) :
    (afterReverts cfg {} past).alertedUntilMs = untilOf cfg (lastTouched cfg past) := by
  induction past using List.reverseRecOn with
  | nil => rfl
  | append_singleton past r ih =>
      have hr : 0 ≤ r.timeMs := hpos r (by simp)
      have ih := ih (horder.sublist (List.sublist_append_left _ _))
        (fun x hx => hpos x (List.mem_append_left _ hx))
      have hheld := @heldAt_eq_windowAt cfg _ _ horder
      rw [afterReverts_snoc, lastTouched_snoc]
      rcases @observePage_cases cfg (afterReverts cfg {} past) r with
        ⟨hle, hobs⟩ | ⟨_, hwar, hobs⟩ | ⟨hlt, hwar, hobs⟩
      · rw [ih, le_untilOf_iff hr] at hle
        rw [hobs, if_pos (Or.inl hle)]
        rfl
      · rw [hheld] at hwar
        rw [hobs, if_pos (Or.inr hwar)]
        rfl
      · rw [hheld] at hwar
        rw [ih, ← not_le, le_untilOf_iff hr] at hlt
        rw [hobs, if_neg (not_or.mpr ⟨hlt, hwar⟩)]
        exact ih

/-- One page starts the wars of its specification. -/
theorem observePage_eq_warOf (horder : InOrder Revert.timeMs (past ++ [r]))
    (hpos : ∀ x ∈ past ++ [r], 0 ≤ x.timeMs) :
    (observePage cfg (afterReverts cfg {} past) r).1 = warOf cfg past r := by
  have hr : 0 ≤ r.timeMs := hpos r (by simp)
  have huntil := @alertedUntil_eq cfg _ (horder.sublist (List.sublist_append_left _ _))
    (fun x hx => hpos x (List.mem_append_left _ hx))
  unfold observePage warOf
  dsimp only
  rw [heldAt_eq_windowAt horder, huntil]
  by_cases ha : Absorbed cfg (lastTouched cfg past) r
  · rw [if_pos ((le_untilOf_iff hr).mpr ha), if_pos ha]
  · rw [if_neg (fun h => ha ((le_untilOf_iff hr).mp h)), if_neg ha]
    split <;> rfl

/-! ## Runs -/

/-- The counted reverts of a page come in the order of the observations. -/
theorem pageReverts_sorted {obs : List Obs} (h : obs.Pairwise (fun a b => a.2 ≤ b.2)) (page : Str) :
    InOrder Revert.timeMs (pageReverts cfg host page obs) := by
  refine List.Pairwise.filterMap _ ?_ h
  intro a b hab x hx y hy
  split at hx
  · split at hy
    · obtain rfl := Option.some.inj hx
      obtain rfl := Option.some.inj hy
      exact hab
    · exact absurd hy (by simp)
  · exact absurd hx (by simp)

theorem observe_eq_specResult {seen : List Obs} {o : Obs}
    (horder : (seen ++ [o]).Pairwise (fun a b => a.2 ≤ b.2)) (hpos : ∀ x ∈ seen ++ [o], 0 ≤ x.2) :
    (observe cfg host (after cfg host {} seen) o.1 o.2).1 = specResult cfg host seen o := by
  rw [observe_fst, specResult]
  by_cases hc : counts cfg host o.1 = true
  · rw [if_pos hc, if_pos hc, pageOf_after]
    have hsnoc := @pageReverts_snoc cfg host o.1.pageKey seen o
    rw [if_pos ⟨hc, rfl⟩] at hsnoc
    have hsorted := @pageReverts_sorted cfg host _ horder o.1.pageKey
    rw [hsnoc] at hsorted
    congr 1
    apply observePage_eq_warOf hsorted
    intro x hx
    rw [← hsnoc] at hx
    obtain ⟨y, hy, _, _, rfl⟩ := mem_pageReverts.mp hx
    exact hpos y hy
  · rw [if_neg hc, if_neg hc]

/-- **On ordered input the detector equals its specification.** For any settings and any observations with
    non-negative, non-decreasing times, of any pages in any mix. -/
theorem results_eq_spec (cfg : Config) (host : Host) (obs : List Obs)
    (horder : obs.Pairwise (fun a b => a.2 ≤ b.2)) (hpos : ∀ o ∈ obs, 0 ≤ o.2) :
    results cfg host {} obs = specResults cfg host [] obs := by
  -- the induction is on what is still to come, after any beginning
  have main : ∀ rest seen : List Obs, (seen ++ rest).Pairwise (fun a b => a.2 ≤ b.2) →
      (∀ o ∈ seen ++ rest, 0 ≤ o.2) →
      results cfg host (after cfg host {} seen) rest = specResults cfg host seen rest := by
    intro rest
    induction rest with
    | nil =>
        intro seen _ _
        rfl
    | cons o rest ih =>
        intro seen horder hpos
        have hsplit : seen ++ o :: rest = (seen ++ [o]) ++ rest := by simp
        rw [hsplit] at horder hpos
        have hhead := @observe_eq_specResult cfg host _ _
          (horder.sublist (List.sublist_append_left _ _)) (fun x hx => hpos x (List.mem_append_left _ hx))
        have htail := ih (seen ++ [o]) horder hpos
        rw [after_snoc] at htail
        rw [results, specResults, hhead, htail]
  exact main obs [] horder hpos

/-! ## A war on one page -/

/-- A host that knows the shortest revert comment. -/
def revertHost : Host := { utcHost with isRevertComment := (· == lit "rv") }

/-- A revert of the page `w:title`, with the time it is observed under. -/
def revertBy (title user eventId : String) (timeMs : Int) : Obs :=
  ({ eventId := lit eventId, wiki := lit "w", title := lit title, type := lit "edit", pageNamespace := 0
     user := lit user, bot := false, minor := false, comment := lit "rv", eventTime := []
     revOld := none, revNew := none, lengthOld := none, lengthNew := none, serverName := [] }, timeMs)

/-- Three reverts by two people within two minutes, and a fourth that is absorbed. -/
theorem war_of_three :
    let obs := [revertBy "T" "u" "a" 0, revertBy "T" "v" "b" 60000, revertBy "T" "u" "c" 120000,
      revertBy "T" "v" "d" 180000]
    results {} revertHost {} obs = specResults {} revertHost [] obs ∧
      (specResults {} revertHost [] obs).map (fun r => r.map (fun a => a.map EditWarAlert.eventIds)) =
        [.ok none, .ok none, .ok (some [lit "a", lit "b", lit "c"]), .ok none] := by
  intro obs
  refine ⟨results_eq_spec {} revertHost obs ?_ ?_, ?_⟩
  · simp [obs, revertBy]
  · simp [obs, revertBy]
  · decide +kernel +revert

/-- In the year 10000 a war starts, and no alert comes back: `datetime` has no such time. -/
theorem war_beyond_datetime :
    let past := [revertBy "T" "u" "a" 253402300800000, revertBy "T" "v" "b" 253402300800000]
    let o := revertBy "T" "u" "c" 253402300800000
    IsWar {} (windowAt {} (pageReverts {} revertHost o.1.pageKey past) (revertOf o.1 o.2)) ∧
      ¬ Absorbed {} (lastTouched {} (pageReverts {} revertHost o.1.pageKey past)) (revertOf o.1 o.2) ∧
      results {} revertHost {} (past ++ [o]) = [.ok none, .ok none, .error .valueError] := by
  decide +kernel

end EditWarDetector
end Wikistream
