import Wikistream.Correctness.EditWarOrdered

/-!
# `Correctness.EditWarExpiry` — forgetting quiet pages

`expire` runs on a timer. It decides from the partition's watermark and from the revert of a page that
arrived last, so a page can be forgotten while it holds a revert that a late one would still have met.

## Contents
- **Schedules** (`Op`, `answers`): observations with `expire` calls between them.
- **The run that never expires** is kept beside the one that does (`Same`).
- **The result** (`answers_eq`): two schedules of the same observations get the same answers if nothing that
  was forgotten would have mattered to a later revert.
-/

namespace Wikistream
namespace EditWarDetector

open Py Lib Models SlidingWindow

/-! ## Schedules -/

inductive Op
  | observe (o : Obs)
  | expire

section Schedules

variable (cfg : Config) (host : Host)

/-- What the observations of a schedule are answered. -/
def answers (det : Detector) : List Op → List (Except Exc (Option EditWarAlert))
  | [] => []
  | .observe o :: ops =>
      (observe cfg host det o.1 o.2).1 :: answers (observe cfg host det o.1 o.2).2 ops
  | .expire :: ops => answers (expire cfg det).2 ops

/-- The observations of a schedule. -/
def observations : List Op → List Obs
  | [] => []
  | .observe o :: ops => o :: observations ops
  | .expire :: ops => observations ops

/-- What `det` has forgotten of the page of `o`, and the never expiring `full` has not, does not matter to
    `o`: the forgotten reverts are more than a window older, and the forgotten suppression is over. -/
def Unmissed (det full : Detector) (o : Obs) : Prop :=
  counts cfg host o.1 = true →
    (det.pages.get? o.1.pageKey = none →
      ∀ x ∈ (pageOf full o.1.pageKey).reverts, x.timeMs < o.2 - cfg.windowMs) ∧
    ((pageOf det o.1.pageKey).alertedUntilMs ≠ (pageOf full o.1.pageKey).alertedUntilMs →
      (pageOf full o.1.pageKey).alertedUntilMs < o.2)

instance (det full : Detector) (o : Obs) : Decidable (Unmissed cfg host det full o) :=
  inferInstanceAs (Decidable (_ → _ ∧ _))

/-- Nothing forgotten matters, at any observation of the schedule. -/
def AllUnmissed (det full : Detector) : List Op → Prop
  | [] => True
  | .observe o :: ops => Unmissed cfg host det full o ∧
      AllUnmissed (observe cfg host det o.1 o.2).2 (observe cfg host full o.1 o.2).2 ops
  | .expire :: ops => AllUnmissed (expire cfg det).2 full ops

instance decidableAllUnmissed (det full : Detector) : (ops : List Op) → Decidable (AllUnmissed cfg host det full ops)
  | [] => isTrue trivial
  | .observe o :: ops =>
      have := decidableAllUnmissed (observe cfg host det o.1 o.2).2 (observe cfg host full o.1 o.2).2 ops
      inferInstanceAs (Decidable (Unmissed cfg host det full o ∧ _))
  | .expire :: ops => decidableAllUnmissed (expire cfg det).2 full ops

end Schedules

variable {cfg : Config} {host : Host} {det full : Detector} {o : Obs}

/-! ## The run that never expires -/

/-- Page by page: the same reverts, unless the page is forgotten, and the same suppression, unless it was
    forgotten. -/
structure Same (det full : Detector) : Prop where
  reverts : ∀ page, det.pages.get? page = none ∨ (pageOf det page).reverts = (pageOf full page).reverts
  suppressed : ∀ page, (pageOf det page).alertedUntilMs = (pageOf full page).alertedUntilMs ∨
    (pageOf det page).alertedUntilMs = -1

theorem Same.refl (det : Detector) : Same det det := ⟨fun _ => Or.inr rfl, fun _ => Or.inl rfl⟩

theorem pageOf_of_none {page : Str} (h : det.pages.get? page = none) : pageOf det page = {} := by
  rw [pageOf, h]
  rfl

/-- `expire` keeps a page as it is or forgets it. -/
theorem get?_expire (page : Str) :
    (expire cfg det).2.pages.get? page = none ∨
      (expire cfg det).2.pages.get? page = det.pages.get? page := by
  show (det.pages.filter _).get? page = none ∨ (det.pages.filter _).get? page = _
  rw [Dict.get?_filter]
  cases det.pages.get? page with
  | none => exact Or.inl rfl
  | some state =>
      by_cases hq : isQuiet cfg det state = true
      · exact Or.inl (by simp [hq])
      · exact Or.inr (by simp [hq])

theorem Same.expire (h : Same det full) : Same (expire cfg det).2 full := by
  constructor
  · intro page
    rcases @get?_expire cfg det page with hnone | hkept
    · exact Or.inl hnone
    · rw [pageOf, hkept]
      exact h.reverts page
  · intro page
    rcases @get?_expire cfg det page with hnone | hkept
    · rw [pageOf_of_none hnone]
      exact Or.inr rfl
    · rw [pageOf, hkept]
      exact h.suppressed page

/-- The page holds the same reverts once the new one is in. -/
theorem Same.heldAt (h : Same det full) (hc : counts cfg host o.1 = true) (hm : Unmissed cfg host det full o) :
    heldAt cfg (pageOf det o.1.pageKey).reverts (revertOf o.1 o.2) =
      heldAt cfg (pageOf full o.1.pageKey).reverts (revertOf o.1 o.2) := by
  rcases h.reverts o.1.pageKey with hnone | heq
  · rw [pageOf_of_none hnone]
    exact (evict_append_of_old ((hm hc).1 hnone) _).symm
  · rw [heq]

/-- The revert is absorbed in both runs or in neither. -/
theorem Same.absorbed (h : Same det full) (hc : counts cfg host o.1 = true)
    (hm : Unmissed cfg host det full o) (hpos : 0 ≤ o.2) :
    o.2 ≤ (pageOf det o.1.pageKey).alertedUntilMs ↔ o.2 ≤ (pageOf full o.1.pageKey).alertedUntilMs := by
  by_cases heq : (pageOf det o.1.pageKey).alertedUntilMs = (pageOf full o.1.pageKey).alertedUntilMs
  · rw [heq]
  · have hlt := (hm hc).2 heq
    have hforgot := (h.suppressed o.1.pageKey).resolve_left heq
    omega

/-- **One counted revert makes the same of the page in both runs**, up to a suppression that was forgotten. -/
theorem Same.observePage (h : Same det full) (hc : counts cfg host o.1 = true)
    (hm : Unmissed cfg host det full o) (hpos : 0 ≤ o.2) :
    (observePage cfg (pageOf det o.1.pageKey) (revertOf o.1 o.2)).1 =
        (observePage cfg (pageOf full o.1.pageKey) (revertOf o.1 o.2)).1 ∧
      ((observePage cfg (pageOf det o.1.pageKey) (revertOf o.1 o.2)).2.alertedUntilMs =
          (observePage cfg (pageOf full o.1.pageKey) (revertOf o.1 o.2)).2.alertedUntilMs ∨
        (observePage cfg (pageOf det o.1.pageKey) (revertOf o.1 o.2)).2.alertedUntilMs = -1) := by
  have hheld := h.heldAt hc hm
  have habs := h.absorbed hc hm hpos
  rcases @observePage_cases cfg (pageOf full o.1.pageKey) (revertOf o.1 o.2) with
    ⟨hle, hobs⟩ | ⟨hlt, hwar, hobs⟩ | ⟨hlt, hwar, hobs⟩
  · have hdet : (revertOf o.1 o.2).timeMs ≤ (pageOf det o.1.pageKey).alertedUntilMs := habs.mpr hle
    rw [hobs, EditWarDetector.observePage, if_pos hdet]
    exact ⟨rfl, Or.inl rfl⟩
  · have hdet : ¬ (revertOf o.1 o.2).timeMs ≤ (pageOf det o.1.pageKey).alertedUntilMs :=
      fun hle => absurd (habs.mp hle) (Int.not_le.mpr hlt)
    rw [hobs, EditWarDetector.observePage, if_neg hdet, hheld, if_pos hwar]
    exact ⟨rfl, Or.inl rfl⟩
  · have hdet : ¬ (revertOf o.1 o.2).timeMs ≤ (pageOf det o.1.pageKey).alertedUntilMs :=
      fun hle => absurd (habs.mp hle) (Int.not_le.mpr hlt)
    rw [hobs, EditWarDetector.observePage, if_neg hdet, hheld, if_neg hwar]
    exact ⟨rfl, h.suppressed o.1.pageKey⟩

theorem get?_observe (det : Detector) (o : Obs) (page : Str) :
    (observe cfg host det o.1 o.2).2.pages.get? page =
      if counts cfg host o.1 = true ∧ o.1.pageKey = page then
        some (observePage cfg (pageOf det page) (revertOf o.1 o.2)).2
      else det.pages.get? page := by
  unfold observe
  by_cases hc : counts cfg host o.1 = true
  · rw [if_pos hc]
    show (det.pages.set o.1.pageKey _).get? page = _
    rw [Dict.get?_set]
    by_cases hp : o.1.pageKey = page
    · subst hp
      rw [if_pos rfl, if_pos ⟨hc, rfl⟩]
      rfl
    · rw [if_neg (Ne.symm hp), if_neg (fun h => hp h.2)]
  · rw [if_neg hc, if_neg (fun h => hc h.1)]

theorem Same.observe (h : Same det full) (hm : Unmissed cfg host det full o) (hpos : 0 ≤ o.2) :
    (observe cfg host det o.1 o.2).1 = (observe cfg host full o.1 o.2).1 ∧
      Same (observe cfg host det o.1 o.2).2 (observe cfg host full o.1 o.2).2 := by
  refine ⟨?_, ?_, ?_⟩
  · rw [observe_fst, observe_fst]
    by_cases hc : counts cfg host o.1 = true
    · rw [if_pos hc, if_pos hc, (h.observePage hc hm hpos).1]
    · rw [if_neg hc, if_neg hc]
  · intro page
    rw [get?_observe, pageOf_observe, pageOf_observe]
    by_cases hp : counts cfg host o.1 = true ∧ o.1.pageKey = page
    · rw [if_pos hp, if_pos hp, if_pos hp]
      obtain ⟨hc, rfl⟩ := hp
      rw [observePage_reverts, observePage_reverts, h.heldAt hc hm]
      exact Or.inr rfl
    · rw [if_neg hp, if_neg hp, if_neg hp]
      exact h.reverts page
  · intro page
    rw [pageOf_observe, pageOf_observe]
    by_cases hp : counts cfg host o.1 = true ∧ o.1.pageKey = page
    · rw [if_pos hp, if_pos hp]
      obtain ⟨hc, rfl⟩ := hp
      exact (h.observePage hc hm hpos).2
    · rw [if_neg hp, if_neg hp]
      exact h.suppressed page

/-! ## Runs -/

/-- A schedule answers as the one without `expire` calls. -/
theorem Same.answers (ops : List Op) (h : Same det full) (hm : AllUnmissed cfg host det full ops)
    (hpos : ∀ o ∈ observations ops, 0 ≤ o.2) :
    answers cfg host det ops = results cfg host full (observations ops) := by
  induction ops generalizing det full with
  | nil => rfl
  | cons op ops ih =>
      cases op with
      | observe o =>
          obtain ⟨hone, hrest⟩ := hm
          obtain ⟨hfst, hsame⟩ := h.observe hone (hpos o List.mem_cons_self)
          have htail := ih hsame hrest (fun x hx => hpos x (List.mem_cons_of_mem _ hx))
          rw [EditWarDetector.answers, observations, results, hfst, htail]
      | expire => exact ih h.expire hm hpos

/-- **Forgetting what no longer matters changes no answer.** Two schedules of the same observations. -/
theorem answers_eq (cfg : Config) (host : Host) (ops ops' : List Op)
    (hobs : observations ops = observations ops') (hpos : ∀ o ∈ observations ops, 0 ≤ o.2)
    (hm : AllUnmissed cfg host {} {} ops) (hm' : AllUnmissed cfg host {} {} ops') :
    answers cfg host {} ops = answers cfg host {} ops' := by
  calc answers cfg host {} ops = results cfg host {} (observations ops) :=
        (Same.refl {}).answers ops hm hpos
    _ = results cfg host {} (observations ops') := by rw [hobs]
    _ = answers cfg host {} ops' := ((Same.refl {}).answers ops' hm' (hobs ▸ hpos)).symm

/-- A page that was quiet for an hour is forgotten, and its next war is found all the same. -/
theorem answers_eq_quiet :
    let war := [Op.observe (revertBy "T" "u" "b" 5400000), .observe (revertBy "T" "v" "c" 5460000),
      .observe (revertBy "T" "u" "d" 5520000)]
    let ops := Op.observe (revertBy "T" "u" "a" 0) :: .observe (revertBy "S" "u" "s" 3600000) :: .expire :: war
    let ops' := Op.observe (revertBy "T" "u" "a" 0) :: .observe (revertBy "S" "u" "s" 3600000) :: war
    answers {} revertHost {} ops = answers {} revertHost {} ops' := by
  intro war ops ops'
  refine answers_eq {} revertHost ops ops' rfl ?_ (by decide +kernel) (by decide +kernel)
  have hpos : ∀ o ∈ observations ops, 0 ≤ o.2 := by decide +kernel
  exact hpos

/-- Two reverts of a page are forgotten because another page has moved on, and the late third one finds
    nothing to make a war with. -/
theorem forgotten_war :
    let before := [Op.observe (revertBy "T" "u" "a" 0), .observe (revertBy "T" "v" "b" 1),
      .observe (revertBy "S" "u" "s" 3600000)]
    let late := [Op.observe (revertBy "T" "u" "c" 2)]
    (answers {} revertHost {} (before ++ .expire :: late)).map (fun r => r.toOption.join.isSome) =
        [false, false, false, false] ∧
      (answers {} revertHost {} (before ++ late)).map (fun r => r.toOption.join.isSome) =
        [false, false, false, true] := by
  decide +kernel

end EditWarDetector
end Wikistream
