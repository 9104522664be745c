import Wikistream.Processors.EditWar

/-!
# `Correctness.AbortedBatch.EditWar` — what an aborted batch leaves in the detectors

## Contents
- **Questions** (`Later`, `ask`): which war does this record start? `periodic` may run in between.
- **Telling pages apart** (`replies_ne`, `exists_probe`): two states of a page that hold different reverts are told
  apart by four more reverts.
- **Idle records** (`Idle`): no event, or one that does not count and is no newer than the watermark.
- **What leaves the detectors alone** (`idleness`): idle records, and no others.
-/

namespace Wikistream
namespace EditWarDetector

open Py Lib Models SlidingWindow

variable {cfg : Config} {host : Host} {det det' : Detector} {held held' : List Revert} {r : Revert}

/-! ## What a page holds after a revert -/

theorem mem_heldAt_self (hw : 0 ≤ cfg.windowMs) : ∃ popped, held ++ [r] = popped ++ heldAt cfg held r ∧
    r ∈ heldAt cfg held r ∧ ∀ x ∈ popped, x.timeMs < r.timeMs - cfg.windowMs := by
  obtain ⟨popped, hsplit, hpopped⟩ :=
    dropWhile_split (fun x => decide (x.timeMs < r.timeMs - cfg.windowMs)) (held ++ [r])
  have hold : ∀ x ∈ popped, x.timeMs < r.timeMs - cfg.windowMs := fun x hx => of_decide_eq_true (hpopped x hx)
  refine ⟨popped, hsplit, ?_, hold⟩
  have hr : r ∈ popped ++ heldAt cfg held r := hsplit ▸ List.mem_append_right _ (List.mem_singleton_self r)
  rcases List.mem_append.mp hr with hr | hr
  · have := hold r hr
    omega
  · exact hr

/-- The page no longer holds what it held: the revert is in, and it is none of those that left. -/
theorem not_perm_heldAt (hw : 0 ≤ cfg.windowMs) : ¬ (heldAt cfg held r).Perm held := by
  intro hperm
  obtain ⟨popped, hsplit, _, hold⟩ := @mem_heldAt_self cfg held r hw
  have hcancel : (popped ++ heldAt cfg held r).Perm ([r] ++ heldAt cfg held r) := by
    rw [← hsplit]
    exact List.perm_append_comm.trans ((List.perm_append_left_iff [r]).mpr hperm.symm)
  have hpopped : popped = [r] := List.perm_singleton.mp ((List.perm_append_right_iff _).mp hcancel)
  have := hold r (hpopped ▸ List.mem_singleton_self r)
  omega

/-- The revert that arrived last stands at the end. -/
theorem getLast?_heldAt (hw : 0 ≤ cfg.windowMs) : (heldAt cfg held r).getLast? = some r := by
  obtain ⟨popped, hsplit, hr, _⟩ := @mem_heldAt_self cfg held r hw
  have hlast := congrArg List.getLast? hsplit
  rw [List.getLast?_concat, List.getLast?_append_of_ne_nil _ (List.ne_nil_of_mem hr)] at hlast
  exact hlast.symm

/-- Popping twice at one time is popping once. -/
theorem heldAt_evict (held : List Revert) (r : Revert) :
    heldAt cfg (evict Revert.timeMs (r.timeMs - cfg.windowMs) held) r = heldAt cfg held r := by
  unfold heldAt evict
  induction held with
  | nil => rfl
  | cons x held ih =>
      by_cases hx : x.timeMs < r.timeMs - cfg.windowMs
      · rw [List.dropWhile_cons_of_pos (by simpa using hx), ih, List.cons_append,
          List.dropWhile_cons_of_pos (by simpa using hx)]
      · rw [List.dropWhile_cons_of_neg (by simpa using hx)]

/-! ## Telling pages apart -/

/-- While nothing leaves, the next revert starts a war or is added. -/
theorem observePage_of_fresh {u : Int} (hu : u < r.timeMs) (hfresh : heldAt cfg held r = held ++ [r]) :
    (IsWar cfg (held ++ [r]) ∧ (observePage cfg ⟨held, u⟩ r).1 = some (sortReverts (held ++ [r]))) ∨
    (¬ IsWar cfg (held ++ [r]) ∧ observePage cfg ⟨held, u⟩ r = (none, ⟨held ++ [r], u⟩)) := by
  unfold observePage
  dsimp only
  rw [if_neg (Int.not_le.mpr hu), hfresh]
  by_cases hwar : IsWar cfg (held ++ [r])
  · exact Or.inl ⟨hwar, by rw [if_pos hwar]⟩
  · exact Or.inr ⟨hwar, by rw [if_neg hwar]⟩

/-- The front of the list is not older than the cutoff. -/
def FreshFront (cutoff : Int) (held : List Revert) : Prop := ∀ x, held.head? = some x → cutoff ≤ x.timeMs

theorem heldAt_of_freshFront (hw : 0 ≤ cfg.windowMs) (h : FreshFront (r.timeMs - cfg.windowMs) held) :
    heldAt cfg held r = held ++ [r] := by
  unfold heldAt evict
  cases held with
  | nil =>
      apply List.dropWhile_cons_of_neg
      simp [hw]
  | cons x held =>
      have := h x rfl
      apply List.dropWhile_cons_of_neg
      simpa using this

theorem freshFront_append {cutoff : Int} (h : FreshFront cutoff held) (hr : cutoff ≤ r.timeMs) :
    FreshFront cutoff (held ++ [r]) := by
  intro x hx
  cases held with
  | nil => exact Option.some.inj hx ▸ hr
  | cons y held => exact h x hx

theorem freshFront_evict (cutoff : Int) (held : List Revert) :
    FreshFront cutoff (evict Revert.timeMs cutoff held) := by
  intro x hx
  have hnot := List.head?_dropWhile_not (fun x : Revert => decide (x.timeMs < cutoff)) held
  rw [show (List.dropWhile _ held).head? = some x from hx] at hnot
  simpa using hnot

theorem perm_of_sortReverts_eq (h : sortReverts held = sortReverts held') : held.Perm held' :=
  (perm_sortReverts held).symm.trans (h ▸ perm_sortReverts held')

/-- **Different reverts show** by the time there is a war: it comes in one of the two states only, or it is made of
    different reverts. -/
theorem replies_ne (hw : 0 ≤ cfg.windowMs) {u time : Int} (hu : u < time) {probes : List Revert}
    (htime : ∀ y ∈ probes, y.timeMs = time) (hfresh : FreshFront (time - cfg.windowMs) held)
    (hfresh' : FreshFront (time - cfg.windowMs) held') (hne : ¬ held.Perm held') (hprobes : probes ≠ [])
    (hwar : IsWar cfg (held ++ probes)) :
    replies (observePage cfg) ⟨held, u⟩ probes ≠ replies (observePage cfg) ⟨held', u⟩ probes := by
  induction probes generalizing held held' with
  | nil => exact absurd rfl hprobes
  | cons y probes ih =>
      have hy : y.timeMs = time := htime y List.mem_cons_self
      have hfront : FreshFront (y.timeMs - cfg.windowMs) held := hy ▸ hfresh
      have hfront' : FreshFront (y.timeMs - cfg.windowMs) held' := hy ▸ hfresh'
      have hone := @observePage_of_fresh cfg held y u (hy ▸ hu) (heldAt_of_freshFront hw hfront)
      have hone' := @observePage_of_fresh cfg held' y u (hy ▸ hu) (heldAt_of_freshFront hw hfront')
      intro heq
      obtain ⟨hhead, htail⟩ := List.cons.inj heq
      have hne' : ¬ (held ++ [y]).Perm (held' ++ [y]) := fun h => hne ((List.perm_append_right_iff _).mp h)
      -- two alerts that agree list the same reverts; one alert and no alert do not agree
      rcases hone with ⟨_, hfirst⟩ | ⟨hnowar, hfirst⟩
      · rcases hone' with ⟨_, hfirst'⟩ | ⟨_, hfirst'⟩
        · rw [hfirst, hfirst'] at hhead
          exact hne' (perm_of_sortReverts_eq (Option.some.inj hhead))
        · rw [hfirst, hfirst'] at hhead
          exact absurd hhead (by simp)
      · rcases hone' with ⟨_, hfirst'⟩ | ⟨_, hfirst'⟩
        · rw [hfirst, hfirst'] at hhead
          exact absurd hhead (by simp)
        · -- no war yet: the next probe decides
          rw [hfirst, hfirst'] at htail
          have hcut : time - cfg.windowMs ≤ y.timeMs := by omega
          refine ih (fun z hz => htime z (List.mem_cons_of_mem _ hz)) (freshFront_append hfresh hcut)
            (freshFront_append hfresh' hcut) hne' ?_ ?_ htail
          · rintro rfl
            exact hnowar hwar
          · rwa [List.append_assoc]

/-- There is a time before all of these. -/
theorem exists_before (times : List Int) : ∃ early : Int, ∀ t ∈ times, early < t := by
  induction times with
  | nil => exact ⟨0, fun t ht => absurd ht (by simp)⟩
  | cons t times ih =>
      obtain ⟨early, h⟩ := ih
      refine ⟨min early (t - 1), fun x hx => ?_⟩
      rcases List.mem_cons.mp hx with rfl | hx
      · omega
      · have := h x hx
        omega

/-- Three reverts by three people are a war, whatever else the page holds. -/
theorem isWar_append_three (held : List Revert) (time : Int) : IsWar {} (held ++
    [⟨[], lit "a", time⟩, ⟨[], lit "b", time⟩, ⟨[], lit "c", time⟩]) := by
  constructor
  · show (3 : Int) ≤ _
    rw [List.length_append]
    simp only [List.length_cons, List.length_nil]
    omega
  · show (2 : Int) ≤ _
    have hsub : [lit "a", lit "b"] ⊆ usersOf (held ++
        [⟨[], lit "a", time⟩, ⟨[], lit "b", time⟩, ⟨[], lit "c", time⟩]) := by
      intro user huser
      rw [usersOf, List.mem_dedup, List.map_append]
      apply List.mem_append_right
      revert huser
      simp only [List.mem_cons, List.map_cons]
      tauto
    have hnodup : [lit "a", lit "b"].Nodup := by decide
    have := (List.subperm_of_subset hnodup hsub).length_le
    simp only [List.length_cons, List.length_nil] at this
    omega

/-- What is popped at the next revert may as well be gone. -/
theorem observePage_evict (held : List Revert) (u : Int) (r : Revert) :
    observePage cfg ⟨evict Revert.timeMs (r.timeMs - cfg.windowMs) held, u⟩ r = observePage cfg ⟨held, u⟩ r := by
  unfold observePage
  dsimp only
  rw [heldAt_evict]

/-- A revert before everything else is suppressed, and stands behind what the page holds. -/
theorem observePage_early {state : PageState} (hw : 0 ≤ cfg.windowMs) (hu : r.timeMs ≤ state.alertedUntilMs)
    (hearly : ∀ x ∈ state.reverts, r.timeMs < x.timeMs) :
    observePage cfg state r = (none, ⟨state.reverts ++ [r], r.timeMs + cfg.windowMs⟩) := by
  unfold observePage
  dsimp only
  rw [if_pos hu, heldAt_of_freshFront hw]
  intro x hx
  have := hearly x (List.mem_of_head? hx)
  omega

/-- What is left behind an early revert, once it is out of the window itself. -/
theorem evict_early {early : Revert} (h : ∀ x ∈ held, early.timeMs < x.timeMs) :
    evict Revert.timeMs (early.timeMs + 1) (held ++ [early]) = if held = [] then [] else held ++ [early] := by
  unfold evict
  cases held with
  | nil =>
      rw [if_pos rfl]
      apply List.dropWhile_cons_of_pos
      simp
  | cons x held =>
      have := h x List.mem_cons_self
      rw [if_neg (by simp)]
      apply List.dropWhile_cons_of_neg
      simp only [decide_eq_true_eq]
      omega

/-- **Different reverts can be told apart**: an early revert makes the suppressions end at the same time, then three
    more make a war of what is held. -/
theorem exists_probe {state state' : PageState} (hne : ¬ state.reverts.Perm state'.reverts) :
    ∃ probes, replies (observePage {}) state probes ≠ replies (observePage {}) state' probes := by
  obtain ⟨τ, hτ⟩ := exists_before (state.alertedUntilMs :: state'.alertedUntilMs ::
    (state.reverts ++ state'.reverts).map Revert.timeMs)
  have hbefore : ∀ x ∈ state.reverts ++ state'.reverts, τ < x.timeMs :=
    fun x hx => hτ _ (List.mem_cons_of_mem _ (List.mem_cons_of_mem _ (List.mem_map_of_mem hx)))
  have hpast : ∀ x ∈ state.reverts, τ < x.timeMs := fun x hx => hbefore x (List.mem_append_left _ hx)
  have hpast' : ∀ x ∈ state'.reverts, τ < x.timeMs := fun x hx => hbefore x (List.mem_append_right _ hx)
  have hw : 0 ≤ ({} : Config).windowMs := by decide
  have hu := hτ state.alertedUntilMs List.mem_cons_self
  have hu' := hτ state'.alertedUntilMs (List.mem_cons_of_mem _ List.mem_cons_self)
  -- the early revert, and the three that follow when it is just out of the window
  generalize hearly : (⟨[], [], τ⟩ : Revert) = early
  have hτe : early.timeMs = τ := hearly ▸ rfl
  generalize htime : τ + ({} : Config).windowMs + 1 = time
  have hcut : time - ({} : Config).windowMs = early.timeMs + 1 := by omega
  refine ⟨early :: [⟨[], lit "a", time⟩, ⟨[], lit "b", time⟩, ⟨[], lit "c", time⟩], fun heq => ?_⟩
  have htail := (List.cons.inj heq).2
  rw [observePage_early hw (by omega) (fun x hx => hτe ▸ hpast x hx),
    observePage_early hw (by omega) (fun x hx => hτe ▸ hpast' x hx)] at htail
  dsimp only at htail
  have htrim : ∀ held : List Revert, ∀ u, ∀ rest, replies (observePage {})
      ⟨evict Revert.timeMs (early.timeMs + 1) held, u⟩ (⟨[], lit "a", time⟩ :: rest) =
        replies (observePage {}) ⟨held, u⟩ (⟨[], lit "a", time⟩ :: rest) := by
    intro held u rest
    have hone := @observePage_evict {} held u ⟨[], lit "a", time⟩
    rw [show (⟨[], lit "a", time⟩ : Revert).timeMs - _ = _ from hcut] at hone
    simp only [replies, hone]
  rw [← htrim (state.reverts ++ [early]), ← htrim (state'.reverts ++ [early])] at htail
  have hover : early.timeMs + ({} : Config).windowMs < time := by omega
  -- after the early revert both pages hold only what is in the window, and still differ
  refine replies_ne hw hover ?_ ?_ ?_ ?_ (by simp) (isWar_append_three _ time) htail
  · intro y hy
    simp only [List.mem_cons, List.not_mem_nil, or_false] at hy
    rcases hy with rfl | rfl | rfl <;> rfl
  · rw [hcut]
    exact freshFront_evict _ _
  · rw [hcut]
    exact freshFront_evict _ _
  · rw [evict_early (fun x hx => hτe ▸ hpast x hx), evict_early (fun x hx => hτe ▸ hpast' x hx)]
    split
    · next hnil =>
        split
        · next hnil' => exact absurd (by rw [hnil, hnil']) hne
        · exact fun h => absurd h.symm.eq_nil (by simp)
    · split
      · exact fun h => absurd h.eq_nil (by simp)
      · exact fun h => hne ((List.perm_append_right_iff _).mp h)

end EditWarDetector
end Wikistream

namespace Wikistream
namespace EditWar

open Py Lib Models Transform EditWarDetector Transactional

/-! ## Questions -/

/-- What may come after a batch: a record's event, or `periodic` when its interval is up. -/
inductive Later
  | record (p : Nat) (event : CleanEvent) (timeMs : Int)
  | periodic

/-- The reverts of the war that the event starts, if it starts one. -/
def verdict (host : Host) (det : Detector) (event : CleanEvent) (timeMs : Int) : Option (List Revert) :=
  if counts {} host event then (observePage {} (pageOf det event.pageKey) (revertOf event timeMs)).1 else none

/-- What the detectors make of it, and the detectors afterwards. -/
def ask (host : Host) (detectors : Detectors) : Later → Option (List Revert) × Detectors
  | .record p event timeMs =>
      let det := detectorFor detectors p
      (verdict host det event timeMs, detectors.set p (observe {} host det event timeMs).2)
  | .periodic => (none, periodic detectors)

/-- The detectors agree on every page and on the watermark. -/
structure SameDetector (det det' : Detector) : Prop where
  watermark : det.watermarkMs = det'.watermarkMs
  pages : ∀ page, pageOf det page = pageOf det' page

def Same (detectors detectors' : Detectors) : Prop :=
  ∀ p, SameDetector (detectorFor detectors p) (detectorFor detectors' p)

/-- The record has no event, or one that does not count and is no newer than the watermark. -/
def Idle (host : Host) (detectors : Detectors) (m : Message KafkaRecord) : Prop :=
  ∀ o, clean host m.record = .ok (some o) →
    counts {} host o.1 = false ∧ o.2 ≤ (detectorFor detectors m.partition).watermarkMs

variable {env : Env} {host : Host} {det det' : Detector} {detectors detectors' t : Detectors}
variable {m : Message KafkaRecord} {event : CleanEvent} {timeMs : Int}

/-! ## One detector -/

theorem watermark_observe (det : Detector) (event : CleanEvent) (timeMs : Int) :
    (observe {} host det event timeMs).2.watermarkMs = max det.watermarkMs timeMs := by
  unfold observe
  dsimp only
  split <;> rfl

theorem pageOf_expire (det : Detector) (page : Str) :
    pageOf (expire {} det).2 page = if isQuiet {} det (pageOf det page) then {} else pageOf det page := by
  show ((det.pages.filter _).get? page).getD {} = _
  rw [Dict.get?_filter]
  unfold pageOf
  cases det.pages.get? page with
  | none =>
      show ({} : PageState) = _
      split <;> rfl
  | some state =>
      show (Option.filter _ (some state)).getD {} = _
      by_cases hq : isQuiet {} det state = true
      · simp [Option.filter, hq]
      · simp [Option.filter, hq]

theorem SameDetector.observe (h : SameDetector det det') :
    SameDetector (observe {} host det event timeMs).2 (EditWarDetector.observe {} host det' event timeMs).2 where
  watermark := by rw [watermark_observe, watermark_observe, h.watermark]
  pages page := by rw [pageOf_observe, pageOf_observe, h.pages]

theorem SameDetector.verdict (h : SameDetector det det') :
    verdict host det event timeMs = verdict host det' event timeMs := by
  unfold EditWar.verdict
  rw [h.pages]

theorem SameDetector.expire (h : SameDetector det det') :
    SameDetector (expire {} det).2 (EditWarDetector.expire {} det').2 where
  watermark := h.watermark
  pages page := by
    have hquiet : isQuiet {} det = isQuiet {} det' := by
      funext state
      unfold isQuiet
      rw [h.watermark]
    rw [pageOf_expire, pageOf_expire, h.pages, hquiet]

/-! ## All detectors -/

theorem detectorFor_periodic (detectors : Detectors) (p : Nat) :
    detectorFor (periodic detectors) p = (expire {} (detectorFor detectors p)).2 := by
  unfold detectorFor periodic
  rw [Dict.get?_mapVals]
  cases detectors.get? p <;> rfl

theorem Same.symm (h : Same detectors detectors') : Same detectors' detectors :=
  fun p => ⟨(h p).watermark.symm, fun page => ((h p).pages page).symm⟩

theorem same_set {p : Nat} (h : Same detectors detectors') (hdet : SameDetector det det') :
    Same (detectors.set p det) (detectors'.set p det') := by
  intro q
  rw [detectorFor_set, detectorFor_set]
  split
  · exact hdet
  · exact h q

theorem Same.ask (h : Same detectors detectors') (q : Later) :
    (ask host detectors q).1 = (ask host detectors' q).1 ∧ Same (ask host detectors q).2 (ask host detectors' q).2 := by
  cases q with
  | record p event timeMs => exact ⟨(h p).verdict, same_set h (h p).observe⟩
  | periodic =>
      refine ⟨rfl, fun p => ?_⟩
      show SameDetector (detectorFor (periodic detectors) p) (detectorFor (periodic detectors') p)
      rw [detectorFor_periodic, detectorFor_periodic]
      exact (h p).expire

/-- The same detectors handle a message the same way. -/
theorem Same.handle (h : Same detectors detectors') (hm : stateAfter (handle env) detectors m = .ok t) :
    ∃ t', stateAfter (handle env) detectors' m = .ok t' ∧ Same t t' := by
  obtain ⟨outs, hm⟩ := stateAfter_eq_ok.mp hm
  simp only [stateAfter_eq_ok]
  unfold EditWar.handle at hm ⊢
  cases hclean : clean env.host m.record with
  | error e =>
      rw [hclean] at hm
      exact absurd hm (by simp)
  | ok found =>
      cases found with
      | none =>
          rw [hclean] at hm
          obtain ⟨rfl, _⟩ := Prod.mk.inj (Except.ok.inj hm)
          exact ⟨detectors', ⟨[], rfl⟩, h⟩
      | some o =>
          simp only [hclean] at hm ⊢
          -- pages that are the same answer the same, and are the same afterwards
          have hfst : (observe {} env.host (detectorFor detectors m.partition) o.1 o.2).1 =
              (observe {} env.host (detectorFor detectors' m.partition) o.1 o.2).1 := by
            rw [observe_fst, observe_fst, (h m.partition).pages]
          have hsnd : Same
              (detectors.set m.partition (observe {} env.host (detectorFor detectors m.partition) o.1 o.2).2)
              (detectors'.set m.partition (observe {} env.host (detectorFor detectors' m.partition) o.1 o.2).2) :=
            same_set h (h m.partition).observe
          revert hm hfst hsnd
          generalize observe {} env.host (detectorFor detectors m.partition) o.1 o.2 = r
          generalize observe {} env.host (detectorFor detectors' m.partition) o.1 o.2 = r'
          obtain ⟨answer, det⟩ := r
          obtain ⟨answer', det'⟩ := r'
          rintro hm rfl hsnd
          cases answer with
          | error e => exact absurd hm (by simp)
          | ok alert =>
              cases alert with
              | none =>
                  obtain ⟨rfl, _⟩ := Prod.mk.inj (Except.ok.inj hm)
                  exact ⟨_, ⟨[], rfl⟩, hsnd⟩
              | some alert =>
                  obtain ⟨out, hout, hm⟩ := map_eq_ok.mp hm
                  obtain ⟨rfl, _⟩ := Prod.mk.inj hm
                  exact ⟨_, ⟨[out], map_eq_ok.mpr ⟨out, hout, rfl⟩⟩, hsnd⟩

/-- What handling a message does to the detectors. -/
theorem stateAfter_cases (h : stateAfter (handle env) detectors m = .ok t) :
    (clean env.host m.record = .ok none ∧ t = detectors) ∨
    ∃ o, clean env.host m.record = .ok (some o) ∧
      t = detectors.set m.partition (observe {} env.host (detectorFor detectors m.partition) o.1 o.2).2 := by
  obtain ⟨outs, h⟩ := stateAfter_eq_ok.mp h
  exact handle_cases h

/-- An idle record changes nothing that decides. -/
theorem Idle.same (h : Idle env.host detectors m) (hm : stateAfter (handle env) detectors m = .ok t) :
    Same t detectors := by
  rcases stateAfter_cases hm with ⟨_, rfl⟩ | ⟨o, ho, rfl⟩
  · exact fun p => ⟨rfl, fun page => rfl⟩
  · obtain ⟨hcounts, hpast⟩ := h o ho
    intro p
    rw [detectorFor_set]
    split
    · next hp =>
        rw [hp]
        constructor
        · rw [watermark_observe, max_eq_left hpast]
        · intro page
          rw [pageOf_observe, if_neg (fun hc => absurd hc.1 (by simp [hcounts]))]
    · exact ⟨rfl, fun page => rfl⟩

/-! ## Detectors that hold different reverts -/

/-- A revert of the same kind by someone else. -/
def withRevert (event : CleanEvent) (r : Revert) : CleanEvent := { event with eventId := r.eventId, user := r.user }

/-- Asking about reverts of one page is asking its state. -/
theorem replies_records (hcounts : counts {} host event = true) (p : Nat) (probes : List Revert)
    (detectors : Detectors) :
    replies (ask host) detectors (probes.map (fun r => .record p (withRevert event r) r.timeMs)) =
      replies (observePage {}) (pageOf (detectorFor detectors p) event.pageKey) probes := by
  induction probes generalizing detectors with
  | nil => rfl
  | cons r probes ih =>
      have hc : counts {} host (withRevert event r) = true := hcounts
      have hfirst : (ask host detectors (.record p (withRevert event r) r.timeMs)).1 =
          (observePage {} (pageOf (detectorFor detectors p) event.pageKey) r).1 := by
        show verdict host (detectorFor detectors p) (withRevert event r) r.timeMs = _
        unfold verdict
        rw [if_pos hc]
        rfl
      have hpage : pageOf (detectorFor (ask host detectors (.record p (withRevert event r) r.timeMs)).2 p)
          event.pageKey = (observePage {} (pageOf (detectorFor detectors p) event.pageKey) r).2 := by
        show pageOf (detectorFor (detectors.set p _) p) event.pageKey = _
        rw [detectorFor_set, if_pos rfl, pageOf_observe, if_pos ⟨hc, rfl⟩]
        rfl
      rw [List.map_cons, replies, replies, hfirst, ih, hpage]

/-- Detectors that are alike hold the same reverts of every page on which a revert can count. -/
theorem perm_of_alike (hcounts : counts {} host event = true) (h : Alike (ask host) detectors detectors') (p : Nat) :
    (pageOf (detectorFor detectors p) event.pageKey).reverts.Perm
      (pageOf (detectorFor detectors' p) event.pageKey).reverts := by
  by_contra hne
  obtain ⟨probes, hprobes⟩ := exists_probe hne
  apply hprobes
  rw [← replies_records hcounts p probes detectors, ← replies_records hcounts p probes detectors']
  exact h _

theorem windowMs_nonneg : 0 ≤ ({} : EditWarDetector.Config).windowMs := by decide

/-- A counted revert always shows. -/
theorem not_alike_of_counts {o : Obs} (hcounts : counts {} host o.1 = true) (p : Nat)
    (h : Alike (ask host) (detectors.set p (observe {} host (detectorFor detectors p) o.1 o.2).2) detectors) :
    False := by
  have hperm := perm_of_alike hcounts h p
  rw [detectorFor_set, if_pos rfl, pageOf_observe, if_pos ⟨hcounts, rfl⟩, observePage_reverts] at hperm
  exact not_perm_heldAt windowMs_nonneg hperm

theorem windowMs_eq : ({} : EditWarDetector.Config).windowMs = 1800000 := rfl

/-- The page after one of its reverts and `periodic`. -/
theorem pageOf_record_periodic (hcounts : counts {} host event = true) (p : Nat) {r : Revert}
    (hrevert : revertOf event r.timeMs = r) (detectors : Detectors) :
    pageOf (detectorFor (ask host (ask host detectors (.record p event r.timeMs)).2 .periodic).2 p) event.pageKey =
      if isQuiet {} (observe {} host (detectorFor detectors p) event r.timeMs).2
        (observePage {} (pageOf (detectorFor detectors p) event.pageKey) r).2 then {}
      else (observePage {} (pageOf (detectorFor detectors p) event.pageKey) r).2 := by
  have hpage : pageOf (observe {} host (detectorFor detectors p) event r.timeMs).2 event.pageKey =
      (observePage {} (pageOf (detectorFor detectors p) event.pageKey) r).2 := by
    rw [pageOf_observe, if_pos ⟨hcounts, rfl⟩, hrevert]
  show pageOf (detectorFor (periodic (detectors.set p _)) p) event.pageKey = _
  rw [detectorFor_periodic, pageOf_expire, detectorFor_set, if_pos (rfl : p = p), hpage]

/-- Whether a page is quiet after a revert, from the watermark it is judged by. -/
theorem isQuiet_observe (state : PageState) (r : Revert) :
    isQuiet {} (observe {} host det event timeMs).2 (observePage {} state r).2 = true ↔
      r.timeMs < max det.watermarkMs timeMs - 1800000 ∧
        (observePage {} state r).2.alertedUntilMs < max det.watermarkMs timeMs := by
  unfold isQuiet
  rw [observePage_reverts, getLast?_heldAt windowMs_nonneg, watermark_observe, Bool.and_eq_true,
    decide_eq_true_eq, decide_eq_true_eq, windowMs_eq]

/-- A revert before the suppression ends, or after it, leaves it to end within a window. -/
theorem alertedUntilMs_observePage (state : PageState) (r : Revert) :
    (observePage {} state r).2.alertedUntilMs = r.timeMs + 1800000 ∨
      (observePage {} state r).2.alertedUntilMs < r.timeMs := by
  rcases @observePage_cases {} state r with ⟨_, h⟩ | ⟨_, _, h⟩ | ⟨hlt, _, h⟩
  · exact Or.inl (by rw [h]; rfl)
  · exact Or.inl (by rw [h]; rfl)
  · exact Or.inr (by rw [h]; exact hlt)

/-- **A watermark that moved shows**: a page with a revert at the end of the old window is forgotten by `periodic`,
    and would have been kept before. -/
theorem watermark_of_alike (hcounts : counts {} host event = true) {p : Nat}
    (hpages : ∀ page, pageOf (detectorFor detectors p) page = pageOf (detectorFor detectors' p) page)
    (h : Alike (ask host) detectors detectors') :
    (detectorFor detectors p).watermarkMs ≤ (detectorFor detectors' p).watermarkMs := by
  by_contra hgt
  have hlt := Int.not_le.mp hgt
  obtain ⟨r, hrevert, htime⟩ : ∃ r, revertOf event r.timeMs = r ∧
      r.timeMs = (detectorFor detectors' p).watermarkMs - 1800000 :=
    ⟨⟨event.eventId, event.user, _⟩, rfl, rfl⟩
  have hperm := perm_of_alike hcounts ((h.snd_ask (.record p event r.timeMs)).snd_ask .periodic) p
  rw [pageOf_record_periodic hcounts p hrevert, pageOf_record_periodic hcounts p hrevert, hpages] at hperm
  -- quiet by the new watermark, not by the old one
  have hquiet : isQuiet {} (observe {} host (detectorFor detectors p) event r.timeMs).2
      (observePage {} (pageOf (detectorFor detectors' p) event.pageKey) r).2 = true := by
    rw [isQuiet_observe]
    have := alertedUntilMs_observePage (pageOf (detectorFor detectors' p) event.pageKey) r
    omega
  have hkept : ¬ isQuiet {} (observe {} host (detectorFor detectors' p) event r.timeMs).2
      (observePage {} (pageOf (detectorFor detectors' p) event.pageKey) r).2 = true := by
    rw [isQuiet_observe]
    omega
  rw [if_pos hquiet, if_neg hkept, observePage_reverts] at hperm
  obtain ⟨_, _, hr, _⟩ :=
    @mem_heldAt_self {} (pageOf (detectorFor detectors' p) event.pageKey).reverts r windowMs_nonneg
  rw [hperm.nil_eq.symm] at hr
  exact absurd hr (by simp)

/-! ## What leaves the detectors alone -/

/-- An edit with this comment. -/
def editWith (comment : Str) : CleanEvent where
  eventId := []
  wiki := []
  title := []
  type := lit "edit"
  pageNamespace := 0
  user := []
  bot := false
  minor := false
  comment := comment
  eventTime := []
  revOld := none
  revNew := none
  lengthOld := none
  lengthNew := none
  serverName := []

theorem counts_editWith {comment : Str} (h : host.isRevertComment comment = true) :
    counts {} host (editWith comment) = true := by
  unfold counts CleanEvent.isRevert
  show ((lit "edit" == lit "edit") && host.isRevertComment comment && !(true && false)) = true
  rw [h]
  decide

/-- A record that is not idle changes a verdict. -/
theorem idle_of_alike (hrevert : ∃ comment, env.host.isRevertComment comment = true)
    (hm : stateAfter (handle env) detectors m = .ok t) (h : Alike (ask env.host) t detectors) :
    Idle env.host detectors m := by
  intro o ho
  rcases stateAfter_cases hm with ⟨hnone, _⟩ | ⟨o', ho', rfl⟩
  · exact absurd (hnone.symm.trans ho) (by simp)
  obtain rfl := Option.some.inj (Except.ok.inj (ho.symm.trans ho'))
  have hcounts : counts {} env.host o.1 = false := by
    by_contra hc
    exact not_alike_of_counts (Bool.eq_true_of_not_eq_false hc) m.partition h
  refine ⟨hcounts, ?_⟩
  obtain ⟨comment, hcomment⟩ := hrevert
  have hpages : ∀ page, pageOf (detectorFor (detectors.set m.partition
      (observe {} env.host (detectorFor detectors m.partition) o.1 o.2).2) m.partition) page =
      pageOf (detectorFor detectors m.partition) page := by
    intro page
    rw [detectorFor_set, if_pos rfl, pageOf_observe, if_neg (fun hc => absurd hc.1 (by simp [hcounts]))]
  have hle := watermark_of_alike (counts_editWith hcomment) hpages h
  rw [detectorFor_set, if_pos rfl, watermark_observe] at hle
  exact (le_max_right _ _).trans hle

/-- **What leaves the detectors alone**, for a host on which some comment is that of a revert. -/
theorem idleness (env : Env) (hrevert : ∃ comment, env.host.isRevertComment comment = true) :
    Idleness (ask env.host) (stateAfter (handle env)) (fun _ => True) Same (Idle env.host) where
  refl _ _ := ⟨rfl, fun _ => rfl⟩
  symm _ _ h := h.symm
  trans _ _ _ h h' p := ⟨(h p).watermark.trans (h' p).watermark,
    fun page => ((h p).pages page).trans ((h' p).pages page)⟩
  alike _ _ h := alike_of_bisim (fun _ _ q hs => hs.ask q) h
  congr _ _ _ h hidle o ho := by
    obtain ⟨hcounts, hpast⟩ := hidle o ho
    exact ⟨hcounts, hpast.trans (le_of_eq (h _).watermark)⟩
  same_work _ _ _ _ h hm := h.handle hm
  fit _ _ _ _ _ := trivial
  idle _ _ _ _ hm h := h.same hm
  busy _ _ _ _ hm h := idle_of_alike hrevert hm h

end EditWar
end Wikistream
