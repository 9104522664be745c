import Wikistream.Correctness.EditWarOrdered

/-!
# `Correctness.EditWarArrival` — what late reverts do to alerts

A revert may arrive after a newer one. The queue of a page stands in arrival order but is emptied by time
from its front, so an old revert can hide behind a newer one and end up in an alert with reverts of another
hour. The time up to which a war is suppressed is rewritten by every absorbed revert, so an old one moves it
back and the war alerts again.

## Contents
- **Alerts of one window.** `alert_real_iff`: an alert is a real war exactly if, among the page's reverts,
  those more than a window older than the newest arrived before the others.
- **One alert per war.** `alerts_once`: a war alerts once if no revert is absorbed that is older than the one
  which alerted or was absorbed last, and only then does the suppression never move back.
-/

namespace Wikistream
namespace EditWarDetector

open Py Lib Models SlidingWindow

variable {cfg : Config} {host : Host}

/-! ## The queue of a page -/

/-- What a page holds is the queue of its reverts. -/
theorem reverts_eq_queue (past : List Revert) :
    (afterReverts cfg {} past).reverts = queue Revert.timeMs cfg.windowMs past := by
  induction past using List.reverseRecOn with
  | nil => rfl
  | append_singleton past r ih =>
      rw [afterReverts_snoc, observePage_reverts, queue_snoc, ← ih]
      rfl

theorem pageOf_empty (page : Str) : pageOf {} page = {} := rfl

/-- The reverts a page holds when `o` is observed after `seen`, with `o` among them. -/
def heldFor (cfg : Config) (host : Host) (seen : List Obs) (o : Obs) : List Revert :=
  heldAt cfg (pageOf (after cfg host {} seen) o.1.pageKey).reverts (revertOf o.1 o.2)

theorem heldFor_eq_queue {seen : List Obs} {o : Obs} (hc : counts cfg host o.1 = true) :
    heldFor cfg host seen o =
      queue Revert.timeMs cfg.windowMs (pageReverts cfg host o.1.pageKey (seen ++ [o])) := by
  unfold heldFor
  rw [pageOf_after, pageOf_empty, reverts_eq_queue, pageReverts_snoc, if_pos ⟨hc, rfl⟩, queue_snoc]
  rfl

/-! ## Alerts of one window -/

/-- The observations that the alert lists. -/
def listed (obs : List Obs) (alert : EditWarAlert) : List Obs :=
  obs.filter (fun o => o.1.eventId ∈ alert.eventIds)

theorem mem_listed {obs : List Obs} {alert : EditWarAlert} {o : Obs} :
    o ∈ listed obs alert ↔ o ∈ obs ∧ o.1.eventId ∈ alert.eventIds := by
  simp [listed]

/-- The alert lists enough distinct observed reverts of its page, by enough people, within one window. -/
structure RealWar (cfg : Config) (host : Host) (obs : List Obs) (alert : EditWarAlert) : Prop where
  distinct : alert.eventIds.Nodup
  enough : cfg.minReverts ≤ alert.eventIds.length
  observed : ∀ id ∈ alert.eventIds, ∃ o ∈ obs, o.1.eventId = id
  reverts : ∀ o ∈ listed obs alert, counts cfg host o.1 = true ∧ o.1.pageKey = alert.pageKey
  people : cfg.minUsers ≤ ((listed obs alert).map (fun o => o.1.user)).dedup.length
  close : ∀ a ∈ listed obs alert, ∀ b ∈ listed obs alert, b.2 - a.2 ≤ cfg.windowMs
  span : ∃ a ∈ listed obs alert, ∃ b ∈ listed obs alert, iso a.2 = .ok alert.windowStart ∧
    iso b.2 = .ok alert.windowEnd ∧ b.2 - a.2 ≤ cfg.windowMs

/-- What an alert is made of. -/
theorem alertOf_eq_ok {event : CleanEvent} {war : List Revert} {alert : EditWarAlert}
    (h : alertOf event war = .ok alert) :
    alert.pageKey = event.pageKey ∧ alert.eventIds = war.map Revert.eventId ∧
      ∃ first ∈ war, ∃ last ∈ war, iso first.timeMs = .ok alert.windowStart ∧
        iso last.timeMs = .ok alert.windowEnd := by
  unfold alertOf at h
  split at h
  · next first last hfirst hlast =>
      obtain ⟨_, _, h⟩ := bind_eq_ok.mp h
      obtain ⟨start, hstart, h⟩ := bind_eq_ok.mp h
      obtain ⟨stop, hstop, h⟩ := bind_eq_ok.mp h
      obtain rfl := Except.ok.inj h
      exact ⟨rfl, rfl, first, List.mem_of_head? hfirst, last, List.mem_of_getLast? hlast, hstart, hstop⟩
  · exact absurd h (by simp)

/-- A returned alert is that of a counted revert which starts a war. -/
theorem observe_alert {det : Detector} {o : Obs} {alert : EditWarAlert}
    (h : (observe cfg host det o.1 o.2).1 = .ok (some alert)) :
    counts cfg host o.1 = true ∧ ∃ war, (observePage cfg (pageOf det o.1.pageKey) (revertOf o.1 o.2)).1 = some war ∧
      alertOf o.1 war = .ok alert := by
  rw [observe_fst] at h
  split at h
  · next hc =>
      refine ⟨hc, ?_⟩
      cases hwar : (observePage cfg (pageOf det o.1.pageKey) (revertOf o.1 o.2)).1 with
      | none =>
          rw [hwar] at h
          exact absurd h (by simp [answer])
      | some war =>
          rw [hwar] at h
          obtain ⟨a, ha, hsome⟩ := map_eq_ok.mp h
          exact ⟨war, rfl, Option.some.inj hsome ▸ ha⟩
  · exact absurd h (by simp)

section Listed

variable {obs : List Obs} {held : List Revert} {page : Str} {alert : EditWarAlert}

/-- With distinct event ids an id stands for one observation. -/
theorem eq_of_eventId (hids : (obs.map (fun o => o.1.eventId)).Nodup) {a b : Obs} (ha : a ∈ obs)
    (hb : b ∈ obs) (h : a.1.eventId = b.1.eventId) : a = b :=
  List.inj_on_of_nodup_map hids ha hb h

/-- The listed observations are those of the reverts held. -/
theorem mem_listed_iff (hids : (obs.map (fun o => o.1.eventId)).Nodup)
    (hsub : ∀ x ∈ held, x ∈ pageReverts cfg host page obs)
    (hlist : ∀ id, id ∈ alert.eventIds ↔ ∃ x ∈ held, x.eventId = id) {o : Obs} :
    o ∈ listed obs alert ↔
      o ∈ obs ∧ counts cfg host o.1 = true ∧ o.1.pageKey = page ∧ revertOf o.1 o.2 ∈ held := by
  rw [mem_listed, hlist]
  constructor
  · rintro ⟨ho, x, hx, hid⟩
    obtain ⟨o', ho', hc, hp, rfl⟩ := mem_pageReverts.mp (hsub x hx)
    obtain rfl := eq_of_eventId hids ho' ho hid
    exact ⟨ho, hc, hp, hx⟩
  · rintro ⟨ho, _, _, hx⟩
    exact ⟨ho, _, hx, rfl⟩

/-- Every revert held is that of a listed observation. -/
theorem exists_listed (hids : (obs.map (fun o => o.1.eventId)).Nodup)
    (hsub : ∀ x ∈ held, x ∈ pageReverts cfg host page obs)
    (hlist : ∀ id, id ∈ alert.eventIds ↔ ∃ x ∈ held, x.eventId = id) {x : Revert} (hx : x ∈ held) :
    ∃ o ∈ listed obs alert, revertOf o.1 o.2 = x := by
  obtain ⟨o, ho, hc, hp, rfl⟩ := mem_pageReverts.mp (hsub x hx)
  exact ⟨o, (mem_listed_iff hids hsub hlist).mpr ⟨ho, hc, hp, hx⟩, rfl⟩

end Listed

/-- The event ids of a page's reverts are distinct when those of the observations are. -/
theorem nodup_pageReverts {obs : List Obs} (hids : (obs.map (fun o => o.1.eventId)).Nodup) (page : Str) :
    ((pageReverts cfg host page obs).map Revert.eventId).Nodup := by
  have hsub : List.Sublist ((pageReverts cfg host page obs).map Revert.eventId)
      (obs.map (fun o => o.1.eventId)) := by
    induction obs with
    | nil => exact List.Sublist.refl _
    | cons o obs ih =>
        have ih := ih (List.nodup_cons.mp hids).2
        unfold pageReverts at ih ⊢
        rw [List.filterMap_cons]
        split
        · exact ih.cons _
        · next r hr =>
            split at hr
            · obtain rfl := Option.some.inj hr
              exact ih.cons_cons _
            · exact absurd hr (by simp)
  exact hids.sublist hsub

/-- **When an alert is a real war.** -/
theorem alert_real_iff (cfg : Config) (host : Host) (seen : List Obs) (o : Obs) (alert : EditWarAlert)
    (hw : 0 ≤ cfg.windowMs) (hids : ((seen ++ [o]).map (fun o => o.1.eventId)).Nodup)
    (h : (observe cfg host (after cfg host {} seen) o.1 o.2).1 = .ok (some alert)) :
    RealWar cfg host (seen ++ [o]) alert ↔
      OldFirst Revert.timeMs cfg.windowMs (pageReverts cfg host alert.pageKey (seen ++ [o])) := by
  obtain ⟨hc, war, hwar, halert⟩ := observe_alert h
  obtain ⟨_, hisWar, rfl⟩ := war_eq hwar
  obtain ⟨hpage, hevents, first, hfirst, last, hlast, hstart, hstop⟩ := alertOf_eq_ok halert
  -- the reverts held, and that the alert lists them
  have hqueue := @heldFor_eq_queue cfg host seen _ hc
  unfold heldFor at hqueue
  rw [hqueue] at hisWar hevents hfirst hlast
  rw [hpage]
  have hsplit := @queue_split _ Revert.timeMs cfg.windowMs hw (pageReverts cfg host o.1.pageKey (seen ++ [o]))
  have hspread := @spread_iff _ Revert.timeMs cfg.windowMs hw (pageReverts cfg host o.1.pageKey (seen ++ [o]))
  generalize hheld : queue Revert.timeMs cfg.windowMs (pageReverts cfg host o.1.pageKey (seen ++ [o])) = held at *
  obtain ⟨gone, hgone, _⟩ := hsplit
  have hsuffix : held <:+ pageReverts cfg host o.1.pageKey (seen ++ [o]) := ⟨gone, hgone.symm⟩
  have hsub : ∀ x ∈ held, x ∈ pageReverts cfg host o.1.pageKey (seen ++ [o]) := fun x hx => hsuffix.subset hx
  have hlist : ∀ id, id ∈ alert.eventIds ↔ ∃ x ∈ held, x.eventId = id := by
    intro id
    rw [hevents, List.mem_map]
    exact exists_congr (fun x => and_congr_left (fun _ => mem_sortReverts))
  rw [← hspread]
  constructor
  · intro hreal x hx y hy
    obtain ⟨a, ha, rfl⟩ := exists_listed hids hsub hlist hx
    obtain ⟨b, hb, rfl⟩ := exists_listed hids hsub hlist hy
    have := hreal.close a ha b hb
    show b.2 ≤ a.2 + cfg.windowMs
    omega
  · intro hclose
    have hclose' : ∀ a ∈ listed (seen ++ [o]) alert, ∀ b ∈ listed (seen ++ [o]) alert,
        b.2 - a.2 ≤ cfg.windowMs := by
      intro a ha b hb
      have hle : b.2 ≤ a.2 + cfg.windowMs :=
        hclose _ ((mem_listed_iff hids hsub hlist).mp ha).2.2.2 _ ((mem_listed_iff hids hsub hlist).mp hb).2.2.2
      omega
    refine ⟨?_, ?_, ?_, ?_, ?_, hclose', ?_⟩
    · rw [hevents]
      exact ((perm_sortReverts held).map Revert.eventId).nodup_iff.mpr
        ((nodup_pageReverts hids o.1.pageKey).sublist (hsuffix.sublist.map _))
    · rw [hevents, List.length_map, length_sortReverts]
      exact hisWar.1
    · intro id hid
      obtain ⟨x, hx, rfl⟩ := (hlist id).mp hid
      obtain ⟨a, ha, rfl⟩ := exists_listed hids hsub hlist hx
      exact ⟨a, (mem_listed.mp ha).1, rfl⟩
    · intro a ha
      obtain ⟨_, hca, hpa, _⟩ := (mem_listed_iff hids hsub hlist).mp ha
      exact ⟨hca, hpa.trans hpage.symm⟩
    · -- every user of a revert held is one of a listed observation
      refine hisWar.2.trans ?_
      have hsubset : usersOf held ⊆ ((listed (seen ++ [o]) alert).map (fun o => o.1.user)).dedup := by
        intro user huser
        obtain ⟨x, hx, rfl⟩ := List.mem_map.mp (List.mem_dedup.mp huser)
        obtain ⟨a, ha, rfl⟩ := exists_listed hids hsub hlist hx
        exact List.mem_dedup.mpr (List.mem_map_of_mem ha)
      exact Int.ofNat_le.mpr (List.subperm_of_subset (List.nodup_dedup _) hsubset).length_le
    · obtain ⟨a, ha, haeq⟩ := exists_listed hids hsub hlist (mem_sortReverts.mp hfirst)
      obtain ⟨b, hb, hbeq⟩ := exists_listed hids hsub hlist (mem_sortReverts.mp hlast)
      rw [← haeq] at hstart
      rw [← hbeq] at hstop
      exact ⟨a, ha, b, hb, hstart, hstop, hclose' a ha b hb⟩

theorem exists_alert {x : Except Exc (Option EditWarAlert)} {ids : List Str}
    (h : x.toOption.join.map EditWarAlert.eventIds = some ids) :
    ∃ alert, x = .ok (some alert) ∧ alert.eventIds = ids := by
  cases x with
  | error e => exact absurd (show (none : Option (List Str)) = some ids from h) (by simp)
  | ok a =>
      cases a with
      | none => exact absurd (show (none : Option (List Str)) = some ids from h) (by simp)
      | some alert => exact ⟨alert, rfl, Option.some.inj h⟩

/-- Three reverts by two people within two minutes. -/
theorem alert_real_three :
    let seen := [revertBy "T" "u" "a" 0, revertBy "T" "v" "b" 60000]
    let o := revertBy "T" "u" "c" 120000
    ∃ alert, RealWar {} revertHost (seen ++ [o]) alert := by
  intro seen o
  have hsome : ((observe {} revertHost (after {} revertHost {} seen) o.1 o.2).1).toOption.join.map
      EditWarAlert.eventIds = some [lit "a", lit "b", lit "c"] := by decide +kernel
  obtain ⟨alert, h, _⟩ := exists_alert hsome
  have hpage : alert.pageKey = o.1.pageKey := by
    obtain ⟨_, _, _, halert⟩ := observe_alert h
    exact (alertOf_eq_ok halert).1
  refine ⟨alert, (alert_real_iff {} revertHost seen o alert (by decide) (by decide +kernel) h).mpr ?_⟩
  rw [hpage]
  -- nothing is out of date
  have hnew : ∀ y ∈ pageReverts {} revertHost o.1.pageKey (seen ++ [o]),
      ∀ z ∈ pageReverts {} revertHost o.1.pageKey (seen ++ [o]), ¬ y.timeMs + minuteMs * 30 < z.timeMs := by
    decide +kernel
  refine List.pairwise_of_forall_mem_list (fun a _ b hb hold => ?_)
  obtain ⟨c, hc, hbc⟩ := hold
  exact absurd hbc (hnew b hb c hc)

/-- A revert of 100 minutes before, arriving between two others, ends up in one alert with them. -/
theorem late_revert_stretches_alert :
    let seen := [revertBy "T" "u" "a" 6000000, revertBy "T" "v" "b" 0]
    let o := revertBy "T" "u" "c" 6000001
    ((seen ++ [o]).map (fun o => o.1.eventId)).Nodup ∧
      ∃ alert, (observe {} revertHost (after {} revertHost {} seen) o.1 o.2).1 = .ok (some alert) ∧
        alert.eventIds = [lit "b", lit "a", lit "c"] ∧ ¬ RealWar {} revertHost (seen ++ [o]) alert := by
  intro seen o
  have hsome : ((observe {} revertHost (after {} revertHost {} seen) o.1 o.2).1).toOption.join.map
      EditWarAlert.eventIds = some [lit "b", lit "a", lit "c"] := by decide +kernel
  obtain ⟨alert, h, hids⟩ := exists_alert hsome
  refine ⟨by decide +kernel, alert, h, hids, ?_⟩
  intro hreal
  have hlisted : ∀ x ∈ seen ++ [o], x ∈ listed (seen ++ [o]) alert := by
    have hall : ∀ x ∈ seen ++ [o], x.1.eventId ∈ [lit "b", lit "a", lit "c"] := by decide +kernel
    intro x hx
    exact mem_listed.mpr ⟨hx, hids ▸ hall x hx⟩
  have hclose := hreal.close (revertBy "T" "v" "b" 0) (hlisted _ (by simp [seen]))
    (revertBy "T" "u" "a" 6000000) (hlisted _ (by simp [seen]))
  exact absurd hclose (by decide)

/-! ## One alert per war -/

/-- The `alerted_until_ms` of a page after the observations. -/
def untilAfter (cfg : Config) (host : Host) (obs : List Obs) (page : Str) : Int :=
  (pageOf (after cfg host {} obs) page).alertedUntilMs

/-- `o` is a revert that is absorbed after `seen`. -/
def IsAbsorbed (cfg : Config) (host : Host) (seen : List Obs) (o : Obs) : Prop :=
  counts cfg host o.1 = true ∧ o.2 ≤ untilAfter cfg host seen o.1.pageKey

/-- `o` raises an alert after `seen`. -/
def Alerts (cfg : Config) (host : Host) (seen : List Obs) (o : Obs) : Prop :=
  ∃ alert, (observe cfg host (after cfg host {} seen) o.1 o.2).1 = .ok (some alert)

/-- Once a revert has raised an alert or been absorbed, no later revert of its page up to a window after it
    raises another. -/
def AlertsOnce (cfg : Config) (host : Host) (obs : List Obs) : Prop :=
  ∀ seen o between o' rest, obs = seen ++ o :: between ++ o' :: rest →
    Alerts cfg host seen o ∨ IsAbsorbed cfg host seen o → o'.1.pageKey = o.1.pageKey →
    o'.2 ≤ o.2 + cfg.windowMs → ¬ Alerts cfg host (seen ++ o :: between) o'

/-- No `alerted_until_ms` ever decreases. -/
def NeverMovesBack (cfg : Config) (host : Host) (obs : List Obs) : Prop :=
  ∀ seen o rest, obs = seen ++ o :: rest →
    ∀ page, untilAfter cfg host seen page ≤ untilAfter cfg host (seen ++ [o]) page

/-- No absorbed revert is older than the one that alerted or was absorbed last on its page: the page is not
    suppressed for more than a window from it. -/
def NoneOlder (cfg : Config) (host : Host) (obs : List Obs) : Prop :=
  ∀ seen o rest, obs = seen ++ o :: rest → IsAbsorbed cfg host seen o →
    untilAfter cfg host seen o.1.pageKey ≤ o.2 + cfg.windowMs

variable {seen obs : List Obs} {o : Obs}

/-- **What one observation does to the suppression of a page.** -/
theorem untilAfter_snoc (page : Str) :
    (untilAfter cfg host (seen ++ [o]) page = untilAfter cfg host seen page ∧
      ¬ (o.1.pageKey = page ∧ (IsAbsorbed cfg host seen o ∨ Alerts cfg host seen o))) ∨
    (o.1.pageKey = page ∧ counts cfg host o.1 = true ∧
      untilAfter cfg host (seen ++ [o]) page = o.2 + cfg.windowMs ∧
      (o.2 ≤ untilAfter cfg host seen page ∨
        untilAfter cfg host seen page < o.2 ∧ IsWar cfg (heldFor cfg host seen o))) := by
  unfold untilAfter
  rw [after_snoc, pageOf_observe]
  by_cases hp : counts cfg host o.1 = true ∧ o.1.pageKey = page
  · rw [if_pos hp]
    obtain ⟨hc, rfl⟩ := hp
    rcases @observePage_cases cfg (pageOf (after cfg host {} seen) o.1.pageKey) (revertOf o.1 o.2) with
      ⟨hle, hobs⟩ | ⟨hlt, hwar, hobs⟩ | ⟨hlt, hwar, hobs⟩
    · rw [hobs]
      exact Or.inr ⟨rfl, hc, rfl, Or.inl hle⟩
    · rw [hobs]
      exact Or.inr ⟨rfl, hc, rfl, Or.inr ⟨hlt, hwar⟩⟩
    · rw [hobs]
      refine Or.inl ⟨rfl, ?_⟩
      rintro ⟨_, habs | ⟨alert, halert⟩⟩
      · exact absurd (show o.2 ≤ _ from habs.2) (Int.not_le.mpr hlt)
      · obtain ⟨_, war, hsome, _⟩ := observe_alert halert
        rw [hobs] at hsome
        exact absurd hsome (by simp)
  · rw [if_neg hp]
    refine Or.inl ⟨rfl, ?_⟩
    rintro ⟨hpage, habs | ⟨alert, halert⟩⟩
    · exact hp ⟨habs.1, hpage⟩
    · exact hp ⟨(observe_alert halert).1, hpage⟩

theorem untilAfter_touched (h : Alerts cfg host seen o ∨ IsAbsorbed cfg host seen o) :
    untilAfter cfg host (seen ++ [o]) o.1.pageKey = o.2 + cfg.windowMs := by
  rcases @untilAfter_snoc cfg host seen o o.1.pageKey with
    ⟨_, hnot⟩ | ⟨_, _, heq, _⟩
  · exact absurd ⟨rfl, h.symm⟩ hnot
  · exact heq

/-- A revert within the suppression of its page raises nothing. -/
theorem not_alerts (h : o.2 ≤ untilAfter cfg host seen o.1.pageKey) : ¬ Alerts cfg host seen o := by
  rintro ⟨alert, halert⟩
  obtain ⟨_, war, hsome, _⟩ := observe_alert halert
  exact absurd (war_eq hsome).1 (Int.not_lt.mpr h)

/-- With a negative window no page holds a revert, so there is nothing to alert about. -/
theorem not_alerts_of_neg (hw : cfg.windowMs < 0) : ¬ Alerts cfg host seen o := by
  have hempty : ∀ past : List Revert, queue Revert.timeMs cfg.windowMs past = [] := by
    intro past
    induction past using List.reverseRecOn with
    | nil => rfl
    | append_singleton past r ih =>
        rw [queue_snoc, ih]
        have hgone : r.timeMs < r.timeMs - cfg.windowMs := by omega
        rw [push, evict, List.nil_append, List.dropWhile_cons_of_pos (by simpa using hgone)]
        rfl
  rintro ⟨alert, halert⟩
  obtain ⟨hc, war, hsome, hok⟩ := observe_alert halert
  have hwar : war = sortReverts (heldFor cfg host seen o) := (war_eq hsome).2.2
  rw [heldFor_eq_queue hc, hempty] at hwar
  rw [hwar] at hok
  exact absurd hok (by simp [sortReverts, alertOf])

/-- Without older absorbed reverts the suppression only grows. -/
theorem NoneOlder.neverMovesBack (hw : 0 ≤ cfg.windowMs) (h : NoneOlder cfg host obs) :
    NeverMovesBack cfg host obs := by
  intro seen o rest hobs page
  rcases @untilAfter_snoc cfg host seen o page with
    ⟨heq, _⟩ | ⟨rfl, hc, heq, hle | ⟨hlt, _⟩⟩
  · exact heq.ge
  · rw [heq]
    exact h seen o rest hobs ⟨hc, hle⟩
  · rw [heq]
    omega

theorem NeverMovesBack.noneOlder (h : NeverMovesBack cfg host obs) : NoneOlder cfg host obs := by
  intro seen o rest hobs habs
  have hle := h seen o rest hobs o.1.pageKey
  rwa [untilAfter_touched (Or.inr habs)] at hle

theorem NeverMovesBack.le_append (h : NeverMovesBack cfg host obs) {between rest : List Obs}
    (hobs : obs = seen ++ between ++ rest) (page : Str) :
    untilAfter cfg host seen page ≤ untilAfter cfg host (seen ++ between) page := by
  induction between using List.reverseRecOn generalizing rest with
  | nil => rw [List.append_nil]
  | append_singleton between o ih =>
      have hstep := h (seen ++ between) o rest (by rw [hobs]; simp) page
      have ih := @ih (o :: rest) (by rw [hobs]; simp)
      rw [← List.append_assoc]
      exact ih.trans hstep

/-- **A war alerts once when no absorbed revert is older than the last that counted for it**, and the
    suppression never moves back exactly then. -/
theorem alerts_once (cfg : Config) (host : Host) (obs : List Obs) :
    (NoneOlder cfg host obs → AlertsOnce cfg host obs) ∧
      (0 ≤ cfg.windowMs → (NeverMovesBack cfg host obs ↔ NoneOlder cfg host obs)) := by
  refine ⟨?_, fun hw => ⟨NeverMovesBack.noneOlder, NoneOlder.neverMovesBack hw⟩⟩
  intro h seen o between o' rest hobs htouched hpage hle
  by_cases hw : 0 ≤ cfg.windowMs
  · have hback := h.neverMovesBack hw
    apply not_alerts
    have hgrows := @NeverMovesBack.le_append cfg host (seen ++ [o]) _ hback between (o' :: rest)
      (by rw [hobs]; simp) o.1.pageKey
    rw [untilAfter_touched htouched, List.append_assoc, List.singleton_append] at hgrows
    rw [hpage]
    exact hle.trans hgrows
  · exact not_alerts_of_neg (Int.not_le.mp hw)

/-- A war whose reverts arrive in order: the third alerts, the fourth is absorbed, and the fifth raises no second
    alert. -/
theorem war_told_quietly :
    let seen := [revertBy "T" "u" "a" 3600000, revertBy "T" "v" "b" 3660000]
    let third := revertBy "T" "u" "c" 3720000
    let fourth := revertBy "T" "v" "d" 3780000
    let fifth := revertBy "T" "u" "e" 5500000
    Alerts {} revertHost seen third ∧ IsAbsorbed {} revertHost (seen ++ [third]) fourth ∧
      ¬ Alerts {} revertHost (seen ++ [third, fourth]) fifth := by
  intro seen third fourth fifth
  have hthird : ((observe {} revertHost (after {} revertHost {} seen) third.1 third.2).1).toOption.join.map
      EditWarAlert.eventIds = some [lit "a", lit "b", lit "c"] := by decide +kernel
  obtain ⟨alert, halert, _⟩ := exists_alert hthird
  have hfourth : IsAbsorbed {} revertHost (seen ++ [third]) fourth := by
    unfold IsAbsorbed
    decide +kernel
  refine ⟨⟨alert, halert⟩, hfourth, ?_⟩
  have hall : ∀ i : Fin 5, ∀ o ∈ (seen ++ [third, fourth, fifth])[i.val]?,
      o.2 ≤ untilAfter {} revertHost ((seen ++ [third, fourth, fifth]).take i) o.1.pageKey →
        untilAfter {} revertHost ((seen ++ [third, fourth, fifth]).take i) o.1.pageKey ≤ o.2 + 1800000 := by
    decide +kernel
  have hnone : NoneOlder {} revertHost (seen ++ [third, fourth, fifth]) := by
    intro before o rest hobs habs
    have hlen : before.length < 5 := by
      have := congrArg List.length hobs
      simp only [List.length_append, List.length_cons] at this
      simp only [seen, List.length_cons, List.length_nil] at this
      omega
    have h := hall ⟨before.length, hlen⟩ o
    rw [hobs, List.take_left, List.getElem?_append_right le_rfl, Nat.sub_self] at h
    exact h rfl habs.2
  exact (alerts_once {} revertHost _).1 hnone seen third [fourth] fifth [] rfl (Or.inl ⟨alert, halert⟩) rfl (by decide)

/-- The fourth revert of a war is absorbed but half an hour older; the fifth, well within the window of the third,
    alerts again. -/
theorem older_revert_alerts_again :
    let seen := [revertBy "T" "u" "a" 3600000, revertBy "T" "v" "b" 3660000]
    let third := revertBy "T" "u" "c" 3720000
    let fourth := revertBy "T" "v" "d" 1800000
    let fifth := revertBy "T" "v" "e" 3720001
    Alerts {} revertHost seen third ∧ fifth.2 ≤ third.2 + minuteMs * 30 ∧
      Alerts {} revertHost (seen ++ [third, fourth]) fifth ∧
      ¬ AlertsOnce {} revertHost (seen ++ [third, fourth, fifth]) := by
  intro seen third fourth fifth
  have hthird : ((observe {} revertHost (after {} revertHost {} seen) third.1 third.2).1).toOption.join.map
      EditWarAlert.eventIds = some [lit "a", lit "b", lit "c"] := by decide +kernel
  have hfifth : ((observe {} revertHost (after {} revertHost {} (seen ++ [third, fourth])) fifth.1
      fifth.2).1).toOption.join.map EditWarAlert.eventIds =
        some [lit "d", lit "a", lit "b", lit "c", lit "e"] := by decide +kernel
  obtain ⟨alert, halert, _⟩ := exists_alert hthird
  obtain ⟨alert', halert', _⟩ := exists_alert hfifth
  refine ⟨⟨alert, halert⟩, by decide, ⟨alert', halert'⟩, ?_⟩
  intro honce
  exact honce seen third [fourth] fifth [] rfl (Or.inl ⟨alert, halert⟩) rfl (by decide) ⟨alert', halert'⟩

end EditWarDetector
end Wikistream
