import Mathlib.Data.List.Chain
import Wikistream.Correctness.EditWarOrdered
import Wikistream.Processors.EditWar
import Wikistream.Python.JsonRoundTrip

/-!
# `Correctness.EditWarRestart` — when a restart changes no alert

A warm-up replays one window of history. Which reverts a page holds depends on no more than that. Whether it has
alerted does: a war goes on for as long as each of its reverts follows the one before within a window, so the revert
that alerted can be much older.

## Contents
- **Wars that go on** (`Ongoing`, `absorbed_iff`): what the detector's moving time says about the reverts themselves.
- **A history that is cut** (`windowAt_fresh`, `Ongoing.of_fresh`, `warOf_fresh`).
- **Two processors** (`processed`, `restarted`), and what their detectors hold.
- **The result** (`same_alerts_iff`), and a war that alerts again (`war_alerts_again`).
-/

namespace Wikistream
namespace EditWarDetector

open Py Lib Models SlidingWindow

variable {cfg : Config} {host : Host} {past : List Revert} {x r : Revert} {cutoff : Int}

/-! ## Wars that go on -/

/-- The revert comes within a window. -/
def Follows (cfg : Config) (a b : Revert) : Prop := b.timeMs ≤ a.timeMs + cfg.windowMs

/-- A war goes on at `r`: after some revert there was a war in the window, and from there on each revert follows the
    one before within a window, up to `r`. -/
def Ongoing (cfg : Config) (past : List Revert) (r : Revert) : Prop :=
  ∃ before q between, past = before ++ q :: between ∧ IsWar cfg (windowAt cfg before q) ∧
    (q :: between ++ [r]).IsChain (Follows cfg)

theorem not_ongoing_nil : ¬ Ongoing cfg [] r := by
  rintro ⟨before, q, between, h, _⟩
  exact absurd h (by simp)

/-- One more revert: the war starts with it or goes on at it, if `r` follows. -/
theorem ongoing_snoc :
    Ongoing cfg (past ++ [x]) r ↔
      Follows cfg x r ∧ (IsWar cfg (windowAt cfg past x) ∨ Ongoing cfg past x) := by
  constructor
  · rintro ⟨before, q, between, hsplit, hwar, hchain⟩
    -- the war that goes on is that of `x`, or one that `x` has kept going
    rcases List.eq_nil_or_concat between with rfl | ⟨between, y, rfl⟩
    · obtain ⟨rfl, hq⟩ := List.append_inj' hsplit rfl
      obtain rfl := List.singleton_inj.mp hq
      exact ⟨List.isChain_pair.mp hchain, Or.inl hwar⟩
    · have hsplit' : past ++ [x] = (before ++ q :: between) ++ [y] := by
        rw [hsplit, List.concat_eq_append, List.append_assoc, List.cons_append]
      obtain ⟨rfl, hy⟩ := List.append_inj' hsplit' rfl
      obtain rfl := List.singleton_inj.mp hy
      have hchain' : (q :: between ++ [x] ++ [r]).IsChain (Follows cfg) := by
        rwa [List.concat_eq_append] at hchain
      obtain ⟨hinit, _, hlast⟩ := List.isChain_append.mp hchain'
      exact ⟨hlast x List.getLast?_concat r rfl, Or.inr ⟨before, q, between, rfl, hwar, hinit⟩⟩
  · rintro ⟨hfollows, hwar | ⟨before, q, between, rfl, hwar, hchain⟩⟩
    · exact ⟨past, x, [], rfl, hwar, List.isChain_pair.mpr hfollows⟩
    · refine ⟨before, q, between ++ [x], by simp, hwar, ?_⟩
      have hlast : (q :: between ++ [x] ++ [r]).IsChain (Follows cfg) := by
        refine List.isChain_append.mpr ⟨hchain, List.isChain_singleton r, ?_⟩
        intro a ha b hb
        obtain rfl : x = a := Option.some.inj (List.getLast?_concat.symm.trans ha)
        obtain rfl : r = b := Option.some.inj hb
        exact hfollows
      exact hlast

/-- **On ordered input the moving time tells whether a war goes on.** -/
theorem absorbed_iff (h : InOrder Revert.timeMs (past ++ [r])) :
    Absorbed cfg (lastTouched cfg past) r ↔ Ongoing cfg past r := by
  induction past using List.reverseRecOn generalizing r with
  | nil => exact iff_of_false (fun ⟨_, hu, _⟩ => absurd hu (by simp [lastTouched])) not_ongoing_nil
  | append_singleton past x ih =>
      have hpast : InOrder Revert.timeMs (past ++ [x]) := h.sublist (List.sublist_append_left _ _)
      have hle : x.timeMs ≤ r.timeMs := h.le_last x (by simp)
      rw [ongoing_snoc, ← ih hpast, lastTouched_snoc]
      by_cases htouched : Absorbed cfg (lastTouched cfg past) x ∨ IsWar cfg (windowAt cfg past x)
      · rw [if_pos htouched, and_iff_left htouched.symm]
        constructor
        · rintro ⟨u, hu, hlt⟩
          obtain rfl := Option.some.inj hu
          exact hlt
        · exact fun hfollows => ⟨x.timeMs, rfl, hfollows⟩
      · rw [if_neg htouched]
        refine iff_of_false ?_ (fun hongoing => htouched hongoing.2.symm)
        -- a war that was over at `x` is over later
        rintro ⟨u, hu, hlt⟩
        exact htouched (Or.inl ⟨u, hu, hle.trans hlt⟩)

/-! ## A history that is cut -/

/-- More reverts make no war smaller. -/
theorem isWar_of_sublist {reverts reverts' : List Revert} (h : reverts.Sublist reverts') (hwar : IsWar cfg reverts) :
    IsWar cfg reverts' := by
  have husers : usersOf reverts ⊆ usersOf reverts' := by
    intro user huser
    obtain ⟨x, hx, rfl⟩ := List.mem_map.mp (List.mem_dedup.mp huser)
    exact List.mem_dedup.mpr (List.mem_map_of_mem (h.subset hx))
  have hlength := (List.subperm_of_subset (List.nodup_dedup _) husers).length_le
  exact ⟨hwar.1.trans (Int.ofNat_le.mpr h.length_le), hwar.2.trans (Int.ofNat_le.mpr hlength)⟩

/-- The reverts that are not older than the cutoff. -/
def fresh (cutoff : Int) (reverts : List Revert) : List Revert := reverts.filter (fun x => cutoff ≤ x.timeMs)

/-- A window that begins behind the cutoff loses nothing. -/
theorem windowAt_fresh (h : cutoff ≤ r.timeMs - cfg.windowMs) :
    windowAt cfg (fresh cutoff past) r = windowAt cfg past r := by
  unfold windowAt fresh
  rw [List.filter_append, List.filter_append, List.filter_filter]
  congr 1
  apply List.filter_congr
  intro y _
  by_cases hy : r.timeMs - cfg.windowMs ≤ y.timeMs
  · simp [h.trans hy]
  · simp [hy]

/-- **Cutting the history starts no war**: what goes on without the old reverts goes on with them. -/
theorem Ongoing.of_fresh (horder : InOrder Revert.timeMs past) (h : Ongoing cfg (fresh cutoff past) r) :
    Ongoing cfg past r := by
  induction past using List.reverseRecOn generalizing r with
  | nil => exact absurd h not_ongoing_nil
  | append_singleton past x ih =>
      -- a revert that is fresh keeps the war of the reverts before it going
      by_cases hx : cutoff ≤ x.timeMs
      · have hsplit : fresh cutoff (past ++ [x]) = fresh cutoff past ++ [x] := by
          unfold fresh
          rw [List.filter_append, List.filter_cons_of_pos (by simpa using hx), List.filter_nil]
        rw [hsplit] at h
        obtain ⟨hfollows, hwar⟩ := ongoing_snoc.mp h
        refine ongoing_snoc.mpr ⟨hfollows, hwar.imp ?_ ?_⟩
        · apply isWar_of_sublist
          exact ((List.filter_sublist.append_right [x]).filter _)
        · exact ih (horder.sublist (List.sublist_append_left _ _))
      · -- the last revert is old, and with it all of them
        have hnil : fresh cutoff (past ++ [x]) = [] := by
          apply List.filter_eq_nil_iff.mpr
          intro y hy
          have := horder.le_last y hy
          simp only [decide_eq_true_eq, not_le]
          omega
        rw [hnil] at h
        exact absurd h not_ongoing_nil

theorem warOf_eq (h : InOrder Revert.timeMs (past ++ [r])) :
    (Ongoing cfg past r ∧ warOf cfg past r = none) ∨
      (¬ Ongoing cfg past r ∧
        warOf cfg past r =
          if IsWar cfg (windowAt cfg past r) then some (sortReverts (windowAt cfg past r)) else none) := by
  rw [← absorbed_iff h]
  unfold warOf
  by_cases habsorbed : Absorbed cfg (lastTouched cfg past) r
  · exact Or.inl ⟨habsorbed, if_pos habsorbed⟩
  · exact Or.inr ⟨habsorbed, if_neg habsorbed⟩

/-- **The cut is not seen** unless a war is in the window and goes on in the whole history only. -/
theorem warOf_fresh (horder : InOrder Revert.timeMs (past ++ [r])) (h : cutoff ≤ r.timeMs - cfg.windowMs)
    (hshown : IsWar cfg (windowAt cfg past r) → Ongoing cfg past r → Ongoing cfg (fresh cutoff past) r) :
    warOf cfg (fresh cutoff past) r = warOf cfg past r := by
  have hcut : InOrder Revert.timeMs (fresh cutoff past ++ [r]) := horder.sublist (List.filter_sublist.append_right [r])
  have hof := @Ongoing.of_fresh cfg past r cutoff (horder.sublist (List.sublist_append_left _ _))
  -- the war goes on for all reverts, or it does not; then neither does it for the fresh ones
  rcases @warOf_eq cfg past r horder with ⟨hongoing, hfull⟩ | ⟨hover, hfull⟩
  · rcases @warOf_eq cfg (fresh cutoff past) r hcut with ⟨_, hwarm⟩ | ⟨hover', hwarm⟩
    · exact hwarm.trans hfull.symm
    · rw [hfull, hwarm, windowAt_fresh h]
      exact if_neg (fun hwar => hover' (hshown hwar hongoing))
  · rcases @warOf_eq cfg (fresh cutoff past) r hcut with ⟨hongoing', _⟩ | ⟨_, hwarm⟩
    · exact absurd (hof hongoing') hover
    · rw [hfull, hwarm, windowAt_fresh h]

/-- Where it is, the cut history starts a war that the whole one does not. -/
theorem warOf_hidden (horder : InOrder Revert.timeMs (past ++ [r])) (h : cutoff ≤ r.timeMs - cfg.windowMs)
    (hwar : IsWar cfg (windowAt cfg past r)) (hongoing : Ongoing cfg past r)
    (hover : ¬ Ongoing cfg (fresh cutoff past) r) :
    warOf cfg past r = none ∧ warOf cfg (fresh cutoff past) r = some (sortReverts (windowAt cfg past r)) := by
  have hcut : InOrder Revert.timeMs (fresh cutoff past ++ [r]) := horder.sublist (List.filter_sublist.append_right [r])
  constructor
  · rcases @warOf_eq cfg past r horder with ⟨_, hfull⟩ | ⟨hover', _⟩
    · exact hfull
    · exact absurd hongoing hover'
  · rcases @warOf_eq cfg (fresh cutoff past) r hcut with ⟨hongoing', _⟩ | ⟨_, hwarm⟩
    · exact absurd hongoing' hover
    · rw [hwarm, windowAt_fresh h, if_pos hwar]

/-! ## Alerts that can be told -/

/-- An alert about the event's page can be built: its texts are those of UTF-8, and `datetime` supports its time. -/
structure Tellable (event : CleanEvent) (timeMs : Int) : Prop where
  wiki : Py.Encodable event.wiki
  title : Py.Encodable event.title
  eventId : Py.Encodable event.eventId
  time : ∃ text, iso timeMs = .ok text

theorem exists_alertIdFor {wiki title eventId : Str} (hwiki : Py.Encodable wiki) (htitle : Py.Encodable title)
    (hid : Py.Encodable eventId) : ∃ id, alertIdFor wiki title eventId = .ok id := by
  have htext : Py.Encodable (wiki ++ 0 :: title ++ 0 :: eventId) := by
    rw [encodable_iff] at hwiki htitle hid ⊢
    have hzero : isSurrogate 0 = false := by decide
    intro c hc
    simp only [List.mem_append, List.mem_cons] at hc
    rcases hc with (hc | rfl | hc) | rfl | hc
    · exact hwiki c hc
    · exact hzero
    · exact htitle c hc
    · exact hzero
    · exact hid c hc
  unfold alertIdFor
  rw [utf8Encode_of_encodable htext]
  exact ⟨_, rfl⟩

/-- A war of tellable reverts becomes an alert. -/
theorem exists_alertOf {event : CleanEvent} {reverts : List Revert} (hwiki : Py.Encodable event.wiki)
    (htitle : Py.Encodable event.title) (hne : reverts ≠ [])
    (hreverts : ∀ x ∈ reverts, Py.Encodable x.eventId ∧ ∃ text, iso x.timeMs = .ok text) :
    ∃ alert, alertOf event reverts = .ok alert := by
  obtain ⟨first, hfirst⟩ := Option.ne_none_iff_exists'.mp (mt List.head?_eq_none_iff.mp hne)
  obtain ⟨last, hlast⟩ := Option.ne_none_iff_exists'.mp (mt List.getLast?_eq_none_iff.mp hne)
  obtain ⟨hid, start, hstart⟩ := hreverts first (List.mem_of_mem_head? hfirst)
  obtain ⟨_, stop, hstop⟩ := hreverts last (List.mem_of_mem_getLast? hlast)
  obtain ⟨id, hid⟩ := exists_alertIdFor hwiki htitle hid
  unfold alertOf
  rw [hfirst, hlast]
  dsimp only
  rw [hid, hstart, hstop]
  exact ⟨_, rfl⟩

end EditWarDetector

namespace EditWar

open Py Lib Models SlidingWindow Transform Warmup EditWarDetector Transactional

/-! ## Two processors -/

/-- A processor that handled the partition from its start up to offset `j`. -/
def processed (env : Env) (log : Log KafkaRecord) (p j : Nat) : Except Exc Detectors :=
  handleAll (handle env) Dict.empty (visible log p 0 j)

/-- A processor that was warmed at the committed offset `c` and handled the partition from there up to `j`. -/
def restarted (env : Env) (log : Log KafkaRecord) (committed : Dict Nat Nat) (answers : Answers) (p c j : Nat) :
    Except Exc Detectors :=
  match warm env log committed (fun _ => answers) Dict.empty [p] with
  | .error e => .error e
  | .ok detectors => handleAll (handle env) detectors (visible log p c j)

/-- What a processor in that state produces for the message: the alert, if it raises one. -/
def producedAt (env : Env) (state : Except Exc Detectors) (m : Message KafkaRecord) : Except Exc (List Produced) :=
  match state with
  | .error e => .error e
  | .ok detectors => (handle env detectors m).map Prod.snd

theorem producedAt_ok (env : Env) (detectors : Detectors) (m : Message KafkaRecord) :
    producedAt env (.ok detectors) m = (handle env detectors m).map Prod.snd := rfl

/-- The records of a `wiki.clean` partition: each has a timestamp, no earlier than those before it, and the event of
    a record has this time and can be told in an alert. -/
structure CleanPartition (host : Host) (log : Log KafkaRecord) (p : Nat) : Prop where
  stamped : ∀ o r, log p o = some r → 0 < r.timestamp
  ordered : TimeOrdered log p
  reads : ∀ o r, log p o = some r → clean host r = .ok none ∨
    ∃ event, clean host r = .ok (some (event, r.timestamp)) ∧ Tellable event r.timestamp

/-- The circumstances of the restart: the warm-up at the committed offset `c`, which is one past a record as long
    as one is left below it, gets its answers from the partition and does not reach `max_records`. -/
structure WarmStart (env : Env) (log : Log KafkaRecord) (committed : Dict Nat Nat) (answers : Answers)
    (p c : Nat) : Prop where
  window : env.replayer.windowMs = 30 * minuteMs
  offset : committed.get? p = some c
  last : ∀ o r, o < c → log p o = some r → ∃ last, log p (c - 1) = some last
  truthful : Truthful env.replayer log p c answers
  records : ∀ o r, o < c → log p o = some r → InWindow env.replayer log p c answers r →
    c - env.replayer.maxRecords ≤ o

/-- Where the window of the last committed record begins. -/
def cutoffAt (log : Log KafkaRecord) (p c : Nat) : Int :=
  ((log p (c - 1)).map KafkaRecord.timestamp).getD 0 - 30 * minuteMs

/-- The event of the message and the time it is observed under, if it is. -/
def observed (host : Host) (m : Message KafkaRecord) : Option Obs :=
  match clean host m.record with
  | .ok o => o
  | .error _ => none

/-- The observations of the messages. -/
def obsOf (host : Host) (ms : List (Message KafkaRecord)) : List Obs := ms.filterMap (observed host)

/-- The counted reverts of a page below offset `j`. -/
def pastOf (host : Host) (log : Log KafkaRecord) (p j : Nat) (page : Str) : List Revert :=
  pageReverts {} host page (obsOf host (visible log p 0 j))

variable {env : Env} {host : Host} {log : Log KafkaRecord} {p c j n : Nat} {r : KafkaRecord} {o : Obs}
variable {detectors detectors' : Detectors} {m : Message KafkaRecord} {ms : List (Message KafkaRecord)}
variable {committed : Dict Nat Nat} {answers : Answers} {event : CleanEvent} {page : Str}

/-! ## What the detectors hold -/

theorem observed_eq_some : observed host m = some o ↔ clean host m.record = .ok (some o) := by
  unfold observed
  cases clean host m.record with
  | error e => exact iff_of_false (by simp) (by simp)
  | ok found => exact ⟨fun h => congrArg _ h, fun h => Except.ok.inj h⟩

theorem observed_of_none (h : clean host m.record = .ok none) : observed host m = none := by
  unfold observed
  rw [h]

theorem mem_obsOf : o ∈ obsOf host ms ↔ ∃ m ∈ ms, clean host m.record = .ok (some o) := by
  unfold obsOf
  rw [List.mem_filterMap]
  exact exists_congr (fun m => and_congr_right (fun _ => observed_eq_some))

theorem obsOf_append (more : List (Message KafkaRecord)) : obsOf host (ms ++ more) = obsOf host ms ++ obsOf host more :=
  List.filterMap_append

theorem obsOf_singleton_none (h : clean host m.record = .ok none) : obsOf host [m] = [] :=
  List.filterMap_cons_none (observed_of_none h)

theorem obsOf_singleton_some (h : clean host m.record = .ok (some o)) : obsOf host [m] = [o] :=
  List.filterMap_cons_some (observed_eq_some.mpr h)

/-- **The detector after some messages** has observed their events. -/
theorem detectorFor_handleAll (hp : ∀ m ∈ ms, m.partition = p)
    (h : handleAll (handle env) detectors ms = .ok detectors') :
    detectorFor detectors' p = after {} env.host (detectorFor detectors p) (obsOf env.host ms) := by
  induction ms generalizing detectors with
  | nil =>
      obtain rfl := Except.ok.inj h
      rfl
  | cons m ms ih =>
      obtain ⟨mid, outs, hm, hrest⟩ := handleAll_cons.mp h
      obtain rfl := hp m List.mem_cons_self
      have hmore := ih (fun x hx => hp x (List.mem_cons_of_mem _ hx)) hrest
      rw [hmore, ← List.singleton_append, obsOf_append]
      rcases handle_cases hm with ⟨hnone, hsame⟩ | ⟨o, ho, hset⟩
      · rw [obsOf_singleton_none hnone, List.nil_append, show mid = detectors from hsame]
      · rw [obsOf_singleton_some ho, show mid = _ from hset, detectorFor_set, if_pos rfl]
        rfl

/-- The messages are records of the partition, in the order of their offsets. -/
structure Ranged (log : Log KafkaRecord) (p : Nat) (ms : List (Message KafkaRecord)) : Prop where
  members : ∀ m ∈ ms, m.partition = p ∧ Delivers log m
  sorted : ms.Pairwise (fun x y => x.offset < y.offset)

theorem ranged_visible (log : Log KafkaRecord) (p a b : Nat) : Ranged log p (visible log p a b) := by
  refine ⟨fun m hm => ?_, sorted_visible log p a b⟩
  obtain ⟨hp, _, _, hdel⟩ := mem_visible.mp hm
  exact ⟨hp, hdel⟩

theorem Ranged.sublist (h : Ranged log p ms) {fewer : List (Message KafkaRecord)} (hsub : fewer.Sublist ms) :
    Ranged log p fewer := ⟨fun m hm => h.members m (hsub.subset hm), h.sorted.sublist hsub⟩

/-- An observed event has its record's time. -/
theorem CleanPartition.time_eq (hlog : CleanPartition host log p) (hp : m.partition = p) (hdel : Delivers log m)
    (h : clean host m.record = .ok (some o)) : o.2 = m.record.timestamp ∧ Tellable o.1 o.2 := by
  subst hp
  rcases hlog.reads m.offset m.record hdel with hnone | ⟨event, hevent, htell⟩
  · exact absurd (hnone.symm.trans h) (by simp)
  · obtain rfl := Option.some.inj (Except.ok.inj (hevent.symm.trans h))
    exact ⟨rfl, htell⟩

/-- The times of the observations do not decrease, and are not negative. -/
theorem CleanPartition.obs_ordered (hlog : CleanPartition host log p) (hms : Ranged log p ms) :
    (obsOf host ms).Pairwise (fun a b => a.2 ≤ b.2) ∧ ∀ o ∈ obsOf host ms, 0 ≤ o.2 := by
  constructor
  · refine List.pairwise_filterMap.mpr (hms.sorted.imp_of_mem ?_)
    intro x y hx hy hlt a ha b hb
    obtain ⟨hxp, hxdel⟩ := hms.members x hx
    obtain ⟨hyp, hydel⟩ := hms.members y hy
    rw [(hlog.time_eq hxp hxdel (observed_eq_some.mp ha)).1, (hlog.time_eq hyp hydel (observed_eq_some.mp hb)).1]
    exact hlog.ordered x.offset y.offset x.record y.record hlt.le (hxp ▸ hxdel) (hyp ▸ hydel)
  · intro o ho
    obtain ⟨m, hm, hclean⟩ := mem_obsOf.mp ho
    obtain ⟨hp, hdel⟩ := hms.members m hm
    rw [(hlog.time_eq hp hdel hclean).1]
    exact (hlog.stamped m.offset m.record (hp ▸ hdel)).le

/-- What is answered to an event after those of the messages before it. -/
theorem CleanPartition.observe_eq (hlog : CleanPartition host log p) (hms : Ranged log p (ms ++ [m]))
    (h : clean host m.record = .ok (some o)) :
    (observe {} host (after {} host {} (obsOf host ms)) o.1 o.2).1 = specResult {} host (obsOf host ms) o := by
  obtain ⟨horder, hpos⟩ := hlog.obs_ordered hms
  rw [obsOf_append, obsOf_singleton_some h] at horder hpos
  exact observe_eq_specResult horder hpos

/-! ## The warm-up -/

theorem callEach_snoc {τ ε : Type} {onMessage : τ → Message KafkaRecord → Except ε (τ × Bool)} {t t' : τ}
    (h : callEach onMessage t ms = .ok t') : callEach onMessage t (ms ++ [m]) = (onMessage t' m).map Prod.fst := by
  induction ms generalizing t with
  | nil =>
      obtain rfl := Except.ok.inj h
      show callEach onMessage t [m] = _
      unfold callEach
      cases onMessage t m with
      | error e => rfl
      | ok result => rfl
  | cons x ms ih =>
      rw [List.cons_append, callEach]
      rw [callEach] at h
      split at h
      · exact absurd h (by simp)
      · next u used hu => exact ih h

/-- A revert of the window was observed, or is the one that asks. -/
theorem mem_windowAt {seen : List Obs} {page : Str} {r x : Revert}
    (h : x ∈ windowAt {} (pageReverts {} host page seen) r) : x = r ∨ ∃ o ∈ seen, revertOf o.1 o.2 = x := by
  rcases List.mem_append.mp (List.mem_of_mem_filter h) with hpast | hself
  · obtain ⟨o, ho, _, _, hrevert⟩ := mem_pageReverts.mp hpast
    exact Or.inr ⟨o, ho, hrevert⟩
  · exact Or.inl (List.mem_singleton.mp hself)

/-- What is answered to tellable events is no exception. -/
theorem exists_specResult {seen : List Obs} (hseen : ∀ o ∈ seen, Tellable o.1 o.2) (ho : Tellable o.1 o.2) :
    ∃ alert, specResult {} host seen o = .ok alert := by
  unfold specResult
  split
  · cases hwar : warOf {} (pageReverts {} host o.1.pageKey seen) (revertOf o.1 o.2) with
    | none => exact ⟨none, rfl⟩
    | some war =>
        unfold warOf at hwar
        split at hwar
        · exact absurd hwar (by simp)
        · split at hwar
          · next hisWar =>
              obtain rfl := Option.some.inj hwar
              have hne : sortReverts (windowAt {} (pageReverts {} host o.1.pageKey seen) (revertOf o.1 o.2)) ≠ [] := by
                intro hnil
                have hthree := hisWar.1
                rw [← length_sortReverts, hnil] at hthree
                exact absurd hthree (by decide)
              obtain ⟨alert, halert⟩ := exists_alertOf ho.wiki ho.title hne (fun x hx => by
                rcases mem_windowAt (mem_sortReverts.mp hx) with rfl | ⟨y, hy, rfl⟩
                · exact ⟨ho.eventId, ho.time⟩
                · exact ⟨(hseen y hy).eventId, (hseen y hy).time⟩)
              exact ⟨some alert, by rw [answer, halert]; rfl⟩
          · exact absurd hwar (by simp)
  · exact ⟨none, rfl⟩

/-- **The replay** leaves the detector that has observed its messages. -/
theorem callEach_replayInto (hlog : CleanPartition host log p) (hms : Ranged log p ms) :
    callEach (replayInto host) {} ms = .ok (after {} host {} (obsOf host ms)) := by
  induction ms using List.reverseRecOn with
  | nil => rfl
  | append_singleton ms m ih =>
      have hbefore := hms.sublist (List.sublist_append_left ms [m])
      rw [callEach_snoc (ih hbefore), obsOf_append]
      obtain ⟨hp, hdel⟩ := hms.members m (List.mem_append_right _ (List.mem_singleton_self m))
      unfold replayInto
      rcases hlog.reads m.offset m.record (hp ▸ hdel) with hnone | ⟨event, hevent, htell⟩
      · rw [hnone, obsOf_singleton_none hnone, List.append_nil]
        rfl
      · have hseen : ∀ o ∈ obsOf host ms, Tellable o.1 o.2 := by
          intro o ho
          obtain ⟨x, hx, hclean⟩ := mem_obsOf.mp ho
          obtain ⟨hxp, hxdel⟩ := hbefore.members x hx
          exact (hlog.time_eq hxp hxdel hclean).2
        obtain ⟨alert, halert⟩ := @exists_specResult host (event, m.record.timestamp) _ hseen htell
        rw [← hlog.observe_eq hms hevent] at halert
        rw [hevent, obsOf_singleton_some hevent, after_snoc]
        dsimp only
        cases hobserve : observe {} host (after {} host {} (obsOf host ms)) event m.record.timestamp with
        | mk result det =>
            rw [hobserve] at halert
            obtain rfl : result = .ok alert := halert
            rfl

/-! ## What a restart leaves out -/

theorem lastTime_le (hlog : CleanPartition host log p) (hc : c ≤ j) (hr : log p j = some r) :
    cutoffAt log p c ≤ r.timestamp - 30 * minuteMs := by
  unfold cutoffAt
  apply sub_le_sub_right
  cases hlast : log p (c - 1) with
  | none => exact (hlog.stamped j r hr).le
  | some last => exact hlog.ordered (c - 1) j last r ((Nat.sub_le c 1).trans hc) hlast hr

theorem mem_replayed_iff (hlog : CleanPartition env.host log p) (hstart : WarmStart env log committed answers p c) :
    m ∈ replayed env.replayer log p c answers ↔
      m ∈ visible log p 0 c ∧ cutoffAt log p c ≤ m.record.timestamp := by
  rw [mem_replayed hstart.truthful hlog.ordered hstart.records, mem_visible, and_assoc, and_assoc, and_assoc]
  refine and_congr_right (fun hp => ?_)
  rw [and_iff_right (Nat.zero_le m.offset)]
  refine and_congr_right (fun hlt => and_congr_right (fun hdel => ?_))
  obtain ⟨last, hlast⟩ := hstart.last m.offset m.record hlt (hp ▸ hdel)
  rw [InWindow, anchorTime_eq hstart.truthful hlast (hlog.stamped _ _ hlast), hstart.window]
  unfold cutoffAt
  rw [hlast]
  rfl

theorem ranged_replayed : Ranged log p (replayed env.replayer log p c answers) := by
  unfold replayed
  split
  · exact ranged_visible log p _ c
  · exact ⟨fun m hm => absurd hm (by simp), List.Pairwise.nil⟩

/-- **A restarted processor has seen** the records that are not older than the window. -/
theorem replayed_append (hlog : CleanPartition env.host log p) (hstart : WarmStart env log committed answers p c)
    (hcj : c ≤ j) :
    replayed env.replayer log p c answers ++ visible log p c j =
      (visible log p 0 j).filter (fun m => cutoffAt log p c ≤ m.record.timestamp) := by
  -- the replay hands out what is late enough, and everything behind the offset is
  have hreplayed : replayed env.replayer log p c answers =
      (visible log p 0 c).filter (fun m => cutoffAt log p c ≤ m.record.timestamp) := by
    apply eq_of_sorted ranged_replayed.sorted ((sorted_visible log p 0 c).filter _)
    intro m
    rw [mem_replayed_iff hlog hstart, List.mem_filter, decide_eq_true_eq]
  have hlater : (visible log p c j).filter (fun m => cutoffAt log p c ≤ m.record.timestamp) = visible log p c j := by
    apply List.filter_eq_self.mpr
    intro m hm
    obtain ⟨rfl, hle, _, hdel⟩ := mem_visible.mp hm
    have := lastTime_le hlog hle hdel
    have hminute : (0 : Int) ≤ 30 * minuteMs := by decide
    exact decide_eq_true (by omega)
  rw [visible_append log p (Nat.zero_le c) hcj, List.filter_append, hlater, hreplayed]

/-- Of a page's reverts it has seen the fresh ones. -/
theorem pageReverts_filter (hlog : CleanPartition host log p) (hms : Ranged log p ms) (cutoff : Int) (page : Str) :
    pageReverts {} host page (obsOf host (ms.filter (fun m => cutoff ≤ m.record.timestamp))) =
      fresh cutoff (pageReverts {} host page (obsOf host ms)) := by
  induction ms using List.reverseRecOn with
  | nil => rfl
  | append_singleton ms m ih =>
      have hbefore := ih (hms.sublist (List.sublist_append_left ms [m]))
      obtain ⟨hp, hdel⟩ := hms.members m (List.mem_append_right _ (List.mem_singleton_self m))
      have hfresh : ∀ xs ys, fresh cutoff (xs ++ ys) = fresh cutoff xs ++ fresh cutoff ys := fun xs ys =>
        List.filter_append xs ys
      have happend : ∀ xs ys : List Obs, pageReverts {} host page (xs ++ ys) =
          pageReverts {} host page xs ++ pageReverts {} host page ys := fun xs ys => List.filterMap_append
      rw [List.filter_append, obsOf_append, obsOf_append, happend, happend, hbefore, hfresh]
      congr 1
      -- a revert has the time of its message, so both filters keep it or drop it
      cases ho : observed host m with
      | none =>
          have hnil : obsOf host [m] = [] := List.filterMap_cons_none ho
          rw [hnil]
          by_cases hcut : cutoff ≤ m.record.timestamp
          · rw [List.filter_cons_of_pos (by simpa using hcut), List.filter_nil, hnil]
            rfl
          · rw [List.filter_cons_of_neg (by simpa using hcut), List.filter_nil]
            rfl
      | some o =>
          have hone : obsOf host [m] = [o] := List.filterMap_cons_some ho
          have htime := (hlog.time_eq hp hdel (observed_eq_some.mp ho)).1
          have hreverts : ∀ x ∈ pageReverts {} host page [o], x.timeMs = m.record.timestamp := by
            intro x hx
            obtain ⟨y, hy, _, _, rfl⟩ := mem_pageReverts.mp hx
            rw [List.mem_singleton.mp hy]
            exact htime
          rw [hone]
          unfold fresh
          by_cases hcut : cutoff ≤ m.record.timestamp
          · rw [List.filter_cons_of_pos (by simpa using hcut), List.filter_nil, hone]
            exact (List.filter_eq_self.mpr (fun x hx => by simpa [hreverts x hx] using hcut)).symm
          · rw [List.filter_cons_of_neg (by simpa using hcut), List.filter_nil]
            exact (List.filter_eq_nil_iff.mpr (fun x hx => by simpa [hreverts x hx] using hcut)).symm

/-- The warm-up leaves the detector that has observed the records of the window. -/
theorem warm_eq (hlog : CleanPartition env.host log p) (hstart : WarmStart env log committed answers p c) :
    warm env log committed (fun _ => answers) Dict.empty [p] =
      .ok (Dict.empty.set p (after {} env.host {} (obsOf env.host (replayed env.replayer log p c answers)))) := by
  have hreplay := @replay_truthful Detector Exc env.replayer log p c .kafkaException (replayInto env.host) answers
    hstart.truthful {}
  rw [callEach_replayInto hlog ranged_replayed] at hreplay
  obtain ⟨⟨det, result⟩, hok, rfl⟩ := map_eq_ok.mp hreplay
  unfold warm warmOne
  rw [hstart.offset]
  dsimp only
  rw [hok]
  rfl

theorem restarted_eq (hlog : CleanPartition env.host log p) (hstart : WarmStart env log committed answers p c) :
    restarted env log committed answers p c j = handleAll (handle env)
      (Dict.empty.set p (after {} env.host {} (obsOf env.host (replayed env.replayer log p c answers))))
      (visible log p c j) := by
  unfold restarted
  rw [warm_eq hlog hstart]

/-- **What a restarted processor answers from.** -/
theorem detectorFor_restarted (hlog : CleanPartition env.host log p)
    (hstart : WarmStart env log committed answers p c) (hcj : c ≤ j)
    (h : restarted env log committed answers p c j = .ok detectors) :
    detectorFor detectors p = after {} env.host {}
      (obsOf env.host ((visible log p 0 j).filter (fun m => cutoffAt log p c ≤ m.record.timestamp))) := by
  rw [restarted_eq hlog hstart] at h
  rw [detectorFor_handleAll (fun m hm => ((ranged_visible log p c j).members m hm).1) h, detectorFor_set, if_pos rfl,
    ← replayed_append hlog hstart hcj, obsOf_append]
  exact (List.foldl_append ..).symm

/-- What the processor answers from that handled the partition from its start. -/
theorem detectorFor_processed (h : processed env log p j = .ok detectors) :
    detectorFor detectors p = after {} env.host {} (obsOf env.host (visible log p 0 j)) :=
  detectorFor_handleAll (fun m hm => ((ranged_visible log p 0 j).members m hm).1) h

/-- One more record. -/
theorem handleAll_visible_snoc {s : Detectors} (hcj : c ≤ j) (hr : log p j = some r) :
    handleAll (handle env) s (visible log p c (j + 1)) = .ok detectors' ↔
      ∃ mid outs, handleAll (handle env) s (visible log p c j) = .ok mid ∧
        handle env mid ⟨p, j, r⟩ = .ok (detectors', outs) := by
  rw [visible_snoc log p hcj, hr]
  show handleAll (handle env) s (visible log p c j ++ [⟨p, j, r⟩]) = _ ↔ _
  constructor
  · intro h
    obtain ⟨mid, hmid, hlast⟩ := workAll_append.mp h
    obtain ⟨last, outs, hm, hnil⟩ := handleAll_cons.mp hlast
    exact ⟨mid, outs, hmid, Except.ok.inj hnil ▸ hm⟩
  · rintro ⟨mid, outs, hmid, hm⟩
    exact workAll_append.mpr ⟨mid, hmid, handleAll_cons.mpr ⟨detectors', outs, hm, rfl⟩⟩

/-! ## The alerts -/

/-- What `handle` produces for the answer of the detector. -/
def reply (host : Host) : Except Exc (Option EditWarAlert) → Except Exc (List Produced)
  | .error e => .error e
  | .ok none => .ok []
  | .ok (some alert) => (outputOf host alert).map (fun out => [out])

theorem handle_reply (h : clean env.host m.record = .ok (some o)) :
    (handle env detectors m).map Prod.snd =
      reply env.host (observe {} env.host (detectorFor detectors m.partition) o.1 o.2).1 := by
  unfold handle
  rw [h]
  dsimp only
  cases observe {} env.host (detectorFor detectors m.partition) o.1 o.2 with
  | mk result det =>
      cases result with
      | error e => rfl
      | ok alert =>
          cases alert with
          | none => rfl
          | some alert =>
              show ((outputOf env.host alert).map _).map Prod.snd = (outputOf env.host alert).map _
              cases outputOf env.host alert <;> rfl

/-- A war is not answered by silence. -/
theorem reply_war_ne {war : List Revert} (event : CleanEvent) :
    reply host (answer event (some war)) ≠ reply host (answer event none) := by
  intro h
  replace h : reply host ((alertOf event war).map some) = .ok [] := h
  cases halert : alertOf event war with
  | error e =>
      rw [halert] at h
      exact absurd (show (Except.error e : Except Exc (List Produced)) = .ok [] from h) (by simp)
  | ok alert =>
      rw [halert] at h
      obtain ⟨out, _, hout⟩ := map_eq_ok.mp (show (outputOf host alert).map (fun out => [out]) = .ok [] from h)
      exact absurd hout (by simp)

theorem handle_none (h : clean env.host m.record = .ok none) : handle env detectors m = .ok (detectors, []) := by
  unfold handle
  rw [h]

/-- The war at the event, if there is one and it went on before the restart, goes on without the old reverts. -/
def Shown (host : Host) (log : Log KafkaRecord) (p c j : Nat) (event : CleanEvent) (timeMs : Int) : Prop :=
  counts {} host event = true →
    IsWar {} (windowAt {} (pastOf host log p j event.pageKey) (revertOf event timeMs)) →
    Ongoing {} (pastOf host log p j event.pageKey) (revertOf event timeMs) →
    Ongoing {} (fresh (cutoffAt log p c) (pastOf host log p j event.pageKey)) (revertOf event timeMs)

/-- **One record** gives the same alert if and only if it is shown. -/
theorem produced_eq_iff (hlog : CleanPartition env.host log p) (hstart : WarmStart env log committed answers p c)
    (hcj : c ≤ j) (hr : log p j = some r) {full warmed : Detectors} (hfull : processed env log p j = .ok full)
    (hwarmed : restarted env log committed answers p c j = .ok warmed)
    (hclean : clean env.host r = .ok (some (event, r.timestamp))) :
    (handle env warmed ⟨p, j, r⟩).map Prod.snd = (handle env full ⟨p, j, r⟩).map Prod.snd ↔
      Shown env.host log p c j event r.timestamp := by
  have hsnoc : visible log p 0 (j + 1) = visible log p 0 j ++ [⟨p, j, r⟩] := by
    rw [visible_snoc log p (Nat.zero_le j), hr]
    rfl
  have hranged : Ranged log p (visible log p 0 j ++ [⟨p, j, r⟩]) := hsnoc ▸ ranged_visible log p 0 (j + 1)
  have hcut : Ranged log p
      ((visible log p 0 j).filter (fun m => cutoffAt log p c ≤ m.record.timestamp) ++ [⟨p, j, r⟩]) :=
    hranged.sublist (List.filter_sublist.append_right _)
  rw [@handle_reply env _ full ⟨p, j, r⟩ hclean, @handle_reply env _ warmed ⟨p, j, r⟩ hclean]
  dsimp only
  rw [detectorFor_processed hfull, detectorFor_restarted hlog hstart hcj hwarmed, hlog.observe_eq hranged hclean,
    hlog.observe_eq hcut hclean]
  unfold specResult
  rw [pageReverts_filter hlog (ranged_visible log p 0 j)]
  by_cases hcounts : counts {} env.host event = true
  · rw [if_pos hcounts, if_pos hcounts]
    -- the page's reverts, this one included, come in time order
    have horder : InOrder Revert.timeMs (pastOf env.host log p j event.pageKey ++ [revertOf event r.timestamp]) := by
      have hobs := (hlog.obs_ordered hranged).1
      rw [obsOf_append, obsOf_singleton_some hclean] at hobs
      have := @pageReverts_sorted {} env.host _ hobs event.pageKey
      rwa [pageReverts_snoc, if_pos ⟨hcounts, rfl⟩] at this
    have hwindow : cutoffAt log p c ≤ (revertOf event r.timestamp).timeMs - EditWarDetector.Config.windowMs {} :=
      lastTime_le hlog hcj hr
    constructor
    · intro hsame _ hwar hongoing
      by_contra hover
      obtain ⟨hnone, hsome⟩ := warOf_hidden horder hwindow hwar hongoing hover
      unfold pastOf at hnone hsome
      rw [hnone, hsome] at hsame
      exact reply_war_ne event hsame
    · intro hshown
      have hsame := warOf_fresh horder hwindow (hshown hcounts)
      unfold pastOf at hsame
      rw [hsame]
  · rw [if_neg hcounts, if_neg hcounts]
    exact iff_of_true rfl (fun h => absurd h hcounts)

/-- The processor that handled the partition got through each of its records. -/
theorem exists_processed {full : Detectors} (hfull : processed env log p n = .ok full) (hj : j < n)
    (hr : log p j = some r) :
    ∃ detectors result, processed env log p j = .ok detectors ∧ handle env detectors ⟨p, j, r⟩ = .ok result := by
  unfold processed at hfull
  rw [visible_append log p (Nat.zero_le (j + 1)) hj] at hfull
  obtain ⟨mid, hmid, _⟩ := workAll_append.mp hfull
  obtain ⟨detectors, outs, hbefore, hhandle⟩ := (handleAll_visible_snoc (Nat.zero_le j) hr).mp hmid
  exact ⟨detectors, _, hbefore, hhandle⟩

/-- The alerts at the records from `c` on, below `n`, are those of the processor that was not restarted. -/
def SameAlerts (env : Env) (log : Log KafkaRecord) (committed : Dict Nat Nat) (answers : Answers) (p c n : Nat) :
    Prop :=
  ∀ j r, c ≤ j → j < n → log p j = some r →
    producedAt env (restarted env log committed answers p c j) ⟨p, j, r⟩ =
      producedAt env (processed env log p j) ⟨p, j, r⟩

/-- Where every war is shown, the restarted processor gets as far as the other one. -/
theorem exists_restarted (hlog : CleanPartition env.host log p) (hstart : WarmStart env log committed answers p c)
    {full : Detectors} (hfull : processed env log p n = .ok full)
    (hshown : ∀ j r event, c ≤ j → j < n → log p j = some r →
      clean env.host r = .ok (some (event, r.timestamp)) → Shown env.host log p c j event r.timestamp)
    (hcj : c ≤ j) (hjn : j ≤ n) : ∃ warmed, restarted env log committed answers p c j = .ok warmed := by
  induction j, hcj using Nat.le_induction with
  | base =>
      rw [restarted_eq hlog hstart, visible_of_le (Nat.le_refl c)]
      exact ⟨_, rfl⟩
  | succ j hcj ih =>
      obtain ⟨warmed, hwarmed⟩ := ih (Nat.le_of_succ_le hjn)
      cases hr : log p j with
      | none =>
          rw [restarted_eq hlog hstart] at hwarmed ⊢
          rw [visible_snoc log p hcj, hr]
          exact ⟨warmed, (congrArg (handleAll _ _) (List.append_nil _)).trans hwarmed⟩
      | some r =>
          obtain ⟨before, result, hbefore, hhandle⟩ := exists_processed hfull hjn hr
          -- the process that was not restarted has handled the message, and the other one answers as it does
          have hgot : ∃ result', handle env warmed ⟨p, j, r⟩ = .ok result' := by
            rcases hlog.reads j r hr with hnone | ⟨event, hclean, _⟩
            · exact ⟨_, @handle_none env warmed ⟨p, j, r⟩ hnone⟩
            · have hsame := (produced_eq_iff hlog hstart hcj hr hbefore hwarmed hclean).mpr
                (hshown j r event hcj hjn hr hclean)
              rw [hhandle] at hsame
              obtain ⟨result', hok, _⟩ := map_eq_ok.mp hsame
              exact ⟨result', hok⟩
          obtain ⟨result', hresult'⟩ := hgot
          rw [restarted_eq hlog hstart] at hwarmed ⊢
          exact ⟨result'.1, (handleAll_visible_snoc hcj hr).mpr ⟨warmed, result'.2, hwarmed, hresult'⟩⟩

/-- **When a restart changes no alert.** The alerts from the committed offset on are the same if and only if every
    war that goes on there, and that alerted before the restart, can be told from the reverts of the last window. -/
theorem same_alerts_iff (hlog : CleanPartition env.host log p) (hstart : WarmStart env log committed answers p c)
    {full : Detectors} (hfull : processed env log p n = .ok full) :
    SameAlerts env log committed answers p c n ↔
      ∀ j r event, c ≤ j → j < n → log p j = some r → clean env.host r = .ok (some (event, r.timestamp)) →
        Shown env.host log p c j event r.timestamp := by
  constructor
  · intro hsame j r event hcj hjn hr hclean
    obtain ⟨before, result, hbefore, hhandle⟩ := exists_processed hfull hjn hr
    have hj := hsame j r hcj hjn hr
    rw [hbefore] at hj
    -- a restarted process that has raised produces nothing to compare
    cases hwarmed : restarted env log committed answers p c j with
    | error e =>
        rw [hwarmed] at hj
        have hraised : (Except.error e : Except Exc (List Produced)) = .ok result.2 :=
          hj.trans (congrArg (fun x => x.map Prod.snd) hhandle)
        exact absurd hraised (by simp)
    | ok warmed =>
        rw [hwarmed] at hj
        exact (produced_eq_iff hlog hstart hcj hr hbefore hwarmed hclean).mp hj
  · intro hshown j r hcj hjn hr
    obtain ⟨before, result, hbefore, _⟩ := exists_processed hfull hjn hr
    obtain ⟨warmed, hwarmed⟩ := exists_restarted hlog hstart hfull hshown hcj hjn.le
    rw [hbefore, hwarmed]
    rcases hlog.reads j r hr with hnone | ⟨event, hclean, _⟩
    · rw [producedAt_ok, producedAt_ok, @handle_none env warmed ⟨p, j, r⟩ hnone,
      @handle_none env before ⟨p, j, r⟩ hnone]
      rfl
    · exact (produced_eq_iff hlog hstart hcj hr hbefore hwarmed hclean).mpr (hshown j r event hcj hjn hr hclean)

/-! ## A war that goes on across a restart -/

/-- A revert of the page `w:T` by that user. -/
def revertEvent (user eventId : String) (timeMs : Int) : CleanEvent :=
  { (revertBy "T" user eventId timeMs).1 with
    eventTime := ((fromtimestampMs timeMs).toOption.map DateTime.isoformat).getD [] }

def revertRecord (user eventId : String) (timeMs : Int) : KafkaRecord where
  value := ((revertEvent user eventId timeMs).toJson revertHost).toOption
  timestamp := timeMs

/-- Three reverts within a window, a fourth half an hour later, and a fifth with it. -/
def warReverts : List (String × String × Int) :=
  [("u", "a", 60000), ("v", "b", 60000), ("u", "c", 1860000), ("v", "d", 3660000), ("u", "e", 3660000)]

def warRecords : List KafkaRecord := warReverts.map (fun x => revertRecord x.1 x.2.1 x.2.2)

def warLog : Log KafkaRecord := fun p o => if p = 0 then warRecords[o]? else none

/-- What Kafka answers to a warm-up up to the record behind `last`. -/
def warAnswers (last : Nat) (offsets : List Nat) : Answers where
  anchor := .record last
  offsetForTime time := if time ≤ 60000 then 0 else if time ≤ 1860000 then 2 else if time ≤ 3660000 then 3 else -1
  polls := offsets.map .record

def warEnv : Env := { host := revertHost }

theorem reads_warRecords : ∀ x ∈ warReverts,
    clean revertHost (revertRecord x.1 x.2.1 x.2.2) = .ok (some (revertEvent x.1 x.2.1 x.2.2, x.2.2)) ∧
      (lit x.2.1).any isSurrogate = false ∧ (iso x.2.2).toOption.isSome = true := by
  decide +kernel

theorem warLog_eq_some {o : Nat} : warLog 0 o = some r ↔ warRecords[o]? = some r := Iff.rfl

theorem cleanPartition_warLog : CleanPartition revertHost warLog 0 where
  stamped := by
    intro o r h
    have hall : ∀ r ∈ warRecords, 0 < r.timestamp := by simp [warRecords, warReverts, revertRecord]
    exact hall r (List.mem_of_getElem? (warLog_eq_some.mp h))
  ordered := by
    intro o x r r' hle h h'
    have hsorted : warRecords.Pairwise (fun a b => a.timestamp ≤ b.timestamp) := by
      simp [warRecords, warReverts, revertRecord]
    obtain ⟨ho, rfl⟩ := List.getElem?_eq_some_iff.mp (warLog_eq_some.mp h)
    obtain ⟨hx, rfl⟩ := List.getElem?_eq_some_iff.mp (warLog_eq_some.mp h')
    rcases hle.eq_or_lt with rfl | hlt
    · exact le_refl _
    · exact List.pairwise_iff_getElem.mp hsorted o x ho hx hlt
  reads := by
    intro o r h
    obtain ⟨x, hx, rfl⟩ := List.mem_map.mp (List.mem_of_getElem? (warLog_eq_some.mp h))
    obtain ⟨hclean, hid, htime⟩ := reads_warRecords x hx
    refine Or.inr ⟨_, hclean, ?_, ?_, hid, ?_⟩
    · exact (by decide : (lit "w").any isSurrogate = false)
    · exact (by decide : (lit "T").any isSurrogate = false)
    · show ∃ text, iso x.2.2 = .ok text
      obtain ⟨text, htext⟩ := Option.isSome_iff_exists.mp htime
      exact ⟨text, toOption_eq_some.mp htext⟩

/-- What Kafka answers about a time. -/
theorem found_warLog (last : Nat) (offsets : List Nat) (time : Int) :
    ((warAnswers last offsets).offsetForTime time < 0 ∧ ∀ o r, warLog 0 o = some r → r.timestamp < time) ∨
      ∃ o : Nat, (warAnswers last offsets).offsetForTime time = o ∧ FirstSince warLog 0 time o := by
  -- a query that comes after a record finds none before it
  have hpart : ∀ n late, (∀ r ∈ warRecords.take n, r.timestamp ≤ late) → ¬ time ≤ late →
      ∀ x r, x < n → warLog 0 x = some r → r.timestamp < time := by
    intro n late hall hlate x r hx h
    refine lt_of_le_of_lt (hall r ?_) (Int.not_le.mp hlate)
    apply List.mem_of_getElem? (i := x)
    rw [List.getElem?_take_of_lt hx]
    exact h
  unfold warAnswers
  dsimp only
  by_cases h0 : time ≤ 60000
  · rw [if_pos h0]
    exact Or.inr ⟨0, rfl, ⟨_, rfl, h0⟩, fun x r hx => absurd hx (Nat.not_lt_zero x)⟩
  rw [if_neg h0]
  by_cases h1 : time ≤ 1860000
  · rw [if_pos h1]
    refine Or.inr ⟨2, rfl, ⟨_, rfl, h1⟩, hpart 2 60000 ?_ h0⟩
    simp [warRecords, warReverts, revertRecord]
  rw [if_neg h1]
  by_cases h2 : time ≤ 3660000
  · rw [if_pos h2]
    refine Or.inr ⟨3, rfl, ⟨_, rfl, h2⟩, hpart 3 1860000 ?_ h1⟩
    simp [warRecords, warReverts, revertRecord]
  · rw [if_neg h2]
    refine Or.inl ⟨by decide, fun o r h => hpart 5 3660000 ?_ h2 o r ?_ h⟩
    · simp [warRecords, warReverts, revertRecord]
    · exact (List.getElem?_eq_some_iff.mp (warLog_eq_some.mp h)).1

/-- The warm-up behind the record at `last`. -/
theorem warmStart_warLog {last : Nat} {offsets : List Nat} (hlast : (warLog 0 last).isSome = true)
    (hoffsets : ∀ start,
      startOffset { windowMs := 30 * minuteMs } warLog 0 (last + 1) (warAnswers last offsets) = some start →
      offsets = (visible warLog 0 start (last + 1)).map Message.offset) :
    WarmStart warEnv warLog (Dict.empty.set 0 (last + 1)) (warAnswers last offsets) 0 (last + 1) where
  window := rfl
  offset := by rw [Dict.get?_set, if_pos rfl]
  last o r _ _ := Option.isSome_iff_exists.mp hlast
  truthful := {
    low := fun o h => absurd h (Nat.not_lt_zero o)
    anchor := fun r _ => rfl
    found := fun time => (found_warLog last offsets time).imp (And.imp_right (fun h o r _ => h o r)) id
    polls := by
      intro start hstart
      refine ⟨[], ?_, by simp⟩
      rw [List.append_nil]
      show offsets.map Poll.record = _
      rw [hoffsets start hstart, List.map_map]
      rfl }
  records o r ho h _ := by
    have hlength : o < 5 := (List.getElem?_eq_some_iff.mp (warLog_eq_some.mp h)).1
    have hfew : last < 5 := by
      obtain ⟨x, hx⟩ := Option.isSome_iff_exists.mp hlast
      exact (List.getElem?_eq_some_iff.mp (warLog_eq_some.mp hx)).1
    show last + 1 - 200000 ≤ o
    omega

theorem warLog_last : warLog 0 4 = some (revertRecord "u" "e" 3660000) := by
  unfold warLog
  rw [if_pos rfl]
  rfl

/-- What a processor produces for the last of the reverts. -/
def producedLast (state : Except Exc Detectors) : Option (Detectors × Nat) := do
  let detectors ← state.toOption
  let result ← (handle warEnv detectors ⟨0, 4, revertRecord "u" "e" 3660000⟩).toOption
  return (result.1, result.2.length)

theorem producedLast_eq_some {state : Except Exc Detectors} {k : Nat} (h : (producedLast state).map Prod.snd = some k) :
    ∃ detectors result, state = .ok detectors ∧
      handle warEnv detectors ⟨0, 4, revertRecord "u" "e" 3660000⟩ = .ok result ∧ result.2.length = k := by
  obtain ⟨x, hx, rfl⟩ := Option.map_eq_some_iff.mp h
  obtain ⟨detectors, hstate, hx⟩ := Option.bind_eq_some_iff.mp hx
  obtain ⟨result, hresult, hx⟩ := Option.bind_eq_some_iff.mp hx
  obtain rfl := Option.some.inj hx
  exact ⟨detectors, result, toOption_eq_some.mp hstate, toOption_eq_some.mp hresult, rfl⟩

/-- The processor that saw the war from its start is silent at its last revert. -/
theorem processed_warLog : ∃ detectors result, processed warEnv warLog 0 4 = .ok detectors ∧
    handle warEnv detectors ⟨0, 4, revertRecord "u" "e" 3660000⟩ = .ok result ∧ result.2.length = 0 :=
  producedLast_eq_some (by decide +kernel)

theorem exists_processed_warLog : ∃ full, processed warEnv warLog 0 5 = .ok full := by
  obtain ⟨detectors, result, hprocessed, hhandle, _⟩ := processed_warLog
  exact ⟨result.1, (handleAll_visible_snoc (by decide) warLog_last).mpr ⟨detectors, result.2, hprocessed, hhandle⟩⟩

/-- After a restart right behind the alert nothing is left out. -/
theorem war_told_once : SameAlerts warEnv warLog (Dict.empty.set 0 3) (warAnswers 2 [0, 1, 2]) 0 3 5 := by
  obtain ⟨full, hfull⟩ := exists_processed_warLog
  have hstart : WarmStart warEnv warLog (Dict.empty.set 0 3) (warAnswers 2 [0, 1, 2]) 0 3 := by
    apply warmStart_warLog rfl
    intro start h
    have h0 : startOffset { windowMs := 30 * minuteMs } warLog 0 3 (warAnswers 2 [0, 1, 2]) = some 0 := by
      decide +kernel
    obtain rfl := Option.some.inj (h0.symm.trans h)
    rfl
  refine (same_alerts_iff cleanPartition_warLog hstart hfull).mpr ?_
  intro j r event _ _ _ _ _ _ hongoing
  -- nothing of the partition is outside the window, so no revert is forgotten
  have hall : fresh (cutoffAt warLog 0 3) (pastOf revertHost warLog 0 j event.pageKey) =
      pastOf revertHost warLog 0 j event.pageKey := by
    apply List.filter_eq_self.mpr
    intro x hx
    obtain ⟨o, ho, _, _, rfl⟩ := mem_pageReverts.mp hx
    obtain ⟨m, hm, hclean⟩ := mem_obsOf.mp ho
    obtain ⟨hp, hdel⟩ := (ranged_visible warLog 0 0 j).members m hm
    have hearly : ∀ r ∈ warRecords, (60000 : Int) ≤ r.timestamp := by simp [warRecords, warReverts, revertRecord]
    have hread : warLog m.partition m.offset = some m.record := hdel
    rw [hp] at hread
    have hlate := hearly m.record (List.mem_of_getElem? (warLog_eq_some.mp hread))
    rw [← (cleanPartition_warLog.time_eq hp hdel hclean).1] at hlate
    exact decide_eq_true hlate
  exact hall.symm ▸ hongoing

/-- **A war that alerts again.** The revert that alerted first has left the last window, and the restarted processor
    takes the last revert for the start of a war. -/
theorem war_alerts_again :
    CleanPartition revertHost warLog 0 ∧ WarmStart warEnv warLog (Dict.empty.set 0 4) (warAnswers 3 [2, 3]) 0 4 ∧
      (∃ full, processed warEnv warLog 0 5 = .ok full) ∧
      ¬ SameAlerts warEnv warLog (Dict.empty.set 0 4) (warAnswers 3 [2, 3]) 0 4 5 := by
  refine ⟨cleanPartition_warLog, ?_, exists_processed_warLog, ?_⟩
  · apply warmStart_warLog rfl
    intro start h
    have h2 : startOffset { windowMs := 30 * minuteMs } warLog 0 4 (warAnswers 3 [2, 3]) = some 2 := by
      decide +kernel
    obtain rfl := Option.some.inj (h2.symm.trans h)
    rfl
  · intro hsame
    obtain ⟨full, silent, hfull, hsilent, hnone⟩ := processed_warLog
    obtain ⟨warmed, alerted, hwarmed, halerted, hone⟩ := producedLast_eq_some
      (by decide +kernel : (producedLast (restarted warEnv warLog (Dict.empty.set 0 4) (warAnswers 3 [2, 3])
        0 4 4)).map Prod.snd = some 1)
    have hproduced := hsame 4 _ (by decide) (by decide) warLog_last
    rw [hfull, hwarmed, producedAt_ok, producedAt_ok, hsilent, halerted] at hproduced
    have hlength := congrArg List.length (Except.ok.inj hproduced)
    exact absurd (hone.symm.trans (hlength.trans hnone)) (by decide)

end EditWar
end Wikistream
