import Mathlib.Data.List.Dedup
import Mathlib.Data.List.Induction
import Mathlib.Data.List.Lex
import Mathlib.Data.List.Sort
import Wikistream.Common.Models
import Wikistream.Lib.SlidingWindow
import Wikistream.Python.Sha256

/-!
# `Processors.EditWarDetector` — repeated reverts on one page by more than one person

## Contents
- **The alert** (`EditWarAlert`, `alertOf`). Building it may raise: a lone surrogate in the text that is
  hashed, a time outside the years that `datetime` supports. `toJson` and `fromJson` are its record.
- **The detector.** `observePage` is what `observe` does to the state of the event's page, `observe` wraps it
  with the counters and the alert, `expire` forgets quiet pages.
- **One page at a time** (`pageOf_observe`, `observe_fst`): a detector is a detector per page.
- **Runs** (`after`, `pageReverts`, `pageOf_after`): after any observations the state of a page is what its
  own counted reverts, in arrival order, make of it.
-/

namespace Wikistream
namespace EditWarDetector

open Py Lib Models

def minuteMs : Int := 60000

structure Revert where
  eventId : Str
  user : Str
  timeMs : Int
  deriving DecidableEq

structure EditWarAlert where
  alertId : Str
  wiki : Str
  title : Str
  revertCount : Nat
  users : List Str
  eventIds : List Str
  windowStart : Str
  windowEnd : Str
  deriving DecidableEq

def EditWarAlert.pageKey (alert : EditWarAlert) : Str := alert.wiki ++ chr ':' :: alert.title

structure PageState where
  /-- In arrival order. -/
  reverts : List Revert := []
  alertedUntilMs : Int := -1
  deriving DecidableEq

/-- The settings of a detector. -/
structure Config where
  windowMs : Int := 30 * minuteMs
  minReverts : Int := 3
  minUsers : Int := 2
  ignoreBots : Bool := true

structure Detector where
  pages : Dict Str PageState := Dict.empty
  watermarkMs : Int := 0
  revertsSeen : Nat := 0
  alertsRaised : Nat := 0

/-! ## The alert -/

/-- `iso`. -/
def iso (ms : Int) : Except Exc Str := (fromtimestampMs ms).map DateTime.isoformat

/-- `alert_id_for`. -/
def alertIdFor (wiki title firstEventId : Str) : Except Exc Str :=
  match utf8Encode (wiki ++ 0 :: title ++ 0 :: firstEventId) with
  | some b => .ok ((Sha256.hexdigest b).take 32)
  | none => .error .unicodeEncodeError

/-- The sort key `(r.time_ms, r.event_id)`. -/
def Before (a b : Revert) : Prop := a.timeMs < b.timeMs ∨ (a.timeMs = b.timeMs ∧ a.eventId ≤ b.eventId)

instance : DecidableRel Before := fun _ _ => inferInstanceAs (Decidable (_ ∨ _))

def sortReverts (reverts : List Revert) : List Revert := reverts.insertionSort Before

/-- The distinct users of the reverts. -/
def usersOf (reverts : List Revert) : List Str := (reverts.map Revert.user).dedup

/-- The alert for the sorted `reverts`. -/
def alertOf (event : CleanEvent) (reverts : List Revert) : Except Exc EditWarAlert :=
  match reverts.head?, reverts.getLast? with
  | some first, some last => do
      let alertId ← alertIdFor event.wiki event.title first.eventId
      let windowStart ← iso first.timeMs
      let windowEnd ← iso last.timeMs
      return {
        alertId
        wiki := event.wiki
        title := event.title
        revertCount := reverts.length
        users := (usersOf reverts).insertionSort (· ≤ ·)
        eventIds := reverts.map Revert.eventId
        windowStart, windowEnd }
  | _, _ => .error .indexError

namespace EditWarAlert

/-- `asdict(self)`, as `json` writes it: a tuple is an array. -/
def asDict (alert : EditWarAlert) : Json :=
  .obj [(lit "alert_id", .str alert.alertId), (lit "wiki", .str alert.wiki), (lit "title", .str alert.title),
    (lit "revert_count", .int alert.revertCount), (lit "users", .arr (alert.users.map Json.str)),
    (lit "event_ids", .arr (alert.eventIds.map Json.str)), (lit "window_start", .str alert.windowStart),
    (lit "window_end", .str alert.windowEnd)]

/-- `to_json`. -/
def toJson (host : Host) (alert : EditWarAlert) : Except Exc Bytes :=
  match utf8Encode (dumps host.floatRepr alert.asDict) with
  | some b => .ok b
  | none => .error .unicodeEncodeError

/-- The names of the fields. -/
def fields : List String :=
  ["alert_id", "wiki", "title", "revert_count", "users", "event_ids", "window_start", "window_end"]

/-- `tuple(v)`. -/
def tupleOf : Json → Except Exc (List Json)
  | .arr items => .ok items
  | .str s => .ok (s.map (fun c => .str [c]))
  | .obj members => .ok (members.map (fun m => .str m.1))
  | _ => callError

/-- `tuple(data[name])`. -/
def tupleAt (v : Json) (name : String) : Except Exc (List Json) :=
  match v with
  | .obj data =>
      match lookup data (lit name) with
      | some items => tupleOf items
      | none => .error .keyError
  | _ => callError

/-- The items of a tuple of texts. -/
def asTexts (items : List Json) : Except Exc (List Str) :=
  match items.mapM asStr with
  | some texts => .ok texts
  | none => callError

def asCount : Json → Option Nat
  | .int n => if 0 ≤ n then some n.toNat else none
  | _ => none

/-- What `from_json` makes of the decoded document. -/
def ofDict (v : Json) : Except Exc EditWarAlert := do
  let users ← tupleAt v "users"
  let eventIds ← tupleAt v "event_ids"
  let d ← keywords fields v
  let alertId ← argument asStr d "alert_id"
  let wiki ← argument asStr d "wiki"
  let title ← argument asStr d "title"
  let revertCount ← argument asCount d "revert_count"
  let users ← asTexts users
  let eventIds ← asTexts eventIds
  let windowStart ← argument asStr d "window_start"
  let windowEnd ← argument asStr d "window_end"
  return { alertId, wiki, title, revertCount, users, eventIds, windowStart, windowEnd }

theorem asTexts_map (texts : List Str) : asTexts (texts.map Json.str) = .ok texts := by
  have hmap : (texts.map Json.str).mapM asStr = some texts := by
    induction texts with
    | nil => rfl
    | cons s texts ih => simp [asStr, ih]
  unfold asTexts
  rw [hmap]

theorem ofDict_asDict (alert : EditWarAlert) : ofDict alert.asDict = .ok alert := by
  iterate 3 refine bind_eq_ok.mpr ⟨_, rfl, ?_⟩
  iterate 3 refine bind_eq_ok.mpr ⟨_, argument_of rfl rfl, ?_⟩
  have hcount : asCount (.int alert.revertCount) = some alert.revertCount := by simp [asCount]
  refine bind_eq_ok.mpr ⟨_, argument_of rfl hcount, ?_⟩
  refine bind_eq_ok.mpr ⟨_, asTexts_map alert.users, ?_⟩
  refine bind_eq_ok.mpr ⟨_, asTexts_map alert.eventIds, ?_⟩
  iterate 2 refine bind_eq_ok.mpr ⟨_, argument_of rfl rfl, ?_⟩
  rfl

/-- `from_json`. -/
def fromJson (host : Host) (payload : Payload) : Except Exc EditWarAlert := do
  let v ← loadsPayload host.json payload
  ofDict v

/-- The text fields, and the items of those that hold several. -/
def texts (alert : EditWarAlert) : List Str :=
  [alert.alertId, alert.wiki, alert.title, alert.windowStart, alert.windowEnd] ++ alert.users ++ alert.eventIds

end EditWarAlert

/-! ## The detector -/

variable (cfg : Config) (host : Host)

/-- The event is a revert that counts. -/
def counts (event : CleanEvent) : Bool := event.isRevert host && !(cfg.ignoreBots && event.bot)

/-- `_evict`, right after `r` was appended. -/
def heldAt (reverts : List Revert) (r : Revert) : List Revert :=
  SlidingWindow.evict Revert.timeMs (r.timeMs - cfg.windowMs) (reverts ++ [r])

/-- There are enough reverts, by enough people. -/
def IsWar (reverts : List Revert) : Prop :=
  cfg.minReverts ≤ reverts.length ∧ cfg.minUsers ≤ (usersOf reverts).length

instance (reverts : List Revert) : Decidable (IsWar cfg reverts) := inferInstanceAs (Decidable (_ ∧ _))

/-- What one counted revert does to its page, with the reverts of the war it starts, if it starts one. -/
def observePage (state : PageState) (r : Revert) : Option (List Revert) × PageState :=
  let held := heldAt cfg state.reverts r
  if r.timeMs ≤ state.alertedUntilMs then
    -- already alerted for this war
    (none, ⟨held, r.timeMs + cfg.windowMs⟩)
  else if IsWar cfg held then (some (sortReverts held), ⟨held, r.timeMs + cfg.windowMs⟩)
  else (none, ⟨held, state.alertedUntilMs⟩)

/-- The state of a page: a fresh one until its first counted revert. -/
def pageOf (det : Detector) (page : Str) : PageState := (det.pages.get? page).getD {}

def revertOf (event : CleanEvent) (timeMs : Int) : Revert := ⟨event.eventId, event.user, timeMs⟩

/-- Store the page's new state and count the revert. -/
def Detector.record (det : Detector) (page : Str) (state : PageState) (alerted : Bool) : Detector :=
  { det with
    pages := det.pages.set page state
    revertsSeen := det.revertsSeen + 1
    alertsRaised := if alerted then det.alertsRaised + 1 else det.alertsRaised }

/-- What `observe` makes of the war a revert starts, if it starts one. -/
def answer (event : CleanEvent) : Option (List Revert) → Except Exc (Option EditWarAlert)
  | none => .ok none
  | some reverts => (alertOf event reverts).map some

/-- `observe`: what it returns or raises, and the detector it leaves. An exception comes out of building the
    alert, after the state has changed. -/
def observe (det : Detector) (event : CleanEvent) (timeMs : Int) :
    Except Exc (Option EditWarAlert) × Detector :=
  let det := { det with watermarkMs := max det.watermarkMs timeMs }
  if counts cfg host event then
    let result := observePage cfg (pageOf det event.pageKey) (revertOf event timeMs)
    (answer event result.1, det.record event.pageKey result.2 result.1.isSome)
  else (.ok none, det)

/-- The page has no recent revert: the one that arrived last is old, and its war is over. -/
def isQuiet (det : Detector) (state : PageState) : Bool :=
  (match state.reverts.getLast? with
    | none => true
    | some last => last.timeMs < det.watermarkMs - cfg.windowMs) &&
  state.alertedUntilMs < det.watermarkMs

/-- `expire`, with the number of pages it forgets. -/
def expire (det : Detector) : Nat × Detector :=
  let kept := det.pages.filter (fun _ state => !isQuiet cfg det state)
  (det.pages.size - kept.size, { det with pages := kept })

variable {cfg host}

/-! ## Sorted reverts -/

theorem mem_sortReverts {reverts : List Revert} {r : Revert} : r ∈ sortReverts reverts ↔ r ∈ reverts :=
  List.mem_insertionSort Before

theorem length_sortReverts (reverts : List Revert) : (sortReverts reverts).length = reverts.length :=
  List.length_insertionSort Before reverts

theorem perm_sortReverts (reverts : List Revert) : (sortReverts reverts).Perm reverts :=
  List.perm_insertionSort Before reverts

/-! ## One page at a time -/

/-- Three things can happen to a page. -/
theorem observePage_cases (state : PageState) (r : Revert) :
    (r.timeMs ≤ state.alertedUntilMs ∧
      observePage cfg state r = (none, ⟨heldAt cfg state.reverts r, r.timeMs + cfg.windowMs⟩)) ∨
    (state.alertedUntilMs < r.timeMs ∧ IsWar cfg (heldAt cfg state.reverts r) ∧
      observePage cfg state r = (some (sortReverts (heldAt cfg state.reverts r)),
        ⟨heldAt cfg state.reverts r, r.timeMs + cfg.windowMs⟩)) ∨
    (state.alertedUntilMs < r.timeMs ∧ ¬ IsWar cfg (heldAt cfg state.reverts r) ∧
      observePage cfg state r = (none, ⟨heldAt cfg state.reverts r, state.alertedUntilMs⟩)) := by
  unfold observePage
  by_cases ht : r.timeMs ≤ state.alertedUntilMs
  · exact Or.inl ⟨ht, by simp [ht]⟩
  · have hlt := Int.not_le.mp ht
    by_cases hwar : IsWar cfg (heldAt cfg state.reverts r)
    · exact Or.inr (Or.inl ⟨hlt, hwar, by simp [ht, hwar]⟩)
    · exact Or.inr (Or.inr ⟨hlt, hwar, by simp [ht, hwar]⟩)

theorem observePage_reverts (state : PageState) (r : Revert) :
    (observePage cfg state r).2.reverts = heldAt cfg state.reverts r := by
  rcases @observePage_cases cfg state r with ⟨_, h⟩ | ⟨_, _, h⟩ | ⟨_, _, h⟩ <;> rw [h]

/-- A war is made of the reverts the page holds. -/
theorem war_eq {state : PageState} {r : Revert} {war : List Revert}
    (h : (observePage cfg state r).1 = some war) :
    state.alertedUntilMs < r.timeMs ∧ IsWar cfg (heldAt cfg state.reverts r) ∧
      war = sortReverts (heldAt cfg state.reverts r) := by
  rcases @observePage_cases cfg state r with ⟨_, hobs⟩ | ⟨hlt, hwar, hobs⟩ | ⟨_, _, hobs⟩
  · rw [hobs] at h
    exact absurd h (by simp)
  · rw [hobs] at h
    exact ⟨hlt, hwar, (Option.some.inj h).symm⟩
  · rw [hobs] at h
    exact absurd h (by simp)

theorem observe_fst (det : Detector) (event : CleanEvent) (t : Int) :
    (observe cfg host det event t).1 =
      if counts cfg host event then
        answer event (observePage cfg (pageOf det event.pageKey) (revertOf event t)).1
      else .ok none := by
  unfold observe
  by_cases hc : counts cfg host event = true
  · rw [if_pos hc, if_pos hc]
    rfl
  · rw [if_neg hc, if_neg hc]

/-- Only the page of a counted event changes. -/
theorem pageOf_observe (det : Detector) (event : CleanEvent) (t : Int) (page : Str) :
    pageOf (observe cfg host det event t).2 page =
      if counts cfg host event = true ∧ event.pageKey = page then
        (observePage cfg (pageOf det page) (revertOf event t)).2
      else pageOf det page := by
  unfold observe
  by_cases hc : counts cfg host event = true
  · rw [if_pos hc]
    show ((det.pages.set event.pageKey _).get? page).getD {} = _
    rw [Dict.get?_set]
    by_cases hp : event.pageKey = page
    · subst hp
      rw [if_pos rfl, if_pos ⟨hc, rfl⟩]
      rfl
    · rw [if_neg (Ne.symm hp), if_neg (fun h => hp h.2)]
      rfl
  · rw [if_neg hc, if_neg (fun h => hc h.1)]
    rfl

/-! ## Runs -/

/-- An event and the time it is observed under. -/
abbrev Obs := CleanEvent × Int

/-- The detector after the observations. -/
def after (cfg : Config) (host : Host) (det : Detector) (obs : List Obs) : Detector :=
  obs.foldl (fun det o => (observe cfg host det o.1 o.2).2) det

/-- The counted reverts of a page among the observations, in arrival order. -/
def pageReverts (cfg : Config) (host : Host) (page : Str) (obs : List Obs) : List Revert :=
  obs.filterMap (fun o =>
    if counts cfg host o.1 = true ∧ o.1.pageKey = page then some (revertOf o.1 o.2) else none)

/-- The state of a page after some reverts. -/
def afterReverts (cfg : Config) (state : PageState) (reverts : List Revert) : PageState :=
  reverts.foldl (fun state r => (observePage cfg state r).2) state

theorem after_snoc (det : Detector) (obs : List Obs) (o : Obs) :
    after cfg host det (obs ++ [o]) = (observe cfg host (after cfg host det obs) o.1 o.2).2 :=
  List.foldl_concat ..

theorem afterReverts_snoc (state : PageState) (reverts : List Revert) (r : Revert) :
    afterReverts cfg state (reverts ++ [r]) = (observePage cfg (afterReverts cfg state reverts) r).2 :=
  List.foldl_concat ..

theorem pageReverts_snoc (page : Str) (obs : List Obs) (o : Obs) :
    pageReverts cfg host page (obs ++ [o]) =
      if counts cfg host o.1 = true ∧ o.1.pageKey = page then
        pageReverts cfg host page obs ++ [revertOf o.1 o.2]
      else pageReverts cfg host page obs := by
  unfold pageReverts
  rw [List.filterMap_append]
  by_cases h : counts cfg host o.1 = true ∧ o.1.pageKey = page
  · rw [if_pos h]
    simp [h]
  · rw [if_neg h]
    simp [h]

/-- **Pages do not influence each other.** -/
theorem pageOf_after (det : Detector) (obs : List Obs) (page : Str) :
    pageOf (after cfg host det obs) page =
      afterReverts cfg (pageOf det page) (pageReverts cfg host page obs) := by
  induction obs using List.reverseRecOn with
  | nil => rfl
  | append_singleton obs o ih =>
      rw [after_snoc, pageOf_observe, pageReverts_snoc, ih]
      split
      · rw [afterReverts_snoc]
      · rfl

theorem mem_pageReverts {page : Str} {obs : List Obs} {r : Revert} :
    r ∈ pageReverts cfg host page obs ↔
      ∃ o ∈ obs, counts cfg host o.1 = true ∧ o.1.pageKey = page ∧ revertOf o.1 o.2 = r := by
  unfold pageReverts
  rw [List.mem_filterMap]
  refine exists_congr (fun o => and_congr_right (fun _ => ?_))
  by_cases h : counts cfg host o.1 = true ∧ o.1.pageKey = page
  · rw [if_pos h]
    simp [h]
  · rw [if_neg h]
    constructor
    · intro hnone
      exact absurd hnone (by simp)
    · rintro ⟨hc, hp, _⟩
      exact absurd ⟨hc, hp⟩ h

end EditWarDetector
end Wikistream
