import Mathlib.Logic.Function.Basic
import Wikistream.Processors.PageTopic
import Wikistream.Web.Pages

/-!
# `Web.PageFollower` — the thread that keeps the table of pages up to date

`_run` calls `_follow` again and again. `_follow` reads every partition of wiki.page-latest from its beginning, clears
the table first, and goes on until something raises. Beside it, page state writes the partitions and Kafka compacts
them.

## Contents
- **The thread** (`Follower`, `stats`) and what can come next in `_follow` (`Follower.begin`, `.read`, `.reachEnd`,
  `.fail`).
- **The dashboard beside page state** (`Dashboard`, `Action`, `step`), one process for each partition.
- **What a step can be** (`Step`, `step_inv`).
-/

namespace Wikistream
namespace Pages

open Py Lib PageState PageTopic

structure Follower where
  store : PageStore := {}
  /-- How many of the records of each partition are behind the consumer. -/
  cursors : Nat → Nat := fun _ => 0
  partitions : Nat := 0
  atEnd : List Nat := []
  /-- `self.error` is set. -/
  failed : Bool := false
  /-- The thread is in the loop of `_follow`. -/
  following : Bool := false

/-- What `stats` answers. -/
structure Stats where
  pages : Nat
  recordsRead : Nat
  tombstones : Nat
  caughtUp : Bool
  failed : Bool

def Follower.stats (f : Follower) : Stats where
  pages := f.store.pages.size
  recordsRead := f.store.recordsRead
  tombstones := f.store.tombstones
  caughtUp := decide (0 < f.partitions) && decide (f.partitions ≤ f.atEnd.length)
  failed := f.failed

/-- `_follow`, up to its loop: the table is cleared, and every partition is assigned from its beginning. -/
def Follower.begin (f : Follower) (partitions : Nat) : Follower :=
  { f with
    store := {}
    cursors := fun _ => 0
    partitions := partitions
    atEnd := []
    failed := false
    following := true }

/-- An exception comes out of `_follow`. What has been read stays where it is. -/
def Follower.fail (f : Follower) : Follower := { f with failed := true, following := false }

/-- A record of partition `p` is handed out. -/
def Follower.read (host : Host) (f : Follower) (p : Nat) (r : KafkaRecord) : Follower :=
  match f.store.apply host r.key r.value with
  | .ok store => { f with store := store, cursors := Function.update f.cursors p (f.cursors p + 1) }
  | .error _ => f.fail

/-- The end of partition `p` is reported. -/
def Follower.reachEnd (f : Follower) (p : Nat) : Follower :=
  { f with atEnd := if p ∈ f.atEnd then f.atEnd else f.atEnd ++ [p] }

/-- Compaction removes the record at `i` of partition `p`. -/
def Follower.shift (f : Follower) (p i : Nat) : Follower :=
  { f with cursors := Function.update f.cursors p (if i < f.cursors p then f.cursors p - 1 else f.cursors p) }

/-- The partitions, each with its page state process, and the dashboard. -/
structure Dashboard where
  worlds : Nat → World := fun _ => {}
  follower : Follower := {}

inductive Action
  /-- Page state or compaction, in partition `p`. -/
  | topic (p : Nat) (a : PageTopic.Action)
  | begin
  | read (p : Nat)
  | reachEnd (p : Nat)
  | fail
  deriving DecidableEq

/-- What an action in partition `p` means for the place of the consumer. -/
def moved (f : Follower) (p : Nat) : PageTopic.Action → Follower
  | .supersede i | .expire i => f.shift p i
  | .start _ | .handleNext | .commit _ | .abort _ | .crash => f

variable (host : Host) (count : Nat) (logs : Nat → List KafkaRecord)

/-- One step of a topic with `count` partitions and a dashboard. -/
def step (d : Dashboard) : Action → Option Dashboard
  | .topic p a =>
      (PageTopic.step host p (logs p) (d.worlds p) a).map (fun w =>
        { worlds := Function.update d.worlds p w, follower := moved d.follower p a })
  | .begin => if d.follower.following then none else some { d with follower := d.follower.begin count }
  | .read p =>
      if d.follower.following ∧ p < count then
        match (d.worlds p).topic[d.follower.cursors p]? with
        | none => none
        | some r => some { d with follower := d.follower.read host p r }
      else none
  | .reachEnd p =>
      if d.follower.following ∧ p < count ∧ (d.worlds p).topic.length ≤ d.follower.cursors p then
        some { d with follower := d.follower.reachEnd p }
      else none
  -- also before the loop: the topic cannot be listed
  | .fail => some { d with follower := d.follower.fail }

/-- The steps, one constructor for each way an action can succeed. -/
inductive Step (d : Dashboard) : Action → Dashboard → Prop
  | topic {p : Nat} {a : PageTopic.Action} {w : World} (h : PageTopic.step host p (logs p) (d.worlds p) a = some w) :
      Step d (.topic p a) { worlds := Function.update d.worlds p w, follower := moved d.follower p a }
  | begin : Step d .begin { d with follower := d.follower.begin count }
  | read {p : Nat} {r : KafkaRecord} (hr : (d.worlds p).topic[d.follower.cursors p]? = some r) :
      Step d (.read p) { d with follower := d.follower.read host p r }
  | reachEnd {p : Nat} (hp : p < count) (hlast : (d.worlds p).topic.length ≤ d.follower.cursors p) :
      Step d (.reachEnd p) { d with follower := d.follower.reachEnd p }
  | fail : Step d .fail { d with follower := d.follower.fail }

variable {host count logs}

theorem step_inv {d d' : Dashboard} {a : Action} (h : step host count logs d a = some d') :
    Step host count logs d a d' := by
  cases a with
  | topic p a =>
      obtain ⟨w, hw, rfl⟩ := Option.map_eq_some_iff.mp h
      exact .topic hw
  | begin =>
      simp only [step] at h
      split at h
      · exact absurd h (by simp)
      · exact Option.some.inj h ▸ .begin
  | read p =>
      simp only [step] at h
      split at h
      · split at h
        · exact absurd h (by simp)
        · next hr => exact Option.some.inj h ▸ .read hr
      · exact absurd h (by simp)
  | reachEnd p =>
      simp only [step] at h
      split at h
      · next hc => exact Option.some.inj h ▸ .reachEnd hc.2.1 hc.2.2
      · exact absurd h (by simp)
  | fail => exact Option.some.inj h ▸ .fail

end Pages
end Wikistream
