import Wikistream.Common.Records
import Wikistream.Common.Topics
import Wikistream.Processors.Transform
import Wikistream.Processors.Trending

/-!
# `Processors.TrendingGroup` — the trending instances of one consumer group

Several instances of `Trending` read `wiki.clean`, write one table and commit the offsets their windows no longer need.
`step` is the transition system of the group.

A flush goes through two phases: the rows are being written, where every attempt may lose the connection before or after
the database applied it, and they are written, until the offsets are committed. A crash may come in any phase. Which
partitions an instance has is up to the coordinator, and one that was declared dead may still go on with its own.

## Contents
- **One message** (`editOf`, `handle`).
- **The topic** (`Feed`): what `wiki.clean` holds in the end. An instance may stop reading anywhere, so records that are
  produced later are records it has not got to.
- **The group** (`Instance`, `Group`, `Action`, `step`).
- **The edit of a record** (`readable`), and the edits of a partition in the order of their offsets (`edits_sorted`).
-/

namespace Wikistream
namespace TrendingGroup

open Py Lib Models Transform Windows Db

/-! ## One message -/

/-- The edit `handle` counts. A record that raises `ValueError` or `TypeError` is logged and passed over. -/
def editOf (host : Host) (m : Message KafkaRecord) : Except Exc (Option Edit) :=
  match CleanEvent.fromJson host m.record.payload with
  | .error e => if e.isValueOrTypeError then .ok none else .error e
  | .ok event =>
      (eventTimeMs host event (some m.record.timestamp)).map
        (fun ms => some ⟨m.offset, event.wiki, event.title, ms⟩)

/-- `handle`. -/
def handle (host : Host) (cfg : Windows.Config) (windows : MinuteWindows) (m : Message KafkaRecord) :
    Except Exc MinuteWindows :=
  (editOf host m).map (fun e =>
    match e with
    | some e => (add cfg windows m.partition e).2
    | none => windows)

/-! ## The topic -/

/-- `wiki.clean`, as a consumer with `read_committed` sees it. -/
structure Feed where
  records : Nat → List (Message KafkaRecord)
  partition : ∀ p, ∀ m ∈ records p, m.partition = p
  sorted : ∀ p, (records p).Pairwise (fun a b => a.offset < b.offset)

/-- What a consumer reads that resumes at the committed offset; `auto.offset.reset` is `earliest`. -/
def fromOffset (c : Option Int) (ms : List (Message KafkaRecord)) : List (Message KafkaRecord) :=
  match c with
  | some c => ms.filter (fun m => c ≤ m.offset)
  | none => ms

/-! ## The group -/

/-- Who calls `flush`. -/
inductive Caller
  | periodic
  | onRevoke (ps : List Nat)
  | shutdown
  deriving DecidableEq

/-- The argument `final`. -/
def Caller.final : Caller → Bool
  | .periodic => false
  | .onRevoke _ | .shutdown => true

/-- Where an instance is in its loop. -/
inductive Phase
  | reading
  | flushing (caller : Caller)
  | written (caller : Caller)
  deriving DecidableEq

structure Instance where
  windows : MinuteWindows := {}
  /-- What is still to be read of the partitions it is assigned. -/
  unread : Dict Nat (List (Message KafkaRecord)) := Dict.empty
  phase : Phase := .reading

structure Group where
  table : TrendingMinutes := Dict.empty
  committed : Dict Nat Int := Dict.empty
  instances : Dict Nat Instance := Dict.empty

def Group.put (g : Group) (i : Nat) (inst : Instance) : Group := { g with instances := g.instances.set i inst }

def Group.remove (g : Group) (i : Nat) : Group := { g with instances := g.instances.erase i }

inductive Action
  | start (i : Nat)
  | assign (i : Nat) (ps : List Nat)
  | read (i p : Nat)
  /-- `flush` is called: from the loop, from the rebalance callback or at the end. -/
  | flush (i : Nat) (caller : Caller)
  /-- The connection is lost during the write, which is retried on a new one. -/
  | lose (i : Nat) (applied : Bool)
  /-- The write succeeds. -/
  | write (i : Nat)
  | commit (i : Nat)
  /-- The process ends without warning. A commit under way went through for the partitions `ps`. -/
  | crash (i : Nat) (ps : List Nat)
  deriving DecidableEq

variable (host : Host) (cfg : Windows.Config) (feed : Feed)

/-- Start reading the partitions `ps` where the group has committed. -/
def take (committed : Dict Nat Int) (ps : List Nat) (unread : Dict Nat (List (Message KafkaRecord))) :
    Dict Nat (List (Message KafkaRecord)) :=
  ps.foldl (fun d p => d.set p (fromOffset (committed.get? p) (feed.records p))) unread

/-- What is left of an instance whose flush has committed. -/
def Group.flushed (g : Group) (i : Nat) (inst : Instance) : Caller → Group
  | .periodic => g.put i { inst with phase := .reading }
  | .onRevoke ps =>
      g.put i ⟨Windows.revoke inst.windows ps, ps.foldl Dict.erase inst.unread, .reading⟩
  | .shutdown => g.remove i

/-- The commits that went through before a crash. -/
def Instance.committing (inst : Instance) (ps : List Nat) : Dict Nat Int :=
  match inst.phase with
  | .written _ => (commitOffsets inst.windows).filter (fun p _ => p ∈ ps)
  | _ => Dict.empty

/-- One step of the group. -/
def step (g : Group) : Action → Option Group
  | .start i =>
      match g.instances.get? i with
      | none => some (g.put i {})
      | some _ => none
  | .assign i ps =>
      match g.instances.get? i with
      | some ⟨windows, unread, .reading⟩ =>
          -- a partition that is handed over is not one of its own
          if ∀ p ∈ ps, unread.get? p = none then some (g.put i ⟨windows, take feed g.committed ps unread, .reading⟩)
          else none
      | _ => none
  | .read i p =>
      match g.instances.get? i with
      | some ⟨windows, unread, .reading⟩ =>
          match unread.get? p with
          | some (m :: rest) =>
              match handle host cfg windows m with
              | .ok windows => some (g.put i ⟨windows, unread.set p rest, .reading⟩)
              -- an exception `handle` does not catch ends the process
              | .error _ => some (g.remove i)
          | _ => none
      | _ => none
  | .flush i caller =>
      match g.instances.get? i with
      | some ⟨windows, unread, .reading⟩ => some (g.put i ⟨windows, unread, .flushing caller⟩)
      | _ => none
  | .lose i applied =>
      match g.instances.get? i with
      | some ⟨windows, _, .flushing caller⟩ =>
          let f := Trending.flush cfg windows caller.final
          some { g with table := if applied then upsertTrending g.table f.rows else g.table }
      | _ => none
  | .write i =>
      match g.instances.get? i with
      | some ⟨windows, unread, .flushing caller⟩ =>
          let f := Trending.flush cfg windows caller.final
          some { g.put i ⟨f.windows, unread, .written caller⟩ with table := upsertTrending g.table f.rows }
      | _ => none
  | .commit i =>
      match g.instances.get? i with
      | some ⟨windows, unread, .written caller⟩ =>
          some { g.flushed i ⟨windows, unread, .written caller⟩ caller with
            committed := g.committed.update (commitOffsets windows) }
      | _ => none
  | .crash i ps =>
      match g.instances.get? i with
      | some inst => some { g.remove i with committed := g.committed.update (inst.committing ps) }
      | none => none

/-- The edit of a record, if it has one and can be handled. -/
def readable (m : Message KafkaRecord) : Option Edit := (editOf host m).toOption.join

/-- The edits of a partition. -/
def Feed.edits (p : Nat) : List Edit := (feed.records p).filterMap (readable host)

/-- The event read next does not take its partition over `max_windows`. -/
def UnderCap (g : Group) : Action → Prop
  | .read i p =>
      match g.instances.get? i with
      | some ⟨windows, unread, _⟩ =>
          match ((unread.get? p).getD []).head?.bind (readable host) with
          | some e => Fits cfg (partitionOf windows p) e
          | none => True
      | none => True
  | _ => True

instance (g : Group) (a : Action) : Decidable (UnderCap host cfg g a) := by
  unfold UnderCap
  split
  · split
    · split <;> infer_instance
    · infer_instance
  · infer_instance

/-! ## The edit of a record -/

variable {host cfg feed} {m : Message KafkaRecord} {e : Edit}

theorem readable_eq_some : readable host m = some e ↔ editOf host m = .ok (some e) := by
  unfold readable
  rw [Option.join_eq_some_iff, toOption_eq_some]

theorem offset_of_readable (h : readable host m = some e) : e.offset = m.offset := by
  rw [readable_eq_some, editOf] at h
  split at h
  · split at h
    · exact absurd (Except.ok.inj h) (by simp)
    · exact absurd h (by simp)
  · obtain ⟨ms, _, heq⟩ := map_eq_ok.mp h
    obtain rfl := Option.some.inj heq
    rfl

theorem handle_eq_ok {windows windows' : MinuteWindows} :
    handle host cfg windows m = .ok windows' ↔
      (readable host m = none ∧ (editOf host m).isOk ∧ windows' = windows) ∨
      ∃ e, readable host m = some e ∧ windows' = (add cfg windows m.partition e).2 := by
  unfold handle readable
  cases editOf host m with
  | error x => simp [Except.map, Except.toOption, Except.isOk, Except.toBool]
  | ok e => cases e <;> simp [Except.map, Except.toOption, Except.isOk, Except.toBool, eq_comm]

theorem edits_sorted (p : Nat) : (feed.edits host p).Pairwise (fun a b => a.offset < b.offset) := by
  refine (feed.sorted p).filterMap _ (fun a b hab x hx y hy => ?_)
  rw [offset_of_readable hx, offset_of_readable hy]
  exact hab

end TrendingGroup
end Wikistream
