import Wikistream.Common.Models
import Wikistream.Lib.Dict
import Wikistream.Processors.Windows

/-!
# `Sinks.Db` — the tables the pipeline writes

A table is a dictionary from its primary key to the columns the row adds. A write is one database
transaction, so a list of rows is applied as a whole or not at all.

## Contents
- **`insertRows`** is an insert with `ON CONFLICT DO NOTHING` on the primary key: it only appends
  (`prefix_insertRows`), leaves every row's key present (`exists_mem_insertRows`) and no key twice
  (`nodup_insertRows`).
- **`edits`**: the columns `INSERT_EDITS` writes, the row of an event (`asRow`), and `insertEdits`, which
  stores a batch of events if the columns take every value of it.
- **`upsertTrending`** keeps the greater count per key. `get?_upsertTrending` reads the table back as a
  maximum over everything written to it (`largest`).
-/

namespace Wikistream
namespace Db

open Lib Windows Py

/-! ## Inserts that skip what is there -/

section Insert

variable {ν κ : Type} [DecidableEq κ] (rowId : ν → κ)

/-- One row of an insert with `ON CONFLICT (id) DO NOTHING`. -/
def insertRow (table : List ν) (row : ν) : List ν :=
  if ∃ stored ∈ table, rowId stored = rowId row then table else table ++ [row]

def insertRows (table rows : List ν) : List ν := rows.foldl (insertRow rowId) table

variable {rowId}

theorem prefix_insertRow (table : List ν) (row : ν) : table <+: insertRow rowId table row := by
  unfold insertRow
  split
  · exact List.prefix_refl _
  · exact List.prefix_append _ _

/-- **A stored row is never changed.** -/
theorem prefix_insertRows (table rows : List ν) : table <+: insertRows rowId table rows := by
  unfold insertRows
  induction rows generalizing table with
  | nil => exact List.prefix_refl _
  | cons row rows ih => exact (prefix_insertRow table row).trans (ih _)

theorem exists_mem_insertRow (table : List ν) (row : ν) :
    ∃ stored ∈ insertRow rowId table row, rowId stored = rowId row := by
  unfold insertRow
  split
  · next h => exact h
  · exact ⟨row, by simp, rfl⟩

theorem exists_mem_insertRows (table : List ν) {rows : List ν} {row : ν} (h : row ∈ rows) :
    ∃ stored ∈ insertRows rowId table rows, rowId stored = rowId row := by
  unfold insertRows
  induction rows generalizing table with
  | nil => exact absurd h (by simp)
  | cons r rows ih =>
      rcases List.mem_cons.mp h with rfl | h'
      · obtain ⟨stored, hs, hid⟩ := @exists_mem_insertRow _ _ _ rowId table row
        exact ⟨stored, (prefix_insertRows _ rows).subset hs, hid⟩
      · exact ih _ h'

theorem mem_of_mem_insertRows {table rows : List ν} {row : ν} (h : row ∈ insertRows rowId table rows) :
    row ∈ table ∨ row ∈ rows := by
  unfold insertRows at h
  induction rows generalizing table with
  | nil => exact Or.inl h
  | cons r rows ih =>
      rcases ih h with h' | h'
      · unfold insertRow at h'
        split at h'
        · exact Or.inl h'
        · rcases List.mem_append.mp h' with ht | hr
          · exact Or.inl ht
          · exact Or.inr (List.mem_singleton.mp hr ▸ List.mem_cons_self)
      · exact Or.inr (List.mem_cons_of_mem _ h')

/-- **No id has two rows.** -/
theorem nodup_insertRows {table : List ν} (h : (table.map rowId).Nodup) (rows : List ν) :
    ((insertRows rowId table rows).map rowId).Nodup := by
  unfold insertRows
  induction rows generalizing table with
  | nil => exact h
  | cons r rows ih =>
      refine ih ?_
      unfold insertRow
      split
      · exact h
      · next hnew =>
          rw [List.map_append, List.nodup_append]
          refine ⟨h, by simp, ?_⟩
          intro a ha b hb hab
          obtain ⟨stored, hs, rfl⟩ := List.mem_map.mp ha
          simp only [List.map_cons, List.map_nil, List.mem_singleton] at hb
          exact hnew ⟨stored, hs, hab.trans hb⟩

end Insert

/-! ## Edits -/

/-- A value as it is handed to the database. -/
inductive SqlValue
  | text (s : Str)
  | int (n : Int)
  | bool (b : Bool)
  | null
  deriving DecidableEq

inductive ColumnType
  | text
  | integer
  | bigint
  | boolean
  | timestamptz
  deriving DecidableEq

structure Column where
  name : String
  type : ColumnType
  nullable : Bool := false

/-- The columns of `INSERT_EDITS`, as `schema.sql` declares them. -/
def editsColumns : List Column :=
  [{ name := "event_id", type := .text }, { name := "wiki", type := .text }, { name := "title", type := .text },
    { name := "type", type := .text }, { name := "namespace", type := .integer },
    { name := "username", type := .text }, { name := "bot", type := .boolean },
    { name := "minor", type := .boolean }, { name := "comment", type := .text },
    { name := "event_time", type := .timestamptz }, { name := "rev_old", type := .bigint, nullable := true },
    { name := "rev_new", type := .bigint, nullable := true },
    { name := "length_old", type := .integer, nullable := true },
    { name := "length_new", type := .integer, nullable := true }, { name := "server_name", type := .text },
    { name := "is_revert", type := .boolean, nullable := true }]

/-- `n` fits a signed integer of `bits` bits. -/
def FitsBits (bits : Nat) (n : Int) : Prop := -2 ^ (bits - 1) ≤ n ∧ n < 2 ^ (bits - 1)

instance (bits : Nat) (n : Int) : Decidable (FitsBits bits n) := inferInstanceAs (Decidable (_ ∧ _))

/-- `TEXT` refuses a NUL character, and a lone surrogate has no bytes in UTF-8, which psycopg2 sends a text in. -/
def refused (c : Chr) : Bool := c.val == 0 || isSurrogate c

/-- `s` fits a `TEXT` column. -/
def FitsText (s : Str) : Prop := s.any refused = false

instance (s : Str) : Decidable (FitsText s) := inferInstanceAs (Decidable (_ = _))

/-- The column takes the value. `INTEGER` and `BIGINT` refuse what is out of range, and a time is given in ISO 8601. -/
def Accepts (column : Column) : SqlValue → Prop
  | .null => column.nullable = true
  | .text s =>
      match column.type with
      | .text => FitsText s
      | .timestamptz => s.any isSurrogate = false ∧ (fromisoformat s).isOk = true
      | _ => False
  | .int n =>
      match column.type with
      | .integer => FitsBits 32 n
      | .bigint => FitsBits 64 n
      | _ => False
  | .bool _ => column.type = .boolean

instance (column : Column) (v : SqlValue) : Decidable (Accepts column v) := by
  unfold Accepts
  split
  · infer_instance
  · split <;> infer_instance
  · split <;> infer_instance
  · infer_instance

/-- `None` or an `int`. -/
def sqlInt : Option Int → SqlValue
  | some n => .int n
  | none => .null

def asRow (host : Host) (event : Models.CleanEvent) : List SqlValue :=
  [.text event.eventId, .text event.wiki, .text event.title, .text event.type, .int event.pageNamespace,
    .text event.user, .bool event.bot, .bool event.minor, .text event.comment, .text event.eventTime,
    sqlInt event.revOld, sqlInt event.revNew, sqlInt event.lengthOld, sqlInt event.lengthNew,
    .text event.serverName, .bool (event.isRevert host)]

/-- Every column takes its value. -/
def Storable (row : List SqlValue) : Prop := List.Forall₂ Accepts editsColumns row

instance (row : List SqlValue) : Decidable (Storable row) := inferInstanceAs (Decidable (List.Forall₂ _ _ _))

/-- `insert_edits`: the rows of the batch are stored, or, if a column refuses a value, none of them is and the
    call raises. -/
def insertEdits (host : Host) (table : List (List SqlValue)) (events : List Models.CleanEvent) :
    Option (List (List SqlValue)) :=
  let rows := events.map (asRow host)
  if ∀ row ∈ rows, Storable row then some (insertRows List.head? table rows) else none

theorem accepts_sqlInt_integer (name : String) (v : Option Int) :
    Accepts ⟨name, .integer, true⟩ (sqlInt v) ↔ ∀ n ∈ v, FitsBits 32 n := by
  cases v <;> simp [sqlInt, Accepts]

theorem accepts_sqlInt_bigint (name : String) (v : Option Int) :
    Accepts ⟨name, .bigint, true⟩ (sqlInt v) ↔ ∀ n ∈ v, FitsBits 64 n := by
  cases v <;> simp [sqlInt, Accepts]

/-- The columns take a row exactly if its texts fit, its numbers are in range and its time can be sent and read. -/
theorem storable_asRow (host : Host) (event : Models.CleanEvent) :
    Storable (asRow host event) ↔
      FitsText event.eventId ∧ FitsText event.wiki ∧ FitsText event.title ∧ FitsText event.type ∧
      FitsBits 32 event.pageNamespace ∧ FitsText event.user ∧ FitsText event.comment ∧
      (event.eventTime.any isSurrogate = false ∧ (fromisoformat event.eventTime).isOk = true) ∧
      (∀ n ∈ event.revOld, FitsBits 64 n) ∧ (∀ n ∈ event.revNew, FitsBits 64 n) ∧
      (∀ n ∈ event.lengthOld, FitsBits 32 n) ∧ (∀ n ∈ event.lengthNew, FitsBits 32 n) ∧
      FitsText event.serverName := by
  unfold Storable editsColumns asRow
  simp only [List.forall₂_cons, accepts_sqlInt_integer, accepts_sqlInt_bigint]
  simp only [Accepts, true_and, List.forall₂_nil_left_iff, and_true]

/-- A batch is stored exactly if every event of it can be. -/
theorem insertEdits_isSome (host : Host) (table : List (List SqlValue)) (events : List Models.CleanEvent) :
    (insertEdits host table events).isSome = true ↔ ∀ event ∈ events, Storable (asRow host event) := by
  unfold insertEdits
  dsimp only
  split
  · next h => exact iff_of_true rfl (List.forall_mem_map.mp h)
  · next h => exact iff_of_false (by simp) (fun hall => h (List.forall_mem_map.mpr hall))

/-! ## Totals per minute -/

/-- `trending_minutes`: the count under each `(wiki, title, minute)`. -/
abbrev TrendingMinutes := Dict WindowKey Nat

/-- One row of `UPSERT_TRENDING`: insert, or keep the greater of the stored and the written count. -/
def upsertRow (t : TrendingMinutes) (row : ClosedWindow) : TrendingMinutes :=
  match t.get? row.key with
  | none => t.set row.key row.count
  | some stored => t.set row.key (max stored row.count)

def upsertTrending (t : TrendingMinutes) (rows : List ClosedWindow) : TrendingMinutes :=
  rows.foldl upsertRow t

/-- The largest count `rows` holds for `k`. -/
def largest (rows : List ClosedWindow) (k : WindowKey) : Option Nat :=
  ((rows.filter (fun r => r.key = k)).map ClosedWindow.count).max?

theorem largest_eq_none_iff {rows : List ClosedWindow} {k : WindowKey} :
    largest rows k = none ↔ ∀ r ∈ rows, r.key ≠ k := by
  simp [largest, List.filter_eq_nil_iff]

theorem largest_eq_some_iff {rows : List ClosedWindow} {k : WindowKey} {n : Nat} :
    largest rows k = some n ↔
      (∃ r ∈ rows, r.key = k ∧ r.count = n) ∧ ∀ r ∈ rows, r.key = k → r.count ≤ n := by
  unfold largest
  rw [List.max?_eq_some_iff]
  refine and_congr ?_ ?_
  · simp [and_assoc]
  · rw [List.forall_mem_map]
    simp

theorem largest_cons (row : ClosedWindow) (rows : List ClosedWindow) (k : WindowKey) :
    largest (row :: rows) k =
      if row.key = k then max (some row.count) (largest rows k) else largest rows k := by
  unfold largest
  by_cases hk : row.key = k
  · rw [if_pos hk, List.filter_cons_of_pos (by simpa using hk), List.map_cons, List.max?_cons]
    cases ((rows.filter (fun r => r.key = k)).map ClosedWindow.count).max? <;> rfl
  · rw [if_neg hk, List.filter_cons_of_neg (by simpa using hk)]

theorem get?_upsertRow (t : TrendingMinutes) (row : ClosedWindow) (k : WindowKey) :
    (upsertRow t row).get? k =
      if row.key = k then max (t.get? k) (some row.count) else t.get? k := by
  unfold upsertRow
  by_cases hk : row.key = k
  · subst hk
    cases h : t.get? row.key <;> simp
  · have hk' : k ≠ row.key := fun h => hk h.symm
    cases t.get? row.key <;> simp [Dict.get?_set, hk, hk']

/-- **The table is a maximum.** Whatever the order and the repetitions of the writes, a key holds the
    greatest count ever written under it. -/
theorem get?_upsertTrending (t : TrendingMinutes) (rows : List ClosedWindow) (k : WindowKey) :
    (upsertTrending t rows).get? k = max (t.get? k) (largest rows k) := by
  unfold upsertTrending
  induction rows generalizing t with
  | nil => exact (Option.max_none_right).symm
  | cons row rows ih =>
      rw [List.foldl_cons, ih, get?_upsertRow, largest_cons]
      split
      · cases t.get? k <;> cases largest rows k <;> simp [Nat.max_assoc]
      · rfl

/-- The rows one partition hands to a flush: one for each window that is done. -/
theorem largest_popRows {cfg : Config} {final : Bool} (s : PartitionState) (k : WindowKey) :
    largest (popRows cfg final s) k =
      if isDone final (closedBefore cfg s) k then (s.windows.get? k).map Window.count else none := by
  by_cases hd : isDone final (closedBefore cfg s) k
  · rw [if_pos hd]
    cases hk : s.windows.get? k with
    | none =>
        refine largest_eq_none_iff.mpr (fun r hr hrk => ?_)
        obtain ⟨j, w, hj, _, rfl⟩ := mem_popRows.mp hr
        rw [show k = j from hrk.symm, hj] at hk
        exact absurd hk (by simp)
    | some w =>
        refine largest_eq_some_iff.mpr ⟨⟨_, mem_popRows.mpr ⟨k, w, hk, hd, rfl⟩, rfl, rfl⟩, ?_⟩
        intro r hr hrk
        obtain ⟨j, v, hj, _, rfl⟩ := mem_popRows.mp hr
        rw [show j = k from hrk, hk] at hj
        obtain rfl := Option.some.inj hj
        exact le_refl _
  · rw [if_neg hd]
    refine largest_eq_none_iff.mpr (fun r hr hrk => hd ?_)
    obtain ⟨j, w, _, hj, rfl⟩ := mem_popRows.mp hr
    exact (show j = k from hrk) ▸ hj

/-- When only partition `p` has windows under `k`, the row for `k` comes from `p`. -/
theorem largest_popClosed {cfg : Config} {m : MinuteWindows} {final : Bool} {p : Nat} {k : WindowKey}
    (h : ∀ q s j w, m.partitions.get? q = some s → s.windows.get? j = some w → j = k → q = p) :
    largest (popClosed cfg m final).1 k = largest (popRows cfg final (partitionOf m p)) k := by
  have hmem : ∀ r : ClosedWindow, r.key = k →
      (r ∈ (popClosed cfg m final).1 ↔ r ∈ popRows cfg final (partitionOf m p)) := by
    intro r hrk
    rw [mem_popClosed]
    constructor
    · rintro ⟨q, s, hq, hr⟩
      obtain ⟨j, w, hj, _, rfl⟩ := mem_popRows.mp hr
      obtain rfl := h q s j w hq hj hrk
      rwa [partitionOf, hq]
    · intro hr
      cases hp : m.partitions.get? p with
      | none =>
          rw [partitionOf, hp] at hr
          obtain ⟨_, w, hw, _⟩ := mem_popRows.mp hr
          exact absurd hw (by simp)
      | some s =>
          rw [partitionOf, hp] at hr
          exact ⟨p, s, hp, hr⟩
  apply Option.ext
  intro n
  rw [largest_eq_some_iff, largest_eq_some_iff]
  have hex : (∃ r ∈ (popClosed cfg m final).1, r.key = k ∧ r.count = n) ↔
      ∃ r ∈ popRows cfg final (partitionOf m p), r.key = k ∧ r.count = n :=
    exists_congr fun r => by
      by_cases hrk : r.key = k
      · rw [hmem r hrk]
      · simp [hrk]
  have hall : (∀ r ∈ (popClosed cfg m final).1, r.key = k → r.count ≤ n) ↔
      ∀ r ∈ popRows cfg final (partitionOf m p), r.key = k → r.count ≤ n :=
    forall_congr' fun r => by
      by_cases hrk : r.key = k
      · rw [hmem r hrk]
      · simp [hrk]
  rw [hex, hall]

end Db
end Wikistream
