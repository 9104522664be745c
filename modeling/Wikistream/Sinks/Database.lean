import Wikistream.Lib.Loop
import Wikistream.Python.Exc
import Wikistream.Python.Lines

/-!
# `Sinks.Database` — a connection that survives PostgreSQL going away

A write that fails because its connection is lost is tried again on a new one. What the server and the operation do
is an `Environment`: how each attempt comes out, and each try to connect behind it.

## Contents
- **Errors** (`DbError`, `reason`): what `write` reads of one, for its log.
- **Connecting** (`waitForDatabase`). `waitForDatabase_eq_ok` says when it works.
- **Writing** (`writeRound`, `write`). `writeRound_cases` says what one round can do.
-/

namespace Wikistream
namespace Db

open Py Lib

/-! ## Errors -/

/-- `CONNECTION_ERRORS`. -/
inductive ConnectionError
  | operationalError
  | interfaceError
  deriving DecidableEq

/-- `type(exc).__name__`. -/
def ConnectionError.name : ConnectionError → Str
  | .operationalError => lit "OperationalError"
  | .interfaceError => lit "InterfaceError"

/-- An exception that the operation or `connect` raises. -/
inductive DbError
  | connection (cls : ConnectionError) (text : Str)
  | other (e : Exc)
  deriving DecidableEq

/-- The reason that `write` logs: the first line of the text, or the class of an error without one. -/
def reason (cls : ConnectionError) (text : Str) : Except DbError Str :=
  if strip text = [] then .ok cls.name
  else
    match splitlines (strip text) with
    | [] => .error (.other .indexError)
    | line :: _ => .ok line

theorem reason_eq_ok (cls : ConnectionError) (text : Str) : ∃ line, reason cls text = .ok line := by
  unfold reason
  split
  · exact ⟨_, rfl⟩
  · next hne =>
      split
      · next hnil => exact absurd hnil (splitlines_ne_nil hne)
      · exact ⟨_, rfl⟩

/-! ## Connecting -/

section Connecting

variable {γ : Type}

/-- The loop of `wait_for_database`, with the tries that are left. -/
def waitFrom (connect : Nat → Except DbError γ) : (left attempt : Nat) → Option DbError → Except DbError γ
  | 0, _, some lastError => .error lastError
  | 0, _, none => .error (.other (.typeError (lit "exceptions must derive from BaseException")))
  | left + 1, attempt, _ =>
      match connect attempt with
      | .ok connection => .ok connection
      | .error (.connection .operationalError text) =>
          waitFrom connect left (attempt + 1) (some (.connection .operationalError text))
      | .error e => .error e

/-- `wait_for_database`. -/
def waitForDatabase (connect : Nat → Except DbError γ) (retries : Nat) : Except DbError γ :=
  waitFrom connect retries 0 none

/-- One of the tries connects, and before it the server was not ready. -/
def Connects (connect : Nat → Except DbError γ) (retries : Nat) : Prop :=
  ∃ i < retries, (∃ connection, connect i = .ok connection) ∧
    ∀ j < i, ∃ text, connect j = .error (.connection .operationalError text)

theorem connects_succ {connect : Nat → Except DbError γ} {retries : Nat} :
    Connects connect (retries + 1) ↔ (∃ connection, connect 0 = .ok connection) ∨
      (∃ text, connect 0 = .error (.connection .operationalError text)) ∧
        Connects (fun i => connect (i + 1)) retries := by
  constructor
  · rintro ⟨i, hi, hconnects, hbefore⟩
    cases i with
    | zero => exact Or.inl hconnects
    | succ i =>
        refine Or.inr ⟨hbefore 0 (Nat.succ_pos i), i, Nat.lt_of_succ_lt_succ hi, hconnects, fun j hj => ?_⟩
        exact hbefore (j + 1) (Nat.succ_lt_succ hj)
  · rintro (hnow | ⟨hretry, i, hi, hconnects, hbefore⟩)
    · exact ⟨0, Nat.succ_pos retries, hnow, fun j hj => absurd hj (Nat.not_lt_zero j)⟩
    · refine ⟨i + 1, Nat.succ_lt_succ hi, hconnects, fun j hj => ?_⟩
      cases j with
      | zero => exact hretry
      | succ j => exact hbefore j (Nat.lt_of_succ_lt_succ hj)

theorem waitFrom_eq_ok {connect : Nat → Except DbError γ} {left attempt : Nat} {lastError : Option DbError} :
    (∃ connection, waitFrom connect left attempt lastError = .ok connection) ↔
      Connects (fun i => connect (i + attempt)) left := by
  induction left generalizing attempt lastError with
  | zero =>
      refine iff_of_false ?_ ?_
      · rintro ⟨connection, h⟩
        cases lastError <;> exact absurd h (by simp [waitFrom])
      · rintro ⟨i, hi, _⟩
        exact absurd hi (Nat.not_lt_zero i)
  | succ left ih =>
      have hshift : (fun i => connect (i + (attempt + 1))) = fun i => connect (i + 1 + attempt) :=
        funext (fun i => congrArg connect (Nat.add_assoc i 1 attempt ▸ Nat.add_comm 1 attempt ▸ rfl))
      rw [waitFrom, connects_succ, Nat.zero_add]
      split
      · next connection hok => exact iff_of_true ⟨connection, rfl⟩ (Or.inl ⟨connection, hok⟩)
      · next text hretry =>
          rw [ih, hshift, hretry]
          simp
      · next e hnot herror =>
          -- any other error is raised at once
          refine iff_of_false (fun h => absurd h.choose_spec (by simp)) ?_
          rintro (⟨connection, hok⟩ | ⟨⟨text, htext⟩, _⟩)
          · exact absurd (herror.symm.trans hok) (by simp)
          · exact hnot text (Except.error.inj (herror.symm.trans htext))

/-- **When `wait_for_database` connects.** -/
theorem waitForDatabase_eq_ok {connect : Nat → Except DbError γ} {retries : Nat} :
    (∃ connection, waitForDatabase connect retries = .ok connection) ↔ Connects connect retries := by
  exact @waitFrom_eq_ok γ connect retries 0 none

end Connecting

/-! ## Writing -/

section Writing

variable {γ α β : Type}

/-- What the operation does at each attempt, and what each try to connect behind the attempt comes to. -/
structure Environment (γ β : Type) where
  attempt : Nat → Except DbError β
  connect : Nat → Nat → Except DbError γ

/-- `Database`. -/
structure Database (γ : Type) where
  connection : γ
  retries : Nat := 30
  reconnects : Nat := 0

/-- A write that is going on: the database, and the calls of the operation so far. -/
structure Writing (γ α : Type) where
  db : Database γ
  calls : List (γ × α) := []

/-- One round of the loop of `write`. -/
def writeRound (env : Environment γ β) (args : α) (w : Writing γ α) :
    Writing γ α ⊕ (Except DbError β × Writing γ α) :=
  let attempt := w.calls.length
  let called := { w with calls := w.calls ++ [(w.db.connection, args)] }
  match env.attempt attempt with
  | .ok result => .inr (.ok result, called)
  -- not one of `CONNECTION_ERRORS`: no retry
  | .error (.other e) => .inr (.error (.other e), called)
  | .error (.connection cls text) =>
      match reason cls text with
      | .error e => .inr (.error e, called)
      -- the connection is gone; what `reason` says only goes to the log
      | .ok _ =>
          match waitForDatabase (env.connect attempt) w.db.retries with
          | .error e => .inr (.error e, called)
          | .ok connection =>
              .inl { called with db := { w.db with connection, reconnects := w.db.reconnects + 1 } }

/-- `write(operation, *args)`, for at most `fuel` attempts. -/
def write (env : Environment γ β) (args : α) (fuel : Nat) (db : Database γ) :
    Writing γ α ⊕ (Except DbError β × Writing γ α) := loop (writeRound env args) fuel { db }

/-- The attempt loses its connection. -/
def Environment.LosesConnection (env : Environment γ β) (n : Nat) : Prop :=
  ∃ cls text, env.attempt n = .error (.connection cls text)

/-- How a write ends with its attempt `n`: it returns the attempt's result; it raises the attempt's error, which is
    no connection's; or it raises the error of the reconnect behind the attempt. -/
def Environment.EndsWith (env : Environment γ β) (retries n : Nat) (result : Except DbError β) : Prop :=
  (∃ b, env.attempt n = .ok b ∧ result = .ok b) ∨
    (∃ e, env.attempt n = .error (.other e) ∧ result = .error (.other e)) ∨
      env.LosesConnection n ∧ ∃ e, waitForDatabase (env.connect n) retries = .error e ∧ result = .error e

variable {env : Environment γ β} {args : α} {w : Writing γ α}

/-- **What one round can do.** It calls the operation once; it goes on with a new connection, or it leaves. -/
theorem writeRound_cases :
    (env.LosesConnection w.calls.length ∧ ∃ connection,
        waitForDatabase (env.connect w.calls.length) w.db.retries = .ok connection ∧
        writeRound env args w = .inl
          { db := { w.db with connection, reconnects := w.db.reconnects + 1 }
            calls := w.calls ++ [(w.db.connection, args)] }) ∨
      ∃ result, env.EndsWith w.db.retries w.calls.length result ∧
        writeRound env args w = .inr (result, { w with calls := w.calls ++ [(w.db.connection, args)] }) := by
  unfold writeRound
  dsimp only
  split
  · next b hb => exact Or.inr ⟨.ok b, Or.inl ⟨b, hb, rfl⟩, rfl⟩
  · next e he => exact Or.inr ⟨.error (.other e), Or.inr (Or.inl ⟨e, he, rfl⟩), rfl⟩
  · next cls text hlost =>
      obtain ⟨line, hline⟩ := reason_eq_ok cls text
      rw [hline]
      dsimp only
      split
      · next e he => exact Or.inr ⟨.error e, Or.inr (Or.inr ⟨⟨cls, text, hlost⟩, e, he, rfl⟩), rfl⟩
      · next connection hconnection => exact Or.inl ⟨⟨cls, text, hlost⟩, connection, hconnection, rfl⟩

end Writing

end Db
end Wikistream
