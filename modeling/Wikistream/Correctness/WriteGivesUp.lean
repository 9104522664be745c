import Wikistream.Sinks.Database

/-!
# `Correctness.WriteGivesUp` — when a database write ends

The bound on reconnecting is `wait_for_database`'s own: it limits the tries behind one attempt, and the loop of
`write` has none. An error that is no connection's in truth, such as a full disk, is retried for as long as
connecting works.

## Contents
- **What ends the loop** (`GivesUp`, `ends_write_iff`): its `n`th round leaves if and only if the `n`th attempt keeps
  its connection, or connecting behind it fails.
- **The result** (`write_gives_up_iff`), and a disk that is full (`full_disk_never_ends`).
-/

namespace Wikistream
namespace Db

open Py Lib

variable {γ α β : Type} {env : Environment γ β} {args : α} {db : Database γ} {w : Writing γ α}

/-- The write ends, and as its last attempt or the reconnect behind that says. -/
def GivesUp (env : Environment γ β) (args : α) (db : Database γ) : Prop :=
  ∃ fuel result w n, write env args fuel db = .inr (result, w) ∧ w.calls.length = n + 1 ∧
    env.EndsWith db.retries n result

/-- The calls of the operation, of a write that goes on or has ended. -/
def callsOf (s : Writing γ α ⊕ (Except DbError β × Writing γ α)) : List (γ × α) :=
  s.elim Writing.calls (fun out => out.2.calls)

/-- Behind attempt `n` nothing is tried again. -/
def Environment.Leaves (env : Environment γ β) (retries n : Nat) : Prop :=
  ¬ env.LosesConnection n ∨ ¬ Connects (env.connect n) retries

/-- An attempt that ends the write is one behind which nothing is tried again. -/
theorem Environment.EndsWith.leaves {retries n : Nat} {result : Except DbError β}
    (h : env.EndsWith retries n result) : env.Leaves retries n := by
  rcases h with ⟨b, hb, _⟩ | ⟨e, he, _⟩ | ⟨_, e, he, _⟩
  · left
    rintro ⟨cls, text, hlost⟩
    exact absurd (hb.symm.trans hlost) (by simp)
  · left
    rintro ⟨cls, text, hlost⟩
    exact absurd (he.symm.trans hlost) (by simp)
  · right
    intro hconnects
    obtain ⟨connection, hok⟩ := waitForDatabase_eq_ok.mpr hconnects
    exact absurd (he.symm.trans hok) (by simp)

/-- A round that may be tried again is, on a new connection. -/
theorem writeRound_go (h : ¬ env.Leaves w.db.retries w.calls.length) :
    ∃ w', writeRound env args w = .inl w' ∧ w'.db.retries = w.db.retries ∧
      w'.calls.length = w.calls.length + 1 := by
  rcases @writeRound_cases γ α β env args w with ⟨_, connection, _, hround⟩ | ⟨result, hends, _⟩
  · exact ⟨_, hround, rfl, List.length_append⟩
  · exact absurd hends.leaves h

/-- A round that may not be tried again leaves the loop. -/
theorem writeRound_leave (h : env.Leaves w.db.retries w.calls.length) :
    ∃ out, writeRound env args w = .inr out := by
  rcases @writeRound_cases γ α β env args w with ⟨hlost, connection, hok, _⟩ | ⟨result, _, hround⟩
  · rcases h with hkept | hfails
    · exact absurd hlost hkept
    · exact absurd (waitForDatabase_eq_ok.mp ⟨connection, hok⟩) hfails
  · exact ⟨_, hround⟩

/-- **What ends the loop.** -/
theorem ends_write_iff :
    Ends (writeRound env args) { db } ↔ ∃ n, env.Leaves db.retries n := by
  -- the loop goes on as long as no attempt ends it
  have hgo : ∀ w : Writing γ α, w.db.retries = db.retries → ¬ env.Leaves db.retries w.calls.length →
      ∃ w', writeRound env args w = .inl w' ∧ w'.db.retries = db.retries ∧
        w'.calls.length = w.calls.length + 1 := by
    intro w hw hnot
    rw [← hw] at hnot
    obtain ⟨w', hround, hretries, hlength⟩ := @writeRound_go γ α β env args w hnot
    exact ⟨w', hround, hretries.trans hw, hlength⟩
  have hleave : ∀ w : Writing γ α, w.db.retries = db.retries → env.Leaves db.retries w.calls.length →
      ∃ out, writeRound env args w = .inr out := by
    intro w hw hleave
    rw [← hw] at hleave
    exact writeRound_leave hleave
  rw [ends_iff hgo hleave rfl]
  exact exists_congr (fun n => and_iff_right (Nat.zero_le n))

/-- However it ends, the last attempt says. -/
theorem endsWith_of_write {fuel : Nat} {out : Except DbError β × Writing γ α}
    (h : write env args fuel db = .inr out) :
    ∃ n, out.2.calls.length = n + 1 ∧ env.EndsWith db.retries n out.1 := by
  refine (loop_induction (I := fun w => w.db.retries = db.retries)
    (Q := fun out => ∃ n, out.2.calls.length = n + 1 ∧ env.EndsWith db.retries n out.1) ?_ ?_ rfl fuel).2 out h
  · intro w w' hw hround
    rcases @writeRound_cases γ α β env args w with ⟨_, connection, _, hround'⟩ | ⟨_, _, hround'⟩
    · exact Sum.inl.inj (hround'.symm.trans hround) ▸ hw
    · exact absurd (hround'.symm.trans hround) (by simp)
  · intro w out hw hround
    rcases @writeRound_cases γ α β env args w with ⟨_, connection, _, hround'⟩ | ⟨result, hends, hround'⟩
    · exact absurd (hround'.symm.trans hround) (by simp)
    · obtain rfl := Sum.inr.inj (hround'.symm.trans hround)
      exact ⟨w.calls.length, List.length_append, hw ▸ hends⟩

/-- **Every call has the arguments of the write.** -/
theorem args_of_calls (fuel : Nat) : ∀ call ∈ callsOf (write env args fuel db), call.2 = args := by
  have hsame : ∀ w : Writing γ α, (∀ call ∈ w.calls, call.2 = args) →
      ∀ call ∈ w.calls ++ [(w.db.connection, args)], call.2 = args := by
    intro w hw call hcall
    rcases List.mem_append.mp hcall with hold | hnew
    · exact hw call hold
    · rw [List.mem_singleton.mp hnew]
  -- the arguments of the calls so far are kept by a round, whether it goes on or ends
  have hgo : ∀ w w' : Writing γ α, (∀ call ∈ w.calls, call.2 = args) → writeRound env args w = .inl w' →
      ∀ call ∈ w'.calls, call.2 = args := by
    intro w w' hw hround
    rcases @writeRound_cases γ α β env args w with ⟨_, connection, _, hround'⟩ | ⟨_, _, hround'⟩
    · exact Sum.inl.inj (hround'.symm.trans hround) ▸ hsame w hw
    · exact absurd (hround'.symm.trans hround) (by simp)
  have hleave : ∀ (w : Writing γ α) (out : Except DbError β × Writing γ α), (∀ call ∈ w.calls, call.2 = args) →
      writeRound env args w = .inr out → ∀ call ∈ out.2.calls, call.2 = args := by
    intro w out hw hround
    rcases @writeRound_cases γ α β env args w with ⟨_, connection, _, hround'⟩ | ⟨result, hends, hround'⟩
    · exact absurd (hround'.symm.trans hround) (by simp)
    · exact Sum.inr.inj (hround'.symm.trans hround) ▸ hsame w hw
  have hinit : ∀ call ∈ ({ db } : Writing γ α).calls, call.2 = args := fun call hcall => absurd hcall (by simp)
  obtain ⟨hgoing, hended⟩ := loop_induction hgo hleave hinit fuel
  unfold callsOf
  cases hwrite : write env args fuel db with
  | inl w => exact hgoing w hwrite
  | inr out => exact hended out hwrite

/-! ## The result -/

/-- **When a write gives up.** It ends if and only if some attempt keeps its connection, or connecting fails behind
    some attempt; and every attempt has the same arguments. -/
theorem write_gives_up_iff (env : Environment γ β) (args : α) (db : Database γ) :
    (GivesUp env args db ↔ ∃ n, ¬ env.LosesConnection n ∨ ¬ Connects (env.connect n) db.retries) ∧
      ∀ fuel, ∀ call ∈ callsOf (write env args fuel db), call.2 = args := by
  refine ⟨Iff.trans ?_ (@ends_write_iff γ α β env args db), args_of_calls⟩
  constructor
  · rintro ⟨fuel, result, w, n, hwrite, _⟩
    exact ⟨fuel, _, hwrite⟩
  · rintro ⟨fuel, out, hwrite⟩
    obtain ⟨n, hlength, hends⟩ := endsWith_of_write hwrite
    exact ⟨fuel, out.1, out.2, n, hwrite, hlength, hends⟩

/-- A server whose disk is full: every write fails, and connecting works. -/
def diskFull : Environment Unit Unit where
  attempt _ := .error (.connection .operationalError (lit "could not extend file: No space left on device"))
  connect _ _ := .ok ()

/-- **The write never ends.** -/
theorem full_disk_never_ends : ¬ GivesUp diskFull () { connection := () } := by
  rintro ⟨fuel, result, w, n, hwrite, _⟩
  obtain ⟨n, hkept | hfails⟩ := ends_write_iff.mp ⟨fuel, _, hwrite⟩
  · exact hkept ⟨_, _, rfl⟩
  · exact hfails ⟨0, by decide, ⟨(), rfl⟩, fun j hj => absurd hj (Nat.not_lt_zero j)⟩

end Db
end Wikistream
