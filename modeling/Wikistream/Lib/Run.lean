import Mathlib.Tactic.Common

/-!
# `Lib.Run` — runs of a partial step function

A system is a step function `σ → α → Option σ`: the state and the action it takes decide the next state,
and `none` means the action is not possible there. A run is a list of actions.

## Contents
- **Runs.** `run step s as`.
- **Guarded runs.** `Always step ok s as`: every action of the run satisfies `ok` in the state it is
  taken in. This is how an assumption about a whole run is stated.
- **The invariant rule** (`run_invariant`): what holds at the start and is preserved by every guarded step
  holds at the end of every guarded run. The invariant may mention the actions taken so far.
- **Monitors** (`monitored`): a record of what happened, kept beside the system, for conditions on runs.
-/

namespace Lib

variable {σ α : Type} (step : σ → α → Option σ) (ok : σ → α → Prop)

/-- The state after the actions `as`, if each of them is possible when its turn comes. -/
def run : σ → List α → Option σ
  | s, [] => some s
  | s, a :: as => (step s a).bind (fun s' => run s' as)

/-- Every action of the run satisfies `ok` in the state it is taken in. -/
def Always : σ → List α → Prop
  | _, [] => True
  | s, a :: as => ok s a ∧ ∀ s', step s a = some s' → Always s' as

instance decidableAlways [∀ s a, Decidable (ok s a)] : ∀ s as, Decidable (Always step ok s as)
  | _, [] => inferInstanceAs (Decidable True)
  | s, a :: as =>
      have : Decidable (∀ s', step s a = some s' → Always step ok s' as) :=
        match step s a with
        | none => isTrue (fun _ h => nomatch h)
        | some t =>
            match decidableAlways t as with
            | isTrue h => isTrue (fun _ ht => Option.some.inj ht ▸ h)
            | isFalse h => isFalse (fun hall => h (hall t rfl))
      inferInstanceAs (Decidable (_ ∧ _))

variable {step ok}

@[simp] theorem run_nil (s : σ) : run step s [] = some s := rfl

theorem run_cons (s : σ) (a : α) (as : List α) :
    run step s (a :: as) = (step s a).bind (fun s' => run step s' as) := rfl

theorem run_append (s : σ) (as bs : List α) :
    run step s (as ++ bs) = (run step s as).bind (fun s' => run step s' bs) := by
  induction as generalizing s with
  | nil => rfl
  | cons a as ih =>
      rw [List.cons_append, run_cons, run_cons]
      cases step s a with
      | none => rfl
      | some s' => exact ih s'

theorem always_of_forall (h : ∀ s a, ok s a) (s : σ) (as : List α) : Always step ok s as := by
  induction as generalizing s with
  | nil => trivial
  | cons a as ih => exact ⟨h s a, fun s' _ => ih s'⟩

/-- A condition on the actions alone. -/
theorem always_of_mem {ok : α → Prop} {as : List α} (h : ∀ a ∈ as, ok a) (s : σ) :
    Always step (fun _ a => ok a) s as := by
  induction as generalizing s with
  | nil => trivial
  | cons a as ih => exact ⟨h a List.mem_cons_self, fun s' _ => ih (fun x hx => h x (List.mem_cons_of_mem _ hx)) s'⟩

theorem always_snoc {s : σ} {as : List α} {a : α} :
    Always step ok s (as ++ [a]) ↔
      Always step ok s as ∧ ∀ t, run step s as = some t → ok t a := by
  induction as generalizing s with
  | nil => simp [Always]
  | cons b as ih =>
      constructor
      · rintro ⟨hb, hrest⟩
        refine ⟨⟨hb, fun t ht => (ih.mp (hrest t ht)).1⟩, ?_⟩
        intro t ht
        obtain ⟨u, hu, hrun⟩ := Option.bind_eq_some_iff.mp ht
        exact (ih.mp (hrest u hu)).2 t hrun
      · rintro ⟨⟨hb, hrest⟩, hlast⟩
        refine ⟨hb, fun t ht => ih.mpr ⟨hrest t ht, ?_⟩⟩
        intro u hu
        apply hlast
        rw [run_cons, ht]
        exact hu

/-- A step function that never refuses an action runs as a fold. -/
theorem run_total (f : σ → α → σ) (s : σ) (as : List α) :
    run (fun s a => some (f s a)) s as = some (as.foldl f s) := by
  induction as generalizing s with
  | nil => rfl
  | cons a as ih => exact ih (f s a)

/-- **The invariant rule.** `I as s` may mention the actions `as` that led to `s`. -/
theorem run_invariant {I : List α → σ → Prop} {s s' : σ} {as : List α} (hinit : I [] s)
    (hstep : ∀ as t a t', I as t → ok t a → step t a = some t' → I (as ++ [a]) t')
    (hok : Always step ok s as) (hrun : run step s as = some s') : I as s' := by
  have main : ∀ bs before t, I before t → Always step ok t bs → run step t bs = some s' →
      I (before ++ bs) s' := by
    intro bs
    induction bs with
    | nil =>
        intro before t hI _ hrun
        rw [List.append_nil]
        exact Option.some.inj hrun ▸ hI
    | cons b bs ih =>
        intro before t hI hok hrun
        obtain ⟨u, hu, hrun'⟩ := Option.bind_eq_some_iff.mp hrun
        have := ih (before ++ [b]) u (hstep before t b u hI hok.1 hu) (hok.2 u hu) hrun'
        rwa [List.append_assoc, List.singleton_append] at this
  exact main as [] s hinit hok hrun

/-- The invariant rule for an invariant of the state alone. -/
theorem run_state_invariant {I : σ → Prop} {s s' : σ} {as : List α} (hinit : I s)
    (hstep : ∀ t a t', I t → ok t a → step t a = some t' → I t')
    (hok : Always step ok s as) (hrun : run step s as = some s') : I s' :=
  run_invariant (I := fun _ => I) hinit (fun _ => hstep) hok hrun

/-! ## Monitors -/

variable {μ : Type}

/-- The system with a monitor at its side, which sees every action and the state it is taken in and
    influences nothing. -/
def monitored (step : σ → α → Option σ) (watch : μ → σ → α → μ) (s : σ × μ) (a : α) :
    Option (σ × μ) :=
  (step s.1 a).map (fun s' => (s', watch s.2 s.1 a))

theorem monitored_eq_some {watch : μ → σ → α → μ} {s s' : σ × μ} {a : α} :
    monitored step watch s a = some s' ↔ step s.1 a = some s'.1 ∧ s'.2 = watch s.2 s.1 a := by
  unfold monitored
  rw [Option.map_eq_some_iff]
  constructor
  · rintro ⟨t, ht, rfl⟩
    exact ⟨ht, rfl⟩
  · rintro ⟨ht, hm⟩
    exact ⟨s'.1, ht, Prod.ext rfl hm.symm⟩

end Lib
