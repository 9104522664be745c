import Mathlib.Tactic.Common

/-!
# `Lib.Machine` — work that may be broken off, seen through questions

A machine answers questions, and each answer may change its state. Two states are alike if no list of questions
tells them apart. Work on a list of items moves the state item by item; when it is broken off, what it did so
far stays.

## Contents
- **Questions.** `replies`, `Alike`, and the rule that a bisimulation makes states alike (`alike_of_bisim`).
- **Work.** `workAll` goes through the items, `LeavesNoTrace` says that breaking it off anywhere leaves a state
  like the one before.
- **Idle items.** `Idleness` collects what it takes for a condition on single items to be exactly that
  (`Idleness.leavesNoTrace_iff`).
- **Histories** (`workThrough`, `kept`): if what was broken off was idle, only the kept batches matter
  (`Idleness.exists_kept`).
-/

namespace Lib

variable {σ κ α μ ε : Type}

/-! ## Questions -/

/-- What a machine answers to the questions, one after the other. -/
def replies (ask : σ → κ → α × σ) : σ → List κ → List α
  | _, [] => []
  | s, q :: qs => (ask s q).1 :: replies ask (ask s q).2 qs

/-- No questions tell the two states apart. -/
def Alike (ask : σ → κ → α × σ) (s t : σ) : Prop := ∀ qs, replies ask s qs = replies ask t qs

variable {ask : σ → κ → α × σ} {s t u : σ}

theorem Alike.symm (h : Alike ask s t) : Alike ask t s := fun qs => (h qs).symm

theorem Alike.trans (hst : Alike ask s t) (htu : Alike ask t u) : Alike ask s u :=
  fun qs => (hst qs).trans (htu qs)

/-- States that are alike answer the first question alike. -/
theorem Alike.fst_ask (h : Alike ask s t) (q : κ) : (ask s q).1 = (ask t q).1 :=
  (List.cons.inj (h [q])).1

/-- They are alike after it, too. -/
theorem Alike.snd_ask (h : Alike ask s t) (q : κ) : Alike ask (ask s q).2 (ask t q).2 :=
  fun qs => (List.cons.inj (h (q :: qs))).2

/-- **The bisimulation rule.** -/
theorem alike_of_bisim {Same : σ → σ → Prop}
    (hsame : ∀ s t q, Same s t → (ask s q).1 = (ask t q).1 ∧ Same (ask s q).2 (ask t q).2) (h : Same s t) :
    Alike ask s t := by
  intro qs
  induction qs generalizing s t with
  | nil => rfl
  | cons q qs ih =>
      obtain ⟨hfst, hsnd⟩ := hsame s t q h
      show (ask s q).1 :: _ = (ask t q).1 :: _
      rw [hfst, ih hsnd]

/-! ## Work -/

/-- Work on the items, one after the other. -/
def workAll (work : σ → μ → Except ε σ) (s : σ) (items : List μ) : Except ε σ := items.foldlM work s

variable {work : σ → μ → Except ε σ} {m : μ} {items more : List μ}

theorem workAll_cons : workAll work s (m :: items) = .ok t ↔
    ∃ s', work s m = .ok s' ∧ workAll work s' items = .ok t := by
  unfold workAll
  rw [List.foldlM_cons]
  cases work s m with
  | error e => exact ⟨fun h => absurd h (by simp [bind, Except.bind]), fun ⟨_, h, _⟩ => absurd h (by simp)⟩
  | ok s' => simp [bind, Except.bind]

theorem workAll_append : workAll work s (items ++ more) = .ok u ↔
    ∃ t, workAll work s items = .ok t ∧ workAll work t more = .ok u := by
  induction items generalizing s with
  | nil => exact ⟨fun h => ⟨s, rfl, h⟩, fun ⟨_, ht, h⟩ => Except.ok.inj ht ▸ h⟩
  | cons m items ih =>
      rw [List.cons_append, workAll_cons]
      constructor
      · rintro ⟨s', hm, h⟩
        obtain ⟨t, ht, h⟩ := ih.mp h
        exact ⟨t, workAll_cons.mpr ⟨s', hm, ht⟩, h⟩
      · rintro ⟨t, ht, h⟩
        obtain ⟨s', hm, ht⟩ := workAll_cons.mp ht
        exact ⟨s', hm, ih.mpr ⟨t, ht, h⟩⟩

/-- Wherever the work on the items is broken off, the state it leaves is like the one before. -/
def LeavesNoTrace (ask : σ → κ → α × σ) (work : σ → μ → Except ε σ) (s : σ) (items : List μ) : Prop :=
  ∀ done rest t, items = done ++ rest → workAll work s done = .ok t → Alike ask t s

/-! ## Idle items -/

/-- `Idle s m` is the condition for item `m` to leave state `s` like it is, and `Same` a relation under which
    states are alike. States are only considered that are `Fit`. -/
structure Idleness (ask : σ → κ → α × σ) (work : σ → μ → Except ε σ) (Fit : σ → Prop) (Same : σ → σ → Prop)
    (Idle : σ → μ → Prop) : Prop where
  refl : ∀ s, Same s s
  symm : ∀ s t, Same s t → Same t s
  trans : ∀ s t u, Same s t → Same t u → Same s u
  alike : ∀ s t, Same s t → Alike ask s t
  congr : ∀ s t m, Same t s → Idle t m → Idle s m
  same_work : ∀ s t t' m, Same t s → work t m = .ok t' → ∃ s', work s m = .ok s' ∧ Same t' s'
  fit : ∀ s t m, Fit s → work s m = .ok t → Fit t
  idle : ∀ s t m, Fit s → work s m = .ok t → Idle s m → Same t s
  busy : ∀ s t m, Fit s → work s m = .ok t → Alike ask t s → Idle s m

variable {Fit : σ → Prop} {Same : σ → σ → Prop} {Idle : σ → μ → Prop}

/-- **Work leaves no trace** if and only if all of its items are idle. -/
theorem Idleness.leavesNoTrace_iff (h : Idleness ask work Fit Same Idle) (hs : Fit s)
    (hwork : workAll work s items = .ok t) :
    LeavesNoTrace ask work s items ↔ ∀ m ∈ items, Idle s m := by
  induction items generalizing s with
  | nil =>
      refine iff_of_true ?_ (fun m hm => absurd hm (by simp))
      intro done rest t' hsplit hdone
      obtain ⟨rfl, _⟩ := List.append_eq_nil_iff.mp hsplit.symm
      exact Except.ok.inj hdone ▸ fun _ => rfl
  | cons m items ih =>
      obtain ⟨s', hm, hrest⟩ := workAll_cons.mp hwork
      have ih' := ih (h.fit s s' m hs hm) hrest
      constructor
      · intro htrace
        have hone : workAll work s [m] = .ok s' := workAll_cons.mpr ⟨s', hm, rfl⟩
        have halike : Alike ask s' s := htrace [m] items s' rfl hone
        have hidle : Idle s m := h.busy s s' m hs hm halike
        -- what comes after `m` is idle in `s'`, and so it is in `s`
        have hafter : LeavesNoTrace ask work s' items := by
          intro done rest t' hsplit hdone
          apply Alike.trans _ halike.symm
          apply htrace (m :: done) rest t'
          · rw [hsplit, List.cons_append]
          · exact workAll_cons.mpr ⟨s', hm, hdone⟩
        intro x hx
        rcases List.mem_cons.mp hx with rfl | hx
        · exact hidle
        · exact h.congr s s' x (h.idle s s' m hs hm hidle) (ih'.mp hafter x hx)
      · intro hall
        have hback := h.idle s s' m hs hm (hall m List.mem_cons_self)
        have hforth := h.symm s' s hback
        have hafter : LeavesNoTrace ask work s' items :=
          ih'.mpr (fun x hx => h.congr s' s x hforth (hall x (List.mem_cons_of_mem _ hx)))
        intro done rest t' hsplit hdone
        cases done with
        | nil => exact Except.ok.inj hdone ▸ fun _ => rfl
        | cons x done =>
            obtain ⟨rfl, htail⟩ := List.cons.inj hsplit
            obtain ⟨s'', hm', hdone⟩ := workAll_cons.mp hdone
            obtain rfl := Except.ok.inj (hm.symm.trans hm')
            exact (hafter done rest t' htail hdone).trans (h.alike s' s hback)

/-! ## Histories -/

/-- What was worked on of a batch, and whether the work was kept or broken off. -/
structure Batch (μ : Type) where
  items : List μ
  kept : Bool

/-- The work on batch after batch; what was broken off is not undone. -/
def workThrough (work : σ → μ → Except ε σ) : σ → List (Batch μ) → Except ε σ
  | s, [] => .ok s
  | s, b :: bs =>
      match workAll work s b.items with
      | .error e => .error e
      | .ok s' => workThrough work s' bs

/-- The items of the kept batches. -/
def kept (history : List (Batch μ)) : List μ := (history.filter Batch.kept).flatMap Batch.items

/-- Every batch that is broken off is idle when it begins. -/
def BrokenOffIdle (work : σ → μ → Except ε σ) (Idle : σ → μ → Prop) : σ → List (Batch μ) → Prop
  | _, [] => True
  | s, b :: bs => (b.kept = false → ∀ m ∈ b.items, Idle s m) ∧
      ∀ s', workAll work s b.items = .ok s' → BrokenOffIdle work Idle s' bs

theorem Idleness.fit_workAll (h : Idleness ask work Fit Same Idle) (hs : Fit s) (hwork : workAll work s items = .ok t) :
    Fit t := by
  induction items generalizing s with
  | nil => exact Except.ok.inj hwork ▸ hs
  | cons m items ih =>
      obtain ⟨s', hm, hrest⟩ := workAll_cons.mp hwork
      exact ih (h.fit s s' m hs hm) hrest

theorem Idleness.same_workAll (h : Idleness ask work Fit Same Idle) (hsame : Same s u)
    (hwork : workAll work s items = .ok t) : ∃ u', workAll work u items = .ok u' ∧ Same t u' := by
  induction items generalizing s u with
  | nil => exact ⟨u, rfl, Except.ok.inj hwork ▸ hsame⟩
  | cons m items ih =>
      obtain ⟨s', hm, hrest⟩ := workAll_cons.mp hwork
      obtain ⟨v, hv, hsame'⟩ := h.same_work u s s' m hsame hm
      obtain ⟨u', hu', hsame''⟩ := ih hsame' hrest
      exact ⟨u', workAll_cons.mpr ⟨v, hv, hu'⟩, hsame''⟩

/-- Idle items change nothing. -/
theorem Idleness.same_of_idle (h : Idleness ask work Fit Same Idle) (hs : Fit s)
    (hwork : workAll work s items = .ok t) (hidle : ∀ m ∈ items, Idle s m) : Same t s := by
  induction items generalizing s with
  | nil => exact Except.ok.inj hwork ▸ h.refl s
  | cons m items ih =>
      obtain ⟨s', hm, hrest⟩ := workAll_cons.mp hwork
      have hback := h.idle s s' m hs hm (hidle m List.mem_cons_self)
      have hforth := h.symm s' s hback
      refine h.trans t s' s (ih (h.fit s s' m hs hm) hrest ?_) hback
      exact fun x hx => h.congr s' s x hforth (hidle x (List.mem_cons_of_mem _ hx))

/-- **Only the kept batches matter**, if every batch that was broken off was idle. -/
theorem Idleness.exists_kept (h : Idleness ask work Fit Same Idle) {history : List (Batch μ)} (hs : Fit s)
    (hwork : workThrough work s history = .ok t) (hidle : BrokenOffIdle work Idle s history) :
    ∃ u, workAll work s (kept history) = .ok u ∧ Same t u := by
  -- for every state that is the same, so that the induction can go past a batch
  have main : ∀ v, Same s v → ∃ u, workAll work v (kept history) = .ok u ∧ Same t u := by
    induction history generalizing s with
    | nil => exact fun v hv => ⟨v, rfl, Except.ok.inj hwork ▸ hv⟩
    | cons b bs ih =>
        intro v hv
        rw [workThrough] at hwork
        split at hwork
        · exact absurd hwork (by simp)
        next s' hb =>
        have ih' := fun w hw => ih (h.fit_workAll hs hb) hwork (hidle.2 s' hb) w hw
        cases hkept : b.kept with
        | true =>
            -- a batch that was kept is worked off by both
            obtain ⟨w, hw, hsame⟩ := h.same_workAll hv hb
            obtain ⟨u, hu, hsame'⟩ := ih' w hsame
            refine ⟨u, ?_, hsame'⟩
            rw [kept, List.filter_cons_of_pos hkept, List.flatMap_cons]
            exact workAll_append.mpr ⟨w, hw, hu⟩
        | false =>
            -- one that was broken off is skipped: the state it left behind is the same as before
            have hback := h.same_of_idle hs hb (hidle.1 hkept)
            obtain ⟨u, hu, hsame⟩ := ih' v (h.trans s' s v hback hv)
            refine ⟨u, ?_, hsame⟩
            rw [kept, List.filter_cons_of_neg (by simp [hkept])]
            exact hu
  exact main s (h.refl s)

end Lib
