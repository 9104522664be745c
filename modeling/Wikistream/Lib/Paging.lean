import Wikistream.Lib.NewestFirst

/-!
# `Lib.Paging` — reading a list page by page, with a key as the cursor

A page holds the first `n` rows below the cursor, and the key of its last row is the next cursor. The comparison is
strict, so rows that share the cursor's key are not read again, and those that did not fit are not read at all.

## Contents
- **Pages** (`older`, `Reads`): what is read from a cursor to another, and up to an empty page (`Walk`).
- **What is read** (`Reads.pairwise`, `Reads.subperm`): rows in order, none twice, so there are few pages
  (`Reads.length_le`) and a walk exists (`exists_walk`).
- **When all is read** (`NoSplit`, `Walk.perm_iff`): no page ends between two rows of one key.
-/

namespace Lib

variable {α κ : Type} [LinearOrder κ] (key : α → κ) (n : Nat) (l : List α)

/-- The rows below the cursor. -/
def older (cursor : Option κ) : List α := l.filter (fun a => cursor.all (key a < ·))

/-- The pages read from a cursor on, with any order among equal keys, and the cursor after them. -/
inductive Reads : Option κ → List (List α) → Option κ → Prop
  | refl (cursor : Option κ) : Reads cursor [] cursor
  | page {cursor last : Option κ} {rows : List α} {pages : List (List α)} {a : α}
      (htop : Top key n (older key l cursor) rows) (ha : rows.getLast? = some a)
      (hrest : Reads (some (key a)) pages last) : Reads cursor (rows :: pages) last

/-- The pages up to an empty one. -/
def Walk (cursor : Option κ) (pages : List (List α)) : Prop :=
  ∃ last, Reads key n l cursor pages last ∧ Top key n (older key l last) []

omit [LinearOrder κ] in
/-- No two neighbours of equal key stand where a page of `n` ends and the next begins. -/
def NoSplit (keys : List κ) : Prop := ∀ k, 0 < k → k * n < keys.length → keys[k * n - 1]? ≠ keys[k * n]?

variable {key n l} {cursor last : Option κ} {rows rest : List α} {pages : List (List α)} {a : α}

theorem mem_older : a ∈ older key l cursor ↔ a ∈ l ∧ ∀ t ∈ cursor, key a < t := by
  cases cursor <;> simp [older]

theorem older_none : older key l none = l := by simp [older]

/-! ## One page -/

theorem Top.mem (h : Top key n l rows) (ha : a ∈ rows) : a ∈ l := by
  obtain ⟨rest, hperm, _⟩ := h.exists_rest
  exact hperm.subset (List.mem_append_left rest ha)

/-- The last row of a page is its oldest. -/
theorem key_le_of_getLast? (hrows : rows.Pairwise (NoOlder key)) (ha : rows.getLast? = some a) :
    ∀ b ∈ rows, key a ≤ key b := by
  obtain ⟨init, rfl⟩ := List.getLast?_eq_some_iff.mp ha
  intro b hb
  rcases List.mem_append.mp hb with hb | hb
  · exact (List.pairwise_append.mp hrows).2.2 b hb a (List.mem_singleton_self a)
  · rw [List.mem_singleton.mp hb]

/-- What is below the next cursor is below this one. -/
theorem older_some (ha : a ∈ older key l cursor) :
    older key l (some (key a)) = (older key l cursor).filter (key · < key a) := by
  have hcursor := (mem_older.mp ha).2
  unfold older
  rw [List.filter_filter]
  refine List.filter_congr (fun b _ => ?_)
  cases cursor with
  | none => simp
  | some t =>
      have hlt := hcursor t rfl
      rw [Bool.eq_iff_iff]
      simpa using fun h => h.trans hlt

/-- **The next cursor leaves what did not fit** and has another key than the page's last row. -/
theorem perm_older_some (htop : Top key n (older key l cursor) rows) (ha : rows.getLast? = some a)
    (hperm : (rows ++ rest).Perm (older key l cursor)) :
    (older key l (some (key a))).Perm (rest.filter (key · < key a)) := by
  have hnone : rows.filter (fun b => decide (key b < key a)) = [] := by
    refine List.filter_eq_nil_iff.mpr (fun b hb => ?_)
    simpa using key_le_of_getLast? htop.pairwise ha b hb
  have hfilter := hperm.filter (fun b => decide (key b < key a))
  rw [List.filter_append, hnone, List.nil_append] at hfilter
  rw [older_some (htop.mem (List.mem_of_getLast? ha))]
  exact hfilter.symm

/-! ## What is read -/

/-- **No row is read twice**, and none that is not there. -/
theorem Reads.subperm (h : Reads key n l cursor pages last) : pages.flatten.Subperm (older key l cursor) := by
  induction h with
  | refl cursor => exact List.nil_subperm
  | page htop ha _ ih =>
      obtain ⟨rest, hperm, _⟩ := htop.exists_rest
      have hnext := (perm_older_some htop ha hperm).subperm
      have hrest := (ih.trans hnext).trans (List.filter_sublist.subperm)
      exact ((List.subperm_append_left _).mpr hrest).trans hperm.subperm

/-- **The rows come in order**, across pages too. -/
theorem Reads.pairwise (h : Reads key n l cursor pages last) : pages.flatten.Pairwise (NoOlder key) := by
  induction h with
  | refl cursor => exact List.Pairwise.nil
  | page htop ha hrest ih =>
      rw [List.flatten_cons, List.pairwise_append]
      refine ⟨htop.pairwise, ih, fun b hb c hc => ?_⟩
      have holder := (mem_older.mp (hrest.subperm.subset hc)).2 _ rfl
      exact holder.le.trans (key_le_of_getLast? htop.pairwise ha b hb)

theorem Walk.subperm (h : Walk key n l cursor pages) : pages.flatten.Subperm (older key l cursor) := by
  obtain ⟨_, hreads, _⟩ := h
  exact hreads.subperm

theorem Walk.pairwise (h : Walk key n l cursor pages) : pages.flatten.Pairwise (NoOlder key) := by
  obtain ⟨_, hreads, _⟩ := h
  exact hreads.pairwise

/-- **There are no more pages than rows.** -/
theorem Reads.length_le (h : Reads key n l cursor pages last) : pages.length ≤ (older key l cursor).length := by
  have hpages : pages.length ≤ pages.flatten.length := by
    induction h with
    | refl cursor => exact Nat.le_refl 0
    | @page _ _ rows _ _ _ ha _ ih =>
        have hne := List.length_pos_of_mem (List.mem_of_getLast? ha)
        rw [List.length_cons, List.flatten_cons, List.length_append]
        omega
  exact hpages.trans h.subperm.length_le

/-- A page is empty only when nothing is left. -/
theorem top_nil_iff (hn : 0 < n) : Top key n l [] ↔ l = [] := by
  constructor
  · intro h
    obtain ⟨rest, hperm, _, _, _, hfull⟩ := h.exists_rest
    by_contra hne
    have hrest : rest ≠ [] := fun hnil => hne (by simpa [hnil] using hperm.symm)
    exact absurd (hfull hrest) (by simpa using hn.ne)
  · rintro rfl
    exact ⟨[], List.Perm.refl _, List.Pairwise.nil, List.take_nil.symm⟩

/-- Reading on always comes to an empty page. -/
theorem exists_walk (cursor : Option κ) : ∃ pages, Walk key n l cursor pages := by
  induction hlength : (older key l cursor).length using Nat.strongRecOn generalizing cursor with
  | ind length ih =>
      have htop := top_newestFirst key n (older key l cursor)
      cases ha : ((newestFirst key (older key l cursor)).take n).getLast? with
      | none =>
          rw [List.getLast?_eq_none_iff.mp ha] at htop
          exact ⟨[], cursor, .refl cursor, htop⟩
      | some a =>
          have hmem := htop.mem (List.mem_of_getLast? ha)
          have hfewer : (older key l (some (key a))).length < length := by
            rw [older_some hmem, ← hlength]
            exact List.length_filter_lt_length_iff_exists.mpr ⟨a, hmem, by simp⟩
          obtain ⟨pages, last, hreads, hlast⟩ := ih _ hfewer (some (key a)) rfl
          exact ⟨_ :: pages, last, .page htop ha hreads, hlast⟩

/-! ## When all is read -/

omit [LinearOrder κ] in
theorem noSplit_of_length_le {keys : List κ} (h : keys.length ≤ n) : NoSplit n keys := by
  intro k hk hlt
  have := Nat.le_mul_of_pos_left n hk
  omega

omit [LinearOrder κ] in
/-- A list longer than a page: the page's last key is not the next one, and the rest is split nowhere. -/
theorem noSplit_append {xs ys : List κ} (hn : 0 < n) (hxs : xs.length = n) (hys : ys ≠ []) :
    NoSplit n (xs ++ ys) ↔ xs.getLast? ≠ ys.head? ∧ NoSplit n ys := by
  have hlater (k : Nat) (i : Nat) (hi : i + n = (k + 1) * n) : (xs ++ ys)[(k + 1) * n]? = ys[i]? := by
    rw [← hi, List.getElem?_append_right (by omega)]
    congr 1
    omega
  have hbefore (k : Nat) (hk : 0 < k) : (xs ++ ys)[(k + 1) * n - 1]? = ys[k * n - 1]? := by
    have := Nat.le_mul_of_pos_left n hk
    rw [Nat.succ_mul, List.getElem?_append_right (by omega)]
    congr 1
    omega
  have hfirst : (xs ++ ys)[1 * n - 1]? = xs.getLast? := by
    rw [Nat.one_mul, List.getElem?_append_left (by omega), List.getLast?_eq_getElem?, hxs]
  have hsecond : (xs ++ ys)[1 * n]? = ys.head? := by
    rw [Nat.one_mul, List.getElem?_append_right (by omega), hxs, Nat.sub_self, List.head?_eq_getElem?]
  unfold NoSplit
  rw [List.length_append, hxs]
  constructor
  · intro h
    have hpos := List.length_pos_of_ne_nil hys
    refine ⟨hfirst ▸ hsecond ▸ h 1 Nat.one_pos (by omega), fun k hk hlt => ?_⟩
    have hne := h (k + 1) (Nat.succ_pos k) (by rw [Nat.succ_mul]; omega)
    rwa [hbefore k hk, hlater k (k * n) (Nat.succ_mul k n).symm] at hne
  · rintro ⟨hends, hrest⟩ k hk hlt
    obtain ⟨j, rfl⟩ := Nat.exists_eq_add_of_lt hk
    rw [Nat.zero_add] at hlt ⊢
    rcases Nat.eq_zero_or_pos j with rfl | hj
    · rw [Nat.zero_add, hfirst, hsecond]
      exact hends
    · rw [hbefore j hj, hlater j (j * n) (Nat.succ_mul j n).symm]
      refine hrest j hj ?_
      rw [Nat.succ_mul] at hlt
      omega

/-- **A walk reads every row exactly if no page ends between two rows of one key.** -/
theorem Walk.perm_iff (hn : 0 < n) (h : Walk key n l cursor pages) :
    pages.flatten.Perm (older key l cursor) ↔ NoSplit n ((newestFirst key (older key l cursor)).map key) := by
  obtain ⟨last, hreads, hlast⟩ := h
  induction hreads with
  | refl cursor =>
      rw [(top_nil_iff hn).mp hlast]
      exact iff_of_true (List.Perm.refl _) (noSplit_of_length_le (Nat.zero_le n))
  | @page cursor last rows pages a htop ha hrest ih =>
      obtain ⟨rest, hperm, hcross, hsorted, hlength, hfull⟩ := htop.exists_rest
      have hnext := perm_older_some htop ha hperm
      have hkeys : (newestFirst key (older key l cursor)).map key = rows.map key ++ rest.map key := by
        rw [← List.map_append]
        refine map_key_eq ((perm_newestFirst key _).trans hperm.symm) (pairwise_newestFirst key _) ?_
        exact List.pairwise_append.mpr ⟨htop.pairwise, hsorted, hcross⟩
      rw [hkeys, List.flatten_cons]
      by_cases hnil : rest = []
      · -- the page holds all there is
        subst hnil
        have hnone := hrest.subperm.trans hnext.subperm
        rw [List.filter_nil, List.subperm_nil] at hnone
        rw [hnone]
        refine iff_of_true hperm (noSplit_of_length_le ?_)
        simpa using hlength
      · have hlastKey : (rows.map key).getLast? = some (key a) := by
          rw [List.getLast?_map, ha, Option.map_some]
        obtain ⟨b, rest', rfl⟩ := List.exists_cons_of_ne_nil hnil
        rw [noSplit_append hn (by rw [List.length_map, hfull hnil]) (by simp), hlastKey, List.map_cons, List.head?_cons]
        by_cases hsplit : key a = key b
        · -- the rows of the cursor's key that did not fit are left out for good
          refine iff_of_false (fun hall => ?_) (fun h => h.1 (congrArg some hsplit))
          have hfewer : ((b :: rest').filter (key · < key a)).length < (b :: rest').length :=
            List.length_filter_lt_length_iff_exists.mpr ⟨b, List.mem_cons_self, by simp [hsplit]⟩
          have hread := (hrest.subperm.trans hnext.subperm).length_le
          have hsame := (hall.trans hperm.symm).length_eq
          rw [List.length_append, List.length_append] at hsame
          omega
        · have hb : key b < key a :=
            lt_of_le_of_ne (hcross a (List.mem_of_getLast? ha) b List.mem_cons_self) (Ne.symm hsplit)
          have hkeep : (b :: rest').filter (key · < key a) = b :: rest' := by
            refine List.filter_eq_self.mpr (fun c hc => decide_eq_true ?_)
            rcases List.mem_cons.mp hc with rfl | hc
            · exact hb
            · exact lt_of_le_of_lt ((List.pairwise_cons.mp hsorted).1 c hc) hb
          rw [hkeep] at hnext
          have hrestKeys := map_key_eq ((perm_newestFirst key _).trans hnext) (pairwise_newestFirst key _) hsorted
          rw [← List.map_cons, ← hrestKeys, ← ih hlast]
          constructor
          · intro hall
            have hpages := (List.perm_append_left_iff rows).mp (hall.trans hperm.symm)
            exact ⟨fun heq => hsplit (Option.some.inj heq), hpages.trans hnext.symm⟩
          · rintro ⟨_, hpages⟩
            exact ((hpages.trans hnext).append_left rows).trans hperm

end Lib
