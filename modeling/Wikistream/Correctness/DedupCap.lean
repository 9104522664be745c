import Mathlib.Data.List.Flatten
import Wikistream.Processors.DedupBuckets

/-!
# `Correctness.DedupCap` — which ids the size cap drops

`_enforce_size` drops the bucket that was opened first. That is the oldest one as long as buckets are opened in
the order of their times.

## Contents
- **The promise** (`EvictsOldest`): only the oldest bucket goes, and not the one the id was just added to.
- **The condition** (`Overflows`, `FrontOldest`): the bucket opened first is older than the others, whenever one
  has to go.
- **The invariant** (`Capped`): a cache is below its cap or has one bucket. So at most one bucket goes at a time
  (`held_of_overflows`).
- **The result** (`evicts_oldest_iff`).
-/

namespace Wikistream
namespace Dedup

open Py Lib

namespace DedupCache

/-! ## The promise and the condition -/

/-- Every bucket that the call evicts is older than all that are still held, and is not that of the call's id. -/
def EvictsOldest (cache : DedupCache) (id : Str) (t : Int) : Prop :=
  ∀ gone bucket rest, (cache.filed id t).held.entries = gone ++ bucket :: rest →
    bucket.1 ∉ (cache.isNew id t).2.held.keys →
      (∀ b ∈ rest, bucket.1 < b.1) ∧ bucket.1 ≠ t / cache.bucketSpanMs

/-- The call adds an id to a full cache, and there is a bucket besides that of the id. -/
def Overflows (cache : DedupCache) (id : Str) (t : Int) : Prop :=
  id ∉ (cache.expire t).ids ∧ cache.maxIds < (cache.expire t).size + 1 ∧
    ∃ index ∈ (cache.expire t).held.keys, index ≠ t / cache.bucketSpanMs

instance (cache : DedupCache) (id : Str) (t : Int) : Decidable (cache.Overflows id t) :=
  inferInstanceAs (Decidable (_ ∧ _ ∧ ∃ _ ∈ _, _))

/-- The bucket that was opened first is the oldest, and older than that of an id of this time. -/
def FrontOldest (cache : DedupCache) (t : Int) : Prop :=
  ∀ front ∈ (cache.expire t).held.keys.head?,
    front < t / cache.bucketSpanMs ∧ ∀ index ∈ (cache.expire t).held.keys, front ≤ index

instance (cache : DedupCache) (t : Int) : Decidable (cache.FrontOldest t) :=
  inferInstanceAs (Decidable (∀ front ∈ _, _ ∧ ∀ index ∈ _, _))

/-! ## The invariant -/

/-- No bucket is empty, and only a single bucket may be over the cap. -/
structure Capped (cache : DedupCache) : Prop where
  nonempty : ∀ index bucket, cache.held.get? index = some bucket → bucket ≠ []
  bounded : cache.size ≤ cache.maxIds ∨ cache.held.entries.length ≤ 1

variable {cache : DedupCache} {id : Str} {t : Int}

theorem capped_of_empty (h : cache.held = Dict.empty) : cache.Capped where
  nonempty index bucket hb := by
    rw [h] at hb
    exact absurd hb (by simp)
  bounded := Or.inr (by rw [h]; exact Nat.zero_le 1)

theorem length_le_of_sublist {es fs : List (Int × List Str)} (h : es.Sublist fs) :
    (es.map Prod.snd).flatten.length ≤ (fs.map Prod.snd).flatten.length :=
  (h.map Prod.snd).flatten.length_le

theorem Capped.expire (h : cache.Capped) : (cache.expire t).Capped where
  nonempty index bucket hb := h.nonempty index bucket (held_expire hb).1
  bounded := by
    have hsub : (cache.expire t).held.entries.Sublist cache.held.entries := List.filter_sublist
    rcases h.bounded with hsize | hone
    · exact Or.inl ((length_le_of_sublist hsub).trans hsize)
    · exact Or.inr (hsub.length_le.trans hone)

/-- One bucket goes if there is another one, and what is behind it is few enough or a single bucket. -/
theorem dropOldest_cons {maxIds : Nat} {b : Int × List Str} {bs : List (Int × List Str)} (hne : bs ≠ [])
    (hmany : maxIds < ((b :: bs).map Prod.snd).flatten.length)
    (hrest : (bs.map Prod.snd).flatten.length ≤ maxIds ∨ bs.length ≤ 1) : dropOldest maxIds (b :: bs) = bs := by
  cases bs with
  | nil => exact absurd rfl hne
  | cons b' bs =>
      rw [dropOldest, if_pos hmany]
      rcases hrest with hfew | hshort
      · exact dropOldest_of_le hfew
      · obtain rfl : bs = [] := by
          apply List.eq_nil_of_length_eq_zero
          rw [List.length_cons] at hshort
          omega
        rw [dropOldest]
        intro _ _ _ hc
        exact absurd hc (by simp)

/-- Dropping goes on until the ids fit or one bucket is left. -/
theorem dropOldest_spec (maxIds : Nat) (bs : List (Int × List Str)) :
    ((dropOldest maxIds bs).map Prod.snd).flatten.length ≤ maxIds ∨ (dropOldest maxIds bs).length ≤ 1 := by
  fun_induction dropOldest maxIds bs with
  | case1 b b' bs hmany ih => exact ih
  | case2 b b' bs hfew => exact Or.inl (Nat.le_of_not_lt hfew)
  | case3 bs hshort =>
      right
      rcases bs with _ | ⟨b, _ | ⟨b', bs⟩⟩
      · exact Nat.zero_le 1
      · exact Nat.le_refl 1
      · exact absurd rfl (hshort b b' bs)

theorem nonempty_filed (h : cache.Capped) {index : Int} {bucket : List Str}
    (hb : (cache.filed id t).held.get? index = some bucket) : bucket ≠ [] := by
  unfold filed at hb
  split at hb
  · exact (h.expire (t := t)).nonempty index bucket hb
  · rcases held_insert hb with ⟨_, rfl⟩ | ⟨_, hold⟩
    · simp
    · exact (h.expire (t := t)).nonempty index bucket hold

theorem Capped.isNew (h : cache.Capped) : (cache.isNew id t).2.Capped := by
  have hheld := held_isNew cache id t
  by_cases hid : id ∈ (cache.expire t).ids
  · rw [if_pos hid] at hheld
    have hfiled : (cache.filed id t).held = (cache.expire t).held := by
      unfold filed
      rw [if_pos hid]
    have hexpired := h.expire (t := t)
    refine ⟨?_, ?_⟩
    · rw [hheld, hfiled]
      exact hexpired.nonempty
    · unfold size ids
      rw [hheld, hfiled, maxIds_isNew]
      exact hexpired.bounded
  · rw [if_neg hid] at hheld
    refine ⟨?_, ?_⟩
    · intro index bucket hb
      rw [hheld] at hb
      exact nonempty_filed h (held_enforceSize hb)
    · have hspec := dropOldest_spec (cache.filed id t).maxIds (cache.filed id t).held.entries
      unfold size ids
      rw [hheld, maxIds_isNew, ← maxIds_filed cache id t]
      exact hspec

theorem capped_fill (h : cache.Capped) (calls : List (Str × Int)) : (cache.fill calls).Capped := by
  induction calls generalizing cache with
  | nil => exact h
  | cons call calls ih => exact ih h.isNew

/-! ## What goes when the cap is reached -/

theorem size_insert (cache : DedupCache) (index : Int) (id : Str) : (cache.insert index id).size = cache.size + 1 := by
  have htotal := Dict.total_set List.length cache.held index (((cache.held.get? index).getD []) ++ [id])
  have hold : ((cache.held.get? index).map List.length).getD 0 = ((cache.held.get? index).getD []).length := by
    cases cache.held.get? index <;> rfl
  rw [hold, List.length_append, List.length_singleton] at htotal
  unfold size ids
  rw [List.length_flatten, List.length_flatten]
  show (cache.held.set index _).total List.length = cache.held.total List.length + 1
  omega

theorem mem_keys_filed {index : Int} (h : id ∉ (cache.expire t).ids) :
    index ∈ (cache.filed id t).held.keys ↔
      index ∈ (cache.expire t).held.keys ∨ index = t / cache.bucketSpanMs := by
  unfold filed
  rw [if_neg h]
  show index ∈ ((cache.expire t).held.set _ _).keys ↔ _
  rw [Dict.mem_keys_iff, Dict.mem_keys_iff]
  simp only [Dict.get?_set]
  split
  · next hi => simp [hi]
  · next hi => simp [hi]

/-- **One bucket goes**: the one that was opened first. -/
theorem held_of_overflows (h : cache.Capped) (hover : cache.Overflows id t) :
    ∃ front rest, (cache.filed id t).held.entries = front :: rest ∧ (cache.isNew id t).2.held.entries = rest ∧
      (cache.expire t).held.keys.head? = some front.1 := by
  obtain ⟨hid, hfull, index, hindex, hother⟩ := hover
  have hfiled : (cache.filed id t) = (cache.expire t).insert (t / cache.bucketSpanMs) id := if_neg hid
  have hsize : (cache.filed id t).size = (cache.expire t).size + 1 := by rw [hfiled, size_insert]
  have hheld := held_isNew cache id t
  rw [if_neg hid] at hheld
  have hentries : (cache.filed id t).held.entries = upsert (t / cache.bucketSpanMs)
      ((((cache.expire t).held.get? (t / cache.bucketSpanMs)).getD []) ++ [id]) (cache.expire t).held.entries := by
    rw [hfiled]
    rfl
  -- the first bucket stays in front
  obtain ⟨e, es, hexpired⟩ : ∃ e es, (cache.expire t).held.entries = e :: es :=
    List.exists_cons_of_ne_nil (fun hnil => by
      unfold Dict.keys at hindex
      rw [hnil] at hindex
      exact absurd hindex (by simp))
  obtain ⟨front, rest, hsplit, hfront⟩ : ∃ front rest, (cache.filed id t).held.entries = front :: rest ∧
      front.1 = e.1 := by
    rw [hentries, hexpired, upsert]
    split
    · next he => exact ⟨_, _, rfl, he.symm⟩
    · exact ⟨_, _, rfl, rfl⟩
  refine ⟨front, rest, hsplit, ?_, ?_⟩
  · -- what is behind it is below the cap, or a single bucket
    have hne : front.2 ≠ [] := nonempty_filed h (Dict.get?_eq_some_iff.mpr (hsplit ▸ List.mem_cons_self))
    have hcount : front.2.length + (rest.map Prod.snd).flatten.length = (cache.expire t).size + 1 := by
      rw [← hsize]
      unfold size ids Dict.values
      rw [hsplit]
      simp
    have hpos := List.length_pos_iff.mpr hne
    have htwo : rest ≠ [] := by
      -- the other bucket and the id's own are there
      rintro rfl
      have hkeys : ∀ i, i ∈ (cache.filed id t).held.keys → i = front.1 := by
        intro i hi
        unfold Dict.keys at hi
        rw [hsplit] at hi
        simpa using hi
      have hone := hkeys index ((mem_keys_filed hid).mpr (Or.inl hindex))
      have hown := hkeys _ ((mem_keys_filed hid).mpr (Or.inr rfl))
      exact absurd (hone.trans hown.symm) hother
    have hmany : cache.maxIds < ((front :: rest).map Prod.snd).flatten.length := by
      have hsum : ((front :: rest).map Prod.snd).flatten.length =
          front.2.length + (rest.map Prod.snd).flatten.length := by simp
      omega
    have henough : (rest.map Prod.snd).flatten.length ≤ cache.maxIds ∨ rest.length ≤ 1 := by
      rcases (h.expire (t := t)).bounded with hsmall | hone
      · have hsmall' : (cache.expire t).size ≤ cache.maxIds := hsmall
        exact Or.inl (by omega)
      · have hlength : (cache.filed id t).held.entries.length ≤ 2 := by
          rw [hfiled]
          show ((cache.expire t).held.set _ _).size ≤ 2
          rw [Dict.size_set]
          have hone' : (cache.expire t).held.size ≤ 1 := hone
          split <;> omega
        rw [hsplit, List.length_cons] at hlength
        exact Or.inr (by omega)
    rw [hheld]
    show dropOldest (cache.filed id t).maxIds (cache.filed id t).held.entries = rest
    rw [maxIds_filed, hsplit]
    exact dropOldest_cons htwo hmany henough
  · unfold Dict.keys
    rw [hexpired, hfront]
    rfl

/-- Otherwise nothing goes. -/
theorem held_of_not_overflows (hfits : ¬ cache.Overflows id t) :
    (cache.isNew id t).2.held = (cache.filed id t).held := by
  rw [held_isNew]
  split
  · rfl
  · next hid =>
      have hfiled : (cache.filed id t) = (cache.expire t).insert (t / cache.bucketSpanMs) id := if_neg hid
      by_cases hfull : cache.maxIds < (cache.expire t).size + 1
      · -- then the id's bucket is the only one
        have honly : ∀ i ∈ (cache.filed id t).held.keys, i = t / cache.bucketSpanMs := by
          intro i hi
          rcases (mem_keys_filed hid).mp hi with hold | hi
          · by_contra hne
            exact hfits ⟨hid, hfull, i, hold, hne⟩
          · exact hi
        have hshort : (cache.filed id t).held.entries.length ≤ 1 := by
          by_contra hlong
          obtain ⟨a, b, rest, hsplit⟩ : ∃ a b rest, (cache.filed id t).held.entries = a :: b :: rest := by
            match hentries : (cache.filed id t).held.entries with
            | [] => exact absurd (by simp [hentries]) hlong
            | [a] => exact absurd (by simp [hentries]) hlong
            | a :: b :: rest => exact ⟨a, b, rest, rfl⟩
          have hnodup := (cache.filed id t).held.nodup
          unfold Dict.keys at honly
          rw [hsplit] at hnodup honly
          have ha := honly a.1 (by simp)
          have hb := honly b.1 (by simp)
          simp [ha, hb] at hnodup
        unfold enforceSize
        dsimp only
        have hsame : dropOldest (cache.filed id t).maxIds (cache.filed id t).held.entries =
            (cache.filed id t).held.entries := by
          unfold dropOldest
          split
          · next b b' bs hentries =>
              rw [hentries] at hshort
              exact absurd hshort (by simp)
          · rfl
        congr
      · apply held_enforceSize_of_le
        rw [maxIds_filed, hfiled, size_insert]
        omega

/-! ## The result -/

/-- With the oldest bucket in front, only the oldest one goes. -/
theorem evictsOldest_iff (h : cache.Capped) :
    cache.EvictsOldest id t ↔ (cache.Overflows id t → cache.FrontOldest t) := by
  by_cases hover : cache.Overflows id t
  · obtain ⟨front, rest, hfiled, hkept, hhead⟩ := held_of_overflows h hover
    have hnodup := (cache.filed id t).held.nodup
    rw [hfiled, List.map_cons, List.nodup_cons] at hnodup
    have hkeys : ∀ index, index ∈ (cache.filed id t).held.keys ↔ index = front.1 ∨ index ∈ rest.map Prod.fst := by
      intro index
      unfold Dict.keys
      rw [hfiled, List.map_cons, List.mem_cons]
    have hgone : front.1 ∉ (cache.isNew id t).2.held.keys := by
      unfold Dict.keys
      rw [hkept]
      exact hnodup.1
    constructor
    · intro hevicts _ f hf
      obtain rfl := Option.some.inj (hhead.symm.trans hf)
      obtain ⟨hoverrest, hown⟩ := hevicts [] front rest hfiled hgone
      have hleast : ∀ index, index ∈ (cache.filed id t).held.keys → index ≠ front.1 → front.1 < index := by
        intro index hindex hne
        obtain ⟨b, hb, rfl⟩ := List.mem_map.mp (((hkeys index).mp hindex).resolve_left hne)
        exact hoverrest b hb
      refine ⟨hleast _ ((mem_keys_filed hover.1).mpr (Or.inr rfl)) hown.symm, ?_⟩
      intro index hindex
      by_cases hsame : index = front.1
      · exact le_of_eq hsame.symm
      · exact (hleast index ((mem_keys_filed hover.1).mpr (Or.inl hindex)) hsame).le
    · intro hcond gone bucket rest' hsplit hbucket
      obtain ⟨hown, hleast⟩ := hcond hover front.1 hhead
      -- the bucket that goes is the front
      cases gone with
      | cons g gone =>
          exfalso
          rw [hfiled] at hsplit
          obtain ⟨_, hrest⟩ := List.cons.inj hsplit
          apply hbucket
          unfold Dict.keys
          rw [hkept, hrest]
          simp
      | nil =>
          rw [hfiled] at hsplit
          obtain ⟨rfl, rfl⟩ := List.cons.inj hsplit
          refine ⟨?_, ne_of_lt hown⟩
          intro b hb
          have hin : b.1 ∈ rest.map Prod.fst := List.mem_map_of_mem hb
          have hne : b.1 ≠ front.1 := fun heq => hnodup.1 (heq ▸ hin)
          rcases (mem_keys_filed hover.1).mp ((hkeys b.1).mpr (Or.inr hin)) with hold | hb
          · exact lt_of_le_of_ne (hleast b.1 hold) hne.symm
          · exact hb ▸ hown
  · refine iff_of_true ?_ (fun h => absurd h hover)
    intro gone bucket rest hsplit hbucket
    exfalso
    apply hbucket
    rw [held_of_not_overflows hover]
    unfold Dict.keys
    rw [hsplit]
    simp

/-- A window that is not negative holds the call's own bucket. -/
theorem cutoff_le_iff (cache : DedupCache) (t : Int) :
    (t - cache.windowMs) / cache.bucketSpanMs ≤ t / cache.bucketSpanMs ↔ 0 ≤ cache.windowMs := by
  constructor
  · intro h
    by_contra hneg
    have hspan : cache.bucketSpanMs = 1 := by
      unfold bucketSpanMs
      apply max_eq_right
      have : cache.windowMs / cache.buckets ≤ 0 :=
        Int.ediv_nonpos_of_nonpos_of_neg (by omega) (by have := cache.buckets_pos; omega)
      omega
    rw [hspan, Int.ediv_one, Int.ediv_one] at h
    omega
  · intro h
    apply Int.ediv_le_ediv cache.bucketSpanMs_pos
    omega

/-- The same call at once is a repeat, unless the bucket went that the id was just added to. -/
theorem repeat_eq_false_iff (h : cache.Capped) (hnew : (cache.isNew id t).1 = true) :
    ((cache.isNew id t).2.isNew id t).1 = false ↔
      0 ≤ cache.windowMs ∧
        (cache.Overflows id t → (cache.expire t).held.keys.head? ≠ some (t / cache.bucketSpanMs)) := by
  have hid : id ∉ (cache.expire t).ids := by
    intro hid
    rw [isNew_eq_false_iff.mpr hid] at hnew
    exact absurd hnew (by simp)
  have hfiled : (cache.filed id t) = (cache.expire t).insert (t / cache.bucketSpanMs) id := if_neg hid
  -- the id is in its own bucket or nowhere
  have hown : ∀ index, (cache.filed id t).InBucket index id ↔ index = t / cache.bucketSpanMs := by
    intro index
    rw [hfiled, inBucket_insert]
    constructor
    · rintro (hold | ⟨rfl, _⟩)
      · exact absurd (mem_ids_iff_inBucket.mpr ⟨index, hold⟩) hid
      · rfl
    · exact fun h => Or.inr ⟨h, rfl⟩
  have hkept : ∀ index bucket, (cache.isNew id t).2.held.get? index = some bucket →
      (cache.filed id t).held.get? index = some bucket := by
    intro index bucket hb
    rw [held_isNew, if_neg hid] at hb
    exact held_enforceSize hb
  have hrepeat : ((cache.isNew id t).2.isNew id t).1 = false ↔
      0 ≤ cache.windowMs ∧ t / cache.bucketSpanMs ∈ (cache.isNew id t).2.held.keys := by
    rw [isNew_eq_false_iff, mem_ids_iff_inBucket]
    simp only [inBucket_expire, windowMs_isNew, bucketSpanMs_isNew]
    constructor
    · rintro ⟨index, ⟨bucket, hb, hin⟩, hcut⟩
      obtain rfl := (hown index).mp ⟨bucket, hkept index bucket hb, hin⟩
      exact ⟨(cutoff_le_iff cache t).mp hcut, Dict.mem_keys_iff.mpr ⟨bucket, hb⟩⟩
    · rintro ⟨hwindow, hmem⟩
      obtain ⟨bucket, hb⟩ := Dict.mem_keys_iff.mp hmem
      obtain ⟨bucket', hb', hin⟩ := (hown (t / cache.bucketSpanMs)).mpr rfl
      obtain rfl := Option.some.inj (hb'.symm.trans (hkept _ _ hb))
      exact ⟨_, ⟨bucket', hb, hin⟩, (cutoff_le_iff cache t).mpr hwindow⟩
  rw [hrepeat]
  apply and_congr_right
  intro _
  by_cases hover : cache.Overflows id t
  · obtain ⟨front, rest, hsplit, hrest, hhead⟩ := held_of_overflows h hover
    have hnodup := (cache.filed id t).held.nodup
    rw [hsplit, List.map_cons, List.nodup_cons] at hnodup
    have hmem : t / cache.bucketSpanMs ∈ (front :: rest).map Prod.fst :=
      hsplit ▸ (mem_keys_filed hid).mpr (Or.inr rfl)
    rw [hhead]
    unfold Dict.keys
    rw [hrest]
    constructor
    · intro hin _ heq
      exact hnodup.1 (Option.some.inj heq ▸ hin)
    · intro hne
      rw [List.map_cons, List.mem_cons] at hmem
      exact hmem.resolve_left (fun heq => hne hover (congrArg some heq.symm))
  · refine iff_of_true ?_ (fun h => absurd h hover)
    rw [held_of_not_overflows hover]
    exact (mem_keys_filed hid).mpr (Or.inr rfl)

/-- **When the cap drops the oldest ids.** After any calls of a fresh cache, a call evicts only the oldest bucket,
    and not its own, if and only if the bucket opened first is the oldest whenever one has to go; and the same call
    at once is a repeat if and only if that bucket is not the call's own. -/
theorem evicts_oldest_iff (hempty : cache.held = Dict.empty) (calls : List (Str × Int)) (id : Str) (t : Int) :
    ((cache.fill calls).EvictsOldest id t ↔
      ((cache.fill calls).Overflows id t → (cache.fill calls).FrontOldest t)) ∧
    (((cache.fill calls).isNew id t).1 = true →
      ((((cache.fill calls).isNew id t).2.isNew id t).1 = false ↔
        0 ≤ cache.windowMs ∧ ((cache.fill calls).Overflows id t →
          ((cache.fill calls).expire t).held.keys.head? ≠ some (t / (cache.fill calls).bucketSpanMs)))) := by
  have hcapped := capped_fill (capped_of_empty hempty) calls
  refine ⟨evictsOldest_iff hcapped, ?_⟩
  intro hnew
  rw [repeat_eq_false_iff hcapped hnew, windowMs_fill]

theorem default_buckets_pos : 0 < 12 := by decide

/-- A cache that two ids fill, after one call for each. -/
def fullCache (first second : Int) : DedupCache :=
  fill { maxIds := 2, buckets_pos := default_buckets_pos } [(lit "a", first), (lit "b", second)]

/-- Ids in the order of their times: the oldest of three goes, and the third is known. -/
theorem evicts_oldest_in_order :
    (fullCache 0 300000).Overflows (lit "c") 600000 ∧ (fullCache 0 300000).EvictsOldest (lit "c") 600000 ∧
      (((fullCache 0 300000).isNew (lit "c") 600000).2.isNew (lit "c") 600000).1 = false := by
  have hboth := @evicts_oldest_iff { maxIds := 2 } rfl [(lit "a", 0), (lit "b", 300000)] (lit "c") 600000
  have hfront : (fullCache 0 300000).FrontOldest 600000 := by decide
  refine ⟨by decide, hboth.1.mpr (fun _ => hfront), (hboth.2 (by decide)).mpr ⟨by decide, fun _ => ?_⟩⟩
  show ((fullCache 0 300000).expire 600000).held.keys.head? ≠ some (600000 / (fullCache 0 300000).bucketSpanMs)
  decide

/-- The second bucket is the older one. The third id goes with the bucket it was added to, and is new again. -/
theorem youngest_evicted :
    ¬ (fullCache 600000 300000).EvictsOldest (lit "c") 600000 ∧
      ((fullCache 600000 300000).isNew (lit "c") 600000).1 = true ∧
      (((fullCache 600000 300000).isNew (lit "c") 600000).2.isNew (lit "c") 600000).1 = true := by
  refine ⟨?_, by decide, by decide⟩
  intro h
  have hevicted := h [] (2, [lit "a", lit "c"]) [(1, [lit "b"])] (by decide) (by decide)
  exact hevicted.2 (by decide)

end DedupCache
end Dedup
end Wikistream
