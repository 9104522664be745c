import Wikistream.Correctness.CleanerRestart

/-!
# `Correctness.ReassignedPartition` — what the cache of a reassigned partition holds

A revoked partition's cache is dropped inside `collect_batch`. The batch that is being collected still holds its
messages, and `handle` makes a new cache for them, which is there when the partition comes back.

## Contents
- **Strays** (`watchStrays`): the messages an instance handled for partitions it does not have.
- **What the hooks put into a cache** (`mem_ids_handle`, `mem_ids_warm`, `mem_ids_partitionsRevoked`).
- **The invariant** (`Accounted`): the cache of a partition an instance does not have holds ids of strays only.
- **The result** (`reassigned_cache_below`), and the run that loses a record (`stray_kept`).
-/

namespace Wikistream
namespace Cleaner

open Py Lib Models Dedup Transform Warmup Transactional Topics

variable {env : Env} {log : Log KafkaRecord} {g : Group Caches KafkaRecord Produced} {caches caches' : Caches}
variable {inst : Instance Caches KafkaRecord Produced} {i p : Nat} {ps : List Nat} {id : Str}

/-! ## Strays -/

/-- For each instance, the messages it handled after their partition was taken from it. -/
abbrev Strays := Nat → List (Message KafkaRecord)

/-- The message `handle` gets next, if its partition is not the instance's. -/
def strayNext (inst : Instance Caches KafkaRecord Produced) : List (Message KafkaRecord) :=
  ((inst.txn.bind (fun t => t.todo.head?)).filter (fun m => (inst.cursors.get? m.partition).isNone)).toList

/-- What the monitor records. A partition that is assigned or revoked has no strays from then on. -/
def watchStrays (strays : Strays) (g : Group Caches KafkaRecord Produced) : Action (Nat → Answers) → Strays
  | .start i => Function.update strays i []
  | .assign i ps _ => Function.update strays i ((strays i).filter (fun m => m.partition ∉ ps))
  | .revoke i ps => Function.update strays i ((strays i).filter (fun m => m.partition ∉ ps))
  | .handleNext i => Function.update strays i (strays i ++ ((g.instances.get? i).map strayNext).getD [])
  | _ => strays

/-- The cleaner's group with the monitor beside it. -/
abbrev strayWatched (env : Env) (log : Log KafkaRecord) :
    Group Caches KafkaRecord Produced × Strays → Action (Nat → Answers) →
      Option (Group Caches KafkaRecord Produced × Strays) :=
  monitored (step (cleaner env log) log) watchStrays

/-- A record of the partition below offset `c` carries the id. -/
def CarriedBelow (host : Host) (log : Log KafkaRecord) (p c : Nat) (id : Str) : Prop :=
  ∃ o < c, ∃ r, log p o = some r ∧ recordId host r = .ok id

/-- No partition is assigned to an instance that handled an event of it, while it was not the instance's, whose id
    no committed record carries. -/
def StraysCommitted (env : Env) (log : Log KafkaRecord) (s : Group Caches KafkaRecord Produced × Strays) :
    Action (Nat → Answers) → Prop
  | .assign i ps _ => ∀ m ∈ s.2 i, m.partition ∈ ps → ∀ c, s.1.committed.get? m.partition = some c →
      ∀ event, Accepts env.host m.record event → CarriedBelow env.host log m.partition c event.eventId
  | _ => True

/-! ## What the hooks put into a cache -/

/-- `handle` adds the id of an accepted event, to the cache of its partition. -/
theorem mem_ids_handle {m : Message KafkaRecord} {r : Caches × List Produced} (h : handle env caches m = .ok r)
    (hid : id ∈ (cacheFor r.1 p).ids) :
    id ∈ (cacheFor caches p).ids ∨ m.partition = p ∧ ∃ event, Accepts env.host m.record event ∧ event.eventId = id := by
  by_cases hevent : ∃ event, attempt env.host m.record.payload = .ok (some event)
  · obtain ⟨event, hevent⟩ := hevent
    obtain ⟨t, hstate, _⟩ := handle_of_event hevent h
    rw [hstate, cacheFor_set] at hid
    split at hid
    · next hp =>
        subst hp
        rcases DedupCache.mem_ids_isNew hid with hold | ⟨_, rfl⟩
        · exact Or.inl hold
        · exact Or.inr ⟨rfl, event, attempt_eq_some.mp hevent, rfl⟩
    · exact Or.inl hid
  · rw [handle_of_no_event (not_exists.mp hevent) h, cacheFor_set] at hid
    split at hid
    · next hp => exact Or.inl (hp ▸ hid)
    · exact Or.inl hid

theorem mem_ids_warmOne {committed : Dict Nat Nat} {answers : Answers} {q : Nat}
    (h : warmOne env log committed answers q caches = .ok caches') (hid : id ∈ (cacheFor caches' p).ids) :
    id ∈ (cacheFor caches p).ids ∨ p = q ∧ ∃ c, committed.get? p = some c ∧ CarriedBelow env.host log p c id := by
  unfold warmOne at h
  dsimp only at h
  split at h
  · obtain rfl := Except.ok.inj h
    rw [cacheFor_set] at hid
    split at hid
    · next hp => exact Or.inl (hp ▸ hid)
    · exact Or.inl hid
  · next c hc =>
      split at h
      · exact absurd h (by simp)
      next cache _ hreplay =>
      obtain rfl := Except.ok.inj h
      rw [cacheFor_set] at hid
      split at hid
      · next hp =>
          subst hp
          -- every record of the replay lies below the committed offset
          have hcache : ∀ id ∈ cache.ids, id ∈ (cacheFor caches p).ids ∨ CarriedBelow env.host log p c id := by
            refine replay_induction (I := fun (cache : DedupCache) => ∀ id ∈ cache.ids,
              id ∈ (cacheFor caches p).ids ∨ CarriedBelow env.host log p c id) ?_ (fun _ => Or.inl) hreplay
            intro cache m r hI hp hlt hm hload id hid
            rcases load_cases hload hid with hold | hrec
            · exact hI id hold
            · subst hp
              exact Or.inr ⟨m.offset, hlt, m.record, hm, hrec⟩
          refine (hcache id hid).imp_right ?_
          intro hbelow
          exact ⟨rfl, c, hc, hbelow⟩
      · exact Or.inl hid

/-- The warm-up adds ids of records below the committed offset, to the caches of the new partitions. -/
theorem mem_ids_warm {committed : Dict Nat Nat} {answers : Nat → Answers}
    (h : warm env log committed answers caches ps = .ok caches') (hid : id ∈ (cacheFor caches' p).ids) :
    id ∈ (cacheFor caches p).ids ∨ p ∈ ps ∧ ∃ c, committed.get? p = some c ∧ CarriedBelow env.host log p c id := by
  induction ps generalizing caches with
  | nil =>
      obtain rfl := Except.ok.inj h
      exact Or.inl hid
  | cons q ps ih =>
      rw [warm] at h
      split at h
      · exact absurd h (by simp)
      next caches₁ hone =>
      rcases ih h with hold | ⟨hp, hc⟩
      · rcases mem_ids_warmOne hone hold with hold | ⟨rfl, hc⟩
        · exact Or.inl hold
        · exact Or.inr ⟨List.mem_cons_self, hc⟩
      · exact Or.inr ⟨List.mem_cons_of_mem _ hp, hc⟩

/-- Ids are left only in the caches of the other partitions. -/
theorem mem_ids_partitionsRevoked (hid : id ∈ (cacheFor (partitionsRevoked caches ps) p).ids) :
    p ∉ ps ∧ id ∈ (cacheFor caches p).ids := by
  rw [cacheFor_partitionsRevoked] at hid
  split at hid
  · exact absurd hid (by simp [DedupCache.ids, Dict.values, Dict.empty])
  · next hp => exact ⟨hp, hid⟩

/-! ## The invariant -/

/-- What an instance remembers of a partition it does not have, it has from strays. -/
def Accounted (host : Host) (strays : List (Message KafkaRecord)) (inst : Instance Caches KafkaRecord Produced) :
    Prop :=
  ∀ p, inst.cursors.get? p = none → ∀ id ∈ (cacheFor inst.state p).ids,
    ∃ m ∈ strays, m.partition = p ∧ ∃ event, Accepts host m.record event ∧ event.eventId = id

def AllAccounted (host : Host) (s : Group Caches KafkaRecord Produced × Strays) : Prop :=
  ∀ i inst, s.1.instances.get? i = some inst → Accounted host (s.2 i) inst

variable {host : Host} {strays : Strays} {ms : List (Message KafkaRecord)}

theorem accounted_init {cursors : Dict Nat Cursor} {batch : List (Message KafkaRecord)} :
    Accounted host ms { state := Dict.empty, cursors, batch } := by
  intro p _ id hid
  have hids : (cacheFor Dict.empty p).ids = [] := rfl
  exact absurd (hids ▸ hid) (by simp)

/-- An instance that keeps its state and its partitions needs no other strays. -/
theorem Accounted.congr {inst' : Instance Caches KafkaRecord Produced} (h : Accounted host ms inst)
    (hstate : inst'.state = inst.state)
    (hcursors : ∀ p, inst'.cursors.get? p = none → inst.cursors.get? p = none) : Accounted host ms inst' := by
  intro p hp id hid
  exact h p (hcursors p hp) id (hstate ▸ hid)

/-- The strays of other partitions stay. -/
theorem mem_filter_strays {m : Message KafkaRecord} (hm : m ∈ ms) (hp : m.partition ∉ ps) :
    m ∈ ms.filter (fun m => m.partition ∉ ps) :=
  List.mem_filter.mpr ⟨hm, by simpa using hp⟩

theorem Accounted.assigned {committed : Dict Nat Nat} {answers : Nat → Answers} (h : Accounted env.host ms inst)
    (hook : warm env log committed answers inst.state ps = .ok caches) :
    Accounted env.host (ms.filter (fun m => m.partition ∉ ps)) (inst.assigned committed ps caches) := by
  intro p hp id hid
  have hp' : (takePartitions committed ps inst.cursors).get? p = none := hp
  rw [get?_takePartitions] at hp'
  split at hp'
  · exact absurd hp' (by simp)
  · next hnotin =>
      -- an id was in the cache before, or the replay of an assigned partition has loaded it
      rcases mem_ids_warm hook hid with hold | ⟨hin, _⟩
      · obtain ⟨m, hm, rfl, hevent⟩ := h p hp' id hold
        exact ⟨m, mem_filter_strays hm hnotin, rfl, hevent⟩
      · exact absurd hin hnotin

theorem Accounted.revoked (h : Accounted env.host ms inst) (htxn : inst.txn = none) :
    Accounted env.host (ms.filter (fun m => m.partition ∉ ps)) (inst.onRevoke (cleaner env log) ps) := by
  rw [onRevoke_of_txn_none (cleaner env log) htxn]
  intro p hp id hid
  obtain ⟨hnotin, hid⟩ := mem_ids_partitionsRevoked hid
  have hp' : (releasePartitions ps inst.cursors).get? p = none := hp
  rw [get?_releasePartitions, if_neg hnotin] at hp'
  obtain ⟨m, hm, rfl, hevent⟩ := h p hp' id hid
  exact ⟨m, mem_filter_strays hm hnotin, rfl, hevent⟩

/-- A message of a partition the instance does not have is a stray. -/
theorem Accounted.handled {t : Txn KafkaRecord Produced} {m : Message KafkaRecord} {todo : List (Message KafkaRecord)}
    {r : Caches × List Produced} (h : Accounted env.host ms inst) (htxn : inst.txn = some t)
    (htodo : t.todo = m :: todo) (hook : handle env inst.state m = .ok r) :
    Accounted env.host (ms ++ strayNext inst) (inst.handled t m todo r) := by
  intro p hp id hid
  have hp' : inst.cursors.get? p = none := hp
  rcases mem_ids_handle hook hid with hold | ⟨rfl, hevent⟩
  · obtain ⟨x, hx, hrest⟩ := h p hp' id hold
    exact ⟨x, List.mem_append_left _ hx, hrest⟩
  · -- the instance does not have the partition, so the message is a stray
    have hstray : m ∈ strayNext inst := by
      simp [strayNext, htxn, htodo, hp']
    exact ⟨m, List.mem_append_right _ hstray, rfl, hevent⟩

theorem AllAccounted.put (h : AllAccounted host (g, strays)) {strays' : Strays}
    (hne : ∀ j, j ≠ i → strays' j = strays j)
    (hinst : Accounted host (strays' i) inst) : AllAccounted host (g.put i inst, strays') := by
  intro j inst' hj
  replace hj : (g.put i inst).instances.get? j = some inst' := hj
  rw [get?_put] at hj
  split at hj
  · next hji =>
      obtain rfl := Option.some.inj hj
      exact hji ▸ hinst
  · next hji =>
      show Accounted host (strays' j) inst'
      rw [hne j hji]
      exact h j inst' hj

/-- An action that is no concern of the monitor's keeps what is accounted for. -/
theorem AllAccounted.put_congr {inst' : Instance Caches KafkaRecord Produced} (h : AllAccounted host (g, strays))
    (hi : g.instances.get? i = some inst) (hstate : inst'.state = inst.state)
    (hcursors : ∀ p, inst'.cursors.get? p = none → inst.cursors.get? p = none) :
    AllAccounted host (g.put i inst', strays) :=
  h.put (fun _ _ => rfl) ((h i inst hi).congr hstate hcursors)

/-! ## Runs -/

theorem AllAccounted.step {a : Action (Nat → Answers)} {g' : Group Caches KafkaRecord Produced}
    (h : AllAccounted env.host (g, strays)) (hstep : Step (cleaner env log) log g a g') :
    AllAccounted env.host (g', watchStrays strays g a) := by
  cases hstep with
  | @start i hi =>
      apply h.put (fun j hj => Function.update_of_ne hj _ _)
      exact accounted_init
  | @assign i ps answers inst s hi htxn hfree hook =>
      apply h.put (fun j hj => Function.update_of_ne hj _ _)
      rw [watchStrays, Function.update_self]
      exact (h i inst hi).assigned hook
  | @revoke i ps inst hi htxn =>
      apply h.put (fun j hj => Function.update_of_ne hj _ _)
      rw [watchStrays, Function.update_self]
      exact (h i inst hi).revoked htxn
  | @poll i p o inst cur r hi htxn hcur hr hnext =>
      refine h.put_congr hi rfl ?_
      intro q hq
      have hq' : (advance p o inst.cursors).get? q = none := hq
      rw [get?_advance] at hq'
      split at hq'
      · exact absurd hq' (by simp)
      · exact hq'
  | beginBatch hi htxn => exact h.put_congr hi rfl (fun _ hp => hp)
  | @handleNext i inst t m todo r hi htxn htodo hook =>
      apply h.put (fun j hj => Function.update_of_ne hj _ _)
      rw [watchStrays, Function.update_self, hi]
      exact (h i inst hi).handled htxn htodo hook
  | @commitBatch i inst t hi htxn htodo =>
      -- a commit moves the offsets and leaves the caches alone
      intro j inst' hj
      rw [get?_commit] at hj
      split at hj
      · next hji =>
          obtain rfl := Option.some.inj hj
          exact hji ▸ (h i inst hi).congr rfl (fun _ hp => hp)
      · exact h j inst' hj
  | abort hi htxn => exact h.put_congr hi rfl (fun _ hp => hp)
  | periodic hi htxn => exact h.put_congr hi rfl (fun _ hp => hp)
  | @die i a ha =>
      intro j inst' hj
      rw [get?_remove] at hj
      split at hj
      · exact absurd hj (by simp)
      next hji =>
      -- what the other instances have in hand is not watched anew
      have hsame : watchStrays strays g a j = strays j := by
        rcases ha with rfl | rfl | ⟨ps, answers, rfl⟩
        · rfl
        · exact Function.update_of_ne hji _ _
        · exact Function.update_of_ne hji _ _
      show Accounted env.host (watchStrays strays g a j) inst'
      rw [hsame]
      exact h j inst' hj

theorem allAccounted_run {acts : List (Action (Nat → Answers))} {s : Group Caches KafkaRecord Produced × Strays}
    (hrun : run (strayWatched env log) ({}, fun _ => []) acts = some s) : AllAccounted env.host s := by
  have hok : Always (strayWatched env log) (fun _ _ => True) ({}, fun _ => []) acts :=
    always_of_forall (fun _ _ => trivial) _ _
  refine run_state_invariant ?_ ?_ hok hrun
  · intro i inst hi
    exact absurd hi (by simp)
  · intro s a s' hs _ hstep
    obtain ⟨hg, hw⟩ := monitored_eq_some.mp hstep
    have := AllAccounted.step hs (step_inv hg)
    rwa [← hw] at this

/-- **A reassigned partition starts from clean dedup state** wherever the events that were handled for it while it
    was not the instance's are committed. -/
theorem reassigned_cache_below (env : Env) (log : Log KafkaRecord) {acts : List (Action (Nat → Answers))}
    {s s' : Group Caches KafkaRecord Produced × Strays}
    (hrun : run (strayWatched env log) ({}, fun _ => []) acts = some s) {i : Nat} {ps : List Nat}
    {answers : Nat → Answers} (hcommitted : StraysCommitted env log s (.assign i ps answers))
    (hassign : strayWatched env log s (.assign i ps answers) = some s') {inst' : Instance Caches KafkaRecord Produced}
    (hi' : s'.1.instances.get? i = some inst') {p c : Nat} (hp : p ∈ ps) (hc : s.1.committed.get? p = some c) :
    ∀ id ∈ (cacheFor inst'.state p).ids, CarriedBelow env.host log p c id := by
  have hinv := step_inv (monitored_eq_some.mp hassign).1
  have haccounted := allAccounted_run hrun
  generalize s'.1 = g' at hinv hi'
  cases hinv with
  | @assign _ _ _ inst caches hi htxn hfree hook =>
      rw [get?_put, if_pos rfl] at hi'
      obtain rfl := Option.some.inj hi'
      intro id hid
      -- the id was in the cache when the partition came back, or it was read from below the committed offset
      rcases mem_ids_warm hook hid with hold | ⟨_, c', hc', hbelow⟩
      · -- nobody has the partition before it is assigned
        have hnone : inst.cursors.get? p = none :=
          Option.isNone_iff_eq_none.mp (hfree p hp inst (Dict.mem_values_iff.mpr ⟨i, hi⟩))
        obtain ⟨m, hm, rfl, event, hevent, rfl⟩ := haccounted i inst hi p hnone id hold
        exact hcommitted m hm hp c hc event hevent
      · obtain rfl := Option.some.inj (hc.symm.trans hc')
        exact hbelow
  | @die j _ ha =>
      obtain rfl : i = j := by
        rcases ha with h | h | ⟨_, _, h⟩
        · exact absurd h (by simp)
        · exact absurd h (by simp)
        · exact (Action.assign.inj h).1
      rw [get?_remove, if_pos rfl] at hi'
      exact absurd hi' (by simp)

/-! ## A stray -/

/-- What the partition of the warm-up's example answers when its first record is committed. -/
def oneCommitted : Nat → Answers := fun _ => { editAnswers 2000 [0] with anchor := .record 0 }

/-- The first record is committed. The second is polled, its partition is revoked in the same `collect_batch`, and
    the batch is handled and committed; then the partition comes back. -/
def strayBatch : List (Action (Nat → Answers)) :=
  [.start 0, .assign 0 [0] (fun _ => {}), .poll 0 0 0, .beginBatch 0, .handleNext 0, .commitBatch 0,
    .poll 0 0 1, .revoke 0 [0], .beginBatch 0, .handleNext 0, .commitBatch 0]

/-- The same without the second record. -/
def quietBatch : List (Action (Nat → Answers)) :=
  [.start 0, .assign 0 [0] (fun _ => {}), .poll 0 0 0, .beginBatch 0, .handleNext 0, .commitBatch 0, .revoke 0 [0]]

/-- The cleaner of the example. -/
def anEnv : Env := { host := utcHost }

/-- The group after a run of the example with the monitor, and after the partition came back. -/
def cameBack (acts : List (Action (Nat → Answers))) :
    Option ((Group Caches KafkaRecord Produced × Strays) × (Group Caches KafkaRecord Produced × Strays) ×
      Instance Caches KafkaRecord Produced) :=
  (run (strayWatched anEnv (editAgain 2000)) ({}, fun _ => []) acts).bind (fun s =>
    (strayWatched anEnv (editAgain 2000) s (.assign 0 [0] oneCommitted)).bind (fun s' =>
      (s'.1.instances.get? 0).map (fun inst' => (s, s', inst'))))

theorem cameBack_eq_some {acts : List (Action (Nat → Answers))} {s s' : Group Caches KafkaRecord Produced × Strays}
    {inst' : Instance Caches KafkaRecord Produced} (h : cameBack acts = some (s, s', inst')) :
    run (strayWatched anEnv (editAgain 2000)) ({}, fun _ => []) acts = some s ∧
      strayWatched anEnv (editAgain 2000) s (.assign 0 [0] oneCommitted) = some s' ∧
      s'.1.instances.get? 0 = some inst' := by
  obtain ⟨t, hrun, h⟩ := Option.bind_eq_some_iff.mp h
  obtain ⟨t', hstep, h⟩ := Option.bind_eq_some_iff.mp h
  obtain ⟨inst, hi, h⟩ := Option.map_eq_some_iff.mp h
  obtain ⟨rfl, rfl, rfl⟩ : t = s ∧ t' = s' ∧ inst = inst' := by simpa using h
  exact ⟨hrun, hstep, hi⟩

/-- Without a stray the cache holds the id of the committed record. -/
theorem reassigned_without_strays :
    ∃ s s' inst', cameBack quietBatch = some (s, s', inst') ∧ s.1.committed.get? 0 = some 1 ∧
      lit "a" ∈ (cacheFor inst'.state 0).ids ∧
      ∀ id ∈ (cacheFor inst'.state 0).ids, CarriedBelow utcHost (editAgain 2000) 0 1 id := by
  obtain ⟨⟨s, s', inst'⟩, hback, hread⟩ := Option.map_eq_some_iff.mp
    (by decide +kernel : (cameBack quietBatch).map (fun x => (x.1.1.committed.get? 0, x.1.2 0,
      (cacheFor x.2.2.state 0).ids)) = some (some 1, [], [lit "a"]))
  obtain ⟨hc, hstrays, hids⟩ : s.1.committed.get? 0 = some 1 ∧ s.2 0 = [] ∧
      (cacheFor inst'.state 0).ids = [lit "a"] := by simpa using hread
  obtain ⟨hrun, hassign, hi'⟩ := cameBack_eq_some hback
  refine ⟨s, s', inst', hback, hc, by simp [hids], ?_⟩
  refine reassigned_cache_below anEnv (editAgain 2000) hrun ?_ hassign hi' (by decide) hc
  intro m hm
  rw [hstrays] at hm
  exact absurd hm (by simp)

/-- With one the cache holds the id of the record behind the committed offset, and drops the record. -/
theorem stray_kept :
    ∃ s s' inst', cameBack strayBatch = some (s, s', inst') ∧ s.1.committed.get? 0 = some 1 ∧
      lit "b" ∈ (cacheFor inst'.state 0).ids ∧ ¬ CarriedBelow utcHost (editAgain 2000) 0 1 (lit "b") ∧
      isDuplicate anEnv inst'.state ⟨0, 1, secondEdit 2000⟩ = true := by
  obtain ⟨⟨s, s', inst'⟩, hback, hread⟩ := Option.map_eq_some_iff.mp
    (by decide +kernel : (cameBack strayBatch).map (fun x => (x.1.1.committed.get? 0,
      (cacheFor x.2.2.state 0).ids, isDuplicate anEnv x.2.2.state ⟨0, 1, secondEdit 2000⟩)) =
        some (some 1, [lit "b", lit "a"], true))
  obtain ⟨hc, hids, hduplicate⟩ : s.1.committed.get? 0 = some 1 ∧
      (cacheFor inst'.state 0).ids = [lit "b", lit "a"] ∧
      isDuplicate anEnv inst'.state ⟨0, 1, secondEdit 2000⟩ = true := by simpa using hread
  refine ⟨s, s', inst', hback, hc, by simp [hids], ?_, hduplicate⟩
  rintro ⟨o, ho, r, hr, hid⟩
  obtain rfl : o = 0 := by omega
  obtain rfl := Option.some.inj hr
  have ha : recordId utcHost (firstEdit 1000) = .ok (lit "a") := recordId_of_eventOf (eventOf_firstEdit _)
  have hab : lit "a" = lit "b" := Except.ok.inj (ha.symm.trans hid)
  exact absurd hab (by decide)

end Cleaner
end Wikistream
