import Wikistream.Correctness.NoDuplicate
import Wikistream.Correctness.OneOutcome
import Wikistream.Processors.PageGroup

/-!
# `Correctness.DeletedPages` — a deleted page stays deleted

The guard of an instance that owns the partition knows every deletion that was committed. A rebuilt guard knows those
of which `load_applied` finds a record in the topic, and compaction may have dropped the tombstone that was the only
one. Messages that are still in the batch when their partition is revoked are handled with no guard at all.

## Contents
- **The condition** (`Finds`, `KeepsGuard`) on every rebuild of the guard and on every revoke.
- **The invariant** (`Knowing`): the guard of the owner is at least the time of every deletion that is committed or in
  its open transaction.
- **The result** (`deletion_is_final`), and the two ways in which a deletion is undone (`deletion_undone`).
-/

namespace Wikistream
namespace PageTopic

open Py Lib Models PageState

/-! ## The condition -/

/-- The record is as late as `ms`, as `time_of_record` tells. -/
def AtLeast (host : Host) (x : KafkaRecord) (ms : Int) : Prop :=
  match timeOfRecord host x.value x.timestamp with
  | .ok time => ms ≤ time
  | .error _ => False

instance (host : Host) (x : KafkaRecord) (ms : Int) : Decidable (AtLeast host x ms) := by
  unfold AtLeast
  split <;> infer_instance

/-- The records that are read have one for each deletion among `outs`, of its page and as late. -/
def Finds (host : Host) (outs : List Produced) (read : List KafkaRecord) : Prop :=
  ∀ del ∈ outs, del.value = none → ∃ x ∈ read, x.key = del.key ∧ AtLeast host x del.timestamp

instance (host : Host) (outs : List Produced) (read : List KafkaRecord) : Decidable (Finds host outs read) :=
  inferInstanceAs (Decidable (∀ del ∈ outs, del.value = none → ∃ x ∈ read, x.key = del.key ∧
    AtLeast host x del.timestamp))

/-! ## What a guard knows -/

/-- The guard is at least the time of the deletions among `outs`. -/
def KnowsDeletions (guard : Guard) (outs : List Produced) : Prop :=
  ∀ del ∈ outs, del.value = none → ∀ k key, del.key = some k → utf8Decode k = some key →
    del.timestamp ≤ guardOf guard key

variable {host : Host} {p : Nat} {log : List KafkaRecord}

theorem KnowsDeletions.of_subset {guard : Guard} {outs outs' : List Produced} (h : KnowsDeletions guard outs)
    (hsub : outs' ⊆ outs) : KnowsDeletions guard outs' := fun del hdel => h del (hsub hdel)

/-- A message handled: the guard knows a deletion it has just written. -/
theorem KnowsDeletions.handled {guards : Guards} {m : Message KafkaRecord} {result : Guards × List Produced}
    {outs : List Produced} (h : KnowsDeletions (appliedFor guards m.partition) outs)
    (hhandle : handle host guards m = .ok result) :
    KnowsDeletions (appliedFor result.1 m.partition) (outs ++ result.2) := by
  rcases handle_cases hhandle with
    ⟨_, rfl⟩ | ⟨key, record, timeMs, _, ⟨_, rfl⟩ | ⟨_, out, hout, rfl⟩⟩
  · rwa [List.append_nil]
  · rw [appliedFor_set, if_pos rfl, List.append_nil]
    exact h
  · obtain ⟨_, htime, ⟨k, hk, houtKey⟩, _⟩ := outputOf_eq_ok hout
    rw [appliedFor_set, if_pos rfl]
    intro del hdel hvalue k' key' hk' hkey'
    rcases List.mem_append.mp hdel with hold | hnew
    · exact (h del hold hvalue k' key' hk' hkey').trans (le_guardOf_remember _ _ _ _)
    · obtain rfl := List.mem_singleton.mp hnew
      obtain rfl := Option.some.inj (houtKey.symm.trans hk')
      obtain rfl := Option.some.inj ((decode_encodeText hk).symm.trans hkey')
      rw [guardOf_remember, if_pos rfl, htime]
      exact le_max_right _ _

/-- A rebuilt guard knows the deletions of which it has found a record. -/
theorem knowsDeletions_loaded {topic : List KafkaRecord} {polls : List LoadPoll} {applied : Guard}
    {outs : List Produced} (hload : loadApplied host topic polls = .ok applied)
    (hfinds : Finds host outs (recordsRead topic polls)) : KnowsDeletions applied outs := by
  intro del hdel hvalue k key hk hkey
  obtain ⟨x, hx, hxkey, hlate⟩ := hfinds del hdel hvalue
  unfold AtLeast at hlate
  split at hlate
  · next ms hms =>
      have hread := (le_guardOf_loadFrom hload).2 x hx k key ms (hxkey.trans hk) hkey hms
      exact hlate.trans hread
  · exact absurd hlate id

/-- The guards of newly assigned partitions are the loaded ones; the others stay. -/
theorem appliedFor_partitionsAssigned {answers : Nat → List KafkaRecord × List LoadPoll} {guards guards' : Guards}
    {ps : List Nat} (h : partitionsAssigned host answers guards ps = .ok guards') (q : Nat) :
    (q ∈ ps ∧ loadApplied host (answers q).1 (answers q).2 = .ok (appliedFor guards' q)) ∨
      (q ∉ ps ∧ appliedFor guards' q = appliedFor guards q) := by
  induction ps generalizing guards with
  | nil =>
      obtain rfl := Except.ok.inj h
      exact Or.inr ⟨List.not_mem_nil, rfl⟩
  | cons r ps ih =>
      rw [partitionsAssigned] at h
      split at h
      · exact absurd h (by simp)
      · next applied hload =>
          rcases ih h with ⟨hmem, hq⟩ | ⟨hnot, hq⟩
          · exact Or.inl ⟨List.mem_cons_of_mem _ hmem, hq⟩
          · rw [appliedFor_set] at hq
            by_cases hqr : q = r
            · subst hqr
              rw [if_pos rfl] at hq
              exact Or.inl ⟨List.mem_cons_self, hq ▸ hload⟩
            · rw [if_neg hqr] at hq
              exact Or.inr ⟨by simp [hqr, hnot], hq⟩

/-- An event on the page `w:T`, so many seconds after the epoch. -/
def pageEvent (type : String) (seconds : Int) (logType : Option Str) : CleanEvent where
  eventId := lit "a"
  wiki := lit "w"
  title := lit "T"
  type := lit type
  pageNamespace := 0
  user := lit "u"
  bot := false
  minor := false
  comment := []
  eventTime := ((fromtimestamp seconds).toOption.map DateTime.isoformat).getD []
  revOld := none
  revNew := none
  lengthOld := none
  lengthNew := none
  serverName := []
  logType := logType
  logAction := logType

def cleanRecord (event : CleanEvent) : KafkaRecord where
  value := (event.toJson Transform.utcHost).toOption
  timestamp := 1

/-- The page is deleted at second 2. -/
def deletionRecord : KafkaRecord := cleanRecord (pageEvent "log" 2 (some (lit "delete")))

def editRecord (seconds : Int) : KafkaRecord := cleanRecord (pageEvent "edit" seconds none)

end PageTopic

namespace PageGroup

open Py Lib Models PageState PageTopic Transactional Topics

/-! ## The condition on a step -/

/-- A rebuild of the guard finds, for every committed deletion, a record of the page that is as late; and no partition
    is revoked while the batch holds its messages. -/
def KeepsGuard (host : Host) (p : Nat) (w : World) : Action → Prop
  | .loop a _ =>
      RevokesOutsideBatch w.group a ∧
        match a with
        | .assign _ ps loads => p ∈ ps → Finds host (published w.group) (recordsRead (loads p).1 (loads p).2)
        | _ => True
  | _ => True

instance (host : Host) (p : Nat) (w : World) (a : Action) : Decidable (KeepsGuard host p w a) := by
  cases a with
  | loop a now => cases a <;> (unfold KeepsGuard; infer_instance)
  | supersede i => exact isTrue trivial
  | expire i => exact isTrue trivial

/-! ## The invariant -/

/-- What the open transaction of the instance has produced. -/
def producedBy (inst : Instance Guards KafkaRecord Produced) : List Produced :=
  (inst.txn.map Txn.outputs).getD []

theorem producedBy_of_none {inst : Instance Guards KafkaRecord Produced} (h : inst.txn = none) :
    producedBy inst = [] := by
  unfold producedBy
  rw [h]
  rfl

theorem producedBy_of_some {inst : Instance Guards KafkaRecord Produced} {t : Txn KafkaRecord Produced}
    (h : inst.txn = some t) : producedBy inst = t.outputs := by
  unfold producedBy
  rw [h]
  rfl

/-- An instance that owns the partition knows the deletions among `outs` and those in its transaction. -/
structure KnowingBy (p : Nat) (outs : List Produced) (inst : Instance Guards KafkaRecord Produced) : Prop where
  inPartition : ∀ m ∈ inst.inHand, m.partition = p
  produced : ∀ t, inst.txn = some t → t.handled = [] → t.outputs = []
  guard : (inst.cursors.get? p).isSome = true →
    KnowsDeletions (appliedFor inst.state p) (outs ++ producedBy inst)

/-- What holds between steps. -/
structure Knowing (p : Nat) (g : Group Guards KafkaRecord Produced) : Prop where
  once : Once g
  instances : ∀ i inst, g.instances.get? i = some inst → KnowingBy p (published g) inst

variable {host : Host} {p : Nat} {log : List KafkaRecord} {w : World} {g g' : Group Guards KafkaRecord Produced}
  {inst : Instance Guards KafkaRecord Produced} {i : Nat} {outs : List Produced}

theorem knowing_init : Knowing p {} where
  once := once_init
  instances _ _ hi := absurd hi (by simp)

/-- A change of one instance. -/
theorem forall_put {Q : Instance Guards KafkaRecord Produced → Prop}
    (h : ∀ j old, g.instances.get? j = some old → Q old) (hinst : Q inst) :
    ∀ j new, (g.put i inst).instances.get? j = some new → Q new := by
  intro j new hj
  rw [get?_put] at hj
  split at hj
  · exact Option.some.inj hj ▸ hinst
  · exact h j new hj

theorem KnowingBy.assigned (h : KnowingBy p outs inst) (htxn : inst.txn = none) {committed : Dict Nat Nat}
    {ps : List Nat} {loads : Loads} {s : Guards} (hook : partitionsAssigned host loads inst.state ps = .ok s)
    (hfinds : p ∈ ps → Finds host outs (recordsRead (loads p).1 (loads p).2)) :
    KnowingBy p outs (inst.assigned committed ps s) := by
  refine ⟨h.inPartition, h.produced, fun hown => ?_⟩
  have hnone : producedBy (inst.assigned committed ps s) = [] := producedBy_of_none htxn
  rw [hnone, List.append_nil]
  rcases appliedFor_partitionsAssigned hook p with ⟨hmem, hload⟩ | ⟨hnot, hsame⟩
  · exact knowsDeletions_loaded hload (hfinds hmem)
  · -- the partition was the instance's before
    change ((takePartitions committed ps inst.cursors).get? p).isSome = true at hown
    rw [get?_takePartitions, if_neg hnot] at hown
    change KnowsDeletions (appliedFor s p) outs
    rw [hsame]
    exact (h.guard hown).of_subset (List.subset_append_left _ _)

theorem KnowingBy.revoked (h : KnowingBy p outs inst) (htxn : inst.txn = none) (ps : List Nat) :
    KnowingBy p outs (inst.onRevoke (pageState host) ps) := by
  rw [onRevoke_of_txn_none (pageState host) htxn]
  refine ⟨h.inPartition, h.produced, fun hown => ?_⟩
  change ((releasePartitions ps inst.cursors).get? p).isSome = true at hown
  rw [get?_releasePartitions] at hown
  split at hown
  · exact absurd hown (by simp)
  · next hnot =>
      have hsame : appliedFor (ps.foldl Dict.erase inst.state) p = appliedFor inst.state p := by
        unfold appliedFor
        rw [Dict.get?_foldl_erase, if_neg hnot]
      change KnowsDeletions (appliedFor (ps.foldl Dict.erase inst.state) p) (outs ++ producedBy inst)
      rw [hsame]
      exact h.guard hown

theorem KnowingBy.collected (h : KnowingBy p outs inst) (htxn : inst.txn = none) {q o : Nat} {cur : Cursor}
    {r : KafkaRecord} (hcur : inst.cursors.get? q = some cur) (hr : messagesOf p log q o = some r) :
    KnowingBy p outs (inst.collect ⟨q, o, r⟩) := by
  obtain rfl := partition_of_messagesOf hr
  refine ⟨fun m hm => ?_, h.produced, fun _ => h.guard (by simp [hcur])⟩
  rw [inHand_collect htxn, List.mem_append, List.mem_singleton] at hm
  rcases hm with hm | rfl
  · exact h.inPartition m hm
  · rfl

theorem KnowingBy.begun (h : KnowingBy p outs inst) (htxn : inst.txn = none) : KnowingBy p outs inst.beginBatch := by
  refine ⟨fun m hm => h.inPartition m ?_, fun t ht _ => ?_, fun hown => ?_⟩
  · rwa [inHand_beginBatch htxn] at hm
  · exact Option.some.inj ht ▸ rfl
  · have hguard := h.guard hown
    rwa [producedBy_of_none htxn] at hguard

theorem KnowingBy.handled (h : KnowingBy p outs inst) {t : Txn KafkaRecord Produced} {m : Message KafkaRecord}
    {todo : List (Message KafkaRecord)} {r : Guards × List Produced} (htxn : inst.txn = some t)
    (htodo : t.todo = m :: todo) (hook : handle host inst.state m = .ok r) :
    KnowingBy p outs (inst.handled t m todo r) := by
  have hm : m.partition = p := by
    refine h.inPartition m ?_
    rw [inHand_of_txn htxn, htodo]
    simp
  refine ⟨fun x hx => h.inPartition x ?_, fun t' ht' hnil => ?_, fun hown => ?_⟩
  · rwa [inHand_handled htxn htodo] at hx
  · obtain rfl := Option.some.inj ht'
    exact absurd hnil (by simp)
  · have hguard := h.guard hown
    rw [producedBy_of_some htxn, ← hm] at hguard
    have hafter := hguard.handled hook
    rw [List.append_assoc, hm] at hafter
    exact hafter

/-- The transaction of another instance commits: it has produced nothing, as it does not own the partition. -/
theorem outputs_eq_nil (h : Knowing p g) (hi : g.instances.get? i = some inst) {t : Txn KafkaRecord Produced}
    (htxn : inst.txn = some t) (hother : (inst.cursors.get? p).isSome = false) : t.outputs = [] := by
  have hinst := h.instances i inst hi
  cases hhandled : t.handled with
  | nil => exact hinst.produced t htxn hhandled
  | cons m ms =>
      have hm : m ∈ inst.inHand := by
        rw [inHand_of_txn htxn, hhandled]
        simp
      obtain ⟨cur, hcur, _⟩ := (h.once.instances i inst hi).owned m hm
      rw [hinst.inPartition m hm] at hcur
      rw [hcur] at hother
      exact absurd hother (by simp)

theorem published_commit (t : Txn KafkaRecord Produced) : published (g.commit i inst t) = published g ++ t.outputs := by
  unfold published Group.commit
  simp

theorem Knowing.commit (h : Knowing p g) (hi : g.instances.get? i = some inst) {t : Txn KafkaRecord Produced}
    (htxn : inst.txn = some t) (htodo : t.todo = []) : Knowing p (g.commit i inst t) := by
  refine ⟨h.once.commit hi htxn htodo, fun j other hj => ?_⟩
  rw [published_commit]
  rw [get?_commit] at hj
  split at hj
  · obtain rfl := Option.some.inj hj
    have hinst := h.instances i inst hi
    refine ⟨fun m hm => hinst.inPartition m ?_, fun t' ht' => absurd ht' (by simp [Instance.closeTxn]), fun hown => ?_⟩
    · exact (inHand_closeTxn_sublist htxn).subset hm
    · have hguard := hinst.guard hown
      rw [producedBy_of_some htxn] at hguard
      have hnone : producedBy inst.closeTxn = [] := rfl
      rwa [hnone, List.append_nil]
  · next hji =>
      have hknows := h.instances j other hj
      refine ⟨hknows.inPartition, hknows.produced, fun hown => ?_⟩
      -- the partition has one owner
      have hother : (inst.cursors.get? p).isSome = false := by
        by_contra hsome
        rw [Bool.not_eq_false] at hsome
        exact hji (h.once.exclusive j other hj i inst hi p hown hsome)
      rw [outputs_eq_nil h hi htxn hother, List.append_nil]
      exact hknows.guard hown

/-! ## One step -/

theorem Knowing.step {a : Transactional.Action Loads} (h : Knowing p g) (hok : RevokesOutsideBatch g a)
    (hfinds : ∀ i ps loads, a = .assign i ps loads → p ∈ ps →
      Finds host (published g) (recordsRead (loads p).1 (loads p).2))
    (hstep : Transactional.Step (pageState host) (messagesOf p log) g a g') : Knowing p g' := by
  have honce := h.once.step hok hstep
  cases hstep with
  | start hi =>
      refine ⟨honce, forall_put h.instances ⟨?_, ?_, ?_⟩⟩
      · exact fun m hm => absurd hm (by simp [Instance.inHand])
      · exact fun t ht => absurd ht (by simp)
      · exact fun hown => absurd hown (by simp)
  | @assign i ps loads inst s hi htxn _ hook =>
      exact ⟨honce, forall_put h.instances ((h.instances _ _ hi).assigned htxn hook (hfinds i ps loads rfl))⟩
  | revoke hi htxn => exact ⟨honce, forall_put h.instances ((h.instances _ _ hi).revoked htxn _)⟩
  | poll hi htxn hcur hr _ => exact ⟨honce, forall_put h.instances ((h.instances _ _ hi).collected htxn hcur hr)⟩
  | beginBatch hi htxn => exact ⟨honce, forall_put h.instances ((h.instances _ _ hi).begun htxn)⟩
  | handleNext hi htxn htodo hook =>
      exact ⟨honce, forall_put h.instances ((h.instances _ _ hi).handled htxn htodo hook)⟩
  | commitBatch hi htxn htodo => exact h.commit hi htxn htodo
  | @abort i inst t hi htxn =>
      have hinst := h.instances _ _ hi
      refine ⟨honce, forall_put h.instances ⟨fun m hm => hinst.inPartition m ?_, fun t' ht' => ?_, fun hown => ?_⟩⟩
      · exact (inHand_closeTxn_sublist htxn).subset hm
      · exact absurd ht' (by simp [Instance.abort, Instance.closeTxn])
      · have hnone : producedBy inst.abort = [] := rfl
        rw [hnone, List.append_nil]
        exact (hinst.guard hown).of_subset (List.subset_append_left _ _)
  | periodic hi htxn =>
      have hinst := h.instances _ _ hi
      exact ⟨honce, forall_put h.instances ⟨hinst.inPartition, hinst.produced, hinst.guard⟩⟩
  | @die i a ha =>
      refine ⟨honce, fun j inst hj => ?_⟩
      rw [get?_remove] at hj
      split at hj
      · exact absurd hj (by simp)
      · exact h.instances j inst hj

theorem knowing_run {acts : List Action} (hok : Always (step host p log) (KeepsGuard host p) {} acts)
    (hrun : run (step host p log) {} acts = some w) : Knowing p w.group := by
  refine run_state_invariant (I := fun w => Knowing p w.group) knowing_init ?_ hok hrun
  intro w a w' h hguard hstep
  rcases step_cases hstep with hsame | ⟨b, now, rfl, _, hb⟩
  · rwa [hsame]
  · refine h.step hguard.1 ?_ hb
    rintro i ps loads rfl
    exact hguard.2

/-! ## The result -/

/-- **A deletion is final.** In a run in which every rebuild of the guard finds the deletions committed before it, and
    no partition is revoked while the batch holds its messages, nothing that an instance produces for the next message
    of its transaction is older than a committed deletion of its page. -/
theorem deletion_is_final {acts : List Action} (hok : Always (step host p log) (KeepsGuard host p) {} acts)
    (hrun : run (step host p log) {} acts = some w) (hi : w.group.instances.get? i = some inst)
    {t : Txn KafkaRecord Produced} {m : Message KafkaRecord} {todo : List (Message KafkaRecord)}
    (htxn : inst.txn = some t) (htodo : t.todo = m :: todo) {result : Guards × List Produced}
    (hhandle : handle host inst.state m = .ok result) :
    ∀ out ∈ result.2, ∀ del ∈ published w.group, del.value = none → del.key = out.key →
      del.timestamp ≤ out.timestamp := by
  intro out hout del hdel hvalue hkey
  have h := knowing_run hok hrun
  have hinst := h.instances i inst hi
  have hm : m ∈ inst.inHand := by
    rw [inHand_of_txn htxn, htodo]
    simp
  have hpart := hinst.inPartition m hm
  obtain ⟨cur, hcur, _⟩ := (h.once.instances i inst hi).owned m hm
  rw [hpart] at hcur
  obtain ⟨key, record, timeMs, _, hle, hout⟩ := exists_update_of_mem hhandle hout
  obtain ⟨_, htime, ⟨k, hk, houtKey⟩, _⟩ := outputOf_eq_ok hout
  have hknown := hinst.guard (by simp [hcur]) del (List.mem_append_left _ hdel) hvalue k key
    (hkey.trans houtKey) (decode_encodeText hk)
  rw [htime]
  rw [hpart] at hle
  exact hknown.trans hle

/-! ## A page that is deleted -/

/-- Instance 0 starts and is assigned the partition, whose output then holds `topic`. -/
def joins (topic : List KafkaRecord) : List Action :=
  [.loop (.start 0) 1, .loop (.assign 0 [0] (fun _ => (topic, topic.map (fun _ => .next)))) 1]

/-- It applies the first message, and the transaction commits. -/
def firstApplied : List Action :=
  joins [] ++ [.loop (.poll 0 0 0) 1, .loop (.beginBatch 0) 1, .loop (.handleNext 0) 1, .loop (.commitBatch 0) 1]

/-- It is restarted, and has the second message next. -/
def restarted (topic : List KafkaRecord) : List Action :=
  .loop (.crash 0) 1 :: joins topic ++ [.loop (.poll 0 0 1) 1, .loop (.beginBatch 0) 1]

def tombstone : KafkaRecord := { key := utf8Encode (lit "w:T"), value := none, timestamp := 2000 }

/-- What instance 0 produces for the next message of its transaction, with what was committed before. -/
def producedNext (log : List KafkaRecord) (acts : List Action) : Option (List Produced × List Produced) := do
  let w ← run (step Transform.utcHost 0 log) {} acts
  let inst ← w.group.instances.get? 0
  let t ← inst.txn
  let m ← t.todo.head?
  let result ← (handle Transform.utcHost inst.state m).toOption
  return (published w.group, result.2)

theorem producedNext_eq_some {acts : List Action} {x : List Produced × List Produced}
    (h : producedNext log acts = some x) :
    ∃ w inst t m todo result, run (step Transform.utcHost 0 log) {} acts = some w ∧
      w.group.instances.get? 0 = some inst ∧ inst.txn = some t ∧ t.todo = m :: todo ∧
      handle Transform.utcHost inst.state m = .ok result ∧ x = (published w.group, result.2) := by
  obtain ⟨w, hrun, h⟩ := Option.bind_eq_some_iff.mp h
  obtain ⟨inst, hi, h⟩ := Option.bind_eq_some_iff.mp h
  obtain ⟨t, htxn, h⟩ := Option.bind_eq_some_iff.mp h
  obtain ⟨m, hm, h⟩ := Option.bind_eq_some_iff.mp h
  obtain ⟨result, hresult, h⟩ := Option.bind_eq_some_iff.mp h
  obtain ⟨todo, htodo⟩ := List.head?_eq_some_iff.mp hm
  exact ⟨w, inst, t, m, todo, result, hrun, hi, htxn, htodo, toOption_eq_some.mp hresult, (Option.some.inj h).symm⟩

/-- A later edit brings the page back. -/
theorem later_edit_is_written :
    ∃ w inst t m todo result del out,
      run (step Transform.utcHost 0 [deletionRecord, editRecord 3]) {} (firstApplied ++ restarted [tombstone]) =
        some w ∧
      w.group.instances.get? 0 = some inst ∧ inst.txn = some t ∧ t.todo = m :: todo ∧
      handle Transform.utcHost inst.state m = .ok result ∧ del ∈ published w.group ∧ out ∈ result.2 ∧
      del.value = none ∧ del.key = out.key ∧ del.timestamp ≤ out.timestamp := by
  have hcheck : (producedNext [deletionRecord, editRecord 3] (firstApplied ++ restarted [tombstone])).map
      (fun x => decide (∃ del ∈ x.1, ∃ out ∈ x.2, del.value = none ∧ del.key = out.key)) = some true := by
    decide +kernel
  have hok : Always (step Transform.utcHost 0 [deletionRecord, editRecord 3]) (KeepsGuard Transform.utcHost 0) {}
      (firstApplied ++ restarted [tombstone]) := by
    decide +kernel
  obtain ⟨x, hx, hsome⟩ := Option.map_eq_some_iff.mp hcheck
  obtain ⟨del, hdel, out, hout, hvalue, hkey⟩ := of_decide_eq_true hsome
  obtain ⟨w, inst, t, m, todo, result, hrun, hi, htxn, htodo, hhandle, rfl⟩ := producedNext_eq_some hx
  exact ⟨w, inst, t, m, todo, result, del, out, hrun, hi, htxn, htodo, hhandle, hdel, hout, hvalue, hkey,
    deletion_is_final hok hrun hi htxn htodo hhandle out hout del hdel hvalue hkey⟩

/-- The next message is an edit from before a deletion that was committed, and its record is produced. -/
def Undoes (x : List Produced × List Produced) : Prop :=
  ∃ del ∈ x.1, ∃ out ∈ x.2, del.value = none ∧ out.value ≠ none ∧ del.key = out.key ∧ out.timestamp < del.timestamp

instance (x : List Produced × List Produced) : Decidable (Undoes x) :=
  inferInstanceAs (Decidable (∃ del ∈ x.1, ∃ out ∈ x.2, _))

/-- The tombstone ages out before a restart; or the partition is revoked while the batch holds the edit. -/
theorem deletion_undone :
    (∃ x, producedNext [deletionRecord, editRecord 1] (firstApplied ++ [.expire 0] ++ restarted []) = some x ∧
      Undoes x) ∧
    ∃ x, producedNext [deletionRecord, editRecord 1]
        (firstApplied ++ [.loop (.poll 0 0 1) 1, .loop (.revoke 0 [0]) 1, .loop (.beginBatch 0) 1]) = some x ∧
      Undoes x := by
  have hexpired : (producedNext [deletionRecord, editRecord 1] (firstApplied ++ [.expire 0] ++ restarted [])).map
      (fun x => decide (Undoes x)) = some true := by
    decide +kernel
  have hrevoked : (producedNext [deletionRecord, editRecord 1]
      (firstApplied ++ [.loop (.poll 0 0 1) 1, .loop (.revoke 0 [0]) 1, .loop (.beginBatch 0) 1])).map
      (fun x => decide (Undoes x)) = some true := by
    decide +kernel
  obtain ⟨x, hx, hundoes⟩ := Option.map_eq_some_iff.mp hexpired
  obtain ⟨y, hy, hundoes'⟩ := Option.map_eq_some_iff.mp hrevoked
  exact ⟨⟨x, hx, of_decide_eq_true hundoes⟩, y, hy, of_decide_eq_true hundoes'⟩

end PageGroup
end Wikistream
