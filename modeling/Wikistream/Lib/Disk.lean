import Mathlib.Tactic.Common

/-!
# `Lib.Disk` — files through a power failure

Names stand for files, and files hold data. What processes see of both is ahead of what is on the disk: a power failure
brings back one of the earlier tables of names, and may leave anything in a file that was not synced. A name whose
file is only ever replaced by a whole one, written and synced under another name, is safe from both.

## Contents
- **The disk and its system calls** (`Disk`, `create`, `append`, `sync`, `rename`, `unlink`, `powerCut`).
- **What a name may stand for** (`Keeps`): in every table that may be the one on the disk, its file is synced and
  satisfies a condition. One lemma for each system call; `Keeps.rename` asks for the condition, `Keeps.append` that the
  file is nowhere under the name (`Hidden`).
-/

namespace Lib

/-- One directory. -/
structure Disk (ν β : Type) where
  names : ν → Option Nat
  /-- The data of each file, as processes see it. -/
  data : Nat → List β
  synced : Nat → Bool
  /-- The file the next name gets. -/
  fresh : Nat
  /-- The tables of names since the machine came up: each of them may be the one on the disk. -/
  tables : List (ν → Option Nat)

namespace Disk

variable {ν β : Type}

/-- What a process reads under a name. -/
def read (d : Disk ν β) (name : ν) : Option (List β) := (d.names name).map d.data

def append (d : Disk ν β) (file : Nat) (bs : List β) : Disk ν β :=
  { d with
    data := fun f => if f = file then d.data f ++ bs else d.data f
    synced := fun f => if f = file then false else d.synced f }

def sync (d : Disk ν β) (file : Nat) : Disk ν β :=
  { d with synced := fun f => if f = file then true else d.synced f }

def setNames (d : Disk ν β) (names : ν → Option Nat) : Disk ν β := { d with names, tables := names :: d.tables }

/-- The machine goes down and comes up again, with the `k`th table of names and `garbage` in the files that were
    not synced. -/
def powerCut (d : Disk ν β) (k : Nat) (garbage : Nat → List β) : Option (Disk ν β) :=
  d.tables[k]?.map (fun names =>
    { d with
      names
      data := fun f => if d.synced f then d.data f else garbage f
      synced := fun _ => true
      tables := [names] })

variable [DecidableEq ν]

/-- A new, empty file. -/
def create (d : Disk ν β) (name : ν) : Disk ν β :=
  { d with
    data := fun f => if f = d.fresh then [] else d.data f
    synced := fun f => if f = d.fresh then false else d.synced f
    fresh := d.fresh + 1 }.setNames (fun n => if n = name then some d.fresh else d.names n)

def rename (d : Disk ν β) (old new : ν) : Disk ν β :=
  d.setNames (fun n => if n = new then d.names old else if n = old then none else d.names n)

def unlink (d : Disk ν β) (name : ν) : Disk ν β := d.setNames (fun n => if n = name then none else d.names n)

end Disk

/-! ## What a name may stand for -/

variable {ν β : Type} {Q : Option (List β) → Prop} {target : ν} {d : Disk ν β}

/-- Whatever table is on the disk, what the name stands for is there and satisfies `Q`. -/
structure Keeps (Q : Option (List β) → Prop) (target : ν) (d : Disk ν β) : Prop where
  current : d.names ∈ d.tables
  synced : ∀ names ∈ d.tables, ∀ f, names target = some f → d.synced f = true ∧ f < d.fresh
  holds : ∀ names ∈ d.tables, Q ((names target).map d.data)

/-- The name stands for the file in no table. -/
def Hidden (target : ν) (d : Disk ν β) (file : Nat) : Prop :=
  file < d.fresh ∧ ∀ names ∈ d.tables, names target ≠ some file

theorem Keeps.read [DecidableEq ν] (h : Keeps Q target d) : Q (d.read target) := h.holds _ h.current

theorem Keeps.mono {Q' : Option (List β) → Prop} (hQ : ∀ x, Q x → Q' x) (h : Keeps Q target d) : Keeps Q' target d where
  current := h.current
  synced := h.synced
  holds names hn := hQ _ (h.holds names hn)

/-- A new table that gives the name what an old one gives it. -/
theorem Keeps.setNames {names : ν → Option Nat} (h : Keeps Q target d)
    (hsynced : ∀ f, names target = some f → d.synced f = true ∧ f < d.fresh) (hQ : Q ((names target).map d.data)) :
    Keeps Q target (d.setNames names) where
  current := List.mem_cons_self
  synced := by
    intro names' hn
    rcases List.mem_cons.mp hn with rfl | hn
    · exact hsynced
    · exact h.synced names' hn
  holds := by
    intro names' hn
    rcases List.mem_cons.mp hn with rfl | hn
    · exact hQ
    · exact h.holds names' hn

/-- Data changes only in files that the name does not stand for. -/
theorem Keeps.setData {data : Nat → List β} {synced : Nat → Bool} {fresh : Nat} (h : Keeps Q target d)
    (hsame : ∀ names ∈ d.tables, ∀ f, names target = some f → data f = d.data f ∧ synced f = d.synced f)
    (hfresh : d.fresh ≤ fresh) : Keeps Q target { d with data, synced, fresh } where
  current := h.current
  synced := by
    intro names hn f hf
    obtain ⟨hsynced, hlt⟩ := h.synced names hn f hf
    exact ⟨(hsame names hn f hf).2.trans hsynced, Nat.lt_of_lt_of_le hlt hfresh⟩
  holds := by
    intro names hn
    have hQ := h.holds names hn
    cases hf : names target with
    | none => rwa [hf] at hQ
    | some f =>
        rw [hf, Option.map_some, ← (hsame names hn f hf).1] at hQ
        exact hQ

variable {name : ν} {file : Nat}

theorem Keeps.append (h : Keeps Q target d) (hfile : Hidden target d file) (bs : List β) :
    Keeps Q target (d.append file bs) := by
  refine h.setData (fun names hn f hf => ?_) (Nat.le_refl _)
  have hne : f ≠ file := fun heq => hfile.2 names hn (heq ▸ hf)
  exact ⟨if_neg hne, if_neg hne⟩

theorem Keeps.sync (h : Keeps Q target d) (file : Nat) : Keeps Q target (d.sync file) where
  current := h.current
  synced names hn f hf := by
    obtain ⟨hsynced, hlt⟩ := h.synced names hn f hf
    refine ⟨?_, hlt⟩
    show (if f = file then true else d.synced f) = true
    rw [hsynced, ite_self]
  holds := h.holds

/-- **A power failure brings back something the name has stood for.** -/
theorem Keeps.powerCut {d' : Disk ν β} {k : Nat} {garbage : Nat → List β} (h : Keeps Q target d)
    (hcut : d.powerCut k garbage = some d') : Keeps Q target d' := by
  obtain ⟨names, hget, rfl⟩ := Option.map_eq_some_iff.mp hcut
  have hmem : names ∈ d.tables := List.mem_of_getElem? hget
  refine ⟨List.mem_singleton_self _, ?_, ?_⟩
  · intro names' hn f hf
    rw [List.mem_singleton.mp hn] at hf
    exact ⟨rfl, (h.synced names hmem f hf).2⟩
  · intro names' hn
    have hQ := h.holds names hmem
    obtain rfl := List.mem_singleton.mp hn
    cases hf : names' target with
    | none => rwa [hf] at hQ
    | some f =>
        rw [hf] at hQ
        have hdata : (if d.synced f then d.data f else garbage f) = d.data f := if_pos (h.synced names' hmem f hf).1
        rw [Option.map_some, ← hdata] at hQ
        exact hQ

variable [DecidableEq ν]

theorem Keeps.create (h : Keeps Q target d) (hne : name ≠ target) :
    Keeps Q target (d.create name) ∧ Hidden target (d.create name) d.fresh := by
  have hold : ∀ names ∈ d.tables, ∀ f, names target = some f → f ≠ d.fresh :=
    fun names hn f hf => Nat.ne_of_lt (h.synced names hn f hf).2
  have hdata := @Keeps.setData _ _ _ _ _ (fun f => if f = d.fresh then [] else d.data f)
    (fun f => if f = d.fresh then false else d.synced f) (d.fresh + 1) h
    (fun names hn f hf => ⟨if_neg (hold names hn f hf), if_neg (hold names hn f hf)⟩) (Nat.le_succ _)
  constructor
  · refine hdata.setNames ?_ ?_
    · simp only [if_neg hne.symm]
      exact hdata.synced _ h.current
    · simp only [if_neg hne.symm]
      exact hdata.holds _ h.current
  · refine ⟨Nat.lt_succ_self _, ?_⟩
    intro names hn hf
    rcases List.mem_cons.mp hn with rfl | hn
    · simp only [if_neg hne.symm] at hf
      exact hold _ h.current _ hf rfl
    · exact hold names hn _ hf rfl

theorem Keeps.unlink (h : Keeps Q target d) (hne : name ≠ target) : Keeps Q target (d.unlink name) := by
  refine h.setNames ?_ ?_
  · simp only [if_neg hne.symm]
    exact h.synced _ h.current
  · simp only [if_neg hne.symm]
    exact h.holds _ h.current

/-- **A whole file takes the name over.** -/
theorem Keeps.rename (h : Keeps Q target d) (hname : d.names name = some file) (hlt : file < d.fresh)
    (hsynced : d.synced file = true) (hQ : Q (some (d.data file))) : Keeps Q target (d.rename name target) := by
  refine h.setNames ?_ ?_
  · simp only [if_pos, hname]
    rintro f ⟨rfl⟩
    exact ⟨hsynced, hlt⟩
  · simp only [if_pos, hname]
    exact hQ

/-! ## What a process reads -/

theorem read_create (hne : name ≠ target) (h : Keeps Q target d) : (d.create name).read target = d.read target := by
  show Option.map _ (if target = name then some d.fresh else d.names target) = Option.map _ _
  rw [if_neg hne.symm]
  refine Option.map_congr (fun f hf => ?_)
  exact if_neg (Nat.ne_of_lt (h.synced _ h.current f hf).2)

omit [DecidableEq ν] in
theorem read_append (hfile : Hidden target d file) (h : d.names ∈ d.tables) (bs : List β) :
    (d.append file bs).read target = d.read target := by
  refine Option.map_congr (fun f hf => ?_)
  exact if_neg (fun heq => hfile.2 _ h ((congrArg some heq.symm).trans hf.symm).symm)

theorem read_unlink (hne : name ≠ target) : (d.unlink name).read target = d.read target := by
  show Option.map _ (if target = name then none else d.names target) = Option.map _ _
  rw [if_neg hne.symm]
  rfl

theorem read_rename (hname : d.names name = some file) : (d.rename name target).read target = some (d.data file) := by
  show Option.map _ (if target = target then d.names name else _) = _
  rw [if_pos rfl, hname]
  rfl

end Lib
