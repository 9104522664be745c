import Wikistream.Python.Str

/-!
# `Python.Lines` — the lines of a text

`str.splitlines` ends a line at more characters than the line feed and the carriage return.

## Contents
- **Splitting** (`isLineBreak`, `splitlines`, `partition`).
- **A text of lines** (`joinLines`). Each line comes back in its `pieces` (`splitlines_joinLines`), and whole if it has
  no break (`pieces_of_unbroken`); no line that comes out has one (`unbroken_of_splitlines`).
- **Text mode** (`universalNewlines`).
-/

namespace Py

/-- Does `str.splitlines` end a line at `c`? -/
def isLineBreak (c : Chr) : Bool :=
  (0xa ≤ c.val && c.val ≤ 0xd) || (0x1c ≤ c.val && c.val ≤ 0x1e) || c.val == 0x85 || c.val == 0x2028 ||
    c.val == 0x2029

/-- The lines of `s`, the one being read first: `line` is its reversed beginning, and `cr` says that `s` stands
    right behind a carriage return, which is one break with a line feed that follows it. -/
def splitlinesFrom (cr : Bool) (line : Str) : Str → List Str
  | [] => if line = [] then [] else [line.reverse]
  | c :: s =>
      if cr && c == chr '\n' then splitlinesFrom false line s
      else if isLineBreak c then line.reverse :: splitlinesFrom (c == chr '\r') [] s
      else splitlinesFrom false (c :: line) s

/-- `s.splitlines()`. -/
def splitlines (s : Str) : List Str := splitlinesFrom false [] s

/-- `s.partition(c)`, without its middle. -/
def partition (c : Chr) (s : Str) : Str × Str := (s.takeWhile (· != c), (s.dropWhile (· != c)).drop 1)

/-- The text has no line break. -/
def Unbroken (s : Str) : Prop := ∀ c ∈ s, isLineBreak c = false

instance (s : Str) : Decidable (Unbroken s) := List.decidableBAll (fun c => isLineBreak c = false) s

theorem Unbroken.sublist {s t : Str} (h : Unbroken t) (hst : s.Sublist t) : Unbroken s :=
  fun c hc => h c (hst.subset hc)

/-- The text of the lines, each ended by a line feed. -/
def joinLines (lines : List Str) : Str := lines.flatMap (fun line => line ++ [chr '\n'])

/-- The lines that a line is taken for. -/
def pieces (line : Str) : List Str := splitlines (line ++ [chr '\n'])

theorem splitlinesFrom_break {line s : Str} {c : Chr} (h : isLineBreak c = true) :
    splitlinesFrom false line (c :: s) = line.reverse :: splitlinesFrom (c == chr '\r') [] s := by
  rw [splitlinesFrom, if_neg (by simp), if_pos h]

theorem splitlinesFrom_other {line s : Str} {c : Chr} (h : isLineBreak c = false) :
    splitlinesFrom false line (c :: s) = splitlinesFrom false (c :: line) s := by
  rw [splitlinesFrom, if_neg (by simp), if_neg (by simp [h])]

/-- A line feed ends what came before it. -/
theorem splitlinesFrom_append {line s rest : Str} (h : chr '\r' ∉ s) :
    splitlinesFrom false line (s ++ chr '\n' :: rest) =
      splitlinesFrom false line (s ++ [chr '\n']) ++ splitlines rest := by
  induction s generalizing line with
  | nil =>
      rw [List.nil_append, List.nil_append, splitlinesFrom_break (by decide), splitlinesFrom_break (by decide)]
      rfl
  | cons c s ih =>
      have hc : (c == chr '\r') = false := beq_eq_false_iff_ne.mpr (fun heq => h (heq ▸ List.mem_cons_self))
      have hs : chr '\r' ∉ s := fun hmem => h (List.mem_cons_of_mem _ hmem)
      rw [List.cons_append, List.cons_append]
      cases hbreak : isLineBreak c with
      | true => rw [splitlinesFrom_break hbreak, splitlinesFrom_break hbreak, hc, ih hs, List.cons_append]
      | false => rw [splitlinesFrom_other hbreak, splitlinesFrom_other hbreak, ih hs]

/-- A line that has no break runs up to the next one. -/
theorem splitlinesFrom_unbroken {line s : Str} (h : Unbroken s) :
    splitlinesFrom false line (s ++ [chr '\n']) = [line.reverse ++ s] := by
  induction s generalizing line with
  | nil =>
      rw [List.nil_append, List.append_nil, splitlinesFrom_break (by decide)]
      rfl
  | cons c s ih =>
      rw [List.cons_append, splitlinesFrom_other (h c List.mem_cons_self),
        ih (fun d hd => h d (List.mem_cons_of_mem _ hd)), List.reverse_cons, List.append_assoc]
      rfl

theorem pieces_of_unbroken {line : Str} (h : Unbroken line) : pieces line = [line] := splitlinesFrom_unbroken h

/-- **The lines of a text** come back in their pieces. -/
theorem splitlines_joinLines {lines : List Str} (h : ∀ line ∈ lines, chr '\r' ∉ line) :
    splitlines (joinLines lines) = lines.flatMap pieces := by
  induction lines with
  | nil => rfl
  | cons line lines ih =>
      have htext : joinLines (line :: lines) = line ++ chr '\n' :: joinLines lines := by
        unfold joinLines
        rw [List.flatMap_cons, List.append_assoc]
        rfl
      rw [htext]
      unfold splitlines
      rw [splitlinesFrom_append (h line List.mem_cons_self), ih (fun l hl => h l (List.mem_cons_of_mem _ hl))]
      rfl

theorem unbroken_of_splitlinesFrom {cr : Bool} {line s : Str} (h : Unbroken line) :
    ∀ l ∈ splitlinesFrom cr line s, Unbroken l := by
  have hreverse : ∀ {l : Str}, Unbroken l → Unbroken l.reverse := fun hl c hc => hl c (List.mem_reverse.mp hc)
  fun_induction splitlinesFrom cr line s with
  | case1 cr => exact fun l hl => absurd hl (by simp)
  | case2 cr line hne =>
      intro l hl
      rw [List.mem_singleton.mp hl]
      exact hreverse h
  | case3 cr line c s hskip ih => exact ih h
  | case4 cr line c s hskip hbreak ih =>
      intro l hl
      rcases List.mem_cons.mp hl with rfl | hl
      · exact hreverse h
      · exact ih (fun d hd => absurd hd (by simp)) l hl
  | case5 cr line c s hskip hbreak ih =>
      apply ih
      intro d hd
      rcases List.mem_cons.mp hd with rfl | hd
      · exact Bool.eq_false_iff.mpr hbreak
      · exact h d hd

/-- **No line has a break.** -/
theorem unbroken_of_splitlines {s line : Str} (h : line ∈ splitlines s) : Unbroken line :=
  unbroken_of_splitlinesFrom (fun c hc => absurd hc (by simp)) line h

theorem splitlinesFrom_ne_nil {cr : Bool} {line s : Str} (h : line ≠ []) : splitlinesFrom cr line s ≠ [] := by
  fun_induction splitlinesFrom cr line s with
  | case1 cr => exact absurd rfl h
  | case2 cr line hne => exact List.cons_ne_nil _ _
  | case3 cr line c s hskip ih => exact ih h
  | case4 cr line c s hskip hbreak ih => exact List.cons_ne_nil _ _
  | case5 cr line c s hskip hbreak ih => exact ih (List.cons_ne_nil _ _)

/-- A text that is not empty has a first line. -/
theorem splitlines_ne_nil {s : Str} (h : s ≠ []) : splitlines s ≠ [] := by
  cases s with
  | nil => exact absurd rfl h
  | cons c s =>
      unfold splitlines
      rw [splitlinesFrom, if_neg (by simp)]
      split
      · exact List.cons_ne_nil _ _
      · exact splitlinesFrom_ne_nil (List.cons_ne_nil _ _)

theorem partition_snd_sublist (c : Chr) (s : Str) : (partition c s).2.Sublist s :=
  (List.drop_sublist _ _).trans (List.dropWhile_sublist _)

/-! ## Text mode -/

/-- What a file opened as text makes of its line ends; `cr` says that `s` stands right behind a carriage return. -/
def universalNewlinesFrom (cr : Bool) : Str → Str
  | [] => []
  | c :: s =>
      if cr && c == chr '\n' then universalNewlinesFrom false s
      else if c = chr '\r' then chr '\n' :: universalNewlinesFrom true s
      else c :: universalNewlinesFrom false s

def universalNewlines (s : Str) : Str := universalNewlinesFrom false s

theorem universalNewlines_of_notMem {s : Str} (h : chr '\r' ∉ s) : universalNewlines s = s := by
  induction s with
  | nil => rfl
  | cons c s ih =>
      have hc : c ≠ chr '\r' := fun heq => h (heq ▸ List.mem_cons_self)
      unfold universalNewlines
      rw [universalNewlinesFrom, if_neg (by simp), if_neg hc]
      exact congrArg (c :: ·) (ih (fun hs => h (List.mem_cons_of_mem c hs)))

/-! ## Two sides -/

/-- The two sides of the first `c`. -/
theorem partition_append {c : Chr} {name value : Str} (h : c ∉ name) :
    partition c (name ++ c :: value) = (name, value) := by
  have hname : ∀ d ∈ name, (d != c) = true := by
    intro d hd
    rw [bne_iff_ne]
    exact fun heq => h (heq ▸ hd)
  unfold partition
  rw [List.takeWhile_append_of_pos hname, List.dropWhile_append_of_pos hname, List.takeWhile_cons_of_neg (by simp),
    List.dropWhile_cons_of_neg (by simp), List.append_nil]
  rfl

end Py
