import Mathlib.Tactic.IntervalCases
import Wikistream.Python.Json

/-!
# `Python.JsonRoundTrip` — reading what `dumps` writes

`dumps` with `ensure_ascii=False` writes every character of a string itself or as an escape that stands for
it, so the text reads back as the same document. Floats come back as the literal of their `repr`.

## Contents
- **Characters and numbers** (`lex_dumpsStr`, `lex_dumpsInt`): what the lexer makes of one written value.
- **Documents that can be read** (`Fits`): numbers with few enough digits, containers nested not too deep,
  members with distinct names. `fits_of_loads`: whatever `loads` returns is one.
- **The same document** (`Same`), up to how floats are spelled.
- **The round trip** (`loads_dumps`).
- **Surrogates** (`encodable_dumps`): the text has one exactly if a string of the document has.
-/

namespace Py

/-! ## Characters -/

/-- What may stand after a value in a text that `dumps` writes. -/
def Ends (rest : Str) : Prop :=
  rest = [] ∨ ∃ c s, rest = c :: s ∧ (c = chr ',' ∨ c = chr ']' ∨ c = chr '}')

section Lexing

variable {lim : Nat}

theorem lex_cons {st : LexState} (st' : LexState) (out : List (Tok × Nat)) {pos : Nat} {c : Chr}
    (h : feed lim st pos c = (out, some st')) (s : Str) :
    lex lim st pos (c :: s) = out ++ lex lim st' (pos + 1) s := by
  rw [lex, h]

theorem hexDigit?_hexChr {n : Nat} (h : n < 16) : hexDigit? (hexChr n) = some n := by
  interval_cases n <;> decide

/-- A `\u00XY` escape puts its character; it joins no surrogate before it. -/
theorem lex_unicode {start : Nat} {acc : Str} {esc : Option Nat} {pos : Nat} {c : Chr} (hc : c.val < 0x20)
    (rest : Str) :
    lex lim (.str start acc esc) pos
        (chr '\\' :: chr 'u' :: chr '0' :: chr '0' :: hexChr (c.val / 16) :: hexChr (c.val % 16) :: rest) =
      lex lim (.str start (c :: acc) (some (pos + 1))) (pos + 6) rest := by
  have hvalue : (Fin.ofNat 0x110000 (((0 * 16 + 0) * 16 + c.val / 16) * 16 + c.val % 16) : Chr) = c := by
    apply Fin.ext
    rw [Fin.val_ofNat]
    omega
  -- a control character is no low surrogate, so it does not join an escape before it
  have hpush : pushUnit acc esc c = c :: acc := by
    have hlow : isLow c = false := by
      rw [isLow, Bool.and_eq_false_iff]
      exact Or.inl (by simpa using (by omega : c.val < 0xdc00))
    unfold pushUnit
    split
    · rw [hlow, Bool.and_false, if_neg (by simp)]
    · rfl
  have hzero : hexDigit? (chr '0') = some 0 := by decide
  rw [lex_cons (.escape start acc esc) [] rfl,
    lex_cons (.hex start acc esc (pos + 1) 4 0) [] rfl,
    lex_cons (.hex start acc esc (pos + 1) 3 (0 * 16 + 0)) [] rfl,
    lex_cons (.hex start acc esc (pos + 1) 2 ((0 * 16 + 0) * 16 + 0)) [] rfl,
    lex_cons (.hex start acc esc (pos + 1) 1 ((0 * 16 + 0) * 16 + c.val / 16)) [],
    lex_cons (.str start (c :: acc) (some (pos + 1))) []]
  · rfl
  · show feedHex _ _ _ _ _ _ _ = _
    rw [feedHex, hexDigit?_hexChr (Nat.mod_lt _ (by decide))]
    dsimp only
    rw [if_pos (le_refl _), hvalue, hpush]
  · show feedHex _ _ _ _ _ _ _ = _
    rw [feedHex, hexDigit?_hexChr (by omega)]
    rfl

variable (lim) in
/-- One written character is read as itself. -/
theorem lex_escaped (start : Nat) (acc : Str) (esc : Option Nat) (pos : Nat) (c : Chr) (rest : Str) :
    ∃ esc' pos', lex lim (.str start acc esc) pos (escaped c ++ rest) =
      lex lim (.str start (c :: acc) esc') pos' rest := by
  -- an escape of one letter
  have hletter {d e : Chr} (he : escaped d = [chr '\\', e])
      (hfeed : ∀ p, feed lim (.escape start acc esc) p e = ([], some (.str start (d :: acc) none))) :
      ∃ esc' pos', lex lim (.str start acc esc) pos (escaped d ++ rest) =
        lex lim (.str start (d :: acc) esc') pos' rest := by
    rw [he]
    refine ⟨none, pos + 1 + 1, ?_⟩
    show lex lim _ pos (chr '\\' :: e :: rest) = _
    rw [lex_cons (.escape start acc esc) [] rfl, lex_cons _ _ (hfeed _)]
    rfl
  by_cases hquote : c = chr '"'
  · subst hquote
    exact hletter rfl (fun _ => rfl)
  by_cases hback : c = chr '\\'
  · subst hback
    exact hletter rfl (fun _ => rfl)
  by_cases hn : c = 0x0a
  · subst hn
    exact hletter rfl (fun _ => rfl)
  by_cases hr : c = 0x0d
  · subst hr
    exact hletter rfl (fun _ => rfl)
  by_cases ht : c = 0x09
  · subst ht
    exact hletter rfl (fun _ => rfl)
  by_cases hf : c = 0x0c
  · subst hf
    exact hletter rfl (fun _ => rfl)
  by_cases hb : c = 0x08
  · subst hb
    exact hletter rfl (fun _ => rfl)
  unfold escaped
  rw [if_neg hquote, if_neg hback, if_neg hn, if_neg hr, if_neg ht, if_neg hf, if_neg hb]
  split
  · next hlow => exact ⟨_, _, lex_unicode hlow rest⟩
  · next hge =>
      refine ⟨none, pos + 1, lex_cons _ [] ?_ rest⟩
      show feedStr _ _ _ _ _ = _
      rw [feedStr, if_neg hquote, if_neg hback, if_neg (by omega)]

variable (lim) in
theorem lex_str (s : Str) (start : Nat) (acc : Str) (esc : Option Nat) (pos : Nat) (rest : Str) :
    ∃ pos', lex lim (.str start acc esc) pos (s.flatMap escaped ++ chr '"' :: rest) =
      (.str (acc.reverse ++ s), start) :: lex lim .blank pos' rest := by
  induction s generalizing acc esc pos with
  | nil =>
      refine ⟨pos + 1, ?_⟩
      rw [List.append_nil]
      exact lex_cons _ [(.str acc.reverse, start)] rfl rest
  | cons c s ih =>
      obtain ⟨esc', pos', hc⟩ := lex_escaped lim start acc esc pos c (s.flatMap escaped ++ chr '"' :: rest)
      obtain ⟨pos'', hs⟩ := ih (c :: acc) esc' pos'
      refine ⟨pos'', ?_⟩
      rw [List.flatMap_cons, List.append_assoc, hc, hs, List.reverse_cons, List.append_assoc]
      rfl

variable (lim) in
/-- **A written string is read as itself.** -/
theorem lex_dumpsStr (s : Str) (pos : Nat) (rest : Str) :
    ∃ pos', lex lim .blank pos (dumpsStr s ++ rest) = (.str s, pos) :: lex lim .blank pos' rest := by
  obtain ⟨pos', h⟩ := lex_str lim s pos [] none (pos + 1) rest
  refine ⟨pos', ?_⟩
  unfold dumpsStr
  show lex lim .blank pos (chr '"' :: ((s.flatMap escaped ++ [chr '"']) ++ rest)) = _
  rw [lex_cons (.str pos [] none) [] rfl, List.append_assoc]
  exact h

/-! ## Numbers -/

/-- `int()` converts a number with so many digits. -/
def IntFits (lim : Nat) (n : Int) : Prop := lim = 0 ∨ n.natAbs < 10 ^ lim

/-- The digits of a natural number. -/
def digitsText (n : Nat) : Str := (Nat.toDigits 10 n).map (fun c => Fin.ofNat _ c.toNat)

theorem lit_toString_nat (n : Nat) : lit (toString n) = digitsText n := by
  show List.map _ (Nat.repr n).toList = _
  rw [Nat.toList_repr]
  rfl

theorem lit_toString_int (n : Int) :
    lit (toString n) = if 0 ≤ n then digitsText n.natAbs else chr '-' :: digitsText n.natAbs := by
  cases n with
  | ofNat m =>
      have hpos : 0 ≤ Int.ofNat m := Int.natCast_nonneg m
      rw [if_pos hpos]
      exact lit_toString_nat m
  | negSucc m =>
      rw [if_neg (by omega)]
      show lit ("-" ++ toString (m + 1)) = _
      have happ : ∀ a b : String, lit (a ++ b) = lit a ++ lit b := by
        intro a b
        unfold lit
        rw [String.toList_append, List.map_append]
      rw [happ, lit_toString_nat]
      rfl

/-- The decimal digit `d`. -/
def decimal (d : Nat) : Chr := Fin.ofNat _ (Nat.digitChar d).toNat

theorem digitsText_of_lt {n : Nat} (h : n < 10) : digitsText n = [decimal n] := by
  unfold digitsText
  rw [Nat.toDigits_of_lt_base h]
  rfl

theorem digitsText_of_le {n : Nat} (h : 10 ≤ n) : digitsText n = digitsText (n / 10) ++ [decimal (n % 10)] := by
  unfold digitsText
  rw [Nat.toDigits_of_base_le (by decide) h, List.map_append]
  rfl

theorem digit?_decimal {d : Nat} (h : d < 10) : digit? (decimal d) = some d := by
  interval_cases d <;> decide

/-- In this state a digit other than zero opens a number. -/
def Opens (lim : Nat) (st : LexState) (start : Nat) (neg : Bool) (pos : Nat) : Prop :=
  ∀ d, 1 ≤ d → d < 10 → feed lim st pos (decimal d) = ([], some (.int { start, neg, mant := d, digits := 1 }))

theorem opens_blank (lim pos : Nat) : Opens lim .blank pos false pos := by
  intro d h1 h10
  interval_cases d <;> rfl

theorem opens_minus (lim start pos : Nat) : Opens lim (.minus start) start true pos := by
  intro d h1 h10
  interval_cases d <;> rfl

/-- Reading the digits of `n`. -/
theorem lex_digits {st : LexState} {start pos : Nat} {neg : Bool} (hopen : Opens lim st start neg pos) (n : Nat)
    (hn : 1 ≤ n) (rest : Str) :
    lex lim st pos (digitsText n ++ rest) =
      lex lim (.int { start, neg, mant := n, digits := (digitsText n).length })
        (pos + (digitsText n).length) rest := by
  induction n using Nat.strongRecOn generalizing rest with
  | ind n ih =>
      by_cases hlt : n < 10
      · rw [digitsText_of_lt hlt]
        exact lex_cons _ [] (hopen n hn hlt) rest
      · have hle : 10 ≤ n := Nat.le_of_not_lt hlt
        have hq := ih (n / 10) (by omega) (by omega) (decimal (n % 10) :: rest)
        rw [digitsText_of_le hle, List.append_assoc, List.singleton_append, hq, List.length_append,
          List.length_singleton, ← Nat.add_assoc]
        refine lex_cons _ [] ?_ rest
        -- one more digit
        have hd := digit?_decimal (Nat.mod_lt n (by decide : 10 > 0))
        have hother : ∀ c, digit? c = none → decimal (n % 10) ≠ c := by
          intro c hc heq
          rw [heq, hc] at hd
          exact absurd hd (by simp)
        have hdot : ¬ decimal (n % 10) = chr '.' := hother _ (by decide)
        have he : ¬ (decimal (n % 10) = chr 'e' ∨ decimal (n % 10) = chr 'E') :=
          not_or.mpr ⟨hother _ (by decide), hother _ (by decide)⟩
        show (if _ then _ else if _ then _ else _) = _
        rw [if_neg hdot, if_neg he, hd]
        show ([], some (LexState.int _)) = _
        have hmant : n / 10 * 10 + n % 10 = n := by omega
        simp [Num.push, hmant]

/-- A number ends where something ends that cannot be part of it. -/
theorem lex_ends {st : LexState} {tok : Tok} {start pos : Nat} {rest : Str} (hends : Ends rest)
    (hfinish : finish lim pos st = [(tok, start), (.eof, pos)])
    (hfeed : ∀ c, (c = chr ',' ∨ c = chr ']' ∨ c = chr '}') → feed lim st pos c = feedAfter tok start pos c) :
    lex lim st pos rest = (tok, start) :: lex lim .blank pos rest := by
  rcases hends with rfl | ⟨c, s, rfl, hc⟩
  · exact hfinish
  · rw [lex, hfeed c hc, lex]
    rcases hc with rfl | rfl | rfl <;> rfl

theorem lex_int_ends {n : Num} {pos : Nat} {rest : Str} (hends : Ends rest) :
    lex lim (.int n) pos rest = (n.int lim, n.start) :: lex lim .blank pos rest := by
  refine lex_ends hends rfl ?_
  rintro c (rfl | rfl | rfl) <;> rfl

theorem lex_zero_ends {n : Num} {pos : Nat} {rest : Str} (hends : Ends rest) :
    lex lim (.zero n) pos rest = (n.int lim, n.start) :: lex lim .blank pos rest := by
  refine lex_ends hends rfl ?_
  rintro c (rfl | rfl | rfl) <;> rfl

theorem length_digitsText_le {n : Nat} (hlim : 0 < lim) (hn : n < 10 ^ lim) : (digitsText n).length ≤ lim := by
  have := (Nat.length_repr_le_iff (n := n) hlim).mpr hn
  rw [← String.length_toList, Nat.toList_repr] at this
  unfold digitsText
  rwa [List.length_map]

/-- The token of a number with few enough digits. -/
theorem num_int_eq {start n : Nat} {neg : Bool} (hfits : IntFits lim n) :
    Num.int lim { start, neg, mant := n, digits := (digitsText n).length } =
      .const (.int (if neg then -(n : Int) else n)) := by
  unfold Num.int
  rw [if_neg]
  rintro ⟨hlim, hlt⟩
  rcases hfits with h0 | hn
  · exact hlim h0
  · exact absurd (length_digitsText_le (Nat.pos_of_ne_zero hlim) hn) (Nat.not_le.mpr hlt)

/-- **A written integer is read as itself.** -/
theorem lex_dumpsInt {n : Int} (hfits : IntFits lim n) (pos : Nat) {rest : Str} (hends : Ends rest) :
    ∃ pos', lex lim .blank pos (lit (toString n) ++ rest) = (.const (.int n), pos) :: lex lim .blank pos' rest := by
  have habs : IntFits lim (n.natAbs : Int) := hfits
  rw [lit_toString_int]
  split
  · next hpos =>
      have hself : (n.natAbs : Int) = n := Int.natAbs_of_nonneg hpos
      by_cases hzero : n.natAbs = 0
      · obtain rfl : n = 0 := Int.natAbs_eq_zero.mp hzero
        refine ⟨pos + 1, ?_⟩
        show lex lim .blank pos (decimal 0 :: rest) = _
        rw [lex_cons (.zero { start := pos, neg := false, digits := 1 }) [] rfl,
          List.nil_append, lex_zero_ends hends]
        congr 2
        exact @num_int_eq _ _ 0 false habs
      · refine ⟨pos + (digitsText n.natAbs).length, ?_⟩
        rw [lex_digits (opens_blank lim pos) n.natAbs (by omega), lex_int_ends hends, num_int_eq habs,
          if_neg (by simp), hself]
  · next hneg =>
      have hself : -(n.natAbs : Int) = n := by omega
      refine ⟨pos + 1 + (digitsText n.natAbs).length, ?_⟩
      rw [List.cons_append, lex_cons (.minus pos) [] rfl, List.nil_append,
        lex_digits (opens_minus lim pos (pos + 1)) n.natAbs (by omega), lex_int_ends hends, num_int_eq habs,
        if_pos rfl, hself]

end Lexing

/-! ## The same document -/

/-- A float as `dumps` writes it. -/
def floatText (floatRepr : JFloat → Str) (x : JFloat) : Str := dumps floatRepr (.float x)

mutual

/-- The same document, floats compared by what is written for them: two finite floats have one `repr` exactly
    if they are equal. -/
def Same (floatRepr : JFloat → Str) : Json → Json → Prop
  | .float x, w => ∃ y, w = .float y ∧ floatText floatRepr x = floatText floatRepr y
  | .arr items, w => ∃ items', w = .arr items' ∧ SameItems floatRepr items items'
  | .obj members, w => ∃ members', w = .obj members' ∧ SameMembers floatRepr members members'
  | v, w => w = v

def SameItems (floatRepr : JFloat → Str) : List Json → List Json → Prop
  | [], ws => ws = []
  | v :: vs, ws => ∃ w ws', ws = w :: ws' ∧ Same floatRepr v w ∧ SameItems floatRepr vs ws'

def SameMembers (floatRepr : JFloat → Str) : Obj → Obj → Prop
  | [], ws => ws = []
  | (k, v) :: vs, ws => ∃ w ws', ws = (k, w) :: ws' ∧ Same floatRepr v w ∧ SameMembers floatRepr vs ws'

end

/-! ## Documents that can be read -/

mutual

/-- Within `depth` open containers the document can be read: its integers have few enough digits, and the
    members of its objects have distinct names. -/
def Fits (lim : Nat) : Json → (depth : Nat) → Prop
  | .int n, _ => IntFits lim n
  | .arr items, depth => 0 < depth ∧ FitsItems lim items (depth - 1)
  | .obj members, depth => 0 < depth ∧ (members.map Prod.fst).Nodup ∧ FitsMembers lim members (depth - 1)
  | _, _ => True

def FitsItems (lim : Nat) : List Json → (depth : Nat) → Prop
  | [], _ => True
  | v :: vs, depth => Fits lim v depth ∧ FitsItems lim vs depth

def FitsMembers (lim : Nat) : Obj → (depth : Nat) → Prop
  | [], _ => True
  | (_, v) :: vs, depth => Fits lim v depth ∧ FitsMembers lim vs depth

end

/-- `repr` of a finite float is an ASCII text that the lexer reads as one float, with the same `repr`. -/
structure ReadsFloats (lim : Nat) (floatRepr : JFloat → Str) : Prop where
  ascii : ∀ neg mant exp, ∀ c ∈ floatRepr (.dec neg mant exp), c.val < 0x80
  reads : ∀ neg mant exp, ∃ y, floatText floatRepr y = floatRepr (.dec neg mant exp) ∧
    ∀ pos rest, Ends rest → ∃ pos', lex lim .blank pos (floatRepr (.dec neg mant exp) ++ rest) =
      (.const (.float y), pos) :: lex lim .blank pos' rest

/-! ## The round trip -/

section RoundTrip

variable {lim maxDepth : Nat} {floatRepr : JFloat → Str}

/-- Where a value ends, the text of `v` is a list of tokens that the parser takes as `w`. -/
def Spells (lim maxDepth : Nat) (floatRepr : JFloat → Str) (v w : Json) : Prop :=
  ∀ depth, Fits lim v depth → ∀ pos rest, Ends rest →
    ∃ tok start toks pos', tok ≠ .rbracket ∧
      lex lim .blank pos (dumps floatRepr v ++ rest) = (tok, start) :: toks ++ lex lim .blank pos' rest ∧
      ∀ stack more, depth = maxDepth - stack.length →
        parse maxDepth .value stack ((tok, start) :: toks ++ more) = parse maxDepth (.after w) stack more

/-- A value that is one token. -/
theorem spells_const {v w : Json}
    (h : ∀ depth, Fits lim v depth → ∀ pos rest, Ends rest → ∃ pos',
      lex lim .blank pos (dumps floatRepr v ++ rest) = (.const w, pos) :: lex lim .blank pos' rest) :
    Spells lim maxDepth floatRepr v w := by
  intro depth hfits pos rest hends
  obtain ⟨pos', hlex⟩ := h depth hfits pos rest hends
  exact ⟨.const w, pos, [], pos', by simp, hlex, fun stack more _ => rfl⟩

theorem spells_str (s : Str) : Spells lim maxDepth floatRepr (.str s) (.str s) := by
  intro depth _ pos rest _
  obtain ⟨pos', hlex⟩ := lex_dumpsStr lim s pos rest
  refine ⟨.str s, pos, [], pos', by simp, ?_, fun stack more _ => rfl⟩
  rw [dumps]
  exact hlex

/-- What follows the first of some comma-separated texts. -/
def tailText (texts : List Str) : Str := texts.flatMap (fun t => lit ", " ++ t)

theorem join_cons (t : Str) (texts : List Str) : join (lit ", ") (t :: texts) = t ++ tailText texts := by
  induction texts generalizing t with
  | nil => simp [join, tailText]
  | cons u texts ih =>
      have hjoin : join (lit ", ") (t :: u :: texts) = t ++ (lit ", " ++ join (lit ", ") (u :: texts)) := by
        simp [join, List.intersperse]
      rw [hjoin, ih, tailText, tailText, List.flatMap_cons, List.append_assoc]

theorem ends_tailText (texts : List Str) {c : Chr} (hc : c = chr ']' ∨ c = chr '}') (rest : Str) :
    Ends (tailText texts ++ c :: rest) := by
  refine Or.inr ?_
  cases texts with
  | nil => exact ⟨c, rest, rfl, Or.inr hc⟩
  | cons t texts => exact ⟨chr ',', _, rfl, Or.inl rfl⟩

/-- One more text: a comma, a space, and the text before the rest. -/
theorem lex_tailText_cons (t : Str) (texts : List Str) (pos : Nat) (rest : Str) :
    lex lim .blank pos (tailText (t :: texts) ++ rest) =
      (.comma, pos) :: lex lim .blank (pos + 1 + 1) (t ++ (tailText texts ++ rest)) := by
  rw [tailText, List.flatMap_cons, List.append_assoc, List.append_assoc]
  show lex lim .blank pos (chr ',' :: chr ' ' :: (t ++ _)) = _
  rw [lex_cons .blank [(.comma, pos)] rfl, lex_cons .blank [] rfl]
  rfl

/-! ### Arrays -/

/-- The items after the first one, up to the closing bracket. -/
def SpellsItems (lim maxDepth : Nat) (floatRepr : JFloat → Str) (vs ws : List Json) : Prop :=
  ∀ depth, FitsItems lim vs depth → ∀ pos rest, ∃ toks pos',
    lex lim .blank pos (tailText (dumpsItems floatRepr vs) ++ chr ']' :: rest) =
        toks ++ lex lim .blank pos' rest ∧
      ∀ stack v acc more, depth = maxDepth - (stack.length + 1) →
        parse maxDepth (.after v) (.arr acc :: stack) (toks ++ more) =
          parse maxDepth (.after (.arr (acc.reverse ++ v :: ws))) stack more

theorem spellsItems_nil : SpellsItems lim maxDepth floatRepr [] [] := by
  intro depth _ pos rest
  refine ⟨[(.rbracket, pos)], pos + 1, rfl, fun stack v acc more _ => ?_⟩
  show parse maxDepth (.after (.arr (v :: acc).reverse)) stack more = _
  rw [List.reverse_cons]

theorem spellsItems_cons {v w : Json} {vs ws : List Json} (hv : Spells lim maxDepth floatRepr v w)
    (hvs : SpellsItems lim maxDepth floatRepr vs ws) :
    SpellsItems lim maxDepth floatRepr (v :: vs) (w :: ws) := by
  rintro depth ⟨hfit, hfits⟩ pos rest
  obtain ⟨tok, start, toks, pos1, _, hlex, hparse⟩ := hv depth hfit (pos + 1 + 1)
    (tailText (dumpsItems floatRepr vs) ++ chr ']' :: rest) (ends_tailText _ (Or.inl rfl) rest)
  obtain ⟨toks', pos2, hlex', hparse'⟩ := hvs depth hfits pos1 rest
  refine ⟨(.comma, pos) :: ((tok, start) :: toks ++ toks'), pos2, ?_, ?_⟩
  · rw [dumpsItems, lex_tailText_cons, hlex, hlex']
    simp
  · intro stack u acc more hdepth
    rw [List.cons_append, List.append_assoc]
    show parse maxDepth .value (.arr (u :: acc) :: stack) _ = _
    rw [hparse (.arr (u :: acc) :: stack) _ hdepth, hparse' stack w (u :: acc) more hdepth, List.reverse_cons,
      List.append_assoc]
    rfl

theorem spells_arr_nil : Spells lim maxDepth floatRepr (.arr []) (.arr []) := by
  rintro depth ⟨hdepth, _⟩ pos rest _
  refine ⟨.lbracket, pos, [(.rbracket, pos + 1)], pos + 2, by simp, rfl, fun stack more heq => ?_⟩
  have hroom : stack.length < maxDepth := by omega
  rw [List.cons_append, parse]
  simp only [advance, scanOnce, if_pos hroom]
  rfl

theorem spells_arr_cons {v w : Json} {vs ws : List Json} (hv : Spells lim maxDepth floatRepr v w)
    (hvs : SpellsItems lim maxDepth floatRepr vs ws) :
    Spells lim maxDepth floatRepr (.arr (v :: vs)) (.arr (w :: ws)) := by
  rintro depth ⟨hdepth, hfit, hfits⟩ pos rest _
  obtain ⟨tok, start, toks, pos1, htok, hlex, hparse⟩ := hv (depth - 1) hfit (pos + 1)
    (tailText (dumpsItems floatRepr vs) ++ chr ']' :: rest) (ends_tailText _ (Or.inl rfl) rest)
  obtain ⟨toks', pos2, hlex', hparse'⟩ := hvs (depth - 1) hfits pos1 rest
  refine ⟨.lbracket, pos, (tok, start) :: toks ++ toks', pos2, by simp, ?_, ?_⟩
  · rw [dumps, dumpsItems, join_cons]
    show lex lim .blank pos (chr '[' :: (((dumps floatRepr v ++ _) ++ [chr ']']) ++ rest)) = _
    rw [lex_cons .blank [(.lbracket, pos)] rfl, List.append_assoc, List.append_assoc]
    show _ ++ lex lim .blank (pos + 1)
      (dumps floatRepr v ++ (tailText (dumpsItems floatRepr vs) ++ chr ']' :: rest)) = _
    rw [hlex, hlex']
    simp
  · intro stack more heq
    have hroom : stack.length < maxDepth := by omega
    have hinner : depth - 1 = maxDepth - (stack.length + 1) := by omega
    rw [List.cons_append, List.append_assoc, parse]
    simp only [advance, scanOnce, if_pos hroom]
    -- the first token of the first item is no closing bracket
    have hfirst : parse maxDepth .firstItem stack ((tok, start) :: toks ++ (toks' ++ more)) =
        parse maxDepth .value (.arr [] :: stack) ((tok, start) :: toks ++ (toks' ++ more)) := by
      rw [List.cons_append, parse, parse]
      cases tok with
      | rbracket => exact absurd rfl htok
      | _ => rfl
    rw [hfirst, hparse (.arr [] :: stack) _ hinner, hparse' stack w [] more hinner]
    rfl

/-! ### Objects -/

variable (lim floatRepr) in
theorem lex_member (k : Str) (v : Json) (pos : Nat) (rest : Str) :
    ∃ pos', lex lim .blank pos ((dumpsStr k ++ lit ": " ++ dumps floatRepr v) ++ rest) =
      (.str k, pos) :: (.colon, pos') :: lex lim .blank (pos' + 1 + 1) (dumps floatRepr v ++ rest) := by
  obtain ⟨pos', hlex⟩ := lex_dumpsStr lim k pos (lit ": " ++ (dumps floatRepr v ++ rest))
  refine ⟨pos', ?_⟩
  rw [List.append_assoc, List.append_assoc, hlex]
  show _ :: lex lim .blank pos' (chr ':' :: chr ' ' :: (dumps floatRepr v ++ rest)) = _
  rw [lex_cons .blank [(.colon, pos')] rfl, lex_cons .blank [] rfl]
  rfl

/-- The members after the first one, up to the closing brace. -/
def SpellsMembers (lim maxDepth : Nat) (floatRepr : JFloat → Str) (vs ws : Obj) : Prop :=
  ∀ depth, FitsMembers lim vs depth → ∀ pos rest, ∃ toks pos',
    lex lim .blank pos (tailText (dumpsMembers floatRepr vs) ++ chr '}' :: rest) =
        toks ++ lex lim .blank pos' rest ∧
      ∀ stack v acc k more, depth = maxDepth - (stack.length + 1) →
        (acc.map Prod.fst ++ k :: vs.map Prod.fst).Nodup →
        parse maxDepth (.after v) (.obj acc k :: stack) (toks ++ more) =
          parse maxDepth (.after (.obj (acc ++ (k, v) :: ws))) stack more

/-- A name that no earlier member has goes to the end. -/
theorem upsert_fresh {acc : Obj} {k : Str} {ks : List Str} (h : (acc.map Prod.fst ++ k :: ks).Nodup) (v : Json) :
    Lib.upsert k v acc = acc ++ [(k, v)] := by
  refine Lib.upsert_of_notMem (fun hmem => ?_) v
  exact (List.nodup_append.mp h).2.2 k hmem k (List.mem_cons_self ..) rfl

theorem spellsMembers_nil : SpellsMembers lim maxDepth floatRepr [] [] := by
  intro depth _ pos rest
  refine ⟨[(.rbrace, pos)], pos + 1, rfl, fun stack v acc k more _ hnodup => ?_⟩
  show parse maxDepth (.after (.obj (Lib.upsert k v acc))) stack more = _
  rw [upsert_fresh hnodup]

theorem spellsMembers_cons {k : Str} {v w : Json} {vs ws : Obj} (hv : Spells lim maxDepth floatRepr v w)
    (hvs : SpellsMembers lim maxDepth floatRepr vs ws) :
    SpellsMembers lim maxDepth floatRepr ((k, v) :: vs) ((k, w) :: ws) := by
  rintro depth ⟨hfit, hfits⟩ pos rest
  obtain ⟨pos0, hmember⟩ := lex_member lim floatRepr k v (pos + 1 + 1)
    (tailText (dumpsMembers floatRepr vs) ++ chr '}' :: rest)
  obtain ⟨tok, start, toks, pos1, _, hlex, hparse⟩ := hv depth hfit (pos0 + 1 + 1)
    (tailText (dumpsMembers floatRepr vs) ++ chr '}' :: rest) (ends_tailText _ (Or.inr rfl) rest)
  obtain ⟨toks', pos2, hlex', hparse'⟩ := hvs depth hfits pos1 rest
  refine ⟨(.comma, pos) :: (.str k, pos + 1 + 1) :: (.colon, pos0) :: ((tok, start) :: toks ++ toks'), pos2,
    ?_, ?_⟩
  · rw [dumpsMembers, lex_tailText_cons, hmember, hlex, hlex']
    simp
  · intro stack u acc j more hdepth hnodup
    have hnodup' : ((acc ++ [(j, u)]).map Prod.fst ++ k :: vs.map Prod.fst).Nodup := by
      simpa using hnodup
    show parse maxDepth .value (.obj (Lib.upsert j u acc) k :: stack) (((tok, start) :: toks ++ toks') ++ more) = _
    rw [List.append_assoc, upsert_fresh hnodup, hparse (.obj (acc ++ [(j, u)]) k :: stack) _ hdepth,
      hparse' stack w (acc ++ [(j, u)]) k more hdepth hnodup', List.append_assoc]
    rfl

theorem spells_obj_nil : Spells lim maxDepth floatRepr (.obj []) (.obj []) := by
  rintro depth ⟨hdepth, _⟩ pos rest _
  refine ⟨.lbrace, pos, [(.rbrace, pos + 1)], pos + 2, by simp, rfl, fun stack more heq => ?_⟩
  have hroom : stack.length < maxDepth := by omega
  rw [List.cons_append, parse]
  simp only [advance, scanOnce, if_pos hroom]
  rfl

theorem spells_obj_cons {k : Str} {v w : Json} {vs ws : Obj} (hv : Spells lim maxDepth floatRepr v w)
    (hvs : SpellsMembers lim maxDepth floatRepr vs ws) :
    Spells lim maxDepth floatRepr (.obj ((k, v) :: vs)) (.obj ((k, w) :: ws)) := by
  rintro depth ⟨hdepth, hnodup, hfit, hfits⟩ pos rest _
  obtain ⟨pos0, hmember⟩ := lex_member lim floatRepr k v (pos + 1)
    (tailText (dumpsMembers floatRepr vs) ++ chr '}' :: rest)
  obtain ⟨tok, start, toks, pos1, _, hlex, hparse⟩ := hv (depth - 1) hfit (pos0 + 1 + 1)
    (tailText (dumpsMembers floatRepr vs) ++ chr '}' :: rest) (ends_tailText _ (Or.inr rfl) rest)
  obtain ⟨toks', pos2, hlex', hparse'⟩ := hvs (depth - 1) hfits pos1 rest
  refine ⟨.lbrace, pos, (.str k, pos + 1) :: (.colon, pos0) :: ((tok, start) :: toks ++ toks'), pos2, by simp,
    ?_, ?_⟩
  · rw [dumps, dumpsMembers, join_cons]
    show lex lim .blank pos (chr '{' :: (((_ ++ _) ++ [chr '}']) ++ rest)) = _
    rw [lex_cons .blank [(.lbrace, pos)] rfl, List.append_assoc, List.append_assoc]
    show _ ++ lex lim .blank (pos + 1)
      (_ ++ (tailText (dumpsMembers floatRepr vs) ++ chr '}' :: rest)) = _
    rw [hmember, hlex, hlex']
    simp
  · intro stack more heq
    have hroom : stack.length < maxDepth := by omega
    have hinner : depth - 1 = maxDepth - (stack.length + 1) := by omega
    rw [List.cons_append, parse]
    simp only [advance, scanOnce, if_pos hroom]
    show parse maxDepth .value (.obj [] k :: stack) (((tok, start) :: toks ++ toks') ++ more) = _
    rw [List.append_assoc, hparse (.obj [] k :: stack) _ hinner, hparse' stack w [] k more hinner hnodup]
    rfl

/-! ### Words -/

/-- A constant that is written as a word. -/
theorem spells_word {v : Json} (h : ∀ pos rest, ∃ pos',
    lex lim .blank pos (dumps floatRepr v ++ rest) = (.const v, pos) :: lex lim .blank pos' rest) :
    Spells lim maxDepth floatRepr v v :=
  spells_const (fun _ _ pos rest _ => h pos rest)

theorem spells_null : Spells lim maxDepth floatRepr .null .null :=
  spells_word (fun pos _ => ⟨pos + 4, rfl⟩)

theorem spells_bool (b : Bool) : Spells lim maxDepth floatRepr (.bool b) (.bool b) := by
  cases b with
  | true => exact spells_word (fun pos _ => ⟨pos + 4, rfl⟩)
  | false => exact spells_word (fun pos _ => ⟨pos + 5, rfl⟩)

theorem spells_int (n : Int) : Spells lim maxDepth floatRepr (.int n) (.int n) := by
  apply spells_const
  intro depth hfits pos rest hends
  rw [dumps]
  exact lex_dumpsInt hfits pos hends

variable (maxDepth) in
theorem spells_float (hfloat : ReadsFloats lim floatRepr) (x : JFloat) :
    ∃ y, floatText floatRepr x = floatText floatRepr y ∧ Spells lim maxDepth floatRepr (.float x) (.float y) := by
  match x with
  | .nan => exact ⟨.nan, rfl, spells_word (fun pos _ => ⟨pos + 3, rfl⟩)⟩
  | .inf false => exact ⟨.inf false, rfl, spells_word (fun pos _ => ⟨pos + 8, rfl⟩)⟩
  | .inf true => exact ⟨.inf true, rfl, spells_word (fun pos _ => ⟨pos + 9, rfl⟩)⟩
  | .dec neg mant exp =>
      obtain ⟨y, hy, hlex⟩ := hfloat.reads neg mant exp
      refine ⟨y, ?_, spells_const (fun _ _ pos rest hends => hlex pos rest hends)⟩
      rw [hy]
      rfl

/-! ### The whole document -/

mutual

/-- What `dumps` writes is read as the same document. -/
theorem spells (hfloat : ReadsFloats lim floatRepr) :
    (v : Json) → ∃ w, Same floatRepr v w ∧ Spells lim maxDepth floatRepr v w
  | .null => ⟨.null, rfl, spells_null⟩
  | .bool b => ⟨.bool b, rfl, spells_bool b⟩
  | .int n => ⟨.int n, rfl, spells_int n⟩
  | .float x => by
      obtain ⟨y, hy, hspells⟩ := spells_float maxDepth hfloat x
      exact ⟨.float y, ⟨y, rfl, hy⟩, hspells⟩
  | .str s => ⟨.str s, rfl, spells_str s⟩
  | .arr [] => ⟨.arr [], ⟨[], rfl, rfl⟩, spells_arr_nil⟩
  | .arr (v :: vs) => by
      obtain ⟨w, hw, hv⟩ := spells hfloat v
      obtain ⟨ws, hws, hvs⟩ := spellsItems hfloat vs
      exact ⟨.arr (w :: ws), ⟨_, rfl, w, ws, rfl, hw, hws⟩, spells_arr_cons hv hvs⟩
  | .obj [] => ⟨.obj [], ⟨[], rfl, rfl⟩, spells_obj_nil⟩
  | .obj ((k, v) :: vs) => by
      obtain ⟨w, hw, hv⟩ := spells hfloat v
      obtain ⟨ws, hws, hvs⟩ := spellsMembers hfloat vs
      exact ⟨.obj ((k, w) :: ws), ⟨_, rfl, w, ws, rfl, hw, hws⟩, spells_obj_cons hv hvs⟩

theorem spellsItems (hfloat : ReadsFloats lim floatRepr) :
    (vs : List Json) → ∃ ws, SameItems floatRepr vs ws ∧ SpellsItems lim maxDepth floatRepr vs ws
  | [] => ⟨[], rfl, spellsItems_nil⟩
  | v :: vs => by
      obtain ⟨w, hw, hv⟩ := spells hfloat v
      obtain ⟨ws, hws, hvs⟩ := spellsItems hfloat vs
      exact ⟨w :: ws, ⟨w, ws, rfl, hw, hws⟩, spellsItems_cons hv hvs⟩

theorem spellsMembers (hfloat : ReadsFloats lim floatRepr) :
    (vs : Obj) → ∃ ws, SameMembers floatRepr vs ws ∧ SpellsMembers lim maxDepth floatRepr vs ws
  | [] => ⟨[], rfl, spellsMembers_nil⟩
  | (k, v) :: vs => by
      obtain ⟨w, hw, hv⟩ := spells hfloat v
      obtain ⟨ws, hws, hvs⟩ := spellsMembers hfloat vs
      exact ⟨(k, w) :: ws, ⟨w, ws, rfl, hw, hws⟩, spellsMembers_cons hv hvs⟩

end

/-- A text that is one value starts with no byte order mark. -/
theorem head?_ne_bom {s : Str} {t : Tok × Nat} {toks : List (Tok × Nat)} {pos : Nat}
    (h : lex lim .blank 0 (s ++ []) = t :: toks ++ lex lim .blank pos []) : s.head? ≠ some 0xfeff := by
  intro hbom
  obtain ⟨s', rfl⟩ := List.head?_eq_some_iff.mp hbom
  have hjunk : lex lim .blank 0 ((0xfeff :: s') ++ []) = [(.junk, 0)] := rfl
  rw [hjunk, List.cons_append, List.cons.injEq] at h
  exact absurd h.2.symm (List.append_ne_nil_of_right_ne_nil toks (by simp [lex, finish]))

/-- **Reading inverts writing.** -/
theorem loads_dumps {limits : JsonLimits} (hfloat : ReadsFloats limits.maxStrDigits floatRepr) {v : Json}
    (hfits : Fits limits.maxStrDigits v limits.maxDepth) :
    ∃ w, Same floatRepr v w ∧ loads limits (dumps floatRepr v) = .ok w := by
  obtain ⟨w, hsame, hspells⟩ := @spells limits.maxStrDigits limits.maxDepth floatRepr hfloat v
  obtain ⟨tok, start, toks, pos', _, hlex, hparse⟩ := hspells limits.maxDepth hfits 0 [] (Or.inl rfl)
  refine ⟨w, hsame, ?_⟩
  have hdone : parse limits.maxDepth .value [] (lex limits.maxStrDigits .blank 0 (dumps floatRepr v)) = .ok w := by
    rw [List.append_nil] at hlex
    rw [hlex, hparse [] _ rfl]
    rfl
  unfold loads
  rw [if_neg (head?_ne_bom hlex), hdone]

end RoundTrip

/-! ## What `loads` returns can be read again -/

section Loaded

variable {lim maxDepth : Nat}

/-- A token that is a value can stand at any depth. -/
def TokFits (lim : Nat) (tok : Tok) : Prop := ∀ v, tok = .const v → ∀ depth, Fits lim v depth

/-- The digits before the point are as many as counted. -/
def Num.Counted (n : Num) : Prop := n.mant < 10 ^ n.digits

/-- What holds of the lexer's state: the value it may complete can stand at any depth. -/
def LexFits (lim : Nat) : LexState → Prop
  | .word _ _ v => ∀ depth, Fits lim v depth
  | .zero n | .int n | .point n => n.Counted
  | .expMark n float _ | .expSign n float _ => float = false → n.Counted
  | _ => True

theorem tokFits_int {n : Num} (h : n.Counted) : TokFits lim (n.int lim) := by
  intro v hv depth
  unfold Num.int at hv
  split at hv
  · exact absurd hv (by simp)
  · next hfew =>
      obtain rfl := (Tok.const.inj hv).symm
      show IntFits lim _
      rcases Nat.eq_zero_or_pos lim with h0 | hpos
      · exact Or.inl h0
      · have hle : n.digits ≤ lim := by
          by_contra hlt
          exact hfew ⟨Nat.pos_iff_ne_zero.mp hpos, Nat.lt_of_not_le hlt⟩
        have hmant : n.mant < 10 ^ lim := Nat.lt_of_lt_of_le h (Nat.pow_le_pow_right (by decide) hle)
        refine Or.inr ?_
        cases n.neg <;> simpa using hmant

theorem tokFits_float (n : Num) : TokFits lim n.float := by
  intro v hv depth
  obtain rfl := Tok.const.inj hv
  trivial

/-- What one character does. -/
def FedFits (lim : Nat) (fed : Fed) : Prop :=
  (∀ t ∈ fed.1, TokFits lim t.1) ∧ ∀ st, fed.2 = some st → LexFits lim st

theorem fedFits_state {st : LexState} (h : LexFits lim st) : FedFits lim ([], some st) :=
  ⟨by simp, fun _ hst => Option.some.inj hst ▸ h⟩

theorem fedFits_tok {tok : Tok} {pos : Nat} (h : TokFits lim tok) (next : Option LexState)
    (hnext : next = none ∨ next = some .blank) : FedFits lim ([(tok, pos)], next) := by
  refine ⟨by simpa using h, fun st hst => ?_⟩
  rcases hnext with rfl | rfl
  · exact absurd hst (by simp)
  · obtain rfl := Option.some.inj hst
    trivial

theorem tokFits_of_ne {tok : Tok} (h : ∀ v, tok ≠ .const v) : TokFits lim tok := fun v hv => absurd hv (h v)

theorem counted_digit {start d : Nat} {neg : Bool} (h : d < 10) :
    Num.Counted { start, neg, mant := d, digits := 1 } := by
  show d < 10 ^ 1
  omega

theorem digit?_lt {c : Chr} {d : Nat} (h : digit? c = some d) : d < 10 := by
  unfold digit? at h
  split at h
  · obtain rfl := Option.some.inj h
    omega
  · exact absurd h (by simp)

theorem fedFits_ite {p : Prop} [Decidable p] {a b : Fed} (ha : FedFits lim a) (hb : FedFits lim b) :
    FedFits lim (if p then a else b) := by
  split
  · exact ha
  · exact hb

theorem fedFits_blank (pos : Nat) (c : Chr) : FedFits lim (feedBlank pos c) := by
  have hpunct : ∀ tok, (∀ v, tok ≠ .const v) → FedFits lim ([(tok, pos)], some .blank) := fun tok h =>
    fedFits_tok (tokFits_of_ne h) _ (Or.inr rfl)
  unfold feedBlank
  refine fedFits_ite (fedFits_state trivial) ?_
  refine fedFits_ite (hpunct _ (by simp)) (fedFits_ite (hpunct _ (by simp)) ?_)
  refine fedFits_ite (hpunct _ (by simp)) (fedFits_ite (hpunct _ (by simp)) ?_)
  refine fedFits_ite (hpunct _ (by simp)) (fedFits_ite (hpunct _ (by simp)) ?_)
  refine fedFits_ite (fedFits_state trivial) ?_
  -- the words
  refine fedFits_ite (fedFits_state (fun _ => trivial)) (fedFits_ite (fedFits_state (fun _ => trivial)) ?_)
  refine fedFits_ite (fedFits_state (fun _ => trivial)) (fedFits_ite (fedFits_state (fun _ => trivial)) ?_)
  refine fedFits_ite (fedFits_state (fun _ => trivial)) (fedFits_ite (fedFits_state trivial) ?_)
  split
  · exact fedFits_state (counted_digit (by decide))
  · next hd => exact fedFits_state (counted_digit (digit?_lt hd))
  · exact fedFits_tok (tokFits_of_ne (by simp)) _ (Or.inl rfl)

theorem fedFits_after {tok : Tok} (h : TokFits lim tok) (start pos : Nat) (c : Chr) :
    FedFits lim (feedAfter tok start pos c) := by
  refine ⟨?_, (fedFits_blank pos c).2⟩
  intro t ht
  rcases List.mem_cons.mp ht with rfl | ht
  · exact h
  · exact (fedFits_blank pos c).1 t ht

/-- A number that ends before a character that is no part of it. -/
theorem fedFits_cut {tok : Tok} (h : TokFits lim tok) (start pos : Nat) :
    FedFits lim ([(tok, start), (.junk, pos)], none) := by
  refine ⟨?_, fun st hst => absurd hst (by simp)⟩
  intro t ht
  rcases List.mem_cons.mp ht with rfl | ht
  · exact h
  · obtain rfl := List.mem_singleton.mp ht
    exact tokFits_of_ne (by simp)

theorem tokFits_cut {n : Num} {float : Bool} (h : float = false → n.Counted) :
    TokFits lim (if float then n.float else n.int lim) := by
  cases float with
  | true => exact tokFits_float n
  | false => exact tokFits_int (h rfl)

/-- One character keeps the invariant of the lexer. -/
theorem fedFits_feed {st : LexState} (h : LexFits lim st) (pos : Nat) (c : Chr) :
    FedFits lim (feed lim st pos c) := by
  have hjunk : ∀ start, FedFits lim ([(.junk, start)], none) := fun start =>
    fedFits_tok (tokFits_of_ne (by simp)) _ (Or.inl rfl)
  have hbad : ∀ message p start, FedFits lim ([(.badStr message p, start)], none) := fun message p start =>
    fedFits_tok (tokFits_of_ne (by simp)) _ (Or.inl rfl)
  cases st with
  | blank => exact fedFits_blank pos c
  | str start acc esc =>
      show FedFits lim (feedStr start acc esc pos c)
      unfold feedStr
      repeat' split
      · exact fedFits_tok (tokFits_of_ne (by simp)) _ (Or.inr rfl)
      · exact fedFits_state trivial
      · exact hbad _ _ _
      · exact fedFits_state trivial
  | escape start acc esc =>
      show FedFits lim (feedEscape start acc esc pos c)
      unfold feedEscape
      repeat' split
      · exact fedFits_state trivial
      · exact fedFits_state trivial
      · exact hbad _ _ _
  | hex start acc esc u need value =>
      show FedFits lim (feedHex start acc esc u need value c)
      unfold feedHex
      repeat' split
      · exact hbad _ _ _
      · exact fedFits_state trivial
      · exact fedFits_state trivial
  | word start rest v =>
      have hv : TokFits lim (.const v) := fun w hw => Tok.const.inj hw ▸ h
      match rest with
      | [] => exact hjunk start
      | [r] =>
          show FedFits lim (if c = r then _ else _)
          split
          · exact fedFits_tok hv _ (Or.inr rfl)
          · exact hjunk start
      | r :: r' :: rest =>
          show FedFits lim (if c = r then _ else _)
          split
          · exact fedFits_state h
          · exact hjunk start
  | minus start =>
      rw [feed]
      repeat' split
      · exact fedFits_state (fun _ => trivial)
      · exact fedFits_state (counted_digit (by decide))
      · next hd => exact fedFits_state (counted_digit (digit?_lt hd))
      · exact hjunk start
  | zero n =>
      rw [feed]
      repeat' split
      · exact fedFits_state h
      · exact fedFits_state (fun _ => h)
      · exact fedFits_after (tokFits_int h) _ _ _
  | int n =>
      rw [feed]
      repeat' split
      · exact fedFits_state h
      · exact fedFits_state (fun _ => h)
      · next d hd =>
          refine fedFits_state ?_
          -- one digit more, counted
          have hn : n.mant < 10 ^ n.digits := h
          have hlt := digit?_lt hd
          show n.mant * 10 + d < 10 ^ (n.digits + 1)
          rw [Nat.pow_succ]
          omega
      · exact fedFits_after (tokFits_int h) _ _ _
  | point n =>
      rw [feed]
      split
      · exact fedFits_state trivial
      · exact fedFits_cut (tokFits_int h) _ _
  | frac n =>
      rw [feed]
      repeat' split
      · exact fedFits_state (fun hfalse => absurd hfalse (by simp))
      · exact fedFits_state trivial
      · exact fedFits_after (tokFits_float n) _ _ _
  | expMark n float e =>
      rw [feed]
      refine fedFits_ite (fedFits_state h) (fedFits_ite (fedFits_state h) ?_)
      cases digit? c with
      | some d => exact fedFits_state trivial
      | none => exact fedFits_cut (tokFits_cut h) _ _
  | expSign n float e =>
      rw [feed]
      cases digit? c with
      | some d => exact fedFits_state trivial
      | none => exact fedFits_cut (tokFits_cut h) _ _
  | exp n =>
      rw [feed]
      split
      · exact fedFits_state trivial
      · exact fedFits_after (tokFits_float n) _ _ _

theorem tokFits_finish {st : LexState} (h : LexFits lim st) (pos : Nat) :
    ∀ t ∈ finish lim pos st, TokFits lim t.1 := by
  have hend : ∀ tok p, TokFits lim tok → ∀ t ∈ [(tok, p), (Tok.eof, pos)], TokFits lim t.1 := by
    intro tok p htok t ht
    simp only [List.mem_cons, List.not_mem_nil, or_false] at ht
    rcases ht with rfl | rfl
    · exact htok
    · exact tokFits_of_ne (by simp)
  have hone : ∀ (tok : Tok) (p : Nat), (∀ v, tok ≠ .const v) → ∀ t ∈ [(tok, p)], TokFits lim t.1 := by
    intro tok p htok t ht
    obtain rfl := List.mem_singleton.mp ht
    exact tokFits_of_ne htok
  match st with
  | .blank => exact hone _ _ (by simp)
  | .str _ _ none | .escape _ _ _ | .str _ _ (some _) | .hex _ _ _ _ _ _ => exact hone _ _ (by simp)
  | .word _ _ _ | .minus _ => exact hone _ _ (by simp)
  | .zero n | .int n => exact hend _ _ (tokFits_int h)
  | .frac n | .exp n => exact hend _ _ (tokFits_float n)
  | .point n => exact (fedFits_cut (tokFits_int h) _ _).1
  | .expMark n float e | .expSign n float e => exact (fedFits_cut (tokFits_cut h) _ _).1

theorem tokFits_lex {st : LexState} (h : LexFits lim st) (pos : Nat) (s : Str) :
    ∀ t ∈ lex lim st pos s, TokFits lim t.1 := by
  induction s generalizing st pos with
  | nil => exact tokFits_finish h pos
  | cons c s ih =>
      obtain ⟨hout, hnext⟩ := fedFits_feed h pos c
      intro t ht
      rw [lex] at ht
      split at ht
      · next hfeed =>
          rw [hfeed] at hout
          exact hout t ht
      · next hfeed =>
          rw [hfeed] at hout hnext
          rcases List.mem_append.mp ht with ht | ht
          · exact hout t ht
          · exact ih (hnext _ rfl) _ t ht

theorem fitsItems_iff {vs : List Json} {depth : Nat} : FitsItems lim vs depth ↔ ∀ v ∈ vs, Fits lim v depth := by
  induction vs with
  | nil => simp [FitsItems]
  | cons v vs ih => simp [FitsItems, ih]

theorem fitsMembers_iff {members : Obj} {depth : Nat} :
    FitsMembers lim members depth ↔ ∀ m ∈ members, Fits lim m.2 depth := by
  induction members with
  | nil => simp [FitsMembers]
  | cons m members ih =>
      obtain ⟨k, v⟩ := m
      simp [FitsMembers, ih]

theorem fits_lookup {d : Obj} {k : Str} {v : Json} {depth : Nat} (h : FitsMembers lim d depth)
    (hlookup : lookup d k = some v) : Fits lim v depth := fitsMembers_iff.mp h (k, v) (mem_of_lookup hlookup)

theorem fitsMembers_upsert {members : Obj} {k : Str} {v : Json} {depth : Nat} (hv : Fits lim v depth)
    (h : FitsMembers lim members depth) : FitsMembers lim (Lib.upsert k v members) depth := by
  induction members with
  | nil => exact ⟨hv, trivial⟩
  | cons m members ih =>
      obtain ⟨j, u⟩ := m
      unfold Lib.upsert
      split
      · exact ⟨hv, h.2⟩
      · exact ⟨h.1, ih h.2⟩

/-- The members read so far of an object that lies in `height` containers. -/
def MembersFit (lim maxDepth height : Nat) (members : Obj) : Prop :=
  height < maxDepth ∧ (members.map Prod.fst).Nodup ∧ FitsMembers lim members (maxDepth - (height + 1))

/-- What holds of the open containers. -/
def StackFits (lim maxDepth : Nat) : List Frame → Prop
  | [] => True
  | .arr items :: stack =>
      (stack.length < maxDepth ∧ FitsItems lim items (maxDepth - (stack.length + 1))) ∧ StackFits lim maxDepth stack
  | .obj members _ :: stack => MembersFit lim maxDepth stack.length members ∧ StackFits lim maxDepth stack

/-- What holds of the parser's mode in `height` containers. -/
def ModeFits (lim maxDepth height : Nat) : Mode → Prop
  | .value => True
  | .firstItem | .firstKey => height < maxDepth
  | .key members | .colon members _ => MembersFit lim maxDepth height members
  | .after v => Fits lim v (maxDepth - height)

/-- What holds after a transition of the parser. -/
def ParsedFits (lim maxDepth : Nat) : Parsed → Prop
  | .done v => Fits lim v maxDepth
  | .more mode stack => ModeFits lim maxDepth stack.length mode ∧ StackFits lim maxDepth stack

theorem membersFit_nil {height : Nat} (h : height < maxDepth) : MembersFit lim maxDepth height [] :=
  ⟨h, List.nodup_nil, trivial⟩

theorem membersFit_upsert {height : Nat} {members : Obj} {k : Str} {v : Json}
    (h : MembersFit lim maxDepth height members) (hv : Fits lim v (maxDepth - (height + 1))) :
    MembersFit lim maxDepth height (Lib.upsert k v members) :=
  ⟨h.1, Lib.nodup_upsert h.2.1, fitsMembers_upsert hv h.2.2⟩

theorem parsedFits_scanOnce {stack : List Frame} {tok : Tok} {pos : Nat} {r : Parsed}
    (hstack : StackFits lim maxDepth stack) (htok : TokFits lim tok) (h : scanOnce maxDepth stack tok pos = .ok r) :
    ParsedFits lim maxDepth r := by
  cases tok with
  | lbrace =>
      rw [scanOnce] at h
      split at h
      · next hroom => exact Except.ok.inj h ▸ ⟨hroom, hstack⟩
      · exact absurd h (by simp)
  | lbracket =>
      rw [scanOnce] at h
      split at h
      · next hroom => exact Except.ok.inj h ▸ ⟨hroom, hstack⟩
      · exact absurd h (by simp)
  | str s => exact Except.ok.inj h ▸ ⟨trivial, hstack⟩
  | const v => exact Except.ok.inj h ▸ ⟨htok v rfl _, hstack⟩
  | _ => exact absurd h (by simp [scanOnce, expecting])

theorem parsedFits_scanKey {members : Obj} {stack : List Frame} {tok : Tok} {pos : Nat} {r : Parsed}
    (hmembers : MembersFit lim maxDepth stack.length members) (hstack : StackFits lim maxDepth stack)
    (h : scanKey members stack tok pos = .ok r) : ParsedFits lim maxDepth r := by
  cases tok with
  | str k => exact Except.ok.inj h ▸ ⟨hmembers, hstack⟩
  | _ => exact absurd h (by simp [scanKey, expecting])

/-- A complete value goes into the container around it. -/
theorem parsedFits_after {v : Json} {stack : List Frame} {tok : Tok} {pos : Nat} {r : Parsed}
    (hv : Fits lim v (maxDepth - stack.length)) (hstack : StackFits lim maxDepth stack)
    (h : advance maxDepth (.after v) stack tok pos = .ok r) : ParsedFits lim maxDepth r := by
  -- the value ends the document, or goes into the array or the object it is in
  match stack with
  | [] =>
      cases tok with
      | eof => exact Except.ok.inj h ▸ hv
      | _ => exact absurd h (by simp [advance, expecting])
  | .arr items :: stack =>
      obtain ⟨⟨hroom, hitems⟩, hrest⟩ := hstack
      have hall : FitsItems lim (v :: items) (maxDepth - (stack.length + 1)) := ⟨hv, hitems⟩
      cases tok with
      | comma => exact Except.ok.inj h ▸ ⟨trivial, ⟨hroom, hall⟩, hrest⟩
      | rbracket =>
          refine Except.ok.inj h ▸ ⟨⟨by omega, ?_⟩, hrest⟩
          rw [Nat.sub_sub, fitsItems_iff]
          intro u hu
          exact fitsItems_iff.mp hall u (List.mem_reverse.mp hu)
      | _ => exact absurd h (by simp [advance, expecting])
  | .obj members k :: stack =>
      obtain ⟨hmembers, hrest⟩ := hstack
      have hall := membersFit_upsert (k := k) hmembers hv
      cases tok with
      | comma => exact Except.ok.inj h ▸ ⟨hall, hrest⟩
      | rbrace =>
          have hroom := hall.1
          refine Except.ok.inj h ▸ ⟨⟨by omega, hall.2.1, ?_⟩, hrest⟩
          rw [Nat.sub_sub]
          exact hall.2.2
      | _ => exact absurd h (by simp [advance, expecting])

/-- One token keeps the invariant of the parser. -/
theorem parsedFits_advance {mode : Mode} {stack : List Frame} {tok : Tok} {pos : Nat} {r : Parsed}
    (hmode : ModeFits lim maxDepth stack.length mode) (hstack : StackFits lim maxDepth stack)
    (htok : TokFits lim tok) (h : advance maxDepth mode stack tok pos = .ok r) : ParsedFits lim maxDepth r := by
  cases mode with
  | value => exact parsedFits_scanOnce hstack htok h
  | firstItem =>
      have hroom : stack.length < maxDepth := hmode
      have hopen : StackFits lim maxDepth (.arr [] :: stack) := ⟨⟨hroom, trivial⟩, hstack⟩
      cases tok with
      | rbracket => exact Except.ok.inj h ▸ ⟨⟨by omega, trivial⟩, hstack⟩
      | _ => exact @parsedFits_scanOnce _ _ _ _ pos _ hopen htok h
  | firstKey =>
      have hroom : stack.length < maxDepth := hmode
      by_cases hclose : tok = .rbrace
      · subst hclose
        exact Except.ok.inj h ▸ ⟨⟨by omega, List.nodup_nil, trivial⟩, hstack⟩
      · have hkey : advance maxDepth .firstKey stack tok pos = scanKey [] stack tok pos := by
          cases tok with
          | rbrace => exact absurd rfl hclose
          | _ => rfl
        rw [hkey] at h
        exact parsedFits_scanKey (membersFit_nil hroom) hstack h
  | key members => exact parsedFits_scanKey hmode hstack h
  | colon members k =>
      cases tok with
      | colon => exact Except.ok.inj h ▸ ⟨trivial, hmode, hstack⟩
      | _ => exact absurd h (by simp [advance, expecting])
  | after v => exact parsedFits_after hmode hstack h

theorem fits_of_parse {mode : Mode} {stack : List Frame} {toks : List (Tok × Nat)} {v : Json}
    (hmode : ModeFits lim maxDepth stack.length mode) (hstack : StackFits lim maxDepth stack)
    (htoks : ∀ t ∈ toks, TokFits lim t.1) (h : parse maxDepth mode stack toks = .ok v) : Fits lim v maxDepth := by
  induction toks generalizing mode stack with
  | nil => exact absurd h (by simp [parse])
  | cons t toks ih =>
      obtain ⟨tok, pos⟩ := t
      have htok := htoks _ (List.mem_cons_self ..)
      rw [parse] at h
      split at h
      · exact absurd h (by simp)
      · next u hadvance => exact Except.ok.inj h ▸ parsedFits_advance hmode hstack htok hadvance
      · next mode' stack' hadvance =>
          obtain ⟨hmode', hstack'⟩ := parsedFits_advance hmode hstack htok hadvance
          exact ih hmode' hstack' (fun t ht => htoks t (List.mem_cons_of_mem _ ht)) h

/-- **A decoded document can be read again.** -/
theorem fits_of_loads {limits : JsonLimits} {s : Str} {v : Json} (h : loads limits s = .ok v) :
    Fits limits.maxStrDigits v limits.maxDepth := by
  unfold loads at h
  split at h
  · exact absurd h (by simp)
  · split at h
    · next u hparse =>
        obtain rfl := Except.ok.inj h
        have htoks := @tokFits_lex limits.maxStrDigits .blank trivial 0 s
        exact @fits_of_parse _ _ .value [] _ _ trivial trivial htoks hparse
    · exact absurd h (by simp)
    · exact absurd h (by simp)
    · exact absurd h (by simp)

end Loaded

/-! ## Surrogates -/

mutual

/-- The strings of a document, the names of its members among them. -/
def Json.texts : Json → List Str
  | .str s => [s]
  | .arr items => itemsTexts items
  | .obj members => membersTexts members
  | _ => []

def itemsTexts : List Json → List Str
  | [] => []
  | v :: vs => v.texts ++ itemsTexts vs

def membersTexts : Obj → List Str
  | [] => []
  | (k, v) :: vs => k :: (v.texts ++ membersTexts vs)

end

theorem mem_membersTexts {members : Obj} {s : Str} :
    s ∈ membersTexts members ↔ ∃ m ∈ members, s = m.1 ∨ s ∈ m.2.texts := by
  induction members with
  | nil => simp [membersTexts]
  | cons m members ih =>
      obtain ⟨k, v⟩ := m
      simp [membersTexts, ih, or_assoc]

/-- The text can be encoded: it has no lone surrogate. -/
def Encodable (s : Str) : Prop := s.any isSurrogate = false

instance (s : Str) : Decidable (Encodable s) := inferInstanceAs (Decidable (_ = _))

theorem encodable_iff {s : Str} : Encodable s ↔ ∀ c ∈ s, isSurrogate c = false := by
  unfold Encodable
  simp

theorem utf8Encode_of_encodable {s : Str} (h : Encodable s) : utf8Encode s = some (s.flatMap utf8Char) := by
  rw [utf8Encode, if_neg (by rw [h]; simp)]

theorem utf8Encode_of_not_encodable {s : Str} (h : ¬ Encodable s) : utf8Encode s = none := by
  rw [utf8Encode, if_pos (by simpa [Encodable] using h)]

theorem escaped_ascii {d : Chr} (h : d.val < 0x80) : (escaped d).all (·.val < 0x80) = true := by
  have hall : ∀ n < 0x80, (escaped (Fin.ofNat _ n)).all (·.val < 0x80) = true := by decide +kernel
  have hself : (Fin.ofNat 0x110000 d.val : Chr) = d := Fin.ofNat_val_eq_self d
  rw [← hself]
  exact hall d.val h

theorem escaped_of_le {d : Chr} (h : 0x80 ≤ d.val) : escaped d = [d] := by
  have hne : ∀ e : Chr, e.val < 0x80 → ¬ d = e := by
    rintro e he rfl
    omega
  unfold escaped
  rw [if_neg (hne _ (by decide)), if_neg (hne _ (by decide)), if_neg (hne _ (by decide)),
    if_neg (hne _ (by decide)), if_neg (hne _ (by decide)), if_neg (hne _ (by decide)),
    if_neg (hne _ (by decide)), if_neg (by omega)]

section Surrogates

variable {c : Chr} (hc : isSurrogate c = true)

include hc

theorem notMem_of_ascii {s : Str} (h : s.all (·.val < 0x80) = true) : c ∉ s := by
  intro hmem
  have hlt := List.all_eq_true.mp h c hmem
  rw [isSurrogate, Bool.and_eq_true, decide_eq_true_eq] at hc
  rw [decide_eq_true_eq] at hlt
  omega

theorem mem_escaped (d : Chr) : c ∈ escaped d ↔ c = d := by
  by_cases hd : d.val < 0x80
  · have hne : c ≠ d := by
      rintro rfl
      exact notMem_of_ascii hc (s := [c]) (by simpa using hd) (List.mem_singleton_self c)
    exact ⟨fun h => absurd h (notMem_of_ascii hc (escaped_ascii hd)), fun h => absurd h hne⟩
  · rw [escaped_of_le (Nat.le_of_not_lt hd), List.mem_singleton]

theorem mem_dumpsStr {s : Str} : c ∈ dumpsStr s ↔ c ∈ s := by
  have hquote : c ∉ [chr '"'] := notMem_of_ascii hc (by decide)
  unfold dumpsStr
  rw [List.cons_append, ← List.singleton_append, List.mem_append, List.mem_append, or_iff_right hquote,
    or_iff_left hquote, List.mem_flatMap]
  simp [mem_escaped hc]

theorem notMem_digitsText (n : Nat) : c ∉ digitsText n := by
  apply notMem_of_ascii hc
  rw [List.all_eq_true]
  intro d hd
  obtain ⟨e, he, rfl⟩ := List.mem_map.mp hd
  have hdigit := Nat.isDigit_of_mem_toDigits (by decide) (by decide) he
  simp only [Char.isDigit, Bool.and_eq_true, decide_eq_true_eq] at hdigit
  have hle : e.toNat ≤ 57 := hdigit.2
  rw [Fin.val_ofNat, decide_eq_true_eq]
  omega

theorem notMem_int (n : Int) : c ∉ lit (toString n) := by
  rw [lit_toString_int]
  split
  · exact notMem_digitsText hc _
  · rw [← List.singleton_append, List.mem_append, not_or]
    exact ⟨notMem_of_ascii hc (by decide), notMem_digitsText hc _⟩

variable {lim : Nat} {floatRepr : JFloat → Str} (hfloat : ReadsFloats lim floatRepr)

include hfloat

theorem notMem_float (x : JFloat) : c ∉ dumps floatRepr (.float x) := by
  apply notMem_of_ascii hc
  match x with
  | .nan => rfl
  | .inf false => rfl
  | .inf true => rfl
  | .dec neg mant exp =>
      rw [List.all_eq_true]
      intro d hd
      exact decide_eq_true (hfloat.ascii neg mant exp d hd)

end Surrogates

section Document

variable {c : Chr} {lim : Nat} {floatRepr : JFloat → Str}

mutual

/-- A surrogate in the text comes from a string of the document. -/
theorem mem_dumps (hc : isSurrogate c = true) (hfloat : ReadsFloats lim floatRepr) :
    (v : Json) → (c ∈ dumps floatRepr v ↔ ∃ s ∈ v.texts, c ∈ s)
  | .null => by simpa [Json.texts] using notMem_of_ascii hc (s := dumps floatRepr .null) rfl
  | .bool true => by simpa [Json.texts] using notMem_of_ascii hc (s := dumps floatRepr (.bool true)) rfl
  | .bool false => by simpa [Json.texts] using notMem_of_ascii hc (s := dumps floatRepr (.bool false)) rfl
  | .int n => by simpa [Json.texts, dumps] using notMem_int hc n
  | .float x => by simpa [Json.texts] using notMem_float hc hfloat x
  | .str s => by simpa [Json.texts, dumps] using mem_dumpsStr hc
  | .arr items => by
      have hopen : c ∉ [chr '['] := notMem_of_ascii hc rfl
      have hclose : c ∉ [chr ']'] := notMem_of_ascii hc rfl
      have hsep : c ∉ lit ", " := notMem_of_ascii hc rfl
      rw [dumps, List.cons_append, ← List.singleton_append, List.mem_append, List.mem_append, or_iff_right hopen,
        or_iff_left hclose, mem_join hsep, mem_dumpsItems hc hfloat items]
      rfl
  | .obj members => by
      have hopen : c ∉ [chr '\x7b'] := notMem_of_ascii hc rfl
      have hclose : c ∉ [chr '\x7d'] := notMem_of_ascii hc rfl
      have hsep : c ∉ lit ", " := notMem_of_ascii hc rfl
      rw [dumps, List.cons_append, ← List.singleton_append, List.mem_append, List.mem_append, or_iff_right hopen,
        or_iff_left hclose, mem_join hsep, mem_dumpsMembers hc hfloat members]
      rfl

theorem mem_dumpsItems (hc : isSurrogate c = true) (hfloat : ReadsFloats lim floatRepr) : (vs : List Json) →
    ((∃ t ∈ dumpsItems floatRepr vs, c ∈ t) ↔ ∃ s ∈ itemsTexts vs, c ∈ s)
  | [] => by simp [dumpsItems, itemsTexts]
  | v :: vs => by
      rw [dumpsItems, itemsTexts]
      simp only [List.mem_cons, List.mem_append, or_and_right, exists_or, exists_eq_left]
      rw [mem_dumps hc hfloat v, mem_dumpsItems hc hfloat vs]

theorem mem_dumpsMembers (hc : isSurrogate c = true) (hfloat : ReadsFloats lim floatRepr) : (vs : Obj) →
    ((∃ t ∈ dumpsMembers floatRepr vs, c ∈ t) ↔ ∃ s ∈ membersTexts vs, c ∈ s)
  | [] => by simp [dumpsMembers, membersTexts]
  | (k, v) :: vs => by
      have hcolon : c ∉ lit ": " := notMem_of_ascii hc rfl
      rw [dumpsMembers, membersTexts]
      simp only [List.mem_cons, List.mem_append, or_and_right, exists_or, exists_eq_left]
      rw [mem_dumpsStr hc, or_iff_left hcolon, mem_dumps hc hfloat v, mem_dumpsMembers hc hfloat vs, or_assoc]

end

/-- **The text can be encoded exactly if every string of the document can.** -/
theorem encodable_dumps (hfloat : ReadsFloats lim floatRepr) (v : Json) :
    Encodable (dumps floatRepr v) ↔ ∀ s ∈ v.texts, Encodable s := by
  simp only [encodable_iff]
  constructor
  · intro h s hs c hcs
    by_contra hc
    rw [Bool.not_eq_false] at hc
    exact absurd (h c ((mem_dumps hc hfloat v).mpr ⟨s, hs, hcs⟩)) (by rw [hc]; simp)
  · intro h c hcv
    by_contra hc
    rw [Bool.not_eq_false] at hc
    obtain ⟨s, hs, hcs⟩ := (mem_dumps hc hfloat v).mp hcv
    exact absurd (h s hs c hcs) (by rw [hc]; simp)

end Document

end Py
