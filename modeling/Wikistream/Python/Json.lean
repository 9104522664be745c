import Wikistream.Lib.Dict
import Wikistream.Python.Exc

/-!
# `Python.Json` — the `json` module

Reading goes in two passes that together do what the `json` module's C scanner does in one. `lex` turns
the text into tokens with their positions, one character at a time; `parse` runs a stack machine over
them. A text that is no token becomes a `junk` or `badStr` token: whether and with what message it fails
depends on what the parser expects there, so the first error in reading order wins, as in the scanner.

## Contents
- **Values.** `Json`, `JFloat`, `truthy`, `typeName`, `lookup`.
- **Tokens.** `feed` is the transition of the lexer on one character, `lex` its run.
- **Values from tokens.** `advance` is the transition of the parser on one token, `parse` its run.
- **`loads`.** Errors are `JSONDecodeError`, plain `ValueError` (an integer with too many digits) and
  `RecursionError`.
- **`dumps`**, with `ensure_ascii=False`.
-/

namespace Py

/-! ## Values -/

/-- A decoded float, kept as the literal it was read from: `mant * 10 ^ exp`. Nothing here reads a
    float's value except its truth and its `repr`. -/
inductive JFloat
  | nan
  | inf (neg : Bool)
  | dec (neg : Bool) (mant : Nat) (exp : Int)

/-- A decoded document. The members of an object have distinct names, in insertion order. -/
inductive Json
  | null
  | bool (b : Bool)
  | int (n : Int)
  | float (x : JFloat)
  | str (s : Str)
  | arr (items : List Json)
  | obj (members : List (Str × Json))

/-- A `dict` with string keys. -/
abbrev Obj := List (Str × Json)

/-- `d.get(key)`, `none` standing for the missing key. -/
def lookup (d : Obj) (key : Str) : Option Json := (d.find? (fun m => m.1 = key)).map Prod.snd

theorem mem_of_lookup {d : Obj} {k : Str} {v : Json} (h : lookup d k = some v) : (k, v) ∈ d := by
  obtain ⟨m, hm, rfl⟩ := Option.map_eq_some_iff.mp h
  have hk : m.1 = k := by simpa using List.find?_some hm
  rw [← hk]
  exact List.mem_of_find?_eq_some hm

/-- Does the literal round to zero? Half of the least positive double, `2 ^ -1075`, still does. -/
def JFloat.isZero : JFloat → Bool
  | .nan | .inf _ => false
  | .dec _ mant exp =>
      mant = 0 || (exp < 0 && mant * 2 ^ 1075 ≤ 10 ^ (-exp).toNat)

/-- `bool(v)`. -/
def Json.truthy : Json → Bool
  | .null => false
  | .bool b => b
  | .int n => n ≠ 0
  | .float x => !x.isZero
  | .str s => !s.isEmpty
  | .arr items => !items.isEmpty
  | .obj members => !members.isEmpty

/-- `type(v).__name__`. -/
def Json.typeName : Json → Str
  | .null => lit "NoneType"
  | .bool _ => lit "bool"
  | .int _ => lit "int"
  | .float _ => lit "float"
  | .str _ => lit "str"
  | .arr _ => lit "list"
  | .obj _ => lit "dict"

/-! ## Tokens -/

/-- A token of the text. `badStr` is a string literal that raises with this message and position, `junk`
    a character that starts no token, `hugeInt` an integer with more digits than `int()` converts. -/
inductive Tok
  | lbrace
  | rbrace
  | lbracket
  | rbracket
  | comma
  | colon
  | str (s : Str)
  | const (v : Json)
  | hugeInt
  | badStr (message : Str) (pos : Nat)
  | junk
  | eof

/-- A number read so far. -/
structure Num where
  start : Nat
  neg : Bool
  mant : Nat := 0
  /-- Digits before the point. -/
  digits : Nat := 0
  /-- Digits after the point. -/
  scale : Nat := 0
  expNeg : Bool := false
  exp : Nat := 0

/-- Where the lexer stands. -/
inductive LexState
  /-- Between tokens. -/
  | blank
  /-- In a string that opened at `start`, `acc` read in reverse. `esc` is the position of the `u` when the
      last thing read was a `\u` escape. -/
  | str (start : Nat) (acc : Str) (esc : Option Nat)
  /-- After a backslash. -/
  | escape (start : Nat) (acc : Str) (esc : Option Nat)
  /-- In a `\u` escape, `need` digits to go. -/
  | hex (start : Nat) (acc : Str) (esc : Option Nat) (u need value : Nat)
  /-- In a word that stands for `v`, `rest` still to come. -/
  | word (start : Nat) (rest : Str) (v : Json)
  /-- After the minus sign of a number. -/
  | minus (start : Nat)
  /-- After a leading zero: no further digit belongs to the number. -/
  | zero (n : Num)
  | int (n : Num)
  /-- After the decimal point. -/
  | point (n : Num)
  | frac (n : Num)
  /-- After the `e` at position `e`; `float` says whether a fraction came before. -/
  | expMark (n : Num) (float : Bool) (e : Nat)
  | expSign (n : Num) (float : Bool) (e : Nat)
  | exp (n : Num)

def digit? (c : Chr) : Option Nat :=
  if 0x30 ≤ c.val ∧ c.val ≤ 0x39 then some (c.val - 0x30) else none

def hexDigit? (c : Chr) : Option Nat :=
  if 0x30 ≤ c.val ∧ c.val ≤ 0x39 then some (c.val - 0x30)
  else if 0x61 ≤ c.val ∧ c.val ≤ 0x66 then some (c.val - 0x57)
  else if 0x41 ≤ c.val ∧ c.val ≤ 0x46 then some (c.val - 0x37)
  else none

/-- What a one-letter escape stands for. -/
def unescape (c : Chr) : Option Chr :=
  if c = chr '"' ∨ c = chr '\\' ∨ c = chr '/' then some c
  else if c = chr 'b' then some 0x08
  else if c = chr 'f' then some 0x0c
  else if c = chr 'n' then some 0x0a
  else if c = chr 'r' then some 0x0d
  else if c = chr 't' then some 0x09
  else none

def isHigh (c : Chr) : Bool := 0xd800 ≤ c.val && c.val ≤ 0xdbff

def isLow (c : Chr) : Bool := 0xdc00 ≤ c.val && c.val ≤ 0xdfff

/-- Put the character of a finished `\u` escape, joining it with an escaped high surrogate right before. -/
def pushUnit (acc : Str) (esc : Option Nat) (c : Chr) : Str :=
  match acc, esc with
  | h :: rest, some _ =>
      if isHigh h && isLow c then
        Fin.ofNat _ (0x10000 + ((h.val - 0xd800) * 1024 + (c.val - 0xdc00))) :: rest
      else c :: acc
  | _, _ => c :: acc

/-- `int()` of the digits, given the limit on their number (0: no limit). -/
def Num.int (maxStrDigits : Nat) (n : Num) : Tok :=
  if maxStrDigits ≠ 0 ∧ maxStrDigits < n.digits then .hugeInt
  else .const (.int (if n.neg then -(n.mant : Int) else n.mant))

def Num.float (n : Num) : Tok :=
  .const (.float (.dec n.neg n.mant ((if n.expNeg then -(n.exp : Int) else n.exp) - n.scale)))

def Num.push (n : Num) (d : Nat) : Num := { n with mant := n.mant * 10 + d }

/-- The tokens one character completes, and the state after it; no state where the text cannot go on. -/
abbrev Fed := List (Tok × Nat) × Option LexState

/-- A character between tokens. -/
def feedBlank (pos : Nat) (c : Chr) : Fed :=
  if c = chr ' ' ∨ c = chr '\t' ∨ c = chr '\n' ∨ c = chr '\r' then ([], some .blank)
  else if c = chr '{' then ([(.lbrace, pos)], some .blank)
  else if c = chr '}' then ([(.rbrace, pos)], some .blank)
  else if c = chr '[' then ([(.lbracket, pos)], some .blank)
  else if c = chr ']' then ([(.rbracket, pos)], some .blank)
  else if c = chr ',' then ([(.comma, pos)], some .blank)
  else if c = chr ':' then ([(.colon, pos)], some .blank)
  else if c = chr '"' then ([], some (.str pos [] none))
  else if c = chr 'n' then ([], some (.word pos (lit "ull") .null))
  else if c = chr 't' then ([], some (.word pos (lit "rue") (.bool true)))
  else if c = chr 'f' then ([], some (.word pos (lit "alse") (.bool false)))
  else if c = chr 'N' then ([], some (.word pos (lit "aN") (.float .nan)))
  else if c = chr 'I' then ([], some (.word pos (lit "nfinity") (.float (.inf false))))
  else if c = chr '-' then ([], some (.minus pos))
  else
    match digit? c with
    | some 0 => ([], some (.zero { start := pos, neg := false, digits := 1 }))
    | some d => ([], some (.int { start := pos, neg := false, mant := d, digits := 1 }))
    | none => ([(.junk, pos)], none)

/-- A number is complete before the character at `pos`. -/
def feedAfter (tok : Tok) (start pos : Nat) (c : Chr) : Fed :=
  ((tok, start) :: (feedBlank pos c).1, (feedBlank pos c).2)

/-- A character in a string. -/
def feedStr (start : Nat) (acc : Str) (esc : Option Nat) (pos : Nat) (c : Chr) : Fed :=
  if c = chr '"' then ([(.str acc.reverse, start)], some .blank)
  else if c = chr '\\' then ([], some (.escape start acc esc))
  else if c.val ≤ 0x1f then ([(.badStr (lit "Invalid control character at") pos, start)], none)
  else ([], some (.str start (c :: acc) none))

/-- The character after a backslash. -/
def feedEscape (start : Nat) (acc : Str) (esc : Option Nat) (pos : Nat) (c : Chr) : Fed :=
  if c = chr 'u' then ([], some (.hex start acc esc pos 4 0))
  else
    match unescape c with
    | some d => ([], some (.str start (d :: acc) none))
    | none => ([(.badStr (lit "Invalid \\escape") (pos - 1), start)], none)

/-- A character of a `\u` escape. -/
def feedHex (start : Nat) (acc : Str) (esc : Option Nat) (u need value : Nat) (c : Chr) : Fed :=
  match hexDigit? c with
  | none => ([(.badStr (lit "Invalid \\uXXXX escape") u, start)], none)
  | some d =>
      if need ≤ 1 then ([], some (.str start (pushUnit acc esc (Fin.ofNat _ (value * 16 + d))) (some u)))
      else ([], some (.hex start acc esc u (need - 1) (value * 16 + d)))

/-- The lexer's transition on one character. -/
def feed (maxStrDigits : Nat) : LexState → Nat → Chr → Fed
  | .blank, pos, c => feedBlank pos c
  | .str start acc esc, pos, c => feedStr start acc esc pos c
  | .escape start acc esc, pos, c => feedEscape start acc esc pos c
  | .hex start acc esc u need value, _, c => feedHex start acc esc u need value c
  | .word start rest v, _, c =>
      match rest with
      | [] => ([(.junk, start)], none)
      | [r] => if c = r then ([(.const v, start)], some .blank) else ([(.junk, start)], none)
      | r :: rest => if c = r then ([], some (.word start rest v)) else ([(.junk, start)], none)
  | .minus start, _, c =>
      if c = chr 'I' then ([], some (.word start (lit "nfinity") (.float (.inf true))))
      else
        match digit? c with
        | some 0 => ([], some (.zero { start, neg := true, digits := 1 }))
        | some d => ([], some (.int { start, neg := true, mant := d, digits := 1 }))
        | none => ([(.junk, start)], none)
  | .zero n, pos, c =>
      if c = chr '.' then ([], some (.point n))
      else if c = chr 'e' ∨ c = chr 'E' then ([], some (.expMark n false pos))
      else feedAfter (n.int maxStrDigits) n.start pos c
  | .int n, pos, c =>
      if c = chr '.' then ([], some (.point n))
      else if c = chr 'e' ∨ c = chr 'E' then ([], some (.expMark n false pos))
      else
        match digit? c with
        | some d => ([], some (.int { n.push d with digits := n.digits + 1 }))
        | none => feedAfter (n.int maxStrDigits) n.start pos c
  | .point n, pos, c =>
      match digit? c with
      | some d => ([], some (.frac { n.push d with scale := 1 }))
      -- the number ends before the point
      | none => ([(n.int maxStrDigits, n.start), (.junk, pos - 1)], none)
  | .frac n, pos, c =>
      if c = chr 'e' ∨ c = chr 'E' then ([], some (.expMark n true pos))
      else
        match digit? c with
        | some d => ([], some (.frac { n.push d with scale := n.scale + 1 }))
        | none => feedAfter n.float n.start pos c
  | .expMark n float e, _, c =>
      if c = chr '+' then ([], some (.expSign n float e))
      else if c = chr '-' then ([], some (.expSign { n with expNeg := true } float e))
      else
        match digit? c with
        | some d => ([], some (.exp { n with exp := d }))
        -- the number ends before the `e`
        | none => ([(if float then n.float else n.int maxStrDigits, n.start), (.junk, e)], none)
  | .expSign n float e, _, c =>
      match digit? c with
      | some d => ([], some (.exp { n with exp := d }))
      | none => ([(if float then n.float else n.int maxStrDigits, n.start), (.junk, e)], none)
  | .exp n, pos, c =>
      match digit? c with
      | some d => ([], some (.exp { n with exp := n.exp * 10 + d }))
      | none => feedAfter n.float n.start pos c

/-- The tokens the end of the text at `pos` completes. -/
def finish (maxStrDigits : Nat) (pos : Nat) : LexState → List (Tok × Nat)
  | .blank => [(.eof, pos)]
  | .str start _ none | .escape start _ _ =>
      [(.badStr (lit "Unterminated string starting at") start, start)]
  | .str start _ (some u) | .hex start _ _ u _ _ => [(.badStr (lit "Invalid \\uXXXX escape") u, start)]
  | .word start _ _ | .minus start => [(.junk, start)]
  | .zero n | .int n => [(n.int maxStrDigits, n.start), (.eof, pos)]
  | .point n => [(n.int maxStrDigits, n.start), (.junk, pos - 1)]
  | .frac n | .exp n => [(n.float, n.start), (.eof, pos)]
  | .expMark n float e | .expSign n float e =>
      [(if float then n.float else n.int maxStrDigits, n.start), (.junk, e)]

/-- The tokens of the rest of the text, which begins at `pos`. -/
def lex (maxStrDigits : Nat) : LexState → Nat → Str → List (Tok × Nat)
  | st, pos, [] => finish maxStrDigits pos st
  | st, pos, c :: s =>
      match feed maxStrDigits st pos c with
      | (out, none) => out
      | (out, some st) => out ++ lex maxStrDigits st (pos + 1) s

/-! ## Values from tokens -/

/-- An open array (its items in reverse) or an open object waiting for the value of `key`. -/
inductive Frame
  | arr (items : List Json)
  | obj (members : Obj) (key : Str)

/-- What the parser expects next. -/
inductive Mode
  | value
  /-- After `[`. -/
  | firstItem
  /-- After `{`. -/
  | firstKey
  /-- After `,` in an object. -/
  | key (members : Obj)
  | colon (members : Obj) (key : Str)
  /-- `v` is complete. -/
  | after (v : Json)

/-- Why a document is refused. -/
inductive JsonErr
  | decode (message : Str) (pos : Nat)
  | intDigits
  | depth

/-- A finished document, or the parser's next mode and stack. -/
inductive Parsed
  | done (v : Json)
  | more (mode : Mode) (stack : List Frame)

def expecting (what : String) (pos : Nat) : Except JsonErr Parsed := .error (.decode (lit what) pos)

/-- The token at `pos` where a value must begin. `maxDepth` containers may be open at once. -/
def scanOnce (maxDepth : Nat) (stack : List Frame) (tok : Tok) (pos : Nat) : Except JsonErr Parsed :=
  match tok with
  | .lbrace => if stack.length < maxDepth then .ok (.more .firstKey stack) else .error .depth
  | .lbracket => if stack.length < maxDepth then .ok (.more .firstItem stack) else .error .depth
  | .str s => .ok (.more (.after (.str s)) stack)
  | .const v => .ok (.more (.after v) stack)
  | .hugeInt => .error .intDigits
  | .badStr message p => .error (.decode message p)
  | _ => expecting "Expecting value" pos

/-- The token at `pos` where a member name must begin. -/
def scanKey (members : Obj) (stack : List Frame) (tok : Tok) (pos : Nat) : Except JsonErr Parsed :=
  match tok with
  | .str k => .ok (.more (.colon members k) stack)
  | .badStr message p => .error (.decode message p)
  | _ => expecting "Expecting property name enclosed in double quotes" pos

/-- The parser's transition on one token. -/
def advance (maxDepth : Nat) : Mode → List Frame → Tok → Nat → Except JsonErr Parsed
  | .value, stack, tok, pos => scanOnce maxDepth stack tok pos
  | .firstItem, stack, .rbracket, _ => .ok (.more (.after (.arr [])) stack)
  | .firstItem, stack, tok, pos => scanOnce maxDepth (.arr [] :: stack) tok pos
  | .firstKey, stack, .rbrace, _ => .ok (.more (.after (.obj [])) stack)
  | .firstKey, stack, tok, pos => scanKey [] stack tok pos
  | .key members, stack, tok, pos => scanKey members stack tok pos
  | .colon members k, stack, .colon, _ => .ok (.more .value (.obj members k :: stack))
  | .colon _ _, _, _, pos => expecting "Expecting ':' delimiter" pos
  | .after v, [], .eof, _ => .ok (.done v)
  | .after _, [], _, pos => expecting "Extra data" pos
  | .after v, .arr items :: stack, .comma, _ => .ok (.more .value (.arr (v :: items) :: stack))
  | .after v, .arr items :: stack, .rbracket, _ =>
      .ok (.more (.after (.arr (v :: items).reverse)) stack)
  | .after v, .obj members k :: stack, .comma, _ => .ok (.more (.key (Lib.upsert k v members)) stack)
  | .after v, .obj members k :: stack, .rbrace, _ =>
      .ok (.more (.after (.obj (Lib.upsert k v members))) stack)
  | .after _, _ :: _, _, pos => expecting "Expecting ',' delimiter" pos

/-- The document the tokens spell. -/
def parse (maxDepth : Nat) : Mode → List Frame → List (Tok × Nat) → Except JsonErr Json
  | _, _, [] => .error (.decode (lit "Expecting value") 0)
  | mode, stack, (tok, pos) :: toks =>
      match advance maxDepth mode stack tok pos with
      | .error e => .error e
      | .ok (.done v) => .ok v
      | .ok (.more mode stack) => parse maxDepth mode stack toks

/-! ## `loads` -/

/-- The limits of the interpreter that `json.loads` runs into: the digits `int()` converts
    (`sys.set_int_max_str_digits`, 0 for no limit) and the containers it can nest before
    `RecursionError`. -/
structure JsonLimits where
  maxStrDigits : Nat
  maxDepth : Nat

/-- `str(JSONDecodeError(message, doc, pos))`. -/
def decodeErrorText (message doc : Str) (pos : Nat) : Str :=
  let before := doc.take pos
  let line := before.count (chr '\n') + 1
  let column := (before.reverse.takeWhile (· ≠ chr '\n')).length + 1
  message ++ lit s!": line {line} column {column} (char {pos})"

/-- `json.loads(s)` for a `str`. -/
def loads (limits : JsonLimits) (s : Str) : Except Exc Json :=
  if s.head? = some 0xfeff then
    .error (.jsonDecodeError (decodeErrorText (lit "Unexpected UTF-8 BOM (decode using utf-8-sig)") s 0))
  else
    match parse limits.maxDepth .value [] (lex limits.maxStrDigits .blank 0 s) with
    | .ok v => .ok v
    | .error (.decode message pos) => .error (.jsonDecodeError (decodeErrorText message s pos))
    | .error .intDigits => .error .valueError
    | .error .depth => .error .recursionError

/-! ## `dumps` -/

/-- A hexadecimal digit of `json`'s escapes. -/
def hexChr (n : Nat) : Chr := Fin.ofNat _ (if n < 10 then 0x30 + n else 0x57 + n)

/-- One character inside a string literal, with `ensure_ascii=False`. -/
def escaped (c : Chr) : Str :=
  if c = chr '"' then [chr '\\', chr '"']
  else if c = chr '\\' then [chr '\\', chr '\\']
  else if c = 0x0a then [chr '\\', chr 'n']
  else if c = 0x0d then [chr '\\', chr 'r']
  else if c = 0x09 then [chr '\\', chr 't']
  else if c = 0x0c then [chr '\\', chr 'f']
  else if c = 0x08 then [chr '\\', chr 'b']
  else if c.val < 0x20 then
    [chr '\\', chr 'u', chr '0', chr '0', hexChr (c.val / 16), hexChr (c.val % 16)]
  else [c]

def dumpsStr (s : Str) : Str := chr '"' :: s.flatMap escaped ++ [chr '"']

mutual

/-- `json.dumps(v, ensure_ascii=False)`. `floatRepr` is what it writes for a float literal: `float.__repr__`,
    or the word for the infinity that the literal rounds to. -/
def dumps (floatRepr : JFloat → Str) : Json → Str
  | .null => lit "null"
  | .bool true => lit "true"
  | .bool false => lit "false"
  | .int n => lit (toString n)
  | .float .nan => lit "NaN"
  | .float (.inf false) => lit "Infinity"
  | .float (.inf true) => lit "-Infinity"
  | .float x => floatRepr x
  | .str s => dumpsStr s
  | .arr items => chr '[' :: join (lit ", ") (dumpsItems floatRepr items) ++ [chr ']']
  | .obj members => chr '{' :: join (lit ", ") (dumpsMembers floatRepr members) ++ [chr '}']

def dumpsItems (floatRepr : JFloat → Str) : List Json → List Str
  | [] => []
  | v :: items => dumps floatRepr v :: dumpsItems floatRepr items

def dumpsMembers (floatRepr : JFloat → Str) : List (Str × Json) → List Str
  | [] => []
  | (k, v) :: members => (dumpsStr k ++ lit ": " ++ dumps floatRepr v) :: dumpsMembers floatRepr members

end

end Py
