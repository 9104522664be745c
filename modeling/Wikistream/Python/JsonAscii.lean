import Wikistream.Python.JsonRoundTrip

/-!
# `Python.JsonAscii` — `json.dumps` with its default `ensure_ascii`

Every character outside the printable part of ASCII is written as an escape, a character above U+FFFF as the two
surrogates UTF-16 has for it. The reader joins such a pair again, so a text without surrogates of its own comes back.

## Contents
- **Writing** (`escapedAscii`, `dumpsStrAscii`), which stays in ASCII (`dumpsStrAscii_ascii`).
- **Reading** (`lex_dumpsStrAscii`).
-/

namespace Py

/-- The `\u` escape of a UTF-16 code unit. -/
def unicodeEscape (u : Nat) : Str :=
  [chr '\\', chr 'u', hexChr (u / 4096), hexChr (u / 256 % 16), hexChr (u / 16 % 16), hexChr (u % 16)]

/-- One character inside a string literal, with `ensure_ascii=True`. -/
def escapedAscii (c : Chr) : Str :=
  if c.val < 0x7f then escaped c
  else if c.val < 0x10000 then unicodeEscape c.val
  else unicodeEscape (0xd800 + (c.val - 0x10000) / 1024) ++ unicodeEscape (0xdc00 + (c.val - 0x10000) % 1024)

def dumpsStrAscii (s : Str) : Str := chr '"' :: s.flatMap escapedAscii ++ [chr '"']

/-! ## Reading -/

variable {lim start pos : Nat} {acc : Str} {esc : Option Nat}

/-- A `\u` escape puts its code unit. -/
theorem lex_unicodeEscape {u : Nat} (hu : u < 0x10000) (rest : Str) :
    lex lim (.str start acc esc) pos (unicodeEscape u ++ rest) =
      lex lim (.str start (pushUnit acc esc (Fin.ofNat _ u)) (some (pos + 1))) (pos + 6) rest := by
  have hvalue : ((0 * 16 + u / 4096) * 16 + u / 256 % 16) * 16 + u / 16 % 16 = u / 16 := by omega
  have hdigit : ∀ {need value d p : Nat} (_ : d < 16) (_ : 1 < need),
      feed lim (.hex start acc esc (pos + 1) need value) p
      (hexChr d) = ([], some (.hex start acc esc (pos + 1) (need - 1) (value * 16 + d))) := by
    intro need value d p hd hneed
    show feedHex _ _ _ _ _ _ _ = _
    rw [feedHex, hexDigit?_hexChr hd]
    exact if_neg (by omega)
  show lex lim _ pos (chr '\\' :: chr 'u' :: hexChr (u / 4096) :: hexChr (u / 256 % 16) :: hexChr (u / 16 % 16) ::
    hexChr (u % 16) :: rest) = _
  rw [lex_cons (.escape start acc esc) [] rfl, lex_cons (.hex start acc esc (pos + 1) 4 0) [] rfl,
    lex_cons _ [] (hdigit (by omega) (by decide)), lex_cons _ [] (hdigit (by omega) (by decide)),
    lex_cons _ [] (hdigit (by omega) (by decide)),
    lex_cons (.str start (pushUnit acc esc (Fin.ofNat _ u)) (some (pos + 1))) []]
  · rfl
  · show feedHex _ _ _ _ _ _ _ = _
    rw [feedHex, hexDigit?_hexChr (Nat.mod_lt _ (by decide)), hvalue]
    dsimp only
    rw [if_pos (le_refl _), Nat.div_add_mod']

/-- A code unit that is no low surrogate joins nothing. -/
theorem pushUnit_of_not_low {c : Chr} (h : isLow c = false) : pushUnit acc esc c = c :: acc := by
  unfold pushUnit
  split
  · rw [h, Bool.and_false, if_neg (by simp)]
  · rfl

variable (lim start acc esc pos) in
theorem lex_escapedAscii {c : Chr} (hc : isSurrogate c = false) (rest : Str) :
    ∃ esc' pos', lex lim (.str start acc esc) pos (escapedAscii c ++ rest) =
      lex lim (.str start (c :: acc) esc') pos' rest := by
  have hlt : c.val < 0x110000 := c.isLt
  have hself : (Fin.ofNat 0x110000 c.val : Chr) = c := Fin.ofNat_val_eq_self c
  unfold escapedAscii
  split
  · exact lex_escaped lim start acc esc pos c rest
  · split
    · next hbmp =>
        have hlow : isLow c = false := by
          rw [isSurrogate, Bool.and_eq_false_iff] at hc
          rw [isLow, Bool.and_eq_false_iff]
          rcases hc with hc | hc
          · refine Or.inl ?_
            simp only [decide_eq_false_iff_not] at hc ⊢
            omega
          · exact Or.inr hc
        refine ⟨some (pos + 1), pos + 6, ?_⟩
        rw [lex_unicodeEscape hbmp, hself, pushUnit_of_not_low hlow]
    · next hge =>
        -- a pair of surrogates, which the reader joins
        have hunit : c.val - 0x10000 < 0x100000 := by omega
        have hhigh : (Fin.ofNat 0x110000 (0xd800 + (c.val - 0x10000) / 1024) : Chr).val =
            0xd800 + (c.val - 0x10000) / 1024 := Nat.mod_eq_of_lt (by omega)
        have hlow : (Fin.ofNat 0x110000 (0xdc00 + (c.val - 0x10000) % 1024) : Chr).val =
            0xdc00 + (c.val - 0x10000) % 1024 := Nat.mod_eq_of_lt (by omega)
        have hnot : isLow (Fin.ofNat 0x110000 (0xd800 + (c.val - 0x10000) / 1024)) = false := by
          rw [isLow, hhigh, Bool.and_eq_false_iff]
          refine Or.inl ?_
          simp only [decide_eq_false_iff_not]
          omega
        have hjoin : pushUnit (Fin.ofNat 0x110000 (0xd800 + (c.val - 0x10000) / 1024) :: acc) (some (pos + 1))
            (Fin.ofNat 0x110000 (0xdc00 + (c.val - 0x10000) % 1024)) = c :: acc := by
          have hboth : (isHigh (Fin.ofNat 0x110000 (0xd800 + (c.val - 0x10000) / 1024)) &&
              isLow (Fin.ofNat 0x110000 (0xdc00 + (c.val - 0x10000) % 1024))) = true := by
            rw [isHigh, isLow, hhigh, hlow]
            simp only [Bool.and_eq_true, decide_eq_true_eq]
            omega
          have hval : 0x10000 + ((0xd800 + (c.val - 0x10000) / 1024 - 0xd800) * 1024 +
              (0xdc00 + (c.val - 0x10000) % 1024 - 0xdc00)) = c.val := by omega
          unfold pushUnit
          dsimp only
          rw [if_pos hboth, hhigh, hlow, hval, hself]
        refine ⟨some (pos + 6 + 1), pos + 6 + 6, ?_⟩
        rw [List.append_assoc, lex_unicodeEscape (by omega), pushUnit_of_not_low hnot, lex_unicodeEscape (by omega),
          hjoin]

variable (lim start acc esc pos) in
theorem lex_strAscii {s : Str} (hs : Encodable s) (rest : Str) :
    ∃ pos', lex lim (.str start acc esc) pos (s.flatMap escapedAscii ++ chr '"' :: rest) =
      (.str (acc.reverse ++ s), start) :: lex lim .blank pos' rest := by
  induction s generalizing acc esc pos with
  | nil =>
      refine ⟨pos + 1, ?_⟩
      rw [List.append_nil]
      exact lex_cons _ [(.str acc.reverse, start)] rfl rest
  | cons c s ih =>
      rw [encodable_iff] at hs
      obtain ⟨esc', pos', hc⟩ := lex_escapedAscii lim start pos acc esc (hs c List.mem_cons_self)
        (s.flatMap escapedAscii ++ chr '"' :: rest)
      have htailOk := encodable_iff.mpr (fun d hd => hs d (List.mem_cons_of_mem _ hd))
      obtain ⟨pos'', htail⟩ := ih pos' (c :: acc) esc' htailOk
      refine ⟨pos'', ?_⟩
      rw [List.flatMap_cons, List.append_assoc, hc, htail, List.reverse_cons, List.append_assoc]
      rfl

variable (lim pos) in
/-- **A written string without surrogates is read as itself.** -/
theorem lex_dumpsStrAscii {s : Str} (hs : Encodable s) (rest : Str) :
    ∃ pos', lex lim .blank pos (dumpsStrAscii s ++ rest) = (.str s, pos) :: lex lim .blank pos' rest := by
  obtain ⟨pos', h⟩ := lex_strAscii lim pos (pos + 1) [] none hs rest
  refine ⟨pos', ?_⟩
  unfold dumpsStrAscii
  show lex lim .blank pos (chr '"' :: ((s.flatMap escapedAscii ++ [chr '"']) ++ rest)) = _
  rw [lex_cons (.str pos [] none) [] rfl, List.append_assoc]
  exact h

/-- The parser goes on where a token takes it. -/
theorem parse_more {maxDepth pos : Nat} {mode m : Mode} {stack k : List Frame} {tok : Tok} {toks : List (Tok × Nat)}
    (h : advance maxDepth mode stack tok pos = .ok (.more m k)) :
    parse maxDepth mode stack ((tok, pos) :: toks) = parse maxDepth m k toks := by
  rw [parse, h]

/-! ## What is written is ASCII -/

/-- Printable ASCII. -/
def IsAscii (s : Str) : Prop := ∀ c ∈ s, 0x20 ≤ c.val ∧ c.val < 0x7f

instance (s : Str) : Decidable (IsAscii s) := List.decidableBAll (fun c : Chr => 0x20 ≤ c.val ∧ c.val < 0x7f) s

theorem IsAscii.append {s t : Str} (hs : IsAscii s) (ht : IsAscii t) : IsAscii (s ++ t) :=
  fun c hc => (List.mem_append.mp hc).elim (hs c) (ht c)

theorem IsAscii.encodable {s : Str} (h : IsAscii s) : Encodable s := by
  refine encodable_iff.mpr (fun c hc => ?_)
  obtain ⟨_, hlt⟩ := h c hc
  rw [isSurrogate, Bool.and_eq_false_iff]
  refine Or.inl ?_
  simp only [decide_eq_false_iff_not]
  omega

theorem hexChr_ascii {d : Nat} (h : d < 16) : 0x20 ≤ (hexChr d).val ∧ (hexChr d).val < 0x7f := by
  interval_cases d <;> decide

theorem unicodeEscape_ascii {u : Nat} (hu : u < 0x10000) : IsAscii (unicodeEscape u) := by
  intro c hc
  simp only [unicodeEscape, List.mem_cons, List.not_mem_nil, or_false] at hc
  rcases hc with rfl | rfl | rfl | rfl | rfl | rfl
  · decide
  · decide
  · exact hexChr_ascii (by omega)
  · exact hexChr_ascii (by omega)
  · exact hexChr_ascii (by omega)
  · exact hexChr_ascii (by omega)

theorem escapedAscii_ascii (c : Chr) : IsAscii (escapedAscii c) := by
  have hlt : c.val < 0x110000 := c.isLt
  unfold escapedAscii
  split
  · next hascii =>
      have hall : ∀ n < 0x7f, IsAscii (escaped (Fin.ofNat _ n)) := by decide +kernel
      have hself : (Fin.ofNat 0x110000 c.val : Chr) = c := Fin.ofNat_val_eq_self c
      rw [← hself]
      exact hall c.val hascii
  · split
    · next hbmp => exact unicodeEscape_ascii hbmp
    · exact (unicodeEscape_ascii (by omega)).append (unicodeEscape_ascii (by omega))

theorem dumpsStrAscii_ascii (s : Str) : IsAscii (dumpsStrAscii s) := by
  have hquote : IsAscii [chr '"'] := by decide
  have hall : IsAscii (s.flatMap escapedAscii) := by
    intro c hc
    obtain ⟨d, _, hd⟩ := List.mem_flatMap.mp hc
    exact escapedAscii_ascii d c hd
  exact (hquote.append hall).append hquote

theorem isAscii_int (n : Int) : IsAscii (lit (toString n)) := by
  have hdigits : ∀ m : Nat, IsAscii (digitsText m) := by
    intro m c hc
    obtain ⟨e, he, rfl⟩ := List.mem_map.mp hc
    have hdigit := Nat.isDigit_of_mem_toDigits (by decide) (by decide) he
    simp only [Char.isDigit, Bool.and_eq_true, decide_eq_true_eq] at hdigit
    have hlo : 48 ≤ e.toNat := hdigit.1
    have hhi : e.toNat ≤ 57 := hdigit.2
    rw [Fin.val_ofNat]
    omega
  rw [lit_toString_int]
  split
  · exact hdigits _
  · exact IsAscii.append (s := [chr '-']) (by decide) (hdigits _)

end Py
