import Wikistream.Python.Str

/-!
# `Python.Utf8` — bytes that can be decoded are told by their text

The strict decoder takes no overlong form and no surrogate, so a text has one encoding, and two byte strings that
decode to one text are equal.

## Contents
- **One character** (`utf8From_two`, `utf8From_three`, `utf8From_four`): the bytes taken are those of the character.
- **The whole text** (`flatMap_utf8Char`, `utf8Decode_inj`).
-/

namespace Py

variable {b : Bytes} {s : Str}

theorem ofNat_eq {n : Nat} {x : UInt8} (h : n = x.toNat) : UInt8.ofNat n = x := by
  rw [h, UInt8.ofNat_toNat]

theorem val_ofNat {n : Nat} (h : n < 0x110000) : (Fin.ofNat 0x110000 n : Chr).val = n := Nat.mod_eq_of_lt h

/-- The bytes begin with those of a character, and the rest is decoded on its own. -/
def StartsWithChar (b : Bytes) (s : Str) : Prop :=
  ∃ c rest s', b = utf8Char c ++ rest ∧ s = c :: s' ∧ utf8From none rest = some s'

/-- A continuation byte is in range, and what follows is decoded. -/
theorem utf8From_some {owed : Owed} (h : utf8From (some owed) b = some s) :
    ∃ x rest, b = x :: rest ∧ owed.lo ≤ x.toNat ∧ x.toNat ≤ owed.hi ∧
      (match owed.more with
        | 0 => (utf8From none rest).map (Fin.ofNat _ (owed.value * 64 + x.toNat % 64) :: ·)
        | more + 1 => utf8From (some ⟨more, 0x80, 0xbf, owed.value * 64 + x.toNat % 64⟩) rest) = some s := by
  cases b with
  | nil => exact absurd h (by simp [utf8From])
  | cons x rest =>
      rw [utf8From] at h
      split at h
      · next hrange => exact ⟨x, rest, rfl, hrange.1, hrange.2, h⟩
      · exact absurd h (by simp)

/-- The last byte of a character. -/
theorem utf8From_last {owed : Owed} (hmore : owed.more = 0) (h : utf8From (some owed) b = some s) :
    ∃ x rest s', b = x :: rest ∧ owed.lo ≤ x.toNat ∧ x.toNat ≤ owed.hi ∧
      s = Fin.ofNat 0x110000 (owed.value * 64 + x.toNat % 64) :: s' ∧ utf8From none rest = some s' := by
  obtain ⟨x, rest, hb, hlo, hhi, h⟩ := utf8From_some h
  rw [hmore] at h
  obtain ⟨s', hs', rfl⟩ := Option.map_eq_some_iff.mp h
  exact ⟨x, rest, s', hb, hlo, hhi, rfl, hs'⟩

/-- A byte within a character. -/
theorem utf8From_next {owed : Owed} {more : Nat} (hmore : owed.more = more + 1) (h : utf8From (some owed) b = some s) :
    ∃ x rest, b = x :: rest ∧ owed.lo ≤ x.toNat ∧ x.toNat ≤ owed.hi ∧
      utf8From (some ⟨more, 0x80, 0xbf, owed.value * 64 + x.toNat % 64⟩) rest = some s := by
  obtain ⟨x, rest, hb, hlo, hhi, h⟩ := utf8From_some h
  rw [hmore] at h
  exact ⟨x, rest, hb, hlo, hhi, h⟩

theorem utf8From_two {a : UInt8} (hlo : 0xc2 ≤ a.toNat) (hhi : a.toNat < 0xe0)
    (h : utf8From (some ⟨0, 0x80, 0xbf, a.toNat % 32⟩) b = some s) : StartsWithChar (a :: b) s := by
  obtain ⟨x, rest, s', rfl, hx, hx', rfl, hs'⟩ := utf8From_last rfl h
  dsimp only at hx hx'
  refine ⟨_, rest, s', ?_, rfl, hs'⟩
  have hval := @val_ofNat (a.toNat % 32 * 64 + x.toNat % 64) (by omega)
  unfold utf8Char
  rw [hval, if_neg (by omega), if_pos (by omega), ofNat_eq (x := a) (by omega), ofNat_eq (x := x) (by omega)]
  rfl

theorem utf8From_three {a : UInt8} (hlo : 0xe0 ≤ a.toNat) (hhi : a.toNat < 0xf0)
    (h : utf8From (some ⟨1, if a.toNat = 0xe0 then 0xa0 else 0x80, if a.toNat = 0xed then 0x9f else 0xbf,
      a.toNat % 16⟩) b = some s) : StartsWithChar (a :: b) s := by
  obtain ⟨x, rest, rfl, hx, hx', h⟩ := utf8From_next rfl h
  obtain ⟨y, rest, s', rfl, hy, hy', rfl, hs'⟩ := utf8From_last rfl h
  dsimp only at hx hx' hy hy' ⊢
  have hlow : 0x80 ≤ x.toNat ∧ (a.toNat = 0xe0 → 0xa0 ≤ x.toNat) := by split at hx <;> omega
  have hhigh : x.toNat ≤ 0xbf := by split at hx' <;> omega
  refine ⟨_, rest, s', ?_, rfl, hs'⟩
  have hval := @val_ofNat ((a.toNat % 16 * 64 + x.toNat % 64) * 64 + y.toNat % 64) (by omega)
  unfold utf8Char
  rw [hval, if_neg (by omega), if_neg (by omega), if_pos (by omega), ofNat_eq (x := a) (by omega),
    ofNat_eq (x := x) (by omega), ofNat_eq (x := y) (by omega)]
  rfl

theorem utf8From_four {a : UInt8} (hlo : 0xf0 ≤ a.toNat) (hhi : a.toNat < 0xf5)
    (h : utf8From (some ⟨2, if a.toNat = 0xf0 then 0x90 else 0x80, if a.toNat = 0xf4 then 0x8f else 0xbf,
      a.toNat % 8⟩) b = some s) : StartsWithChar (a :: b) s := by
  obtain ⟨x, rest, rfl, hx, hx', h⟩ := utf8From_next rfl h
  obtain ⟨y, rest, rfl, hy, hy', h⟩ := utf8From_next rfl h
  obtain ⟨z, rest, s', rfl, hz, hz', rfl, hs'⟩ := utf8From_last rfl h
  dsimp only at hx hx' hy hy' hz hz' ⊢
  have hlow : 0x80 ≤ x.toNat ∧ (a.toNat = 0xf0 → 0x90 ≤ x.toNat) := by split at hx <;> omega
  have hhigh : x.toNat ≤ 0xbf ∧ (a.toNat = 0xf4 → x.toNat ≤ 0x8f) := by split at hx' <;> omega
  refine ⟨_, rest, s', ?_, rfl, hs'⟩
  have hval := @val_ofNat (((a.toNat % 8 * 64 + x.toNat % 64) * 64 + y.toNat % 64) * 64 + z.toNat % 64) (by omega)
  unfold utf8Char
  rw [hval, if_neg (by omega), if_neg (by omega), if_neg (by omega), ofNat_eq (x := a) (by omega),
    ofNat_eq (x := x) (by omega), ofNat_eq (x := y) (by omega), ofNat_eq (x := z) (by omega)]
  rfl

/-- **The first character** of bytes that are decoded. -/
theorem utf8From_cons {a : UInt8} (h : utf8From none (a :: b) = some s) : StartsWithChar (a :: b) s := by
  rw [utf8From] at h
  split at h
  · next hascii =>
      obtain ⟨s', hs', rfl⟩ := Option.map_eq_some_iff.mp h
      refine ⟨_, b, s', ?_, rfl, hs'⟩
      have hval := @val_ofNat a.toNat (by omega)
      unfold utf8Char
      rw [hval, if_pos hascii, ofNat_eq rfl]
      rfl
  · next hlead =>
      split at h
      · exact absurd h (by simp)
      · next owed howed =>
          -- the lead byte tells how many follow
          unfold lead at howed
          split at howed
          · exact absurd howed (by simp)
          · split at howed
            · obtain rfl := Option.some.inj howed
              exact utf8From_two (by omega) (by omega) h
            · split at howed
              · obtain rfl := Option.some.inj howed
                exact utf8From_three (by omega) (by omega) h
              · split at howed
                · obtain rfl := Option.some.inj howed
                  exact utf8From_four (by omega) (by omega) h
                · exact absurd howed (by simp)

/-- **Bytes are the encoding of their text.** -/
theorem flatMap_utf8Char (h : utf8From none b = some s) : s.flatMap utf8Char = b := by
  induction s generalizing b with
  | nil =>
      cases b with
      | nil => rfl
      | cons a b =>
          obtain ⟨c, rest, s', _, hs, _⟩ := utf8From_cons h
          exact absurd hs (by simp)
  | cons c s ih =>
      cases b with
      | nil => exact absurd h (by simp [utf8From])
      | cons a b =>
          obtain ⟨c', rest, s', hb, hs, hrest⟩ := utf8From_cons h
          obtain ⟨rfl, rfl⟩ := List.cons.inj hs
          rw [hb, List.flatMap_cons, ih hrest]

theorem utf8Decode_inj {b' : Bytes} (h : utf8Decode b = some s) (h' : utf8Decode b' = some s) : b = b' :=
  (flatMap_utf8Char h).symm.trans (flatMap_utf8Char h')

end Py
