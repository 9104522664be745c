import Wikistream.Python.Str

/-!
# `Python.Exc` — the exceptions the program can meet

Only what the program reads of an exception is kept: its class, and the text of those whose `str()` ends
up in a record.
-/

namespace Py

/-- A raised exception. `parseError` and `jsonDecodeError` are subclasses of `ValueError`. -/
inductive Exc
  | parseError (message : Str)
  | jsonDecodeError (message : Str)
  | typeError (message : Str)
  | valueError
  | attributeError
  | indexError
  | keyError
  | overflowError
  | osError
  | recursionError
  | unicodeEncodeError
  | kafkaException
  deriving DecidableEq

namespace Exc

/-- Is `e` caught by `except ParseError`? -/
def isParseError : Exc → Bool
  | .parseError _ => true
  | _ => false

/-- Is `e` caught by `except ValueError`? -/
def isValueError : Exc → Bool
  | .parseError _ | .jsonDecodeError _ | .valueError | .unicodeEncodeError => true
  | _ => false

/-- Is `e` caught by `except (ValueError, TypeError)`? -/
def isValueOrTypeError : Exc → Bool
  | .typeError _ => true
  | e => e.isValueError

end Exc

instance {α : Type} [DecidableEq α] : DecidableEq (Except Exc α) := fun a b =>
  match a, b with
  | .ok x, .ok y => decidable_of_iff (x = y) (by simp)
  | .error x, .error y => decidable_of_iff (x = y) (by simp)
  | .ok _, .error _ => isFalse (by simp)
  | .error _, .ok _ => isFalse (by simp)

theorem toOption_eq_some {ε α : Type} {x : Except ε α} {a : α} : x.toOption = some a ↔ x = .ok a := by
  cases x <;> simp [Except.toOption]

/-- A sequence returns when both of its parts do. -/
theorem bind_eq_ok {α β : Type} {x : Except Exc α} {f : α → Except Exc β} {b : β} :
    x >>= f = .ok b ↔ ∃ a, x = .ok a ∧ f a = .ok b := by
  cases x with
  | error e =>
      change (Except.error e : Except Exc β) = .ok b ↔ _
      simp
  | ok a =>
      change f a = .ok b ↔ _
      simp

theorem map_eq_ok {α β : Type} {x : Except Exc α} {f : α → β} {b : β} :
    x.map f = .ok b ↔ ∃ a, x = .ok a ∧ f a = b := by
  cases x with
  | error e =>
      change (Except.error e : Except Exc β) = .ok b ↔ _
      simp
  | ok a =>
      change Except.ok (f a) = .ok b ↔ _
      simp

end Py
