/-!
# Decimal numbers

Whole numbers of 64 bits written in decimal, with at most one plus sign in front.
-/
namespace Quill.Decimal

def digit? (c : Char) : Option Nat :=
  if '0' ≤ c ∧ c ≤ '9' then some (c.toNat - '0'.toNat) else none

/-- Appends digits to the number read so far. -/
def readDigits : List Char → Nat → Option Nat
  | [], n => some n
  | c :: cs, n => (digit? c).bind fun d => readDigits cs (10 * n + d)

/-- The number written by `text`; none for anything else and for numbers beyond 64 bits. -/
def read? (text : String) : Option Nat :=
  let digits :=
    match text.toList with
    | '+' :: rest => rest
    | cs => cs
  if digits.isEmpty then none
  else (readDigits digits 0).filter (· < UInt64.size)

end Quill.Decimal
