import WordMachine.Text.Decimal

/-!
# `Locale` — number formats of the message languages

A language decides how digits are grouped, how decimal places are set off, and what stands between a
number and a power of ten.

Contents: `Locale`, the formats of English, German and French, `Locale.integer` and `Locale.fixed`.
-/

namespace WordMachine

/-- The number format of a language: what stands between groups of three digits, before decimal
places, and before a power of ten. -/
structure Locale where
  group : Bytes
  point : Bytes
  times : Bytes
  deriving DecidableEq, Repr

namespace Locale

/-- English: `1,234.5`, and the format of every language without one of its own. -/
def english : Locale := ⟨bytes ",", bytes ".", bytes "×"⟩

/-- German: `1.234,5`. -/
def german : Locale := ⟨bytes ".", bytes ",", bytes "·"⟩

/-- French: no-break spaces between groups and a decimal comma. -/
def french : Locale := ⟨[0xc2, 0xa0], bytes ",", bytes "×"⟩

/-- Digits with a separator before each full group of three from the right. -/
def groupDigits (separator : Bytes) : Bytes → Bytes
  | [] => []
  | c :: rest =>
      if rest.length % 3 = 0 ∧ rest ≠ [] then c :: separator ++ groupDigits separator rest
      else c :: groupDigits separator rest

/-- An integer with grouped digits. -/
def integer (loc : Locale) (n : Int) : Bytes :=
  (if n < 0 then bytes "-" else []) ++ groupDigits loc.group (Numeral.decimal n.natAbs)

/-- A double with grouped digits and a fixed number of places. Zero has no sign; a number that is
rounded to zero keeps it. -/
def fixed (loc : Locale) (places : Nat) (w : UInt64) : Bytes :=
  let (whole, part) := Double.fixed w places
  (if Double.isNegative w && !Double.isZero w then bytes "-" else []) ++ groupDigits loc.group whole
    ++ (if part.isEmpty then [] else loc.point ++ part)

end Locale

end WordMachine
