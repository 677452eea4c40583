import WordMachine.Text.Blank
import WordMachine.Text.Numeral
import WordMachine.Text.Printable

/-!
# `Text.Quoted` — text in quotes, for messages

Printable characters stand for themselves; quotes and backslashes are escaped, and all else is written
as an escape of letters or hexadecimal digits.

Contents: `Quoted.unit`, `Quoted.encode`, `Quoted.encodeAscii`, `Quoted.encodeCharacter`.
-/

namespace WordMachine.Quoted

/-- Escapes of one letter, apart from the one of the quote. -/
def letters : List (Nat × Bytes) :=
  [(0x07, bytes "\\a"), (0x08, bytes "\\b"), (0x09, bytes "\\t"), (0x0a, bytes "\\n"),
   (0x0b, bytes "\\v"), (0x0c, bytes "\\f"), (0x0d, bytes "\\r"), (0x5c, bytes "\\\\")]

/-- A character by its scalar value, between quotes of a kind; the predicate tells which characters
stand for themselves. -/
def scalar (quote : Nat) (shown : Nat → Bool) (n : Nat) : Bytes :=
  match letters.find? (·.1 == n) with
  | some escape => escape.2
  | none =>
      if n = quote then Ascii.backslash :: Utf8.encode n
      else if shown n then Utf8.encode n
      else if n < 0x80 then bytes "\\x" ++ Numeral.padded 2 (Numeral.hex n)
      else if n < 0x10000 then bytes "\\u" ++ Numeral.padded 4 (Numeral.hex n)
      else bytes "\\U" ++ Numeral.padded 8 (Numeral.hex n)

/-- A character, or a byte that belongs to none. -/
def unit (shown : Nat → Bool) : Option Nat × Bytes → Bytes
  | (some n, _) => scalar 0x22 shown n
  | (none, raw) => raw.flatMap fun b => bytes "\\x" ++ Numeral.padded 2 (Numeral.hex b.toNat)

/-- Printable ASCII characters. -/
def isPrintableAscii (n : Nat) : Bool := n < 0x80 && isPrintableScalar n

/-- A text in quotes. -/
def encode (text : Bytes) : Bytes :=
  bytes "\"" ++ (Utf8.units text).flatMap (unit isPrintableScalar) ++ bytes "\""

/-- A text in quotes that has only ASCII characters. -/
def encodeAscii (text : Bytes) : Bytes :=
  bytes "\"" ++ (Utf8.units text).flatMap (unit isPrintableAscii) ++ bytes "\""

/-- A character between apostrophes; the flag asks for ASCII only. -/
def encodeCharacter (ascii : Bool) (n : Nat) : Bytes :=
  bytes "'" ++ scalar 0x27 (if ascii then isPrintableAscii else isPrintableScalar) n ++ bytes "'"

end WordMachine.Quoted
