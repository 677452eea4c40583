/-!
# `Text.Bytes` — byte strings

All text the toolchain reads or writes is a list of bytes: assembly, source files, messages and
console traffic may hold any byte, valid UTF-8 or not.

Contents:
* `Bytes`, `bytes` (the UTF-8 bytes of a literal);
* `Ascii`: the bytes the formats name, and the classes of bytes they use;
* `Bytes.lines`, `Bytes.hasPrefix`, `Bytes.cut?`: splitting;
* `Bytes.isUtf8`, `Bytes.ofHex?`, `Bytes.toHex`.
-/

namespace WordMachine

/-- A byte string. -/
abbrev Bytes := List UInt8

/-- The UTF-8 bytes of a string. -/
def bytes (s : String) : Bytes := s.toUTF8.data.toList

/-! ## Named bytes and classes -/

namespace Ascii

abbrev tab : UInt8 := 0x09
abbrev newline : UInt8 := 0x0a
abbrev carriageReturn : UInt8 := 0x0d
abbrev space : UInt8 := 0x20
abbrev quote : UInt8 := 0x22
abbrev hash : UInt8 := 0x23
abbrev dollar : UInt8 := 0x24
abbrev apostrophe : UInt8 := 0x27
abbrev openParen : UInt8 := 0x28
abbrev closeParen : UInt8 := 0x29
abbrev plus : UInt8 := 0x2b
abbrev comma : UInt8 := 0x2c
abbrev minus : UInt8 := 0x2d
abbrev dot : UInt8 := 0x2e
abbrev slash : UInt8 := 0x2f
abbrev zero : UInt8 := 0x30
abbrev colon : UInt8 := 0x3a
abbrev semicolon : UInt8 := 0x3b
abbrev equals : UInt8 := 0x3d
abbrev backslash : UInt8 := 0x5c
abbrev underscore : UInt8 := 0x5f

/-- The decimal digits. -/
def isDigit (c : UInt8) : Bool := 0x30 ≤ c && c ≤ 0x39

/-- The Latin letters of either case. -/
def isLetter (c : UInt8) : Bool := (0x61 ≤ c && c ≤ 0x7a) || (0x41 ≤ c && c ≤ 0x5a)

/-- Letters, digits and the underscore. -/
def isIdent (c : UInt8) : Bool := c == underscore || isDigit c || isLetter c

end Ascii

namespace Bytes

/-! ## Lines and pieces -/

/-- Drop one carriage return at the end. -/
def dropReturn (line : Bytes) : Bytes :=
  if line.getLast? = some Ascii.carriageReturn then line.dropLast else line

/-- The lines of `rest`, given the bytes (latest first) already read of the first one. -/
def linesFrom : Bytes → Bytes → List Bytes
  | [], [] => []
  | line, [] => [dropReturn line.reverse]
  | line, c :: rest =>
      if c = Ascii.newline then dropReturn line.reverse :: linesFrom [] rest
      else linesFrom (c :: line) rest

/-- The lines of a text: a newline ends a line, one carriage return before it is dropped, and what
follows the last newline is a line only if it holds a byte. -/
def lines (text : Bytes) : List Bytes := linesFrom [] text

/-- Whether `p` starts the text. -/
def hasPrefix (p text : Bytes) : Bool := p.isPrefixOf text

/-- The text without `p` in front, or the whole text if it does not start with `p`. -/
def dropPrefix (p text : Bytes) : Bytes := if hasPrefix p text then text.drop p.length else text

/-- The parts before and after the first `c`. -/
def cut? (c : UInt8) (text : Bytes) : Option (Bytes × Bytes) :=
  match text.dropWhile (· != c) with
  | [] => none
  | _ :: rest => some (text.takeWhile (· != c), rest)

/-- Drop the bytes at the end that satisfy `p`. -/
def dropRightWhile (p : UInt8 → Bool) (text : Bytes) : Bytes := (text.reverse.dropWhile p).reverse

/-- Byte-wise lexicographic order. -/
def le (a b : Bytes) : Bool := (compare a b).isLE

/-! ## Encodings -/

/-- Whether the bytes are a valid UTF-8 text. -/
def isUtf8 (text : Bytes) : Bool := (ByteArray.mk text.toArray).validateUTF8

/-- The value of a hexadecimal digit of either case. -/
def hexDigit? (c : UInt8) : Option Nat :=
  if Ascii.isDigit c then some (c.toNat - 0x30)
  else if 0x61 ≤ c && c ≤ 0x66 then some (c.toNat - 0x61 + 10)
  else if 0x41 ≤ c && c ≤ 0x46 then some (c.toNat - 0x41 + 10)
  else none

/-- The bytes written by pairs of hexadecimal digits. -/
def ofHex? : Bytes → Option Bytes
  | [] => some []
  | [_] => none
  | hi :: lo :: rest => do
      let h ← hexDigit? hi
      let l ← hexDigit? lo
      let tail ← ofHex? rest
      pure ((h * 16 + l).toUInt8 :: tail)

/-- The lower-case hexadecimal digit of a value below sixteen. -/
def hexChar (n : Nat) : UInt8 := if n < 10 then (n + 0x30).toUInt8 else (n - 10 + 0x61).toUInt8

/-- Two lower-case hexadecimal digits for each byte. -/
def toHex (data : Bytes) : Bytes :=
  data.flatMap fun b => [hexChar (b.toNat / 16), hexChar (b.toNat % 16)]

end Bytes

end WordMachine
