import WordMachine.Template.Slot
import WordMachine.Text.Decimal
import WordMachine.Text.Quoted

/-!
# `Template.Format` — values under a slot, the same in every language

Contents: `Format`, `Format.pad`; `Format.integer`, `Format.text`, `Format.hexText`,
`Format.quotedText`, `Format.character`, `Format.codePoint`, `Format.double`.
-/

namespace WordMachine.Template

/-- How a value is to be shown: the flags of a slot, its width and its precision. -/
structure Format extends Flags where
  /-- The sharp flag of a slot that shows any kind of value. -/
  literal : Bool := false
  width : Option Nat := none
  precision : Option Nat := none
  deriving DecidableEq, Repr

namespace Format

/-! ## Width -/

/-- The number of characters of a text. -/
def length (text : Bytes) : Nat := (Utf8.units text).length

/-- A byte several times over, up to a width, on the side that the minus flag tells. -/
def fill (f : Format) (c : UInt8) (width : Nat) (text : Bytes) : Bytes :=
  let padding := List.replicate (width - length text) c
  if f.minus then text ++ padding else padding ++ text

/-- Fill up to the width with blanks, or with zeros under the zero flag. -/
def pad (f : Format) (text : Bytes) : Bytes :=
  f.fill (if f.zero then Ascii.zero else Ascii.space) (f.width.getD 0) text

/-- The sign of a number: a plus sign or a blank only if asked for. -/
def sign (f : Format) (negative : Bool) : Bytes :=
  if negative then bytes "-" else if f.plus then bytes "+" else if f.space then bytes " " else []

/-! ## Integers -/

/-- What the sharp flag puts in front of digits of a base. -/
def baseMark (base : Nat) (upper : Bool) (digits : Bytes) : Bytes :=
  if base = 8 ∧ digits.head? ≠ some Ascii.zero then bytes "0"
  else if base = 16 then bytes (if upper then "0X" else "0x")
  else []

/-- An integer in a base. A precision is the least number of digits, and zero without any digit shows
nothing; the zero flag makes the digits fill the width. -/
def integer (f : Format) (base : Nat) (upper : Bool) (n : Int) : Bytes :=
  let blank := { f with zero := false }
  let sign := f.sign (n < 0)
  if f.precision = some 0 ∧ n = 0 then blank.pad []
  else
    let least := match f.precision, f.width with
      | some p, _ => p
      | none, some w => if f.zero then w - sign.length else 0
      | none, none => 0
    let digits := Numeral.padded least (Numeral.render base n.natAbs)
    let digits := if upper then Numeral.upper digits else digits
    blank.pad (sign ++ (if f.sharp then baseMark base upper digits else []) ++ digits)

/-- The character with a scalar value; a number that is none stands for the replacement character. -/
def character (f : Format) (n : Int) : Bytes := f.pad (Utf8.encode (scalarOf n))
where
  /-- The scalar value of a number. -/
  scalarOf (n : Int) : Nat :=
    if 0 ≤ n ∧ n ≤ 0x10ffff ∧ ¬(0xd800 ≤ n ∧ n ≤ 0xdfff) then n.toNat else 0xfffd

/-- A word as a code point: at least four hexadecimal digits, and the character under the sharp flag. -/
def codePoint (f : Format) (n : Int) : Bytes :=
  let u := (UInt64.ofInt n).toNat
  let digits := Numeral.upper (Numeral.padded (max 4 (f.precision.getD 4)) (Numeral.hex u))
  let shown :=
    if f.sharp && u ≤ 0x10ffff && isPrintableScalar u then bytes " '" ++ Utf8.encode u ++ bytes "'"
    else []
  { f with zero := false }.pad (bytes "U+" ++ digits ++ shown)

/-! ## Texts -/

/-- A text cut to as many characters as the precision allows. -/
def cut (f : Format) (text : Bytes) : Bytes :=
  match f.precision with
  | some p => Bytes.ofUnits ((Utf8.units text).take p)
  | none => text

/-- A text. -/
def text (f : Format) (t : Bytes) : Bytes := f.pad (f.cut t)

/-- The bytes of a text in hexadecimal. The precision bounds their number, the space flag sets them
apart, and the sharp flag marks the base. -/
def hexText (f : Format) (upper : Bool) (t : Bytes) : Bytes :=
  let mark := if f.sharp then bytes (if upper then "0X" else "0x") else []
  let byte (b : UInt8) : Bytes :=
    let digits := Numeral.padded 2 (Numeral.hex b.toNat)
    if upper then Numeral.upper digits else digits
  match (t.take (f.precision.getD t.length)).map byte with
  | [] => f.pad []
  | b :: bs => f.pad (mark ++ b ++ bs.flatMap fun b => if f.space then bytes " " ++ mark ++ b else b)

/-- Whether a text can stand between backquotes: valid characters, no controls but tabs, no backquote
and no byte order mark. -/
def isRaw (t : Bytes) : Bool :=
  (Utf8.units t).all fun u =>
    match u.1 with
    | some n => n == 0x09 || (0x20 ≤ n && n != 0x60 && n != 0x7f && n != 0xfeff)
    | none => false

/-- A text in quotes: backquotes if they can be under the sharp flag, only ASCII under the plus flag. -/
def quotedText (f : Format) (t : Bytes) : Bytes :=
  let t := f.cut t
  if f.sharp && isRaw t then f.pad (0x60 :: t ++ [0x60])
  else f.pad (if f.plus then Quoted.encodeAscii t else Quoted.encode t)

/-- A character in quotes. -/
def quotedCharacter (f : Format) (n : Int) : Bytes :=
  f.pad (Quoted.encodeCharacter f.plus (character.scalarOf n))

/-! ## Doubles -/

/-- A double without regard to the language. The sharp flag keeps a decimal point, and with the general
verb also trailing zeros. -/
def double (f : Format) (verb : UInt8) (w : UInt64) : Bytes :=
  let body := Double.written verb f.precision w
  let body :=
    if f.sharp && verb != 0x62 then
      let isMark (c : UInt8) : Bool := c == 0x65 || c == 0x45
      let head := body.takeWhile fun c => !isMark c
      let tail := body.dropWhile fun c => !isMark c
      let wanted := if verb == 0x67 || verb == 0x47 then f.precision.getD 6 else 0
      let shown := (head.filter (· != Ascii.dot)).length
      head ++ (if head.contains Ascii.dot then [] else [Ascii.dot])
        ++ List.replicate (wanted - shown) Ascii.zero ++ tail
    else body
  let sign := f.sign (Double.isNegative w)
  if f.zero && !sign.isEmpty then
    sign ++ Numeral.padded (f.width.getD 0 - sign.length) body
  else f.pad (sign ++ body)

end Format

end WordMachine.Template
