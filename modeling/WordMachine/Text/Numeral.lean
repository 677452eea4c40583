import WordMachine.Text.Bytes

/-!
# `Text.Numeral` — writing and reading whole numbers

Contents:
* `Numeral.decimal`, `Numeral.hex`, `Numeral.signed`, `Numeral.padded`: numbers to text;
* `Numeral.ofDigits?`: a non-empty run of digits of a base to its value;
* `Numeral.signed?`: an optional sign and decimal digits;
* `Numeral.literal?`: integers with a base mark and digit separators.
-/

namespace WordMachine.Numeral

/-! ## Writing -/

/-- The digits of `n` in a base up to sixteen, most significant first. -/
def render (base n : Nat) : Bytes := (Nat.toDigits base n).map Char.toUInt8

/-- Decimal digits. -/
def decimal (n : Nat) : Bytes := render 10 n

/-- Lower-case hexadecimal digits. -/
def hex (n : Nat) : Bytes := render 16 n

/-- Binary digits. -/
def binary (n : Nat) : Bytes := render 2 n

/-- Zeros in front, up to a least width. -/
def padded (width : Nat) (text : Bytes) : Bytes :=
  List.replicate (width - text.length) Ascii.zero ++ text

/-- Upper case of the lower-case letters. -/
def upper (text : Bytes) : Bytes := text.map fun c => if 0x61 ≤ c && c ≤ 0x7a then c - 32 else c

/-- Decimal digits with a minus sign for negative numbers. -/
def signed (n : Int) : Bytes := if n < 0 then Ascii.minus :: decimal n.natAbs else decimal n.natAbs

/-- Hexadecimal digits, a minus sign for negative numbers, and zeros up to a width that counts the
sign. -/
def hexSigned (width : Nat) (n : Int) : Bytes :=
  if n < 0 then Ascii.minus :: padded (width - 1) (hex n.natAbs) else padded width (hex n.natAbs)

/-! ## Reading -/

/-- The value of a digit: `0` to `9`, then the letters of either case from ten on. -/
def digit? (c : UInt8) : Option Nat :=
  if Ascii.isDigit c then some (c.toNat - 0x30)
  else if 0x61 ≤ c && c ≤ 0x7a then some (c.toNat - 0x61 + 10)
  else if 0x41 ≤ c && c ≤ 0x5a then some (c.toNat - 0x41 + 10)
  else none

/-- Continue a number with value `acc` by a run of digits. -/
def digitsFrom? (base acc : Nat) : Bytes → Option Nat
  | [] => some acc
  | c :: rest =>
      match digit? c with
      | some d => if d < base then digitsFrom? base (acc * base + d) rest else none
      | none => none

/-- The value of a non-empty run of digits. -/
def ofDigits? (base : Nat) (text : Bytes) : Option Nat :=
  if text.isEmpty then none else digitsFrom? base 0 text

/-- The value of a non-empty run of digits, if it is below `2 ^ bits`. -/
def word? (base bits : Nat) (text : Bytes) : Option Nat :=
  match ofDigits? base text with
  | some n => if n < Nat.pow 2 bits then some n else none
  | none => none

/-- Split off a sign; the flag tells a minus. -/
def takeSign : Bytes → Bool × Bytes
  | [] => (false, [])
  | c :: rest =>
      if c = Ascii.minus then (true, rest)
      else if c = Ascii.plus then (false, rest)
      else (false, c :: rest)

/-- Apply a sign and keep the number if it fits a signed word of 64 bits. -/
def fitSigned? (negative : Bool) (n : Nat) : Option Int :=
  if negative then (if n ≤ Nat.pow 2 63 then some (-(n : Int)) else none)
  else if n < Nat.pow 2 63 then some n else none

/-- A decimal integer with an optional sign, within a signed word of 64 bits. -/
def signed? (text : Bytes) : Option Int :=
  let (negative, digits) := takeSign text
  (ofDigits? 10 digits).bind (fitSigned? negative)

/-- The base, whether a digit or base mark has been read, and the digits after the mark: `0b`, `0o`
and `0x` mark a base if a byte follows, any other leading zero marks octal. -/
def baseMark : Bytes → Nat × Bool × Bytes
  | [] => (10, false, [])
  | z :: rest =>
      if z = Ascii.zero then
        match rest with
        | m :: b :: tail =>
            if m = 0x62 ∨ m = 0x42 then (2, true, b :: tail)
            else if m = 0x6f ∨ m = 0x4f then (8, true, b :: tail)
            else if m = 0x78 ∨ m = 0x58 then (16, true, b :: tail)
            else (8, true, m :: b :: tail)
        | _ => (8, true, rest)
      else (10, false, z :: rest)

/-- Each underscore stands between two digits; the flag tells whether a digit or a base mark comes
right before the text. -/
def separatorsOk : Bool → Bytes → Bool
  | _, [] => true
  | before, c :: rest =>
      if c = Ascii.underscore then
        before && (match rest with | [] => false | d :: _ => d != Ascii.underscore)
          && separatorsOk false rest
      else separatorsOk true rest

/-- An integer with an optional sign, a base mark and underscores between digits, within a signed word
of 64 bits. -/
def literal? (text : Bytes) : Option Int :=
  let (negative, digits) := takeSign text
  if digits.isEmpty then none
  else
    let (base, marked, body) := baseMark digits
    if separatorsOk marked body then
      (digitsFrom? base 0 (body.filter (· != Ascii.underscore))).bind (fitSigned? negative)
    else none

end WordMachine.Numeral
