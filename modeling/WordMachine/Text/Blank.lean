import WordMachine.Text.Bytes

/-!
# `Text.Blank` — white space of a UTF-8 text

A text is read as characters where it is valid UTF-8 and as single bytes where it is not; only
characters of the Unicode property `White_Space` are blank.

Contents: `Utf8.next`, `Utf8.units`; `isBlankScalar`, `Bytes.trim`, `Bytes.firstField`.
-/

namespace WordMachine

namespace Utf8

/-- Whether a byte continues a character. -/
def isContinuation (c : UInt8) : Bool := 0x80 ≤ c && c ≤ 0xbf

/-- The scalar value and width of the character at the front. An invalid front counts as one unit of
one byte without a value; the empty text has no unit. -/
def next : Bytes → Option (Option Nat × Nat)
  | [] => none
  | a :: rest =>
      let low (c : UInt8) : Nat := c.toNat % 64
      if a < 0x80 then some (some a.toNat, 1)
      else if 0xc2 ≤ a && a ≤ 0xdf then
        match rest with
        | b :: _ =>
            if isContinuation b then some (some (a.toNat % 32 * 64 + low b), 2) else some (none, 1)
        | _ => some (none, 1)
      else if 0xe0 ≤ a && a ≤ 0xef then
        match rest with
        | b :: c :: _ =>
            let value := a.toNat % 16 * 4096 + low b * 64 + low c
            if isContinuation b && isContinuation c && 0x800 ≤ value
                && !(0xd800 ≤ value && value ≤ 0xdfff) then some (some value, 3)
            else some (none, 1)
        | _ => some (none, 1)
      else if 0xf0 ≤ a && a ≤ 0xf4 then
        match rest with
        | b :: c :: d :: _ =>
            let value := a.toNat % 8 * 262144 + low b * 4096 + low c * 64 + low d
            if isContinuation b && isContinuation c && isContinuation d && 0x10000 ≤ value
                && value ≤ 0x10ffff then some (some value, 4)
            else some (none, 1)
        | _ => some (none, 1)
      else some (none, 1)

/-- The units of a text, each with its scalar value (if it has one) and its bytes. The first argument
counts bytes still to be skipped. -/
def unitsFrom : Nat → Bytes → List (Option Nat × Bytes)
  | _, [] => []
  | skip + 1, _ :: rest => unitsFrom skip rest
  | 0, c :: rest =>
      match next (c :: rest) with
      | some (value, width) => (value, (c :: rest).take width) :: unitsFrom (width - 1) rest
      | none => []

/-- The characters of a text, and the bytes that belong to none. -/
def units (text : Bytes) : List (Option Nat × Bytes) := unitsFrom 0 text

/-- The UTF-8 bytes of a scalar value. -/
def encode (n : Nat) : Bytes :=
  if n < 0x80 then [n.toUInt8]
  else if n < 0x800 then [(0xc0 + n / 64).toUInt8, (0x80 + n % 64).toUInt8]
  else if n < 0x10000 then
    [(0xe0 + n / 4096).toUInt8, (0x80 + n / 64 % 64).toUInt8, (0x80 + n % 64).toUInt8]
  else
    [(0xf0 + n / 262144).toUInt8, (0x80 + n / 4096 % 64).toUInt8, (0x80 + n / 64 % 64).toUInt8,
      (0x80 + n % 64).toUInt8]

end Utf8

/-- The scalar values with the Unicode property `White_Space`. -/
def isBlankScalar (n : Nat) : Bool :=
  (0x09 ≤ n && n ≤ 0x0d) || n == 0x20 || n == 0x85 || n == 0xa0 || n == 0x1680
    || (0x2000 ≤ n && n ≤ 0x200a) || n == 0x2028 || n == 0x2029 || n == 0x202f || n == 0x205f
    || n == 0x3000

/-- Whether a unit of a text is a blank character. -/
def isBlankUnit (u : Option Nat × Bytes) : Bool := u.1.any isBlankScalar

namespace Bytes

/-- The bytes of a sequence of units. -/
def ofUnits (us : List (Option Nat × Bytes)) : Bytes := us.flatMap (·.2)

/-- The text without blank characters at either end. -/
def trim (text : Bytes) : Bytes :=
  let inner := (Utf8.units text).dropWhile isBlankUnit
  ofUnits (inner.reverse.dropWhile isBlankUnit).reverse

/-- The first maximal run of characters that are not blank; empty if there is none. -/
def firstField (text : Bytes) : Bytes :=
  ofUnits (((Utf8.units text).dropWhile isBlankUnit).takeWhile fun u => !isBlankUnit u)

end Bytes

end WordMachine
