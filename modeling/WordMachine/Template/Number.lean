import WordMachine.Locale
import WordMachine.Template.Format

/-!
# `Template.Number` — numbers under a slot in a language

Digits before the point are grouped, also the zeros that fill a width. A number with a large exponent
is written with a power of ten.

Contents: `Format.localInteger`, `Format.localFixed`, `Format.localExponential`, `Format.localGeneral`.
-/

namespace WordMachine.Template.Format

/-! ## Layout -/

/-- The width, which is kept in sixteen bits. -/
def localWidth (f : Format) : Nat := f.width.getD 0 % Nat.pow 2 16

/-- The least number of digits before the point: one, or what the zero flag needs to fill the width
beside the point, the places and a sign that is asked for. It is kept in eight bits. -/
def leastWhole (f : Format) (places : Nat) : Nat :=
  let taken := (if places = 0 then 0 else places + 1) + (if f.plus || f.space then 1 else 0)
  let room := f.width.getD 0 - taken
  if f.zero && 1 < room then room % Nat.pow 2 8 else 1

/-- A number with grouped digits: at least so many before the point, and its places. -/
def layout (f : Format) (loc : Locale) (negative : Bool) (least : Nat) (whole places : Bytes) : Bytes :=
  f.fill Ascii.space f.localWidth
    (f.sign negative ++ Locale.groupDigits loc.group (Numeral.padded least whole)
      ++ (if places.isEmpty then [] else loc.point ++ places))

/-- A decimal digit as a superscript. -/
def superscript (c : UInt8) : Bytes :=
  ([bytes "⁰", bytes "¹", bytes "²", bytes "³", bytes "⁴", bytes "⁵", bytes "⁶", bytes "⁷", bytes "⁸",
    bytes "⁹"])[c.toNat - 0x30]?.getD []

/-- A power of ten; its exponent has at least two digits. -/
def power (e : Int) : Bytes :=
  bytes "10" ++ bytes (if e < 0 then "⁻" else "")
    ++ (Numeral.padded 2 (Numeral.decimal e.natAbs)).flatMap superscript

/-- Digits with the point after the first one, a least number of places, and a power of ten. Zeros that
fill the width come after the sign. -/
def layoutPower (f : Format) (loc : Locale) (negative : Bool) (least : Nat) (ds : Bytes) (point : Int) :
    Bytes :=
  let (ds, e) := if ds.isEmpty then (bytes "0", 0) else (ds, point - 1)
  let places := ds.drop 1 ++ List.replicate (least + 1 - ds.length) Ascii.zero
  let sign := f.sign negative
  let body := ds.take 1 ++ (if places.isEmpty then [] else loc.point ++ places) ++ loc.times ++ power e
  if f.zero then
    sign ++ List.replicate (f.localWidth - (length sign + length body)) Ascii.zero ++ body
  else f.fill Ascii.space f.localWidth (sign ++ body)

/-! ## Numbers -/

/-- The digits of a natural number; zero has none. -/
def wholeDigits (n : Nat) : Bytes := if n = 0 then [] else Numeral.decimal n

/-- An integer. A precision is the least number of digits. -/
def localInteger (f : Format) (loc : Locale) (n : Int) : Bytes :=
  let least := match f.precision with
    | some p => p % Nat.pow 2 8
    | none => f.leastWhole 0
  f.layout loc (n < 0) least (wholeDigits n.natAbs) []

/-- Whether a double is below zero. -/
def isBelowZero (w : UInt64) : Bool := Double.isNegative w && !Double.isZero w

/-- Places without the trailing zeros beyond a least number. -/
def trimPlaces (least : Nat) (places : Bytes) : Bytes :=
  let kept := (places.reverse.dropWhile (· == Ascii.zero)).reverse
  kept ++ List.replicate (least - kept.length) Ascii.zero

/-- The magnitude `d * 10 ^ p` rounded to a number of places, ties to even: the digits before the point
and the places without trailing zeros. -/
def rounded (d : Nat) (p : Int) (places : Nat) : Bytes × Bytes :=
  let shift := p + places
  let n := if 0 ≤ shift then d * Nat.pow 10 shift.toNat else Double.roundDiv d (Nat.pow 10 (-shift).toNat)
  let unit := Nat.pow 10 places
  let tail := if places = 0 then [] else Numeral.padded places (Numeral.decimal (n % unit))
  (wholeDigits (n / unit), trimPlaces 0 tail)

/-- The number of places, six if none is asked for, and the least one, which is kept in eight bits. -/
def places (f : Format) : Nat × Nat :=
  let count := f.precision.getD 6
  (count, count % Nat.pow 2 8)

/-- A double with a fixed number of places. -/
def localFixed (f : Format) (loc : Locale) (w : UInt64) : Bytes :=
  let (count, least) := f.places
  let (whole, part) := Double.fixed w count
  f.layout loc (isBelowZero w) (f.leastWhole least) (whole.dropWhile (· == Ascii.zero))
    (trimPlaces least part)

/-- A double with a power of ten. -/
def localExponential (f : Format) (loc : Locale) (w : UInt64) : Bytes :=
  let (count, least) := f.places
  let (ds, point) := Double.digits w (some (count + 1))
  f.layoutPower loc (isBelowZero w) least ds point

/-- A double by the fewest digits that read back, or by one digit more than the precision. It has a power
of ten if its exponent is below minus four or reaches the precision, six if there is none. -/
def localGeneral (f : Format) (loc : Locale) (w : UInt64) : Bytes :=
  let count := f.precision.map (· + 1)
  let (ds, point) := Double.digits w count
  -- How many digits there are with the zeros around them, and how many of those before the point.
  let (all, before) : Int × Int :=
    if Double.isExponential count ds point then (ds.length, point)
    else if 0 < point then (max ds.length point, point)
    else if ds.isEmpty then (1, 1)
    else (ds.length - point + 1, 1)
  let (precision, limit) : Int × Int := match f.precision with
    | none => (all, 6)
    | some p => (max 1 p, max 1 p)
  let e := before - 1
  if e < -4 ∨ limit ≤ e then f.layoutPower loc (isBelowZero w) 0 ds point
  else
    let places := ((if before < precision then all else precision) - before).toNat
    let (whole, tail) := rounded ((Numeral.ofDigits? 10 ds).getD 0) (point - ds.length) places
    f.layout loc (isBelowZero w) (f.leastWhole 0) whole tail

end WordMachine.Template.Format
