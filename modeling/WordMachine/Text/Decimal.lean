import WordMachine.Double
import WordMachine.Text.Numeral

/-!
# `Text.Decimal` — decimal text of doubles

Contents:
* `Double.shortest`: the fewest decimal digits that read back as a pattern;
* `Double.positional`: those digits without an exponent;
* `Double.fixed`: a fixed number of places, ties to even;
* `Double.significant`: a bounded number of digits, ties to even;
* `Double.written`: the texts of a finite double by the verb that asks for them.
-/

namespace WordMachine.Double

/-! ## Shortest digits -/

/-- The number of decimal digits before the point, or minus the number of zeros right after it. -/
def decimalExponent (num den : Nat) : Int :=
  if den ≤ num then (Nat.toDigits 10 (num / den)).length
  else 1 - (Nat.toDigits 10 ((den - 1) / num)).length

/-- The reals that round to a pattern: from `lo / den` to `hi / den`, around `mid / den`. -/
structure Interval where
  lo : Nat
  mid : Nat
  hi : Nat
  den : Nat
  closed : Bool

/-- The interval of a finite pattern; its ends belong to it iff the significand is even. -/
def interval (w : UInt64) : Interval :=
  let (m, e) := parts w
  let below := if fractionField w = 0 ∧ 1 < exponentField w then 1 else 2
  let (scale, den) := fraction 1 (e - 2)
  ⟨(4 * m - below) * scale, 4 * m * scale, (4 * m + 2) * scale, den, m % 2 = 0⟩

/-- Whether the decimal `d * 10 ^ p` lies in the interval. -/
def Interval.holds (v : Interval) (d : Nat) (p : Int) : Bool :=
  let (x, den) :=
    if 0 ≤ p then (d * Nat.pow 10 p.toNat * v.den, 1) else (d * v.den, Nat.pow 10 (-p).toNat)
  let lo := v.lo * den
  let hi := v.hi * den
  if v.closed then lo ≤ x && x ≤ hi else lo < x && x < hi

/-- The decimal of the grid `10 ^ p` in the interval that is nearest to the middle, a tie to the even
one. -/
def Interval.onGrid? (v : Interval) (p : Int) : Option Nat :=
  let (num, den) :=
    if 0 ≤ p then (v.mid, v.den * Nat.pow 10 p.toNat) else (v.mid * Nat.pow 10 (-p).toNat, v.den)
  let d := num / den
  let first := roundDiv num den
  let second := if first = d then d + 1 else d
  if 0 < first && v.holds first p then some first
  else if 0 < second && v.holds second p then some second
  else none

/-- The first grid, from the coarsest on, that has a decimal in the interval. -/
def Interval.search (v : Interval) : Nat → Int → Nat × Int
  | 0, p => (v.mid / v.den, p)
  | fuel + 1, p =>
      match v.onGrid? p with
      | some d => if d % 10 = 0 then (d / 10, p + 1) else (d, p)
      | none => v.search fuel (p - 1)

/-- Digits `d` and exponent `p` such that `d * 10 ^ p` is the shortest decimal that reads back as the
pattern, which is finite and not zero. Seventeen digits always suffice. -/
def shortest (w : UInt64) : Nat × Int :=
  let v := interval w
  v.search 18 (decimalExponent v.mid v.den - 1)

/-- The decimal `d * 10 ^ p` written without an exponent. -/
def plain (d : Nat) (p : Int) : Bytes :=
  let digits := Numeral.decimal d
  if 0 ≤ p then digits ++ List.replicate p.toNat Ascii.zero
  else
    let places := (-p).toNat
    let text := Numeral.padded (places + 1) digits
    text.take (text.length - places) ++ Ascii.dot :: text.drop (text.length - places)

/-- The shortest decimal of any pattern, without an exponent. -/
def positional (w : UInt64) : Bytes :=
  if isNaN w then bytes "NaN"
  else
    let sign := if isNegative w then bytes "-" else []
    if !isFinite w then (if isNegative w then bytes "-Inf" else bytes "+Inf")
    else if (parts w).1 = 0 then sign ++ bytes "0"
    else
      let (d, p) := shortest w
      sign ++ plain d p

/-! ## Fixed places -/

/-- Whole part and decimal places of the magnitude of a finite pattern, rounded to a number of places,
ties to even. -/
def fixed (w : UInt64) (places : Nat) : Bytes × Bytes :=
  let (m, e) := parts w
  let (num, den) := fraction m e
  let n := roundDiv (num * Nat.pow 10 places) den
  (Numeral.decimal (n / Nat.pow 10 places),
    if places = 0 then [] else Numeral.padded places (Numeral.decimal (n % Nat.pow 10 places)))

/-! ## Bounded digits -/

/-- A decimal `d * 10 ^ p` without trailing zeros in `d`. -/
def trimmed (d : Nat) (p : Int) : Nat × Int :=
  let zeros := ((Numeral.decimal d).reverse.takeWhile (· == Ascii.zero)).length
  if d = 0 then (0, 0) else (d / Nat.pow 10 zeros, p + zeros)

/-- The decimal of at most `count` digits that is nearest to the magnitude of a finite pattern that is
not zero, ties to even, as digits and exponent. -/
def significant (w : UInt64) (count : Nat) : Nat × Int :=
  let (m, e) := parts w
  let (num, den) := fraction m e
  let p := decimalExponent num den - count
  if 0 ≤ p then trimmed (roundDiv num (den * Nat.pow 10 p.toNat)) p
  else trimmed (roundDiv (num * Nat.pow 10 (-p).toNat) den) p

/-- Decimal digits of the magnitude of a finite pattern, and how many of them stand before the point.
Without a precision they are the fewest that read back. Zero has no digits. -/
def digits (w : UInt64) (count : Option Nat) : Bytes × Int :=
  if (parts w).1 = 0 then ([], 0)
  else
    let (d, p) := match count with
      | some n => significant w n
      | none => shortest w
    let ds := Numeral.decimal d
    (ds, p + ds.length)

/-- Whether digits are written with an exponent: it is below minus four, or reaches the precision, six
if there is none. -/
def isExponential (count : Option Nat) (ds : Bytes) (point : Int) : Bool :=
  let limit : Int := match count with
    | none => 6
    | some n => if ds.length < n ∧ point ≤ ds.length then ds.length else n
  point - 1 < -4 || limit ≤ point - 1

/-- Digits with a number of places after the first one and an exponent. -/
def exponential (mark : UInt8) (places : Nat) (ds : Bytes) (point : Int) : Bytes :=
  let e : Int := if ds.isEmpty then 0 else point - 1
  let ds := ds ++ List.replicate (places + 1 - ds.length) Ascii.zero
  ds.take 1 ++ (if places = 0 then [] else Ascii.dot :: ds.drop 1) ++ [mark]
    ++ bytes (if e < 0 then "-" else "+") ++ Numeral.padded 2 (Numeral.decimal e.natAbs)

/-- Digits without an exponent. -/
def withoutExponent (ds : Bytes) (point : Int) : Bytes :=
  match Numeral.ofDigits? 10 ds with
  | some d => plain d (point - ds.length)
  | none => bytes "0"

/-- The magnitude of a finite double by a verb: `f` has a fixed number of places, `e` an exponent, `b` a
binary exponent, and all others an exponent only where it is large. -/
def written (verb : UInt8) (precision : Option Nat) (w : UInt64) : Bytes :=
  if verb = 0x62 then
    let (m, e) := parts w
    Numeral.decimal m ++ bytes (if e < 0 then "p" else "p+") ++ Numeral.signed e
  else if verb = 0x66 ∨ verb = 0x46 then
    let (whole, places) := fixed w (precision.getD 6)
    whole ++ (if places.isEmpty then [] else Ascii.dot :: places)
  else if verb = 0x65 ∨ verb = 0x45 then
    let (ds, point) := digits w (some (precision.getD 6 + 1))
    exponential verb (precision.getD 6) ds point
  else
    let count := precision.map (max 1)
    let (ds, point) := digits w count
    if isExponential count ds point then
      exponential (if verb = 0x47 then 0x45 else 0x65) (ds.length - 1) ds point
    else withoutExponent ds point

end WordMachine.Double
