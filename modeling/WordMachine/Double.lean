import WordMachine.Text.Bytes

/-!
# `Double` — double-precision numbers by their bit patterns

The machine holds doubles as words. Their parts, rounding and comparison are exact integer arithmetic on
the pattern; sums, products and powers are those of the host.

Contents:
* `Double.parts`, `Double.fraction`: the exact value of a finite pattern;
* `Double.nearest`, `Double.ofDecimal?`: the pattern nearest to a fraction, ties to even;
* `Double.ofInt`, `Double.truncate`, `Double.compareInt`: doubles and integers;
* `Double.place`, `Double.compare?`: the order of doubles;
* `Double.lift`, `Double.power`, `Double.root`: operations of the host;
* `Double.floorMod`: the remainder with the sign of the divisor.
-/

namespace WordMachine.Double

/-- Sign bit of a pattern. -/
def isNegative (w : UInt64) : Bool := w ≥ 0x8000000000000000

/-- The eleven exponent bits. -/
def exponentField (w : UInt64) : Nat := w.toNat / Nat.pow 2 52 % Nat.pow 2 11

/-- The fifty-two fraction bits. -/
def fractionField (w : UInt64) : Nat := w.toNat % Nat.pow 2 52

/-- Neither infinite nor not-a-number. -/
def isFinite (w : UInt64) : Bool := exponentField w != 2047

/-- Not-a-number patterns. -/
def isNaN (w : UInt64) : Bool := exponentField w == 2047 && fractionField w != 0

/-- Significand and binary exponent of the magnitude of a finite pattern: it is `m * 2 ^ e`. -/
def parts (w : UInt64) : Nat × Int :=
  if exponentField w = 0 then (fractionField w, -1074)
  else (Nat.pow 2 52 + fractionField w, (exponentField w : Int) - 1075)

/-- The fraction `m * 2 ^ e` as numerator and denominator. -/
def fraction (m : Nat) (e : Int) : Nat × Nat :=
  if 0 ≤ e then (m * Nat.pow 2 e.toNat, 1) else (m, Nat.pow 2 (-e).toNat)

/-- The quotient rounded to the nearest integer, a tie to the even one. -/
def roundDiv (num den : Nat) : Nat :=
  let q := num / den
  let r := num % den
  if 2 * r < den then q else if den < 2 * r then q + 1 else if q % 2 = 0 then q else q + 1

/-! ## Reading -/

/-- The binary exponent at which a fraction has a significand of 53 bits, but at least the one of the
subnormal numbers. -/
def exponentOf (num den : Nat) : Int :=
  let guess : Int := (Nat.log2 num : Int) - (Nat.log2 den : Int) - 52
  let small : Bool :=
    if 0 ≤ guess then num < den * Nat.pow 2 (52 + guess.toNat)
    else num * Nat.pow 2 (-guess).toNat < den * Nat.pow 2 52
  max (if small then guess - 1 else guess) (-1074)

/-- The pattern of the double nearest to a fraction, a tie to the even one; beyond the largest finite
double the pattern of infinity. -/
def nearest (num den : Nat) : UInt64 :=
  if num = 0 then 0
  else
    let e := exponentOf num den
    let q :=
      if 0 ≤ e then roundDiv num (den * Nat.pow 2 e.toNat)
      else roundDiv (num * Nat.pow 2 (-e).toNat) den
    let (m, e) := if q = Nat.pow 2 53 then (Nat.pow 2 52, e + 1) else (q, e)
    if 971 < e then 0x7ff0000000000000
    else if m < Nat.pow 2 52 then m.toUInt64
    else ((e + 1075).toNat * Nat.pow 2 52 + (m - Nat.pow 2 52)).toUInt64

/-- The pattern of `mantissa / 10 ^ places`; `none` beyond the largest finite double. -/
def ofDecimal? (negative : Bool) (mantissa places : Nat) : Option UInt64 :=
  let w := nearest mantissa (Nat.pow 10 places)
  if isFinite w then some (if negative then w ||| 0x8000000000000000 else w) else none

/-- The pattern nearest to an integer. -/
def ofInt (n : Int) : UInt64 :=
  let w := nearest n.natAbs 1
  if n < 0 then w ||| 0x8000000000000000 else w

/-! ## Exact operations -/

/-- Whether a pattern is a zero of either sign. -/
def isZero (w : UInt64) : Bool := isFinite w && (parts w).1 == 0

/-- The exact value of a finite pattern, as a signed numerator and a denominator. -/
def signedFraction (w : UInt64) : Int × Nat :=
  let (m, e) := parts w
  let (num, den) := fraction m e
  (if isNegative w then -(num : Int) else num, den)

/-- The integer toward zero of a finite pattern. -/
def truncate (w : UInt64) : Int :=
  let (num, den) := signedFraction w
  num.tdiv den

/-- How a finite double compares with an integer. -/
def compareInt (w : UInt64) (n : Int) : Ordering :=
  let (num, den) := signedFraction w
  compare num (n * den)

/-- The place of a pattern among the doubles in ascending order: its magnitude bits, below zero for a set
sign bit. Both zeros have place zero. -/
def place (w : UInt64) : Int :=
  let magnitude : Int := (w.toNat % Nat.pow 2 63 : Nat)
  if isNegative w then -magnitude else magnitude

/-- How two doubles compare; not-a-number compares with nothing. -/
def compare? (a b : UInt64) : Option Ordering :=
  if isNaN a || isNaN b then none else some (compare (place a) (place b))

/-! ## Operations of the host -/

/-- A binary operation of doubles on their patterns. -/
def lift (f : Float → Float → Float) (a b : UInt64) : UInt64 :=
  (f (Float.ofBits a) (Float.ofBits b)).toBits

/-- The double with the value of a signed word. -/
def ofSigned (w : UInt64) : UInt64 := w.toInt64.toFloat.toBits

/-- The signed word with the value of a double, toward zero. -/
def toSigned (w : UInt64) : UInt64 := (Float.ofBits w).toInt64.toUInt64

/-- The power of two doubles. -/
def power (a b : UInt64) : UInt64 := lift Float.pow a b

/-- The root of a double: the power by the reciprocal. -/
def root (a b : UInt64) : UInt64 := lift (fun x y => Float.pow x (1.0 / y)) a b

/-- The remainder of the division of the magnitudes of finite doubles, with the sign of the first. -/
def remainder (a b : UInt64) : UInt64 :=
  let (ma, ea) := parts a
  let (mb, eb) := parts b
  let e := min ea eb
  let r := (ma * Nat.pow 2 (ea - e).toNat) % (mb * Nat.pow 2 (eb - e).toNat)
  let (num, den) := fraction r e
  let w := nearest num den
  if isNegative a then w ||| 0x8000000000000000 else w

/-- The remainder of the division of doubles by one that is not zero, with the sign of the divisor. No
multiple of an infinity is taken away; an infinity has no remainder. -/
def floorMod (a b : UInt64) : UInt64 :=
  if isNaN a || isNaN b || !isFinite a then 0x7ff8000000000001
  else
    let w := if isFinite b then remainder a b else a
    if isNegative a != isNegative b && !isZero w then lift (· + ·) w b else w

end WordMachine.Double
