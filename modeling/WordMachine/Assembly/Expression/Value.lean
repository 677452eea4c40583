import WordMachine.Double
import WordMachine.Text.Blank
import WordMachine.Text.Numeral

/-!
# `Assembly.Expression.Value` — values of operand expressions

Expressions compute with unbounded integers; doubles, texts, byte strings, truth values, lists and
tuples occur as intermediate values.

Contents: `Value`, `Value.truth`, `Value.equals?`, `Value.compare?`.
-/

namespace WordMachine.Assembly.Expression

/-- A value of an expression. -/
inductive Value where
  | int (n : Int)
  | float (bits : UInt64)
  | text (s : Bytes)
  | octets (s : Bytes)
  | bool (b : Bool)
  | nothing
  | list (xs : List Value)
  | tuple (xs : List Value)
  | function (name : Bytes)

/-! ## Truth, equality and order -/

namespace Value

/-- What counts as true in a condition. -/
def truth : Value → Bool
  | .int n => n != 0
  | .float w => !Double.isZero w
  | .text s | .octets s => !s.isEmpty
  | .bool b => b
  | .nothing => false
  | .list xs => !xs.isEmpty
  | .tuple xs => !xs.isEmpty
  | .function _ => true

/-- The order of doubles: not-a-number comes last and equals itself. -/
def compareDoubles (a b : UInt64) : Ordering :=
  match Double.compare? a b with
  | some o => o
  | none => if !Double.isNaN a then .lt else if !Double.isNaN b then .gt else .eq

/-- The order of a double and an integer; the infinities lie around all integers. -/
def compareMixed (a : UInt64) (b : Int) : Ordering :=
  if Double.isFinite a then Double.compareInt a b
  else if !Double.isNaN a && Double.isNegative a then .lt
  else .gt

/-- How two numbers compare; `none` if one is no number. -/
def compareNumbers? : Value → Value → Option Ordering
  | .int a, .int b => some (compare a b)
  | .float a, .float b => some (compareDoubles a b)
  | .float a, .int b => some (compareMixed a b)
  | .int a, .float b => some (compareMixed b a).swap
  | _, _ => none

/-- How deeply nested sequences may be for a comparison to reach their items. -/
def comparisonDepth : Nat := 10

/-- Equality of two sequences of one length by an equality of items; `none` if items that have to be
compared cannot be. -/
def equalItems? (equal? : Value → Value → Option Bool) : List Value → List Value → Option Bool
  | x :: xs, y :: ys =>
      (equal? x y).bind fun same => if same then equalItems? equal? xs ys else some false
  | _, _ => some true

/-- Equality of values down to a depth. Values of different kinds differ, except for numbers;
sequences of different lengths differ whatever their items are. -/
def equals? : Nat → Value → Value → Option Bool
  | 0, _, _ => none
  | _ + 1, .text a, .text b | _ + 1, .octets a, .octets b => some (a == b)
  | _ + 1, .bool a, .bool b => some (a == b)
  | _ + 1, .nothing, .nothing => some true
  | _ + 1, .function a, .function b => some (a == b)
  | depth + 1, .list xs, .list ys | depth + 1, .tuple xs, .tuple ys =>
      if xs.length = ys.length then equalItems? (equals? depth) xs ys else some false
  | _ + 1, a, b => some (compareNumbers? a b == some .eq)

/-- The order of two sequences: by the first unequal items, then by length. -/
def compareItems? (equal? : Value → Value → Option Bool) (order? : Value → Value → Option Ordering) :
    List Value → List Value → Option Ordering
  | [], [] => some .eq
  | [], _ :: _ => some .lt
  | _ :: _, [] => some .gt
  | x :: xs, y :: ys =>
      (equal? x y).bind fun same => if same then compareItems? equal? order? xs ys else order? x y

/-- The order of values of one kind, and of numbers, down to a depth. -/
def compare? : Nat → Value → Value → Option Ordering
  | 0, _, _ => none
  | _ + 1, .text a, .text b | _ + 1, .octets a, .octets b => some (compare a b)
  | _ + 1, .bool a, .bool b => some (compare a.toNat b.toNat)
  | depth + 1, .list xs, .list ys | depth + 1, .tuple xs, .tuple ys =>
      compareItems? (equals? depth) (compare? depth) xs ys
  | _ + 1, a, b => compareNumbers? a b

end Value

end WordMachine.Assembly.Expression
