import WordMachine.Assembly.Expression.Interpolation

/-!
# `Assembly.Expression.Operator` — the operators of operand expressions

Every operator is partial: `none` is an operand it does not take.

Contents: `BinaryOp`, `UnaryOp`, `Value.binary?`, `Value.unary?`; items and slices in `Value.index?`
and `Value.slice?`.
-/

namespace WordMachine.Assembly.Expression

/-- The operators between two values. -/
inductive BinaryOp where
  | add | sub | mul | div | floorDiv | mod | bitAnd | bitOr | bitXor | shiftLeft | shiftRight
  | eq | ne | lt | le | gt | ge | isIn | isNotIn
  deriving DecidableEq, Repr

/-- The operators in front of a value. -/
inductive UnaryOp where
  | plus | minus | invert | negate
  deriving DecidableEq, Repr

/-! ## Bits of integers in two's complement -/

namespace Bits

/-- The bits of `m` that `n` does not have. -/
def without (m n : Nat) : Nat := m ^^^ (m &&& n)

/-- Bits in both numbers. -/
def and : Int → Int → Int
  | .ofNat m, .ofNat n => (m &&& n : Nat)
  | .ofNat m, .negSucc n => (without m n : Nat)
  | .negSucc m, .ofNat n => (without n m : Nat)
  | .negSucc m, .negSucc n => .negSucc (m ||| n)

/-- Bits in either number. -/
def or : Int → Int → Int
  | .ofNat m, .ofNat n => (m ||| n : Nat)
  | .ofNat m, .negSucc n => .negSucc (without n m)
  | .negSucc m, .ofNat n => .negSucc (without m n)
  | .negSucc m, .negSucc n => .negSucc (m &&& n)

/-- Bits in exactly one number. -/
def xor : Int → Int → Int
  | .ofNat m, .ofNat n => (m ^^^ n : Nat)
  | .ofNat m, .negSucc n => .negSucc (m ^^^ n)
  | .negSucc m, .ofNat n => .negSucc (m ^^^ n)
  | .negSucc m, .negSucc n => (m ^^^ n : Nat)

end Bits

namespace Value

/-! ## Operators on numbers and sequences -/

/-- The double nearest to an integer; `none` if the integer is too large. -/
def toDouble? (n : Int) : Option UInt64 :=
  if Double.isFinite (Double.ofInt n) then some (Double.ofInt n) else none

/-- Arithmetic on two numbers, by the operation on integers or the one on doubles. -/
def arithmetic? (onInts : Int → Int → Option Value) (onFloats : UInt64 → UInt64 → Option Value) :
    Value → Value → Option Value
  | .int a, .int b => onInts a b
  | .float a, .float b => onFloats a b
  | .int a, .float b => (toDouble? a).bind fun x => onFloats x b
  | .float a, .int b => (toDouble? b).bind fun y => onFloats a y
  | _, _ => none

/-- A sequence several times over. The count fits a signed word of 32 bits, a negative one counts as
zero, and the result has fewer than `2 ^ 30` items. -/
def repeated {α : Type} (xs : List α) (n : Int) : Option (List α) :=
  if xs.isEmpty then some []
  else if n < -(Nat.pow 2 31 : Int) ∨ (Nat.pow 2 31 : Int) ≤ n then none
  else if Nat.pow 2 30 ≤ xs.length * n.toNat then none
  else some (List.replicate n.toNat xs).flatten

/-- Multiplication of numbers, and repetition of sequences. -/
def times? : Value → Value → Option Value
  | .text s, .int n | .int n, .text s => (repeated s n).map .text
  | .octets s, .int n | .int n, .octets s => (repeated s n).map .octets
  | .list xs, .int n | .int n, .list xs => (repeated xs n).map .list
  | .tuple xs, .int n | .int n, .tuple xs => (repeated xs n).map .tuple
  | a, b =>
      arithmetic? (fun x y => some (.int (x * y))) (fun x y => some (.float (Double.lift (· * ·) x y))) a b

/-- Addition of numbers, and concatenation of sequences. -/
def plus? : Value → Value → Option Value
  | .text a, .text b => some (.text (a ++ b))
  | .list a, .list b => some (.list (a ++ b))
  | .tuple a, .tuple b => some (.tuple (a ++ b))
  | a, b =>
      arithmetic? (fun x y => some (.int (x + y))) (fun x y => some (.float (Double.lift (· + ·) x y))) a b

/-- Whether `pattern` occurs in the text. -/
def occurs (pattern : Bytes) : Bytes → Bool
  | [] => pattern.isEmpty
  | c :: rest => Bytes.hasPrefix pattern (c :: rest) || occurs pattern rest

/-- Whether a value equals one of the items, which are compared in order up to the first hit. -/
def memberOf? (x : Value) : List Value → Option Bool
  | [] => some false
  | y :: ys =>
      (equals? comparisonDepth y x).bind fun same => if same then some true else memberOf? x ys

/-- Membership in a list or tuple, of a text in a text, and of bytes in bytes. -/
def member? (x : Value) : Value → Option Bool
  | .list ys | .tuple ys => memberOf? x ys
  | .text t =>
      match x with
      | .text s => some (occurs s t)
      | _ => none
  | .octets t =>
      match x with
      | .octets s => some (occurs s t)
      | .int n => if 0 ≤ n ∧ n < 256 then some (t.contains n.toNat.toUInt8) else none
      | _ => none
  | _ => none

/-- A shift; counts are at most those of a signed 32-bit number, and below 512 to the left. -/
def shift? (left : Bool) : Value → Value → Option Value
  | .int x, .int n =>
      if n < 0 ∨ (Nat.pow 2 31 : Int) ≤ n ∨ (left ∧ 512 ≤ n) then none
      else some (.int (if left then x <<< n.toNat else x >>> n.toNat))
  | _, _ => none

/-- The remainder of numbers, with the sign of the divisor, and the setting of values into a text. -/
def remainder? : Value → Value → Option Value
  | .text s, v => (interpolate? s v).map .text
  | a, b =>
      arithmetic? (fun x y => if y = 0 then none else some (.int (x.fmod y)))
        (fun x y => if Double.isZero y then none else some (.float (Double.floorMod x y))) a b

/-- An operation on the bits of integers. -/
def bits? (f : Int → Int → Int) : Value → Value → Option Value
  | .int x, .int y => some (.int (f x y))
  | _, _ => none

/-- An order comparison. -/
def ordered? (test : Ordering → Bool) (a b : Value) : Option Value :=
  (compare? comparisonDepth a b).map fun o => .bool (test o)

/-- The value of an operator between two values. -/
def binary? (op : BinaryOp) (a b : Value) : Option Value :=
  match op with
  | .add => plus? a b
  | .sub =>
      arithmetic? (fun x y => some (.int (x - y))) (fun x y => some (.float (Double.lift (· - ·) x y))) a b
  | .mul => times? a b
  | .div =>
      let quotient (x y : UInt64) : Option Value :=
        if Double.isZero y then none else some (.float (Double.lift (· / ·) x y))
      arithmetic? (fun x y => (toDouble? x).bind fun p => (toDouble? y).bind fun q => quotient p q)
        quotient a b
  | .floorDiv =>
      arithmetic? (fun x y => if y = 0 then none else some (.int (x.fdiv y)))
        (fun x y =>
          if Double.isZero y then none else some (.float (Double.lift (fun p q => (p / q).floor) x y))) a b
  | .mod => remainder? a b
  | .bitAnd => bits? Bits.and a b
  | .bitOr => bits? Bits.or a b
  | .bitXor => bits? Bits.xor a b
  | .shiftLeft => shift? true a b
  | .shiftRight => shift? false a b
  | .eq => (equals? comparisonDepth a b).map .bool
  | .ne => (equals? comparisonDepth a b).map fun same => .bool (!same)
  | .lt => ordered? Ordering.isLT a b
  | .le => ordered? Ordering.isLE a b
  | .gt => ordered? Ordering.isGT a b
  | .ge => ordered? Ordering.isGE a b
  | .isIn => (member? a b).map .bool
  | .isNotIn => (member? a b).map fun found => .bool (!found)

/-- The value of an operator in front of a value. -/
def unary? (op : UnaryOp) (a : Value) : Option Value :=
  match op, a with
  | .negate, a => some (.bool (!a.truth))
  | .plus, .int n => some (.int n)
  | .plus, .float w => some (.float w)
  | .minus, .int n => some (.int (-n))
  | .minus, .float w => some (.float (w ^^^ 0x8000000000000000))
  | .invert, .int n => some (.int (-n - 1))
  | _, _ => none

/-- The item of a sequence at an index; negative indices count from the end. -/
def item? {α : Type} (xs : List α) (i : Int) : Option α :=
  let place := if i < 0 then i + xs.length else i
  if place < 0 then none else xs[place.toNat]?

/-- The item of a list, tuple, text or byte string at an index. -/
def index? : Value → Value → Option Value
  | .list xs, .int i | .tuple xs, .int i => item? xs i
  | .text s, .int i => (item? s i).map fun b => .text [b]
  | .octets s, .int i => (item? s i).map fun b => .int b.toNat
  | _, _ => none

/-- A bound of a slice of `length` items. A missing one takes the default, a negative one counts from
the end, and every one fits a signed word of 32 bits. -/
def bound? (length : Nat) (default : Int) : Value → Option Int
  | .nothing => some default
  | .int i =>
      if i < -(Nat.pow 2 31 : Int) ∨ (Nat.pow 2 31 : Int) ≤ i then none
      else some (if i < 0 then i + length else i)
  | _ => none

/-- Every `step`-th item from a place on, `count` of them. -/
def stride {α : Type} (xs : Array α) (step : Int) : Nat → Int → List α
  | 0, _ => []
  | count + 1, place =>
      (if place < 0 then none else xs[place.toNat]?).toList ++ stride xs step count (place + step)

/-- The items from one bound up to another, which is left out, by steps that are not zero. -/
def stretch? {α : Type} (xs : List α) (lo hi step : Value) : Option (List α) := do
  let n : Int := xs.length
  let pace ← match step with
    | .nothing => some 1
    | .int k =>
        if k = 0 ∨ k < -(Nat.pow 2 31 : Int) ∨ (Nat.pow 2 31 : Int) ≤ k then none else some k
    | _ => none
  if 0 < pace then
    let first := max 0 (min n (← bound? xs.length 0 lo))
    let last := max 0 (min n (← bound? xs.length n hi))
    pure (stride xs.toArray pace ((last - first + pace - 1) / pace).toNat first)
  else
    let first := min (n - 1) (← bound? xs.length (n - 1) lo)
    let last := max (-1) (← bound? xs.length (-1) hi)
    pure (stride xs.toArray pace ((first - last - pace - 1) / -pace).toNat first)

/-- A slice of a list, tuple, text or byte string. -/
def slice? (v lo hi step : Value) : Option Value :=
  match v with
  | .list xs => (stretch? xs lo hi step).map .list
  | .tuple xs => (stretch? xs lo hi step).map .tuple
  | .text s => (stretch? s lo hi step).map .text
  | .octets s => (stretch? s lo hi step).map .octets
  | _ => none

end Value

end WordMachine.Assembly.Expression
