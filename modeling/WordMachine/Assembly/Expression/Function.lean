import WordMachine.Assembly.Expression.Interpolation

/-!
# `Assembly.Expression.Function` — the functions of operand expressions

A function takes values in order and values by name. `none` is a call it does not take.

Contents: `Value.parseInt?`, `Value.toInt?`, `Value.extreme?`, `Value.call?`, and `Value.universe?`,
the names every expression knows.
-/

namespace WordMachine.Assembly.Expression.Value

/-- The integer that a text spells in a base from 2 to 36. Base 0 takes the base from a mark, and any
base takes its own mark. -/
def parseInt? (text : Bytes) (base : Nat) : Option Int :=
  let (negative, digits) := Numeral.takeSign text
  let sign (n : Nat) : Int := if negative then -(n : Int) else n
  let plain (b : Nat) (ds : Bytes) : Option Int := (Numeral.ofDigits? b ds).map sign
  match digits with
  | z :: m :: rest =>
      if z = Ascii.zero then
        let mark :=
          if rest.isEmpty then 0
          else if m = 0x6f ∨ m = 0x4f then 8
          else if m = 0x78 ∨ m = 0x58 then 16
          else if m = 0x62 ∨ m = 0x42 then 2
          else 0
        if mark ≠ 0 ∧ (base = 0 ∨ base = mark) then plain mark rest
        else if mark = 0 ∧ base = 0 then (if (m :: rest).all (· == Ascii.zero) then some 0 else none)
        else plain (if base = 0 then 10 else base) digits
      else plain (if base = 0 then 10 else base) digits
  | _ => plain (if base = 0 then 10 else base) digits

/-- The integer of a value: texts in a base, truth values as 0 and 1, doubles toward zero. -/
def toInt? (v : Value) (base : Option Value) : Option Value :=
  match v, base with
  | .text s, none => (parseInt? s 10).map .int
  | .text s, some (.int b) =>
      if b = 0 ∨ (2 ≤ b ∧ b ≤ 36) then (parseInt? s b.toNat).map .int else none
  | .bool b, none => some (.int b.toNat)
  | v, none => v.integer?.map .int
  | _, some _ => none

/-- The items of a list or a tuple. -/
def items? : Value → Option (List Value)
  | .list xs | .tuple xs => some xs
  | _ => none

/-- The values that `max` and `min` choose from: several values, or the items of one sequence. -/
def candidates? : List Value → Option (List Value)
  | [] => none
  | [v] => v.items?
  | vs => some vs

/-- The first value whose key is such that no later key is better. -/
def extreme? (better : Ordering → Bool) (key? : Value → Option Value) : List Value → Option Value
  | [] => none
  | x :: xs => do
      let start ← key? x
      let best ← xs.foldlM
        (fun (best : Value × Value) y => do
          let k ← key? y
          let o ← compare? comparisonDepth k best.2
          pure (if better o then (y, k) else best)) (x, start)
      pure best.1

/-- The value of a call with values in order only. -/
def callPlain? (f : Value) (args : List Value) : Option Value :=
  match f with
  | .function name =>
      if name == bytes "len" then
        match args with
        | [.text s] | [.octets s] => some (.int s.length)
        | [.list xs] | [.tuple xs] => some (.int xs.length)
        | _ => none
      else if name == bytes "ord" then
        match args with
        | [.text s] => (ordinal? s).map fun n => .int n
        | [.octets [b]] => some (.int b.toNat)
        | _ => none
      else if name == bytes "int" then
        match args with
        | [v] => toInt? v none
        | [v, base] => toInt? v (some base)
        | _ => none
      else if name == bytes "abs" then
        match args with
        | [.int n] => some (.int n.natAbs)
        | [.float w] => some (.float (w &&& 0x7fffffffffffffff))
        | _ => none
      else if name == bytes "bool" then
        match args with
        | [] => some (.bool false)
        | [v] => some (.bool v.truth)
        | _ => none
      else if name == bytes "max" then (candidates? args).bind (extreme? Ordering.isGT some)
      else if name == bytes "min" then (candidates? args).bind (extreme? Ordering.isLT some)
      else none
  | _ => none

/-- The value of a call with some values by name: `x` and `base` of `int`, `key` of `max` and `min`. -/
def callNamed? (f : Value) (args : List Value) (named : List (Bytes × Value)) : Option Value :=
  match f with
  | .function name =>
      if name == bytes "int" then
        match args, named with
        | [v], [(k, base)] => if k == bytes "base" then toInt? v (some base) else none
        | [], [(k, v)] => if k == bytes "x" then toInt? v none else none
        | [], [(j, v), (k, w)] =>
            if j == bytes "x" && k == bytes "base" then toInt? v (some w)
            else if j == bytes "base" && k == bytes "x" then toInt? w (some v)
            else none
        | _, _ => none
      else if name == bytes "max" || name == bytes "min" then
        match named with
        | [(k, .function key)] =>
            if k == bytes "key" then
              let better := if name == bytes "max" then Ordering.isGT else Ordering.isLT
              (candidates? args).bind (extreme? better fun v => callPlain? (.function key) [v])
            else none
        | _ => none
      else none
  | _ => none

/-- The value of a function call. -/
def call? (f : Value) (args : List Value) (named : List (Bytes × Value)) : Option Value :=
  if named.isEmpty then callPlain? f args else callNamed? f args named

/-- The names every expression knows: truth values and functions. -/
def universe? (name : Bytes) : Option Value :=
  if name == bytes "True" then some (.bool true)
  else if name == bytes "False" then some (.bool false)
  else if name == bytes "None" then some .nothing
  else if [bytes "abs", bytes "all", bytes "any", bytes "bool", bytes "bytes", bytes "chr", bytes "dict",
      bytes "dir", bytes "enumerate", bytes "fail", bytes "float", bytes "getattr", bytes "hasattr",
      bytes "hash", bytes "int", bytes "len", bytes "list", bytes "max", bytes "min", bytes "ord",
      bytes "print", bytes "range", bytes "repr", bytes "reversed", bytes "sorted", bytes "str",
      bytes "tuple", bytes "type", bytes "zip"].contains name then some (.function name)
  else none

end WordMachine.Assembly.Expression.Value
