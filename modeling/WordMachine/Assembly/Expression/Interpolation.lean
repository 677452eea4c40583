import WordMachine.Assembly.Expression.Value
import WordMachine.Text.Decimal
import WordMachine.Text.Quoted

/-!
# `Assembly.Expression.Interpolation` — values set into texts

A text with slots takes a value for each of them: a percent sign and a letter that tells how the value
is written. A tuple gives one value to each slot, any other value is the only one.

Contents: `Value.shown`, `Value.converted?`, `Value.interpolate?`.
-/

namespace WordMachine.Assembly.Expression.Value

/-- A double by a letter: with the fewest digits that read back, and a point or an exponent among them,
or with six places. -/
def shownDouble (letter : UInt8) (w : UInt64) : Bytes :=
  let sign := if Double.isNegative w then bytes "-" else []
  if Double.isNaN w then bytes "nan"
  else if !Double.isFinite w then (if Double.isNegative w then bytes "-inf" else bytes "+inf")
  else if letter = 0x67 ∨ letter = 0x47 then
    let text := Double.written letter none w
    sign ++ text ++ (if text.any fun c => c == Ascii.dot || c == 0x65 || c == 0x45 then [] else bytes ".0")
  else sign ++ Double.written letter (some 6) w

/-- Texts with a comma and a blank between them. -/
def commaSeparated : List Bytes → Bytes
  | [] => []
  | first :: rest => first ++ rest.flatMap (bytes ", " ++ ·)

mutual

/-- A value as it would be written in an expression. -/
def shown : Value → Bytes
  | .int n => Numeral.signed n
  | .float w => shownDouble 0x67 w
  | .text s => Quoted.encode s
  | .octets s => bytes "b" ++ Quoted.encode s
  | .bool b => bytes (if b then "True" else "False")
  | .nothing => bytes "None"
  | .list xs => bytes "[" ++ commaSeparated (shownAll xs) ++ bytes "]"
  | .tuple xs =>
      bytes "(" ++ commaSeparated (shownAll xs) ++ bytes (if xs.length = 1 then ",)" else ")")
  | .function name => bytes "<built-in function " ++ name ++ bytes ">"

/-- Values as they would be written in an expression. -/
def shownAll : List Value → List Bytes
  | [] => []
  | x :: xs => shown x :: shownAll xs

end

/-- The integer that a number stands for, toward zero. -/
def integer? : Value → Option Int
  | .int n => some n
  | .float w => if Double.isFinite w then some (Double.truncate w) else none
  | _ => none

/-- An integer in a base, with a minus sign if it is negative. -/
def inBase (base : Nat) (n : Int) : Bytes :=
  (if n < 0 then bytes "-" else []) ++ Numeral.render base n.natAbs

/-- The scalar value of the only character of a text. An invalid byte counts as the replacement
character. -/
def ordinal? (s : Bytes) : Option Nat :=
  match Utf8.units s with
  | [(value, _)] => some (value.getD 0xfffd)
  | _ => none

/-- The scalar value that a number or a text of one character stands for. -/
def scalar? : Value → Option Nat
  | .int n =>
      if n < 0 ∨ 0x10ffff < n then none
      else some (if 0xd800 ≤ n ∧ n ≤ 0xdfff then 0xfffd else n.toNat)
  | .text s => ordinal? s
  | _ => none

/-- A value written by a letter, if it takes the value. -/
def converted? (letter : UInt8) (v : Value) : Option Bytes :=
  if letter = 0x73 then
    match v with
    | .text s => some s
    | v => some v.shown
  else if letter = 0x72 then some v.shown
  else if letter = 0x64 ∨ letter = 0x69 then v.integer?.map (inBase 10)
  else if letter = 0x6f then v.integer?.map (inBase 8)
  else if letter = 0x78 then v.integer?.map (inBase 16)
  else if letter = 0x58 then v.integer?.map fun n => Numeral.upper (inBase 16 n)
  else if (bytes "efgEFG").contains letter then
    match v with
    | .float w => some (shownDouble letter w)
    | .int n => some (shownDouble letter (Double.ofInt n))
    | _ => none
  else if letter = 0x63 then v.scalar?.map Utf8.encode
  else none

/-- The rest of a text with the values left set into it; every value is used. -/
def setInto? (values : List Value) : Bytes → Option Bytes
  | [] => if values.isEmpty then some [] else none
  | c :: rest =>
      if c ≠ 0x25 then (setInto? values rest).map (c :: ·)
      else
        match rest with
        | [] => none
        | letter :: rest =>
            if letter = 0x25 then (setInto? values rest).map (letter :: ·)
            else
              match values with
              | [] => none
              | v :: values =>
                  (converted? letter v).bind fun text => (setInto? values rest).map (text ++ ·)

/-- A text with a value set into it. -/
def interpolate? (text : Bytes) : Value → Option Bytes
  | .tuple vs => setInto? vs text
  | v => setInto? [v] text

end WordMachine.Assembly.Expression.Value
