import WordMachine.Instruction
import WordMachine.Text.Escape

/-!
# `Assembly.Token` — tokens of assembly text and their values

Contents:
* `Cause`: why a line or a token is refused;
* `Kind`, `Token`, `Token.operand?`;
* `hexLiteral?`: hexadecimal literals in two's complement;
* `Token.register`, `Token.value`.
-/

namespace WordMachine.Assembly

/-- Why a line of assembly or a token of it is refused. -/
inductive Cause where
  | operandCount
  | operandKind
  | escapeUnknown
  | stringUnterminated
  | charUnterminated
  | charLength
  | registerInvalid
  | labelEmpty
  | numberInvalid
  | wordUnknown (word : Bytes)
  | expression (text : Bytes)
  deriving DecidableEq, Repr

/-- The wording of a cause. -/
def Cause.message : Cause → Bytes
  | .operandCount => bytes "invalid operands for instruction"
  | .operandKind => bytes "operand kind mismatch"
  | .escapeUnknown => bytes "unknown escape sequence"
  | .stringUnterminated => bytes "unclosed delimiter (did you forget a \"?)"
  | .charUnterminated => bytes "unclosed character literal"
  | .charLength => bytes "character literal must hold exactly one character"
  | .registerInvalid => bytes "register invalid"
  | .labelEmpty => bytes "label name missing"
  | .numberInvalid => bytes "number invalid"
  | .wordUnknown word => bytes "'" ++ word ++ bytes "' is not an instruction or operand"
  | .expression text => bytes "$(" ++ text ++ bytes ") is not a valid expression"

/-! ## Tokens -/

/-- The kind of a token. Token streams from elsewhere may carry numbers that are no kind. -/
inductive Kind where
  | instruction
  | labelDefinition
  | labelUse
  | int32
  | int64
  | string
  | register
  | char
  | unassigned (number : Int)
  deriving DecidableEq, Repr

namespace Kind

/-- The kind with a number. -/
def ofNumber : Int → Kind
  | 0 => .instruction
  | 1 => .labelDefinition
  | 2 => .labelUse
  | 3 => .int32
  | 4 => .int64
  | 5 => .string
  | 6 => .register
  | 7 => .char
  | n => .unassigned n

/-- The name of a kind. -/
def name : Kind → Bytes
  | .instruction => bytes "instruction"
  | .labelDefinition => bytes "label definition"
  | .labelUse => bytes "label use"
  | .int32 => bytes "int32"
  | .int64 => bytes "int64"
  | .string => bytes "string"
  | .register => bytes "register"
  | .char => bytes "char"
  | .unassigned n => bytes "Kind(" ++ Numeral.signed n ++ bytes ")"

/-- The operand slot that a token of this kind fills. -/
def operand? : Kind → Option Operand
  | .register => some .register
  | .int32 | .labelUse | .char => some .imm32
  | .int64 => some .imm64
  | _ => none

end Kind

/-- A token: the text is the mnemonic of an instruction, the bare name of a label, the hexadecimal
literal of a number, the decimal number of a register, or the raw text between quotes. -/
structure Token where
  kind : Kind
  text : Bytes
  line : Int
  deriving DecidableEq, Repr

/-- The value of a hexadecimal literal of a width in bits: an optional minus sign, `0x` or `0X`, and
digits of a magnitude below `2 ^ bits`; a negative one is taken in two's complement. -/
def hexLiteral? (bits : Nat) (text : Bytes) : Option Nat :=
  let (negative, rest) :=
    match text with
    | [] => (false, [])
    | c :: rest => if c = Ascii.minus then (true, rest) else (false, c :: rest)
  match rest with
  | z :: x :: digits =>
      if z = Ascii.zero ∧ (x = 0x78 ∨ x = 0x58) then
        (Numeral.word? 16 bits digits).map fun n =>
          if negative then (Nat.pow 2 bits - n) % Nat.pow 2 bits else n
      else none
  | _ => none

namespace Token

/-- The kind and text, as `kind(text)`. -/
def describe (t : Token) : Bytes := t.kind.name ++ bytes "(" ++ t.text ++ bytes ")"

/-- The operand slot that a token fills. -/
def operand? (t : Token) : Option Operand := t.kind.operand?

/-- The register that the text names. -/
def register (t : Token) : Except Cause Register :=
  match Numeral.signed? t.text with
  | some n => if h : 0 ≤ n ∧ n < 16 then .ok ⟨n.toNat, by omega⟩ else .error .registerInvalid
  | none => .error .registerInvalid

/-- The value of a number or character token. -/
def value (t : Token) : Except Cause UInt64 :=
  let number (bits : Nat) : Except Cause UInt64 :=
    match hexLiteral? bits t.text with
    | some n => .ok n.toUInt64
    | none => .error .numberInvalid
  match t.kind with
  | .int32 => number 32
  | .int64 => number 64
  | .char =>
      match Escape.decode? t.text with
      | none => .error .escapeUnknown
      | some [b] => .ok b.toNat.toUInt64
      | some _ => .error .charLength
  | _ => .error .operandKind

end Token

end WordMachine.Assembly
