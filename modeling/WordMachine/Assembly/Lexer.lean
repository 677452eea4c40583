import WordMachine.Assembly.Draft
import WordMachine.Assembly.Lexeme
import WordMachine.Assembly.Scope
import WordMachine.Include

/-!
# `Assembly.Lexer` — assembly text to tokens

Every line is read by itself, lexeme by lexeme; the first lexeme that is malformed, has no value or does
not fit the open operand slots refuses the line.

Contents:
* `Error`: a refused line or token, a label without a place, a failed inclusion;
* `Lexeme.token`: the token of a lexeme;
* `lexLine`, `lexLines`.
-/

namespace WordMachine.Assembly

/-! ## Errors -/

/-- Why a label has no place, or more than one. -/
inductive LabelCause where
  | duplicate (name : Bytes)
  | missing (name : Bytes)
  deriving DecidableEq, Repr

/-- The wording of a label cause. -/
def LabelCause.message : LabelCause → Bytes
  | .duplicate name => bytes "label duplicated: " ++ name
  | .missing name => bytes "label '" ++ name ++ bytes "' does not exist"

/-- Why assembly text or tokens are refused. -/
inductive Error where
  /-- A line, or a token of it, is malformed. -/
  | line (number : Int) (text : Bytes) (cause : Cause)
  | label (number : Int) (cause : LabelCause)
  | inclusion (e : IncludeError)
  deriving DecidableEq, Repr

/-- The wording of an error located at a line alone. -/
def atLine (loc : Locale) (number : Int) (cause : Bytes) : Bytes :=
  bytes "line " ++ loc.integer number ++ bytes " " ++ cause

/-- The wording of an error. -/
def Error.message (loc : Locale) : Error → Bytes
  | .line number text cause => located loc number text cause.message
  | .label number cause => atLine loc number cause.message
  | .inclusion e => e.message loc

/-! ## Tokens of lexemes -/

/-- The literal that stands for an expression: its value, cut to the width. -/
def expressionText (scope : Scope) (width : Width) (text : Bytes) : Except Cause Bytes :=
  match scope.evaluate? text with
  | none => .error (.expression text)
  | some value =>
      let n := match width with
        | .narrow => value.toNat % Nat.pow 2 32
        | .wide => value.toNat
      .ok (bytes "0x" ++ Numeral.hex n)

/-- A token that must have a value. -/
def valued (t : Token) : Except Cause Token :=
  match t.value with
  | .ok _ => .ok t
  | .error cause => .error cause

/-- The token of a lexeme on a line. -/
def Lexeme.token (scope : Scope) (line : Int) : Lexeme → Except Cause Token
  | .word w => if (Operation.ofMnemonic? w).isSome then .ok ⟨.instruction, w, line⟩ else .error (.wordUnknown w)
  | .register digits =>
      let t : Token := ⟨.register, digits, line⟩
      match t.register with
      | .ok _ => .ok t
      | .error cause => .error cause
  | .labelDefinition name => .ok ⟨.labelDefinition, name, line⟩
  | .labelUse name => .ok ⟨.labelUse, name, line⟩
  | .number width text => valued ⟨width.kind, text, line⟩
  | .expression width text =>
      match expressionText scope width text with
      | .ok literal => valued ⟨width.kind, literal, line⟩
      | .error cause => .error cause
  | .string raw => .ok ⟨.string, raw, line⟩
  | .char raw => valued ⟨.char, raw, line⟩

/-! ## Lines -/

/-- Offer the tokens of a text to a draft. -/
def lexFrom (scope : Scope) (line : Int) (draft : Draft) (text : Bytes) : Except Cause Draft :=
  match h : Lexeme.next text with
  | .error cause => .error cause
  | .ok none => .ok draft
  | .ok (some (lexeme, rest)) =>
      match lexeme.token scope line with
      | .error cause => .error cause
      | .ok token =>
          match draft.offer token with
          | .error cause => .error cause
          | .ok next =>
              have := Lexeme.length_lt_of_next h
              lexFrom scope line next rest
  termination_by text.length

/-- The tokens of one line. -/
def lexLine (scope : Scope) (number : Nat) (text : Bytes) : Except Error (List Token) :=
  match lexFrom scope number {} text with
  | .error cause => .error (.line number text cause)
  | .ok draft =>
      match draft.finish with
      | .error cause => .error (.line number text cause)
      | .ok tokens => .ok tokens

/-- The tokens of lines, which are numbered from `number` on. -/
def lexLines (scope : Scope) : Nat → List Bytes → Except Error (List Token)
  | _, [] => .ok []
  | number, line :: rest =>
      match lexLine (scope.atNumber number) number line with
      | .error e => .error e
      | .ok tokens =>
          match lexLines scope (number + 1) rest with
          | .error e => .error e
          | .ok more => .ok (tokens ++ more)

end WordMachine.Assembly
