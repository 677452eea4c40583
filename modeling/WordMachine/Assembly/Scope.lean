import WordMachine.Text.Numeral
import WordMachine.Text.Table

/-!
# `Assembly.Scope` — what operand expressions are evaluated in

An operand expression is assigned to a result name, and the program that does so is run by an interpreter.
The interpreter is a setting of the assembler: of a program it tells only which integer it leaves under a name.

Contents:
* `Equates`, `Interpreter`, `Scope`;
* `Scope.evaluate?`: the word that an expression stands for.
-/

namespace WordMachine.Assembly

/-- Names with their texts, visible to expressions if the text is an integer. -/
abbrev Equates := Table

/-- Runs a program in which some names stand for integers, and gives the integer that it leaves under a
name, if it runs to its end and leaves one there. -/
structure Interpreter where
  run? : (known : Bytes → Option Int) → (program name : Bytes) → Option Int

/-- The interpreter that refuses all programs. -/
def Interpreter.refusing : Interpreter := ⟨fun _ _ _ => none⟩

/-- The equates that a line sees, and the interpreter of its expressions. -/
structure Scope where
  equates : Equates := ∅
  interpreter : Interpreter := .refusing

/-- The equate that holds the number of the line being read. -/
def lineNumberName : Bytes := bytes "LINENO"

/-- Equates as a line sees them. -/
def Equates.atNumber (equates : Equates) (number : Nat) : Equates :=
  equates.insert lineNumberName (Numeral.decimal number)

namespace Scope

/-- The scope as a line sees it. -/
def atNumber (s : Scope) (number : Nat) : Scope := { s with equates := s.equates.atNumber number }

/-- The integer that a name stands for. -/
def known? (s : Scope) (name : Bytes) : Option Int := (s.equates[name]?).bind Numeral.literal?

/-- The name that an operand expression is assigned to. -/
def resultName : Bytes := bytes "rc"

/-- The program that assigns an expression to the result name. The text may go on with further
statements. -/
def program (text : Bytes) : Bytes := resultName ++ bytes "=" ++ text ++ bytes "\n"

/-- The word that a text evaluates to: an integer of a signed or an unsigned word. -/
def evaluate? (s : Scope) (text : Bytes) : Option UInt64 :=
  match s.interpreter.run? s.known? (program text) resultName with
  | some n => if -(Nat.pow 2 63 : Int) ≤ n ∧ n < (Nat.pow 2 64 : Int) then some (UInt64.ofInt n) else none
  | none => none

end Scope

end WordMachine.Assembly
