import WordMachine.Assembly.Program

/-!
# `Assembly.Assembler` — equates, inclusion and both passes together

Contents:
* `Assembler`: predefined names, current equates, the library for include lines, and the interpreter;
* `Assembler.lex`: text to tokens, keeping the equates of earlier texts;
* `Assembler.parse`: text to a program, from fresh equates.
-/

namespace WordMachine.Assembly

/-- The equates that every text starts with. -/
def systemEquates : Equates :=
  Std.TreeMap.ofList [(lineNumberName, bytes "0"), (bytes "REGISTER_COUNT", bytes "16")] compare

/-- The settings and the equates of an assembler. There are no equates before the first use. Include
lines are followed only if there is a library, and expressions are what the interpreter takes them for. -/
structure Assembler where
  predefines : Equates := ∅
  equates? : Option Equates := none
  library? : Option Library := none
  interpreter : Interpreter := .refusing

namespace Assembler

/-- Define a name for every text to come. -/
def predefine (a : Assembler) (name text : Bytes) : Assembler :=
  { a with predefines := a.predefines.insert name text }

/-- Set an equate. -/
def equate (a : Assembler) (name text : Bytes) : Assembler :=
  { a with equates? := some ((a.equates?.getD ∅).insert name text) }

/-- The current equates. -/
def equates (a : Assembler) : Equates := a.equates?.getD ∅

/-- The system equates with the predefined names over them. -/
def initialEquates (a : Assembler) : Equates :=
  a.predefines.foldl (fun equates name text => equates.insert name text) systemEquates

/-- The scope of expressions before the first line. -/
def initialScope (a : Assembler) : Scope := ⟨a.initialEquates, a.interpreter⟩

/-- Forget all equates but the initial ones. -/
def reset (a : Assembler) : Assembler := { a with equates? := some a.initialEquates }

/-- Replace include lines, if there is a library for them. -/
def expand (a : Assembler) (text : Bytes) : Except Error Bytes :=
  match a.library? with
  | none => .ok text
  | some library =>
      match library.expand text with
      | .ok expanded => .ok expanded
      | .error e => .error (.inclusion e)

/-- The tokens of a text, and how many lines it has. -/
structure Lexed where
  tokens : List Token
  lineCount : Nat
  deriving DecidableEq, Repr

/-- What was lexed, in numbers. -/
def Lexed.summary (l : Lexed) : Bytes :=
  bytes "lexed " ++ Numeral.decimal l.tokens.length ++ bytes " tokens from "
    ++ Numeral.decimal l.lineCount ++ bytes " lines"

/-- The tokens of a text in a scope. -/
def tokenize (a : Assembler) (scope : Scope) (text : Bytes) : Except Error Lexed :=
  match a.expand text with
  | .error e => .error e
  | .ok expanded =>
      let lines := Bytes.lines expanded
      match lexLines scope 1 lines with
      | .error e => .error e
      | .ok tokens => .ok ⟨tokens, lines.length⟩

/-- The line that was read last, if any was. -/
def lastLine? : Except Error Lexed → Option Nat
  | .ok lexed => if lexed.lineCount = 0 then none else some lexed.lineCount
  | .error (.line number ..) => some number.toNat
  | .error _ => none

/-- The tokens of a text. The equates stay from one text to the next, the number of the last line read
included. -/
def lex (a : Assembler) (text : Bytes) : Except Error Lexed × Assembler :=
  let equates := a.equates?.getD a.initialEquates
  let result := a.tokenize ⟨equates, a.interpreter⟩ text
  let after :=
    match lastLine? result with
    | some number => equates.atNumber number
    | none => equates
  (result, { a with equates? := some after })

/-- Assemble a text from the initial equates. -/
def parse (a : Assembler) (text : Bytes) : Except Error Program × Assembler :=
  let (result, after) := a.reset.lex text
  match result with
  | .error e => (.error e, after)
  | .ok lexed => (assemble lexed.tokens, after)

end Assembler

end WordMachine.Assembly
