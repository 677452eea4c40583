import WordMachine.Emulator
import WordMachine.Source.Compiler

/-!
# `Report` — failures shown to a person

A failure is shown with its line, if it has one, and the line is underlined.

Contents:
* `Diagnostic`: what went wrong, and where;
* `Failure`: the ways a job can fail, and their diagnostics;
* `Report`: whether to colour, and the text that line numbers refer to; `Report.render`.
-/

namespace WordMachine

/-! ## Diagnostics -/

/-- A message, and the line it is about. -/
inductive Diagnostic where
  | plain (message : Bytes)
  /-- About a line of the text at hand; the excerpt stands in if the text has no such line. -/
  | line (number : Int) (excerpt message : Bytes)
  /-- About a line that may be in another file, so only the excerpt is known. -/
  | elsewhere (number : Int) (excerpt message : Bytes)
  deriving DecidableEq, Repr

namespace Diagnostic

/-- The diagnostic of an include error. -/
def ofInclude (e : IncludeError) : Diagnostic := .elsewhere e.line e.text e.cause.message

/-- The diagnostic of an assembly error. -/
def ofAssembly : Assembly.Error → Diagnostic
  | .line number text cause => .line number text cause.message
  | .label number cause => .line number [] cause.message
  | .inclusion e => ofInclude e

/-- The diagnostic of a source error. -/
def ofSource (loc : Locale) : Source.Error → Diagnostic
  | .line number text cause => .line number text cause.message
  | .inclusion e => ofInclude e
  | .mainMissing => .plain (Source.Error.mainMissing.message loc)

/-- The diagnostic of a trap that reads `cause`, at a place and its line. -/
def ofTrap (loc : Locale) (pc line : Int) (cause : Bytes) : Diagnostic :=
  if line = 0 then .plain (RuntimeError.describe loc pc line cause) else .line line [] cause

/-- The line number; zero if there is none. -/
def number : Diagnostic → Int
  | .plain _ => 0
  | .line number .. | .elsewhere number .. => number

/-- The message alone. -/
def message : Diagnostic → Bytes
  | .plain message | .line _ _ message | .elsewhere _ _ message => message

end Diagnostic

/-! ## Failures -/

/-- Why a job failed. -/
inductive Failure where
  | path (e : PathError)
  | assembly (e : Assembly.Error)
  | source (e : Source.Error)
  | runtime (e : RuntimeError)
  | host (failure : HostFailure)
  deriving DecidableEq, Repr

namespace Failure

/-- The diagnostic of a failure. -/
def diagnostic (loc : Locale) : Failure → Diagnostic
  | .path e => .plain e.message
  | .assembly e => .ofAssembly e
  | .source e => .ofSource loc e
  | .runtime e => .ofTrap loc e.pc e.line (e.trap.message loc)
  | .host failure => .plain failure.message

/-- The path error within an include error. -/
def pathOfInclude? (e : IncludeError) : Option PathError :=
  match e.cause with
  | .path p => some p
  | .malformed => none

/-- The path error at the bottom of a failure. -/
def pathError? : Failure → Option PathError
  | .path e => some e
  | .assembly (.inclusion e) | .source (.inclusion e) => pathOfInclude? e
  | .runtime ⟨_, _, _, _, .host failure⟩ => failure.pathError?
  | .host failure => failure.pathError?
  | _ => none

end Failure

/-! ## Reports -/

/-- Whether a report is coloured, and the lines that numbers refer to. -/
structure Report where
  color : Bool := false
  lines : List Bytes := []

namespace Report

/-- Let line numbers refer to a text. -/
def withText (r : Report) (text : Bytes) : Report := { r with lines := text.splitOn Ascii.newline }

/-- A line of the text at hand. -/
def line? (r : Report) (number : Int) : Option Bytes :=
  if number < 1 then none else r.lines[(number - 1).toNat]?

/-- The line to show for a diagnostic. -/
def excerpt (r : Report) : Diagnostic → Bytes
  | .plain _ => []
  | .line number text _ => (r.line? number).getD text
  | .elsewhere _ text _ => text

/-- Colour a text as an error. -/
def paint (r : Report) (text : Bytes) : Bytes :=
  if r.color then bytes "\x1b[31m\x1b[4m" ++ text ++ bytes "\x1b[0m" else text

/-- Underline a line: a mark under each of its bytes, the last one an arrow. -/
def underline (r : Report) (text : Bytes) : Bytes :=
  let marks := List.replicate (text.length - 1) 0x7e ++ bytes "^"
  if r.color then
    bytes "\x1b[93m\x1b[1mHere ->\t\x1b[22m\x1b[94m" ++ marks ++ bytes "\x1b[0m\n"
  else bytes "Here ->\t" ++ marks ++ bytes "\n"

/-- Show a diagnostic. A line of blanks alone is not shown. -/
def render (r : Report) (loc : Locale) (d : Diagnostic) : Bytes :=
  if d.number = 0 then r.paint (bytes "Error: " ++ d.message) ++ bytes "\n"
  else
    let head :=
      r.paint (bytes "Error on line " ++ loc.integer d.number ++ bytes ": " ++ d.message) ++ bytes "\n"
    let text := Bytes.dropRightWhile Source.isBlank (r.excerpt d)
    if (Bytes.trim text).isEmpty then head
    else head ++ bytes "\t" ++ text ++ bytes "\n" ++ r.underline text

end Report

end WordMachine
