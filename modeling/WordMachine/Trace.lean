import WordMachine.Emulator
import WordMachine.Journal
import WordMachine.Source.Compiler

/-!
# `Trace` — journal entries of the toolchain at work

Entries are read off inputs and states; they are no part of any result.

Contents:
* `Assembler.lexEntries`, `Assembler.parseEntries`, `lowerEntries`: the assembler's entries;
* `Source.entriesOf`: the compiler's entries;
* `Machine.tickEntries`, `Machine.runEntries`, `Emulator.resetEntries`: the entries of a run.
-/

namespace WordMachine

open Journal (Entry Level)

/-! ## Assembler and compiler -/

namespace Assembly

/-- The entries of lowering tokens. -/
def lowerEntries (origin : Bytes) (verbose : Bool) (ts : List Token) : List Entry :=
  match lower ts with
  | .ok r => [{ origin := origin, level := .ofVerbose verbose, message := r.summary }]
  | .error _ => []

namespace Assembler

/-- Who reports for an assembler on its own. -/
def journalName : Bytes := bytes "asm"

/-- The entries of lexing a text. -/
def lexEntries (a : Assembler) (origin : Bytes) (verbose : Bool) (text : Bytes) : List Entry :=
  match (a.lex text).1 with
  | .ok lexed => [{ origin := origin, level := .ofVerbose verbose, message := lexed.summary }]
  | .error _ => []

/-- The entries of assembling a text. -/
def parseEntries (a : Assembler) (origin : Bytes) (verbose : Bool) (text : Bytes) : List Entry :=
  a.reset.lexEntries origin verbose text ++
    match (a.reset.lex text).1 with
    | .ok lexed => lowerEntries origin verbose lexed.tokens
    | .error _ => []

end Assembler

end Assembly

namespace Source

/-- Who reports for the compiler. -/
def journalName : Bytes := bytes "compiler"

/-- The entries of a compilation with the given result. -/
def entriesOf (verbose : Bool) : Except Error Compiled → List Entry
  | .ok c => [{ origin := journalName, level := .ofVerbose verbose, message := c.summary }]
  | .error _ => []

end Source

/-! ## Machine and emulator -/

namespace Machine

/-- Who reports for the machine. -/
def journalName : Bytes := bytes "cpu"

/-- The entries of a reset. -/
def resetEntries (verbose : Bool) : List Entry :=
  if verbose then [{ origin := journalName, level := .info, message := bytes "reset" }] else []

/-- The entry of an instruction about to be executed. -/
def executeEntry (m : Machine) (verbose : Bool) (i : Instruction) : Entry :=
  { origin := journalName
    level := .ofVerbose verbose
    message := bytes "exec"
    fields := [(bytes "pc", .number m.pc), (bytes "inst", .text i.text)] }

/-- The entry of a trap. -/
def trapEntry (loc : Locale) (t : Trap) : Entry :=
  { origin := journalName
    level := .warn
    message := bytes "fault"
    fields :=
      [(bytes "pc", .number t.pc), (bytes "opcode", .text t.opcode.name),
       (bytes "error", .text (t.message loc))] }

/-- The entries of a tick. -/
def tickEntries (m : Machine) (loc : Locale) (verbose : Bool) : List Entry :=
  if m.isHalted then []
  else
    let executed :=
      match m.fetch with
      | .ok i => [m.executeEntry verbose i]
      | .error _ => []
    executed ++
      match m.tick.2 with
      | .trapped t => [trapEntry loc t]
      | _ => []

/-- The entries of a run. -/
def runEntries (loc : Locale) (verbose : Bool) : Nat → Machine → List Entry
  | 0, _ => []
  | fuel + 1, m =>
      m.tickEntries loc verbose ++
        match m.tick with
        | (m, .ran) => runEntries loc verbose fuel m
        | _ => []

end Machine

namespace Emulator

/-- Who reports for the emulator. -/
def journalName : Bytes := bytes "emulator"

/-- Who reports for the assembler of an emulator. -/
def assemblerName : Bytes := journalName ++ bytes "." ++ Assembly.Assembler.journalName

/-- The entries of a reset. -/
def resetEntries (e : Emulator) (verbose : Bool) : List Entry :=
  Machine.resetEntries verbose ++
    if verbose then
      [{ origin := journalName
         level := .info
         message := bytes "reset"
         fields := [(bytes "image", .number e.program.image.size)] }]
    else []

end Emulator

end WordMachine
