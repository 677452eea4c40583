import WordMachine.CommandLine.Options
import WordMachine.Report

/-!
# `CommandLine.Job` — what an invocation does

Contents:
* `Work`: files to save one after the other, then text to print or a failure;
* `Options.assembling`, `Options.compiling`, `disassembly`: the work of each job on its input;
* `Options.emulator`: the emulator that runs an image.
-/

namespace WordMachine.CommandLine

open Assembly (Interpreter)

/-- Files to save in order, then what is printed or why the job failed. The report knows the text that
line numbers refer to. -/
structure Work where
  saves : List (Bytes × Bytes) := []
  ending : Except Failure Bytes
  report : Report

/-- What is printed about a finished image: its size in units of 1024 bytes. -/
def finished (loc : Locale) (image : Image) : Bytes :=
  bytes "Finished compilation: " ++ loc.fixed 2 (Double.nearest image.size 1024)
    ++ bytes "KB (ALL OK).\n"

/-! ## Disassembly -/

/-- A place of an image in eight digits. -/
def placeText (pc : Nat) : Bytes := Numeral.padded 8 (Numeral.hex pc)

/-- The line of an entry; a data byte is also shown as a character if it is one. -/
def entryLine : Image.Entry → Bytes
  | .code pc i => placeText pc ++ bytes ": " ++ i.text
  | .data pc byte =>
      placeText pc ++ bytes ": ; 0x" ++ Numeral.padded 2 (Numeral.hex byte.toNat)
        ++ (if 0x20 ≤ byte ∧ byte < 0x7f then bytes " '" ++ Escape.encode [byte] ++ bytes "'" else [])

/-- The listing of an image. -/
def disassembly (image : Image) : Bytes := image.listing.flatMap fun e => entryLine e ++ bytes "\n"

namespace Options

/-- The report of an invocation; only on demand is it coloured. -/
def report (o : Options) : Report := { color := o.color == bytes "always" }

/-- The emulator of the command line. -/
def emulator (console : Console) (files : FileSystem) : Emulator :=
  { machine :=
      Machine.create Memory.defaultSize Machine.operandLimit Machine.returnLimit console files }

/-- The assembler of the command line: it knows the names of the emulator, and those of `-D` over
them. -/
def assembler (o : Options) (interpreter : Interpreter) : Assembly.Assembler :=
  o.defines.foldl (fun a name text => a.predefine name text)
    ((emulator {} (.store ∅)).assembler interpreter)

/-- Assemble a text. -/
def assembling (o : Options) (loc : Locale) (interpreter : Interpreter) (library : Library) (report : Report)
    (text : Bytes) : Work :=
  match library.expand text with
  | .error e => { ending := .error (.assembly (.inclusion e)), report := report }
  | .ok expanded =>
      let report := report.withText expanded
      match ((o.assembler interpreter).parse expanded).1 with
      | .error e => { ending := .error (.assembly e), report := report }
      | .ok program =>
          { saves := [(o.output, program.image.toList)]
            ending := .ok (finished loc program.image)
            report := report }

/-- Compile a text, save the generated assembly if asked to, and assemble it. -/
def compiling (o : Options) (loc : Locale) (interpreter : Interpreter) (library : Library) (report : Report)
    (text : Bytes) : Work :=
  match library.expand text with
  | .error e => { ending := .error (.source (.inclusion e)), report := report }
  | .ok expanded =>
      let report := report.withText expanded
      match Source.compile none expanded with
      | .error e => { ending := .error (.source e), report := report }
      | .ok compiled =>
          let work := o.assembling loc interpreter library report compiled.text
          if o.listing.isEmpty then work
          else { work with saves := (o.listing, compiled.text) :: work.saves }

/-- The work of a job on the contents of its input; running an image is another matter. -/
def work (o : Options) (loc : Locale) (interpreter : Interpreter) (library : Library) (text : Bytes) : Work :=
  if !o.compile.isEmpty then o.compiling loc interpreter library o.report text
  else if !o.assemble.isEmpty then o.assembling loc interpreter library o.report text
  else { ending := .ok (disassembly text.toArray), report := o.report }

end Options

end WordMachine.CommandLine
