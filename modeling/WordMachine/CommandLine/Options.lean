import WordMachine.Locale.Tag
import WordMachine.Text.Quoted
import WordMachine.Text.Table

/-!
# `CommandLine.Options` — the arguments of the command line

A flag is `-name` or `--name`, its value the text after an equals sign or the next argument. Flags end at
the first other argument or after `--`.

Contents:
* `Defines.set?`, `Defines.text`: the names defined by `-D`;
* `Options`, `FlagError`, `UsageError`;
* `Flag.read`: the parts of a flag;
* `Options.parse`.
-/

namespace WordMachine.CommandLine

/-! ## Defines -/

namespace Defines

/-- Why a definition is refused. -/
def refusal : Bytes := bytes "define must be NAME=VALUE with an integer VALUE"

/-- Add a definition `NAME=VALUE`, whose value must be an integer. -/
def set? (d : Table) (text : Bytes) : Option Table :=
  match Bytes.cut? Ascii.equals text with
  | none => none
  | some (name, value) =>
      if name.isEmpty || (Numeral.literal? value).isNone then none else some (d.insert name value)

/-- All definitions, sorted by their texts. -/
def text (d : Table) : Bytes :=
  List.intercalate (bytes ",")
    ((d.toList.map fun e => e.1 ++ Ascii.equals :: e.2).mergeSort Bytes.le)

end Defines

/-! ## Options -/

/-- The options of an invocation. -/
structure Options where
  compile : Bytes := []
  assemble : Bytes := []
  run : Bytes := []
  disassemble : Bytes := []
  output : Bytes := bytes "out.bin"
  listing : Bytes := []
  color : Bytes := bytes "auto"
  language : Bytes := []
  verbose : Bool := false
  defines : Table := ∅

/-- A flag that is refused. -/
inductive FlagError where
  | malformed (arg : Bytes)
  | unknown (name : Bytes)
  | valueMissing (name : Bytes)
  | notBoolean (name value : Bytes)
  | badDefine (value : Bytes)
  deriving DecidableEq, Repr

/-- The wording of a refused flag. -/
def FlagError.message : FlagError → Bytes
  | .malformed arg => bytes "bad flag syntax: " ++ arg
  | .unknown name => bytes "flag provided but not defined: -" ++ name
  | .valueMissing name => bytes "flag needs an argument: -" ++ name
  | .notBoolean name value =>
      bytes "invalid boolean value " ++ Quoted.encode value ++ bytes " for -" ++ name
        ++ bytes ": parse error"
  | .badDefine value =>
      bytes "invalid value " ++ Quoted.encode value ++ bytes " for flag -D: " ++ Defines.refusal

/-- Why no job is done. -/
inductive UsageError where
  /-- The usage was asked for. -/
  | help
  | flag (e : FlagError)
  | unknownArguments (args : List Bytes)
  | mode
  | color
  | language (e : TagError)
  deriving DecidableEq, Repr

/-- The wording of a usage error. -/
def UsageError.message : UsageError → Bytes
  | .help => []
  | .flag e => e.message
  | .unknownArguments args =>
      bytes "unknown arguments: [" ++ List.intercalate (bytes " ") args ++ bytes "]"
  | .mode => bytes "exactly one of -c, -a, -r or -d is required"
  | .color => bytes "color must be one of auto, always or never"
  | .language e => e.message

/-- The usage. -/
def usage : Bytes := bytes "Usage of vml:
  -D value
    \tPredefine NAME=VALUE for $(...) expressions (repeatable)
  -S string
    \tSave generated assembly (with -c)
  -a string
    \t.asm file to assemble
  -c string
    \t.vml source file to compile
  -color string
    \tColorize errors: auto, always or never (default \"auto\")
  -d string
    \timage file to disassemble
  -lang string
    \tMessage language, overriding the host locale
  -o string
    \tImage output (default \"out.bin\")
  -r string
    \timage file to run
  -v\tVerbose mode
"

/-! ## Flags -/

/-- What an argument is. -/
inductive Flag where
  /-- No flag, so flags end before it. -/
  | other
  /-- The mark that ends the flags. -/
  | finish
  | malformed
  | named (name : Bytes) (value : Option Bytes)
  deriving DecidableEq, Repr

namespace Flag

/-- The name and value of a flag; an equals sign cannot come first. -/
def ofName (text : Bytes) : Flag :=
  match text with
  | [] => .malformed
  | c :: rest =>
      if c = Ascii.minus ∨ c = Ascii.equals then .malformed
      else
        match Bytes.cut? Ascii.equals rest with
        | some (name, value) => .named (c :: name) (some value)
        | none => .named text none

/-- Read an argument. -/
def read (arg : Bytes) : Flag :=
  match arg with
  | a :: b :: rest =>
      if a ≠ Ascii.minus then .other
      else if b = Ascii.minus then (if rest.isEmpty then .finish else ofName rest)
      else ofName (b :: rest)
  | _ => .other

end Flag

/-- The truth value that a text stands for. -/
def boolean? (text : Bytes) : Option Bool :=
  if [bytes "1", bytes "t", bytes "T", bytes "TRUE", bytes "true", bytes "True"].contains text then
    some true
  else if [bytes "0", bytes "f", bytes "F", bytes "FALSE", bytes "false", bytes "False"].contains text
  then some false
  else none

namespace Options

/-- Set the value of a flag; `none` if there is no such flag. -/
def set? (o : Options) (name value : Bytes) : Option (Except FlagError Options) :=
  if name = bytes "c" then some (.ok { o with compile := value })
  else if name = bytes "a" then some (.ok { o with assemble := value })
  else if name = bytes "r" then some (.ok { o with run := value })
  else if name = bytes "d" then some (.ok { o with disassemble := value })
  else if name = bytes "o" then some (.ok { o with output := value })
  else if name = bytes "S" then some (.ok { o with listing := value })
  else if name = bytes "color" then some (.ok { o with color := value })
  else if name = bytes "lang" then some (.ok { o with language := value })
  else if name = bytes "D" then
    match Defines.set? o.defines value with
    | some defines => some (.ok { o with defines := defines })
    | none => some (.error (.badDefine value))
  else none

/-- Whether a flag takes a value. -/
def takesValue (name : Bytes) : Bool := (set? {} name []).isSome

/-- Set the flag that needs no value. -/
def setVerbose (o : Options) (name : Bytes) (value : Option Bytes) : Except FlagError Options :=
  match value with
  | none => .ok { o with verbose := true }
  | some text =>
      match boolean? text with
      | some b => .ok { o with verbose := b }
      | none => .error (.notBoolean name text)

/-- Set a flag that takes a value. -/
def assign (o : Options) (name value : Bytes) : Except UsageError Options :=
  match o.set? name value with
  | some (.ok o) => .ok o
  | some (.error e) => .error (.flag e)
  | none => .error (.flag (.unknown name))

/-- Read flags; the arguments after them are left. -/
def flags (o : Options) : List Bytes → Except UsageError (Options × List Bytes)
  | [] => .ok (o, [])
  | arg :: rest =>
      match Flag.read arg with
      | .other => .ok (o, arg :: rest)
      | .finish => .ok (o, rest)
      | .malformed => .error (.flag (.malformed arg))
      | .named name value =>
          if name = bytes "v" then
            match o.setVerbose name value with
            | .ok o => flags o rest
            | .error e => .error (.flag e)
          else if takesValue name then
            match value with
            | some text =>
                match o.assign name text with
                | .ok o => flags o rest
                | .error e => .error e
            | none =>
                match rest with
                | [] => .error (.flag (.valueMissing name))
                | text :: tail =>
                    match o.assign name text with
                    | .ok o => flags o tail
                    | .error e => .error e
          else if name = bytes "help" ∨ name = bytes "h" then .error .help
          else .error (.flag (.unknown name))

/-- The file names of the four modes. -/
def modes (o : Options) : List Bytes := [o.compile, o.assemble, o.run, o.disassemble]

/-- The input file: the one of the mode chosen. -/
def input (o : Options) : Bytes := (o.modes.find? fun m => !m.isEmpty).getD []

/-- The values that `-color` takes. -/
def colors : List Bytes := [bytes "auto", bytes "always", bytes "never"]

/-- Read all arguments and check that they name one job. -/
def parse (args : List Bytes) : Except UsageError Options :=
  match flags {} args with
  | .error e => .error e
  | .ok (o, rest) =>
      if !rest.isEmpty then .error (.unknownArguments rest)
      else if o.modes.countP (fun m => !m.isEmpty) ≠ 1 then .error .mode
      else if !colors.contains o.color then .error .color
      else .ok o

end Options

end WordMachine.CommandLine
