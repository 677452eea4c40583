import WordMachine.Text.Numeral

/-!
# `Journal` — what the parts of the toolchain report about their work

Contents: `Journal.Level`, `Journal.Field`, `Journal.Entry`, `Journal.keep`.
-/

namespace WordMachine.Journal

/-- How much an entry matters. -/
inductive Level where
  | debug
  | info
  | warn
  deriving DecidableEq, Repr

namespace Level

/-- The name of a level. -/
def name : Level → Bytes
  | .debug => bytes "debug"
  | .info => bytes "info"
  | .warn => bytes "warn"

/-- The place of a level among all, least first. -/
def rank : Level → Nat
  | .debug => 0
  | .info => 1
  | .warn => 2

/-- The level of work that is only interesting to a verbose reader. -/
def ofVerbose (verbose : Bool) : Level := if verbose then .info else .debug

end Level

/-- The value of a field. -/
inductive Field where
  | number (n : Int)
  | text (t : Bytes)
  deriving DecidableEq, Repr

/-- An entry: who reports, how much it matters, what happened, and named details. -/
structure Entry where
  origin : Bytes
  level : Level
  message : Bytes
  fields : List (Bytes × Field) := []
  deriving DecidableEq, Repr

/-- The text of a field. -/
def Field.show : Field → Bytes
  | .number n => Numeral.signed n
  | .text t => t

/-- An entry on one line: level, origin and message, then the fields. -/
def Entry.text (e : Entry) : Bytes :=
  e.level.name ++ bytes " " ++ e.origin ++ bytes ": " ++ e.message
    ++ e.fields.flatMap fun f => bytes " " ++ f.1 ++ bytes "=" ++ f.2.show

/-- The entries at or above a level. -/
def keep (least : Level) (entries : List Entry) : List Entry :=
  entries.filter fun e => least.rank ≤ e.level.rank

end WordMachine.Journal
