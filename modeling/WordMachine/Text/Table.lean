import Std.Data.TreeMap
import WordMachine.Text.Bytes

/-!
# `Text.Table` — texts by name

Contents: `Table`, `Table.chain`.
-/

namespace WordMachine

/-- Texts by name, in byte order of the names. -/
abbrev Table := Std.TreeMap Bytes Bytes

/-- The entries of tables, one table after the other. -/
def Table.chain (tables : List Table) : List (Bytes × Bytes) := tables.flatMap fun t => t.toList

end WordMachine
