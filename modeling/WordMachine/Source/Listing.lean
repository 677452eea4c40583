import WordMachine.Opcode

/-!
# `Source.Listing` — assembly code as the compiler writes it

Generated code is a list of lines, each with a fixed layout; labels are values, and their names are
chosen so that no two labels share one.

Contents: `Label`, `Argument`, `Line` with its text, `render`.
-/

namespace WordMachine.Source

/-- A place in generated code. -/
inductive Label where
  | start
  | finish
  | method (name : Bytes)
  /-- The data of a string literal, by its index. -/
  | literal (index : Nat)
  /-- The data of a string constant. -/
  | constant (name : Bytes)
  /-- Where a comparison goes on if it holds. -/
  | holds (index : Nat)
  /-- Where both outcomes of a comparison meet. -/
  | join (index : Nat)
  /-- The condition of a loop. -/
  | loop (index : Nat)
  /-- The end of a block. -/
  | blockEnd (index : Nat)
  deriving DecidableEq, Repr

/-- The name of a label. -/
def Label.name : Label → Bytes
  | .start => bytes "start"
  | .finish => bytes "end"
  | .method name => name
  | .literal n => bytes "_str" ++ Numeral.decimal n
  | .constant name => bytes "_var_" ++ name
  | .holds n => bytes "_cmp" ++ Numeral.decimal n
  | .join n => bytes "_cmp" ++ Numeral.decimal n ++ bytes "_join"
  | .loop n => bytes "_loop" ++ Numeral.decimal n
  | .blockEnd n => bytes "_loop" ++ Numeral.decimal n ++ bytes "_end"

/-- An operand of a generated instruction. -/
inductive Argument where
  | register (n : Nat)
  /-- A word of 64 bits. -/
  | word (value : UInt64)
  /-- A truth value as a word, written with two digits. -/
  | truth (value : Bool)
  /-- A word of 32 bits. -/
  | short (value : UInt64)
  | label (l : Label)
  deriving DecidableEq, Repr

/-- The text of an operand. -/
def Argument.text : Argument → Bytes
  | .register n => bytes "r" ++ Numeral.decimal n
  | .word value => bytes "$0x" ++ Numeral.hex value.toNat
  | .truth false => bytes "$0x00"
  | .truth true => bytes "$0x01"
  | .short value => bytes "0x" ++ Numeral.hex value.toNat
  | .label l => Ascii.dot :: l.name

/-- A line of generated code. -/
inductive Line where
  | comment (text : Bytes)
  | blank
  | label (l : Label)
  | code (op : Operation) (args : List Argument)
  /-- String data behind a label, as raw literal text. -/
  | data (l : Label) (raw : Bytes)
  deriving DecidableEq, Repr

/-- The text of a line. -/
def Line.text : Line → Bytes
  | .comment text => bytes "; " ++ text
  | .blank => []
  | .label l => Ascii.dot :: l.name ++ bytes ":"
  | .code op [] => bytes "\t\t" ++ op.mnemonic
  | .code op args =>
      bytes "\t\t" ++ op.mnemonic ++ Ascii.space :: List.intercalate (bytes ", ") (args.map Argument.text)
  | .data l raw => Ascii.dot :: l.name ++ bytes ": \"" ++ raw ++ bytes "\""

/-- The text of lines, each ended by a newline. -/
def render (lines : List Line) : Bytes := lines.flatMap fun l => l.text ++ [Ascii.newline]

end WordMachine.Source
