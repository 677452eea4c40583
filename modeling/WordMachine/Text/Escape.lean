import WordMachine.Text.Bytes

/-!
# `Text.Escape` — backslash escapes of string and character literals

Eleven bytes have an escape of two bytes; every other byte stands for itself.

Contents: `Escape.table`, `Escape.decode?` (raw literal text to data) and `Escape.encode` (data to raw
literal text).
-/

namespace WordMachine.Escape

/-- The letters that may follow a backslash, each with the byte it stands for. -/
def table : List (UInt8 × UInt8) :=
  [(0x6e, 0x0a), (0x74, 0x09), (0x76, 0x0b), (0x22, 0x22), (0x72, 0x0d), (0x66, 0x0c),
   (0x62, 0x08), (0x61, 0x07), (0x65, 0x1b), (0x27, 0x27), (0x5c, 0x5c)]

/-- The byte that a letter after a backslash stands for. -/
def byteOf? (letter : UInt8) : Option UInt8 := (table.find? (·.1 == letter)).map (·.2)

/-- The letter that escapes a byte. -/
def letterOf? (b : UInt8) : Option UInt8 := (table.find? (·.2 == b)).map (·.1)

/-- The data that raw literal text stands for; `none` if a backslash is not followed by a letter of
the table. -/
def decode? : Bytes → Option Bytes
  | [] => some []
  | c :: rest =>
      if c = Ascii.backslash then
        match rest with
        | [] => none
        | letter :: tail =>
            match byteOf? letter with
            | none => none
            | some b => (decode? tail).map (b :: ·)
      else (decode? rest).map (c :: ·)

/-- Raw literal text that stands for the data. -/
def encode (data : Bytes) : Bytes :=
  data.flatMap fun b =>
    match letterOf? b with
    | some letter => [Ascii.backslash, letter]
    | none => [b]

end WordMachine.Escape
