import WordMachine.Text.Blank
import WordMachine.Text.Numeral

/-!
# `Template.Slot` — the pieces of a message template

A template is text with slots. A slot is a percent sign, flags, a width, a point and a precision, and a
verb; each of width, precision and verb may have an argument number in brackets in front of it, and an
asterisk takes a width or a precision from the arguments.

Contents: `Flags`, `Count`, `Index`, `Slot`, `Slot.read`; `Piece`, `pieces`.
-/

namespace WordMachine.Template

/-- The flags of a slot. -/
structure Flags where
  sharp : Bool := false
  plus : Bool := false
  minus : Bool := false
  space : Bool := false
  zero : Bool := false
  deriving DecidableEq, Repr

/-- A width or a precision: a number, or the next argument. -/
inductive Count where
  | given (n : Nat)
  | taken
  deriving DecidableEq, Repr

/-- An argument number in brackets, counted from one, or brackets without one. -/
inductive Index where
  | place (n : Nat)
  | broken
  deriving DecidableEq, Repr

/-- A slot of a template. -/
structure Slot where
  flags : Flags
  widthIndex : Option Index
  width : Option Count
  precisionIndex : Option Index
  precision : Option Count
  verbIndex : Option Index
  /-- An argument number stands in front of a width or a point, where it means nothing. -/
  misplaced : Bool
  /-- The scalar value of the verb, unless the template ends before it. -/
  verb : Option Nat
  deriving DecidableEq, Repr

/-- A piece of a template: a byte of text, or a slot. -/
inductive Piece where
  | literal (c : UInt8)
  | slot (s : Slot)
  deriving DecidableEq, Repr

/-! ## Parts of a slot -/

/-- Add a flag. Zeros fill only from the left. -/
def Flags.add? (f : Flags) (c : UInt8) : Option Flags :=
  if c = Ascii.hash then some { f with sharp := true }
  else if c = Ascii.zero then some { f with zero := !f.minus }
  else if c = Ascii.plus then some { f with plus := true }
  else if c = Ascii.minus then some { f with minus := true, zero := false }
  else if c = Ascii.space then some { f with space := true }
  else none

/-- Read flags. -/
def Flags.read (f : Flags) : Bytes → Flags × Bytes
  | [] => (f, [])
  | c :: rest =>
      match f.add? c with
      | some g => g.read rest
      | none => (f, c :: rest)

/-- The largest width, precision or argument number that may go on with a digit. -/
def numberLimit : Nat := 1000000

/-- Read a number. After a number that is too large nothing is left to read. -/
def readNumber (acc : Option Nat) : Bytes → Option Nat × Bytes
  | [] => (acc, [])
  | c :: rest =>
      if Ascii.isDigit c then
        if numberLimit < acc.getD 0 then (none, [])
        else readNumber (some (acc.getD 0 * 10 + (c.toNat - 0x30))) rest
      else (acc, c :: rest)

/-- Read a width or a precision. -/
def Count.read : Bytes → Option Count × Bytes
  | [] => (none, [])
  | c :: rest =>
      if c = 0x2a then (some .taken, rest)
      else
        let (n, rest) := readNumber none (c :: rest)
        (n.map .given, rest)

/-- The argument number that a text between brackets spells. -/
def Index.ofText (text : Bytes) : Index :=
  match readNumber none text with
  | (some n, []) => .place n
  | _ => .broken

/-- Read an argument number in brackets, if there is one. Without a closing bracket only the opening
one is read. -/
def Index.read : Bytes → Option Index × Bytes
  | [] => (none, [])
  | c :: rest =>
      if c ≠ 0x5b then (none, c :: rest)
      else if rest.length < 2 then (some .broken, rest)
      else
        match Bytes.cut? 0x5d rest with
        | some (inner, after) => (some (.ofText inner), after)
        | none => (some .broken, rest)

/-- Whether an argument number was read. -/
def Index.isPlace : Option Index → Bool
  | some (.place _) => true
  | _ => false

/-- Read the scalar value of a character, if there is one; an invalid byte counts as the replacement
character. -/
def readVerb (text : Bytes) : Option Nat × Bytes :=
  match Utf8.next text with
  | some (value, width) => (some (value.getD 0xfffd), text.drop width)
  | none => (none, text)

/-- Read a point and a precision, after which the flag tells whether an argument number stands right in
front of the verb. A point alone asks for none. -/
def readPrecision (after : Bool) : Bytes → Option Index × Option Count × Bool × Bytes
  | c :: d :: rest =>
      if c = Ascii.dot then
        let (index, rest) := Index.read (d :: rest)
        let (count, rest) := Count.read rest
        (index, some (count.getD (.given 0)), Index.isPlace index && count != some .taken, rest)
      else (none, none, after, c :: d :: rest)
  | rest => (none, none, after, rest)

/-- Read a slot after its percent sign. -/
def Slot.read (text : Bytes) : Slot × Bytes :=
  let (flags, rest) := Flags.read {} text
  let (widthIndex, rest) := Index.read rest
  let (width, rest) := Count.read rest
  let indexed := Index.isPlace widthIndex
  let after := indexed && width != some .taken
  let misplaced := indexed && (match width with | some (.given _) => true | _ => false)
  let (precisionIndex, precision, afterPoint, rest) := readPrecision after rest
  let misplaced := misplaced || (after && precision.isSome)
  let (verbIndex, rest) := if afterPoint then (none, rest) else Index.read rest
  let (verb, rest) := readVerb rest
  (⟨flags, widthIndex, width, precisionIndex, precision, verbIndex, misplaced, verb⟩, rest)

/-! ## Templates -/

/-- The pieces of a text. The fuel bounds their number. -/
def piecesFrom : Nat → Bytes → List Piece
  | 0, _ => []
  | _, [] => []
  | fuel + 1, c :: rest =>
      if c = 0x25 then
        let (s, rest) := Slot.read rest
        .slot s :: piecesFrom fuel rest
      else .literal c :: piecesFrom fuel rest

/-- The pieces of a template. -/
def pieces (template : Bytes) : List Piece := piecesFrom template.length template

end WordMachine.Template
