import WordMachine.Template.Number

/-!
# `Template` — message templates with slots for arguments

Each slot takes the next argument, or the one whose number it gives. A slot that cannot be filled shows
what is wrong with it, and arguments that no slot took follow the text.

Contents: `Template.Argument`, `Format.display`, `Template.render`.
-/

namespace WordMachine.Template

/-- What a slot shows. -/
inductive Argument where
  | integer (n : Int)
  | text (t : Bytes)
  /-- A double by its bit pattern. -/
  | double (w : UInt64)
  deriving DecidableEq, Repr

/-- The kind of an argument. -/
def Argument.kind : Argument → Bytes
  | .integer _ => bytes "int64"
  | .text _ => bytes "string"
  | .double _ => bytes "float64"

/-! ## One argument -/

namespace Format

/-- An integer under a verb, if it takes integers. -/
def integer? (f : Format) (loc : Locale) (verb : Nat) (n : Int) : Option Bytes :=
  if verb = 0x64 ∨ verb = 0x76 then
    some (if f.sharp || f.literal then f.integer 10 false n else f.localInteger loc n)
  else if verb = 0x62 then some (f.integer 2 false n)
  else if verb = 0x6f then some (f.integer 8 false n)
  else if verb = 0x78 then some (f.integer 16 false n)
  else if verb = 0x58 then some (f.integer 16 true n)
  else if verb = 0x63 then some (f.character n)
  else if verb = 0x71 then (if 0 ≤ n ∧ n ≤ 0x10ffff then some (f.quotedCharacter n) else none)
  else if verb = 0x55 then some (f.codePoint n)
  else none

/-- A text under a verb, if it takes texts. -/
def text? (f : Format) (verb : Nat) (t : Bytes) : Option Bytes :=
  if verb = 0x76 then some (if f.literal then f.quotedText t else f.text t)
  else if verb = 0x73 then some (f.text t)
  else if verb = 0x78 then some (f.hexText false t)
  else if verb = 0x58 then some (f.hexText true t)
  else if verb = 0x71 then some (f.quotedText t)
  else if verb = 0x6d then some t
  else none

/-- A double under a verb, if it takes doubles. -/
def double? (f : Format) (loc : Locale) (verb : Nat) (w : UInt64) : Option Bytes :=
  let plain := f.sharp || f.literal
  if verb = 0x62 then some (f.double 0x62 w)
  else if verb = 0x76 ∨ verb = 0x67 then
    some (if plain then f.double 0x67 w else f.localGeneral loc w)
  else if verb = 0x47 then some (if plain then f.double 0x47 w else f.localGeneral loc w)
  else if verb = 0x65 ∨ verb = 0x45 then
    some (if plain then f.double verb.toUInt8 w else f.localExponential loc w)
  else if verb = 0x66 ∨ verb = 0x46 then
    some (if plain then f.double 0x66 w else f.localFixed loc w)
  else none

/-- An argument under a verb, if the verb takes its kind. The verb `T` shows the kind alone. -/
def display? (f : Format) (loc : Locale) (verb : Nat) (arg : Argument) : Option Bytes :=
  if verb = 0x54 then some (f.text arg.kind)
  else
    match arg with
    | .integer n => f.integer? loc verb n
    | .text t => f.text? verb t
    | .double w => f.double? loc verb w

/-- An argument by its kind and its value. -/
def described (f : Format) (loc : Locale) (arg : Argument) : Bytes :=
  arg.kind ++ bytes "=" ++ (f.display? loc 0x76 arg).getD []

/-- An argument under a verb; a verb that does not take it shows its kind and value. -/
def display (f : Format) (loc : Locale) (verb : Nat) (arg : Argument) : Bytes :=
  (f.display? loc verb arg).getD
    (bytes "%!" ++ Utf8.encode verb ++ bytes "(" ++ f.described loc arg ++ bytes ")")

end Format

/-! ## Slots and arguments -/

/-- Where the reading of the arguments is: the next one, whether a slot chose one by its number, and
whether all numbers of the slot were good. -/
structure Cursor where
  next : Nat := 0
  reordered : Bool := false
  good : Bool := true
  deriving DecidableEq, Repr

/-- Go to the argument of a number in brackets. -/
def Cursor.jump (c : Cursor) (count : Nat) : Option Index → Cursor
  | none => c
  | some (.place n) =>
      if 1 ≤ n ∧ n ≤ count then { c with next := n - 1, reordered := true }
      else { c with reordered := true, good := false }
  | some .broken => { c with reordered := true, good := false }

/-- A width or precision: the number, or the next argument if it is an integer that is not too large. -/
def Cursor.count (c : Cursor) (args : Array Argument) : Count → Option Int × Cursor
  | .given n => (some n, c)
  | .taken =>
      match args[c.next]? with
      | some (.integer n) =>
          (if n.natAbs ≤ numberLimit then some n else none, { c with next := c.next + 1 })
      | some _ => (none, { c with next := c.next + 1 })
      | none => (none, c)

/-- The text of a slot, and where the reading of the arguments is after it. -/
def Slot.fill (s : Slot) (loc : Locale) (args : Array Argument) (c : Cursor) : Bytes × Cursor :=
  let c := ({ c with good := !s.misplaced }).jump args.size s.widthIndex
  let (width, c) := (s.width.map (c.count args)).getD (none, c)
  let c := c.jump args.size s.precisionIndex
  let (precision, c) := (s.precision.map (c.count args)).getD (none, c)
  let precision := precision.bind fun p => if p < 0 then none else some p.toNat
  let c := c.jump args.size s.verbIndex
  let wrong :=
    if s.precision.isSome && precision.isNone then bytes "%!(BADPREC)"
    else if s.width.isSome && width.isNone then bytes "%!(BADWIDTH)"
    else []
  let flags := match width with
    | some w => if w < 0 then { s.flags with minus := true, zero := false } else s.flags
    | none => s.flags
  match s.verb with
  | none => (bytes "%!(NOVERB)", c)
  | some verb =>
      let shown := bytes "%!" ++ Utf8.encode verb
      if verb = 0x25 then (bytes "%", c)
      else if !c.good then (shown ++ bytes "(BADINDEX)", c)
      else
        match args[c.next]? with
        | none => (shown ++ bytes "(MISSING)", { c with next := c.next + 1 })
        | some arg =>
            let any := verb == 0x76
            let f : Format :=
              { flags with
                sharp := flags.sharp && !any
                plus := flags.plus && !any
                literal := flags.sharp && any
                width := width.map Int.natAbs
                precision := precision }
            (wrong ++ f.display loc verb arg, { c with next := c.next + 1 })

/-- The text of pieces, and where the reading of the arguments is after them. -/
def fillAll (loc : Locale) (args : Array Argument) (c : Cursor) : List Piece → Bytes × Cursor
  | [] => ([], c)
  | .literal b :: rest =>
      let (text, c) := fillAll loc args c rest
      (b :: text, c)
  | .slot s :: rest =>
      let (shown, c) := s.fill loc args c
      let (text, c) := fillAll loc args c rest
      (shown ++ text, c)

/-- What follows the text: the arguments that are left, if some but not all were taken in order. -/
def leftover (loc : Locale) (args : List Argument) (c : Cursor) : Bytes :=
  if c.reordered || c.next == 0 then []
  else
    match (args.drop c.next).map (Format.described {} loc) with
    | [] => []
    | first :: rest =>
        bytes "%!(EXTRA " ++ first ++ rest.flatMap (bytes ", " ++ ·) ++ bytes ")"

/-- The text of a template in a language. -/
def render (loc : Locale) (template : Bytes) (args : List Argument) : Bytes :=
  let (text, c) := fillAll loc args.toArray {} (pieces template)
  text ++ leftover loc args c

end WordMachine.Template
