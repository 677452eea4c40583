import WordMachine.Assembly.Expression.Value
import WordMachine.Text.Letter

/-!
# `Assembly.Expression.Symbol` — the symbols of an expression text

A text is a sequence of literals, names and marks. Blanks and comments separate symbols, a line break
outside all brackets ends a line, and a zero byte ends the text. Only lines that hold no symbol may
start with a blank.

Contents: `Symbol`, `Symbol.number?`, `Symbol.quoted?`, `Symbol.scan?`.
-/

namespace WordMachine.Assembly.Expression

/-- A symbol of an expression text. -/
inductive Symbol where
  | literal (v : Value)
  | name (n : Bytes)
  | mark (m : Bytes)
  | lineEnd

namespace Symbol

/-! ## Words and marks -/

/-- Words that are marks. -/
def markWords : List Bytes :=
  [bytes "and", bytes "break", bytes "continue", bytes "def", bytes "elif", bytes "else", bytes "for",
   bytes "if", bytes "in", bytes "lambda", bytes "load", bytes "not", bytes "or", bytes "pass",
   bytes "return", bytes "while"]

/-- Words that no text may use. -/
def reservedWords : List Bytes :=
  [bytes "as", bytes "async", bytes "await", bytes "class", bytes "del", bytes "except",
   bytes "finally", bytes "from", bytes "global", bytes "import", bytes "is", bytes "nonlocal",
   bytes "raise", bytes "try", bytes "with", bytes "yield"]

/-- Marks that are no words; a longer one comes before those it starts with. -/
def marks : List Bytes :=
  [bytes "<<=", bytes ">>=", bytes "//=", bytes "==", bytes "!=", bytes "<=", bytes ">=", bytes "+=",
   bytes "-=", bytes "*=", bytes "/=", bytes "%=", bytes "&=", bytes "|=", bytes "^=", bytes "<<",
   bytes ">>", bytes "//", bytes "**", bytes "+", bytes "-", bytes "*", bytes "/", bytes "%",
   bytes "&", bytes "|", bytes "^", bytes "~", bytes "<", bytes ">", bytes "=", bytes ".", bytes ",",
   bytes ":", bytes ";"]

/-- Opening brackets. -/
def openings : Bytes := bytes "([\x7b"

/-- Closing brackets. -/
def closings : Bytes := bytes ")]\x7d"

/-- Characters that may start a name: letters and the underscore. -/
def startsName (n : Nat) : Bool := n == 0x5f || isLetterScalar n

/-- Characters that may continue a name. -/
def continuesName (n : Nat) : Bool := (0x30 ≤ n && n ≤ 0x39) || startsName n

/-- The number of bytes in front that continue a name. The first argument counts the remaining bytes
of a character. -/
def nameLength : Nat → Bytes → Nat
  | _, [] => 0
  | skip + 1, _ :: rest => nameLength skip rest + 1
  | 0, c :: rest =>
      match Utf8.next (c :: rest) with
      | some (some n, width) => if continuesName n then nameLength (width - 1) rest + 1 else 0
      | _ => 0

/-- Whether a name is in front. -/
def atName (text : Bytes) : Bool :=
  match Utf8.next text with
  | some (some n, _) => startsName n
  | _ => false

/-- The symbol of a word. -/
def ofWord? (word : Bytes) : Option Symbol :=
  if markWords.contains word then some (.mark word)
  else if reservedWords.contains word then none
  else some (.name word)

/-! ## Numbers -/

/-- The double `mantissa * 10 ^ exponent`, if it is finite. -/
def float? (mantissa : Nat) (exponent : Int) : Option Value :=
  let size : Int := (Nat.toDigits 10 mantissa).length + exponent
  if mantissa = 0 ∨ size < -400 then some (.float 0)
  else if 400 < size then none
  else
    let w :=
      if 0 ≤ exponent then Double.nearest (mantissa * Nat.pow 10 exponent.toNat) 1
      else Double.nearest mantissa (Nat.pow 10 (-exponent).toNat)
    if Double.isFinite w then some (.float w) else none

/-- Read the exponent of a double after its digits, if there is one. -/
def exponent? (mantissa : Nat) (places : Nat) : Bytes → Option (Value × Bytes)
  | e :: rest =>
      if e = 0x65 ∨ e = 0x45 then
        let (negative, digits) := Numeral.takeSign rest
        let run := digits.takeWhile Ascii.isDigit
        match Numeral.ofDigits? 10 run with
        | none => none
        | some n =>
            (float? mantissa ((if negative then -(n : Int) else n) - places)).map fun v =>
              (v, digits.dropWhile Ascii.isDigit)
      else (float? mantissa (-places)).map fun v => (v, e :: rest)
  | [] => (float? mantissa (-places)).map fun v => (v, [])

/-- Read a number in a marked base; the flag bounds it to a signed word. -/
def based? (base : Nat) (bounded : Bool) (text : Bytes) : Option (Value × Bytes) :=
  let isBaseDigit (c : UInt8) : Bool := (Numeral.digit? c).any (· < base)
  match Numeral.ofDigits? base (text.takeWhile isBaseDigit) with
  | some n =>
      if bounded && Nat.pow 2 63 ≤ n then none else some (.int n, text.dropWhile isBaseDigit)
  | none => none

/-- Read a number: an integer, in decimal without leading zeros or with a base mark, or a double. -/
def number? (text : Bytes) : Option (Value × Bytes) :=
  let decimal : Option (Value × Bytes) :=
    let whole := text.takeWhile Ascii.isDigit
    let rest := text.dropWhile Ascii.isDigit
    match rest with
    | c :: tail =>
        if c = Ascii.dot then
          let places := tail.takeWhile Ascii.isDigit
          (Numeral.digitsFrom? 10 0 (whole ++ places)).bind fun m =>
            exponent? m places.length (tail.dropWhile Ascii.isDigit)
        else if c = 0x65 ∨ c = 0x45 then
          (Numeral.digitsFrom? 10 0 whole).bind fun m => exponent? m 0 rest
        else if whole.head? = some Ascii.zero && !whole.all (· == Ascii.zero) then none
        else (Numeral.ofDigits? 10 whole).map fun n => (.int n, rest)
    | [] =>
        if whole.head? = some Ascii.zero && !whole.all (· == Ascii.zero) then none
        else (Numeral.ofDigits? 10 whole).map fun n => (.int n, rest)
  match text with
  | z :: m :: rest =>
      if z = Ascii.zero ∧ (m = 0x78 ∨ m = 0x58) then based? 16 false rest
      else if z = Ascii.zero ∧ (m = 0x6f ∨ m = 0x4f) then based? 8 true rest
      else if z = Ascii.zero ∧ (m = 0x62 ∨ m = 0x42) then based? 2 true rest
      else decimal
  | _ => decimal

/-! ## Texts -/

/-- The byte of a letter after a backslash. -/
def simpleEscape? (c : UInt8) : Option UInt8 :=
  if c = 0x61 then some 0x07 else if c = 0x62 then some 0x08 else if c = 0x66 then some 0x0c
  else if c = 0x6e then some 0x0a else if c = 0x72 then some 0x0d else if c = 0x74 then some 0x09
  else if c = 0x76 then some 0x0b
  else if c = Ascii.backslash ∨ c = Ascii.quote ∨ c = Ascii.apostrophe then some c
  else none

/-- How a text is written: its quote, whether backslashes stand for themselves, whether it is a byte
string, and whether three quotes surround it. -/
structure TextForm where
  quote : UInt8
  raw : Bool
  octets : Bool
  triple : Bool
  deriving DecidableEq, Repr

namespace TextForm

/-- The quotes around a text. -/
def mark (f : TextForm) : Bytes := if f.triple then [f.quote, f.quote, f.quote] else [f.quote]

/-- The byte that a number after a backslash stands for: any in a byte string, else an ASCII one. -/
def byte? (f : TextForm) (n : Nat) : Option UInt8 :=
  if n < (if f.octets then 256 else 128) then some n.toUInt8 else none

/-- The value of a text. -/
def value (f : TextForm) (data : Bytes) : Value := if f.octets then .octets data else .text data

end TextForm

/-- What an escape stands for, from the byte after its backslash on, and the text after it. A line
break after a backslash stands for nothing. -/
def escape? (form : TextForm) (c : UInt8) (rest : Bytes) : Option (Bytes × Bytes) :=
  if c = Ascii.newline then some ([], rest)
  else if c = 0x78 then do
    let n ← Numeral.ofDigits? 16 (rest.take 2)
    let b ← form.byte? n
    if rest.length < 2 then none else pure ([b], rest.drop 2)
  else if c = 0x75 ∨ c = 0x55 then do
    let width := if c = 0x75 then 4 else 8
    let n ← Numeral.ofDigits? 16 (rest.take width)
    if rest.length < width ∨ 0x10ffff < n ∨ (0xd800 ≤ n ∧ n ≤ 0xdfff) then none
    else pure (Utf8.encode n, rest.drop width)
  else if 0x30 ≤ c && c ≤ 0x37 then do
    let run := ((c :: rest).take 3).takeWhile fun d => 0x30 ≤ d && d ≤ 0x37
    let n ← Numeral.ofDigits? 8 run
    let b ← form.byte? n
    pure ([b], (c :: rest).drop run.length)
  else (simpleEscape? c).map fun b => ([b], rest)

/-- Read the rest of a text up to its quotes. A line break stands only between three quotes or after a
backslash. The fuel bounds the number of bytes. -/
def text? (form : TextForm) : Nat → Bytes → Option (Bytes × Bytes)
  | 0, _ => none
  | _, [] => none
  | fuel + 1, c :: rest =>
      let more (data : Bytes) (rest : Bytes) : Option (Bytes × Bytes) :=
        (text? form fuel rest).map fun r => (data ++ r.1, r.2)
      if Bytes.hasPrefix form.mark (c :: rest) then some ([], (c :: rest).drop form.mark.length)
      else if c = Ascii.newline && !form.triple then none
      else if c = Ascii.backslash then
        match rest with
        | [] => none
        | e :: tail =>
            if form.raw then more [c, e] tail
            else (escape? form e tail).bind fun r => more r.1 r.2
      else more [c] rest

/-- Read a text from its quotes on. -/
def quoted? (raw octets : Bool) (text : Bytes) : Option (Value × Bytes) :=
  match text with
  | [] => none
  | quote :: rest =>
      let form : TextForm := ⟨quote, raw, octets, Bytes.hasPrefix [quote, quote] rest⟩
      (text? form (text.length + 1) (if form.triple then rest.drop 2 else rest)).map fun r =>
        (form.value r.1, r.2)

/-- Whether a quote is in front. -/
def atQuote (text : Bytes) : Bool :=
  text.head? = some Ascii.quote || text.head? = some Ascii.apostrophe

/-- Read a literal, if one is in front: a number, or a text with the letters that tell its form. -/
def literal? (text : Bytes) : Option (Option (Value × Bytes)) :=
  if atQuote text then some (quoted? false false text)
  else
    match text with
    | c :: rest =>
        if c = 0x72 ∧ atQuote rest then some (quoted? true false rest)
        else if c = 0x62 ∧ atQuote rest then some (quoted? false true rest)
        else if c = 0x72 ∧ rest.head? = some 0x62 ∧ atQuote (rest.drop 1) then
          some (quoted? true true (rest.drop 1))
        else if Ascii.isDigit c || (c == Ascii.dot && rest.head?.any Ascii.isDigit) then
          some (number? text)
        else none
    | [] => none

/-! ## Texts to symbols -/

/-- Blanks between symbols. -/
def isBlank (c : UInt8) : Bool := c == Ascii.space || c == Ascii.tab

/-- Whether the rest of a line holds no symbol. -/
def lineIsBlank (text : Bytes) : Bool :=
  match text.dropWhile isBlank with
  | [] => true
  | c :: _ => c == Ascii.hash || c == Ascii.newline || c == 0

/-- Split a text into symbols, inside a number of brackets; the flag tells that the line has no symbol
so far. The fuel bounds the number of symbols, blanks and line breaks. -/
def scanFrom : Nat → Nat → Bool → Bytes → Option (List Symbol)
  | 0, _, _, _ => none
  | _, _, _, [] => some []
  | fuel + 1, depth, fresh, c :: rest =>
      let text := c :: rest
      let more (s : Symbol) (rest : Bytes) : Option (List Symbol) :=
        (scanFrom fuel depth false rest).map (s :: ·)
      if c = 0 then some []
      else if isBlank c then
        if fresh && depth == 0 && !lineIsBlank rest then none else scanFrom fuel depth fresh rest
      else if c = Ascii.hash then
        scanFrom fuel depth fresh (rest.dropWhile fun d => d != Ascii.newline && d != 0)
      else if c = Ascii.newline then
        if fresh || depth != 0 then scanFrom fuel depth true rest
        else (scanFrom fuel depth true rest).map (.lineEnd :: ·)
      else if c = Ascii.backslash then
        if rest.head? = some Ascii.newline then scanFrom fuel depth false (rest.drop 1) else none
      else
        match literal? text with
        | some read => read.bind fun r => more (.literal r.1) r.2
        | none =>
            if atName text then
              let width := nameLength 0 text
              (ofWord? (text.take width)).bind fun s => more s (text.drop width)
            else if openings.contains c then
              (scanFrom fuel (depth + 1) false rest).map (.mark [c] :: ·)
            else if closings.contains c then
              if depth = 0 then none else (scanFrom fuel (depth - 1) false rest).map (.mark [c] :: ·)
            else
              match marks.find? fun m => Bytes.hasPrefix m text with
              | some m => more (.mark m) (text.drop m.length)
              | none => none

/-- Split a text into symbols. A byte that belongs to no character counts as the replacement
character, and a carriage return as a line break. -/
def scan? (text : Bytes) : Option (List Symbol) :=
  let valid := (Utf8.units text).flatMap fun u =>
    if u.1.isNone then Utf8.encode 0xfffd
    else if u.1 = some 0x0d then [Ascii.newline]
    else u.2
  scanFrom (valid.length + 1) 0 true valid

end Symbol

end WordMachine.Assembly.Expression
