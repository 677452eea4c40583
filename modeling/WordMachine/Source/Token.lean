import WordMachine.Double
import WordMachine.Include
import WordMachine.Text.Escape

/-!
# `Source.Token` — tokens of the source language

A source text is words, numbers, strings and characters parted by blanks; `//` starts a comment.

Contents:
* `Cause`, `Error`: why a source text is refused;
* `Kind`, `Token`;
* `number`: integers and doubles among the words;
* `next`: the next token of a line, and `length_lt_of_next`;
* `lexLine`, `lex`.
-/

namespace WordMachine.Source

/-! ## Errors -/

/-- Why a token or a statement is refused. -/
inductive Cause where
  | stringUnterminated
  | charUnterminated
  | charLength
  | numberInvalid
  | escapeUnknown
  | braceUnbalanced
  | methodNested
  | methodName
  | letMalformed
  | memoryMalformed
  | outsideMethod
  | conditionMissing
  | arguments
  | nameInvalid
  | definitionMissing
  | definitionDuplicate (name : Bytes)
  deriving DecidableEq, Repr

/-- The wording of a cause. -/
def Cause.message : Cause → Bytes
  | .stringUnterminated => bytes "unexpected end of line while parsing string literal"
  | .charUnterminated => bytes "unexpected end of line while parsing character"
  | .charLength => bytes "type `char` must contain exactly one character"
  | .numberInvalid => bytes "unexpected character while parsing number"
  | .escapeUnknown => bytes "unknown escape sequence"
  | .braceUnbalanced => bytes "imbalanced braces"
  | .methodNested => bytes "nested methods are not supported; place methods in the global scope"
  | .methodName =>
      bytes "`method` without name; methods are defined with `method <name> \x7b...\x7d`"
  | .letMalformed => bytes "`let` declarations must take the form `let <value> const <name>`"
  | .memoryMalformed => bytes "`memory` declarations must take the form `memory <size> const <name>`"
  | .outsideMethod => bytes "statement outside of a method"
  | .conditionMissing => bytes "`if` or `while` without a `\x7b` block"
  | .arguments => bytes "operator expects more prior arguments"
  | .nameInvalid => bytes "invalid name"
  | .definitionMissing => bytes "undefined word"
  | .definitionDuplicate name => bytes "multiple definitions of '" ++ name ++ bytes "'"

/-- Why a source text is refused. -/
inductive Error where
  | line (number : Int) (text : Bytes) (cause : Cause)
  /-- No method is called `main`. -/
  | mainMissing
  | inclusion (e : IncludeError)
  deriving DecidableEq, Repr

/-- The wording of an error. -/
def Error.message (loc : Locale) : Error → Bytes
  | .line number text cause => located loc number text cause.message
  | .mainMissing => bytes "source does not contain a `main` method"
  | .inclusion e => e.message loc

/-! ## Tokens -/

/-- The kind of a token. Token streams from elsewhere may carry numbers that are no kind. -/
inductive Kind where
  | word
  | integer
  | double
  | string
  | char
  | unassigned (number : Int)
  deriving DecidableEq, Repr

namespace Kind

/-- The kind with a number. -/
def ofNumber : Int → Kind
  | 0 => .word
  | 1 => .integer
  | 2 => .double
  | 3 => .string
  | 4 => .char
  | n => .unassigned n

/-- The name of a kind. -/
def name : Kind → Bytes
  | .word => bytes "word"
  | .integer => bytes "integer"
  | .double => bytes "double"
  | .string => bytes "string"
  | .char => bytes "char"
  | .unassigned n => bytes "Kind(" ++ Numeral.signed n ++ bytes ")"

end Kind

/-- A token with the bit pattern of a number or character, its line number and the text of its line. The
text of a string or character is what stands between the quotes. -/
structure Token where
  kind : Kind
  text : Bytes
  value : UInt64
  line : Int
  source : Bytes
  deriving DecidableEq, Repr

/-- Refuse a token. -/
def Token.error (t : Token) (cause : Cause) : Error := .line t.line t.source cause

/-! ## Numbers -/

/-- Whether a word starts like a number: a digit or a point, also after a minus sign. -/
def startsNumber (word : Bytes) : Bool :=
  (Bytes.dropPrefix (bytes "-") word).head?.any fun c => c == Ascii.dot || Ascii.isDigit c

/-- The bit pattern of an integer: unsigned, or signed after a minus sign. -/
def integer? (negative : Bool) (digits : Bytes) : Option UInt64 :=
  match Numeral.ofDigits? 10 digits with
  | none => none
  | some n =>
      if negative then (Numeral.fitSigned? true n).map UInt64.ofInt
      else if n < Nat.pow 2 64 then some n.toUInt64 else none

/-- The bit pattern of a double: digits around a point, at least one of them. -/
def double? (negative : Bool) (digits : Bytes) : Option UInt64 :=
  match Bytes.cut? Ascii.dot digits with
  | none => none
  | some (whole, places) =>
      (Numeral.ofDigits? 10 (whole ++ places)).bind fun n => Double.ofDecimal? negative n places.length

/-- The kind and bit pattern of a word that is a number. A point alone is no number; any other word that
starts like one must be one. -/
def number (word : Bytes) : Except Cause (Option (Kind × UInt64)) :=
  let negative := Bytes.hasPrefix (bytes "-") word
  let digits := Bytes.dropPrefix (bytes "-") word
  if !startsNumber word || digits == [Ascii.dot] then .ok none
  else if digits.all Ascii.isDigit then
    match integer? negative digits with
    | some value => .ok (some (.integer, value))
    | none => .error .numberInvalid
  else
    match double? negative digits with
    | some value => .ok (some (.double, value))
    | none => .error .numberInvalid

/-! ## Lines -/

/-- Bytes that part tokens. -/
def isBlank (c : UInt8) : Bool := c == Ascii.space || c == Ascii.tab || c == Ascii.carriageReturn

/-- Raw literal text up to its quote, and the text after it; a backslash takes the next byte with it. -/
def quoted? (quote : UInt8) : Bytes → Option (Bytes × Bytes)
  | [] => none
  | c :: rest =>
      if c = Ascii.backslash then
        match rest with
        | [] => none
        | d :: tail => (quoted? quote tail).map fun r => (c :: d :: r.1, r.2)
      else if c = quote then some ([], rest)
      else (quoted? quote rest).map fun r => (c :: r.1, r.2)

/-- Read a string after its quote. -/
def string (line : Int) (source rest : Bytes) : Except Cause (Token × Bytes) :=
  match quoted? Ascii.quote rest with
  | none => .error .stringUnterminated
  | some (raw, after) =>
      if (Escape.decode? raw).isSome then .ok (⟨.string, raw, 0, line, source⟩, after)
      else .error .escapeUnknown

/-- Read a character after its quote. -/
def char (line : Int) (source rest : Bytes) : Except Cause (Token × Bytes) :=
  match quoted? Ascii.apostrophe rest with
  | none => .error .charUnterminated
  | some (raw, after) =>
      match Escape.decode? raw with
      | none => .error .escapeUnknown
      | some [b] => .ok (⟨.char, raw, b.toNat.toUInt64, line, source⟩, after)
      | some _ => .error .charLength

/-- Read a word or a number that starts with `c`. -/
def word (line : Int) (source : Bytes) (c : UInt8) (rest : Bytes) : Except Cause (Token × Bytes) :=
  let run := c :: rest.takeWhile fun d => !isBlank d
  let after := rest.dropWhile fun d => !isBlank d
  match number run with
  | .error cause => .error cause
  | .ok (some (kind, value)) => .ok (⟨kind, run, value, line, source⟩, after)
  | .ok none => .ok (⟨.word, run, 0, line, source⟩, after)

/-- Read the next token of a line, with the text after it; there is none at the end of the line or at a
comment. -/
def next (line : Int) (source : Bytes) : Bytes → Except Cause (Option (Token × Bytes))
  | [] => .ok none
  | c :: rest =>
      if isBlank c then next line source rest
      else if c = Ascii.slash ∧ rest.head? = some Ascii.slash then .ok none
      else if c = Ascii.quote then (string line source rest).map some
      else if c = Ascii.apostrophe then (char line source rest).map some
      else (word line source c rest).map some

theorem length_le_of_quoted? {quote : UInt8} {text : Bytes} {r : Bytes × Bytes}
    (h : quoted? quote text = some r) : r.2.length ≤ text.length := by
  fun_induction quoted? quote text generalizing r with
  | case1 => simp at h
  | case2 => simp at h
  | case3 d tail ih =>
      obtain ⟨r', hr', rfl⟩ := Option.map_eq_some_iff.1 h
      have := ih hr'
      simp; omega
  | case4 => cases h; simp
  | case5 c rest _ _ ih =>
      obtain ⟨r', hr', rfl⟩ := Option.map_eq_some_iff.1 h
      have := ih hr'
      simp; omega

theorem length_le_of_string {line : Int} {source rest after : Bytes} {t : Token}
    (h : string line source rest = .ok (t, after)) : after.length ≤ rest.length := by
  unfold string at h
  split at h
  · cases h
  · next hq =>
      split at h
      · cases h; exact length_le_of_quoted? hq
      · cases h

theorem length_le_of_char {line : Int} {source rest after : Bytes} {t : Token}
    (h : char line source rest = .ok (t, after)) : after.length ≤ rest.length := by
  unfold char at h
  split at h
  · cases h
  · next hq =>
      split at h
      · cases h
      · cases h; exact length_le_of_quoted? hq
      · cases h

theorem length_le_of_word {line : Int} {source rest after : Bytes} {c : UInt8} {t : Token}
    (h : word line source c rest = .ok (t, after)) : after.length ≤ rest.length := by
  have hd : (rest.dropWhile fun d => !isBlank d).length ≤ rest.length :=
    (List.dropWhile_sublist _).length_le
  unfold word at h
  simp only at h
  split at h
  · cases h
  · cases h; exact hd
  · cases h; exact hd

/-- Reading a token takes at least one byte. -/
theorem length_lt_of_next {line : Int} {source text after : Bytes} {t : Token}
    (h : next line source text = .ok (some (t, after))) : after.length < text.length := by
  have some_of_map {e : Except Cause (Token × Bytes)} (he : e.map some = .ok (some (t, after))) :
      e = .ok (t, after) := by
    cases e with
    | error _ => simp [Except.map] at he
    | ok r => simpa [Except.map] using he
  induction text with
  | nil => simp [next] at h
  | cons c rest ih =>
      rw [next] at h
      split at h
      · have := ih h
        simp; omega
      · split at h
        · simp at h
        · split at h
          · have := length_le_of_string (some_of_map h)
            simp; omega
          · split at h
            · have := length_le_of_char (some_of_map h)
              simp; omega
            · have := length_le_of_word (some_of_map h)
              simp; omega

/-- The tokens of a text within a line. -/
def lexFrom (line : Int) (source text : Bytes) : Except Cause (List Token) :=
  match h : next line source text with
  | .error cause => .error cause
  | .ok none => .ok []
  | .ok (some (t, rest)) =>
      have := length_lt_of_next h
      match lexFrom line source rest with
      | .error cause => .error cause
      | .ok more => .ok (t :: more)
  termination_by text.length

/-- The tokens of a line. -/
def lexLine (number : Nat) (text : Bytes) : Except Error (List Token) :=
  match lexFrom number text text with
  | .error cause => .error (.line number text cause)
  | .ok tokens => .ok tokens

/-- The tokens of lines, which are numbered from `number` on. -/
def lexLines : Nat → List Bytes → Except Error (List Token)
  | _, [] => .ok []
  | number, line :: rest =>
      match lexLine number line with
      | .error e => .error e
      | .ok tokens =>
          match lexLines (number + 1) rest with
          | .error e => .error e
          | .ok more => .ok (tokens ++ more)

/-- The tokens of a text. -/
def lex (text : Bytes) : Except Error (List Token) := lexLines 1 (Bytes.lines text)

end WordMachine.Source
