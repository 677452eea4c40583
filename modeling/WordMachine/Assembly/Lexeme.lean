import WordMachine.Assembly.Token

/-!
# `Assembly.Lexeme` — the pieces of an assembly line

A line is read from the left, one lexeme at a time; blanks, commas and a comment after `;` are
skipped. A lexeme is refused where it goes wrong, before anything after it is read.

Contents:
* `isSeparator`, `isDelimiter`;
* `Lexeme`, the readers of each class, and `Lexeme.next`;
* `Lexeme.length_lt_of_next`: reading a lexeme takes at least one byte.
-/

namespace WordMachine.Assembly

/-- Bytes that stand between lexemes. -/
def isSeparator (c : UInt8) : Bool :=
  c == Ascii.space || c == Ascii.tab || c == Ascii.comma || c == Ascii.carriageReturn

/-- Bytes that end a word, a register or a number. -/
def isDelimiter (c : UInt8) : Bool :=
  isSeparator c || c == Ascii.semicolon || c == Ascii.quote || c == Ascii.apostrophe

/-- The width of an immediate. -/
inductive Width where
  | narrow
  | wide
  deriving DecidableEq, Repr

/-- The token kind of a number of a width. -/
def Width.kind : Width → Kind
  | .narrow => .int32
  | .wide => .int64

/-- A piece of an assembly line. -/
inductive Lexeme where
  /-- A bare word, which should be a mnemonic. -/
  | word (w : Bytes)
  /-- `r` and digits. -/
  | register (digits : Bytes)
  | labelDefinition (name : Bytes)
  | labelUse (name : Bytes)
  /-- A number of a width, as written. -/
  | number (width : Width) (text : Bytes)
  /-- An expression of a width, with its outer parentheses. -/
  | expression (width : Width) (text : Bytes)
  /-- The raw text of a string. -/
  | string (raw : Bytes)
  /-- The raw text of a character. -/
  | char (raw : Bytes)
  deriving DecidableEq, Repr

namespace Lexeme

/-! ## Readers -/

/-- Read raw literal text up to its quote; a backslash needs a letter of the escape table after it. -/
def quoted (quote : UInt8) (unterminated : Cause) : Bytes → Except Cause (Bytes × Bytes)
  | [] => .error unterminated
  | c :: rest =>
      if c = Ascii.backslash then
        match rest with
        | [] => .error unterminated
        | letter :: tail =>
            if (Escape.byteOf? letter).isSome then
              match quoted quote unterminated tail with
              | .ok (raw, after) => .ok (c :: letter :: raw, after)
              | .error cause => .error cause
            else .error .escapeUnknown
      else if c = quote then .ok ([], rest)
      else
        match quoted quote unterminated rest with
        | .ok (raw, after) => .ok (c :: raw, after)
        | .error cause => .error cause

/-- Read on to the parenthesis that closes `depth` open ones; the text includes it. -/
def closing : Nat → Bytes → Option (Bytes × Bytes)
  | _, [] => none
  | depth, c :: rest =>
      if c = Ascii.closeParen then
        match depth with
        | 0 | 1 => some ([c], rest)
        | depth + 1 => (closing depth rest).map fun r => (c :: r.1, r.2)
      else if c = Ascii.openParen then (closing (depth + 1) rest).map fun r => (c :: r.1, r.2)
      else (closing depth rest).map fun r => (c :: r.1, r.2)

/-- Read a number after its mark: an expression in parentheses, or the bytes up to a delimiter. -/
def afterMark (width : Width) (text : Bytes) : Except Cause (Lexeme × Bytes) :=
  match text with
  | c :: rest =>
      if c = Ascii.openParen then
        match closing 1 rest with
        | some (inner, after) => .ok (.expression width (c :: inner), after)
        | none => .error (.expression text)
      else
        .ok (.number width (text.takeWhile fun c => !isDelimiter c), text.dropWhile fun c => !isDelimiter c)
  | [] => .ok (.number width [], [])

/-- Read a label after its dot: a definition if a colon follows the name. -/
def label (text : Bytes) : Except Cause (Lexeme × Bytes) :=
  let name := text.takeWhile Ascii.isIdent
  let rest := text.dropWhile Ascii.isIdent
  if name.isEmpty then .error .labelEmpty
  else
    match rest with
    | c :: after =>
        if c = Ascii.colon then .ok (.labelDefinition name, after) else .ok (.labelUse name, rest)
    | [] => .ok (.labelUse name, rest)

/-- Whether a text starts with `0x` or `0X`, also after a minus sign. -/
def startsHex (text : Bytes) : Bool :=
  let body := if text.head? = some Ascii.minus then text.drop 1 else text
  match body with
  | z :: x :: _ => z == Ascii.zero && (x == 0x78 || x == 0x58)
  | _ => false

/-- Read a register after its letter; only digits may come before the delimiter. -/
def registerDigits (text : Bytes) : Except Cause (Lexeme × Bytes) :=
  let digits := text.takeWhile Ascii.isDigit
  let rest := text.dropWhile Ascii.isDigit
  if rest.head?.all isDelimiter then .ok (.register digits, rest) else .error .registerInvalid

/-- Read what starts with any other byte `a`: a register, a narrow number, or a bare word. A dollar sign
ends a word; it marks a narrow number after `U` and is refused after any other. -/
def bare (a : UInt8) (rest : Bytes) : Except Cause (Lexeme × Bytes) :=
  if a = 0x72 ∧ rest.head?.any Ascii.isDigit then registerDigits rest
  else if startsHex (a :: rest) then
    .ok (.number .narrow (a :: rest.takeWhile fun c => !isDelimiter c),
      rest.dropWhile fun c => !isDelimiter c)
  else
    let run := a :: rest.takeWhile fun c => !(isDelimiter c || c == Ascii.dollar)
    match rest.dropWhile fun c => !(isDelimiter c || c == Ascii.dollar) with
    | c :: after =>
        if c = Ascii.dollar then
          if run = bytes "U" then afterMark .narrow after else .error (.wordUnknown (run ++ [c]))
        else .ok (.word run, c :: after)
    | [] => .ok (.word run, [])

/-- Read the first lexeme of a text that starts with none of the separators. -/
def first (c : UInt8) (rest : Bytes) : Except Cause (Lexeme × Bytes) :=
  if c = Ascii.quote then
    match quoted Ascii.quote .stringUnterminated rest with
    | .ok (raw, after) => .ok (.string raw, after)
    | .error cause => .error cause
  else if c = Ascii.apostrophe then
    match quoted Ascii.apostrophe .charUnterminated rest with
    | .ok (raw, after) => .ok (.char raw, after)
    | .error cause => .error cause
  else if c = Ascii.dot then label rest
  else if c = Ascii.dollar then afterMark .wide rest
  else bare c rest

/-- Read the next lexeme of a line, with the text after it; there is none at the end of the line or at a
comment. -/
def next : Bytes → Except Cause (Option (Lexeme × Bytes))
  | [] => .ok none
  | c :: rest =>
      if isSeparator c then next rest
      else if c = Ascii.semicolon then .ok none
      else
        match first c rest with
        | .ok result => .ok (some result)
        | .error cause => .error cause

/-! ## Progress -/

theorem length_dropWhile_le {α : Type} (p : α → Bool) (l : List α) : (l.dropWhile p).length ≤ l.length :=
  (List.dropWhile_sublist p).length_le

theorem length_le_of_quoted {quote : UInt8} {cause : Cause} {text raw after : Bytes}
    (h : quoted quote cause text = .ok (raw, after)) : after.length ≤ text.length := by
  fun_induction quoted quote cause text generalizing raw after with
  | case1 => simp at h
  | case2 => simp at h
  | case3 letter tail _ raw' after' hq ih =>
      have := ih hq
      simp_all; omega
  | case4 => simp_all
  | case5 => simp at h
  | case6 => simp_all
  | case7 c rest _ _ raw' after' hq ih =>
      have := ih hq
      simp_all; omega
  | case8 => simp_all

theorem length_le_of_closing {depth : Nat} {text : Bytes} {r : Bytes × Bytes}
    (h : closing depth text = some r) : r.2.length ≤ text.length := by
  induction text generalizing depth r with
  | nil => simp [closing] at h
  | cons c rest ih =>
      have step {d : Nat} (hd : (closing d rest).map (fun r => (c :: r.1, r.2)) = some r) :
          r.2.length ≤ (c :: rest).length := by
        obtain ⟨r', hr', rfl⟩ := Option.map_eq_some_iff.1 hd
        have := ih hr'
        simp; omega
      unfold closing at h
      split at h
      · split at h
        · cases h; simp
        · cases h; simp
        · exact step h
      · split at h
        · exact step h
        · exact step h

theorem length_le_of_afterMark {width : Width} {text after : Bytes} {l : Lexeme}
    (h : afterMark width text = .ok (l, after)) : after.length ≤ text.length := by
  unfold afterMark at h
  split at h
  · split at h
    · split at h
      · next inner rest hc =>
          cases h
          have := length_le_of_closing hc
          simp at this ⊢; omega
      · cases h
    · cases h; exact length_dropWhile_le _ _
  · cases h; simp

theorem length_le_of_label {text after : Bytes} {l : Lexeme}
    (h : label text = .ok (l, after)) : after.length ≤ text.length := by
  have hd := length_dropWhile_le Ascii.isIdent text
  unfold label at h
  simp only at h
  split at h
  · cases h
  · split at h
    · next c rest hr =>
        split at h <;> cases h
        · rw [hr] at hd
          simp at hd; omega
        · exact hd
    · next hr => cases h; simp [hr]

theorem length_le_of_registerDigits {text after : Bytes} {l : Lexeme}
    (h : registerDigits text = .ok (l, after)) : after.length ≤ text.length := by
  unfold registerDigits at h
  simp only at h
  split at h
  · cases h; exact length_dropWhile_le _ _
  · cases h

theorem length_le_of_bare {a : UInt8} {rest after : Bytes} {l : Lexeme}
    (h : bare a rest = .ok (l, after)) : after.length ≤ rest.length := by
  unfold bare at h
  split at h
  · exact length_le_of_registerDigits h
  · split at h
    · cases h; exact length_dropWhile_le _ _
    · have hd := length_dropWhile_le (fun c => !(isDelimiter c || c == Ascii.dollar)) rest
      simp only at h
      split at h
      · next c tail hr =>
          rw [hr] at hd
          split at h
          · split at h
            · have := length_le_of_afterMark h
              simp at hd; omega
            · cases h
          · cases h; exact hd
      · cases h; simp

theorem length_le_of_first {c : UInt8} {rest after : Bytes} {l : Lexeme}
    (h : first c rest = .ok (l, after)) : after.length ≤ rest.length := by
  unfold first at h
  split at h
  · split at h
    · next hq => cases h; exact length_le_of_quoted hq
    · cases h
  · split at h
    · split at h
      · next hq => cases h; exact length_le_of_quoted hq
      · cases h
    · split at h
      · exact length_le_of_label h
      · split at h
        · exact length_le_of_afterMark h
        · exact length_le_of_bare h

/-- Reading a lexeme takes at least one byte. -/
theorem length_lt_of_next {text after : Bytes} {l : Lexeme}
    (h : next text = .ok (some (l, after))) : after.length < text.length := by
  induction text with
  | nil => simp [next] at h
  | cons c rest ih =>
      rw [next] at h
      split at h
      · have := ih h
        simp; omega
      · split at h
        · simp at h
        · split at h
          · next hf =>
              cases h
              have := length_le_of_first hf
              simp; omega
          · cases h

end Lexeme

end WordMachine.Assembly
