import Mathlib
import WordMachine.Proofs.Text
import WordMachine.Assembly.Lexer

/-!
# `Proofs.Assembly.Lexemes` — lexemes read back as written

Each class of lexemes, written in its plain form and followed by something that cannot continue it, is the
next lexeme of the text.

Contents:
* `Lexeme.Ends` and the classes of bytes;
* `Lexeme.Form`: how a literal is written as an operand;
* `Lexeme.next_word`, `next_register`, `next_literal`, `next_labelUse`, `next_labelDefinition`, `next_string`;
* `lexFrom_next`, `lexFrom_invalid`, `lexFrom_separator`, `lexFrom_end`: one step of reading a line;
  `lexLine_of_lexFrom`, `lexFrom_of_lexLine`: a line that is read to its end.
-/

namespace WordMachine.Assembly

/-! ## Classes of bytes -/

theorem isDelimiter_iff {c : UInt8} :
    isDelimiter c = true ↔ c = Ascii.space ∨ c = Ascii.tab ∨ c = Ascii.comma ∨ c = Ascii.carriageReturn ∨
      c = Ascii.semicolon ∨ c = Ascii.quote ∨ c = Ascii.apostrophe := by
  simp [isDelimiter, isSeparator, or_assoc]

theorem isDelimiter_of_isIdent {c : UInt8} (h : Ascii.isIdent c = true) : isDelimiter c = false := by
  rw [← Bool.not_eq_true, isDelimiter_iff]
  rintro (rfl | rfl | rfl | rfl | rfl | rfl | rfl) <;> revert h <;> decide

theorem isSeparator_of_isIdent {c : UInt8} (h : Ascii.isIdent c = true) : isSeparator c = false := by
  have hdelimiter := isDelimiter_of_isIdent h
  simp only [isDelimiter, Bool.or_eq_false_iff] at hdelimiter
  exact hdelimiter.1.1.1

theorem isIdent_of_isDelimiter {c : UInt8} (h : isDelimiter c = true) : Ascii.isIdent c = false := by
  cases hident : Ascii.isIdent c with
  | false => rfl
  | true => rw [isDelimiter_of_isIdent hident] at h; cases h

theorem isIdent_of_isDigit {c : UInt8} (h : Ascii.isDigit c = true) : Ascii.isIdent c = true := by
  simp [Ascii.isIdent, h]

theorem isIdent_of_isLetter {c : UInt8} (h : Ascii.isLetter c = true) : Ascii.isIdent c = true := by
  simp [Ascii.isIdent, h]

theorem ne_of_isIdent {c d : UInt8} (h : Ascii.isIdent c = true) (hd : Ascii.isIdent d = false) : c ≠ d := by
  rintro rfl
  rw [h] at hd
  cases hd

theorem isDigit_of_isLetter {c : UInt8} (h : Ascii.isLetter c = true) : Ascii.isDigit c = false := by
  simp only [Ascii.isLetter, Ascii.isDigit, Bool.or_eq_true, Bool.and_eq_true, decide_eq_true_eq,
    Bool.and_eq_false_iff, decide_eq_false_iff_not, UInt8.le_iff_toNat_le] at h ⊢
  revert h
  simp
  omega

/-- The longest run of bytes of a class is a word of the class followed by something else. -/
theorem takeWhile_run {p : UInt8 → Bool} {w rest : Bytes} (hw : ∀ c ∈ w, p c = true)
    (hrest : ∀ c ∈ rest.head?, p c = false) : (w ++ rest).takeWhile p = w := by
  rw [List.takeWhile_append_of_pos hw]
  cases rest with
  | nil => simp
  | cons c tail => simp [hrest c rfl]

theorem dropWhile_run {p : UInt8 → Bool} {w rest : Bytes} (hw : ∀ c ∈ w, p c = true)
    (hrest : ∀ c ∈ rest.head?, p c = false) : (w ++ rest).dropWhile p = rest := by
  rw [List.dropWhile_append_of_pos hw]
  cases rest with
  | nil => simp
  | cons c tail => simp [hrest c rfl]

namespace Lexeme

/-- Where a word, a register, a number or the use of a label ends. -/
def Ends (rest : Bytes) : Prop := ∀ c ∈ rest.head?, isDelimiter c = true

theorem ends_nil : Ends [] := by simp [Ends]

theorem ends_cons {c : UInt8} {rest : Bytes} (h : isDelimiter c = true) : Ends (c :: rest) := by
  simpa [Ends] using h

theorem Ends.not_isIdent {rest : Bytes} (h : Ends rest) : ∀ c ∈ rest.head?, Ascii.isIdent c = false :=
  fun c hc => isIdent_of_isDelimiter (h c hc)

/-! ## Lexemes -/

theorem next_separator {c : UInt8} {rest : Bytes} (h : isSeparator c = true) : next (c :: rest) = next rest := by
  rw [next, if_pos h]

/-- A byte that neither parts lexemes nor starts a comment starts a lexeme. -/
theorem next_first {c : UInt8} {rest : Bytes} {r : Lexeme × Bytes} (hsep : isSeparator c = false)
    (hsemi : c ≠ Ascii.semicolon) (h : first c rest = .ok r) : next (c :: rest) = .ok (some r) := by
  rw [next, if_neg (by simp [hsep]), if_neg hsemi, h]

theorem first_bare {c : UInt8} {rest : Bytes} (h : Ascii.isIdent c = true) : first c rest = bare c rest := by
  rw [first, if_neg (ne_of_isIdent h (by decide)), if_neg (ne_of_isIdent h (by decide)),
    if_neg (ne_of_isIdent h (by decide)), if_neg (ne_of_isIdent h (by decide))]

theorem next_bare {c : UInt8} {rest : Bytes} {r : Lexeme × Bytes} (hc : Ascii.isIdent c = true)
    (h : bare c rest = .ok r) : next (c :: rest) = .ok (some r) :=
  next_first (isSeparator_of_isIdent hc) (ne_of_isIdent hc (by decide)) (by rw [first_bare hc, h])

/-- Letters up to a delimiter are a word. -/
theorem next_word {a : UInt8} {w rest : Bytes} (ha : Ascii.isLetter a = true)
    (hw : ∀ c ∈ w, Ascii.isLetter c = true) (hrest : Ends rest) :
    next (a :: (w ++ rest)) = .ok (some (.word (a :: w), rest)) := by
  have hrun : ∀ c ∈ w, (!(isDelimiter c || c == Ascii.dollar)) = true := by
    intro c hc
    have hident := isIdent_of_isLetter (hw c hc)
    simp [isDelimiter_of_isIdent hident, ne_of_isIdent hident (show Ascii.isIdent Ascii.dollar = false by decide)]
  have hend : ∀ c ∈ rest.head?, (!(isDelimiter c || c == Ascii.dollar)) = false := by
    intro c hc
    simp [hrest c hc]
  -- no digit follows the first letter, so this is no register
  have hdigit : (w ++ rest).head?.any Ascii.isDigit = false := by
    cases w with
    | cons c w => simp [isDigit_of_isLetter (hw c List.mem_cons_self)]
    | nil =>
      cases rest with
      | nil => rfl
      | cons c tail =>
        have hident := hrest.not_isIdent c rfl
        simp only [Ascii.isIdent, Bool.or_eq_false_iff] at hident
        simp [hident.1.2]
  -- and no number starts with a letter
  have hhex : startsHex (a :: (w ++ rest)) = false := by
    have hminus : a ≠ Ascii.minus := by rintro rfl; revert ha; decide
    have hzero : a ≠ Ascii.zero := by rintro rfl; revert ha; decide
    cases w ++ rest with
    | nil => simp [startsHex, hminus]
    | cons c tail => simp [startsHex, hminus, hzero]
  refine next_bare (isIdent_of_isLetter ha) ?_
  rw [bare, if_neg (by rw [hdigit]; simp), if_neg (by rw [hhex]; simp)]
  simp only [takeWhile_run hrun hend, dropWhile_run hrun hend]
  cases rest with
  | nil => rfl
  | cons c tail =>
    have hc : c ≠ Ascii.dollar := by
      rintro rfl
      have hdollar := hrest _ rfl
      revert hdollar
      decide
    simp [hc]

/-- `r` and digits up to a delimiter are a register. -/
theorem next_register {digits rest : Bytes} (hne : digits ≠ [])
    (hd : ∀ c ∈ digits, Ascii.isDigit c = true) (hrest : Ends rest) :
    next (0x72 :: (digits ++ rest)) = .ok (some (.register digits, rest)) := by
  have hend : ∀ c ∈ rest.head?, Ascii.isDigit c = false := by
    intro c hc
    have hident := hrest.not_isIdent c hc
    simp only [Ascii.isIdent, Bool.or_eq_false_iff] at hident
    exact hident.1.2
  have hhead : (digits ++ rest).head?.any Ascii.isDigit = true := by
    cases digits with
    | nil => exact absurd rfl hne
    | cons c tail => simp [hd c List.mem_cons_self]
  refine next_bare (by decide) ?_
  rw [bare, if_pos ⟨rfl, hhead⟩, registerDigits]
  simp only [takeWhile_run hd hend, dropWhile_run hd hend]
  have hall : rest.head?.all isDelimiter = true := by
    cases rest with
    | nil => rfl
    | cons c tail => exact hrest c rfl
  rw [if_pos hall]

theorem Ends.not_number {rest : Bytes} (h : Ends rest) : ∀ c ∈ rest.head?, (!isDelimiter c) = false :=
  fun c hc => by simp [h c hc]

/-! ### Numbers -/

/-- How a hexadecimal literal begins: with a minus sign or none, then `0x` or `0X`. -/
def hexMark (negative upper : Bool) : Bytes :=
  (if negative then bytes "-" else []) ++ if upper then bytes "0X" else bytes "0x"

/-- The ways to write a literal as an operand: behind a dollar sign, behind `U$`, or bare. -/
inductive Form where
  | wide
  | marked
  | bare
  deriving DecidableEq, Repr

namespace Form

def width : Form → Width
  | .wide => .wide
  | .marked | .bare => .narrow

/-- What stands before the literal. -/
def mark : Form → Bytes
  | .wide => bytes "$"
  | .marked => bytes "U$"
  | .bare => []

/-- A text that can be meant as a literal: there are no separators, quotes and semicolons in it, and it does not
start an expression. A bare one begins as a hexadecimal literal. -/
structure Admits (f : Form) (text : Bytes) : Prop where
  unbroken : ∀ c ∈ text, isDelimiter c = false
  head : text.head? ≠ some Ascii.openParen
  bare : f = .bare → ∃ negative upper rest, text = hexMark negative upper ++ rest

/-- Letters and digits behind `0x` can be written in every form. -/
theorem admits_hex (f : Form) {digits : Bytes} (h : ∀ c ∈ digits, Ascii.isIdent c = true) :
    f.Admits (bytes "0x" ++ digits) where
  unbroken c hc := by
    rcases List.mem_append.mp hc with hc | hc
    · exact isDelimiter_of_isIdent (List.all_eq_true.mp (show (bytes "0x").all Ascii.isIdent = true from rfl) c hc)
    · exact isDelimiter_of_isIdent (h c hc)
  head := show some (0x30 : UInt8) ≠ some Ascii.openParen by decide
  bare _ := ⟨false, false, digits, rfl⟩

end Form

/-- The text behind a mark is read up to a delimiter, with the width that the mark says. -/
theorem afterMark_text {width : Width} {text rest : Bytes} (h : ∀ c ∈ text, isDelimiter c = false)
    (hhead : text.head? ≠ some Ascii.openParen) (hrest : Ends rest) :
    afterMark width (text ++ rest) = .ok (.number width text, rest) := by
  have hrun : ∀ c ∈ text, (!isDelimiter c) = true := fun c hc => by simp [h c hc]
  have htake := takeWhile_run hrun hrest.not_number
  have hdrop := dropWhile_run hrun hrest.not_number
  cases hall : text ++ rest with
  | nil =>
    obtain ⟨rfl, rfl⟩ := List.append_eq_nil_iff.mp hall
    rfl
  | cons c tail =>
    have hparen : c ≠ Ascii.openParen := by
      cases text with
      | cons d more =>
        obtain rfl : d = c := (List.cons.inj hall).1
        simpa using hhead
      | nil =>
        rintro rfl
        have hdelimiter := hrest Ascii.openParen (by rw [List.nil_append] at hall; rw [hall]; rfl)
        revert hdelimiter
        decide
    rw [hall] at htake hdrop
    simp only [afterMark, if_neg hparen, htake, hdrop]

/-- What begins as a hexadecimal literal is read up to a delimiter, as a narrow number. -/
theorem bare_hex {a : UInt8} {text rest : Bytes} (ha : a ≠ 0x72) (hhex : startsHex (a :: (text ++ rest)) = true)
    (h : ∀ c ∈ text, isDelimiter c = false) (hrest : Ends rest) :
    Lexeme.bare a (text ++ rest) = .ok (.number .narrow (a :: text), rest) := by
  have hrun : ∀ c ∈ text, (!isDelimiter c) = true := fun c hc => by simp [h c hc]
  rw [Lexeme.bare, if_neg fun hr => ha hr.1, if_pos hhex, takeWhile_run hrun hrest.not_number,
    dropWhile_run hrun hrest.not_number]

/-- A literal in one of its forms is read up to a delimiter, with the width of the form. -/
theorem next_literal (f : Form) {text rest : Bytes} (h : f.Admits text) (hrest : Ends rest) :
    next (f.mark ++ (text ++ rest)) = .ok (some (.number f.width text, rest)) := by
  cases f with
  | wide => exact next_first (by decide) (by decide) (afterMark_text h.unbroken h.head hrest)
  | marked =>
    have hbare : Lexeme.bare 0x55 (Ascii.dollar :: (text ++ rest)) = afterMark .narrow (text ++ rest) := rfl
    exact next_bare (by decide) (hbare.trans (afterMark_text h.unbroken h.head hrest))
  | bare =>
    obtain ⟨negative, upper, digits, rfl⟩ := h.bare rfl
    -- the first byte is a minus sign or a zero, and neither starts anything else
    have hread {a : UInt8} {more : Bytes} (htext : hexMark negative upper ++ digits = a :: more)
        (hsep : isSeparator a = false) (hsemi : a ≠ Ascii.semicolon) (hr : a ≠ 0x72)
        (hfirst : first a (more ++ rest) = Lexeme.bare a (more ++ rest))
        (hhex : startsHex (a :: (more ++ rest)) = true) :
        next (hexMark negative upper ++ digits ++ rest) =
          .ok (some (.number .narrow (hexMark negative upper ++ digits), rest)) := by
      have hunbroken := h.unbroken
      rw [htext] at hunbroken
      rw [htext]
      exact next_first hsep hsemi
        (hfirst.trans (bare_hex hr hhex (fun c hc => hunbroken c (List.mem_cons_of_mem a hc)) hrest))
    cases negative with
    | false => cases upper <;> exact hread rfl (by decide) (by decide) (by decide) rfl rfl
    | true => cases upper <;> exact hread rfl (by decide) (by decide) (by decide) rfl rfl

/-- A dot and a name up to a delimiter use a label. -/
theorem next_labelUse {name rest : Bytes} (hne : name ≠ []) (h : ∀ c ∈ name, Ascii.isIdent c = true)
    (hrest : Ends rest) :
    next (Ascii.dot :: (name ++ rest)) = .ok (some (.labelUse name, rest)) := by
  have hlabel : label (name ++ rest) = .ok (.labelUse name, rest) := by
    rw [label]
    simp only [takeWhile_run h hrest.not_isIdent, dropWhile_run h hrest.not_isIdent]
    rw [if_neg (by simpa using hne)]
    cases rest with
    | nil => rfl
    | cons c tail =>
      have hcolon : c ≠ Ascii.colon := by
        rintro rfl
        have hc := hrest _ rfl
        revert hc
        decide
      simp [hcolon]
  exact next_first (by decide) (by decide) hlabel

/-- A dot, a name and a colon define a label. -/
theorem next_labelDefinition {name rest : Bytes} (hne : name ≠ [])
    (h : ∀ c ∈ name, Ascii.isIdent c = true) :
    next (Ascii.dot :: (name ++ Ascii.colon :: rest)) = .ok (some (.labelDefinition name, rest)) := by
  have hend : ∀ c ∈ (Ascii.colon :: rest).head?, Ascii.isIdent c = false := by
    intro c hc
    obtain rfl : Ascii.colon = c := by simpa using hc
    decide
  have hlabel : label (name ++ Ascii.colon :: rest) = .ok (.labelDefinition name, rest) := by
    rw [label]
    simp only [takeWhile_run h hend, dropWhile_run h hend]
    rw [if_neg (by simpa using hne)]
    rfl
  exact next_first (by decide) (by decide) hlabel

/-- Raw text between quotes is a string. -/
theorem next_string {text raw rest : Bytes}
    (h : quoted Ascii.quote .stringUnterminated text = .ok (raw, rest)) :
    next (Ascii.quote :: text) = .ok (some (.string raw, rest)) := by
  refine next_first (by decide) (by decide) ?_
  rw [first, if_pos rfl, h]

end Lexeme

/-! ## Reading a line -/

variable {scope : Scope} {line : Int} {d next : Draft} {text rest : Bytes} {l : Lexeme} {t : Token}

/-- Reading a line lexeme by lexeme, without the bound that makes it end. -/
theorem lexFrom_eq : lexFrom scope line d text =
    match Lexeme.next text with
    | .error cause => .error cause
    | .ok none => .ok d
    | .ok (some (l, rest)) =>
        match l.token scope line with
        | .error cause => .error cause
        | .ok t =>
            match d.offer t with
            | .error cause => .error cause
            | .ok next => lexFrom scope line next rest := by
  rw [lexFrom]
  split
  next h => rw [h]
  next h => rw [h]
  next l rest h =>
    cases ht : l.token scope line with
    | error cause => simp only [h, ht]
    | ok t => cases ho : d.offer t <;> simp only [h, ht, ho]

/-- A lexeme whose token is accepted: reading goes on behind it. -/
theorem lexFrom_next (hn : Lexeme.next text = .ok (some (l, rest))) (ht : l.token scope line = .ok t)
    (ho : d.offer t = .ok next) : lexFrom scope line d text = lexFrom scope line next rest := by
  rw [lexFrom_eq, hn]
  simp only [ht, ho]

/-- A lexeme without a value: the line is refused. -/
theorem lexFrom_invalid {cause : Cause} (hn : Lexeme.next text = .ok (some (l, rest)))
    (ht : l.token scope line = .error cause) : lexFrom scope line d text = .error cause := by
  rw [lexFrom_eq, hn]
  simp only [ht]

theorem lexFrom_end (hn : Lexeme.next text = .ok none) : lexFrom scope line d text = .ok d := by
  rw [lexFrom_eq, hn]

/-- Bytes that part lexemes are skipped. -/
theorem lexFrom_separator {c : UInt8} (h : isSeparator c = true) :
    lexFrom scope line d (c :: text) = lexFrom scope line d text := by
  rw [lexFrom_eq, Lexeme.next_separator h, ← lexFrom_eq]

/-- A line whose tokens close all slots has these tokens. -/
theorem lexLine_of_lexFrom {number : Nat} {ts : List Token}
    (h : lexFrom scope number {} text = .ok (.of ts.reverse [])) : lexLine scope number text = .ok ts := by
  rw [lexLine, h]
  simp [Draft.finish]

/-- The tokens of a line are those of the draft that it is read to. -/
theorem lexFrom_of_lexLine {number : Nat} {ts : List Token} (h : lexLine scope number text = .ok ts) :
    ∃ d, lexFrom scope number {} text = .ok d ∧ ts = d.tokens.reverse := by
  unfold lexLine at h
  split at h
  · cases h
  next d hd =>
    split at h
    · cases h
    next tokens hfinish =>
      obtain rfl := Except.ok.inj h
      unfold Draft.finish at hfinish
      split at hfinish
      · exact ⟨d, hd, (Except.ok.inj hfinish).symm⟩
      · cases hfinish

end WordMachine.Assembly
