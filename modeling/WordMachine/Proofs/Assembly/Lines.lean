import Mathlib
import WordMachine.Proofs.Assembly.Items
import WordMachine.Proofs.Assembly.Lexemes

/-!
# `Proofs.Assembly.Lines` — instructions on lines

A mnemonic with its operands behind it, parted by commas, is read as that instruction. Such a line includes
nothing, so a text of such lines is read as it stands, whatever library there is.

Contents:
* `hexLiteral?_hex`, `Token.value_wide`, `Token.value_narrow`, `register_decimal`, `Operation.mnemonic_letters`:
  literals and mnemonics;
* `operandText`, `Fills`, `lexFrom_code`: reading an instruction;
* `Bytes.isInner`, `isInner_code`: the bytes of lines;
* `ofLine_eq_other_iff`, `ofLine_of_head`, `ofLine_code`, `expand_other`, `Assembler.expand_lines`,
  `Assembler.expand_line`: lines that include nothing;
* `Assembler.parse_eq`: a text is assembled from its lines.
-/

namespace WordMachine

/-! ## Literals -/

/-- A hexadecimal literal reads back if its number fits the width. -/
theorem Assembly.hexLiteral?_hex (bits n : Nat) :
    Assembly.hexLiteral? bits (bytes "0x" ++ Numeral.hex n) =
      if n < Nat.pow 2 bits then some n else none := by
  have hword := @Numeral.word?_render 16 bits (by decide) (by decide) n
  show (Numeral.word? 16 bits (Numeral.render 16 n)).map (fun k => k) = _
  rw [hword]
  by_cases h : n < Nat.pow 2 bits
  · rw [if_pos h]
    rfl
  · rw [if_neg h]
    rfl

theorem Assembly.valued_eq {t : Assembly.Token} {v : UInt64} (h : t.value = .ok v) : Assembly.valued t = .ok t := by
  simp [Assembly.valued, h]

theorem Assembly.Token.value_wide {n : Nat} (h : n < Nat.pow 2 64) (line : Int) :
    Assembly.Token.value ⟨.int64, bytes "0x" ++ Numeral.hex n, line⟩ = .ok n.toUInt64 := by
  simp only [Assembly.Token.value, Assembly.hexLiteral?_hex, if_pos h]

theorem Assembly.Token.value_narrow (n : Nat) (line : Int) :
    Assembly.Token.value ⟨.int32, bytes "0x" ++ Numeral.hex n, line⟩ =
      if n < Nat.pow 2 32 then .ok n.toUInt64 else .error .numberInvalid := by
  simp only [Assembly.Token.value, Assembly.hexLiteral?_hex]
  by_cases h : n < Nat.pow 2 32
  · rw [if_pos h, if_pos h]
  · rw [if_neg h, if_neg h]

/-- The text of a register below sixteen names that register. -/
theorem Assembly.register_decimal {n : Nat} (h : n < 16) (line : Int) :
    Assembly.Token.register ⟨.register, Numeral.decimal n, line⟩ = .ok ⟨n, h⟩ := by
  have hall : ∀ n : Fin 16, Numeral.signed? (Numeral.decimal n) = some (n.val : Int) := by decide
  have hsigned := hall ⟨n, h⟩
  simp only [Assembly.Token.register, hsigned]
  rw [dif_pos ⟨by omega, by omega⟩]
  simp

theorem Operation.mnemonic_letters (op : Operation) :
    ∃ a w, op.mnemonic = a :: w ∧ Ascii.isLetter a = true ∧ ∀ c ∈ w, Ascii.isLetter c = true := by
  have hne : op.mnemonic ≠ [] := by cases op <;> exact List.cons_ne_nil _ _
  have hall : ∀ c ∈ op.mnemonic, Ascii.isLetter c = true := List.all_eq_true.mp (by cases op <;> rfl)
  obtain ⟨a, w, hw⟩ := List.exists_cons_of_ne_nil hne
  rw [hw] at hall
  exact ⟨a, w, hw, hall a List.mem_cons_self, fun c hc => hall c (List.mem_cons_of_mem a hc)⟩

/-! ## Bytes of lines -/

namespace Bytes

/-- Bytes that no line ending is made of. -/
def isInner (c : UInt8) : Bool := c != Ascii.newline && c != Ascii.carriageReturn

theorem isInner_of_isIdent {c : UInt8} (h : Ascii.isIdent c = true) : isInner c = true := by
  have hnewline := Assembly.ne_of_isIdent h (show Ascii.isIdent Ascii.newline = false by decide)
  have hreturn := Assembly.ne_of_isIdent h (show Ascii.isIdent Ascii.carriageReturn = false by decide)
  simp [isInner, hnewline, hreturn]

theorem isLine_of_isInner {line : Bytes} (h : ∀ c ∈ line, isInner c = true) : IsLine line := by
  refine ⟨fun hmem => ?_, fun hlast => ?_⟩
  · have hinner := h _ hmem
    revert hinner
    decide
  · have hinner := h _ (List.mem_of_getLast? hlast)
    revert hinner
    decide


end Bytes

namespace Assembly

/-! ## Reading an instruction -/

/-- The operands of an instruction as they stand behind its mnemonic. -/
def operandText (texts : List Bytes) : Bytes :=
  if texts.isEmpty then [] else Ascii.space :: List.intercalate (bytes ", ") texts

/-- What stands after the first operand: a comma and a blank before each of the others. -/
def continued (texts : List Bytes) : Bytes := texts.flatMap (bytes ", " ++ ·)

theorem operandText_cons (text : Bytes) (texts : List Bytes) :
    operandText (text :: texts) = Ascii.space :: (text ++ continued texts) := by
  have hjoin : List.intercalate (bytes ", ") (text :: texts) = text ++ continued texts := by
    induction texts generalizing text with
    | nil => simp [List.intercalate, continued]
    | cons other texts ih =>
      have hother := ih other
      simp only [List.intercalate, List.intersperse_cons_cons, List.flatten_cons] at hother ⊢
      rw [hother]
      simp [continued]
  rw [operandText, if_neg (by simp), hjoin]

theorem ends_continued (texts : List Bytes) : Lexeme.Ends (continued texts) := by
  cases texts with
  | nil => exact Lexeme.ends_nil
  | cons text texts => exact @Lexeme.ends_cons Ascii.comma _ (by decide)

theorem ends_operandText (texts : List Bytes) : Lexeme.Ends (operandText texts) := by
  cases texts with
  | nil => exact Lexeme.ends_nil
  | cons text texts =>
    rw [operandText_cons]
    exact Lexeme.ends_cons (by decide)

variable {scope : Scope} {line : Int}

/-- A mnemonic opens the slots of its operation. -/
theorem lexFrom_mnemonic (op : Operation) {rest : Bytes} (hrest : Lexeme.Ends rest) :
    lexFrom scope line {} (op.mnemonic ++ rest) =
      lexFrom scope line (.of [⟨.instruction, op.mnemonic, line⟩] op.operands) rest := by
  obtain ⟨a, w, hmnemonic, ha, hw⟩ := op.mnemonic_letters
  have hnext : Lexeme.next (op.mnemonic ++ rest) = .ok (some (.word op.mnemonic, rest)) := by
    rw [hmnemonic]
    exact Lexeme.next_word ha hw hrest
  have htoken : (Lexeme.word op.mnemonic).token scope line = .ok ⟨.instruction, op.mnemonic, line⟩ := by
    unfold Lexeme.token
    simp
  refine lexFrom_next hnext htoken ?_
  simp [Draft.offer, Draft.slotsOf]

section Operands

variable {α : Type} {text : α → Bytes} {kind : α → Operand} {token : α → Token}
  {fits : α → Bool} {cause : Cause}

/-- An operand as it is written fills a slot of its kind, unless it does not fit. -/
def Fills (scope : Scope) (line : Int) (text : Bytes) (kind : Operand) (token : Token) (fits : Bool)
    (cause : Cause) : Prop :=
  ∀ (rest : Bytes) (ts : List Token) (slots : List Operand), Lexeme.Ends rest →
    lexFrom scope line (.of ts (kind :: slots)) (text ++ rest) =
      if fits then lexFrom scope line (.of (token :: ts) slots) rest else .error cause

/-- An operand that is read as a token of the slot's kind fills the slot. -/
theorem fills_of_next {text : Bytes} {kind : Operand} {l : Lexeme} {t : Token} (hkind : t.operand? = some kind)
    (hnext : ∀ rest, Lexeme.Ends rest → Lexeme.next (text ++ rest) = .ok (some (l, rest)))
    (htoken : l.token scope line = .ok t) : Fills scope line text kind t true cause := by
  intro rest ts slots hrest
  rw [if_pos rfl]
  refine lexFrom_next (hnext rest hrest) htoken ?_
  have hfill : (Draft.of ts (kind :: slots)).fill t t.operand? = .ok (.of (t :: ts) slots) := by
    simp [Draft.fill, hkind]
  obtain ⟨tkind, text, line⟩ := t
  cases tkind with
  | register | int32 | int64 | labelUse | char => exact hfill
  | _ => cases hkind

theorem lexFrom_continued {args : List α}
    (hargs : ∀ a ∈ args, Fills scope line (text a) (kind a) (token a) (fits a) cause) (ts : List Token) :
    lexFrom scope line (.of ts (args.map kind)) (continued (args.map text)) =
      if args.all fits then .ok (.of ((args.map token).reverse ++ ts) []) else .error cause := by
  induction args generalizing ts with
  | nil => exact lexFrom_end rfl
  | cons a args ih =>
    have hcomma : isSeparator Ascii.comma = true := by decide
    have hspace : isSeparator Ascii.space = true := by decide
    have htext : continued ((a :: args).map text) =
        Ascii.comma :: Ascii.space :: (text a ++ continued (args.map text)) := rfl
    rw [htext, lexFrom_separator hcomma, lexFrom_separator hspace, List.map_cons,
      hargs a List.mem_cons_self _ ts (args.map kind) (ends_continued _),
      ih fun b hb => hargs b (List.mem_cons_of_mem a hb)]
    cases hf : fits a <;> simp [hf]

/-- A mnemonic and the operands behind it are read as an instruction, unless one does not fit. -/
theorem lexFrom_code (op : Operation) {args : List α} (hkinds : args.map kind = op.operands)
    (hargs : ∀ a ∈ args, Fills scope line (text a) (kind a) (token a) (fits a) cause) :
    lexFrom scope line {} (op.mnemonic ++ operandText (args.map text)) =
      if args.all fits then .ok (.of ((args.map token).reverse ++ [⟨.instruction, op.mnemonic, line⟩]) [])
      else .error cause := by
  rw [lexFrom_mnemonic op (ends_operandText _), ← hkinds]
  cases args with
  | nil => exact lexFrom_end rfl
  | cons a args =>
    have hspace : isSeparator Ascii.space = true := by decide
    have htext : operandText ((a :: args).map text) = Ascii.space :: (text a ++ continued (args.map text)) :=
      operandText_cons _ _
    rw [htext, lexFrom_separator hspace, List.map_cons,
      hargs a List.mem_cons_self _ _ (args.map kind) (ends_continued _),
      lexFrom_continued fun b hb => hargs b (List.mem_cons_of_mem a hb)]
    cases hf : fits a <;> simp [hf]

end Operands

theorem isInner_code (op : Operation) {texts : List Bytes}
    (htexts : ∀ text ∈ texts, ∀ c ∈ text, Bytes.isInner c = true) :
    ∀ c ∈ op.mnemonic ++ operandText texts, Bytes.isInner c = true := by
  have hmnemonic : ∀ c ∈ op.mnemonic, Bytes.isInner c = true := by
    intro c hc
    obtain ⟨a, w, heq, ha, hletters⟩ := op.mnemonic_letters
    rw [heq] at hc
    rcases List.mem_cons.mp hc with rfl | hc
    · exact Bytes.isInner_of_isIdent (isIdent_of_isLetter ha)
    · exact Bytes.isInner_of_isIdent (isIdent_of_isLetter (hletters c hc))
  refine List.forall_mem_append.mpr ⟨hmnemonic, ?_⟩
  cases texts with
  | nil => simp [operandText]
  | cons text texts =>
    rw [operandText_cons]
    refine List.forall_mem_cons.mpr ⟨by decide, List.forall_mem_append.mpr ⟨htexts text List.mem_cons_self, ?_⟩⟩
    intro c hc
    obtain ⟨other, hother, hc⟩ := List.mem_flatMap.mp hc
    rcases List.mem_append.mp hc with hc | hc
    · exact List.all_eq_true.mp (show (bytes ", ").all Bytes.isInner = true from rfl) c hc
    · exact htexts other (List.mem_cons_of_mem text hother) c hc

end Assembly

/-! ## Lines that include nothing -/

theorem Utf8.unitsFrom_ascii {w : Bytes} (hw : ∀ c ∈ w, c < 0x80) (rest : Bytes) :
    unitsFrom 0 (w ++ rest) = (w.map fun c => (some c.toNat, [c])) ++ unitsFrom 0 rest := by
  induction w with
  | nil => rfl
  | cons c w ih =>
    have hnext : next (c :: (w ++ rest)) = some (some c.toNat, 1) := by
      unfold next
      exact if_pos (hw c List.mem_cons_self)
    rw [List.cons_append, unitsFrom, hnext]
    simp only [Nat.sub_self]
    rw [ih fun d hd => hw d (List.mem_cons_of_mem c hd)]
    rfl

/-- Letters up to a blank are the first field of a line. -/
theorem Bytes.firstField_word {w rest : Bytes} (hw : ∀ c ∈ w, Ascii.isLetter c = true) (hne : w ≠ [])
    (hrest : rest = [] ∨ ∃ more, rest = Ascii.space :: more) : firstField (w ++ rest) = w := by
  have hletter : ∀ c, Ascii.isLetter c = true → c < 0x80 ∧ isBlankScalar c.toNat = false :=
    forall_byte (by decide +kernel)
  have hword : ∀ u ∈ w.map fun c => (some c.toNat, [c]), isBlankUnit u = false := by
    intro u hu
    obtain ⟨c, hc, rfl⟩ := List.mem_map.mp hu
    exact (hletter c (hw c hc)).2
  -- the run of units that are not blank ends where the word does
  have hhead : ∀ u ∈ (Utf8.unitsFrom 0 rest).head?, isBlankUnit u = true := by
    rcases hrest with rfl | ⟨more, rfl⟩
    · intro u hu
      cases hu
    · intro u hu
      have hascii : ∀ c ∈ [Ascii.space], c < 0x80 := List.forall_mem_singleton.mpr (by decide)
      have hspace := Utf8.unitsFrom_ascii hascii more
      rw [List.singleton_append] at hspace
      rw [hspace] at hu
      obtain rfl := Option.some.inj hu
      rfl
  have hdrop : ((w.map fun c => (some c.toNat, [c])) ++ Utf8.unitsFrom 0 rest).dropWhile isBlankUnit =
      (w.map fun c => (some c.toNat, [c])) ++ Utf8.unitsFrom 0 rest := by
    obtain ⟨c, w, rfl⟩ := List.exists_cons_of_ne_nil hne
    have hc := hword _ List.mem_cons_self
    rw [List.map_cons, List.cons_append, List.dropWhile_cons_of_neg (by rw [hc]; decide)]
  have htake : ((w.map fun c => (some c.toNat, [c])) ++ Utf8.unitsFrom 0 rest).takeWhile (fun u => !isBlankUnit u) =
      w.map fun c => (some c.toNat, [c]) := by
    rw [List.takeWhile_append_of_pos fun u hu => by rw [hword u hu]; rfl]
    cases hunits : Utf8.unitsFrom 0 rest with
    | nil => simp
    | cons u units =>
      have hu := hhead u (by rw [hunits]; rfl)
      simp [hu]
  rw [firstField, Utf8.units, Utf8.unitsFrom_ascii fun c hc => (hletter c (hw c hc)).1, hdrop, htake, ofUnits,
    List.flatMap_map]
  simp

/-- A blank in front of a line changes nothing about its first field. -/
theorem Bytes.firstField_blank {c : UInt8} (rest : Bytes) (hascii : c < 0x80)
    (hblank : isBlankScalar c.toNat = true) : firstField (c :: rest) = firstField rest := by
  have hunits : Utf8.units (c :: rest) = (some c.toNat, [c]) :: Utf8.unitsFrom 0 rest :=
    Utf8.unitsFrom_ascii (List.forall_mem_singleton.mpr hascii) rest
  have hunit : isBlankUnit (some c.toNat, [c]) = true := hblank
  rw [firstField, hunits, List.dropWhile_cons_of_pos hunit, firstField, Utf8.units]

namespace Assembly

/-- A line includes nothing if its first field is another word. -/
theorem ofLine_eq_other_iff {line : Bytes} :
    Directive.ofLine line = .other ↔ Bytes.firstField line ≠ Directive.keyword := by
  unfold Directive.ofLine
  split
  next hne => exact ⟨fun _ => bne_iff_ne.mp hne, fun _ => rfl⟩
  next heq =>
    refine ⟨fun h => ?_, fun hne => absurd (bne_iff_ne.mpr hne) heq⟩
    split at h
    · cases h
    · split at h
      · cases h
      · split at h
        · cases h
        · split at h <;> cases h

/-- A line that starts with another character than a blank and the first letter of the keyword includes
nothing. -/
theorem ofLine_of_head {c : UInt8} (rest : Bytes)
    (h : c < 0x80 ∧ isBlankScalar c.toNat = false ∧ c ≠ 0x69) : Directive.ofLine (c :: rest) = .other := by
  obtain ⟨hascii, hblank, hne⟩ := h
  have hunits : Utf8.units (c :: rest) = (some c.toNat, [c]) :: Utf8.unitsFrom 0 rest :=
    Utf8.unitsFrom_ascii (List.forall_mem_singleton.mpr hascii) rest
  have hunit : isBlankUnit (some c.toNat, [c]) = false := hblank
  have hfield : ∃ more, Bytes.firstField (c :: rest) = c :: more := by
    rw [Bytes.firstField, hunits, List.dropWhile_cons_of_neg (by simp [hunit]),
      List.takeWhile_cons_of_pos (by simp [hunit])]
    exact ⟨_, rfl⟩
  obtain ⟨more, hmore⟩ := hfield
  rw [ofLine_eq_other_iff, hmore]
  exact fun heq => hne (List.cons.inj heq).1

/-- An instruction on a line includes nothing. -/
theorem ofLine_code (op : Operation) (texts : List Bytes) :
    Directive.ofLine (op.mnemonic ++ operandText texts) = .other := by
  obtain ⟨a, w, heq, ha, hw⟩ := op.mnemonic_letters
  have hletters : ∀ c ∈ op.mnemonic, Ascii.isLetter c = true := by
    rw [heq]
    exact List.forall_mem_cons.mpr ⟨ha, hw⟩
  have hrest : operandText texts = [] ∨ ∃ more, operandText texts = Ascii.space :: more := by
    cases texts with
    | nil => exact .inl rfl
    | cons text texts => exact .inr ⟨_, operandText_cons text texts⟩
  have hfield := Bytes.firstField_word hletters (by rw [heq]; exact List.cons_ne_nil a w) hrest
  have hkeyword : (op.mnemonic != Directive.keyword) = true := by cases op <;> rfl
  rw [Directive.ofLine, hfield, if_pos hkeyword]

/-- Lines that include nothing are spliced as they are. -/
theorem spliceLines_other {lib : Library} {nested : List Bytes → Bytes → Except IncludeError Library.Spliced}
    {seen lines : List Bytes} (h : ∀ line ∈ lines, Directive.ofLine line = .other) (number : Nat) :
    lib.spliceLines nested seen number lines = .ok ⟨lines, seen⟩ := by
  induction lines generalizing number with
  | nil => rfl
  | cons line lines ih =>
    simp only [Library.spliceLines, h line List.mem_cons_self]
    rw [ih fun l hl => h l (List.mem_cons_of_mem line hl)]

/-- A text of lines that include nothing is expanded to itself, whatever files there are. -/
theorem expand_other (lib : Library) {lines : List Bytes} (hlines : ∀ line ∈ lines, Bytes.IsLine line)
    (h : ∀ line ∈ lines, Directive.ofLine line = .other) :
    lib.expand (lines.flatMap fun line => line ++ [Ascii.newline]) =
      .ok (lines.flatMap fun line => line ++ [Ascii.newline]) := by
  simp only [Library.expand, Library.splice, Bytes.lines_render hlines, spliceLines_other h]

namespace Assembler

variable {a : Assembler} {text : Bytes}

theorem expand_of_library?_none (ha : a.library? = none) : a.expand text = .ok text := by
  simp only [expand, ha]

/-- A text of lines that include nothing is expanded to itself. -/
theorem expand_lines {lines : List Bytes} (hlines : ∀ line ∈ lines, Bytes.IsLine line)
    (h : ∀ line ∈ lines, Directive.ofLine line = .other) :
    a.expand (lines.flatMap fun line => line ++ [Ascii.newline]) =
      .ok (lines.flatMap fun line => line ++ [Ascii.newline]) := by
  cases hlibrary : a.library? with
  | none => exact expand_of_library?_none hlibrary
  | some lib => simp only [expand, hlibrary, expand_other lib hlines h]

/-- A line that includes nothing is expanded to itself, but for the newline that ends it. -/
theorem expand_line (a : Assembler) {line : Bytes} (hline : Bytes.IsLine line) (hne : line ≠ [])
    (hother : Directive.ofLine line = .other) :
    ∃ expanded, a.expand line = .ok expanded ∧ Bytes.lines expanded = [line] := by
  have hlines := Bytes.lines_eq_singleton hline hne
  cases hlibrary : a.library? with
  | none => exact ⟨line, expand_of_library?_none hlibrary, hlines⟩
  | some lib =>
    have hsplice := @spliceLines_other lib (lib.splice lib.depth) [] [line] (List.forall_mem_singleton.mpr hother) 1
    refine ⟨[line].flatMap (· ++ [Ascii.newline]), ?_, Bytes.lines_render (List.forall_mem_singleton.mpr hline)⟩
    simp only [expand, hlibrary, Library.expand, Library.splice, hlines, hsplice]

/-- A text is assembled from the lines that it is expanded to. -/
theorem parse_eq {expanded : Bytes} (h : a.expand text = .ok expanded) :
    (a.parse text).1 = (lexLines a.initialScope 1 (Bytes.lines expanded)).bind assemble := by
  have hexpand : a.reset.expand text = .ok expanded := h
  have hscope : (⟨a.reset.equates?.getD a.reset.initialEquates, a.reset.interpreter⟩ : Scope) =
      a.initialScope := rfl
  simp only [parse, lex, tokenize, hexpand, hscope]
  cases lexLines a.initialScope 1 (Bytes.lines expanded) <;> rfl

end Assembler

end Assembly

end WordMachine
