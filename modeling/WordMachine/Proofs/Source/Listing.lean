import Mathlib
import WordMachine.Proofs.Assembly.Denotation
import WordMachine.Proofs.Assembly.Lines
import WordMachine.Source.Compiler

/-!
# `Proofs.Source.Listing` — generated lines as assembly

A line of generated code that is well formed lexes to the items it was meant as, unless it holds a short
word that does not fit its slot. So the assembler sees exactly the generated lines.

Contents:
* `Argument.token`, `Argument.WellFormed`, `Argument.fits`;
* `Line.items`, `Line.WellFormed`, `Line.fits`, `lexLine_line`;
* `itemsFrom`, `parse_render_fits`, `parse_render_unfit`: assembling a whole listing.
-/

namespace WordMachine

open Assembly (Item Draft Lexeme Scope)
open Bytes (isInner isInner_of_isIdent isLine_of_isInner)

namespace Source

/-! ## Arguments -/

/-- A label has a name that can stand after a dot. -/
def Label.Named (l : Label) : Prop := l.name ≠ [] ∧ ∀ c ∈ l.name, Ascii.isIdent c = true

namespace Argument

/-- The slot that an argument fills. -/
def kind : Argument → Operand
  | .register _ => .register
  | .word _ | .truth _ => .imm64
  | .short _ | .label _ => .imm32

/-- The lexeme that an argument is written as. -/
def lexeme : Argument → Lexeme
  | .register n => .register (Numeral.decimal n)
  | .word value => .number .wide (bytes "0x" ++ Numeral.hex value.toNat)
  | .truth false => .number .wide (bytes "0x00")
  | .truth true => .number .wide (bytes "0x01")
  | .short value => .number .narrow (bytes "0x" ++ Numeral.hex value.toNat)
  | .label l => .labelUse l.name

/-- The token that an argument is read as. -/
def token (line : Int) : Argument → Assembly.Token
  | .register n => ⟨.register, Numeral.decimal n, line⟩
  | .word value => ⟨.int64, bytes "0x" ++ Numeral.hex value.toNat, line⟩
  | .truth false => ⟨.int64, bytes "0x00", line⟩
  | .truth true => ⟨.int64, bytes "0x01", line⟩
  | .short value => ⟨.int32, bytes "0x" ++ Numeral.hex value.toNat, line⟩
  | .label l => ⟨.labelUse, l.name, line⟩

/-- An argument names a register there is, or a label that can be written. -/
def WellFormed : Argument → Prop
  | .register n => n < 16
  | .label l => l.Named
  | _ => True

/-- A short word is below `2 ^ 32`. -/
def fits : Argument → Bool
  | .short value => value.toNat < UInt32.size
  | _ => true

@[simp] theorem operand?_token (a : Argument) (line : Int) : (a.token line).operand? = some a.kind := by
  cases a with
  | truth value => cases value <;> rfl
  | _ => rfl

@[simp] theorem line_token (a : Argument) (line : Int) : (a.token line).line = line := by
  cases a with
  | truth value => cases value <;> rfl
  | _ => rfl

theorem value_word (value : UInt64) (line : Int) : ((Argument.word value).token line).value = .ok value := by
  rw [token, Assembly.Token.value_wide value.toNat_lt]
  simp

theorem value_truth (value : Bool) (line : Int) :
    ((Argument.truth value).token line).value = .ok (if value then 1 else 0) := by
  cases value <;> rfl

theorem value_short (value : UInt64) (line : Int) :
    ((Argument.short value).token line).value =
      if value.toNat < UInt32.size then .ok value else .error .numberInvalid := by
  rw [token, Assembly.Token.value_narrow, show Nat.pow 2 32 = UInt32.size from rfl]
  simp

/-- A well-formed argument that fits has a value. -/
theorem hasValue_token {a : Argument} (hw : a.WellFormed) (hf : a.fits = true) (line : Int) :
    (a.token line).HasValue := by
  cases a with
  | register n => exact ⟨_, Assembly.register_decimal hw line⟩
  | word value => exact ⟨_, value_word value line⟩
  | truth value =>
    have hvalue := value_truth value line
    cases value <;> exact ⟨_, hvalue⟩
  | short value =>
    have hvalue := value_short value line
    rw [if_pos (by simpa [fits] using hf)] at hvalue
    exact ⟨_, hvalue⟩
  | label l => trivial

/-- An argument is read as the lexeme it is written as. -/
theorem next_text {a : Argument} (hw : a.WellFormed) {rest : Bytes} (hrest : Lexeme.Ends rest) :
    Lexeme.next (a.text ++ rest) = .ok (some (a.lexeme, rest)) := by
  have hhex (f : Lexeme.Form) (n : Nat) : f.Admits (bytes "0x" ++ Numeral.hex n) :=
    f.admits_hex fun c hc => Numeral.isIdent_of_mem_hex hc
  cases a with
  | register n =>
    exact Lexeme.next_register (Numeral.decimal_ne_nil n) (fun c hc => Numeral.isDigit_of_mem_decimal hc) hrest
  | word value => exact Lexeme.next_literal .wide (hhex _ value.toNat) hrest
  | truth value =>
    have hdigits (digits : Bytes) (h : digits.all Ascii.isIdent = true) :=
      Lexeme.next_literal .wide (Lexeme.Form.admits_hex .wide (List.all_eq_true.mp h)) hrest
    cases value with
    | false => exact hdigits (bytes "00") rfl
    | true => exact hdigits (bytes "01") rfl
  | short value => exact Lexeme.next_literal .bare (hhex _ value.toNat) hrest
  | label l => exact Lexeme.next_labelUse hw.1 hw.2 hrest

/-- The lexeme of an argument has its token, unless it does not fit. -/
theorem token_lexeme {a : Argument} (hw : a.WellFormed) (scope : Scope) (line : Int) :
    a.lexeme.token scope line = if a.fits = true then .ok (a.token line) else .error .numberInvalid := by
  unfold Lexeme.token
  cases a with
  | register n => simp [lexeme, Assembly.register_decimal hw, fits, token]
  | word value => exact Assembly.valued_eq (value_word value line)
  | truth value =>
    have hvalue := value_truth value line
    cases value <;> exact Assembly.valued_eq hvalue
  | short value =>
    have hvalue := value_short value line
    show Assembly.valued ((Argument.short value).token line) = _
    by_cases hlt : value.toNat < UInt32.size
    · rw [if_pos hlt] at hvalue
      rw [if_pos (by simpa [fits] using hlt)]
      exact Assembly.valued_eq hvalue
    · rw [if_neg hlt] at hvalue
      rw [if_neg (by simpa [fits] using hlt)]
      simp [Assembly.valued, hvalue]
  | label l => rfl

/-- An argument fills the slot of its kind, unless it does not fit. -/
theorem fills_text {a : Argument} (hw : a.WellFormed) (scope : Scope) (line : Int) :
    Assembly.Fills scope line a.text a.kind (a.token line) a.fits .numberInvalid := by
  have htoken := token_lexeme hw scope line
  cases hf : a.fits with
  | true =>
    rw [if_pos hf] at htoken
    exact Assembly.fills_of_next (operand?_token a line) (fun _ hrest => next_text hw hrest) htoken
  | false =>
    intro rest ts slots hrest
    rw [if_neg (by simp [hf])] at htoken
    rw [if_neg (by simp)]
    exact Assembly.lexFrom_invalid (next_text hw hrest) htoken

end Argument

/-! ## Lines -/

/-- Raw literal text that stays on its line, is read up to its quote, and stands for bytes. -/
structure IsRaw (raw : Bytes) : Prop where
  newline : Ascii.newline ∉ raw
  quoted (rest : Bytes) :
    Lexeme.quoted Ascii.quote .stringUnterminated (raw ++ Ascii.quote :: rest) = .ok (raw, rest)
  decoded : (Escape.decode? raw).isSome

namespace Line

/-- The items that a line stands for. -/
def items (number : Nat) : Line → List Item
  | .comment _ | .blank => []
  | .label l => [.label l.name number]
  | .code op args => [.instruction op (args.map (Argument.token number)) number]
  | .data l raw => [.label l.name number, .string raw number]

/-- A line can be written and read back: its labels have names, its arguments are those of its
operation, and its data is raw text. -/
def WellFormed : Line → Prop
  | .comment text => Bytes.IsLine (bytes "; " ++ text)
  | .blank => True
  | .label l => l.Named
  | .code op args => (∀ a ∈ args, a.WellFormed) ∧ args.map Argument.kind = op.operands
  | .data l raw => l.Named ∧ IsRaw raw

/-- All short words on a line fit. -/
def fits : Line → Bool
  | .code _ args => args.all Argument.fits
  | _ => true

theorem complete_items {l : Line} (hw : l.WellFormed) (hf : l.fits = true) (number : Nat) :
    ∀ i ∈ l.items number, i.Complete := by
  have hlabel (name : Bytes) : (Item.label name number).Complete :=
    ⟨by simp [Item.tokens, Assembly.Token.HasValue, Item.line], trivial⟩
  intro i hi
  cases l with
  | comment text => simp [items] at hi
  | blank => simp [items] at hi
  | label l =>
    obtain rfl := List.mem_singleton.mp hi
    exact hlabel l.name
  | code op args =>
    obtain rfl := List.mem_singleton.mp hi
    refine ⟨?_, ?_⟩
    · intro t ht
      rcases List.mem_cons.mp ht with rfl | ht
      · exact ⟨by simp [Assembly.Token.HasValue], rfl⟩
      · obtain ⟨a, ha, rfl⟩ := List.mem_map.mp ht
        exact ⟨Argument.hasValue_token (hw.1 a ha) (List.all_eq_true.mp hf a ha) number, by simp [Item.line]⟩
    · simp [← hw.2, Function.comp_def]
  | data l raw =>
    rcases List.mem_cons.mp hi with rfl | hi
    · exact hlabel l.name
    · obtain rfl := List.mem_singleton.mp hi
      exact ⟨by simp [Item.tokens, Assembly.Token.HasValue, Item.line, hw.2.decoded], trivial⟩

theorem text_code (op : Operation) (args : List Argument) : (Line.code op args).text =
    Ascii.tab :: Ascii.tab :: (op.mnemonic ++ Assembly.operandText (args.map Argument.text)) := by
  cases args with
  | nil =>
    show bytes "\t\t" ++ op.mnemonic = bytes "\t\t" ++ (op.mnemonic ++ [])
    rw [List.append_nil]
  | cons a args => exact List.append_assoc (bytes "\t\t") _ _

/-- A label definition at the start of a line. -/
theorem lexFrom_label {l : Label} (hl : l.Named) (rest : Bytes) (scope : Scope) (line : Int) :
    Assembly.lexFrom scope line {} (Ascii.dot :: (l.name ++ Ascii.colon :: rest)) =
      Assembly.lexFrom scope line (.of [⟨.labelDefinition, l.name, line⟩] []) rest :=
  Assembly.lexFrom_next (Lexeme.next_labelDefinition hl.1 hl.2) rfl rfl

/-- A well-formed line is read as its items, unless a short word does not fit. -/
theorem lexFrom_line {l : Line} (hw : l.WellFormed) (scope : Scope) (number : Nat) :
    Assembly.lexFrom scope number {} l.text =
      if l.fits = true then .ok (.of ((l.items number).flatMap Item.tokens).reverse [])
      else .error .numberInvalid := by
  cases l with
  | comment text => exact Assembly.lexFrom_end rfl
  | blank => exact Assembly.lexFrom_end rfl
  | label l =>
    have htext : (Line.label l).text = Ascii.dot :: (l.name ++ Ascii.colon :: []) := rfl
    rw [htext, lexFrom_label hw, Assembly.lexFrom_end rfl]
    rfl
  | code op args =>
    obtain ⟨hargs, hkinds⟩ := hw
    have htab : Assembly.isSeparator Ascii.tab = true := by decide
    show Assembly.lexFrom scope number {} (Line.code op args).text = _
    rw [text_code, Assembly.lexFrom_separator htab, Assembly.lexFrom_separator htab,
      Assembly.lexFrom_code op hkinds fun a ha => Argument.fills_text (hargs a ha) scope number]
    simp [fits, items, Item.tokens]
  | data l raw =>
    obtain ⟨hl, hraw⟩ := hw
    have hspace : Assembly.isSeparator Ascii.space = true := by decide
    have htext : (Line.data l raw).text =
        Ascii.dot :: (l.name ++ Ascii.colon :: Ascii.space :: Ascii.quote :: (raw ++ Ascii.quote :: [])) := by
      simp [Line.text]
      rfl
    rw [htext, lexFrom_label hl, Assembly.lexFrom_separator hspace,
      Assembly.lexFrom_next (Lexeme.next_string (hraw.quoted [])) rfl rfl, Assembly.lexFrom_end rfl]
    rfl

theorem lexLine_line {l : Line} (hw : l.WellFormed) (scope : Scope) (number : Nat) :
    Assembly.lexLine scope number l.text =
      if l.fits = true then .ok ((l.items number).flatMap Item.tokens)
      else .error (.line number l.text .numberInvalid) := by
  rw [Assembly.lexLine, lexFrom_line hw]
  by_cases hf : l.fits = true
  · rw [if_pos hf, if_pos hf]
    simp [Draft.finish]
  · rw [if_neg hf, if_neg hf]

end Line

/-! ## Whole listings -/

theorem Argument.isInner_text {a : Argument} (hw : a.WellFormed) : ∀ c ∈ a.text, isInner c = true := by
  have hfixed {s : Bytes} (h : s.all isInner = true) : ∀ c ∈ s, isInner c = true := List.all_eq_true.mp h
  have hhex (n : Nat) : ∀ c ∈ Numeral.hex n, isInner c = true :=
    fun c hc => isInner_of_isIdent (Numeral.isIdent_of_mem_hex hc)
  cases a with
  | register n =>
    refine List.forall_mem_append.mpr ⟨hfixed rfl, fun c hc => ?_⟩
    exact isInner_of_isIdent (Assembly.isIdent_of_isDigit (Numeral.isDigit_of_mem_decimal hc))
  | word value => exact List.forall_mem_append.mpr ⟨hfixed rfl, hhex _⟩
  | truth value => cases value <;> exact hfixed rfl
  | short value => exact List.forall_mem_append.mpr ⟨hfixed rfl, hhex _⟩
  | label l => exact List.forall_mem_cons.mpr ⟨by decide, fun c hc => isInner_of_isIdent (hw.2 c hc)⟩

namespace Line

theorem isLine_text {l : Line} (hw : l.WellFormed) : Bytes.IsLine l.text := by
  have hname {l : Label} (hl : l.Named) : ∀ c ∈ l.name, isInner c = true :=
    fun c hc => isInner_of_isIdent (hl.2 c hc)
  cases l with
  | comment text => exact hw
  | blank => exact isLine_of_isInner (by simp [text])
  | label l =>
    have hdot : ∀ c ∈ Ascii.dot :: l.name, isInner c = true := List.forall_mem_cons.mpr ⟨by decide, hname hw⟩
    exact isLine_of_isInner (List.forall_mem_append.mpr ⟨hdot, List.all_eq_true.mp rfl⟩)
  | code op args =>
    have htexts : ∀ text ∈ args.map Argument.text, ∀ c ∈ text, isInner c = true := by
      intro text htext
      obtain ⟨a, ha, rfl⟩ := List.mem_map.mp htext
      exact Argument.isInner_text (hw.1 a ha)
    rw [text_code]
    exact isLine_of_isInner (List.forall_mem_cons.mpr ⟨by decide, List.forall_mem_cons.mpr ⟨by decide,
      Assembly.isInner_code op htexts⟩⟩)
  | data l raw =>
    have hlast : (Line.data l raw).text.getLast? = some Ascii.quote :=
      List.getLast?_append_of_ne_nil _ (List.cons_ne_nil _ _)
    refine ⟨?_, by rw [hlast]; decide⟩
    have hdot : ∀ c ∈ Ascii.dot :: l.name ++ bytes ": \"", isInner c = true := by
      refine List.forall_mem_append.mpr ⟨List.forall_mem_cons.mpr ⟨by decide, hname hw.1⟩, ?_⟩
      exact List.all_eq_true.mp rfl
    intro hmem
    rcases List.mem_append.mp hmem with hmem | hmem
    · rcases List.mem_append.mp hmem with hmem | hmem
      · exact absurd (hdot _ hmem) (by decide)
      · exact hw.2.newline hmem
    · revert hmem
      decide

end Line

/-- The items of lines, which are numbered from `number` on. -/
def itemsFrom : Nat → List Line → List Item
  | _, [] => []
  | number, l :: rest => l.items number ++ itemsFrom (number + 1) rest

theorem complete_itemsFrom {ls : List Line} (hw : ∀ l ∈ ls, l.WellFormed) (hf : ∀ l ∈ ls, l.fits = true)
    (number : Nat) : ∀ i ∈ itemsFrom number ls, i.Complete := by
  induction ls generalizing number with
  | nil => simp [itemsFrom]
  | cons l rest ih =>
    refine List.forall_mem_append.mpr ⟨?_, ?_⟩
    · exact Line.complete_items (hw l List.mem_cons_self) (hf l List.mem_cons_self) number
    · exact ih (fun l' hl' => hw l' (List.mem_cons_of_mem l hl')) (fun l' hl' => hf l' (List.mem_cons_of_mem l hl')) _

/-- Well-formed lines that fit are read as their items. -/
theorem lexLines_fits {ls : List Line} (hw : ∀ l ∈ ls, l.WellFormed) (hf : ∀ l ∈ ls, l.fits = true)
    (scope : Scope) (number : Nat) :
    Assembly.lexLines scope number (ls.map Line.text) =
      .ok ((itemsFrom number ls).flatMap Item.tokens) := by
  induction ls generalizing number with
  | nil => rfl
  | cons l rest ih =>
    have hrest := ih (fun l' hl' => hw l' (List.mem_cons_of_mem l hl'))
      (fun l' hl' => hf l' (List.mem_cons_of_mem l hl')) (number + 1)
    rw [List.map_cons, Assembly.lexLines, Line.lexLine_line (hw l List.mem_cons_self),
      if_pos (hf l List.mem_cons_self), hrest]
    simp [itemsFrom]

/-- Well-formed lines of which one does not fit are refused for a number. -/
theorem lexLines_unfit {ls : List Line} (hw : ∀ l ∈ ls, l.WellFormed) {bad : Line} (hbad : bad ∈ ls)
    (hf : bad.fits = false) (scope : Scope) (number : Nat) :
    ∃ n text, Assembly.lexLines scope number (ls.map Line.text) = .error (.line n text .numberInvalid) := by
  induction ls generalizing number with
  | nil => cases hbad
  | cons l rest ih =>
    rw [List.map_cons, Assembly.lexLines, Line.lexLine_line (hw l List.mem_cons_self)]
    cases hl : l.fits with
    | false => exact ⟨_, _, rfl⟩
    | true =>
      have hrest : bad ∈ rest := by
        rcases List.mem_cons.mp hbad with rfl | h
        · rw [hl] at hf
          cases hf
        · exact h
      obtain ⟨n, text, herror⟩ := ih (fun l' hl' => hw l' (List.mem_cons_of_mem l hl')) hrest (number + 1)
      rw [herror]
      exact ⟨n, text, rfl⟩

theorem lines_render {ls : List Line} (hw : ∀ l ∈ ls, l.WellFormed) :
    Bytes.lines (render ls) = ls.map Line.text := by
  have hlines : ∀ line ∈ ls.map Line.text, Bytes.IsLine line := by
    intro line hline
    obtain ⟨l, hl, rfl⟩ := List.mem_map.mp hline
    exact Line.isLine_text (hw l hl)
  rw [← Bytes.lines_render hlines, render, List.flatMap_map]

/-- A listing that fits is assembled as its items. -/
theorem parse_render_fits {ls : List Line} (hw : ∀ l ∈ ls, l.WellFormed) (hf : ∀ l ∈ ls, l.fits = true)
    {a : Assembly.Assembler} (ha : a.library? = none) :
    (a.parse (render ls)).1 = Assembly.assemble ((itemsFrom 1 ls).flatMap Item.tokens) := by
  rw [Assembly.Assembler.parse_eq (Assembly.Assembler.expand_of_library?_none ha), lines_render hw,
    lexLines_fits hw hf]
  rfl

/-- A listing that does not fit is refused for a number. -/
theorem parse_render_unfit {ls : List Line} (hw : ∀ l ∈ ls, l.WellFormed) {bad : Line} (hbad : bad ∈ ls)
    (hf : bad.fits = false) {a : Assembly.Assembler} (ha : a.library? = none) :
    ∃ n text, (a.parse (render ls)).1 = .error (.line n text .numberInvalid) := by
  obtain ⟨n, text, herror⟩ := lexLines_unfit hw hbad hf a.initialScope 1
  refine ⟨n, text, ?_⟩
  rw [Assembly.Assembler.parse_eq (Assembly.Assembler.expand_of_library?_none ha), lines_render hw, herror]
  rfl

end Source

end WordMachine
