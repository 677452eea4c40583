import Mathlib
import WordMachine.Proofs.Assembly.Disassembly
import WordMachine.Proofs.Assembly.Phrases
import WordMachine.Proofs.LineNumbers

/-!
# `Proofs.Assembly.Literals` — numbers as operands

A number is a minus sign or none, `0x` or `0X`, and hexadecimal digits. The lexer collects the bytes of an operand
unchecked, in three forms that start in different ways, and only then asks for their value. So an operand is accepted
as an immediate of the width of its form if and only if it is a number of that width, and this number is encoded, as
a two's complement if it is negative.

Contents:
* `HexLiteral`, `hexLiteral?_eq_some_iff`: the texts that have a value;
* `Lexeme.Form.fills`: a literal in front of the slot that it is meant for;
* `Takes`, `ReadsTo`, `OperandAt`: reading a line up to an operand, whatever stands before it;
* `OperandAt.takes_iff`, `OperandAt.lexLine_invalid`, `OperandAt.taken_of_lexLine`, `OperandAt.item`: what becomes of
  the operand;
* `OperandAt.encoded`: what it is assembled to;
* `Written`, `parse_instruction`: instructions that stand alone;
* `literal_operands_exact`.
-/

namespace WordMachine

/-! ## Hexadecimal literals -/

namespace Numeral

def isHexDigit (c : UInt8) : Bool :=
  Ascii.isDigit c || (0x61 ≤ c && c ≤ 0x66) || (0x41 ≤ c && c ≤ 0x46)

/-- The value of a hexadecimal digit. -/
def hexDigit (c : UInt8) : Nat :=
  if Ascii.isDigit c then c.toNat - 0x30 else if c ≤ 0x46 then c.toNat - 0x41 + 10 else c.toNat - 0x61 + 10

/-- A text is a hexadecimal word if it is a non-empty run of digits that stands for a number of its width. -/
theorem word?_eq_some_iff {bits n : Nat} {digits : Bytes} :
    word? 16 bits digits = some n ↔
      digits ≠ [] ∧ (∀ c ∈ digits, isHexDigit c = true) ∧
        n = positional 16 hexDigit digits ∧ n < 2 ^ bits := by
  have hhex : ∀ c, (digit? c).filter (· < 16) = if isHexDigit c then some (hexDigit c) else none :=
    forall_byte (by decide +kernel)
  have hdigits {m : Nat} := @ofDigits?_eq_some_iff 16 m isHexDigit hexDigit digits hhex
  unfold word?
  constructor
  · intro h
    split at h
    next m hm =>
      split at h
      next hlt =>
        cases h
        obtain ⟨hne, hall, hvalue⟩ := hdigits.mp hm
        exact ⟨hne, hall, hvalue, hlt⟩
      · cases h
    · cases h
  · rintro ⟨hne, hall, hvalue, hlt⟩
    rw [hdigits.mpr ⟨hne, hall, hvalue⟩]
    exact if_pos hlt

end Numeral

namespace Assembly

open Lexeme (Form hexMark Ends)

/-- A hexadecimal literal: its sign, the case of its mark, and at least one digit. -/
structure HexLiteral where
  negative : Bool
  upper : Bool
  digits : Bytes
  digits_ne_nil : digits ≠ []
  isHexDigit : ∀ c ∈ digits, Numeral.isHexDigit c = true

namespace HexLiteral

def text (l : HexLiteral) : Bytes := hexMark l.negative l.upper ++ l.digits

def magnitude (l : HexLiteral) : Nat := Numeral.positional 16 Numeral.hexDigit l.digits

/-- The number that a literal stands for in a word of some bits. -/
def value (bits : Nat) (l : HexLiteral) : Nat :=
  if l.negative then (2 ^ bits - l.magnitude) % 2 ^ bits else l.magnitude

end HexLiteral

theorem hexLiteral?_mark (bits : Nat) (negative upper : Bool) (digits : Bytes) :
    hexLiteral? bits (hexMark negative upper ++ digits) =
      (Numeral.word? 16 bits digits).map fun n => if negative then (2 ^ bits - n) % 2 ^ bits else n := by
  cases negative <;> cases upper <;> rfl

/-- Only a text that begins as a literal has a value. -/
theorem mark_of_hexLiteral? {bits v : Nat} {text : Bytes} (h : hexLiteral? bits text = some v) :
    ∃ negative upper digits, text = hexMark negative upper ++ digits := by
  -- what stands behind the sign, if there is one
  have hmark {z x : UInt8} (hzx : z = Ascii.zero ∧ (x = 0x78 ∨ x = 0x58)) (digits : Bytes) :
      ∃ upper, ∀ negative, (if negative then bytes "-" else []) ++ z :: x :: digits =
        hexMark negative upper ++ digits := by
    obtain ⟨rfl, rfl | rfl⟩ := hzx
    · exact ⟨false, fun negative => by cases negative <;> rfl⟩
    · exact ⟨true, fun negative => by cases negative <;> rfl⟩
  unfold hexLiteral? at h
  dsimp only at h
  split at h
  next z x digits hrest =>
    split at h
    next hzx =>
      obtain ⟨upper, htext⟩ := hmark hzx digits
      split at hrest
      · cases hrest
      · split at hrest
        next hminus =>
          obtain rfl := hminus
          exact ⟨true, upper, digits, by rw [← htext true, ← hrest]; rfl⟩
        · exact ⟨false, upper, digits, by rw [← htext false, ← hrest]; rfl⟩
    · cases h
  · cases h

/-- The texts that have a value are the hexadecimal literals whose magnitude fits the width. -/
theorem hexLiteral?_eq_some_iff {bits v : Nat} {text : Bytes} :
    hexLiteral? bits text = some v ↔
      ∃ l : HexLiteral, text = l.text ∧ l.magnitude < 2 ^ bits ∧ v = l.value bits := by
  constructor
  · intro h
    obtain ⟨negative, upper, digits, rfl⟩ := mark_of_hexLiteral? h
    rw [hexLiteral?_mark] at h
    obtain ⟨n, hn, rfl⟩ := Option.map_eq_some_iff.mp h
    obtain ⟨hne, hall, rfl, hlt⟩ := Numeral.word?_eq_some_iff.mp hn
    exact ⟨⟨negative, upper, digits, hne, hall⟩, rfl, hlt, rfl⟩
  · rintro ⟨l, rfl, hlt, rfl⟩
    have hword := Numeral.word?_eq_some_iff.mpr ⟨l.digits_ne_nil, l.isHexDigit, rfl, hlt⟩
    rw [HexLiteral.text, hexLiteral?_mark, hword]
    rfl

/-! ## Literals in front of a slot -/

namespace Width

def bits : Width → Nat
  | .narrow => 32
  | .wide => 64

/-- The slot that a number of the width fills. -/
def operand : Width → Operand
  | .narrow => .imm32
  | .wide => .imm64

theorem operand_ne_register (w : Width) : w.operand ≠ .register := by
  cases w <;> simp [operand]

end Width

theorem Token.value_number {w : Width} {text : Bytes} {v : Nat} (h : hexLiteral? w.bits text = some v) (line : Int) :
    Token.value ⟨w.kind, text, line⟩ = .ok v.toUInt64 := by
  cases w <;> simp only [Width.bits] at h <;> simp only [Token.value, Width.kind, h]

theorem Token.value_none {w : Width} {text : Bytes} (h : hexLiteral? w.bits text = none) (line : Int) :
    Token.value ⟨w.kind, text, line⟩ = .error .numberInvalid := by
  cases w <;> simp only [Width.bits] at h <;> simp only [Token.value, Width.kind, h]

/-- A value fits a word of the machine. -/
theorem toNat_value {w : Width} {text : Bytes} {v : Nat} (h : hexLiteral? w.bits text = some v) :
    v.toUInt64.toNat = v := by
  have hlt : v < 2 ^ 64 := by
    refine Nat.lt_of_lt_of_le (hexLiteral?_lt h) (Nat.pow_le_pow_right (by decide) ?_)
    cases w <;> decide
  rw [Nat.toUInt64_eq, UInt64.toNat_ofNat_of_lt' hlt]

namespace Lexeme.Form

/-- The token that a literal is read as. -/
def token (f : Form) (text : Bytes) (line : Int) : Token := ⟨f.width.kind, text, line⟩

theorem operand?_token (f : Form) (text : Bytes) (line : Int) :
    (f.token text line).operand? = some f.width.operand := by
  cases f <;> rfl

theorem kind_token (f : Form) (text : Bytes) (line : Int) :
    (f.token text line).kind ≠ .instruction ∧ (f.token text line).kind ≠ .labelUse := by
  cases f <;> exact ⟨by rintro ⟨⟩, by rintro ⟨⟩⟩

theorem value_token (f : Form) {text : Bytes} {v : Nat} (h : hexLiteral? f.width.bits text = some v) (line : Int) :
    (f.token text line).value = .ok v.toUInt64 := Token.value_number h line

theorem hasValue_token (f : Form) {text : Bytes} {v : Nat} (h : hexLiteral? f.width.bits text = some v) (line : Int) :
    (f.token text line).HasValue := by
  have hvalue := f.value_token h line
  cases f <;> exact ⟨_, hvalue⟩

/-- A literal has a token if and only if it has a value. -/
theorem token_number (f : Form) (text : Bytes) (scope : Scope) (line : Int) :
    (Lexeme.number f.width text).token scope line =
      if (hexLiteral? f.width.bits text).isSome then .ok (f.token text line) else .error .numberInvalid := by
  unfold Lexeme.token
  cases hv : hexLiteral? f.width.bits text with
  | some v => exact valued_eq (f.value_token hv line)
  | none => simp [valued, Token.value_none hv line]

variable {scope : Scope} {line : Int} {text : Bytes}

/-- A literal in front of the slot that it is meant for fills it if it has a value, and is refused otherwise. -/
theorem fills (f : Form) (h : f.Admits text) :
    Fills scope line (f.mark ++ text) f.width.operand (f.token text line)
      (hexLiteral? f.width.bits text).isSome .numberInvalid := by
  have hnext : ∀ rest, Ends rest → next (f.mark ++ text ++ rest) = .ok (some (.number f.width text, rest)) := by
    intro rest hrest
    rw [List.append_assoc]
    exact next_literal f h hrest
  have htoken := f.token_number text scope line
  cases hv : (hexLiteral? f.width.bits text).isSome with
  | true =>
    rw [hv, if_pos rfl] at htoken
    exact fills_of_next (f.operand?_token text line) hnext htoken
  | false =>
    intro rest ts slots hrest
    rw [hv, if_neg Bool.false_ne_true] at htoken
    rw [if_neg Bool.false_ne_true]
    exact lexFrom_invalid (hnext rest hrest) htoken

end Lexeme.Form

/-! ## Literals on a line -/

/-- The first lexeme of a text is read, its token accepted, and the rest still to be read. -/
def Takes (scope : Scope) (line : Int) (d : Draft) (text : Bytes) (d' : Draft) (rest : Bytes) : Prop :=
  ∃ l t, Lexeme.next text = .ok (some (l, rest)) ∧ l.token scope line = .ok t ∧ d.offer t = .ok d'

/-- Reading a line comes to a draft, with the rest of the line still to be read. -/
inductive ReadsTo (scope : Scope) (line : Int) (text : Bytes) : Draft → Bytes → Prop where
  | start : ReadsTo scope line text {} text
  | separator {d : Draft} {c : UInt8} {rest : Bytes} (h : ReadsTo scope line text d (c :: rest))
      (hc : isSeparator c = true) : ReadsTo scope line text d rest
  | lexeme {d d' : Draft} {before rest : Bytes} (h : ReadsTo scope line text d before)
      (ht : Takes scope line d before d' rest) : ReadsTo scope line text d' rest

namespace ReadsTo

variable {scope : Scope} {line : Int} {text rest : Bytes} {d : Draft}

/-- What becomes of the line is what becomes of its rest. -/
theorem lexFrom_eq (h : ReadsTo scope line text d rest) :
    lexFrom scope line {} text = lexFrom scope line d rest := by
  induction h with
  | start => rfl
  | separator _ hc ih => rw [ih, lexFrom_separator hc]
  | lexeme _ ht ih =>
    obtain ⟨l, t, hn, ht, ho⟩ := ht
    rw [ih, lexFrom_next hn ht ho]

theorem reads (h : ReadsTo scope line text d rest) : ∃ items, Draft.Reads line d items := by
  induction h with
  | start => exact ⟨[], Draft.reads_empty line⟩
  | separator _ _ ih => exact ih
  | lexeme _ ht ih =>
    obtain ⟨l, t, hn, ht, ho⟩ := ht
    obtain ⟨items, hr⟩ := ih
    obtain ⟨hv, hl⟩ := Lexeme.hasValue_of_token hn ht
    exact Draft.reads_of_offer hr hv hl ho

end ReadsTo

/-- An immediate fills the slot of its kind, and no other: only a register changes the form of an instruction. -/
theorem Draft.offer_immediate (d : Draft) {t : Token} {kind : Operand} (ht : t.operand? = some kind)
    (hkind : kind ≠ .register) :
    d.offer t = if d.slots.head? = some kind then .ok (d.accept t)
      else .error (if d.slots = [] then .operandCount else .operandKind) := by
  have halternate : d.alternate? kind = none := by
    cases h : d.alternate? kind with
    | none => rfl
    | some changed =>
      obtain ⟨_, _, _, _, _, hregister, _⟩ := alternate?_eq_some h
      exact absurd hregister hkind
  rw [offer_operand d ht, fill]
  cases hslots : d.slots with
  | nil => rfl
  | cons slot slots =>
    by_cases hslot : slot = kind
    · simp [hslot]
    · simp [hslot, Ne.symm hslot, halternate]

/-- A literal in one of its forms stands on a line that has been read to a draft before it; a delimiter or the end of
the line comes after it. -/
structure OperandAt (scope : Scope) (number : Nat) (line : Bytes) (f : Form) (text : Bytes) (d : Draft)
    (after : Bytes) : Prop where
  admits : f.Admits text
  ends : Ends after
  reached : ReadsTo scope number line d (f.mark ++ text ++ after)

/-- Where an operation awaits an immediate, it has all its registers, and awaits nothing else. -/
theorem registers_of_awaits {op : Operation} {kinds : List (Option Operand)} {slot : Operand} {slots : List Operand}
    (hslot : slot ≠ .register) (h : kinds ++ (slot :: slots).map some = op.operands.map some) :
    kinds = List.replicate op.registers (some .register) ∧ op.immediate? = some slot ∧ slots = [] := by
  rw [op.operands_eq.1, List.map_append, List.map_replicate, List.map_cons] at h
  have hlength : kinds.length + (slots.length + 1) = op.registers + op.immediate?.toList.length := by
    simpa using congrArg List.length h
  have hone : op.immediate?.toList.length ≤ 1 := by
    cases op.immediate? <;> simp
  -- the awaited slot is no register, so it stands behind all of them
  have hall : op.registers ≤ kinds.length := by
    by_contra hlt
    have hget := congrArg (fun l => l[kinds.length]?) h
    simp [List.getElem?_append_left, Nat.not_le.mp hlt] at hget
    exact hslot hget
  obtain ⟨hkinds, hrest⟩ := List.append_inj h (by rw [List.length_replicate]; omega)
  cases himm : op.immediate? with
  | none => simp [himm] at hrest
  | some kind =>
    rw [himm] at hrest
    obtain ⟨hkind, hslots⟩ := List.cons.inj hrest
    exact ⟨hkinds, hkind.symm, List.map_eq_nil_iff.mp hslots⟩

namespace OperandAt

variable {scope : Scope} {number : Nat} {line text after : Bytes} {f : Form} {d : Draft}

theorem next_eq (h : OperandAt scope number line f text d after) :
    Lexeme.next (f.mark ++ text ++ after) = .ok (some (.number f.width text, after)) := by
  rw [List.append_assoc]
  exact Lexeme.next_literal f h.admits h.ends

/-- The operand is accepted if and only if it has a value of its width and an immediate of this width is awaited. -/
theorem takes_iff (h : OperandAt scope number line f text d after) (d' : Draft) (rest : Bytes) :
    Takes scope number d (f.mark ++ text ++ after) d' rest ↔
      (∃ v, hexLiteral? f.width.bits text = some v) ∧ d.slots.head? = some f.width.operand ∧
        d' = d.accept (f.token text number) ∧ rest = after := by
  have htoken := f.token_number text scope number
  have hoffer := d.offer_immediate (f.operand?_token text number) f.width.operand_ne_register
  constructor
  · rintro ⟨l, t, hn, ht, ho⟩
    rw [h.next_eq] at hn
    obtain ⟨rfl, rfl⟩ := Prod.mk.inj (Option.some.inj (Except.ok.inj hn))
    rw [htoken] at ht
    split at ht
    next hv =>
      obtain rfl := Except.ok.inj ht
      rw [hoffer] at ho
      split at ho
      next hslot => exact ⟨Option.isSome_iff_exists.mp hv, hslot, (Except.ok.inj ho).symm, rfl⟩
      · cases ho
    · cases ht
  · rintro ⟨hv, hslot, rfl, rfl⟩
    rw [if_pos (Option.isSome_iff_exists.mpr hv)] at htoken
    rw [if_pos hslot] at hoffer
    exact ⟨_, _, h.next_eq, htoken, hoffer⟩

/-- A line with an operand that has no value is refused for it. -/
theorem lexLine_invalid (h : OperandAt scope number line f text d after)
    (hv : hexLiteral? f.width.bits text = none) :
    lexLine scope number line = .error (.line number line .numberInvalid) := by
  have htoken := f.token_number text scope number
  rw [hv, if_neg (by simp)] at htoken
  rw [lexLine, h.reached.lexFrom_eq, lexFrom_invalid h.next_eq htoken]

/-- A line that is accepted has taken the operand, and keeps it behind the tokens before it. -/
theorem taken_of_lexLine (h : OperandAt scope number line f text d after) {ts : List Token}
    (hlex : lexLine scope number line = .ok ts) :
    (∃ v, hexLiteral? f.width.bits text = some v) ∧ d.slots.head? = some f.width.operand ∧
      ∃ more, ts = (f.token text number :: d.tokens).reverse ++ more := by
  obtain ⟨final, hfinal, rfl⟩ := lexFrom_of_lexLine hlex
  have htoken := f.token_number text scope number
  have hoffer := d.offer_immediate (f.operand?_token text number) f.width.operand_ne_register
  rw [h.reached.lexFrom_eq, Assembly.lexFrom_eq, h.next_eq] at hfinal
  by_cases hv : (hexLiteral? f.width.bits text).isSome = true
  · rw [if_pos hv] at htoken
    by_cases hslot : d.slots.head? = some f.width.operand
    · rw [if_pos hslot] at hoffer
      simp only [htoken, hoffer] at hfinal
      obtain ⟨later, hlater⟩ := suffix_of_lexFrom (f.kind_token text number).1 (List.suffix_refl _) hfinal
      refine ⟨Option.isSome_iff_exists.mp hv, hslot, later.reverse, ?_⟩
      rw [← hlater, List.reverse_append]
    · rw [if_neg hslot] at hoffer
      simp only [htoken, hoffer] at hfinal
      cases hfinal
  · rw [if_neg hv] at htoken
    simp only [htoken] at hfinal
    cases hfinal

/-- A line that is accepted has the operand as the immediate of the instruction that stands before it. -/
theorem item (h : OperandAt scope number line f text d after) {ts : List Token}
    (hlex : lexLine scope number line = .ok ts) :
    ∃ v op registers done more, hexLiteral? f.width.bits text = some v ∧
      d.tokens = registers.reverse ++ ⟨.instruction, op.mnemonic, number⟩ :: (done.flatMap Item.tokens).reverse ∧
      op.immediate? = some f.width.operand ∧
      (∀ i ∈ done ++ [Item.instruction op (registers ++ [f.token text number]) number], i.Complete) ∧
      ts = (done ++ [Item.instruction op (registers ++ [f.token text number]) number]).flatMap Item.tokens ++
        more := by
  obtain ⟨⟨v, hv⟩, hslot, more, hts⟩ := h.taken_of_lexLine hlex
  obtain ⟨done, hreads⟩ := h.reached.reads
  cases hreads with
  | closed => cases hslot
  | @awaiting tokens done op registers slot slots complete filled values htokens =>
    obtain rfl : slot = f.width.operand := Option.some.inj hslot
    obtain ⟨-, himm, rfl⟩ := registers_of_awaits f.width.operand_ne_register filled
    have hitem : (Item.instruction op (registers ++ [f.token text number]) number).Complete := by
      have hoperands : (registers ++ [f.token text number]).map Token.operand? = op.operands.map some := by
        rw [List.map_append, List.map_singleton, f.operand?_token]
        exact filled
      refine ⟨?_, hoperands⟩
      refine List.forall_mem_cons.mpr ⟨⟨by simp [Token.HasValue], rfl⟩,
        List.forall_mem_append.mpr ⟨values, ?_⟩⟩
      exact List.forall_mem_singleton.mpr ⟨f.hasValue_token hv number, rfl⟩
    refine ⟨v, op, registers, done, more, hv, htokens, himm, ?_, ?_⟩
    · exact List.forall_mem_append.mpr ⟨fun i hi => (complete i hi).1, List.forall_mem_singleton.mpr hitem⟩
    · rw [hts, Draft.tokens_of, htokens]
      simp [Item.tokens]

end OperandAt

/-! ## Encoded literals -/

/-- An instruction with registers and a literal has the value of the literal as its immediate. -/
theorem Item.instruction?_literal {registers : List Token} {values : List Register} (op : Operation) (f : Form)
    {text : Bytes} {v : Nat} {line : Int} {offset : Bytes → Option UInt32}
    (hregisters : fields offset registers = some (values, []))
    (hv : hexLiteral? f.width.bits text = some v) :
    instruction? offset op (registers ++ [f.token text line]) =
      some ⟨.of op, ((values[0]?.getD 0).val : Nat), ((values[1]?.getD 0).val : Nat), v.toUInt64⟩ := by
  have himmediate : immediate? offset (f.token text line) = some v.toUInt64 := by
    rw [immediate?, if_neg (f.kind_token text line).2, f.value_token hv]
    rfl
  have hregister := Token.kind_ne_register (f.operand?_token text line) f.width.operand_ne_register
  have hliteral : fields offset [f.token text line] = some ([], [v.toUInt64]) := by
    simp [fields, hregister, himmediate]
  rw [instruction?, fields_append, hregisters, Option.bind_some, hliteral, Option.map_some, Option.map_some,
    List.append_nil]
  rfl

/-- The bytes of an instruction with a literal end in the value of the literal. -/
theorem Item.encode_literal {op : Operation} {f : Form} {text : Bytes} {v : Nat} (dst src : Int)
    (himm : op.immediate? = some f.width.operand) (hv : hexLiteral? f.width.bits text = some v) :
    ∃ desc, Instruction.encode ⟨.of op, dst, src, v.toUInt64⟩ =
      op.code :: desc :: littleEndian f.width.operand.cost v := by
  refine ⟨Instruction.descriptor ⟨.of op, dst, src, v.toUInt64⟩, ?_⟩
  rw [Instruction.encode, Opcode.byte_of, Opcode.immediate?_of, himm, toNat_value hv]
  rfl

/-- The items of a text are those of the lines above a line, those of the line, and those of the lines below. -/
theorem TextReads.split {scope : Scope} {number n : Nat} {lines : List Bytes} {items : List Item} {line : Bytes}
    (h : TextReads scope number lines items) (hline : lines[n]? = some line) :
    ∃ above own below, items = above ++ (own ++ below) ∧ TextReads scope number (lines.take n) above ∧
      LineReads scope (number + n) line own := by
  induction h generalizing n with
  | nil => cases hline
  | @cons number first lines items more head tail ih =>
    cases n with
    | zero =>
      obtain rfl : first = line := Option.some.inj hline
      exact ⟨[], items, more, rfl, .nil, head⟩
    | succ n =>
      obtain ⟨above, own, below, rfl, habove, hown⟩ := ih hline
      rw [Nat.add_assoc, Nat.add_comm 1 n] at hown
      exact ⟨items ++ above, own, below, (List.append_assoc ..).symm, .cons head habove, hown⟩

/-- In a program that is assembled, a literal has a value, and the instruction that it is the immediate of is encoded
with this value behind the items before it. -/
theorem OperandAt.encoded {a : Assembler} {input source line text after : Bytes} {n : Nat} {f : Form} {d : Draft}
    {p : Program} (hexpand : a.expand input = .ok source) (hline : (Bytes.lines source)[n]? = some line)
    (h : OperandAt (a.initialScope.atNumber (1 + n)) (1 + n) line f text d after) (hp : (a.parse input).1 = .ok p) :
    ∃ (v : Nat) (op : Operation) (registers : List Token) (above done : List Item) (head tail : Bytes) (desc : UInt8),
      hexLiteral? f.width.bits text = some v ∧
      d.tokens = registers.reverse ++
        ⟨.instruction, op.mnemonic, (1 + n : Nat)⟩ :: (done.flatMap Item.tokens).reverse ∧
      op.immediate? = some f.width.operand ∧
      TextReads a.initialScope 1 ((Bytes.lines source).take n) above ∧
      p.image.toList = head ++ (op.code :: desc :: littleEndian f.width.operand.cost v) ++ tail ∧
      head.length = extent (above ++ done) := by
  obtain ⟨source', items, hexpand', hreads, hdenotes⟩ := denotes_of_parse hp
  obtain rfl : source = source' := Except.ok.inj (hexpand.symm.trans hexpand')
  obtain ⟨above, own, below, rfl, habove, hown⟩ := hreads.split hline
  obtain ⟨v, op, registers, done, more, hv, htokens, himm, hcomplete, hts⟩ := h.item hown.lexed
  obtain ⟨rest, rfl⟩ := append_of_tokens hcomplete hown.complete hts.symm
  have hitems : above ++ (done ++ [Item.instruction op (registers ++ [f.token text (1 + n : Nat)]) (1 + n : Nat)] ++
      rest ++ below) = above ++ done ++ Item.instruction op (registers ++ [f.token text (1 + n : Nat)]) (1 + n : Nat) ::
        (rest ++ below) := by simp
  rw [hitems] at hdenotes
  obtain ⟨i, head, tail, hi, himage, hhead, -⟩ := hdenotes.encoded
  -- the registers come first, so the literal is the only immediate
  have hitem := hcomplete _ (List.mem_append_right _ (List.mem_singleton_self _))
  have hkinds : registers.map Token.operand? = List.replicate op.registers (some .register) := by
    have hoperands : (registers ++ [f.token text (1 + n : Nat)]).map Token.operand? = op.operands.map some := hitem.2
    rw [List.map_append, List.map_singleton, f.operand?_token] at hoperands
    exact (@registers_of_awaits op _ _ [] f.width.operand_ne_register hoperands).1
  obtain ⟨values, -, hvalues⟩ := Item.fields_registers (kind_of_replicate hkinds)
    fun t ht => (hitem.1 t (List.mem_cons_of_mem _ (List.mem_append_left _ ht))).1
  rw [Item.instruction?_literal op f (hvalues _) hv] at hi
  obtain rfl := Option.some.inj hi
  obtain ⟨desc, hencode⟩ := Item.encode_literal ((values[0]?.getD 0).val : Nat)
    ((values[1]?.getD 0).val : Nat) himm hv
  exact ⟨v, op, registers, above, done, head, tail, desc, hv, htokens, himm, habove, by rw [himage, hencode], hhead⟩

/-! ## One instruction -/

/-- An operand as it is written: a register, or a literal in one of its forms. -/
inductive Written where
  | register (r : Register)
  | literal (f : Form) (text : Bytes)

namespace Written

def text : Written → Bytes
  | .register r => bytes "r" ++ Numeral.decimal r.val
  | .literal f text => f.mark ++ text

def kind : Written → Operand
  | .register _ => .register
  | .literal f _ => f.width.operand

def token (line : Int) : Written → Token
  | .register r => Instruction.registerToken line (r.val : Nat)
  | .literal f text => f.token text line

def fits : Written → Bool
  | .register _ => true
  | .literal f text => (hexLiteral? f.width.bits text).isSome

/-- The literals among the operands can be meant as such, and stay on their line. -/
def Admitted : Written → Prop
  | .register _ => True
  | .literal f text => f.Admits text ∧ Ascii.newline ∉ text

theorem fills {w : Written} (h : w.Admitted) (scope : Scope) (line : Int) :
    Fills scope line w.text w.kind (w.token line) w.fits .numberInvalid := by
  cases w with
  | literal f text => exact f.fills h.1
  | register r =>
    have hplain : Token.IsPlain line ⟨.register, Numeral.decimal r.val, line⟩ := .register r.isLt
    have htoken : Written.token line (.register r) = ⟨.register, Numeral.decimal r.val, line⟩ := by
      rw [token, Instruction.registerToken, Numeral.signed_natCast]
    rw [htoken]
    exact hplain.fills rfl scope .numberInvalid

theorem isInner_text {w : Written} (h : w.Admitted) : ∀ c ∈ w.text, Bytes.isInner c = true := by
  cases w with
  | register r =>
    refine List.forall_mem_append.mpr ⟨List.all_eq_true.mp rfl, fun c hc => ?_⟩
    exact Bytes.isInner_of_isIdent (isIdent_of_isDigit (Numeral.isDigit_of_mem_decimal hc))
  | literal f text =>
    have hmark : ∀ c ∈ f.mark, Bytes.isInner c = true := by
      cases f <;> exact List.all_eq_true.mp rfl
    refine List.forall_mem_append.mpr ⟨hmark, fun c hc => ?_⟩
    -- a carriage return is a separator, so it is not in the text either
    have hnewline : c ≠ Ascii.newline := by
      rintro rfl
      exact h.2 hc
    have hreturn : c ≠ Ascii.carriageReturn := by
      rintro rfl
      have hdelimiter := h.1.unbroken _ hc
      revert hdelimiter
      decide
    simp [Bytes.isInner, hnewline, hreturn]

end Written

namespace Written

/-- The operands of an instruction: registers, and a literal behind them. -/
def operands (registers : List Register) (f : Form) (text : Bytes) : List Written :=
  registers.map .register ++ [.literal f text]

variable {registers : List Register} {f : Form} {text : Bytes}

theorem admitted_operands (h : Admitted (.literal f text)) : ∀ w ∈ operands registers f text, w.Admitted := by
  refine List.forall_mem_append.mpr ⟨fun w hw => ?_, List.forall_mem_singleton.mpr h⟩
  obtain ⟨r, -, rfl⟩ := List.mem_map.mp hw
  trivial

theorem map_kind_operands : (operands registers f text).map kind =
    List.replicate registers.length Operand.register ++ [f.width.operand] := by
  rw [operands, List.map_append, List.map_map]
  congr 1
  exact List.map_const' ..

theorem all_fits_operands : (operands registers f text).all fits = (hexLiteral? f.width.bits text).isSome := by
  simp [operands, fits]

/-- Operands that fit make up an instruction with the value of the literal. -/
theorem instruction?_operands (op : Operation) {v : Nat} (hv : hexLiteral? f.width.bits text = some v) (line : Int)
    (offset : Bytes → Option UInt32) :
    Item.instruction? offset op ((operands registers f text).map (token line)) =
      some ⟨.of op, ((registers[0]?.getD 0).val : Nat), ((registers[1]?.getD 0).val : Nat), v.toUInt64⟩ := by
  have hbounds : ∀ r ∈ registers.map fun r => ((r.val : Nat) : Int), 0 ≤ r ∧ r < 16 := by
    intro n hn
    obtain ⟨r, -, rfl⟩ := List.mem_map.mp hn
    have hlt := r.isLt
    omega
  have hfields := Instruction.fields_registerTokens hbounds offset line
  have hself : (registers.map fun r => ((r.val : Nat) : Int)).map Register.ofInt = registers := by
    rw [List.map_map]
    exact (List.map_congr_left fun r _ => Register.ofInt_val r).trans (List.map_id _)
  rw [hself, List.map_map] at hfields
  have htokens : (operands registers f text).map (token line) =
      registers.map (Instruction.registerToken line ∘ fun r => ((r.val : Nat) : Int)) ++ [f.token text line] := by
    rw [operands, List.map_append, List.map_map]
    rfl
  rw [htokens]
  exact Item.instruction?_literal op f hfields hv

/-- An operation with registers and a literal is read as such an instruction, unless the literal has no value. -/
theorem lexLine_operands {op : Operation} (h : Admitted (.literal f text))
    (hop : op.operands = List.replicate registers.length Operand.register ++ [f.width.operand]) (scope : Scope)
    (number : Nat) :
    lexLine scope number (op.mnemonic ++ operandText ((operands registers f text).map Written.text)) =
      if (hexLiteral? f.width.bits text).isSome then
        .ok (Item.instruction op ((operands registers f text).map (token number)) number).tokens
      else .error (.line number (op.mnemonic ++ operandText ((operands registers f text).map Written.text))
        .numberInvalid) := by
  have hlex := lexFrom_code op (map_kind_operands.trans hop.symm)
    fun w hw => fills (@admitted_operands registers f text h w hw) scope number
  rw [all_fits_operands] at hlex
  cases hv : (hexLiteral? f.width.bits text).isSome with
  | true =>
    rw [hv, if_pos rfl] at hlex
    rw [if_pos rfl]
    apply lexLine_of_lexFrom
    rw [hlex, Item.tokens, List.reverse_cons]
  | false =>
    rw [hv, if_neg Bool.false_ne_true] at hlex
    rw [if_neg Bool.false_ne_true, lexLine, hlex]

/-- The item of an instruction with operands that fit is complete. -/
theorem complete_operands {op : Operation} {v : Nat} (hv : hexLiteral? f.width.bits text = some v)
    (hop : op.operands = List.replicate registers.length Operand.register ++ [f.width.operand]) (line : Int) :
    (Item.instruction op ((operands registers f text).map (token line)) line).Complete := by
  have htoken (w : Written) : (w.token line).operand? = some w.kind ∧ (w.token line).line = line := by
    cases w with
    | register r => exact ⟨rfl, rfl⟩
    | literal f text => exact ⟨f.operand?_token text line, rfl⟩
  have hoperands : ((operands registers f text).map (token line)).map Token.operand? = op.operands.map some := by
    rw [hop, ← @map_kind_operands registers f text, List.map_map, List.map_map]
    exact List.map_congr_left fun w _ => (htoken w).1
  have hregister (r : Register) : (Written.token line (.register r)).HasValue := by
    have hlt := r.isLt
    exact ⟨_, Instruction.register_registerToken ⟨by omega, by omega⟩ line⟩
  refine ⟨List.forall_mem_cons.mpr ⟨⟨by simp [Token.HasValue], rfl⟩, fun t ht => ?_⟩, hoperands⟩
  obtain ⟨w, hw, rfl⟩ := List.mem_map.mp ht
  refine ⟨?_, (htoken w).2⟩
  rcases List.mem_append.mp hw with hw | hw
  · obtain ⟨r, -, rfl⟩ := List.mem_map.mp hw
    exact hregister r
  · obtain rfl := List.mem_singleton.mp hw
    exact f.hasValue_token hv line

theorem uses_operands (op : Operation) (line : Int) :
    (Item.instruction op ((operands registers f text).map (token line)) line).uses = [] := by
  have hkind : ∀ w : Written, (w.token line).kind ≠ .labelUse := by
    intro w
    cases w with
    | register r => simp [token, Instruction.registerToken]
    | literal f text => exact (f.kind_token text line).2
  simp [Item.uses, hkind]

end Written

/-- A line with one instruction is assembled if and only if its literal has a value, to the bytes of the instruction
with this value. -/
theorem parse_instruction (a : Assembler) {op : Operation} {registers : List Register} {f : Form} {text line : Bytes}
    (hop : op.operands = List.replicate registers.length Operand.register ++ [f.width.operand])
    (htext : Written.Admitted (.literal f text))
    (hline : line = op.mnemonic ++ operandText ((Written.operands registers f text).map Written.text)) :
    (∀ v, hexLiteral? f.width.bits text = some v → ∃ p, (a.parse line).1 = .ok p ∧ p.image.toList =
      Instruction.encode ⟨.of op, ((registers[0]?.getD 0).val : Nat), ((registers[1]?.getD 0).val : Nat),
        v.toUInt64⟩) ∧
    (hexLiteral? f.width.bits text = none → (a.parse line).1 = .error (.line 1 line .numberInvalid)) := by
  -- the line includes nothing, so it is read as it stands
  have hisLine : Bytes.IsLine line := by
    rw [hline]
    refine Bytes.isLine_of_isInner (isInner_code op fun t ht => ?_)
    obtain ⟨w, hw, rfl⟩ := List.mem_map.mp ht
    exact Written.isInner_text (Written.admitted_operands htext w hw)
  have hne : line ≠ [] := by
    obtain ⟨c, w, hmnemonic, -⟩ := op.mnemonic_letters
    rw [hline, hmnemonic]
    exact List.cons_ne_nil _ _
  obtain ⟨expanded, hexpand, hlines⟩ := a.expand_line hisLine hne (by rw [hline]; exact ofLine_code op _)
  have hlex := Written.lexLine_operands htext hop (a.initialScope.atNumber 1) 1
  rw [← hline] at hlex
  rw [Assembler.parse_eq hexpand, hlines, lexLines, hlex]
  constructor
  · intro v hv
    rw [hv, if_pos Option.isSome_some]
    -- there are no labels, so none is defined twice and none is missing
    have hassemble := assemble_items (List.forall_mem_singleton.mpr (Written.complete_operands hv hop 1))
    have hundefined : undefined? [Item.instruction op ((Written.operands registers f text).map (Written.token 1)) 1] =
        none := by
      rw [undefined?, List.flatMap_singleton, Written.uses_operands, List.find?_nil]
    rw [hundefined] at hassemble
    obtain ⟨p, hp, hdenotes⟩ := hassemble
    refine ⟨p, ?_, ?_⟩
    · rw [List.flatMap_singleton] at hp
      simp only [lexLines, List.append_nil]
      exact hp
    · have himage := hdenotes.image
      rw [bytes?, Item.bytes?, Written.instruction?_operands op hv] at himage
      simpa [bytes?] using himage.symm
  · intro hv
    rw [hv]
    rfl

/-! ## Exact literals -/

/-- A text has a value of a width if and only if it is a minus sign or none, `0x` or `0X`, and one or more hexadecimal
digits of a magnitude that fits the width; the value is the magnitude, or its two's complement.

Wherever a line has been read up to a literal in one of its forms, the literal is accepted if and only if it has a
value of the width of its form and an immediate of this width is awaited; a line with a literal that has no value is
refused for it. In every program that is assembled, the literal is the immediate of the instruction that stands before
it, and its value is encoded there. An instruction that stands alone is assembled whenever its literal has a value. -/
theorem literal_operands_exact (f : Form) (text : Bytes) :
    (∀ (w : Width) (v : Nat), hexLiteral? w.bits text = some v ↔
      ∃ l : HexLiteral, text = l.text ∧ l.magnitude < 2 ^ w.bits ∧ v = l.value w.bits) ∧
    (∀ (scope : Scope) (number : Nat) (line : Bytes) (d : Draft) (after : Bytes),
      OperandAt scope number line f text d after →
        (∀ (d' : Draft) (rest : Bytes), Takes scope number d (f.mark ++ text ++ after) d' rest ↔
          (∃ v, hexLiteral? f.width.bits text = some v) ∧ d.slots.head? = some f.width.operand ∧
            d' = d.accept (f.token text number) ∧ rest = after) ∧
        (hexLiteral? f.width.bits text = none →
          lexLine scope number line = .error (.line number line .numberInvalid))) ∧
    (∀ (a : Assembler) (input source line : Bytes) (n : Nat) (d : Draft) (after : Bytes) (p : Program),
      a.expand input = .ok source → (Bytes.lines source)[n]? = some line →
      OperandAt (a.initialScope.atNumber (1 + n)) (1 + n) line f text d after → (a.parse input).1 = .ok p →
        ∃ (v : Nat) (op : Operation) (registers : List Token) (above done : List Item) (head tail : Bytes)
          (desc : UInt8), hexLiteral? f.width.bits text = some v ∧
          d.tokens = registers.reverse ++
            ⟨.instruction, op.mnemonic, (1 + n : Nat)⟩ :: (done.flatMap Item.tokens).reverse ∧
          op.immediate? = some f.width.operand ∧
          TextReads a.initialScope 1 ((Bytes.lines source).take n) above ∧
          p.image.toList = head ++ (op.code :: desc :: littleEndian f.width.operand.cost v) ++ tail ∧
          head.length = extent (above ++ done)) ∧
    ∀ (a : Assembler) (op : Operation) (registers : List Register) (line : Bytes),
      op.operands = List.replicate registers.length .register ++ [f.width.operand] →
      f.Admits text → Ascii.newline ∉ text →
      line = op.mnemonic ++ operandText ((Written.operands registers f text).map Written.text) →
        (∀ v, hexLiteral? f.width.bits text = some v → ∃ p, (a.parse line).1 = .ok p ∧
          p.image.toList = Instruction.encode ⟨.of op, ((registers[0]?.getD 0).val : Nat),
            ((registers[1]?.getD 0).val : Nat), v.toUInt64⟩) ∧
        (hexLiteral? f.width.bits text = none → (a.parse line).1 = .error (.line 1 line .numberInvalid)) := by
  refine ⟨fun w v => hexLiteral?_eq_some_iff, ?_, ?_, ?_⟩
  · intro scope number line d after h
    exact ⟨h.takes_iff, h.lexLine_invalid⟩
  · intro a input source line n d after p hexpand hline h hp
    exact h.encoded hexpand hline hp
  · intro a op registers line hop hadmits hnewline hline
    exact parse_instruction a hop ⟨hadmits, hnewline⟩ hline

/-- A bare negative literal behind another instruction, a wide one behind a register, and one that is too large for
its width by one. -/
theorem literal_operands_exact_signs :
    (∃ p v, ∃ op : Operation, ∃ head desc tail, (({} : Assembler).parse (bytes "halt jmp -0X01")).1 = .ok p ∧
      hexLiteral? 32 (bytes "-0X01") = some v ∧ op.immediate? = some .imm32 ∧
      p.image.toList = head ++ (op.code :: desc :: littleEndian 4 v) ++ tail ∧
      p.image.toList = [0x22, 0, 0x19, 0, 0xff, 0xff, 0xff, 0xff]) ∧
    (∃ p, (({} : Assembler).parse (bytes "mov r1, $-0x1")).1 = .ok p ∧
      p.image.toList = Instruction.encode ⟨.of .mov, 1, 0, 0xffffffffffffffff⟩) ∧
    lexLine {} 1 (bytes "sys U$0x100000000") =
      .error (.line 1 (bytes "sys U$0x100000000") .numberInvalid) := by
  have himage : (({} : Assembler).parse (bytes "halt jmp -0X01")).1.toOption.map (fun p => p.image.toList) =
      some [0x22, 0, 0x19, 0, 0xff, 0xff, 0xff, 0xff] := by decide +kernel
  refine ⟨?_, ?_, ?_⟩
  · cases hp : (({} : Assembler).parse (bytes "halt jmp -0X01")).1 with
    | error e =>
      rw [hp] at himage
      cases himage
    | ok p =>
      rw [hp] at himage
      have hat : OperandAt (({} : Assembler).initialScope.atNumber (1 + 0)) (1 + 0) (bytes "halt jmp -0X01") .bare
          (bytes "-0X01")
          (.of [⟨.instruction, bytes "jmp", 1⟩, ⟨.instruction, bytes "halt", 1⟩] [.imm32]) [] := by
        refine ⟨⟨by decide +kernel, by decide +kernel, fun _ => ⟨true, true, bytes "01", rfl⟩⟩,
          Lexeme.ends_nil, ?_⟩
        exact .separator (.lexeme (.lexeme .start ⟨.word (bytes "halt"), _, rfl, rfl, rfl⟩)
          ⟨.word (bytes "jmp"), _, rfl, rfl, rfl⟩) (by decide : isSeparator Ascii.space = true)
      obtain ⟨v, op, -, -, -, head, tail, desc, hv, -, himm, -, hbytes, -⟩ :=
        (literal_operands_exact .bare (bytes "-0X01")).2.2.1 {} _ _ _ 0 _ _ p rfl rfl hat hp
      exact ⟨p, v, op, head, desc, tail, rfl, hv, himm, hbytes, Option.some.inj himage⟩
  · have hadmits : Form.wide.Admits (bytes "-0x1") :=
      ⟨by decide +kernel, by decide +kernel, by rintro ⟨⟩⟩
    exact ((literal_operands_exact .wide (bytes "-0x1")).2.2.2 {} .mov [1] _ rfl hadmits (by decide +kernel) rfl).1
      0xffffffffffffffff (by decide +kernel)
  · have hat : OperandAt {} 1 (bytes "sys U$0x100000000") .marked (bytes "0x100000000")
        (.of [⟨.instruction, bytes "sys", 1⟩] [.imm32]) [] := by
      refine ⟨⟨by decide +kernel, by decide +kernel, by rintro ⟨⟩⟩, Lexeme.ends_nil, ?_⟩
      exact .separator (.lexeme .start ⟨.word (bytes "sys"), _, rfl, rfl, rfl⟩)
        (by decide : isSeparator Ascii.space = true)
    exact ((literal_operands_exact .marked (bytes "0x100000000")).2.1 _ _ _ _ _ hat).2 (by decide +kernel)

end Assembly

end WordMachine
