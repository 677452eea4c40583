import Mathlib
import WordMachine.Proofs.Assembly.Lines
import WordMachine.Proofs.Machine.Decode

/-!
# `Proofs.Assembly.Disassembly` — disassembled images assemble again

The texts of the instructions of an image, one to a line, assemble to the same image, except that register
numbers which an operation does not use are zero.

Contents:
* `Token.IsPlain`, `Token.written`: operands as disassembly writes them;
* `Instruction.operandTokens`, `Instruction.operand?_operandTokens`, `Instruction.lexLine_text`: the text of an
  instruction is read as that instruction;
* `Opcode.descriptorMask`, `Instruction.encode_ofBytes`, `Instruction.text_masked`: unused registers;
* `Image.Tiles`, `Image.tiles_of_disassembleFrom`, `Image.Tiles.disassembleFrom`: images that are instructions one
  after the other;
* `Image.reassemble`.
-/

namespace WordMachine

open Assembly (Token Item Lexeme Scope Assembler)

theorem Numeral.signed_natCast (n : Nat) : signed n = decimal n := by
  rw [signed, if_neg (by omega), Int.natAbs_natCast]

theorem Opcode.name_of (op : Operation) : (Opcode.of op).name = op.mnemonic := by
  rw [name, operation?_of]

/-! ## Operands -/

namespace Assembly.Token

/-- The text of a register, or of a number with the mark of its width. -/
def written (t : Token) : Bytes :=
  if t.kind = .register then bytes "r" ++ t.text
  else if t.kind = .int32 then bytes "U$" ++ t.text
  else bytes "$" ++ t.text

theorem written_register (text : Bytes) (line : Int) : written ⟨.register, text, line⟩ = 0x72 :: text := rfl

theorem written_narrow (text : Bytes) (line : Int) : written ⟨.int32, text, line⟩ = bytes "U$" ++ text := rfl

theorem written_wide (text : Bytes) (line : Int) : written ⟨.int64, text, line⟩ = Ascii.dollar :: text := rfl

/-- A register, or a number in hexadecimal digits. -/
inductive IsPlain (line : Int) : Token → Prop where
  | register {n : Nat} (h : n < 16) : IsPlain line ⟨.register, Numeral.decimal n, line⟩
  | narrow {n : Nat} (h : n < Nat.pow 2 32) : IsPlain line ⟨.int32, bytes "0x" ++ Numeral.hex n, line⟩
  | wide {n : Nat} (h : n < Nat.pow 2 64) : IsPlain line ⟨.int64, bytes "0x" ++ Numeral.hex n, line⟩

namespace IsPlain

variable {line : Int} {t : Token}

theorem isIdent_literal (n : Nat) : ∀ c ∈ bytes "0x" ++ Numeral.hex n, Ascii.isIdent c = true := by
  refine List.forall_mem_append.mpr ⟨?_, fun c hc => Numeral.isIdent_of_mem_hex hc⟩
  exact List.all_eq_true.mp (show (bytes "0x").all Ascii.isIdent = true from rfl)

theorem hasValue (h : IsPlain line t) : t.HasValue ∧ t.line = line := by
  cases h with
  | register hn => exact ⟨⟨_, register_decimal hn line⟩, rfl⟩
  | @narrow n hn =>
    have hvalue := value_narrow n line
    rw [if_pos hn] at hvalue
    exact ⟨⟨_, hvalue⟩, rfl⟩
  | wide hn => exact ⟨⟨_, value_wide hn line⟩, rfl⟩

/-- A plain operand is read back from its text. -/
theorem fills (h : IsPlain line t) {kind : Operand} (hkind : t.operand? = some kind) (scope : Scope)
    (cause : Cause) : Fills scope line t.written kind t true cause := by
  cases h with
  | @register n hn =>
    refine fills_of_next (l := .register (Numeral.decimal n)) hkind (fun rest hrest => ?_) ?_
    · rw [written_register, List.cons_append]
      exact Lexeme.next_register (Numeral.decimal_ne_nil n) (fun c hc => Numeral.isDigit_of_mem_decimal hc) hrest
    · have hregister := register_decimal hn line
      unfold Lexeme.token
      simp only [hregister]
  | @narrow n hn =>
    refine fills_of_next (l := .number .narrow (bytes "0x" ++ Numeral.hex n)) hkind (fun rest hrest => ?_) ?_
    · rw [written_narrow, List.append_assoc]
      exact Lexeme.next_literal .marked (Lexeme.Form.admits_hex _ fun c hc => Numeral.isIdent_of_mem_hex hc) hrest
    · have hvalue := value_narrow n line
      rw [if_pos hn] at hvalue
      exact valued_eq hvalue
  | @wide n hn =>
    refine fills_of_next (l := .number .wide (bytes "0x" ++ Numeral.hex n)) hkind (fun rest hrest => ?_) ?_
    · rw [written_wide, List.cons_append]
      exact Lexeme.next_literal .wide (Lexeme.Form.admits_hex _ fun c hc => Numeral.isIdent_of_mem_hex hc) hrest
    · exact valued_eq (value_wide hn line)

theorem isInner_written (h : IsPlain line t) : ∀ c ∈ t.written, Bytes.isInner c = true := by
  have hliteral (n : Nat) : ∀ c ∈ bytes "0x" ++ Numeral.hex n, Bytes.isInner c = true :=
    fun c hc => Bytes.isInner_of_isIdent (isIdent_literal n c hc)
  cases h with
  | register hn =>
    refine List.forall_mem_append.mpr ⟨List.all_eq_true.mp rfl, fun c hc => ?_⟩
    exact Bytes.isInner_of_isIdent (isIdent_of_isDigit (Numeral.isDigit_of_mem_decimal hc))
  | @narrow n hn => exact List.forall_mem_append.mpr ⟨List.all_eq_true.mp rfl, hliteral n⟩
  | @wide n hn => exact List.forall_mem_append.mpr ⟨List.all_eq_true.mp rfl, hliteral n⟩

end IsPlain

end Assembly.Token

/-! ## Instructions -/

namespace Instruction

/-- The token of a register number. -/
def registerToken (line r : Int) : Token := ⟨.register, Numeral.signed r, line⟩

/-- The token of the immediate, in a slot of a kind. -/
def immediateToken (i : Instruction) (line : Int) (kind : Operand) : Token :=
  if kind = .imm32 then ⟨.int32, bytes "0x" ++ Numeral.hex (i.imm.toNat % Nat.pow 2 32), line⟩
  else ⟨.int64, bytes "0x" ++ Numeral.hex i.imm.toNat, line⟩

/-- The tokens of the operands: the registers that the operation has, and the immediate. -/
def operandTokens (i : Instruction) (op : Operation) (line : Int) : List Token :=
  ([i.dst, i.src].take op.registers).map (registerToken line) ++ op.immediate?.toList.map (i.immediateToken line)

variable {i : Instruction} {op : Operation}

theorem operandTexts_eq (i : Instruction) (op : Operation) (line : Int) :
    i.operandTexts i.dst op.operands = (i.operandTokens op line).map Token.written := by
  have himmediate (r : Int) : i.operandTexts r op.immediate?.toList =
      (op.immediate?.toList.map (i.immediateToken line)).map Token.written := by
    rcases op.immediate?_cases with hslot | hslot | hslot <;> rw [hslot] <;> rfl
  rw [op.operands_eq.1, operandTokens, List.map_append]
  rcases op.registers_cases with hregs | hregs | hregs
  · rw [hregs]
    exact himmediate i.dst
  · rw [hregs, ← himmediate i.src]
    rfl
  · rw [hregs, ← himmediate i.src]
    rfl

/-- The text of an instruction is its mnemonic with its operands behind it. -/
theorem text_eq (h : i.opcode = .of op) (line : Int) :
    i.text = op.mnemonic ++ Assembly.operandText ((i.operandTokens op line).map Token.written) := by
  rw [text, h, Opcode.operands_of, Opcode.name_of, operandTexts_eq i op line]
  cases (i.operandTokens op line).map Token.written with
  | nil => exact (List.append_nil _).symm
  | cons t ts => rfl

theorem operand?_operandTokens (i : Instruction) (op : Operation) (line : Int) :
    (i.operandTokens op line).map Token.operand? = op.operands.map some := by
  have hregisters : ([i.dst, i.src].take op.registers).map (fun r => (registerToken line r).operand?) =
      List.replicate op.registers (some .register) := by
    rcases op.registers_cases with hregs | hregs | hregs <;> rw [hregs] <;> rfl
  have himmediate : op.immediate?.toList.map (fun kind => (i.immediateToken line kind).operand?) =
      op.immediate?.toList.map some := by
    rcases op.immediate?_cases with hslot | hslot | hslot <;> rw [hslot] <;> rfl
  rw [operandTokens, List.map_append, List.map_map, List.map_map, op.operands_eq.1, List.map_append,
    List.map_replicate]
  exact congrArg₂ (· ++ ·) hregisters himmediate

/-- The registers that an instruction has can be told by four bits. -/
theorem Sized.register (h : i.Sized op) : ∀ r ∈ [i.dst, i.src].take op.registers, 0 ≤ r ∧ r < 16 := by
  intro r hr
  rcases List.mem_cons.mp (List.mem_of_mem_take hr) with rfl | hr
  · exact h.dst
  · obtain rfl := List.mem_singleton.mp hr
    exact h.src

theorem Sized.isPlain (h : i.Sized op) (line : Int) : ∀ t ∈ i.operandTokens op line, t.IsPlain line := by
  refine List.forall_mem_append.mpr ⟨fun t ht => ?_, fun t ht => ?_⟩
  · obtain ⟨r, hr, rfl⟩ := List.mem_map.mp ht
    obtain ⟨hpos, hlt⟩ := h.register r hr
    obtain ⟨n, rfl⟩ := Int.eq_ofNat_of_zero_le hpos
    rw [registerToken, Numeral.signed_natCast]
    exact .register (by omega)
  · obtain ⟨kind, -, rfl⟩ := List.mem_map.mp ht
    unfold immediateToken
    split
    · exact .narrow (Nat.mod_lt _ (by decide))
    · exact .wide i.imm.toNat_lt

/-- The item that the text of an instruction stands for. -/
def item (i : Instruction) (op : Operation) (line : Int) : Item := .instruction op (i.operandTokens op line) line

theorem Sized.complete_item (h : i.Sized op) (line : Int) : (i.item op line).Complete := by
  refine ⟨List.forall_mem_cons.mpr ⟨⟨by simp [Token.HasValue], rfl⟩, fun t ht => ?_⟩,
    operand?_operandTokens i op line⟩
  exact (h.isPlain line t ht).hasValue

/-- The text of an instruction is read as its item. -/
theorem Sized.lexLine_text (h : i.Sized op) (scope : Scope) (number : Nat) :
    Assembly.lexLine scope number i.text = .ok (i.item op number).tokens := by
  have hoperands := operand?_operandTokens i op number
  have hkinds : (i.operandTokens op number).map (fun t => t.operand?.getD .register) = op.operands := by
    have hmap := congrArg (List.map fun o => o.getD .register) hoperands
    rw [List.map_map, List.map_map] at hmap
    exact hmap.trans (List.map_id _)
  -- all operands are in range, so the cause that `Fills` gives to one that is not does not matter
  have hfills : ∀ t ∈ i.operandTokens op number,
      Assembly.Fills scope number t.written (t.operand?.getD .register) t true .numberInvalid := by
    intro t ht
    have hmem : t.operand? ∈ op.operands.map some := by
      rw [← hoperands]
      exact List.mem_map_of_mem ht
    obtain ⟨kind, -, hkind⟩ := List.mem_map.mp hmem
    rw [← hkind]
    exact (h.isPlain number t ht).fills hkind.symm scope .numberInvalid
  have hlex : Assembly.lexFrom scope number {} i.text =
      if (i.operandTokens op number).all fun _ => true then
        .ok (.of (((i.operandTokens op number).map id).reverse ++ [⟨.instruction, op.mnemonic, number⟩]) [])
      else .error .numberInvalid := by
    rw [text_eq h.opcode number]
    exact Assembly.lexFrom_code op hkinds hfills
  rw [Assembly.lexLine, hlex]
  simp [Assembly.Draft.finish, item, Item.tokens]

theorem Sized.isInner_text (h : i.Sized op) : ∀ c ∈ i.text, Bytes.isInner c = true := by
  rw [text_eq h.opcode 0]
  refine Assembly.isInner_code op fun text htext => ?_
  obtain ⟨t, ht, rfl⟩ := List.mem_map.mp htext
  exact (h.isPlain 0 t ht).isInner_written

theorem Sized.isLine_text (h : i.Sized op) : Bytes.IsLine i.text := Bytes.isLine_of_isInner h.isInner_text

theorem Sized.ofLine_text (h : i.Sized op) : Directive.ofLine i.text = .other := by
  rw [text_eq h.opcode 0, Assembly.ofLine_code]

/-! ### Bytes of the text -/

theorem register_registerToken {r : Int} (h : 0 ≤ r ∧ r < 16) (line : Int) :
    (registerToken line r).register = .ok (Register.ofInt r) := by
  obtain ⟨hpos, hlt⟩ := h
  obtain ⟨n, rfl⟩ := Int.eq_ofNat_of_zero_le hpos
  have hn : n < 16 := by omega
  rw [registerToken, Numeral.signed_natCast, Assembly.register_decimal hn]
  exact congrArg Except.ok (Register.ofInt_val ⟨n, hn⟩).symm

theorem fields_registerTokens {rs : List Int} (h : ∀ r ∈ rs, 0 ≤ r ∧ r < 16) (offset : Bytes → Option UInt32)
    (line : Int) : Item.fields offset (rs.map (registerToken line)) = some (rs.map Register.ofInt, []) := by
  induction rs with
  | nil => rfl
  | cons r rs ih =>
    have hr := register_registerToken (h r List.mem_cons_self) line
    rw [List.map_cons, Item.fields, ih fun s hs => h s (List.mem_cons_of_mem r hs), Option.bind_some, hr]
    rfl

/-- The immediate is read back from its token. -/
theorem Sized.immediate? (h : i.Sized op) {kind : Operand} (hslot : op.immediate? = some kind)
    (offset : Bytes → Option UInt32) (line : Int) :
    Item.immediate? offset (i.immediateToken line kind) = some i.imm := by
  have himm := h.imm
  rw [hslot] at himm
  have hself : i.imm.toNat.toUInt64 = i.imm := by simp
  cases kind with
  | register => exact absurd rfl (Operation.immediate?_ne_register hslot)
  | imm32 =>
    have hmod : i.imm.toNat % Nat.pow 2 32 = i.imm.toNat := Nat.mod_eq_of_lt himm
    have hvalue := Token.value_narrow (i.imm.toNat % Nat.pow 2 32) line
    rw [if_pos (Nat.mod_lt _ (by decide)), hmod, hself] at hvalue
    rw [immediateToken, if_pos rfl, hmod, Item.immediate?, if_neg (by simp), hvalue]
    rfl
  | imm64 =>
    have hvalue := Token.value_wide i.imm.toNat_lt line
    rw [hself] at hvalue
    rw [immediateToken, if_neg (by decide), Item.immediate?, if_neg (by simp), hvalue]
    rfl

/-- The item of an instruction stands for the bytes of the instruction. -/
theorem Sized.bytes?_item (h : i.Sized op) (offset : Bytes → Option UInt32) (line : Int) :
    (i.item op line).bytes? offset = some i.encode := by
  have himmediate : Item.fields offset (op.immediate?.toList.map (i.immediateToken line)) =
      some ([], op.immediate?.toList.map fun _ => i.imm) := by
    cases hslot : op.immediate? with
    | none => rfl
    | some kind =>
      have hkind : (i.immediateToken line kind).kind ≠ .register := by
        unfold immediateToken
        split <;> simp
      simp only [Option.toList_some, List.map_cons, List.map_nil, Item.fields, Option.bind_some, if_neg hkind,
        h.immediate? hslot offset line, Option.map_some]
  have hfields : Item.fields offset (i.operandTokens op line) =
      some (([i.dst, i.src].take op.registers).map Register.ofInt, op.immediate?.toList.map fun _ => i.imm) := by
    rw [operandTokens, Item.fields_append, fields_registerTokens h.register, Option.bind_some, himmediate,
      Option.map_some, List.append_nil, List.nil_append]
  rw [item, Item.bytes?, Item.instruction?, hfields, Option.map_some, Option.map_some, h.encode_eq, encode]
  -- a register that the operation does not have is read as zero, and does not stand in the descriptor
  have hdescriptor : descriptor ⟨.of op,
      (((([i.dst, i.src].take op.registers).map Register.ofInt)[0]?.getD 0).val : Nat),
      (((([i.dst, i.src].take op.registers).map Register.ofInt)[1]?.getD 0).val : Nat),
      (op.immediate?.toList.map fun _ => i.imm)[0]?.getD 0⟩ = i.descriptor := by
    unfold descriptor
    rw [h.opcode, Opcode.registers_of]
    rcases op.registers_cases with hregs | hregs | hregs <;> simp [hregs]
  have himm : littleEndian ((op.immediate?.map Operand.cost).getD 0)
      ((op.immediate?.toList.map fun _ => i.imm)[0]?.getD 0).toNat =
        littleEndian ((op.immediate?.map Operand.cost).getD 0) i.imm.toNat := by
    cases op.immediate? with
    | none => rfl
    | some kind => rfl
  rw [Register.ofInt_zero, hdescriptor, Opcode.immediate?_of, himm, Opcode.byte_of]

/-! ### Whole texts -/

theorem uses_item (i : Instruction) (op : Operation) (line : Int) : (i.item op line).uses = [] := by
  have hkind : ∀ t ∈ i.operandTokens op line, t.kind ≠ .labelUse := by
    refine List.forall_mem_append.mpr ⟨fun t ht => ?_, fun t ht => ?_⟩
    · obtain ⟨r, -, rfl⟩ := List.mem_map.mp ht
      simp [registerToken]
    · obtain ⟨kind, -, rfl⟩ := List.mem_map.mp ht
      unfold immediateToken
      split <;> simp
  simpa [item, Item.uses] using hkind

/-- The texts of instructions are read as items without labels, which stand for the bytes of the
instructions. -/
theorem lexLines_texts {is : List Instruction} (h : ∀ i ∈ is, ∃ op, i.Sized op) (scope : Scope)
    (number : Nat) :
    ∃ items, Assembly.lexLines scope number (is.map text) = .ok (items.flatMap Item.tokens) ∧
      (∀ i ∈ items, i.Complete) ∧ (∀ start, Assembly.definitions start items = []) ∧
      items.flatMap Item.uses = [] ∧ ∀ offset, Assembly.bytes? offset items = some (is.flatMap encode) := by
  induction is generalizing number with
  | nil => exact ⟨[], rfl, by simp, fun _ => rfl, rfl, fun _ => rfl⟩
  | cons i is ih =>
    obtain ⟨op, hi⟩ := h i List.mem_cons_self
    obtain ⟨items, hlex, hcomplete, hdefinitions, huses, hbytes⟩ :=
      ih (fun j hj => h j (List.mem_cons_of_mem i hj)) (number + 1)
    refine ⟨i.item op number :: items, ?_, ?_, ?_, ?_, ?_⟩
    · rw [List.map_cons, Assembly.lexLines, hi.lexLine_text]
      simp only [hlex, List.flatMap_cons]
    · exact List.forall_mem_cons.mpr ⟨hi.complete_item number, hcomplete⟩
    · intro start
      exact hdefinitions _
    · rw [List.flatMap_cons, uses_item, huses, List.append_nil]
    · intro offset
      rw [Assembly.bytes?, hi.bytes?_item, Option.bind_some, hbytes, Option.map_some, List.flatMap_cons]

/-- Instructions written one to a line assemble to their bytes. -/
theorem parse_texts {is : List Instruction} (h : ∀ i ∈ is, ∃ op, i.Sized op) (a : Assembler) :
    ∃ p, (a.parse (is.flatMap fun i => i.text ++ [Ascii.newline])).1 = .ok p ∧
      p.image.toList = is.flatMap encode := by
  have hlines : ∀ line ∈ is.map text, Bytes.IsLine line := by
    intro line hline
    obtain ⟨i, hi, rfl⟩ := List.mem_map.mp hline
    obtain ⟨op, hsized⟩ := h i hi
    exact hsized.isLine_text
  have hother : ∀ line ∈ is.map text, Directive.ofLine line = .other := by
    intro line hline
    obtain ⟨i, hi, rfl⟩ := List.mem_map.mp hline
    obtain ⟨op, hsized⟩ := h i hi
    exact hsized.ofLine_text
  have hrender : (is.flatMap fun i => i.text ++ [Ascii.newline]) =
      (is.map text).flatMap fun line => line ++ [Ascii.newline] := by
    rw [List.flatMap_map]
  obtain ⟨items, hlex, hcomplete, hdefinitions, huses, hbytes⟩ := lexLines_texts h a.initialScope 1
  -- without labels none is defined twice, and none is missing
  have hduplicate : Assembly.duplicate? [] items = none :=
    @Assembly.duplicate?_eq_none items [] 0 (by simp [hdefinitions]) (by simp)
  have hundefined : Assembly.undefined? items = none := by
    rw [Assembly.undefined?, huses, List.find?_nil]
  have hassemble := Assembly.assemble_items hcomplete
  rw [hduplicate, hundefined] at hassemble
  obtain ⟨p, hp, hdenotes⟩ := hassemble
  refine ⟨p, ?_, ?_⟩
  · rw [hrender, Assembler.parse_eq (Assembler.expand_lines hlines hother), Bytes.lines_render hlines, hlex]
    exact hp
  · exact Option.some.inj (hdenotes.image.symm.trans (hbytes _))

/-! ## Unused registers -/

end Instruction

/-- The bits of a descriptor that an opcode uses. -/
def Opcode.descriptorMask (o : Opcode) : UInt8 :=
  if o.registers = 0 then 0x00 else if o.registers = 1 then 0x0f else 0xff

namespace Instruction

variable {op : Operation} {desc : UInt8} {operand : Bytes}

theorem sized_ofBytes (h : operand.length = (op.immediate?.map Operand.cost).getD 0) :
    (ofBytes op desc operand).Sized op where
  opcode := rfl
  dst := by
    show (0 : Int) ≤ (desc.toNat % 16 : Nat) ∧ ((desc.toNat % 16 : Nat) : Int) < 16
    omega
  src := by
    have hdesc := desc.toNat_lt
    show (0 : Int) ≤ (desc.toNat / 16 : Nat) ∧ ((desc.toNat / 16 : Nat) : Int) < 16
    omega
  imm := by
    have hlt := ofLittleEndian_lt operand
    rw [h] at hlt
    show (ofLittleEndian operand).toUInt64.toNat < _
    rw [Nat.toUInt64_eq, UInt64.toNat_ofNat']
    exact Nat.lt_of_le_of_lt (Nat.mod_le _ _) hlt

/-- The registers that an operation has do not change when the unused bits of the descriptor are cleared. -/
theorem take_masked (op : Operation) (desc : UInt8) (operand : Bytes) :
    [(ofBytes op (desc &&& (Opcode.of op).descriptorMask) operand).dst,
      (ofBytes op (desc &&& (Opcode.of op).descriptorMask) operand).src].take op.registers =
      [(ofBytes op desc operand).dst, (ofBytes op desc operand).src].take op.registers := by
  have hlow : ∀ desc : UInt8, (desc &&& 0x0f).toNat % 16 = desc.toNat % 16 := forall_byte (by decide +kernel)
  have hall : ∀ desc : UInt8, desc &&& 0xff = desc := forall_byte (by decide +kernel)
  unfold Opcode.descriptorMask ofBytes
  rw [Opcode.registers_of]
  rcases op.registers_cases with hregs | hregs | hregs
  · simp [hregs]
  · rw [hregs]
    show [(((desc &&& 0x0f).toNat % 16 : Nat) : Int)] = [((desc.toNat % 16 : Nat) : Int)]
    rw [hlow]
  · simp [hregs, hall]

/-- The text tells nothing about the bits of the descriptor that are not used. -/
theorem text_masked (op : Operation) (desc : UInt8) (operand : Bytes) :
    (ofBytes op (desc &&& (Opcode.of op).descriptorMask) operand).text = (ofBytes op desc operand).text := by
  rw [text_eq (opcode_ofBytes ..) 0, text_eq (opcode_ofBytes ..) 0, operandTokens, operandTokens, take_masked]
  rfl

theorem descriptor_ofBytes (op : Operation) (desc : UInt8) (operand : Bytes) :
    (ofBytes op desc operand).descriptor = desc &&& (Opcode.of op).descriptorMask := by
  have hlow : ∀ desc : UInt8, (Register.ofInt (desc.toNat % 16 : Nat)).val.toUInt8 = desc &&& 0x0f :=
    forall_byte (by decide +kernel)
  have hall : ∀ desc : UInt8, ((Register.ofInt (desc.toNat % 16 : Nat)).val +
      16 * (Register.ofInt (desc.toNat / 16 : Nat)).val).toUInt8 = desc &&& 0xff := forall_byte (by decide +kernel)
  unfold descriptor Opcode.descriptorMask
  rw [opcode_ofBytes, Opcode.registers_of]
  rcases op.registers_cases with hregs | hregs | hregs
  · simp [hregs]
  · simp only [hregs]
    exact hlow desc
  · simp only [hregs]
    exact hall desc

/-- Encoding what was decoded clears the bits of the descriptor that are not used. -/
theorem encode_ofBytes (h : operand.length = (op.immediate?.map Operand.cost).getD 0) :
    (ofBytes op desc operand).encode = op.code :: (desc &&& (Opcode.of op).descriptorMask) :: operand := by
  have hcost : (op.immediate?.map Operand.cost).getD 0 ≤ 8 := by cases op <;> decide
  have himm : (ofBytes op desc operand).imm.toNat = ofLittleEndian operand := by
    refine UInt64.toNat_ofNat_of_lt' (Nat.lt_of_lt_of_le (ofLittleEndian_lt operand) ?_)
    calc 256 ^ operand.length
        ≤ 256 ^ 8 := Nat.pow_le_pow_right (by decide) (by omega)
      _ = UInt64.size := by decide
  rw [(sized_ofBytes h).encode_eq, descriptor_ofBytes, himm, ← h, littleEndian_ofLittleEndian]

end Instruction

/-! ## Images -/

namespace Image

/-- Bytes from a place on that are instructions one after the other. -/
inductive Tiles : Nat → Bytes → List (Nat × Instruction) → Prop where
  | nil {pc : Nat} : Tiles pc [] []
  | cons {pc : Nat} {op : Operation} {desc : UInt8} {operand rest : Bytes} {l : List (Nat × Instruction)}
      (hoperand : operand.length = (op.immediate?.map Operand.cost).getD 0)
      (htail : Tiles (pc + (op.code :: desc :: operand).length) rest l) :
      Tiles pc ((op.code :: desc :: operand) ++ rest) ((pc, .ofBytes op desc operand) :: l)

theorem width_ofBytes {op : Operation} {desc : UInt8} {operand : Bytes}
    (h : operand.length = (op.immediate?.map Operand.cost).getD 0) :
    (Instruction.ofBytes op desc operand).opcode.width = (op.code :: desc :: operand).length := by
  rw [Instruction.opcode_ofBytes, Opcode.width, Opcode.immediate?_of, ← h, List.length_cons, List.length_cons]
  omega

/-- What is disassembled without a fault are instructions up to the end. -/
theorem tiles_of_disassembleFrom {image : Image} {fuel pc : Nat} {l : List (Nat × Instruction)}
    (h : image.disassembleFrom fuel pc = (l, none)) (hfuel : image.size ≤ pc + fuel) :
    Tiles pc (image.toList.drop pc) l := by
  induction fuel generalizing pc l with
  | zero =>
    cases h
    rw [List.drop_eq_nil_of_le (by simpa using hfuel)]
    exact .nil
  | succ fuel ih =>
    rw [disassembleFrom] at h
    split at h
    next hend =>
      cases h
      rw [List.drop_eq_nil_of_le (by simpa using hend)]
      exact .nil
    · split at h
      · cases h
      next i hdecode =>
        -- the instruction takes two bytes at least, so the fuel lasts for the bytes after it
        obtain ⟨before, op, desc, operand, after, himage, hpc, hoperand, rfl⟩ := of_decode hdecode
        obtain rfl : pc = before.length := by exact_mod_cast hpc
        rw [width_ofBytes hoperand] at h
        generalize hrest : image.disassembleFrom fuel (before.length + (op.code :: desc :: operand).length) = r at h
        obtain ⟨rest, stop⟩ := r
        cases h
        have htail := ih hrest (by simp; omega)
        have hdrop : image.toList.drop before.length = (op.code :: desc :: operand) ++ after := by
          rw [himage, List.append_assoc, List.drop_left]
        have hafter : image.toList.drop (before.length + (op.code :: desc :: operand).length) = after := by
          rw [← List.drop_drop, hdrop, List.drop_left]
        rw [hafter] at htail
        rw [hdrop]
        exact .cons hoperand htail

/-- Instructions up to the end are disassembled without a fault. -/
theorem Tiles.disassembleFrom {image : Image} {fuel pc : Nat} {before bytes : Bytes} {l : List (Nat × Instruction)}
    (h : Tiles pc bytes l) (hpc : before.length = pc) (himage : image.toList = before ++ bytes)
    (hfuel : bytes.length ≤ fuel) : image.disassembleFrom fuel pc = (l, none) := by
  induction h generalizing before fuel with
  | @nil pc =>
    have hsize : image.size ≤ pc := by
      rw [← Array.length_toList, himage, ← hpc]
      simp
    cases fuel with
    | zero => rfl
    | succ fuel => rw [Image.disassembleFrom, if_pos hsize]
  | @cons pc op desc operand rest l hoperand htail ih =>
    cases fuel with
    | zero => simp at hfuel
    | succ fuel =>
      have hsize : ¬ image.size ≤ pc := by
        rw [← Array.length_toList, himage, ← hpc]
        simp
      have hdecode : image.decode pc = .ok (.ofBytes op desc operand) := by
        rw [← hpc]
        exact decode_bytes (by rw [himage, List.append_assoc]) hoperand
      have hrest := @ih fuel (before ++ (op.code :: desc :: operand)) (by rw [List.length_append, hpc])
        (by rw [himage, List.append_assoc]) (by simp at hfuel; omega)
      rw [Image.disassembleFrom, if_neg hsize, hdecode]
      simp only [width_ofBytes hoperand, hrest]

theorem Tiles.sized {pc : Nat} {bytes : Bytes} {l : List (Nat × Instruction)} (h : Tiles pc bytes l) :
    ∀ i ∈ l.map Prod.snd, ∃ op, i.Sized op := by
  induction h with
  | nil => simp
  | @cons pc op desc operand rest l hoperand htail ih =>
    exact List.forall_mem_cons.mpr ⟨⟨op, Instruction.sized_ofBytes hoperand⟩, ih⟩

/-- The encoded instructions of an image are instructions one after the other, with the same places and
texts. -/
theorem Tiles.encoded {pc : Nat} {bytes : Bytes} {l : List (Nat × Instruction)} (h : Tiles pc bytes l) :
    ∃ l', Tiles pc ((l.map Prod.snd).flatMap Instruction.encode) l' ∧
      l'.map (fun e => (e.1, e.2.text)) = l.map fun e => (e.1, e.2.text) := by
  induction h with
  | nil => exact ⟨[], .nil, rfl⟩
  | @cons pc op desc operand rest l hoperand htail ih =>
    obtain ⟨l', htiles, htexts⟩ := ih
    refine ⟨(pc, .ofBytes op (desc &&& (Opcode.of op).descriptorMask) operand) :: l', ?_, ?_⟩
    · rw [List.map_cons, List.flatMap_cons, Instruction.encode_ofBytes hoperand]
      exact .cons hoperand htiles
    · rw [List.map_cons, List.map_cons, htexts, Instruction.text_masked]

/-- Encoding the instructions of an image again clears the unused bits of the descriptors, and changes no other
byte. -/
theorem Tiles.getElem?_encoded {pc : Nat} {bytes : Bytes} {l : List (Nat × Instruction)} (h : Tiles pc bytes l) :
    ((l.map Prod.snd).flatMap Instruction.encode).length = bytes.length ∧
      (∀ k, (∀ e ∈ l, pc + k ≠ e.1 + 1) → ((l.map Prod.snd).flatMap Instruction.encode)[k]? = bytes[k]?) ∧
      ∀ e ∈ l, ∃ k b, pc + k = e.1 + 1 ∧ bytes[k]? = some b ∧
        ((l.map Prod.snd).flatMap Instruction.encode)[k]? = some (b &&& e.2.opcode.descriptorMask) := by
  induction h with
  | nil => exact ⟨rfl, fun _ _ => rfl, by simp⟩
  | @cons pc op desc operand rest l hoperand htail ih =>
    obtain ⟨hlength, hsame, hmasked⟩ := ih
    rw [List.map_cons, List.flatMap_cons, Instruction.encode_ofBytes hoperand]
    refine ⟨by simp [hlength], fun k hk => ?_, fun e he => ?_⟩
    · -- the second byte is the descriptor; all others stand in both lists
      have hone : k ≠ 1 := by
        have := hk _ List.mem_cons_self
        simpa using this
      by_cases hlt : k < (op.code :: desc :: operand).length
      · rw [List.getElem?_append_left (by simpa using hlt), List.getElem?_append_left hlt]
        rcases k with _ | _ | k
        · rfl
        · exact absurd rfl hone
        · rfl
      · rw [List.getElem?_append_right (by simpa using hlt), List.getElem?_append_right (by omega)]
        refine hsame _ fun e he => ?_
        have := hk e (List.mem_cons_of_mem _ he)
        simp at hlt ⊢
        omega
    · rcases List.mem_cons.mp he with rfl | he
      · exact ⟨1, desc, rfl, rfl, rfl⟩
      · obtain ⟨k, b, hk, hb, hb'⟩ := hmasked e he
        refine ⟨(op.code :: desc :: operand).length + k, b, by omega, ?_, ?_⟩
        · rw [List.getElem?_append_right (by omega), Nat.add_sub_cancel_left]
          exact hb
        · rw [List.getElem?_append_right (by simp), ← hb']
          congr 1
          simp

/-- The texts of the instructions of an image, one to a line, assemble, whatever names and library there are.
The new image differs from the old one only in bits of descriptors that are not used, which are zero, and
it is disassembled to the same texts at the same places. -/
theorem reassemble {image : Image} {l : List (Nat × Instruction)} (h : image.disassemble = (l, none))
    (a : Assembler) :
    ∃ p, (a.parse (l.flatMap fun e => e.2.text ++ [Ascii.newline])).1 = .ok p ∧
      p.image.size = image.size ∧
      (∀ e ∈ l, ∃ b, image[e.1 + 1]? = some b ∧ p.image[e.1 + 1]? = some (b &&& e.2.opcode.descriptorMask)) ∧
      (∀ k, (∀ e ∈ l, k ≠ e.1 + 1) → p.image[k]? = image[k]?) ∧
      ((∀ e ∈ l, ∀ b ∈ image[e.1 + 1]?, b &&& e.2.opcode.descriptorMask = b) → p.image = image) ∧
      p.image.disassemble.2 = none ∧
      p.image.disassemble.1.map (fun e => (e.1, e.2.text)) = l.map fun e => (e.1, e.2.text) := by
  have htiles : Tiles 0 image.toList l := tiles_of_disassembleFrom h (by omega)
  obtain ⟨p, hp, himage⟩ := Instruction.parse_texts htiles.sized a
  obtain ⟨hlength, hsame, hmasked⟩ := htiles.getElem?_encoded
  rw [← himage] at hlength hsame hmasked
  obtain ⟨l', htiles', htexts⟩ := htiles.encoded
  rw [← himage] at htiles'
  have hdisassemble : p.image.disassemble = (l', none) :=
    htiles'.disassembleFrom List.length_nil rfl (by simp)
  have hothers : ∀ k, (∀ e ∈ l, k ≠ e.1 + 1) → p.image[k]? = image[k]? := by
    intro k hk
    have hbyte := hsame k (by simpa using hk)
    rwa [Array.getElem?_toList, Array.getElem?_toList] at hbyte
  have hdescriptors : ∀ e ∈ l, ∃ b, image[e.1 + 1]? = some b ∧
      p.image[e.1 + 1]? = some (b &&& e.2.opcode.descriptorMask) := by
    intro e he
    obtain ⟨k, b, hk, hb, hb'⟩ := hmasked e he
    obtain rfl : k = e.1 + 1 := by omega
    rw [Array.getElem?_toList] at hb hb'
    exact ⟨b, hb, hb'⟩
  refine ⟨p, ?_, by simpa using hlength, hdescriptors, hothers, ?_, ?_, ?_⟩
  · rwa [List.flatMap_map] at hp
  · intro hclear
    -- only descriptors can differ, and these have no other bits
    refine Array.ext_getElem? fun k => ?_
    by_cases hk : ∀ e ∈ l, k ≠ e.1 + 1
    · exact hothers k hk
    · push Not at hk
      obtain ⟨e, he, rfl⟩ := hk
      obtain ⟨b, hb, hb'⟩ := hdescriptors e he
      rw [hb', hb, hclear e he b hb]
  · rw [hdisassemble]
  · rw [hdisassemble]
    exact htexts

/-- Two instructions whose descriptors name registers that they do not have. -/
theorem reassemble_unused_registers :
    disassemble #[0x06, 0x51, 0x22, 0x07] = ([(0, ⟨.of .push, 1, 5, 0⟩), (2, ⟨.of .halt, 7, 0, 0⟩)], none) ∧
      ∃ p, (({} : Assembler).parse (bytes "push r1\nhalt\n")).1 = .ok p ∧ p.image.size = 4 ∧
        p.image[1]? = some 0x01 ∧ p.image[2]? = some 0x22 ∧ p.image.disassemble.2 = none := by
  have hdisassemble : disassemble #[0x06, 0x51, 0x22, 0x07] =
      ([(0, ⟨.of .push, 1, 5, 0⟩), (2, ⟨.of .halt, 7, 0, 0⟩)], none) := by
    decide +kernel
  obtain ⟨p, hp, hsize, hdescriptors, hothers, -, hstop, -⟩ := reassemble hdisassemble {}
  obtain ⟨b, hb, hpush⟩ := hdescriptors (0, ⟨.of .push, 1, 5, 0⟩) List.mem_cons_self
  obtain rfl : 0x51 = b := Option.some.inj hb
  exact ⟨hdisassemble, p, hp, hsize, hpush, hothers 2 (by decide), hstop⟩

end Image

end WordMachine
