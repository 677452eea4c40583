import Mathlib
import WordMachine.Proofs.Assembly.Disassembly
import WordMachine.Proofs.Machine.Frame

/-!
# `Proofs.Machine.Codec` — instructions and their bytes

Encoding keeps the fields that an operation has. Decoding reads both registers off the descriptor, whether the
operation has them or not; execution never looks at those it does not have, so encoding an instruction again
changes nothing that a machine does.

Contents:
* `Image.slice_of_toList`: the bytes that stand at a place;
* `Machine.perform_congr`: an operation reads the registers it has;
* `Instruction.decode_encode_ofBytes`, `Machine.execute_masked`: an instruction encoded and decoded again;
* `Instruction.encode_faithful`.
-/

namespace WordMachine

/-! ## Bytes at a place -/

theorem Image.slice_of_toList {image : Image} {before bs after : Bytes}
    (h : image.toList = before ++ bs ++ after) : image.slice before.length bs.length = bs := by
  have hdrop : image.toList.drop before.length = bs ++ after := by
    rw [h, List.append_assoc, List.drop_left]
  rw [slice, Array.toList_extract, List.extract_eq_take_drop, hdrop, Nat.add_sub_cancel_left]
  exact List.take_left

/-- What was decoded and encoded is decoded without the registers that the operation does not have. -/
theorem Instruction.decode_encode_ofBytes {op : Operation} {operand : Bytes} (desc : UInt8)
    (h : operand.length = (op.immediate?.map Operand.cost).getD 0) :
    Image.decode (ofBytes op desc operand).encode.toArray 0 =
      .ok (ofBytes op (desc &&& (Opcode.of op).descriptorMask) operand) := by
  have hbytes : (ofBytes op desc operand).encode.toArray.toList =
      [] ++ (op.code :: (desc &&& (Opcode.of op).descriptorMask) :: operand) ++ [] := by
    rw [encode_ofBytes h, List.nil_append, List.append_nil]
  exact Image.decode_bytes hbytes h

/-! ## Execution -/

namespace Machine

/-- An operation reads the registers that it has and no others. -/
theorem perform_congr (m : Machine) {op : Operation} {dst dst' src src' : Register} (imm : UInt64) (next : Int)
    (hdst : 0 < op.registers → dst = dst') (hsrc : 1 < op.registers → src = src') :
    m.perform op dst src imm next = m.perform op dst' src' imm next := by
  cases op with
  | jmp | beq | bne | bgt | blt | jsr | ret | sys | halt => rfl
  | mov | ldr | str | adr | push | pop | icst | dcst | neg | call =>
    obtain rfl := hdst (by decide)
    rfl
  | _ =>
    obtain rfl := hdst (by decide)
    obtain rfl := hsrc (by decide)
    rfl

/-- The bits of a descriptor that an operation does not use do not matter to any machine. -/
theorem execute_masked (m : Machine) (op : Operation) (desc : UInt8) (operand : Bytes) :
    m.execute (.ofBytes op (desc &&& (Opcode.of op).descriptorMask) operand) =
      m.execute (.ofBytes op desc operand) := by
  -- the mask keeps as many registers as the operation has, counted from the first
  have htake := Instruction.take_masked op desc operand
  simp only [execute, Instruction.opcode_ofBytes, Opcode.operation?_of]
  refine perform_congr m _ _ (fun hpos => ?_) (fun htwo => ?_)
  · have hhead := congrArg (·[0]?) htake
    simp only [List.getElem?_take_of_lt hpos, List.getElem?_cons_zero, Option.some.injEq] at hhead
    rw [hhead]
  · have hsecond := congrArg (·[1]?) htake
    simp only [List.getElem?_take_of_lt htwo, List.getElem?_cons_succ, List.getElem?_cons_zero,
      Option.some.injEq] at hsecond
    rw [hsecond]

end Machine

/-! ## The codec -/

/-- An instruction of the fields that its operation has is decoded where its bytes stand, whatever stands around
them. Whatever is decoded has the bytes that stand there but for the bits of the descriptor that are not used,
and no machine tells it from what its own bytes are decoded to. -/
theorem Instruction.encode_faithful :
    (∀ (i : Instruction) (op : Operation), i.Canonical op → ∀ before after : Bytes,
      Image.decode (before ++ i.encode ++ after).toArray before.length = .ok i ∧
        i.encode.length = i.opcode.width) ∧
      ∀ (image : Image) (pc : Int) (i : Instruction), image.decode pc = .ok i →
        (image.slice pc.toNat i.opcode.width).length = i.opcode.width ∧
        i.encode = (image.slice pc.toNat i.opcode.width).modify 1 (· &&& i.opcode.descriptorMask) ∧
        ∃ i', Image.decode i.encode.toArray 0 = .ok i' ∧ ∀ m : Machine, m.execute i' = m.execute i := by
  refine ⟨fun i op h before after => ⟨Image.decode_encode h rfl, length_encode i⟩, fun image pc i h => ?_⟩
  obtain ⟨before, op, desc, operand, after, himage, rfl, hoperand, rfl⟩ := Image.of_decode h
  have hwidth : (ofBytes op desc operand).opcode.width = (op.code :: desc :: operand).length :=
    Image.width_ofBytes hoperand
  have hslice : image.slice before.length (ofBytes op desc operand).opcode.width = op.code :: desc :: operand := by
    rw [hwidth]
    exact Image.slice_of_toList himage
  rw [Int.toNat_natCast, hslice]
  refine ⟨hwidth.symm, ?_, _, decode_encode_ofBytes desc hoperand, fun m => m.execute_masked op desc operand⟩
  rw [encode_ofBytes hoperand]
  rfl

/-- An indexed load between other bytes, and a push whose descriptor names a register that it does not have. -/
theorem Instruction.encode_faithful_unused_register :
    Image.decode ([0x22] ++ (⟨.of .indl, 3, 12, 0x89abcdef⟩ : Instruction).encode ++ [0x07]).toArray 1 =
        .ok ⟨.of .indl, 3, 12, 0x89abcdef⟩ ∧
      Image.decode #[0x06, 0x51] 0 = .ok ⟨.of .push, 1, 5, 0⟩ ∧
      (⟨.of .push, 1, 5, 0⟩ : Instruction).encode = [0x06, 0x01] ∧
      ∃ i, Image.decode #[0x06, 0x01] 0 = .ok i ∧
        ∀ m : Machine, m.execute i = m.execute ⟨.of .push, 1, 5, 0⟩ := by
  have hindl : (⟨.of .indl, 3, 12, 0x89abcdef⟩ : Instruction).Canonical .indl :=
    ⟨⟨rfl, by decide, by decide, by decide⟩, by decide, by decide⟩
  have hpush : Image.decode #[0x06, 0x51] 0 = .ok ⟨.of .push, 1, 5, 0⟩ := by decide +kernel
  obtain ⟨-, hencode, hexecute⟩ := encode_faithful.2 _ _ _ hpush
  exact ⟨(encode_faithful.1 _ _ hindl [0x22] [0x07]).1, hpush, hencode, hexecute⟩

end WordMachine
