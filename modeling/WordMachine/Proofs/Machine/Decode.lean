import Mathlib
import WordMachine.Proofs.Assembly.Denotation
import WordMachine.Proofs.Text

/-!
# `Proofs.Machine.Decode` — decoding what was assembled

Contents:
* `ofLittleEndian_littleEndian`, `littleEndian_ofLittleEndian`;
* `Instruction.Sized`, `Instruction.Canonical`, `Instruction.ofBytes`: instructions and their bytes;
* `Image.decode_bytes`, `Image.of_decode`, `Image.decode_encode`: what is decoded are the bytes that stand there;
* `Assembly.Item.Complete.canonical`: assembled instructions are canonical.
-/

namespace WordMachine

/-! ## Numbers -/

/-- The low bytes of a number give it back modulo the power of 256. -/
theorem ofLittleEndian_littleEndian (count n : Nat) :
    ofLittleEndian (littleEndian count n) = n % 256 ^ count := by
  induction count generalizing n with
  | zero => simp [littleEndian, ofLittleEndian, Nat.mod_one]
  | succ k ih =>
    have hbyte : ((n % 256).toUInt8).toNat = n % 256 := by
      simp
    rw [littleEndian, ofLittleEndian, ih, hbyte, pow_succ, Nat.mul_comm (256 ^ k) 256, Nat.mod_mul]

theorem littleEndian_ofLittleEndian (bs : Bytes) : littleEndian bs.length (ofLittleEndian bs) = bs := by
  induction bs with
  | nil => rfl
  | cons b rest ih =>
    have hlow : (b.toNat + 256 * ofLittleEndian rest) % 256 = b.toNat := by
      have := b.toNat_lt
      omega
    have hhigh : (b.toNat + 256 * ofLittleEndian rest) / 256 = ofLittleEndian rest := by
      have := b.toNat_lt
      omega
    rw [ofLittleEndian, List.length_cons, littleEndian, hlow, hhigh, ih]
    simp

theorem ofLittleEndian_lt (bs : Bytes) : ofLittleEndian bs < 256 ^ bs.length := by
  induction bs with
  | nil => simp [ofLittleEndian]
  | cons b rest ih =>
    have hb := b.toNat_lt
    rw [ofLittleEndian, List.length_cons, pow_succ]
    omega

/-- Only the code of an operation is read as that operation. -/
theorem Operation.code_of_ofCode? {byte : UInt8} {op : Operation} (h : Operation.ofCode? byte = some op) :
    byte = op.code := by
  have hall : ∀ b, ((Operation.ofCode? b).all fun op => op.code == b) = true := forall_byte (by decide +kernel)
  have hbyte := hall byte
  rw [h] at hbyte
  exact (beq_iff_eq.mp hbyte).symm

/-! ## Instructions -/

namespace Instruction

/-- An instruction of an operation, with fields that its byte form can hold. -/
structure Sized (i : Instruction) (op : Operation) : Prop where
  opcode : i.opcode = .of op
  dst : 0 ≤ i.dst ∧ i.dst < 16
  src : 0 ≤ i.src ∧ i.src < 16
  imm : i.imm.toNat < 256 ^ (op.immediate?.map Operand.cost).getD 0

/-- An instruction whose fields are those its byte form keeps. -/
structure Canonical (i : Instruction) (op : Operation) : Prop extends Sized i op where
  dst_eq : op.registers = 0 → i.dst = 0
  src_eq : op.registers ≤ 1 → i.src = 0

/-- The instruction with the given operation, descriptor and immediate bytes. -/
def ofBytes (op : Operation) (desc : UInt8) (operand : Bytes) : Instruction :=
  ⟨.of op, (desc.toNat % 16 : Nat), (desc.toNat / 16 : Nat), (ofLittleEndian operand).toUInt64⟩

@[simp] theorem opcode_ofBytes (op : Operation) (desc : UInt8) (operand : Bytes) :
    (ofBytes op desc operand).opcode = .of op := rfl

theorem Sized.encode_eq {i : Instruction} {op : Operation} (h : i.Sized op) : i.encode = op.code :: i.descriptor ::
    littleEndian ((op.immediate?.map Operand.cost).getD 0) i.imm.toNat := by
  rw [encode, h.opcode, Opcode.immediate?_of, Opcode.byte_of]

/-- The descriptor of a canonical instruction holds its registers. -/
theorem Canonical.descriptor {i : Instruction} {op : Operation} (h : i.Canonical op) :
    ((i.descriptor.toNat % 16 : Nat) : Int) = i.dst ∧ ((i.descriptor.toNat / 16 : Nat) : Int) = i.src := by
  obtain ⟨hd0, hd⟩ := h.dst
  obtain ⟨hs0, hs⟩ := h.src
  have hdst : ((Register.ofInt i.dst).val : Int) = i.dst := by
    simp only [Register.ofInt]
    omega
  have hsrc : ((Register.ofInt i.src).val : Int) = i.src := by
    simp only [Register.ofInt]
    omega
  unfold Instruction.descriptor
  rw [h.opcode, Opcode.registers_of]
  -- a register that the operation does not have is zero in a canonical instruction
  rcases op.registers_cases with hregs | hregs | hregs
  · have hdst0 := h.dst_eq hregs
    have hsrc0 := h.src_eq (by omega)
    simp [hregs, hdst0, hsrc0]
  · have hsrc0 := h.src_eq (by omega)
    have hbyte : ((Register.ofInt i.dst).val.toUInt8).toNat = (Register.ofInt i.dst).val := by
      have := (Register.ofInt i.dst).isLt
      simp
      omega
    simp only [hregs, hbyte]
    omega
  · have hbyte : (((Register.ofInt i.dst).val + 16 * (Register.ofInt i.src).val).toUInt8).toNat =
        (Register.ofInt i.dst).val + 16 * (Register.ofInt i.src).val := by
      have := (Register.ofInt i.dst).isLt
      have := (Register.ofInt i.src).isLt
      simp
      omega
    simp only [hregs, hbyte]
    omega

/-- A canonical instruction is read off its descriptor and the bytes of its immediate. -/
theorem Canonical.ofBytes_eq {i : Instruction} {op : Operation} (h : i.Canonical op) :
    ofBytes op i.descriptor (littleEndian ((op.immediate?.map Operand.cost).getD 0) i.imm.toNat) = i := by
  have himm : (ofLittleEndian (littleEndian ((op.immediate?.map Operand.cost).getD 0) i.imm.toNat)).toUInt64 =
      i.imm := by
    rw [ofLittleEndian_littleEndian, Nat.mod_eq_of_lt h.imm]
    simp
  obtain ⟨hdst, hsrc⟩ := h.descriptor
  rw [ofBytes, himm, hdst, hsrc, ← h.opcode]

end Instruction

namespace Image

/-- An instruction is decoded where its bytes stand. -/
theorem decode_bytes {image : Image} {op : Operation} {desc : UInt8} {before operand after : Bytes}
    (himage : image.toList = before ++ (op.code :: desc :: operand) ++ after)
    (hoperand : operand.length = (op.immediate?.map Operand.cost).getD 0) :
    image.decode before.length = .ok (.ofBytes op desc operand) := by
  have hget (k : Nat) : image[k]? = (before ++ (op.code :: desc :: operand) ++ after)[k]? := by
    rw [← himage, Array.getElem?_toList]
  have hwidth : (Opcode.of op).width = 2 + operand.length := by
    rw [Opcode.width, Opcode.immediate?_of, hoperand]
  have hcode : image[before.length]? = some op.code := by
    rw [hget]
    simp
  have hdesc : image[before.length + 1]? = some desc := by
    rw [hget, List.append_assoc, List.getElem?_append_right (by omega)]
    simp
  have hsize : before.length + (Opcode.of op).width ≤ image.size := by
    rw [← Array.length_toList, himage, hwidth]
    simp
    omega
  have hslice : image.slice (before.length + 2) ((Opcode.of op).width - 2) = operand := by
    have hdrop : image.toList.drop (before.length + 2) = operand ++ after := by
      rw [himage, List.append_assoc, ← List.drop_drop, List.drop_left]
      rfl
    rw [slice, Array.toList_extract, List.extract_eq_take_drop, hdrop, hwidth, Nat.add_sub_cancel_left,
      Nat.add_sub_cancel_left]
    exact List.take_left
  have hopcode : (⟨op.code⟩ : Opcode) = .of op := rfl
  rw [decode, if_neg (by omega), Int.toNat_natCast]
  simp only [hcode, hopcode, Opcode.operation?_of, Option.isNone_some, Bool.false_eq_true, if_false,
    if_neg (Nat.not_lt.mpr hsize), hdesc, Option.getD_some, hslice]
  rfl

/-- A canonical instruction is decoded where its bytes stand. -/
theorem decode_encode {image : Image} {i : Instruction} {op : Operation} (h : i.Canonical op)
    {before after : Bytes} (himage : image.toList = before ++ i.encode ++ after) :
    image.decode before.length = .ok i := by
  rw [h.encode_eq] at himage
  rw [decode_bytes himage (length_littleEndian _ _), h.ofBytes_eq]

/-- What is decoded at a place are the bytes that stand there: the code of an operation, a descriptor with two
registers, and the immediate that the operation has. -/
theorem of_decode {image : Image} {pc : Int} {i : Instruction} (h : image.decode pc = .ok i) :
    ∃ before op desc operand after, image.toList = before ++ (op.code :: desc :: operand) ++ after ∧
      pc = before.length ∧ operand.length = (op.immediate?.map Operand.cost).getD 0 ∧
      i = .ofBytes op desc operand := by
  unfold decode at h
  split at h
  · cases h
  next hpos =>
    split at h
    · cases h
    next byte hbyte =>
      dsimp only at h
      split at h
      · cases h
      next hsome =>
        split at h
        · cases h
        next hsize =>
          obtain ⟨op, hop⟩ : ∃ op, Operation.ofCode? byte = some op :=
            Option.ne_none_iff_exists'.mp fun hnone => hsome (Option.isNone_iff_eq_none.mpr hnone)
          obtain rfl : byte = op.code := Operation.code_of_ofCode? hop
          have hopcode : (⟨op.code⟩ : Opcode) = .of op := rfl
          have hwidth : (Opcode.of op).width = 2 + (op.immediate?.map Operand.cost).getD 0 := by
            rw [Opcode.width, Opcode.immediate?_of]
          rw [hopcode] at h hsize
          -- the bytes from the place on, cut behind the opcode, the descriptor and the immediate
          have hlt : pc.toNat + 1 < image.size := by omega
          have hrest : image.toList.drop pc.toNat = op.code :: image[pc.toNat + 1] ::
              image.toList.drop (pc.toNat + 2) := by
            rw [List.drop_eq_getElem_cons (by simpa using Nat.lt_of_succ_lt hlt),
              List.drop_eq_getElem_cons (by simpa using hlt), Array.getElem_toList, Array.getElem_toList]
            rw [Array.getElem?_eq_getElem (Nat.lt_of_succ_lt hlt)] at hbyte
            rw [Option.some.inj hbyte]
          have hslice : image.slice (pc.toNat + 2) ((Opcode.of op).width - 2) =
              (image.toList.drop (pc.toNat + 2)).take ((op.immediate?.map Operand.cost).getD 0) := by
            rw [slice, Array.toList_extract, List.extract_eq_take_drop, hwidth]
            congr 1
            omega
          rw [Array.getElem?_eq_getElem hlt, Option.getD_some, hslice] at h
          refine ⟨image.toList.take pc.toNat, op, image[pc.toNat + 1],
            (image.toList.drop (pc.toNat + 2)).take ((op.immediate?.map Operand.cost).getD 0),
            (image.toList.drop (pc.toNat + 2)).drop ((op.immediate?.map Operand.cost).getD 0), ?_, ?_, ?_,
            (Except.ok.inj h).symm⟩
          · rw [List.append_assoc, List.cons_append, List.cons_append, List.take_append_drop, ← hrest,
              List.take_append_drop]
          · rw [List.length_take, Array.length_toList]
            omega
          · rw [List.length_take, List.length_drop, Array.length_toList]
            omega

end Image

/-! ## Assembled instructions -/

/-- A hexadecimal literal stands for a number of its width. -/
theorem Assembly.hexLiteral?_lt {bits n : Nat} {text : Bytes} (h : Assembly.hexLiteral? bits text = some n) :
    n < 2 ^ bits := by
  have hword {digits : Bytes} {m : Nat} (hm : Numeral.word? 16 bits digits = some m) : m < 2 ^ bits := by
    unfold Numeral.word? at hm
    split at hm
    · split at hm
      next hlt =>
        cases hm
        exact hlt
      · cases hm
    · cases hm
  unfold Assembly.hexLiteral? at h
  dsimp only at h
  split at h
  · split at h
    · obtain ⟨m, hm, rfl⟩ := Option.map_eq_some_iff.mp h
      have hsign (negative : Bool) : (if negative then (Nat.pow 2 bits - m) % Nat.pow 2 bits else m) < 2 ^ bits := by
        cases negative with
        | true => exact Nat.mod_lt _ (Nat.two_pow_pos bits)
        | false => exact hword hm
      exact hsign _
    · cases h
  · cases h

namespace Assembly.Item

/-- The value of an immediate token fits its slot. -/
theorem immediate?_lt {offset : Bytes → Option UInt32} {t : Token} {kind : Operand} {v : UInt64}
    (ht : t.operand? = some kind) (hkind : kind ≠ .register) (h : immediate? offset t = some v) :
    v.toNat < 256 ^ kind.cost := by
  unfold immediate? at h
  unfold Token.operand? at ht
  cases htk : t.kind with
  | labelUse =>
    rw [htk] at ht
    cases ht
    rw [if_pos htk] at h
    obtain ⟨o, -, rfl⟩ := Option.map_eq_some_iff.mp h
    exact o.toNat_lt
  | int32 =>
    rw [htk] at ht
    cases ht
    rw [if_neg (by simp [htk]), Token.value, htk] at h
    dsimp only at h
    cases hlit : hexLiteral? 32 t.text with
    | none =>
      rw [hlit] at h
      cases h
    | some n =>
      rw [hlit] at h
      cases h
      have hlt := hexLiteral?_lt hlit
      rw [Nat.toUInt64_eq, UInt64.toNat_ofNat_of_lt' (Nat.lt_trans hlt (by decide))]
      exact hlt
  | int64 =>
    rw [htk] at ht
    cases ht
    exact v.toNat_lt
  | char =>
    rw [htk] at ht
    cases ht
    rw [if_neg (by simp [htk]), Token.value, htk] at h
    dsimp only at h
    split at h
    · cases h
    next b _ =>
      cases h
      have hlt := b.toNat_lt
      rw [Nat.toUInt64_eq, UInt64.toNat_ofNat_of_lt' (Nat.lt_trans hlt (by decide))]
      exact Nat.lt_trans hlt (by decide)
    · cases h
  | register =>
    rw [htk] at ht
    cases ht
    exact absurd rfl hkind
  | _ =>
    rw [htk] at ht
    cases ht

/-- An instruction with all its operands is canonical. -/
theorem Complete.canonical {op : Operation} {operands : List Token} {line : Int} {i : Instruction}
    {offset : Bytes → Option UInt32} (hc : (Item.instruction op operands line).Complete)
    (h : instruction? offset op operands = some i) : i.Canonical op := by
  obtain ⟨registers, immediates, rfl, hregisters, -, himmediates, hvalue⟩ := hc.split
  obtain ⟨values, hlength, hvalues⟩ := fields_registers (kind_of_replicate hregisters) hvalue
  have hcount : values.length = op.registers := by
    have hmap := congrArg List.length hregisters
    rw [List.length_map, List.length_replicate] at hmap
    rw [hlength, hmap]
  obtain ⟨f, hf, rfl⟩ := Option.map_eq_some_iff.mp h
  rw [fields_append, hvalues, Option.bind_some] at hf
  obtain ⟨g, hg, rfl⟩ := Option.map_eq_some_iff.mp hf
  have hbound (r : Register) : (0 : Int) ≤ (r.val : Nat) ∧ ((r.val : Nat) : Int) < 16 :=
    ⟨Int.natCast_nonneg _, by exact_mod_cast r.isLt⟩
  -- an immediate stands alone, so all registers come from the first operands
  have hsingle : g.1 = [] ∧ (g.2[0]?.getD 0).toNat < 256 ^ (op.immediate?.map Operand.cost).getD 0 := by
    rcases himmediates with ⟨himm, rfl⟩ | ⟨kind, t, himm, hkind, rfl, ht, htk, -⟩
    · obtain rfl : ([], []) = g := by simpa [fields] using hg
      exact ⟨rfl, by simp [himm]⟩
    · simp only [fields, Option.bind_some, if_neg htk] at hg
      obtain ⟨v, hv, rfl⟩ := Option.map_eq_some_iff.mp hg
      exact ⟨rfl, by simpa [himm] using immediate?_lt ht hkind hv⟩
  refine ⟨⟨rfl, hbound _, hbound _, ?_⟩, fun hzero => ?_, fun hone => ?_⟩
  · simpa using hsingle.2
  · have hnone : (values ++ g.1)[0]? = none := List.getElem?_eq_none (by simp [hsingle.1, hcount, hzero])
    simp only [hnone]
    rfl
  · have hnone : (values ++ g.1)[1]? = none := List.getElem?_eq_none (by simp [hsingle.1, hcount, hone])
    simp only [hnone]
    rfl

/-- An assembled instruction is decoded where it stands. -/
theorem decode_item {p : Program} {before after : List Item} {op : Operation} {operands : List Token}
    {line : Int} (hc : (Item.instruction op operands line).Complete)
    (hp : Program.Denotes p (before ++ .instruction op operands line :: after)) :
    ∃ i, instruction? (fun name => p.labels[name]?) op operands = some i ∧
      p.image.decode (extent before) = .ok i := by
  have himage := hp.image
  rw [bytes?_append] at himage
  obtain ⟨xs, hxs, himage⟩ := Option.bind_eq_some_iff.mp himage
  obtain ⟨rest, hrest, himage⟩ := Option.map_eq_some_iff.mp himage
  rw [Assembly.bytes?] at hrest
  obtain ⟨bs, hbs, hrest⟩ := Option.bind_eq_some_iff.mp hrest
  obtain ⟨ys, -, rfl⟩ := Option.map_eq_some_iff.mp hrest
  obtain ⟨i, hi, rfl⟩ := Option.map_eq_some_iff.mp hbs
  refine ⟨i, hi, ?_⟩
  rw [← Assembly.length_of_bytes? hxs]
  exact Image.decode_encode (hc.canonical hi) (by rw [← himage, List.append_assoc])

end Assembly.Item

end WordMachine
