import Mathlib
import WordMachine.Proofs.Assembly.Items

/-!
# `Proofs.Assembly.Lowering` — lowering, item by item

The bytes of an item follow from its tokens and the offsets of the labels alone. Lowering puts down the
bytes of all items with zero for every label, and notes the holes, the labels and the instructions.

Contents:
* `Item.fields`, `Item.instruction?`, `Item.bytes?`: what an item stands for;
* `extent`, `definitions`, `holes`, `entries`: where items lie and what they name;
* `Relocatable.Lays`: the outcome of lowering items;
* `lower_items`: lowering fails at the first label that is defined again, and lays the items otherwise.
-/

namespace WordMachine

/-! ## Shapes of instructions -/

@[simp] theorem Opcode.operation?_of (op : Operation) : (Opcode.of op).operation? = some op := by
  cases op <;> rfl

theorem Opcode.of_injective {op op' : Operation} (h : Opcode.of op = Opcode.of op') : op = op' := by
  have hsome := congrArg Opcode.operation? h
  rw [Opcode.operation?_of, Opcode.operation?_of] at hsome
  exact Option.some.inj hsome

@[simp] theorem Opcode.byte_of (op : Operation) : (Opcode.of op).byte = op.code := rfl

@[simp] theorem Opcode.operands_of (op : Operation) : (Opcode.of op).operands = op.operands := by
  simp [Opcode.operands]

@[simp] theorem Opcode.registers_of (op : Operation) : (Opcode.of op).registers = op.registers := by
  simp [Opcode.registers, Operation.registers]

@[simp] theorem Opcode.immediate?_of (op : Operation) : (Opcode.of op).immediate? = op.immediate? := by
  simp [Opcode.immediate?, Operation.immediate?]

/-- Registers come first, at most two of them, and at most one immediate comes after them. -/
theorem Operation.operands_eq (op : Operation) :
    op.operands = List.replicate op.registers .register ++ op.immediate?.toList ∧ op.registers ≤ 2 := by
  cases op <;> decide

theorem Operation.registers_cases (op : Operation) :
    op.registers = 0 ∨ op.registers = 1 ∨ op.registers = 2 := by
  have hle := op.operands_eq.2
  omega

theorem Operation.immediate?_cases (op : Operation) :
    op.immediate? = none ∨ op.immediate? = some .imm32 ∨ op.immediate? = some .imm64 := by
  cases op <;> decide

theorem Operation.immediate?_ne_register {op : Operation} {kind : Operand}
    (h : op.immediate? = some kind) : kind ≠ .register := by
  have hfound := List.find?_some h
  simpa using hfound

@[simp] theorem Register.ofInt_zero : Register.ofInt 0 = 0 := rfl

@[simp] theorem Register.ofInt_val (r : Register) : Register.ofInt (r.val : Int) = r := by
  apply Fin.ext
  simp only [Register.ofInt]
  omega

theorem length_littleEndian (count n : Nat) : (littleEndian count n).length = count := by
  induction count generalizing n with
  | zero => rfl
  | succ k ih => simp [littleEndian, ih]

/-- An instruction takes as many bytes as its width says. -/
theorem Instruction.length_encode (i : Instruction) : i.encode.length = i.opcode.width := by
  simp [Instruction.encode, Opcode.width, length_littleEndian]
  omega

namespace Assembly

/-! ## What items stand for -/

namespace Item

/-- The value of an operand that is no register: a label stands for its offset. -/
def immediate? (offset : Bytes → Option UInt32) (t : Token) : Option UInt64 :=
  if t.kind = .labelUse then (offset t.text).map UInt32.toUInt64 else t.value.toOption

/-- The registers and the immediates among operands, in order. -/
def fields (offset : Bytes → Option UInt32) : List Token → Option (List Register × List UInt64)
  | [] => some ([], [])
  | t :: rest =>
      (fields offset rest).bind fun f =>
        if t.kind = .register then t.register.toOption.map fun r => (r :: f.1, f.2)
        else (immediate? offset t).map fun v => (f.1, v :: f.2)

/-- The instruction of an operation with operands: the first register is the destination, the second the
source. -/
def instruction? (offset : Bytes → Option UInt32) (op : Operation) (operands : List Token) :
    Option Instruction :=
  (fields offset operands).map fun f =>
    ⟨.of op, ((f.1[0]?.getD (Register.ofInt 0)).val : Nat), ((f.1[1]?.getD (Register.ofInt 0)).val : Nat),
      f.2[0]?.getD 0⟩

theorem fields_append (offset : Bytes → Option UInt32) (xs ys : List Token) :
    fields offset (xs ++ ys) =
      (fields offset xs).bind fun f => (fields offset ys).map fun g => (f.1 ++ g.1, f.2 ++ g.2) := by
  induction xs with
  | nil => cases h : fields offset ys <;> simp [fields, h]
  | cons t rest ih =>
    simp only [List.cons_append, fields, ih]
    cases fields offset rest with
    | none => rfl
    | some f =>
      cases fields offset ys with
      | none => split <;> cases t.register.toOption <;> cases immediate? offset t <;> rfl
      | some g => split <;> cases t.register.toOption <;> cases immediate? offset t <;> rfl

/-- The bytes of an item, given the offsets of the labels. -/
def bytes? (offset : Bytes → Option UInt32) : Item → Option Bytes
  | .label .. => some []
  | .string raw _ => (Escape.decode? raw).map (· ++ [0])
  | .instruction op operands _ => (instruction? offset op operands).map Instruction.encode

/-- The number of bytes of an item. -/
def size : Item → Nat
  | .label .. => 0
  | .string raw _ => ((Escape.decode? raw).getD []).length + 1
  | .instruction op _ _ => (Opcode.of op).width

theorem length_of_bytes? {offset : Bytes → Option UInt32} {i : Item} {bs : Bytes}
    (h : i.bytes? offset = some bs) : bs.length = i.size := by
  cases i with
  | label name line => cases h; rfl
  | string raw line =>
    obtain ⟨data, hdata, rfl⟩ := Option.map_eq_some_iff.mp h
    simp [size, hdata]
  | instruction op operands line =>
    obtain ⟨inst, hinst, rfl⟩ := Option.map_eq_some_iff.mp h
    obtain ⟨f, -, rfl⟩ := Option.map_eq_some_iff.mp hinst
    exact Instruction.length_encode _

end Item

/-- The bytes of items, one after the other. -/
def bytes? (offset : Bytes → Option UInt32) : List Item → Option Bytes
  | [] => some []
  | i :: rest => (i.bytes? offset).bind fun bs => (bytes? offset rest).map (bs ++ ·)

/-- The number of bytes of items. -/
def extent : List Item → Nat
  | [] => 0
  | i :: rest => i.size + extent rest

/-- The labels that items define, with their offsets from a start on. -/
def definitions : Nat → List Item → List (Bytes × Nat)
  | _, [] => []
  | start, .label name _ :: rest => (name, start) :: definitions start rest
  | start, i :: rest => definitions (start + i.size) rest

/-- The label operands of an item, with the lines that use them. -/
def Item.uses : Item → List (Bytes × Int)
  | .instruction _ operands _ =>
      (operands.filter (·.kind = .labelUse)).map fun t => (t.text, t.line)
  | _ => []

/-- The holes that items leave for labels; an immediate comes after the opcode and the descriptor. -/
def holes : Nat → List Item → List Relocation
  | _, [] => []
  | start, i :: rest =>
      i.uses.map (fun u => ⟨start + 2, u.1, u.2⟩) ++ holes (start + i.size) rest

/-- The instructions among items, with their offsets and lines. -/
def entries : Nat → List Item → List LineEntry
  | _, [] => []
  | start, .instruction op operands line :: rest =>
      ⟨start, line⟩ :: entries (start + (Item.instruction op operands line).size) rest
  | start, i :: rest => entries (start + i.size) rest

/-! ### Items one after the other -/

theorem bytes?_append (offset : Bytes → Option UInt32) (xs ys : List Item) :
    bytes? offset (xs ++ ys) =
      (bytes? offset xs).bind fun bs => (bytes? offset ys).map (bs ++ ·) := by
  induction xs with
  | nil => cases h : bytes? offset ys <;> simp [bytes?, h]
  | cons i rest ih =>
    simp only [List.cons_append, bytes?, ih]
    cases i.bytes? offset with
    | none => rfl
    | some bs =>
      cases bytes? offset rest with
      | none => rfl
      | some more => cases bytes? offset ys <;> simp

theorem length_of_bytes? {offset : Bytes → Option UInt32} {items : List Item} {bs : Bytes}
    (h : bytes? offset items = some bs) : bs.length = extent items := by
  induction items generalizing bs with
  | nil => cases h; rfl
  | cons i rest ih =>
    obtain ⟨first, hfirst, hrest⟩ := Option.bind_eq_some_iff.mp h
    obtain ⟨more, hmore, rfl⟩ := Option.map_eq_some_iff.mp hrest
    rw [List.length_append, Item.length_of_bytes? hfirst, ih hmore, extent]

theorem extent_append (xs ys : List Item) : extent (xs ++ ys) = extent xs + extent ys := by
  induction xs with
  | nil => simp [extent]
  | cons i rest ih => simp only [List.cons_append, extent, ih]; omega

theorem definitions_append (start : Nat) (xs ys : List Item) :
    definitions start (xs ++ ys) = definitions start xs ++ definitions (start + extent xs) ys := by
  induction xs generalizing start with
  | nil => simp [definitions, extent]
  | cons i rest ih =>
    cases i <;> simp [definitions, extent, ih, Item.size, Nat.add_assoc]

theorem holes_append (start : Nat) (xs ys : List Item) :
    holes start (xs ++ ys) = holes start xs ++ holes (start + extent xs) ys := by
  induction xs generalizing start with
  | nil => simp [holes, extent]
  | cons i rest ih => simp [holes, extent, ih, Nat.add_assoc]

theorem entries_append (start : Nat) (xs ys : List Item) :
    entries start (xs ++ ys) = entries start xs ++ entries (start + extent xs) ys := by
  induction xs generalizing start with
  | nil => simp [entries, extent]
  | cons i rest ih =>
    cases i <;> simp [entries, extent, ih, Nat.add_assoc]

/-! ## Lowering one item -/

theorem Token.kind_of_register {t : Token} (h : t.operand? = some .register) : t.kind = .register := by
  obtain ⟨kind, text, line⟩ := t
  cases kind <;> simp_all [Token.operand?, Kind.operand?]

theorem kind_of_replicate {registers : List Token} {count : Nat}
    (h : registers.map Token.operand? = List.replicate count (some .register)) :
    ∀ t ∈ registers, t.kind = .register := by
  intro t ht
  have hmem : t.operand? ∈ registers.map Token.operand? := List.mem_map_of_mem ht
  rw [h] at hmem
  exact Token.kind_of_register (List.eq_of_mem_replicate hmem)

theorem Token.kind_ne_register {t : Token} {kind : Operand} (h : t.operand? = some kind)
    (hk : kind ≠ .register) : t.kind ≠ .register := by
  rintro hreg
  rw [Token.operand?, hreg] at h
  exact hk (Option.some.inj h).symm

namespace Relocatable

theorem tokens_of_token {r next : Relocatable} {t : Token} {rest : List Token}
    (hk : t.kind ≠ .register) (h : r.token t = .ok next) :
    r.tokens (t :: rest) = next.tokens rest := by
  rw [tokens, if_neg hk, h]

theorem tokens_register {r : Relocatable} {t : Token} {rest : List Token} {lo : Register}
    (hk : t.kind = .register) (h : t.register = .ok lo)
    (hrest : ∀ u ∈ rest.head?, u.kind ≠ .register) :
    r.tokens (t :: rest) = (r.append [descriptor lo 0]).tokens rest := by
  cases rest with
  | nil => simp [tokens, hk, registerOf, h]
  | cons u tail =>
    have hu : u.kind ≠ .register := hrest u rfl
    simp [tokens, hk, registerOf, h, hu]

theorem tokens_registers {r : Relocatable} {t u : Token} {rest : List Token} {lo hi : Register}
    (hk : t.kind = .register) (h : t.register = .ok lo) (huk : u.kind = .register)
    (hu : u.register = .ok hi) :
    r.tokens (t :: u :: rest) = (r.append [descriptor lo hi]).tokens rest := by
  simp [tokens, hk, registerOf, h, huk, hu]

/-- An immediate is laid with its width; a label is laid as zero and noted as a hole. -/
theorem token_immediate (r : Relocatable) {t : Token} {kind : Operand} (hk : t.operand? = some kind)
    (hr : kind ≠ .register) (hv : t.HasValue) :
    ∃ next v, r.token t = .ok next ∧ Item.immediate? (fun _ => some 0) t = some v ∧
      next.image.toList = r.image.toList ++ littleEndian kind.cost v.toNat ∧
      next.relocations.toList = r.relocations.toList ++
        (if t.kind = .labelUse then [⟨r.image.size, t.text, t.line⟩] else []) ∧
      next.labels = r.labels ∧ next.lines = r.lines := by
  obtain ⟨tkind, text, line⟩ := t
  -- all immediates but labels are laid as the bytes of their value
  have hnumber {v : UInt64} (hu : tkind ≠ .labelUse) (hval : Token.value ⟨tkind, text, line⟩ = .ok v)
      (htoken : r.token ⟨tkind, text, line⟩ = .ok (r.append (littleEndian kind.cost v.toNat))) :
      ∃ next v, r.token ⟨tkind, text, line⟩ = .ok next ∧
        Item.immediate? (fun _ => some 0) ⟨tkind, text, line⟩ = some v ∧
        next.image.toList = r.image.toList ++ littleEndian kind.cost v.toNat ∧
        next.relocations.toList = r.relocations.toList ++
          (if tkind = .labelUse then [⟨r.image.size, text, line⟩] else []) ∧
        next.labels = r.labels ∧ next.lines = r.lines := by
    refine ⟨_, v, htoken, ?_, ?_, ?_, rfl, rfl⟩
    · simp [Item.immediate?, hu, hval, Except.toOption]
    · simp [append]
    · simp [append, hu]
  cases tkind with
  | int32 =>
    obtain ⟨v, hval⟩ := hv
    obtain rfl : Operand.imm32 = kind := Option.some.inj hk
    exact hnumber (by simp) hval (by simp [token, hval, Operand.cost])
  | char =>
    obtain ⟨v, hval⟩ := hv
    obtain rfl : Operand.imm32 = kind := Option.some.inj hk
    exact hnumber (by simp) hval (by simp [token, hval, Operand.cost])
  | int64 =>
    obtain ⟨v, hval⟩ := hv
    obtain rfl : Operand.imm64 = kind := Option.some.inj hk
    exact hnumber (by simp) hval (by simp [token, hval, Operand.cost])
  | labelUse =>
    obtain rfl : Operand.imm32 = kind := Option.some.inj hk
    refine ⟨r.hole text line, 0, rfl, rfl, ?_, ?_, rfl, rfl⟩
    · simp [hole, append, littleEndian, Operand.cost]
    · simp [hole]
  | register => exact absurd (Option.some.inj hk).symm hr
  | _ => cases hk

/-- The registers of an instruction share one byte behind the opcode; without registers it is zero. -/
theorem tokens_start (r : Relocatable) (op : Operation) (line : Int) {registers rest : List Token}
    (hk : registers.map Token.operand? = List.replicate op.registers (some .register))
    (hv : ∀ t ∈ registers, t.HasValue) (hrest : ∀ u ∈ rest.head?, u.kind ≠ .register) :
    ∃ (values : List Register) (next : Relocatable),
      (∀ offset, Item.fields offset registers = some (values, [])) ∧
      r.tokens (⟨.instruction, op.mnemonic, line⟩ :: (registers ++ rest)) = next.tokens rest ∧
      next.image.toList = r.image.toList ++ [op.code, Instruction.descriptor
        ⟨.of op, ((values[0]?.getD 0).val : Nat), ((values[1]?.getD 0).val : Nat), 0⟩] ∧
      next.relocations = r.relocations ∧ next.labels = r.labels ∧
      next.lines.toList = r.lines.toList ++ [⟨r.image.size, line⟩] := by
  have hstart : r.tokens (⟨.instruction, op.mnemonic, line⟩ :: (registers ++ rest)) =
      (r.startInstruction op line).tokens (registers ++ rest) :=
    tokens_of_token (by simp) (by simp [token])
  rw [hstart]
  have hvalue : ∀ t ∈ registers, t.kind = .register ∧ ∃ lo, t.register = .ok lo := by
    intro t ht
    have hreg := kind_of_replicate hk t ht
    refine ⟨hreg, ?_⟩
    have htv := hv t ht
    rwa [Token.HasValue, hreg] at htv
  have hlength : registers.length = op.registers := by
    rw [← List.length_map Token.operand?, hk, List.length_replicate]
  -- no operation has more than two registers
  rcases registers with _ | ⟨t, _ | ⟨u, _ | ⟨w, more⟩⟩⟩
  · refine ⟨[], r.startInstruction op line, fun _ => rfl, rfl, ?_, rfl, rfl, ?_⟩
    · simp [startInstruction, append, Instruction.descriptor, ← hlength]
    · simp [startInstruction]
  · obtain ⟨ht, lo, hlo⟩ := hvalue t (by simp)
    refine ⟨[lo], (r.startInstruction op line).append [descriptor lo 0], ?_, ?_, ?_, rfl, rfl, ?_⟩
    · simp [Item.fields, ht, hlo, Except.toOption]
    · exact tokens_register ht hlo hrest
    · simp [startInstruction, append, Instruction.descriptor, descriptor, ← hlength]
    · simp [startInstruction, append]
  · obtain ⟨ht, lo, hlo⟩ := hvalue t (by simp)
    obtain ⟨hu, hi, hhi⟩ := hvalue u (by simp)
    refine ⟨[lo, hi], (r.startInstruction op line).append [descriptor lo hi], ?_, ?_, ?_, rfl, rfl, ?_⟩
    · simp [Item.fields, ht, hlo, hu, hhi, Except.toOption]
    · exact tokens_registers ht hlo hu hhi
    · simp [startInstruction, append, Instruction.descriptor, descriptor, ← hlength]
    · simp [startInstruction, append]
  · have hle := op.operands_eq.2
    simp only [List.length_cons] at hlength
    omega

end Relocatable

/-- The operands of an instruction are its registers and then at most one immediate. -/
theorem Item.Complete.split {op : Operation} {operands : List Token} {line : Int}
    (hc : (Item.instruction op operands line).Complete) :
    ∃ registers immediates, operands = registers ++ immediates ∧
      registers.map Token.operand? = List.replicate op.registers (some .register) ∧
      registers.filter (·.kind = .labelUse) = [] ∧
      (op.immediate? = none ∧ immediates = [] ∨
        ∃ kind t, op.immediate? = some kind ∧ kind ≠ .register ∧ immediates = [t] ∧
          t.operand? = some kind ∧ t.kind ≠ .register ∧ t.HasValue) ∧
      ∀ t ∈ registers, t.HasValue := by
  obtain ⟨hvalues, hkinds⟩ := hc
  have hvalue : ∀ t ∈ operands, t.HasValue := fun t ht => (hvalues t (List.mem_cons_of_mem _ ht)).1
  simp only [op.operands_eq.1, List.map_append, List.map_replicate] at hkinds
  obtain ⟨registers, immediates, rfl, hregisters, himmediates⟩ := List.map_eq_append_iff.mp hkinds
  refine ⟨registers, immediates, rfl, hregisters, ?_, ?_, fun t ht => hvalue t (by simp [ht])⟩
  · rw [List.filter_eq_nil_iff]
    intro t ht
    simp [kind_of_replicate hregisters t ht]
  · cases himm : op.immediate? with
    | none =>
      rw [himm] at himmediates
      exact Or.inl ⟨rfl, List.map_eq_nil_iff.mp himmediates⟩
    | some kind =>
      rw [himm] at himmediates
      obtain ⟨t, rfl, ht⟩ := List.map_eq_singleton_iff.mp himmediates
      have hkind := Operation.immediate?_ne_register himm
      exact Or.inr ⟨kind, t, rfl, hkind, rfl, ht, Token.kind_ne_register ht hkind, hvalue t (by simp)⟩

namespace Relocatable

/-- Lowering the tokens of an instruction lays its bytes with zero for a label. -/
theorem tokens_instruction (r : Relocatable) {op : Operation} {operands rest : List Token} {line : Int}
    (hc : (Item.instruction op operands line).Complete)
    (hrest : ∀ u ∈ rest.head?, u.kind ≠ .register) :
    ∃ (next : Relocatable) (bs : Bytes),
      r.tokens ((Item.instruction op operands line).tokens ++ rest) = next.tokens rest ∧
      (Item.instruction op operands line).bytes? (fun _ => some 0) = some bs ∧
      next.image.toList = r.image.toList ++ bs ∧
      next.relocations.toList = r.relocations.toList ++
        (Item.instruction op operands line).uses.map (fun u => ⟨r.image.size + 2, u.1, u.2⟩) ∧
      next.labels = r.labels ∧ next.lines.toList = r.lines.toList ++ [⟨r.image.size, line⟩] := by
  obtain ⟨registers, immediates, rfl, hregisters, huses, himmediates, hvalue⟩ := hc.split
  -- lowering reads registers as long as they come, so what follows must be none
  have hhead : ∀ u ∈ (immediates ++ rest).head?, u.kind ≠ .register := by
    rcases himmediates with ⟨-, rfl⟩ | ⟨kind, t, -, -, rfl, -, htk, -⟩
    · exact hrest
    · intro u hu
      obtain rfl : t = u := by simpa using hu
      exact htk
  obtain ⟨values, mid, hfields, hmid, himage, hreloc, hlabels, hlines⟩ :=
    tokens_start r op line hregisters hvalue hhead
  have hmidsize : mid.image.size = r.image.size + 2 := by
    rw [← Array.length_toList, himage]; simp
  simp only [Item.tokens, List.cons_append, List.append_assoc]
  rw [hmid]
  rcases himmediates with ⟨himm, rfl⟩ | ⟨kind, t, himm, hkind, rfl, ht, htk, htv⟩
  · refine ⟨mid, _, rfl, by simp only [Item.bytes?, Item.instruction?, List.append_nil, hfields]; rfl,
      ?_, ?_, hlabels, hlines⟩
    · rw [himage]
      simp [Instruction.encode, himm, littleEndian, Instruction.descriptor]
    · simp [Item.uses, huses, hreloc]
  · obtain ⟨next, v, htoken, hv, hnimage, hnreloc, hnlabels, hnlines⟩ := mid.token_immediate ht hkind htv
    have hfields' : Item.fields (fun _ => some 0) (registers ++ [t]) = some (values, [v]) := by
      rw [Item.fields_append, hfields]
      simp [Item.fields, htk, hv]
    refine ⟨next, _, tokens_of_token htk htoken,
      by simp only [Item.bytes?, Item.instruction?, hfields']; rfl, ?_, ?_, hnlabels.trans hlabels,
      by rw [hnlines, hlines]⟩
    · rw [hnimage, himage]
      simp [Instruction.encode, himm, Instruction.descriptor]
    · rw [hnreloc, hreloc, hmidsize]
      by_cases hlabel : t.kind = .labelUse <;> simp [Item.uses, huses, hlabel]

/-! ## Lowering items one after the other -/

/-- What lowering has put down for items: their bytes with zero for every label, the holes for the labels
used, the instructions, and the labels defined, no name twice. -/
structure Lays (r : Relocatable) (items : List Item) : Prop where
  image : bytes? (fun _ => some 0) items = some r.image.toList
  relocations : r.relocations.toList = holes 0 items
  lines : r.lines.toList = entries 0 items
  labels : ∀ name o, r.labels[name]? = some o ↔ ∃ n, (name, n) ∈ definitions 0 items ∧ o = n.toUInt32
  distinct : ((definitions 0 items).map (·.1)).Nodup

theorem Lays.size {r : Relocatable} {items : List Item} (h : r.Lays items) :
    r.image.size = extent items := by
  rw [← Array.length_toList]
  exact length_of_bytes? h.image

theorem Lays.mem_labels {r : Relocatable} {items : List Item} (h : r.Lays items) (name : Bytes) :
    name ∈ r.labels ↔ name ∈ (definitions 0 items).map (·.1) := by
  rw [← Std.TreeMap.isSome_getElem?_iff_mem, Option.isSome_iff_exists]
  constructor
  · rintro ⟨o, ho⟩
    obtain ⟨n, hn, -⟩ := (h.labels name o).mp ho
    exact List.mem_map.mpr ⟨(name, n), hn, rfl⟩
  · intro hn
    obtain ⟨⟨name', n⟩, hmem, rfl⟩ := List.mem_map.mp hn
    exact ⟨n.toUInt32, (h.labels name' _).mpr ⟨n, hmem, rfl⟩⟩

theorem lays_empty : Lays {} [] where
  image := rfl
  relocations := rfl
  lines := rfl
  labels := by simp [definitions]
  distinct := by simp [definitions]

/-- An item that defines no label is laid behind the others. -/
theorem Lays.add {r next : Relocatable} {items : List Item} {i : Item} {bs : Bytes} (h : r.Lays items)
    (hbytes : i.bytes? (fun _ => some 0) = some bs) (himage : next.image.toList = r.image.toList ++ bs)
    (hreloc : next.relocations.toList = r.relocations.toList ++ holes r.image.size [i])
    (hlines : next.lines.toList = r.lines.toList ++ entries r.image.size [i])
    (hlabels : next.labels = r.labels) (hnone : ∀ start, definitions start [i] = []) :
    next.Lays (items ++ [i]) where
  image := by rw [bytes?_append, h.image]; simp [bytes?, hbytes, himage]
  relocations := by rw [hreloc, h.relocations, holes_append, h.size]; simp
  lines := by rw [hlines, h.lines, entries_append, h.size]; simp
  labels := by rw [definitions_append, hnone, List.append_nil, hlabels]; exact h.labels
  distinct := by rw [definitions_append, hnone, List.append_nil]; exact h.distinct

/-- A label with a new name is defined at the end of the items so far. -/
theorem Lays.define {r : Relocatable} {items : List Item} {name : Bytes} (line : Int) (h : r.Lays items)
    (hnew : name ∉ (definitions 0 items).map (·.1)) :
    (r.define name).Lays (items ++ [Item.label name line]) := by
  -- a label takes no bytes, so only the definitions grow
  have hdefs : definitions 0 (items ++ [Item.label name line]) = definitions 0 items ++ [(name, r.image.size)] := by
    rw [definitions_append, h.size]; simp [definitions]
  refine ⟨?_, ?_, ?_, ?_, ?_⟩
  · rw [bytes?_append, h.image]; simp [bytes?, Item.bytes?, Relocatable.define]
  · rw [holes_append, ← h.relocations]; simp [holes, Item.uses, Relocatable.define]
  · rw [entries_append, ← h.lines]; simp [entries, Relocatable.define]
  · intro name' o
    simp only [hdefs, Relocatable.define, Std.TreeMap.getElem?_insert, List.mem_append,
      List.mem_singleton, Prod.mk.injEq]
    by_cases heq : name = name'
    · subst heq
      simp only [Std.ReflCmp.compare_self, if_true, Option.some.injEq, true_and]
      constructor
      · intro ho
        exact ⟨r.image.size, Or.inr rfl, ho.symm⟩
      · rintro ⟨n, hn | rfl, rfl⟩
        · exact absurd (List.mem_map.mpr ⟨(name, n), hn, rfl⟩) hnew
        · rfl
    · have hcmp : ¬compare name name' = .eq := fun hc => heq (Std.LawfulEqCmp.eq_of_compare hc)
      have hne : ¬name' = name := fun he => heq he.symm
      rw [if_neg hcmp, h.labels]
      simp [hne]
  · rw [hdefs, List.map_append, List.nodup_append]
    refine ⟨h.distinct, by simp, ?_⟩
    intro a ha b hb hab
    obtain rfl : b = name := List.mem_singleton.mp hb
    rw [hab] at ha
    exact hnew ha

end Relocatable

/-- The first label among items that is defined again, with its line; `seen` are the names before. -/
def duplicate? : List Bytes → List Item → Option (Bytes × Int)
  | _, [] => none
  | seen, .label name line :: rest =>
      if seen.contains name then some (name, line) else duplicate? (name :: seen) rest
  | seen, _ :: rest => duplicate? seen rest

/-- Every item starts with a token that is no register. -/
theorem head_tokens_ne_register (items : List Item) :
    ∀ u ∈ (items.flatMap Item.tokens).head?, u.kind ≠ .register := by
  cases items with
  | nil => simp
  | cons i rest => cases i <;> simp [Item.tokens]

namespace Relocatable

/-- Lowering more items stops at the first label that is defined again, and lays them all if there is
none. -/
theorem tokens_items {r : Relocatable} {done items : List Item} {seen : List Bytes} (h : r.Lays done)
    (hseen : ∀ name, name ∈ seen ↔ name ∈ (definitions 0 done).map (·.1))
    (hc : ∀ i ∈ items, i.Complete) :
    match duplicate? seen items with
    | some (name, line) =>
        r.tokens (items.flatMap Item.tokens) = .error (.label line (.duplicate name))
    | none =>
        ∃ next : Relocatable, r.tokens (items.flatMap Item.tokens) = .ok next ∧ next.Lays (done ++ items) := by
  induction items generalizing r done seen with
  | nil => exact ⟨r, by simp [tokens], by simpa using h⟩
  | cons i rest ih =>
    have hrest := head_tokens_ne_register rest
    have hcomplete := hc i List.mem_cons_self
    have hcrest : ∀ j ∈ rest, j.Complete := fun j hj => hc j (List.mem_cons_of_mem i hj)
    -- an item that is no label defines nothing
    have hkeep (hi : ∀ start, definitions start [i] = []) (name : Bytes) :
        name ∈ seen ↔ name ∈ (definitions 0 (done ++ [i])).map (·.1) := by
      rw [definitions_append, hi, List.append_nil]
      exact hseen name
    rw [List.flatMap_cons, show done ++ i :: rest = (done ++ [i]) ++ rest by simp]
    cases i with
    | label name line =>
      by_cases hdup : name ∈ seen
      · simp only [duplicate?, if_pos (List.contains_iff_mem.mpr hdup)]
        have hmem : name ∈ r.labels := (h.mem_labels name).mpr ((hseen name).mp hdup)
        simp [Item.tokens, tokens, token, hmem]
      · have hnew : name ∉ (definitions 0 done).map (·.1) := fun hn => hdup ((hseen name).mpr hn)
        have hmem : name ∉ r.labels := fun hn => hnew ((h.mem_labels name).mp hn)
        have hstep : r.tokens ((Item.label name line).tokens ++ rest.flatMap Item.tokens) =
            (r.define name).tokens (rest.flatMap Item.tokens) :=
          tokens_of_token (by simp) (by simp [token, hmem])
        simp only [duplicate?, if_neg (mt List.contains_iff_mem.mp hdup)]
        rw [hstep]
        refine ih (h.define line hnew) ?_ hcrest
        intro name'
        rw [definitions_append]
        simp [definitions, hseen, or_comm]
    | string raw line =>
      have hraw : (Escape.decode? raw).isSome := (hcomplete.1 ⟨.string, raw, line⟩ (by simp [Item.tokens])).1
      obtain ⟨data, hdata⟩ := Option.isSome_iff_exists.mp hraw
      have hstep : r.tokens ((Item.string raw line).tokens ++ rest.flatMap Item.tokens) =
          (r.append (data ++ [0])).tokens (rest.flatMap Item.tokens) :=
        tokens_of_token (by simp) (by simp [token, hdata])
      have hlays : (r.append (data ++ [0])).Lays (done ++ [Item.string raw line]) :=
        h.add (show Item.bytes? _ _ = some (data ++ [0]) by simp [Item.bytes?, hdata]) (by simp [append])
          (by simp [holes, Item.uses, append]) (by simp [entries, append]) rfl
          (by simp [definitions])
      simp only [duplicate?]
      rw [hstep]
      exact ih hlays (hkeep fun _ => rfl) hcrest
    | instruction op operands line =>
      obtain ⟨next, bs, hstep, hbytes, himage, hreloc, hlabels, hlines⟩ :=
        r.tokens_instruction hcomplete hrest
      have hlays : next.Lays (done ++ [Item.instruction op operands line]) :=
        h.add hbytes himage (by rw [hreloc]; simp [holes]) (by rw [hlines]; simp [entries]) hlabels
          (by simp [definitions])
      simp only [duplicate?]
      rw [hstep]
      exact ih hlays (hkeep fun _ => rfl) hcrest

end Relocatable

/-- Lowering complete items stops at the first label that is defined again, and lays them all if there is
none. -/
theorem lower_items {items : List Item} (hc : ∀ i ∈ items, i.Complete) :
    match duplicate? [] items with
    | some (name, line) =>
        lower (items.flatMap Item.tokens) = .error (.label line (.duplicate name))
    | none => ∃ r, lower (items.flatMap Item.tokens) = .ok r ∧ r.Lays items :=
  Relocatable.tokens_items Relocatable.lays_empty (by simp [definitions]) hc

end Assembly

end WordMachine
