import WordMachine.Text.Numeral

/-!
# `Opcode` — the instruction set

Forty-nine operations, each with a code byte, a mnemonic and the kinds of its operands.

Contents:
* `Operand`: the kinds of operand slots, their cost in bytes and the budget of some slots;
* `Operation`: the operations; `code`, `mnemonic`, `operands` and the inverse look-ups;
* `Opcode`: any byte in the place of an operation, with the shape read off its operation.
-/

namespace WordMachine

/-! ## Operand slots -/

/-- The kind of an operand slot of an instruction. -/
inductive Operand where
  | register
  | imm32
  | imm64
  deriving DecidableEq, Repr

namespace Operand

/-- The name of a slot kind. -/
def name : Operand → Bytes
  | .register => bytes "register"
  | .imm32 => bytes "imm32"
  | .imm64 => bytes "imm64"

/-- The budget a slot takes: an immediate takes its width in bytes. -/
def cost : Operand → Nat
  | .register => 1
  | .imm32 => 4
  | .imm64 => 8

/-- The sum of the costs of some slots. -/
def budget (slots : List Operand) : Nat := slots.foldr (fun operand n => operand.cost + n) 0

/-- The slot kind with a number. -/
def ofNumber? : Int → Option Operand
  | 0 => some .register
  | 1 => some .imm32
  | 2 => some .imm64
  | _ => none

/-- The name of a slot kind number, also of an unassigned one. -/
def describe (n : Int) : Bytes :=
  match ofNumber? n with
  | some kind => kind.name
  | none => bytes "Operand(" ++ Numeral.signed n ++ bytes ")"

end Operand

/-! ## Operations -/

/-- The operations of the machine. -/
inductive Operation where
  | mov | ldr | indl | cpy | str | inds | push | pop | iadd | isub | imul | idiv | dadd | dsub
  | dmul | ddiv | icst | dcst | shl | shr | and | or | neg | icmp | dcmp | jmp | beq | bne
  | bgt | blt | jsr | ret | sys | halt | adr | lei | lst | ltt | lsf | sei | sst | stt | ssf
  | bufc | bseq | lseq | pow | root | call
  deriving DecidableEq, Repr

namespace Operation

/-- All operations, in ascending order of their codes. -/
def all : List Operation :=
  [.mov, .ldr, .indl, .cpy, .str, .inds, .push, .pop, .iadd, .isub, .imul, .idiv, .dadd, .dsub,
   .dmul, .ddiv, .icst, .dcst, .shl, .shr, .and, .or, .neg, .icmp, .dcmp, .jmp, .beq, .bne,
   .bgt, .blt, .jsr, .ret, .sys, .halt, .adr, .lei, .lst, .ltt, .lsf, .sei, .sst, .stt, .ssf,
   .bufc, .bseq, .lseq, .pow, .root, .call]

/-- The code byte of an operation. -/
def code : Operation → UInt8
  | .mov => 0x00
  | .ldr => 0x01
  | .indl => 0x02
  | .cpy => 0x03
  | .str => 0x04
  | .inds => 0x05
  | .push => 0x06
  | .pop => 0x07
  | .iadd => 0x08
  | .isub => 0x09
  | .imul => 0x0a
  | .idiv => 0x0b
  | .dadd => 0x0c
  | .dsub => 0x0d
  | .dmul => 0x0e
  | .ddiv => 0x0f
  | .icst => 0x10
  | .dcst => 0x11
  | .shl => 0x12
  | .shr => 0x13
  | .and => 0x14
  | .or => 0x15
  | .neg => 0x16
  | .icmp => 0x17
  | .dcmp => 0x18
  | .jmp => 0x19
  | .beq => 0x1a
  | .bne => 0x1b
  | .bgt => 0x1c
  | .blt => 0x1d
  | .jsr => 0x1e
  | .ret => 0x1f
  | .sys => 0x20
  | .halt => 0x22
  | .adr => 0x23
  | .lei => 0x24
  | .lst => 0x25
  | .ltt => 0x26
  | .lsf => 0x27
  | .sei => 0x28
  | .sst => 0x29
  | .stt => 0x2a
  | .ssf => 0x2b
  | .bufc => 0x2c
  | .bseq => 0x2d
  | .lseq => 0x2e
  | .pow => 0x2f
  | .root => 0x30
  | .call => 0x31

/-- The operation with a code byte. -/
def ofCode? : UInt8 → Option Operation
  | 0x00 => some .mov
  | 0x01 => some .ldr
  | 0x02 => some .indl
  | 0x03 => some .cpy
  | 0x04 => some .str
  | 0x05 => some .inds
  | 0x06 => some .push
  | 0x07 => some .pop
  | 0x08 => some .iadd
  | 0x09 => some .isub
  | 0x0a => some .imul
  | 0x0b => some .idiv
  | 0x0c => some .dadd
  | 0x0d => some .dsub
  | 0x0e => some .dmul
  | 0x0f => some .ddiv
  | 0x10 => some .icst
  | 0x11 => some .dcst
  | 0x12 => some .shl
  | 0x13 => some .shr
  | 0x14 => some .and
  | 0x15 => some .or
  | 0x16 => some .neg
  | 0x17 => some .icmp
  | 0x18 => some .dcmp
  | 0x19 => some .jmp
  | 0x1a => some .beq
  | 0x1b => some .bne
  | 0x1c => some .bgt
  | 0x1d => some .blt
  | 0x1e => some .jsr
  | 0x1f => some .ret
  | 0x20 => some .sys
  | 0x22 => some .halt
  | 0x23 => some .adr
  | 0x24 => some .lei
  | 0x25 => some .lst
  | 0x26 => some .ltt
  | 0x27 => some .lsf
  | 0x28 => some .sei
  | 0x29 => some .sst
  | 0x2a => some .stt
  | 0x2b => some .ssf
  | 0x2c => some .bufc
  | 0x2d => some .bseq
  | 0x2e => some .lseq
  | 0x2f => some .pow
  | 0x30 => some .root
  | 0x31 => some .call
  | _ => none

/-- The assembly word for an operation. -/
def mnemonic : Operation → Bytes
  | .mov => bytes "mov"
  | .ldr => bytes "ldr"
  | .indl => bytes "indl"
  | .cpy => bytes "cpy"
  | .str => bytes "str"
  | .inds => bytes "inds"
  | .push => bytes "push"
  | .pop => bytes "pop"
  | .iadd => bytes "iadd"
  | .isub => bytes "isub"
  | .imul => bytes "imul"
  | .idiv => bytes "idiv"
  | .dadd => bytes "dadd"
  | .dsub => bytes "dsub"
  | .dmul => bytes "dmul"
  | .ddiv => bytes "ddiv"
  | .icst => bytes "icst"
  | .dcst => bytes "dcst"
  | .shl => bytes "shl"
  | .shr => bytes "shr"
  | .and => bytes "and"
  | .or => bytes "or"
  | .neg => bytes "neg"
  | .icmp => bytes "icmp"
  | .dcmp => bytes "dcmp"
  | .jmp => bytes "jmp"
  | .beq => bytes "beq"
  | .bne => bytes "bne"
  | .bgt => bytes "bgt"
  | .blt => bytes "blt"
  | .jsr => bytes "jsr"
  | .ret => bytes "ret"
  | .sys => bytes "sys"
  | .halt => bytes "halt"
  | .adr => bytes "adr"
  | .lei => bytes "lei"
  | .lst => bytes "lst"
  | .ltt => bytes "ltt"
  | .lsf => bytes "lsf"
  | .sei => bytes "sei"
  | .sst => bytes "sst"
  | .stt => bytes "stt"
  | .ssf => bytes "ssf"
  | .bufc => bytes "bufc"
  | .bseq => bytes "bseq"
  | .lseq => bytes "lseq"
  | .pow => bytes "pow"
  | .root => bytes "root"
  | .call => bytes "call"

/-- The operation with a mnemonic. -/
def ofMnemonic? (word : Bytes) : Option Operation := all.find? fun op => op.mnemonic == word

/-- The operand slots of an operation, in assembly order. -/
def operands : Operation → List Operand
  | .mov => [.register, .imm64]
  | .ldr | .str | .adr => [.register, .imm32]
  | .indl | .inds => [.register, .register, .imm32]
  | .push | .pop | .icst | .dcst | .neg | .call => [.register]
  | .jmp | .beq | .bne | .bgt | .blt | .jsr | .sys => [.imm32]
  | .ret | .halt => []
  | _ => [.register, .register]

/-- The number of register operands. -/
def registers (op : Operation) : Nat := op.operands.countP (· == .register)

/-- The immediate operand slot, if there is one. -/
def immediate? (op : Operation) : Option Operand := op.operands.find? (· != .register)

/-- The operation assembled when the mnemonic is given operands of another kind. -/
def alternate? : Operation → Option Operation
  | .sys => some .call
  | _ => none

end Operation

/-! ## Opcode bytes -/

/-- A byte in the place of an operation; it need not be assigned to one. -/
structure Opcode where
  byte : UInt8
  deriving DecidableEq, Repr

namespace Opcode

/-- The opcode of an operation. -/
def of (op : Operation) : Opcode := ⟨op.code⟩

/-- The operation assigned to an opcode. -/
def operation? (o : Opcode) : Option Operation := Operation.ofCode? o.byte

/-- The operand slots; an unassigned opcode has none. -/
def operands (o : Opcode) : List Operand := (o.operation?.map Operation.operands).getD []

/-- The number of register operands. -/
def registers (o : Opcode) : Nat := o.operands.countP (· == .register)

/-- The immediate operand slot, if there is one. -/
def immediate? (o : Opcode) : Option Operand := o.operands.find? (· != .register)

/-- The sum of the costs of the operand slots. -/
def budget (o : Opcode) : Nat := Operand.budget o.operands

/-- The encoded size in bytes: the opcode, the register descriptor and the immediate. -/
def width (o : Opcode) : Nat := 2 + (o.immediate?.map Operand.cost).getD 0

/-- The mnemonic, or a description of an unassigned byte. -/
def name (o : Opcode) : Bytes :=
  match o.operation? with
  | some op => op.mnemonic
  | none => bytes "Opcode(0x" ++ Numeral.padded 2 (Numeral.hex o.byte.toNat) ++ bytes ")"

end Opcode

end WordMachine
