import WordMachine.Fault

/-!
# `Instruction` — decoded instructions and their byte form

An instruction is an opcode byte, a descriptor byte with two register numbers of four bits each, and
an immediate of four or eight bytes, least significant byte first.

Contents:
* `littleEndian`, `ofLittleEndian`;
* `Instruction`, `Instruction.encode`, `Instruction.text`;
* `Image.decode`, `Image.disassemble`, `Image.listing`.
-/

namespace WordMachine

/-! ## Little-endian numbers -/

/-- The low `count` bytes of a number, least significant first. -/
def littleEndian : Nat → Nat → Bytes
  | 0, _ => []
  | count + 1, n => (n % 256).toUInt8 :: littleEndian count (n / 256)

/-- The number with the given bytes, least significant first. -/
def ofLittleEndian : Bytes → Nat
  | [] => 0
  | b :: rest => b.toNat + 256 * ofLittleEndian rest

/-! ## Instructions -/

/-- A program image. -/
abbrev Image := Array UInt8

/-- A register. -/
abbrev Register := Fin 16

/-- The register with a number, by its low four bits. -/
def Register.ofInt (n : Int) : Register := ⟨(n % 16).toNat, by omega⟩

/-- An instruction with its operand fields. Register numbers are kept as given; encoding and execution
use their low four bits. -/
structure Instruction where
  opcode : Opcode
  dst : Int
  src : Int
  imm : UInt64
  deriving DecidableEq, Repr

namespace Instruction

/-- The descriptor byte: the registers the opcode has, `dst` in the low half and `src` in the high
half. -/
def descriptor (i : Instruction) : UInt8 :=
  let lo := (Register.ofInt i.dst).val
  let hi := (Register.ofInt i.src).val
  match i.opcode.registers with
  | 1 => lo.toUInt8
  | 2 => (lo + 16 * hi).toUInt8
  | _ => 0

/-- The byte form. -/
def encode (i : Instruction) : Bytes :=
  i.opcode.byte :: i.descriptor ::
    littleEndian ((i.opcode.immediate?.map Operand.cost).getD 0) i.imm.toNat

/-- The operand texts for the given slots; `dst` fills the first register slot and `src` the second. -/
def operandTexts (i : Instruction) : Int → List Operand → List Bytes
  | _, [] => []
  | reg, .register :: rest => (bytes "r" ++ Numeral.signed reg) :: operandTexts i i.src rest
  | reg, .imm32 :: rest =>
      (bytes "U$0x" ++ Numeral.hex (i.imm.toNat % Nat.pow 2 32)) :: operandTexts i reg rest
  | reg, .imm64 :: rest => (bytes "$0x" ++ Numeral.hex i.imm.toNat) :: operandTexts i reg rest

/-- The assembly text. -/
def text (i : Instruction) : Bytes :=
  match operandTexts i i.dst i.opcode.operands with
  | [] => i.opcode.name
  | args => i.opcode.name ++ Ascii.space :: List.intercalate (bytes ", ") args

end Instruction

/-! ## Images -/

namespace Image

/-- The bytes of a range, as far as the image has them. -/
def slice (image : Image) (start count : Nat) : Bytes := (image.extract start (start + count)).toList

/-- The instruction at a place of the image. -/
def decode (image : Image) (pc : Int) : Except Fault Instruction :=
  if pc < 0 then .error (.access ⟨.image, UInt64.ofInt pc, 1, image.size⟩)
  else
    match image[pc.toNat]? with
    | none => .error (.access ⟨.image, UInt64.ofInt pc, 1, image.size⟩)
    | some byte =>
        let opcode : Opcode := ⟨byte⟩
        if opcode.operation?.isNone then .error (.unknownOpcode byte)
        else if image.size < pc.toNat + opcode.width then
          .error (.truncated pc opcode opcode.width (image.size - pc.toNat))
        else
          let desc := (image[pc.toNat + 1]?.getD 0).toNat
          .ok ⟨opcode, (desc % 16 : Nat), (desc / 16 : Nat),
            (ofLittleEndian (image.slice (pc.toNat + 2) (opcode.width - 2))).toUInt64⟩

/-- The instructions from a place on, until the end or the first fault. The fuel bounds the number of
instructions. -/
def disassembleFrom (image : Image) : Nat → Nat → List (Nat × Instruction) × Option Fault
  | 0, _ => ([], none)
  | fuel + 1, pc =>
      if image.size ≤ pc then ([], none)
      else
        match image.decode pc with
        | .error fault => ([], some fault)
        | .ok i =>
            let (rest, stop) := disassembleFrom image fuel (pc + i.opcode.width)
            ((pc, i) :: rest, stop)

/-- The instructions of an image with their places, up to the first place that does not decode, and
the fault there. -/
def disassemble (image : Image) : List (Nat × Instruction) × Option Fault :=
  image.disassembleFrom image.size 0

/-- An entry of a listing: an instruction, or a byte that is none. -/
inductive Entry where
  | code (pc : Nat) (i : Instruction)
  | data (pc : Nat) (byte : UInt8)
  deriving DecidableEq, Repr

/-- The entries from a place on; a byte that does not start an instruction is an entry of its own. -/
def listingFrom (image : Image) : Nat → Nat → List Entry
  | 0, _ => []
  | fuel + 1, pc =>
      match image[pc]? with
      | none => []
      | some byte =>
          match image.decode pc with
          | .ok i => .code pc i :: listingFrom image fuel (pc + i.opcode.width)
          | .error _ => .data pc byte :: listingFrom image fuel (pc + 1)

/-- The whole image as instructions and single bytes. -/
def listing (image : Image) : List Entry := image.listingFrom image.size 0

end Image

end WordMachine
