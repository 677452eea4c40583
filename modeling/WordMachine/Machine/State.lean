import WordMachine.Machine.Memory
import WordMachine.Machine.Stack
import WordMachine.Machine.Console
import WordMachine.Machine.Files

/-!
# `Machine.State` — the state of the machine

Sixteen word registers, flags, two stacks, byte memory and a read-only image, together with the
console and the files that host calls reach.

Contents: `Flag`, `Machine`, `Machine.load`, `Machine.reset`, `Machine.isHalted`, `Machine.text`.
-/

namespace WordMachine

/-! ## Flags -/

namespace Flag

/-- The last comparison found equality. -/
def equal : UInt8 := 0x04

/-- The last comparison found the first value less. -/
def less : UInt8 := 0x20

/-- The last comparison found the first value greater. -/
def greater : UInt8 := 0x40

/-- The machine has halted. -/
def halt : UInt8 := 0x80

/-- Whether a flag is set. -/
def isSet (flags flag : UInt8) : Bool := flags &&& flag != 0

/-- The flags after a comparison; only the halt flag is kept. Without an ordering no other flag is
set. -/
def compared (flags : UInt8) (ordering : Option Ordering) : UInt8 :=
  (flags &&& halt) |||
    match ordering with
    | some .eq => equal
    | some .gt => greater
    | some .lt => less
    | none => 0

end Flag

/-! ## The machine -/

/-- The state of the machine. -/
structure Machine where
  pc : Int := 0
  flags : UInt8 := 0
  registers : Vector UInt64 16 := Vector.replicate 16 0
  operands : Stack UInt64
  returns : Stack UInt32
  memory : Memory
  image : Image := #[]
  /-- Instructions executed since the last reset. -/
  ticks : Nat := 0
  console : Console
  files : FileSystem

namespace Machine

/-- The default depth of the operand stack. -/
def operandLimit : Nat := Nat.pow 2 20

/-- The default depth of the return stack. -/
def returnLimit : Nat := Nat.pow 2 16

/-- A machine without an image. -/
def create (memorySize : Int) (operandLimit returnLimit : Nat) (console : Console)
    (files : FileSystem) : Machine :=
  { operands := .empty operandLimit, returns := .empty returnLimit, memory := ⟨memorySize, ∅⟩
    console := console, files := files }

/-- Start over: registers, flags, stacks, memory and the tick count are cleared, bytes taken from the
input and not read are dropped. The image stays. -/
def reset (m : Machine) : Machine :=
  { m with
    pc := 0
    flags := 0
    registers := Vector.replicate 16 0
    operands := m.operands.reset
    returns := m.returns.reset
    memory := m.memory.reset
    ticks := 0
    console := m.console.rewind }

/-- Take another image and start over. -/
def load (m : Machine) (image : Image) : Machine := { m with image := image }.reset

/-- The halt flag is set, or the program counter is at or past the end of the image. -/
def isHalted (m : Machine) : Bool := Flag.isSet m.flags Flag.halt || (m.image.size : Int) ≤ m.pc

/-- The instruction at the program counter. -/
def fetch (m : Machine) : Except Fault Instruction := m.image.decode m.pc

/-- The value of a register. -/
def reg (m : Machine) (r : Register) : UInt64 := m.registers[r]

/-- Set a register. -/
def setReg (m : Machine) (r : Register) (value : UInt64) : Machine :=
  { m with registers := m.registers.set r value }

/-! ## Views -/

/-- A word as two halves of eight upper-case hexadecimal digits. -/
def wordText (w : UInt64) : Bytes :=
  let half (n : Nat) := Numeral.upper (Numeral.padded 8 (Numeral.hex n))
  half (w.toNat / Nat.pow 2 32) ++ bytes "_" ++ half (w.toNat % Nat.pow 2 32)

/-- A register name right-aligned in five columns. -/
def registerName (n : Nat) : Bytes :=
  let name := bytes "r" ++ Numeral.decimal n
  List.replicate (5 - name.length) Ascii.space ++ name

/-- The program counter, flags, registers and the top of the operand stack, one to a line. -/
def text (m : Machine) : Bytes :=
  bytes "   pc: " ++ Numeral.hexSigned 8 m.pc ++ bytes "\nflags: "
    ++ Numeral.padded 8 (Numeral.binary m.flags.toNat) ++ bytes "\n"
    ++ (m.registers.toList.zipIdx.flatMap fun (value, n) =>
      registerName n ++ bytes ": " ++ wordText value ++ bytes "\n")
    ++ match m.operands.peek? with
      | some value =>
          bytes "stack: " ++ wordText value ++ bytes " (" ++ Numeral.decimal m.operands.depth
            ++ bytes ")\n"
      | none => bytes "stack: --------_--------\n"

end Machine

end WordMachine
