import WordMachine.Machine.Syscall

/-!
# `Machine.Step` — executing instructions

One tick fetches and executes one instruction. A fault leaves the program counter where it was; what
the instruction did before the fault stays done.

Contents:
* `Machine.execute`: one instruction at the program counter;
* `Machine.tick`, `Tick`: one step with its result;
* `Machine.run`, `RunEnd`: steps until the machine halts, is trapped or the fuel is used up.
-/

namespace WordMachine

namespace Machine

/-! ## One instruction -/

/-- Go on at a place. -/
def goOn (m : Machine) (next : Int) : Machine × Option Fault := ({ m with pc := next }, none)

/-- Go on at a place unless there was a fault. -/
def andThen (result : Machine × Option Fault) (next : Int) : Machine × Option Fault :=
  match result with
  | (m, none) => m.goOn next
  | (m, some fault) => (m, some fault)

/-- Set a register to a loaded value; a load that failed sets it to zero. -/
def loadInto (m : Machine) (r : Register) (address : UInt64) (size : Int) : Machine × Option Fault :=
  match m.memory.load address size with
  | .ok value => (m.setReg r value, none)
  | .error fault => (m.setReg r 0, some fault)

/-- Store a value in memory. -/
def storeAt (m : Machine) (address : UInt64) (size : Int) (value : UInt64) : Machine × Option Fault :=
  match m.memory.store address size value with
  | .ok memory => ({ m with memory := memory }, none)
  | .error fault => (m, some fault)

/-- Shift left; sixty-four places and more leave nothing. -/
def shiftLeft (value count : UInt64) : UInt64 := if count < 64 then value <<< count else 0

/-- Shift right; sixty-four places and more leave nothing. -/
def shiftRight (value count : UInt64) : UInt64 := if count < 64 then value >>> count else 0

/-- Compare the strings at two addresses. -/
def compareStrings (m : Machine) (string : UInt64 → Except Fault Bytes) (a b : UInt64) :
    Machine × Option Fault :=
  match string a with
  | .error fault => (m, some fault)
  | .ok s =>
      match string b with
      | .error fault => (m, some fault)
      | .ok t =>
          ({ m with flags := Flag.compared m.flags (if s = t then some .eq else none) }, none)

/-- Copy an image string with its zero byte to memory. -/
def copyString (m : Machine) (source target : UInt64) : Machine × Option Fault :=
  match m.image.string source with
  | .error fault => (m, some fault)
  | .ok text => m.writeMemory target (text ++ [0])

/-- Push the place after a call, and go on at the callee. -/
def jumpSubroutine (m : Machine) (next target : Int) : Machine × Option Fault :=
  match m.returns.push (UInt32.ofInt next) with
  | .error fault => (m, some fault)
  | .ok returns => { m with returns := returns }.goOn target

/-- Go on at the place on top of the return stack. -/
def returnSubroutine (m : Machine) : Machine × Option Fault :=
  match m.returns.pop with
  | .error fault => (m, some fault)
  | .ok (place, returns) => { m with returns := returns }.goOn place.toNat

/-- Perform an operation with the given operands; `next` is the place after the instruction. -/
def perform (m : Machine) (op : Operation) (dst src : Register) (imm : UInt64) (next : Int) :
    Machine × Option Fault :=
  let a := m.reg dst
  let b := m.reg src
  let target := imm.toInt64.toInt
  let set (value : UInt64) : Machine × Option Fault := (m.setReg dst value).goOn next
  let branch (taken : Bool) : Machine × Option Fault := m.goOn (if taken then target else next)
  match op with
  | .mov | .adr => set imm
  | .ldr => andThen (m.loadInto dst imm 1) next
  | .indl => andThen (m.loadInto dst (imm + b) 1) next
  | .cpy => set b
  | .str => andThen (m.storeAt imm 1 a) next
  | .inds => andThen (m.storeAt (imm + b) 1 a) next
  | .push =>
      match m.operands.push a with
      | .error fault => (m, some fault)
      | .ok operands => { m with operands := operands }.goOn next
  | .pop =>
      match m.operands.pop with
      | .error fault => (m, some fault)
      | .ok (value, operands) => ({ m with operands := operands }.setReg dst value).goOn next
  | .iadd => set (a + b)
  | .isub => set (a - b)
  | .imul => set (a * b)
  | .idiv => if b = 0 then (m, some .divideByZero) else set (a / b)
  | .dadd => set (Double.lift (· + ·) a b)
  | .dsub => set (Double.lift (· - ·) a b)
  | .dmul => set (Double.lift (· * ·) a b)
  | .ddiv => set (Double.lift (· / ·) a b)
  | .icst => set (Double.ofSigned a)
  | .dcst => set (Double.toSigned a)
  | .shl => set (shiftLeft a b)
  | .shr => set (shiftRight a b)
  | .and => set (a &&& b)
  | .or => set (a ||| b)
  | .neg => set (~~~a)
  | .icmp => { m with flags := Flag.compared m.flags (some (compare a b)) }.goOn next
  | .dcmp => { m with flags := Flag.compared m.flags (Double.compare? a b) }.goOn next
  | .jmp => branch true
  | .beq => branch (Flag.isSet m.flags Flag.equal)
  | .bne => branch (!Flag.isSet m.flags Flag.equal)
  | .bgt => branch (Flag.isSet m.flags Flag.greater)
  | .blt => branch (Flag.isSet m.flags Flag.less)
  | .jsr => m.jumpSubroutine next target
  | .ret => m.returnSubroutine
  | .sys => andThen (m.syscall imm) next
  | .call => andThen (m.syscall a) next
  | .halt => { m with flags := m.flags ||| Flag.halt }.goOn next
  | .lei => andThen (m.loadInto dst b 1) next
  | .lst => andThen (m.loadInto dst b 2) next
  | .ltt => andThen (m.loadInto dst b 4) next
  | .lsf => andThen (m.loadInto dst b 8) next
  | .sei => andThen (m.storeAt b 1 a) next
  | .sst => andThen (m.storeAt b 2 a) next
  | .stt => andThen (m.storeAt b 4 a) next
  | .ssf => andThen (m.storeAt b 8 a) next
  | .bufc => andThen (m.copyString a b) next
  | .bseq => andThen (m.compareStrings m.memory.string a b) next
  | .lseq => andThen (m.compareStrings m.image.string a b) next
  | .pow => set (Double.power a b)
  | .root => set (Double.root a b)

/-- The place after an instruction of a width; places are signed words and wrap around. -/
def placeAfter (place : Int) (width : Nat) : Int := (Int64.ofInt (place + width)).toInt

/-- Execute an instruction at the program counter. -/
def execute (m : Machine) (i : Instruction) : Machine × Option Fault :=
  match i.opcode.operation? with
  | none => (m, some (.unknownOpcode i.opcode.byte))
  | some op =>
      m.perform op (Register.ofInt i.dst) (Register.ofInt i.src) i.imm (placeAfter m.pc i.opcode.width)

/-! ## Ticks and runs -/

end Machine

/-- The result of one tick. -/
inductive Tick where
  | ran
  | halted
  | trapped (t : Trap)
  deriving DecidableEq, Repr

/-- How a run ended. -/
inductive RunEnd where
  | halted
  | trapped (t : Trap)
  | outOfFuel
  deriving DecidableEq, Repr

namespace Machine

/-- The opcode at the program counter; outside the image the zero opcode. -/
def opcodeAtPc (m : Machine) : Opcode := ⟨m.image[m.pc.toNat]?.getD 0⟩

/-- Fetch and execute one instruction, and count it if it succeeds. -/
def tick (m : Machine) : Machine × Tick :=
  if m.isHalted then (m, .halted)
  else
    match m.fetch with
    | .error fault => (m, .trapped ⟨m.pc, m.opcodeAtPc, fault⟩)
    | .ok i =>
        match m.execute i with
        | (m', none) => ({ m' with ticks := m'.ticks + 1 }, .ran)
        | (m', some fault) => (m', .trapped ⟨m.pc, i.opcode, fault⟩)

/-- Tick until the machine halts or is trapped, at most `fuel` times. -/
def run : Nat → Machine → Machine × RunEnd
  | 0, m => (m, .outOfFuel)
  | fuel + 1, m =>
      match m.tick with
      | (m, .ran) => run fuel m
      | (m, .halted) => (m, .halted)
      | (m, .trapped t) => (m, .trapped t)

end Machine

end WordMachine
