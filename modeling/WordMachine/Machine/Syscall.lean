import WordMachine.Machine.State
import WordMachine.Text.Decimal

/-!
# `Machine.Syscall` — host calls

A host call pops its arguments from the operand stack, the last one first. Values popped before a
failure stay popped.

Contents: `Syscall`, `Syscall.describe`, `Machine.print`, `Machine.withFile`, `Machine.syscall`.
-/

namespace WordMachine

/-- The host calls. -/
inductive Syscall where
  | printInt | printStr | printBin | printHex | printBuf | readLine | printFloat | printSigned
  | fileRead | fileWrite
  deriving DecidableEq, Repr

namespace Syscall

/-- All host calls, in the order of their numbers. -/
def all : List Syscall :=
  [.printInt, .printStr, .printBin, .printHex, .printBuf, .readLine, .printFloat, .printSigned,
   .fileRead, .fileWrite]

/-- The host call with a number. -/
def ofNumber? (n : UInt64) : Option Syscall := all[n.toNat]?

/-- The number of a host call. -/
def number : Syscall → Nat
  | .printInt => 0
  | .printStr => 1
  | .printBin => 2
  | .printHex => 3
  | .printBuf => 4
  | .readLine => 5
  | .printFloat => 6
  | .printSigned => 7
  | .fileRead => 8
  | .fileWrite => 9

/-- The name of a host call. -/
def name : Syscall → Bytes
  | .printInt => bytes "SYS_PRINT_INT"
  | .printStr => bytes "SYS_PRINT_STR"
  | .printBin => bytes "SYS_PRINT_BIN"
  | .printHex => bytes "SYS_PRINT_HEX"
  | .printBuf => bytes "SYS_PRINT_BUF"
  | .readLine => bytes "SYS_READ_LINE"
  | .printFloat => bytes "SYS_PRINT_FLOAT"
  | .printSigned => bytes "SYS_PRINT_SIGNED"
  | .fileRead => bytes "SYS_FILE_READ"
  | .fileWrite => bytes "SYS_FILE_WRITE"

/-- The name of a host call number, also of an unassigned one. -/
def describe (n : UInt64) : Bytes :=
  match ofNumber? n with
  | some call => call.name
  | none => bytes "Syscall(" ++ Numeral.decimal n.toNat ++ bytes ")"

end Syscall

namespace Machine

/-- Write a text to the console. -/
def print (m : Machine) (text : Bytes) : Machine × Option Fault :=
  match m.console.write text with
  | (console, _, none) => ({ m with console := console }, none)
  | (console, _, some failure) => ({ m with console := console }, some (.host failure))

/-- Pop a value and go on with it. -/
def popping (m : Machine) (k : Machine → UInt64 → Machine × Option Fault) : Machine × Option Fault :=
  match m.operands.pop with
  | .error fault => (m, some fault)
  | .ok (value, rest) => k { m with operands := rest } value

/-- Put bytes into memory. -/
def writeMemory (m : Machine) (address : UInt64) (data : Bytes) : Machine × Option Fault :=
  match m.memory.write address data with
  | .error fault => (m, some fault)
  | .ok memory => ({ m with memory := memory }, none)

/-- The file name at an address: context 0 is the image, context 1 is memory. -/
def fileName (m : Machine) (number context address : UInt64) : Except Fault Bytes :=
  match context with
  | 0 => m.image.string address
  | 1 => m.memory.string address
  | _ => .error (.unknownSyscall number)

/-- Read a file into memory, with a zero byte after it. -/
def fileRead (m : Machine) (name : Bytes) (buffer : UInt64) : Machine × Option Fault :=
  match m.files.read name with
  | .error failure => (m, some (.host failure))
  | .ok data => m.writeMemory buffer (data ++ [0])

/-- Write the string at a memory address to a file. -/
def fileWrite (m : Machine) (name : Bytes) (buffer : UInt64) : Machine × Option Fault :=
  match m.memory.string buffer with
  | .error fault => (m, some fault)
  | .ok data =>
      match m.files.write name data with
      | .error failure => (m, some (.host failure))
      | .ok files => ({ m with files := files }, none)

/-- Pop a value and print it. -/
def printWith (m : Machine) (render : UInt64 → Bytes) : Machine × Option Fault :=
  m.popping fun m value => m.print (render value)

/-- Pop an address and print the string there. -/
def printString (m : Machine) (string : Machine → UInt64 → Except Fault Bytes) :
    Machine × Option Fault :=
  m.popping fun m address =>
    match string m address with
    | .error fault => (m, some fault)
    | .ok text => m.print text

/-- Pop an address and read a line of input to it, with a zero byte after it. -/
def readLine (m : Machine) : Machine × Option Fault :=
  m.popping fun m buffer =>
    match m.console.readLine with
    | (console, _, some failure) => ({ m with console := console }, some (.host failure))
    | (console, line, none) => { m with console := console }.writeMemory buffer (line ++ [0])

/-- Pop a file name, a buffer and the context of the name, and go on with the name and the buffer. -/
def withFile (m : Machine) (number : UInt64)
    (k : Machine → Bytes → UInt64 → Machine × Option Fault) : Machine × Option Fault :=
  m.popping fun m nameAddress => m.popping fun m buffer => m.popping fun m context =>
    match m.fileName number context nameAddress with
    | .error fault => (m, some fault)
    | .ok name => k m name buffer

/-- Perform the host call with a number. -/
def syscall (m : Machine) (number : UInt64) : Machine × Option Fault :=
  match Syscall.ofNumber? number with
  | none => (m, some (.unknownSyscall number))
  | some .printInt => m.printWith fun w => Numeral.decimal w.toNat
  | some .printBin => m.printWith fun w => bytes "0b" ++ Numeral.padded 62 (Numeral.binary w.toNat)
  | some .printHex => m.printWith fun w => bytes "0x" ++ Numeral.padded 16 (Numeral.hex w.toNat)
  | some .printFloat => m.printWith Double.positional
  | some .printSigned => m.printWith fun w => Numeral.signed w.toInt64.toInt
  | some .printStr => m.printString fun m address => m.image.string address
  | some .printBuf => m.printString fun m address => m.memory.string address
  | some .readLine => m.readLine
  | some .fileRead => m.withFile number fileRead
  | some .fileWrite => m.withFile number fileWrite

/-- The names and values a program text may use for this machine. -/
def defines (m : Machine) : List (Bytes × Bytes) :=
  let hex (n : Nat) := bytes "0x" ++ Numeral.hex n
  [(bytes "FLAG_EQUAL", hex Flag.equal.toNat), (bytes "FLAG_LESS", hex Flag.less.toNat),
   (bytes "FLAG_GREATER", hex Flag.greater.toNat), (bytes "FLAG_HALT", hex Flag.halt.toNat),
   (bytes "REGISTER_COUNT", Numeral.decimal 16),
   (bytes "MEMORY_SIZE", bytes "0x" ++ Numeral.hexSigned 0 m.memory.size)]
    ++ Syscall.all.map fun call => (call.name, Numeral.decimal call.number)

end Machine

end WordMachine
