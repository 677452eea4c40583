import WordMachine.Locale
import WordMachine.Opcode

/-!
# `Fault` — what can go wrong while a program runs

Causes are values; their wording is one function each, given the language of the message.

Contents:
* `PathError`, `HostFailure`: the host refused a file or a device;
* `Access`: an access outside memory or image;
* `Fault`: the cause that stops an instruction;
* `Trap`: a fault with the place where it happened.
-/

namespace WordMachine

/-! ## The host -/

/-- Why a file could not be read or replaced. -/
inductive PathError.Reason where
  /-- The working directory has no such file, or no such directory to put it in. -/
  | noEntry
  /-- A part of the path that should be a directory is a file. -/
  | notDirectory
  /-- The path is a directory; as such it could be opened to be read, but not to be replaced. -/
  | isDirectory (opened : Bool)
  /-- The host says no for a reason of its own. -/
  | refused (reason : Bytes)
  /-- The store of include files has no such name. -/
  | notStored
  deriving DecidableEq, Repr

/-- The wording of a reason. -/
def PathError.Reason.message : PathError.Reason → Bytes
  | .noEntry => bytes "no such file or directory"
  | .notDirectory => bytes "not a directory"
  | .isDirectory _ => bytes "is a directory"
  | .refused reason => reason
  | .notStored => bytes "file does not exist"

/-- A path whose file could not be read or replaced. -/
structure PathError where
  path : Bytes
  reason : PathError.Reason
  deriving DecidableEq, Repr

/-- Whether there is nothing at the path. -/
def PathError.isMissing (e : PathError) : Bool := e.reason == .noEntry || e.reason == .notStored

/-- The wording of a path error. -/
def PathError.message (e : PathError) : Bytes :=
  let step := if e.reason == .isDirectory true then bytes "read " else bytes "open "
  step ++ e.path ++ bytes ": " ++ e.reason.message

/-- Why the host did not do what it was asked for. -/
inductive HostFailure where
  /-- A device refused to deliver or to take bytes. -/
  | device
  /-- There is no more input. -/
  | inputClosed
  /-- Reads of the input bring nothing, again and again. -/
  | noProgress
  /-- The file to read is missing; a directory also tells the path. -/
  | fileMissing (path : Option PathError)
  /-- The file is there but cannot be read, or it cannot be replaced. -/
  | path (e : PathError)
  deriving DecidableEq, Repr

/-- The wording of a host failure. -/
def HostFailure.message : HostFailure → Bytes
  | .device => bytes "device error"
  | .inputClosed => bytes "console input closed"
  | .noProgress => bytes "multiple Read calls return no data or error"
  | .fileMissing none => bytes "file missing"
  | .fileMissing (some e) => bytes "file missing\n" ++ e.message
  | .path e => e.message

/-- The path error within a host failure. -/
def HostFailure.pathError? : HostFailure → Option PathError
  | .fileMissing e => e
  | .path e => some e
  | _ => none

/-! ## Faults -/

/-- The two regions a program reads. -/
inductive Region where
  | image
  | memory
  deriving DecidableEq, Repr

/-- The name of a region. -/
def Region.name : Region → Bytes
  | .image => bytes "image"
  | .memory => bytes "memory"

/-- An access of `size` bytes at `address` that does not fit a region of `limit` bytes. -/
structure Access where
  region : Region
  address : UInt64
  size : Int
  limit : Nat
  deriving DecidableEq, Repr

/-- The wording of a refused access. -/
def Access.message (loc : Locale) (a : Access) : Bytes :=
  a.region.name ++ bytes " access of " ++ loc.integer a.size ++ bytes " bytes at 0x"
    ++ Numeral.hex a.address.toNat ++ bytes " exceeds 0x" ++ Numeral.hex a.limit

/-- The cause that stops an instruction. -/
inductive Fault where
  | access (a : Access)
  | unknownOpcode (byte : UInt8)
  | truncated (pc : Int) (opcode : Opcode) (need left : Nat)
  | unknownSyscall (number : UInt64)
  | stackEmpty
  | stackFull
  | divideByZero
  | host (failure : HostFailure)
  deriving DecidableEq, Repr

namespace Fault

/-- Faults of an access outside a region. -/
def isBounds : Fault → Bool
  | .access _ => true
  | _ => false

/-- Faults of an instruction or host call that has no meaning. -/
def isDecode : Fault → Bool
  | .unknownOpcode _ | .truncated .. | .unknownSyscall _ => true
  | _ => false

/-- The wording of a fault. -/
def message (loc : Locale) : Fault → Bytes
  | .access a => a.message loc
  | .unknownOpcode b => bytes "unrecognized opcode 0x" ++ Numeral.padded 2 (Numeral.hex b.toNat)
  | .truncated pc opcode need left =>
      opcode.name ++ bytes " at 0x" ++ Numeral.hexSigned 8 pc ++ bytes " needs " ++ loc.integer need
        ++ bytes " bytes, " ++ loc.integer left ++ bytes " remain"
  | .unknownSyscall n => bytes "unrecognized syscall 0x" ++ Numeral.hex n.toNat
  | .stackEmpty => bytes "stack empty"
  | .stackFull => bytes "stack full"
  | .divideByZero => bytes "divide by zero"
  | .host failure => bytes "host i/o\n" ++ failure.message

end Fault

/-- A fault at a place of the image. -/
structure Trap where
  pc : Int
  opcode : Opcode
  fault : Fault
  deriving DecidableEq, Repr

/-- The wording of a trap around the wording of its cause. -/
def Trap.describe (pc : Int) (opcode : Opcode) (cause : Bytes) : Bytes :=
  bytes "fault at 0x" ++ Numeral.hexSigned 8 pc ++ bytes " (" ++ opcode.name ++ bytes "): " ++ cause

/-- The wording of a trap. -/
def Trap.message (loc : Locale) (t : Trap) : Bytes := describe t.pc t.opcode (t.fault.message loc)

end WordMachine
