import WordMachine.Machine.Step

/-!
# `Machine.Request` — what the next instruction asks of the host

Contents: `Request`, `Machine.request?`.
-/

namespace WordMachine

/-- What a host call needs from outside the machine. -/
inductive Request where
  /-- A line of input. -/
  | line
  /-- The contents of a file. -/
  | read (name : Bytes)
  /-- A place for a file. -/
  | write (name : Bytes)
  deriving DecidableEq, Repr

namespace Machine

/-- The number of the host call that the next instruction makes. -/
def nextCall? (m : Machine) : Option UInt64 :=
  match m.fetch with
  | .error _ => none
  | .ok i =>
      match i.opcode.operation? with
      | some .sys => some i.imm
      | some .call => some (m.reg (Register.ofInt i.dst))
      | _ => none

/-- The name of the file that a host call names by the values on top of the stack. -/
def namedFile? (m : Machine) (number : UInt64) : Option Bytes :=
  match m.operands.items with
  | name :: _ :: context :: _ => (m.fileName number context name).toOption
  | _ => none

/-- What the next instruction asks of the host, if it asks for anything. -/
def request? (m : Machine) : Option Request :=
  if m.isHalted then none
  else
    match m.nextCall? with
    | none => none
    | some number =>
        match Syscall.ofNumber? number with
        | some .readLine => some .line
        | some .fileRead => (m.namedFile? number).map .read
        | some .fileWrite => (m.namedFile? number).map .write
        | _ => none

end Machine

end WordMachine
