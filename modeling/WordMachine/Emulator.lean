import WordMachine.Assembly.Assembler
import WordMachine.Machine.Step

/-!
# `Emulator` — a program on its machine

The emulator knows the lines of the program it runs, so a trap is reported with the line of its
instruction.

Contents:
* `Emulator`, `Emulator.load`, `Emulator.reset`, `Emulator.assembler`;
* `RuntimeError`: a trap with its line;
* `Emulator.tick`, `Emulator.run`.
-/

namespace WordMachine

open Assembly (Program Assembler Interpreter)

/-- A program and the machine that runs it. -/
structure Emulator where
  program : Program := {}
  machine : Machine

/-- A trap at a place of the image and its line; the line is zero if no instruction holds the place. -/
structure RuntimeError where
  pc : Int
  line : Int
  trap : Trap
  deriving DecidableEq, Repr

/-- The wording of a located trap around the wording of the trap. -/
def RuntimeError.describe (loc : Locale) (pc line : Int) (cause : Bytes) : Bytes :=
  if line = 0 then bytes "pc 0x" ++ Numeral.hexSigned 8 pc ++ bytes " " ++ cause
  else bytes "line " ++ loc.integer line ++ bytes " " ++ cause

/-- The wording of a runtime error. -/
def RuntimeError.message (loc : Locale) (e : RuntimeError) : Bytes :=
  describe loc e.pc e.line (e.trap.message loc)

namespace Emulator

/-- The result of one tick. -/
inductive Tick where
  | ran
  | done
  | failed (e : RuntimeError)
  deriving DecidableEq, Repr

/-- How a run ended. -/
inductive RunEnd where
  | done
  | failed (e : RuntimeError)
  /-- The program halted, but its output could not be delivered. -/
  | undelivered (failure : HostFailure)
  | outOfFuel
  deriving DecidableEq, Repr

/-! ## Programs -/

/-- Take an image without lines as the program. -/
def load (e : Emulator) (image : Image) : Emulator := { e with program := Program.ofImage image }

/-- Start the program over. -/
def reset (e : Emulator) : Emulator := { e with machine := e.machine.load e.program.image }

/-- The names and values a program text may use for this emulator. -/
def defines (e : Emulator) : List (Bytes × Bytes) :=
  [(bytes "STACK_LIMIT", Numeral.decimal Machine.operandLimit),
   (bytes "RETURN_LIMIT", Numeral.decimal Machine.returnLimit)] ++ e.machine.defines

/-- An assembler that knows the names of this emulator. -/
def assembler (e : Emulator) (interpreter : Interpreter) : Assembler :=
  e.defines.foldl (fun a define => a.predefine define.1 define.2) { interpreter := interpreter }

/-- The line of the instruction that the program counter is in; zero if there is none. -/
def lineNumber (e : Emulator) : Int :=
  match e.program.debug? e.machine.pc with
  | some debug => debug.entry.line
  | none => 0

/-! ## Ticks and runs -/

/-- Execute one instruction. A trap is located where the program counter was before. -/
def tick (e : Emulator) : Emulator × Tick :=
  match e.machine.tick with
  | (machine, .ran) => ({ e with machine := machine }, .ran)
  | (machine, .halted) => ({ e with machine := machine }, .done)
  | (machine, .trapped t) =>
      ({ e with machine := machine }, .failed ⟨e.machine.pc, e.lineNumber, t⟩)

/-- Deliver output that is held back. -/
def close (e : Emulator) : Emulator × Option HostFailure :=
  let (console, failure) := e.machine.console.flush
  ({ e with machine := { e.machine with console := console } }, failure)

/-- Tick until the program halts or fails, at most `fuel` times. -/
def steps : Nat → Emulator → Emulator × RunEnd
  | 0, e => (e, .outOfFuel)
  | fuel + 1, e =>
      match e.tick with
      | (e, .ran) => steps fuel e
      | (e, .done) => (e, .done)
      | (e, .failed error) => (e, .failed error)

/-- Run the program and deliver all output. -/
def run (fuel : Nat) (e : Emulator) : Emulator × RunEnd :=
  let (e, result) := e.steps fuel
  let (e, failure) := e.close
  match result, failure with
  | .done, some failure => (e, .undelivered failure)
  | result, _ => (e, result)

end Emulator

end WordMachine
