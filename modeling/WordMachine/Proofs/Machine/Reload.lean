import Mathlib
import WordMachine.Proofs.Machine.Invariant

/-!
# `Proofs.Machine.Reload` — loading an image erases what came before

Whatever a machine was used for, it keeps the size of its memory and the limits of its stacks. All else that a
program can change is set anew when an image is loaded, so the machine then goes on as one that was just
created, on the same input, output and files.

Contents:
* `Machine.Event`, `Machine.handle`: the uses of a machine;
* `Machine.Fitted`, `Machine.Fitted.handle`: what all uses keep;
* `Machine.Fitted.load_eq`, `Machine.load_erases_history`.
-/

namespace WordMachine

namespace Machine

/-! ## Uses of a machine -/

/-- What a machine is used for. The host may at any time give other input, take the output elsewhere and change
files. -/
inductive Event where
  | load (image : Image)
  | tick
  | run (fuel : Nat)
  | host (input : Option Input) (output : Output) (files : FileSystem)

/-- The machine after a use of it. -/
def handle (m : Machine) : Event → Machine
  | .load image => m.load image
  | .tick => m.tick.1
  | .run fuel => (run fuel m).1
  | .host input output files =>
      { m with console := { m.console with input := input, output := output }, files := files }

/-- A machine of the given memory and stacks, in a state that uses can lead to. -/
structure Fitted (size : Int) (operandLimit returnLimit : Nat) (m : Machine) : Prop where
  memory : m.memory.size = size
  operands : m.operands.Bounded operandLimit
  returns : m.returns.Bounded returnLimit
  flags : Flag.Valid m.flags

variable {size : Int} {operandLimit returnLimit : Nat}

theorem fitted_create (size : Int) (operandLimit returnLimit : Nat) (console : Console) (files : FileSystem) :
    Fitted size operandLimit returnLimit (create size operandLimit returnLimit console files) where
  memory := rfl
  operands := Stack.bounded_empty _
  returns := Stack.bounded_empty _
  flags := (by decide : Flag.Valid 0)

namespace Fitted

variable {m : Machine}

theorem confined (h : Fitted size operandLimit returnLimit m) : Confined m m where
  image := rfl
  memory := rfl
  operands := by
    rw [h.operands.limit]
    exact h.operands
  returns := by
    rw [h.returns.limit]
    exact h.returns
  flags := h.flags

/-- What keeps to the resources of a machine has the same memory and stacks. -/
theorem of_confined {s : Machine} (h : Fitted size operandLimit returnLimit m) (hs : Confined m s) :
    Fitted size operandLimit returnLimit s where
  memory := hs.memory.trans h.memory
  operands := by
    rw [← h.operands.limit]
    exact hs.operands
  returns := by
    rw [← h.returns.limit]
    exact hs.returns
  flags := hs.flags

theorem tick (h : Fitted size operandLimit returnLimit m) : Fitted size operandLimit returnLimit m.tick.1 :=
  h.of_confined h.confined.tick

theorem run (h : Fitted size operandLimit returnLimit m) (fuel : Nat) :
    Fitted size operandLimit returnLimit (Machine.run fuel m).1 := by
  induction fuel generalizing m with
  | zero => exact h
  | succ fuel ih =>
    have hnext := h.tick
    rw [Machine.run]
    generalize m.tick = r at hnext
    obtain ⟨next, result⟩ := r
    cases result with
    | ran => exact ih hnext
    | halted | trapped => exact hnext

theorem load (h : Fitted size operandLimit returnLimit m) (image : Image) :
    Fitted size operandLimit returnLimit (m.load image) where
  memory := h.memory
  operands := by
    rw [← h.operands.limit]
    exact Stack.bounded_empty _
  returns := by
    rw [← h.returns.limit]
    exact Stack.bounded_empty _
  flags := (by decide : Flag.Valid 0)

theorem handle (h : Fitted size operandLimit returnLimit m) (e : Event) :
    Fitted size operandLimit returnLimit (m.handle e) := by
  cases e with
  | load image => exact h.load image
  | tick => exact h.tick
  | run fuel => exact h.run fuel
  | host input output files => exact ⟨h.memory, h.operands, h.returns, h.flags⟩

theorem history (h : Fitted size operandLimit returnLimit m) (events : List Event) :
    Fitted size operandLimit returnLimit (events.foldl Machine.handle m) := by
  induction events generalizing m with
  | nil => exact h
  | cons e events ih => exact ih (h.handle e)

/-- Loading an image leaves nothing of the machine but its memory size, its stack limits, and the host. -/
theorem load_eq (h : Fitted size operandLimit returnLimit m) (image : Image) {console : Console}
    (hinput : console.input = m.console.input) (houtput : console.output = m.console.output) :
    m.load image = (create size operandLimit returnLimit console m.files).load image := by
  -- resets keep the size and the limits, which are those of the new machine; lines read ahead are dropped
  have hmemory : m.memory.reset = ⟨size, ∅⟩ := by rw [← h.memory, Memory.reset]
  have hoperands : m.operands.reset = .empty operandLimit := by rw [Stack.reset, h.operands.limit]
  have hreturns : m.returns.reset = .empty returnLimit := by rw [Stack.reset, h.returns.limit]
  have hconsole : m.console.rewind = console.rewind := by
    rw [Console.rewind, Console.rewind, hinput, houtput]
  simp only [Machine.load, Machine.reset, hmemory, hoperands, hreturns, hconsole]
  rfl

end Fitted

/-! ## Reloading -/

/-- After any history, a machine that loads an image goes on as one that was just created with the same memory
size and stack limits and loads it, if the input and the output of their consoles and the files are the same:
after any number of ticks the states are alike, and all ticks had the same results. -/
theorem load_erases_history (size : Int) (operandLimit returnLimit : Nat) (console : Console) (files : FileSystem)
    (history : List Event) {m : Machine}
    (hm : m = history.foldl handle (create size operandLimit returnLimit console files)) (image : Image)
    {console' : Console} (hinput : console'.input = m.console.input)
    (houtput : console'.output = m.console.output) (k : Nat) :
    let used := stepped tick k (m.load image)
    let fresh := stepped tick k ((create size operandLimit returnLimit console' m.files).load image)
    used.2 = fresh.2 ∧ used.1.pc = fresh.1.pc ∧ used.1.flags = fresh.1.flags ∧
      used.1.registers = fresh.1.registers ∧ used.1.operands.toList = fresh.1.operands.toList ∧
      used.1.returns.toList = fresh.1.returns.toList ∧
      (∀ address n, used.1.memory.load address n = fresh.1.memory.load address n) ∧
      used.1.ticks = fresh.1.ticks ∧ used.1.console.output = fresh.1.console.output ∧
      used.1.files = fresh.1.files := by
  have hfitted : Fitted size operandLimit returnLimit m := by
    rw [hm]
    exact (fitted_create size operandLimit returnLimit console files).history history
  intro used fresh
  have hsame : used = fresh := congrArg (stepped tick k) (hfitted.load_eq image hinput houtput)
  rw [hsame]
  exact ⟨rfl, rfl, rfl, rfl, rfl, rfl, fun _ _ => rfl, rfl, rfl, rfl⟩

/-- A machine with a value in memory and on the operand stack, trapped by a load. -/
def trappedAfterStore : Machine :=
  [Event.load #[0x00, 0x00, 0x07, 0x00, 0x00, 0x00, 0x00, 0x00, 0x00, 0x00, 0x04, 0x00, 0x01, 0x00, 0x00, 0x00,
    0x06, 0x00, 0x01, 0x00, 0x00, 0xff, 0xff, 0xff], .run 9].foldl handle (create 16 8 8 {} (.store ∅))

theorem load_erases_history_pop :
    trappedAfterStore.operands.toList = [7] ∧ trappedAfterStore.memory.load 1 1 = .ok 7 ∧
      trappedAfterStore.pc = 18 ∧
      (stepped tick 1 (trappedAfterStore.load #[0x07, 0x02])).2 = [.trapped ⟨0, .of .pop, .stackEmpty⟩] ∧
      (stepped tick 1 (trappedAfterStore.load #[0x07, 0x02])).1.memory.load 1 1 = .ok 0 := by
  have hreloaded := load_erases_history 16 8 8 {} (.store ∅) _ (rfl : trappedAfterStore = _) #[0x07, 0x02]
    (rfl : trappedAfterStore.console.input = _) (rfl : trappedAfterStore.console.output = _) 1
  obtain ⟨hresults, -, -, -, -, -, hloads, -⟩ := hreloaded
  refine ⟨by decide +kernel, by decide +kernel, by decide +kernel, ?_, ?_⟩
  · rw [hresults]
    decide +kernel
  · rw [hloads]
    decide +kernel

end Machine

end WordMachine
