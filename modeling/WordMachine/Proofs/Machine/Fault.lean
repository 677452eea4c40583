import Mathlib
import WordMachine.Proofs.Machine.Decode
import WordMachine.Proofs.Machine.Frame

/-!
# `Proofs.Machine.Fault` — what a fault leaves behind

An instruction that fails has popped operands and dealt with the host, and a load has put zero into its
destination. All else is as it was before: the place, the flags, the other registers, the return stack,
the image and memory.

Contents:
* `Machine.Steps`, `Machine.steps_tick`: all that a tick can do;
* `Operation.isLoad`, `Machine.Leaves`, `Machine.perform_leaves`: what an operation that fails leaves;
* `Machine.trapped_frame`: what a trapped tick leaves as it was;
* `Machine.loaded?`, `Machine.trapped_registers`: when it leaves the registers as they were.
-/

namespace WordMachine

namespace Machine

/-! ## Ticks -/

/-- What a tick can do: nothing once the machine has halted, and otherwise perform the operation that is
decoded at the program counter, if there is one. -/
inductive Steps (m : Machine) : Machine × Tick → Prop where
  | halted (h : m.isHalted = true) : Steps m (m, .halted)
  | unreadable {f : Fault} (h : m.isHalted = false) (hfetch : m.fetch = .error f) :
      Steps m (m, .trapped ⟨m.pc, m.opcodeAtPc, f⟩)
  | ran {i : Instruction} {op : Operation} {m' : Machine} (h : m.isHalted = false) (hfetch : m.fetch = .ok i)
      (hop : i.opcode = .of op)
      (hperform : m.perform op (Register.ofInt i.dst) (Register.ofInt i.src) i.imm
        (placeAfter m.pc i.opcode.width) = (m', none)) :
      Steps m ({ m' with ticks := m'.ticks + 1 }, .ran)
  | failed {i : Instruction} {op : Operation} {m' : Machine} {f : Fault} (h : m.isHalted = false)
      (hfetch : m.fetch = .ok i) (hop : i.opcode = .of op)
      (hperform : m.perform op (Register.ofInt i.dst) (Register.ofInt i.src) i.imm
        (placeAfter m.pc i.opcode.width) = (m', some f)) :
      Steps m (m', .trapped ⟨m.pc, i.opcode, f⟩)

theorem steps_tick (m : Machine) : m.Steps m.tick := by
  cases hhalted : m.isHalted with
  | true =>
    rw [tick, if_pos hhalted]
    exact .halted hhalted
  | false =>
    rw [tick, hhalted]
    cases hfetch : m.fetch with
    | error f => exact .unreadable hhalted hfetch
    | ok i =>
      obtain ⟨_, op, _, _, _, -, -, -, hi⟩ := Image.of_decode hfetch
      have hop : i.opcode = .of op := by rw [hi, Instruction.opcode_ofBytes]
      have hoperation : i.opcode.operation? = some op := by rw [hop, Opcode.operation?_of]
      simp only [Bool.false_eq_true, if_false, execute, hoperation]
      generalize hperform : m.perform op _ _ _ _ = r
      obtain ⟨m', fault?⟩ := r
      cases fault? with
      | none => exact .ran hhalted hfetch hop hperform
      | some f => exact .failed hhalted hfetch hop hperform

end Machine

/-! ## Operations that fail -/

/-- The operations that load a register from memory. -/
def Operation.isLoad : Operation → Bool
  | .ldr | .indl | .lei | .lst | .ltt | .lsf => true
  | _ => false

namespace Machine

variable {m : Machine}

/-- A machine after a fault, given the registers that the fault leaves. -/
structure Leaves (m : Machine) (registers : Vector UInt64 16) (m' : Machine) : Prop where
  pc : m'.pc = m.pc
  flags : m'.flags = m.flags
  ticks : m'.ticks = m.ticks
  returns : m'.returns = m.returns
  image : m'.image = m.image
  memory : m'.memory = m.memory
  operands : m'.operands.IsRestOf m.operands
  registers : m'.registers = registers

theorem leaves_self (m : Machine) : Leaves m m.registers m :=
  ⟨rfl, rfl, rfl, rfl, rfl, rfl, m.operands.isRestOf_self, rfl⟩

/-- A part of an operation that fails ends the operation. -/
theorem Keeps.leaves {r : Machine × Option Fault} {next : Int} {f : Fault} (h : Keeps m r)
    (hf : (andThen r next).2 = some f) : Leaves m m.registers (andThen r next).1 := by
  obtain ⟨m', fault?⟩ := r
  cases fault? with
  | none => cases hf
  | some f' =>
    -- flags and memory change only where the part succeeds
    have hflags : m'.flags = m.flags := by
      rcases h.flags with hflags | ⟨hnone, -⟩
      · exact hflags
      · cases hnone
    have hmemory : m'.memory = m.memory := by
      rcases h.memory with hmemory | ⟨hnone, -⟩
      · exact hmemory
      · cases hnone
    exact ⟨h.pc, hflags, h.ticks, h.returns, h.image, hmemory, h.operands, h.registers⟩

/-- A load that fails has put zero into its destination. -/
theorem leaves_loadInto {r : Register} {address : UInt64} {size next : Int} {f : Fault}
    (hf : (andThen (m.loadInto r address size) next).2 = some f) :
    Leaves m (m.setReg r 0).registers (andThen (m.loadInto r address size) next).1 := by
  have hvalue : (m.memory.load address size).toOption.getD 0 = 0 := by
    cases hload : m.memory.load address size with
    | ok value =>
      rw [loadInto, hload] at hf
      cases hf
    | error f => rfl
  -- what is kept is kept from the machine with the register set, which has all else in common with `m`
  have hleaves := (keeps_loadInto r address size).leaves hf
  rw [hvalue] at hleaves
  obtain ⟨hpc, hflags, hticks, hreturns, himage, hmemory, hoperands, hregisters⟩ := hleaves
  exact ⟨hpc, hflags, hticks, hreturns, himage, hmemory, hoperands, hregisters⟩

/-- What an operation that fails leaves: a load has put zero into its destination, any other operation keeps
all registers. -/
theorem perform_leaves {op : Operation} {dst src : Register} {imm : UInt64} {next : Int} {f : Fault}
    (hf : (m.perform op dst src imm next).2 = some f) :
    Leaves m (if op.isLoad then m.setReg dst 0 else m).registers (m.perform op dst src imm next).1 := by
  cases op with
  -- these do not fail
  | mov | adr | cpy | iadd | isub | imul | dadd | dsub | dmul | ddiv | icst | dcst | shl | shr | and | or | neg
  | pow | root | icmp | dcmp | jmp | beq | bne | bgt | blt | halt => cases hf
  | ldr | indl | lei | lst | ltt | lsf => exact leaves_loadInto hf
  | str | inds | sei | sst | stt | ssf => exact (keeps_storeAt _ _ _).leaves hf
  | push | pop =>
    simp only [perform] at hf ⊢
    split at hf
    · exact leaves_self m
    · cases hf
  | idiv =>
    simp only [perform] at hf ⊢
    split at hf
    next hzero =>
      rw [if_pos hzero]
      exact leaves_self m
    · cases hf
  | jsr | ret =>
    simp only [perform, jumpSubroutine, returnSubroutine] at hf ⊢
    split at hf
    · exact leaves_self m
    · cases hf
  | sys | call => exact (keeps_syscall _).leaves hf
  | bufc => exact (keeps_copyString _ _).leaves hf
  | bseq | lseq => exact (keeps_compareStrings isUnreadable_of_regionString).leaves hf

/-! ## Trapped ticks -/

/-- The register that the instruction at the program counter loads from memory. -/
def loaded? (m : Machine) : Option Register :=
  m.fetch.toOption.bind fun i =>
    (i.opcode.operation?.filter Operation.isLoad).map fun _ => Register.ofInt i.dst

/-- The registers that a fault at the program counter leaves. -/
def faultRegisters (m : Machine) : Vector UInt64 16 := (m.loaded?.elim m (m.setReg · 0)).registers

theorem loaded?_of_fetch {i : Instruction} {op : Operation} (hfetch : m.fetch = .ok i) (hop : i.opcode = .of op) :
    m.loaded? = if op.isLoad then some (Register.ofInt i.dst) else none := by
  rw [loaded?, hfetch, Except.toOption, Option.bind_some, hop, Opcode.operation?_of]
  cases hload : op.isLoad with
  | true => rw [Option.filter_some_pos hload, Option.map_some, if_pos rfl]
  | false => rw [Option.filter_some_neg hload, Option.map_none, if_neg (by decide)]

/-- A trapped tick leaves what a fault leaves. -/
theorem leaves_of_trapped {m' : Machine} {t : Trap} (h : m.tick = (m', .trapped t)) :
    Leaves m m.faultRegisters m' := by
  have hsteps := m.steps_tick
  rw [h] at hsteps
  cases hsteps with
  | unreadable hhalted hfetch =>
    have hnone : m.loaded? = none := by
      rw [loaded?, hfetch]
      rfl
    rw [faultRegisters, hnone]
    exact leaves_self m
  | @failed i op _ f hhalted hfetch hop hperform =>
    have hleaves := perform_leaves (congrArg Prod.snd hperform)
    rw [hperform] at hleaves
    rw [faultRegisters, loaded?_of_fetch hfetch hop]
    cases hload : op.isLoad with
    | true =>
      rw [if_pos hload] at hleaves
      exact hleaves
    | false =>
      rw [if_neg (by rw [hload]; decide)] at hleaves
      exact hleaves

/-- A trap names the place and the byte that stands there. -/
theorem byte_of_trapped {m' : Machine} {t : Trap} (h : m.tick = (m', .trapped t)) :
    t.pc = m.pc ∧ (0 ≤ m.pc → m.image[m.pc.toNat]? = some t.opcode.byte) := by
  have hsteps := m.steps_tick
  rw [h] at hsteps
  cases hsteps with
  | unreadable hhalted hfetch =>
    refine ⟨rfl, fun hpos => ?_⟩
    have hlt : m.pc.toNat < m.image.size := by
      simp only [isHalted, Bool.or_eq_false_iff, decide_eq_false_iff_not] at hhalted
      omega
    rw [opcodeAtPc, Array.getElem?_eq_getElem hlt, Option.getD_some]
  | failed hhalted hfetch hop hperform =>
    refine ⟨rfl, fun _ => ?_⟩
    obtain ⟨before, op, desc, operand, after, himage, hpc, -, rfl⟩ := Image.of_decode hfetch
    rw [hpc, Int.toNat_natCast, ← Array.getElem?_toList, himage]
    simp

/-- A trapped tick leaves the place, the flags, the tick count, the return stack, the image and memory as they
were, and of the operand stack what lies below some depth. The trap tells the place, and the byte that stands
there: before the image, where no run leads, there is none. -/
theorem trapped_frame {m m' : Machine} {t : Trap} (h : m.tick = (m', .trapped t)) :
    m'.pc = m.pc ∧ m'.flags = m.flags ∧ m'.ticks = m.ticks ∧ m'.returns = m.returns ∧ m'.image = m.image ∧
      m'.memory = m.memory ∧ m'.operands.toList <+: m.operands.toList ∧ m'.operands.limit = m.operands.limit ∧
      t.pc = m.pc ∧ (0 ≤ m.pc → m.image[m.pc.toNat]? = some t.opcode.byte) := by
  obtain ⟨hpc, hflags, hticks, hreturns, himage, hmemory, hoperands, -⟩ := leaves_of_trapped h
  obtain ⟨hplace, hbyte⟩ := byte_of_trapped h
  have hprefix : m'.operands.toList <+: m.operands.toList := List.reverse_prefix.mpr hoperands.items
  exact ⟨hpc, hflags, hticks, hreturns, himage, hmemory, hprefix, hoperands.limit, hplace, hbyte⟩

/-- A machine that is to read a file, with one operand for its name and none for the buffer. -/
theorem trapped_frame_file_read :
    let m := ((create 16 8 8 {} (.store ∅)).load #[0x06, 0x00, 0x20, 0x00, 0x08, 0x00, 0x00, 0x00]).tick.1
    m.operands.toList = [0] ∧ m.tick.2 = .trapped ⟨2, .of .sys, .stackEmpty⟩ ∧ m.tick.1.operands.toList = [] ∧
      m.tick.1.memory = m.memory ∧ m.tick.1.pc = m.pc := by
  intro m
  have htrapped : m.tick = (m.tick.1, .trapped ⟨2, .of .sys, .stackEmpty⟩) := Prod.ext rfl (by decide +kernel)
  obtain ⟨hpc, -, -, -, -, hmemory, -⟩ := trapped_frame htrapped
  exact ⟨by decide +kernel, by decide +kernel, by decide +kernel, hmemory, hpc⟩

/-- A trapped tick leaves all registers as they were but the one that a load was to fill, which is zero. So it
leaves the registers as they were if and only if that one, if there is one, was zero before. -/
theorem trapped_registers {m m' : Machine} {t : Trap} (h : m.tick = (m', .trapped t)) :
    (∀ r, m'.reg r = if m.loaded? = some r then 0 else m.reg r) ∧
      (m'.registers = m.registers ↔ ∀ r ∈ m.loaded?, m.reg r = 0) := by
  have hregisters := (leaves_of_trapped h).registers
  rw [faultRegisters] at hregisters
  cases hloaded : m.loaded? with
  | none =>
    rw [hloaded] at hregisters
    have heq : m'.registers = m.registers := hregisters
    refine ⟨fun r => ?_, fun _ r hr => ?_, fun _ => heq⟩
    · rw [if_neg (by simp), reg, heq, reg]
    · cases hr
  | some dst =>
    rw [hloaded] at hregisters
    have heq : m'.registers = (m.setReg dst 0).registers := hregisters
    have hreg : ∀ r, m'.reg r = if some dst = some r then 0 else m.reg r := by
      intro r
      have hset : m'.reg r = (m.setReg dst 0).reg r := by rw [reg, heq, reg]
      rw [hset, reg_setReg, Function.update_apply]
      by_cases hr : r = dst
      · rw [if_pos hr, if_pos (by rw [hr])]
      · rw [if_neg hr, if_neg fun h => hr (Option.some.inj h).symm]
    refine ⟨hreg, fun hsame r hr => ?_, fun hzero => ?_⟩
    · have hafter := hreg r
      rwa [if_pos (Option.mem_def.mp hr), reg, hsame] at hafter
    · -- writing the value that a register holds changes nothing
      have hdst : m.registers[dst] = 0 := hzero dst rfl
      rw [heq, setReg, ← hdst]
      exact Vector.set_getElem_self _

/-- A machine with a value in a register, before a load into it from beyond memory. -/
def beforeLoad : Machine :=
  ((create 16 8 8 {} (.store ∅)).load
    #[0x00, 0x00, 0x07, 0x00, 0x00, 0x00, 0x00, 0x00, 0x00, 0x00, 0x01, 0x00, 0x00, 0xff, 0xff, 0xff]).tick.1

theorem tick_beforeLoad : beforeLoad.tick =
    (beforeLoad.tick.1, .trapped ⟨10, .of .ldr, .access ⟨.memory, 0xffffff00, 1, 16⟩⟩) :=
  Prod.ext rfl (by decide +kernel)

theorem trapped_registers_load :
    beforeLoad.tick.2 = .trapped ⟨10, .of .ldr, .access ⟨.memory, 0xffffff00, 1, 16⟩⟩ ∧
      beforeLoad.loaded? = some 0 ∧ beforeLoad.tick.1.reg 1 = beforeLoad.reg 1 ∧
      beforeLoad.tick.1.registers ≠ beforeLoad.registers := by
  have hloaded : beforeLoad.loaded? = some 0 := by decide +kernel
  have hreg : beforeLoad.reg 0 = 7 := by decide +kernel
  obtain ⟨hregs, hsame⟩ := trapped_registers tick_beforeLoad
  refine ⟨congrArg Prod.snd tick_beforeLoad, hloaded, ?_, fun heq => ?_⟩
  · rw [hregs 1, hloaded, if_neg (by decide)]
  · have hzero := hsame.mp heq 0 hloaded
    rw [hreg] at hzero
    cases hzero

/-- Not every trapped tick leaves the registers as they were. -/
theorem not_forall_trapped_registers_eq :
    ¬ ∀ (m m' : Machine) (t : Trap), m.tick = (m', .trapped t) → m'.registers = m.registers := by
  intro h
  have hne : beforeLoad.tick.1.registers ≠ beforeLoad.registers := by decide +kernel
  exact hne (h beforeLoad _ _ tick_beforeLoad)

end Machine

end WordMachine
