import Mathlib
import WordMachine.Proofs.Machine.Fault

/-!
# `Proofs.Machine.Invariant` — what all runs keep

Any bytes can be run. Whatever they are, and also when ticks go on after faults or the host changes between them,
the machine keeps to its image and the size of its memory, its stacks keep to their limits, and its flags are
those that operations set. With an image below `2 ^ 32` bytes the program counter stays below that bound, and
each return place lies right behind a call.

Contents:
* `Flag.Valid`, `Flag.valid_compared`, `Flag.valid_halt`: the flags that operations set;
* `Stack.Bounded`: a stack within a limit;
* `Machine.Confined`, `Machine.Confined.perform`, `Machine.Confined.tick`: resources;
* `Image.IsReturn`, `Machine.Placed`, `Machine.Placed.tick`: places;
* `Machine.reachable_invariant`.
-/

namespace WordMachine

/-! ## Flags -/

namespace Flag

/-- The bits that are no flags are clear, and a comparison has set one flag at most. -/
def Valid (flags : UInt8) : Prop := flags &&& 0x1b = 0 ∧ [equal, less, greater].countP (isSet flags) ≤ 1

instance (flags : UInt8) : Decidable (Valid flags) := inferInstanceAs (Decidable (_ ∧ _))

theorem valid_compared (flags : UInt8) (ordering : Option Ordering) : Valid (compared flags ordering) := by
  apply forall_byte (P := fun flags => Valid (compared flags ordering))
  cases ordering with
  | none => decide +kernel
  | some o =>
    cases o with
    | lt | eq | gt => decide +kernel

theorem valid_halt {flags : UInt8} (h : Valid flags) : Valid (flags ||| halt) := by
  have hall : ∀ flags, Valid flags → Valid (flags ||| halt) := forall_byte (by decide +kernel)
  exact hall flags h

end Flag

/-! ## Stacks -/

namespace Stack

variable {α : Type} {s t : Stack α} {n : Nat}

/-- A stack has a limit and keeps to it. -/
structure Bounded (s : Stack α) (n : Nat) : Prop where
  limit : s.limit = n
  length (h : 0 < n) : s.items.length ≤ n

theorem bounded_empty (n : Nat) : (empty n : Stack α).Bounded n := ⟨rfl, fun _ => Nat.zero_le _⟩

theorem Bounded.rest (h : s.Bounded n) (hrest : t.IsRestOf s) : t.Bounded n where
  limit := hrest.limit.trans h.limit
  length hpos := hrest.items.length_le.trans (h.length hpos)

theorem Bounded.push {value : α} (h : s.Bounded n) (hpush : s.push value = .ok t) : t.Bounded n := by
  obtain ⟨hfull, hitems, hlimit⟩ := of_push hpush
  refine ⟨hlimit.trans h.limit, fun hpos => ?_⟩
  have hroom : s.depth < n := by
    rw [isFull, h.limit] at hfull
    simpa [hpos] using hfull
  rw [hitems, List.length_cons, ← s.depth_eq]
  exact hroom

end Stack

namespace Machine

/-! ## Resources -/

/-- A machine keeps to the image, the memory and the stack limits of another one, and its flags are valid. -/
structure Confined (m s : Machine) : Prop where
  image : s.image = m.image
  memory : s.memory.size = m.memory.size
  operands : s.operands.Bounded m.operands.limit
  returns : s.returns.Bounded m.returns.limit
  flags : Flag.Valid s.flags

theorem confined_load (m : Machine) (image : Image) : Confined (m.load image) (m.load image) where
  image := rfl
  memory := rfl
  operands := Stack.bounded_empty _
  returns := Stack.bounded_empty _
  flags := (by decide : Flag.Valid 0)

namespace Confined

variable {m s : Machine}

/-- Places, registers and the tick count do not matter. -/
theorem moved (h : Confined m s) (pc : Int) (registers : Vector UInt64 16) (ticks : Nat) :
    Confined m { s with pc := pc, registers := registers, ticks := ticks } :=
  ⟨h.image, h.memory, h.operands, h.returns, h.flags⟩

theorem keeps {r : Machine × Option Fault} (h : Confined m s) (hr : Keeps s r) : Confined m r.1 where
  image := hr.image.trans h.image
  memory := by
    rcases hr.memory with hmemory | ⟨-, hmemory⟩
    · rw [hmemory, h.memory]
    · rw [hmemory, h.memory]
  operands := h.operands.rest hr.operands
  returns := by
    rw [hr.returns]
    exact h.returns
  flags := by
    rcases hr.flags with hflags | ⟨-, ordering, hflags⟩
    · rw [hflags]
      exact h.flags
    · rw [hflags]
      exact Flag.valid_compared _ _

theorem andThen {r : Machine × Option Fault} (h : Confined m s) (hr : Keeps s r) (next : Int) :
    Confined m (andThen r next).1 := by
  have hafter := h.keeps hr
  obtain ⟨s', fault?⟩ := r
  cases fault? with
  | none => exact hafter.moved next s'.registers s'.ticks
  | some f => exact hafter

theorem perform (h : Confined m s) (op : Operation) (dst src : Register) (imm : UInt64) (next : Int) :
    Confined m (s.perform op dst src imm next).1 := by
  cases op with
  | mov | adr | cpy | iadd | isub | imul | dadd | dsub | dmul | ddiv | icst | dcst | shl | shr | and | or | neg
  | pow | root | jmp | beq | bne | bgt | blt => exact h.moved _ _ _
  | ldr | indl | lei | lst | ltt | lsf => exact (h.moved _ _ _).andThen (keeps_loadInto dst _ _) next
  | str | inds | sei | sst | stt | ssf => exact h.andThen (keeps_storeAt _ _ _) next
  | push =>
    simp only [Machine.perform]
    split
    · exact h
    next hpush => exact ⟨h.image, h.memory, h.operands.push hpush, h.returns, h.flags⟩
  | pop =>
    simp only [Machine.perform]
    split
    · exact h
    next hpop => exact ⟨h.image, h.memory, h.operands.rest (Stack.isRestOf_of_pop hpop), h.returns, h.flags⟩
  | idiv =>
    simp only [Machine.perform]
    split
    · exact h
    · exact h.moved _ _ _
  | icmp | dcmp => exact ⟨h.image, h.memory, h.operands, h.returns, Flag.valid_compared _ _⟩
  | jsr =>
    simp only [Machine.perform, jumpSubroutine]
    split
    · exact h
    next hpush => exact ⟨h.image, h.memory, h.operands, h.returns.push hpush, h.flags⟩
  | ret =>
    simp only [Machine.perform, returnSubroutine]
    split
    · exact h
    next hpop => exact ⟨h.image, h.memory, h.operands, h.returns.rest (Stack.isRestOf_of_pop hpop), h.flags⟩
  | halt => exact ⟨h.image, h.memory, h.operands, h.returns, Flag.valid_halt h.flags⟩
  | sys | call => exact h.andThen (keeps_syscall _) next
  | bufc => exact h.andThen (keeps_copyString _ _) next
  | bseq | lseq => exact h.andThen (keeps_compareStrings isUnreadable_of_regionString) next

theorem tick (h : Confined m s) : Confined m s.tick.1 := by
  have hperforms (i : Instruction) (op : Operation) :=
    h.perform op (Register.ofInt i.dst) (Register.ofInt i.src) i.imm (placeAfter s.pc i.opcode.width)
  have hsteps := s.steps_tick
  generalize s.tick = r at hsteps ⊢
  cases hsteps with
  | halted | unreadable => exact h
  | @ran i op s' _ _ _ hperform =>
    have hafter := hperforms i op
    rw [hperform] at hafter
    exact hafter.moved s'.pc s'.registers (s'.ticks + 1)
  | @failed i op _ _ _ _ _ hperform =>
    have hafter := hperforms i op
    rw [hperform] at hafter
    exact hafter

end Confined

theorem Reaches.confined {changes : Prop} {m s s' : Machine} (hs : Confined m s) (h : s.Reaches changes s') :
    Confined m s' := by
  induction h with
  | here => exact hs
  | tick _ ih => exact ih.tick
  | host _ console files _ ih => exact ⟨ih.image, ih.memory, ih.operands, ih.returns, ih.flags⟩

end Machine

/-! ## Places -/

/-- A place lies right behind a call. -/
def Image.IsReturn (image : Image) (place : Nat) : Prop :=
  6 ≤ place ∧ place ≤ image.size ∧ image[place - 6]? = some Operation.jsr.code

/-- The operations that go on at their operand have one of four bytes. -/
theorem Operation.immediate?_of_isBranch {op : Operation} (h : op.isBranch = true ∨ op = .jsr) :
    op.immediate? = some .imm32 := by
  rcases h with h | rfl
  · cases op with
    | jmp | beq | bne | bgt | blt => rfl
    | _ => cases h
  · rfl

namespace Machine

/-- A machine is at a place that four bytes can tell, and so are its return places, right behind calls. -/
structure Placed (s : Machine) : Prop where
  pc : 0 ≤ s.pc ∧ s.pc < 2 ^ 32
  returns : ∀ e ∈ s.returns.items, s.image.IsReturn e.toNat

/-- The place after an instruction of an image lies in the image or at its end. -/
theorem placeAfter_decoded {image : Image} {before operand after : Bytes} {op : Operation} {desc : UInt8}
    (himage : image.toList = before ++ (op.code :: desc :: operand) ++ after)
    (hoperand : operand.length = (op.immediate?.map Operand.cost).getD 0) (hsize : image.size < 2 ^ 32) :
    placeAfter before.length (Opcode.of op).width = (before.length + (Opcode.of op).width : Nat) ∧
      before.length + (Opcode.of op).width ≤ image.size := by
  have hend : before.length + (Opcode.of op).width ≤ image.size := by
    rw [← Array.length_toList, himage, Opcode.width, Opcode.immediate?_of, ← hoperand]
    simp
    omega
  exact ⟨placeAfter_eq (Nat.lt_of_le_of_lt hend (Nat.lt_of_lt_of_le hsize (by decide))), hend⟩

/-- Where an instruction of an image leads, and its return places. -/
theorem Flows.placed {image : Image} {before operand after : Bytes} {op : Operation} {desc : UInt8}
    {returns returns' : List UInt32} {pc : Int}
    (h : Flows (placeAfter before.length (Opcode.of op).width) (ofLittleEndian operand).toUInt64.toInt64.toInt op
      returns pc returns')
    (himage : image.toList = before ++ (op.code :: desc :: operand) ++ after)
    (hoperand : operand.length = (op.immediate?.map Operand.cost).getD 0) (hsize : image.size < 2 ^ 32)
    (hreturns : ∀ e ∈ returns, image.IsReturn e.toNat) :
    (0 ≤ pc ∧ pc < 2 ^ 32) ∧ ∀ e ∈ returns', image.IsReturn e.toNat := by
  obtain ⟨hnext, hend⟩ := placeAfter_decoded himage hoperand hsize
  -- an operand of four bytes has no sign bit in the eight bytes it is widened to
  have htarget (hop : op.isBranch = true ∨ op = .jsr) :
      0 ≤ (ofLittleEndian operand).toUInt64.toInt64.toInt ∧
        (ofLittleEndian operand).toUInt64.toInt64.toInt < 2 ^ 32 := by
    rw [Operation.immediate?_of_isBranch hop] at hoperand
    have hlt : ofLittleEndian operand < 2 ^ 32 := by
      have hlt := ofLittleEndian_lt operand
      rwa [hoperand] at hlt
    have hvalue : (ofLittleEndian operand).toUInt64.toNat = ofLittleEndian operand :=
      UInt64.toNat_ofNat_of_lt' (Nat.lt_trans hlt (by decide))
    rw [toInt_place (by rw [hvalue]; exact hlt), hvalue]
    omega
  cases h with
  | goesOn | falls => exact ⟨by omega, hreturns⟩
  | taken hop => exact ⟨htarget (.inl hop), hreturns⟩
  | calls =>
    refine ⟨htarget (.inr rfl), fun e he => ?_⟩
    rcases List.mem_cons.mp he with rfl | he
    · -- the place behind the call is within the image, so the stack's four bytes tell it whole
      have hcode : image[before.length]? = some Operation.jsr.code := by
        rw [← Array.getElem?_toList, himage]
        simp
      have hjsr : (Opcode.of .jsr).width = 6 := rfl
      rw [hnext, toNat_ofInt (Nat.lt_of_le_of_lt hend hsize)]
      rw [hjsr] at hend ⊢
      exact ⟨by omega, hend, by rwa [Nat.add_sub_cancel]⟩
    · exact hreturns e he
  | @returns r _ =>
    have hr := (hreturns r List.mem_cons_self).2.1
    exact ⟨by omega, fun e he => hreturns e (List.mem_cons_of_mem r he)⟩

theorem placed_load (m : Machine) (image : Image) : Placed (m.load image) where
  pc := ⟨le_rfl, (by decide : (0 : Int) < 2 ^ 32)⟩
  returns e he := by cases he

theorem Placed.tick {s : Machine} (h : Placed s) (hsize : s.image.size < 2 ^ 32) : Placed s.tick.1 := by
  have hsteps := s.steps_tick
  generalize s.tick = r at hsteps ⊢
  cases hsteps with
  | halted | unreadable => exact h
  | @ran i op s' _ hfetch hop hperform =>
    obtain ⟨before, op', desc, operand, after, himage, hpc, hoperand, rfl⟩ := Image.of_decode hfetch
    obtain rfl : op' = op := Opcode.of_injective hop
    rw [hpc] at hperform
    -- operations that proceed keep the halt flag, so `halt` is a case of its own
    by_cases hhalt : op' = .halt
    · subst hhalt
      obtain ⟨hnext, hend⟩ := placeAfter_decoded himage hoperand hsize
      obtain rfl := congrArg Prod.fst hperform
      refine ⟨?_, h.returns⟩
      show 0 ≤ placeAfter before.length (Opcode.of .halt).width ∧
        placeAfter before.length (Opcode.of .halt).width < 2 ^ 32
      omega
    · have hproceeds : Proceeds s op' (placeAfter before.length (Opcode.of op').width)
          (ofLittleEndian operand).toUInt64.toInt64.toInt (s', none) := by
        rw [← hperform]
        exact perform_proceeds hhalt _ _ _ _
      obtain ⟨hplace, hreturns⟩ := (hproceeds.flows rfl).placed himage hoperand hsize h.returns
      refine ⟨hplace, ?_⟩
      show ∀ e ∈ s'.returns.items, s'.image.IsReturn e.toNat
      rw [hproceeds.image]
      exact hreturns
  | failed _ _ _ hperform =>
    have hleaves := perform_leaves (congrArg Prod.snd hperform)
    rw [hperform] at hleaves
    refine ⟨?_, ?_⟩
    · rw [hleaves.pc]
      exact h.pc
    · rw [hleaves.returns, hleaves.image]
      exact h.returns

theorem Reaches.placed {changes : Prop} {s s' : Machine} (hs : Placed s) (hconfined : Confined s s)
    (hsize : s.image.size < 2 ^ 32) (h : s.Reaches changes s') : Placed s' := by
  induction h with
  | here => exact hs
  | tick h ih =>
    -- the bound is on the image at the start, which is still the image here
    refine ih.tick ?_
    rwa [(h.confined hconfined).image]
  | host _ console files _ ih => exact ⟨ih.pc, ih.returns⟩

/-! ## Runs -/

/-- By ticks alone, a halted machine reaches itself only. -/
theorem Reaches.eq_of_halted {s s' : Machine} (hs : s.isHalted = true) (h : s.Reaches False s') : s' = s := by
  induction h with
  | here => rfl
  | tick _ ih => rw [ih, tick_of_halted hs]
  | host hchanges => exact hchanges.elim

/-- What holds in all states of all runs of an image below `2 ^ 32` bytes, also after faults, and whatever the host
does meanwhile. -/
theorem reachable_invariant {image : Image} (himage : image.size < 2 ^ 32) (m : Machine) {changes : Prop}
    {s : Machine} (h : (m.load image).Reaches changes s) :
    (∀ e ∈ s.returns.toList, 6 ≤ e.toNat ∧ e.toNat ≤ image.size ∧
      image[e.toNat - 6]? = some Operation.jsr.code) ∧
      (0 ≤ s.pc ∧ s.pc < 2 ^ 32) ∧
      (s.operands.limit = m.operands.limit ∧
        (0 < m.operands.limit → s.operands.toList.length ≤ m.operands.limit)) ∧
      (s.returns.limit = m.returns.limit ∧
        (0 < m.returns.limit → s.returns.toList.length ≤ m.returns.limit)) ∧
      s.image = image ∧ s.memory.size = m.memory.size ∧
      s.flags &&& 0x1b = 0 ∧ [Flag.equal, Flag.less, Flag.greater].countP (Flag.isSet s.flags) ≤ 1 ∧
      (s.isHalted = true → s.tick = (s, .halted) ∧ ∀ s', s.Reaches False s' → s' = s) := by
  have hconfined := h.confined (confined_load m image)
  have hplaced := h.placed (placed_load m image) (confined_load m image) himage
  have heq : s.image = image := hconfined.image
  refine ⟨?_, hplaced.pc, ⟨hconfined.operands.limit, ?_⟩, ⟨hconfined.returns.limit, ?_⟩, heq,
    hconfined.memory, hconfined.flags.1, hconfined.flags.2, ?_⟩
  · intro e he
    have hreturn := hplaced.returns e (List.mem_reverse.mp he)
    rwa [heq] at hreturn
  · intro hpos
    rw [Stack.toList, List.length_reverse]
    exact hconfined.operands.length hpos
  · intro hpos
    rw [Stack.toList, List.length_reverse]
    exact hconfined.returns.length hpos
  · intro hhalted
    exact ⟨tick_of_halted hhalted, fun _ hreach => hreach.eq_of_halted hhalted⟩

/-- A call to the place behind it, and a `halt` there, with other input and files between them. -/
theorem reachable_invariant_call :
    let s := (((create 16 8 1 {} (.store ∅)).load #[0x1e, 0x00, 0x06, 0x00, 0x00, 0x00, 0x22, 0x00]).tick.1.withHost
      { input := some (.ofBytes (bytes "text") false) } (.directory [] {})).tick.1
    s.returns.toList = [6] ∧ s.isHalted = true ∧ s.returns.toList.length ≤ 1 ∧ s.memory.size = 16 ∧
      s.tick = (s, .halted) := by
  intro s
  have hreturns : s.returns.toList = [6] := by decide +kernel
  have hhalted : s.isHalted = true := by decide +kernel
  have hsize : (#[0x1e, 0x00, 0x06, 0x00, 0x00, 0x00, 0x22, 0x00] : Image).size < 2 ^ 32 := by decide
  obtain ⟨-, -, -, ⟨-, hlength⟩, -, hmemory, -, -, hstays⟩ :=
    reachable_invariant hsize (create 16 8 1 {} (.store ∅)) (.tick (.host trivial _ _ (.tick .here)))
  exact ⟨hreturns, hhalted, hlength Nat.one_pos, hmemory, (hstays hhalted).1⟩

end Machine

end WordMachine
