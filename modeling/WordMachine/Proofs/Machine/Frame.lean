import Mathlib
import WordMachine.Machine.Step
import WordMachine.Proofs.Machine.Memory

/-!
# `Proofs.Machine.Frame` — what an operation leaves alone

Most operations only go on to the next place: they keep the image, the return stack and the halt flag,
and after a fault they keep the place as well. None of them fails the way an unreadable instruction does.

Contents:
* `Fault.isUnreadable`: faults of fetching an instruction;
* `Stack.of_push`, `Stack.of_pop`, `Stack.pop_of_cons`, `Stack.IsRestOf`: what a push or a pop does to a stack;
* `Flag.equal_compared`, `Flag.less_compared`, `Flag.greater_compared`: the flags after a comparison;
* `Machine.Keeps`: parts of operations, host calls included;
* `Operation.goesOn`, `Machine.Moves`, `Machine.perform_moves`;
* `Operation.isBranch`, `Machine.perform_branch`;
* `Machine.placeAfter_eq`, `Machine.toInt_place`, `Machine.toNat_ofInt`: places that do not wrap around;
* `Machine.Flows`, `Machine.Proceeds`, `Machine.perform_proceeds`: places and return places;
* `Machine.withHost`, `Machine.Reaches`, `Machine.HaltsAs`, `stepped`: the states of runs, in which the host may
  change between ticks.
-/

namespace WordMachine

/-- The faults of a place that holds no instruction. -/
def Fault.isUnreadable : Fault → Bool
  | .unknownOpcode _ | .truncated .. => true
  | _ => false

/-- The operations after which the machine goes on at the next place. -/
def Operation.goesOn : Operation → Bool
  | .jmp | .beq | .bne | .bgt | .blt | .jsr | .ret | .halt => false
  | _ => true

/-- The operations that go on at their operand, perhaps only under a condition. -/
def Operation.isBranch : Operation → Bool
  | .jmp | .beq | .bne | .bgt | .blt => true
  | _ => false

/-! ## Regions -/

theorem isUnreadable_of_checkAccess {region : Region} {limit : Nat} {address : UInt64} {size : Int} {f : Fault}
    (h : checkAccess region limit address size = .error f) : f.isUnreadable = false := by
  unfold checkAccess at h
  split at h
  · cases h
  · cases h
    rfl

theorem isUnreadable_of_regionString {region : Region} {limit : Nat} {byteAt : Nat → UInt8} {address : UInt64}
    {f : Fault} (h : regionString region limit byteAt address = .error f) : f.isUnreadable = false := by
  unfold regionString at h
  split at h
  next hcheck =>
    cases h
    exact isUnreadable_of_checkAccess hcheck
  · split at h
    · cases h
    · cases h
      rfl

theorem Memory.isUnreadable_of_load {memory : Memory} {address : UInt64} {size : Int} {f : Fault}
    (h : memory.load address size = .error f) : f.isUnreadable = false := by
  unfold load at h
  split at h
  next hcheck =>
    cases h
    exact isUnreadable_of_checkAccess hcheck
  · cases h

theorem Memory.isUnreadable_of_store {memory : Memory} {address value : UInt64} {size : Int} {f : Fault}
    (h : memory.store address size value = .error f) : f.isUnreadable = false := by
  unfold store at h
  split at h
  next hcheck =>
    cases h
    exact isUnreadable_of_checkAccess hcheck
  · cases h

theorem Memory.isUnreadable_of_write {memory : Memory} {address : UInt64} {data : Bytes} {f : Fault}
    (h : memory.write address data = .error f) : f.isUnreadable = false := by
  unfold write at h
  split at h
  next hcheck =>
    cases h
    exact isUnreadable_of_checkAccess hcheck
  · cases h

/-! ## Stacks -/

namespace Stack

variable {α : Type} {s t : Stack α} {value : α} {f : Fault}

theorem isUnreadable_of_push (h : s.push value = .error f) : f.isUnreadable = false := by
  unfold push at h
  split at h
  · cases h
    rfl
  · cases h

theorem isUnreadable_of_pop (h : s.pop = .error f) : f.isUnreadable = false := by
  unfold pop at h
  split at h
  · cases h
    rfl
  · cases h

/-- A push succeeds on a stack that is not full, and puts the value on top. -/
theorem of_push (h : s.push value = .ok t) :
    s.isFull = false ∧ t.items = value :: s.items ∧ t.limit = s.limit := by
  unfold push at h
  split at h
  · cases h
  next hfull =>
    cases h
    exact ⟨Bool.not_eq_true _ ▸ hfull, rfl, rfl⟩

/-- A pop succeeds on a stack that is not empty, and takes the value on top. -/
theorem of_pop (h : s.pop = .ok (value, t)) : s.items = value :: t.items ∧ t.limit = s.limit := by
  unfold pop at h
  split at h
  · cases h
  next hitems =>
    cases h
    exact ⟨hitems, rfl⟩

/-- A pop fails on an empty stack only. -/
theorem items_of_pop_error (h : s.pop = .error f) : s.items = [] := by
  unfold pop at h
  split at h
  · assumption
  · cases h

theorem push_of_room (h : ¬(0 < s.limit ∧ s.limit ≤ s.items.length)) (value : α) :
    ∃ s', s.push value = .ok s' ∧ s'.items = value :: s.items ∧ s'.limit = s.limit := by
  have hfull : s.isFull = false := by
    rw [isFull, s.depth_eq]
    simpa using h
  rw [push, hfull]
  exact ⟨_, rfl, rfl, rfl⟩

theorem push_of_full (h : 0 < s.limit ∧ s.limit ≤ s.items.length) (value : α) :
    s.push value = .error .stackFull := by
  have hfull : s.isFull = true := by
    rw [isFull, s.depth_eq]
    simpa using h
  rw [push, if_pos hfull]

theorem pop_of_cons {rest : List α} (h : s.items = value :: rest) :
    ∃ s', s.pop = .ok (value, s') ∧ s'.items = rest ∧ s'.limit = s.limit := by
  unfold pop
  split
  next hnil => cases hnil.symm.trans h
  next value' rest' hcons =>
    obtain ⟨rfl, rfl⟩ := List.cons.inj (hcons.symm.trans h)
    exact ⟨_, rfl, rfl, rfl⟩

theorem pop_of_nil (h : s.items = []) : s.pop = .error .stackEmpty := by
  unfold pop
  split
  · rfl
  next hcons => cases hcons.symm.trans h

/-- A stack is what pops have left of another one. -/
structure IsRestOf (t s : Stack α) : Prop where
  items : t.items <:+ s.items
  limit : t.limit = s.limit

theorem isRestOf_self (s : Stack α) : s.IsRestOf s := ⟨List.suffix_rfl, rfl⟩

theorem IsRestOf.trans {u : Stack α} (htu : u.IsRestOf t) (hst : t.IsRestOf s) : u.IsRestOf s :=
  ⟨htu.items.trans hst.items, htu.limit.trans hst.limit⟩

theorem isRestOf_of_pop (h : s.pop = .ok (value, t)) : t.IsRestOf s := by
  obtain ⟨hitems, hlimit⟩ := of_pop h
  exact ⟨⟨[value], hitems.symm⟩, hlimit⟩

end Stack

/-! ## Flags -/

namespace Flag

theorem isSet_compared (flags : UInt8) (ordering : Option Ordering) {flag : UInt8} (h : halt &&& flag = 0) :
    isSet (compared flags ordering) flag = isSet (compared 0 ordering) flag := by
  have hbits (added : UInt8) :
      ((flags &&& halt) ||| added) &&& flag = ((0 &&& halt) ||| added) &&& flag := by
    have hzero := congrArg UInt8.toBitVec h
    apply UInt8.toBitVec_inj.mp
    simp only [UInt8.toBitVec_and, UInt8.toBitVec_or, UInt8.toBitVec_zero] at hzero ⊢
    rw [BitVec.and_or_distrib_right, BitVec.and_or_distrib_right, BitVec.and_assoc, hzero, BitVec.zero_and,
      BitVec.and_zero, BitVec.zero_and]
  unfold isSet compared
  rw [hbits]

theorem equal_compared (flags : UInt8) (ordering : Option Ordering) :
    isSet (compared flags ordering) equal = (ordering == some .eq) := by
  rw [isSet_compared flags ordering (by decide)]
  rcases ordering with _ | _ | _ | _ <;> decide

theorem less_compared (flags : UInt8) (ordering : Option Ordering) :
    isSet (compared flags ordering) less = (ordering == some .lt) := by
  rw [isSet_compared flags ordering (by decide)]
  rcases ordering with _ | _ | _ | _ <;> decide

theorem greater_compared (flags : UInt8) (ordering : Option Ordering) :
    isSet (compared flags ordering) greater = (ordering == some .gt) := by
  rw [isSet_compared flags ordering (by decide)]
  rcases ordering with _ | _ | _ | _ <;> decide

end Flag

namespace Machine

/-! ## Parts of operations -/

theorem reg_setReg (s : Machine) (r r' : Register) (v : UInt64) :
    (s.setReg r v).reg r' = Function.update s.reg r v r' := by
  by_cases h : r' = r
  · subst h
    simp [setReg, reg]
  · have hne : (r : Nat) ≠ r' := fun heq => h (Fin.ext heq.symm)
    rw [Function.update_of_ne h]
    simp [setReg, reg, Vector.getElem_set_ne _ _ hne]

theorem halt_compared (flags : UInt8) (ordering : Option Ordering) :
    Flag.isSet (Flag.compared flags ordering) Flag.halt = Flag.isSet flags Flag.halt := by
  have hbits (added : UInt8) (h : added &&& Flag.halt = 0) :
      ((flags &&& Flag.halt) ||| added) &&& Flag.halt = flags &&& Flag.halt := by
    have hadded := congrArg UInt8.toBitVec h
    apply UInt8.toBitVec_inj.mp
    simp only [UInt8.toBitVec_and, UInt8.toBitVec_or, UInt8.toBitVec_zero] at hadded ⊢
    rw [BitVec.and_or_distrib_right, BitVec.and_assoc, BitVec.and_self, hadded, BitVec.or_zero]
  unfold Flag.isSet Flag.compared
  rw [hbits]
  cases ordering with
  | none => rfl
  | some o => cases o <;> rfl

/-- A part of an operation pops operands and deals with the host. If it succeeds, it may also set the flags
by a comparison and write memory. All else stays as it is. -/
structure Keeps (m : Machine) (r : Machine × Option Fault) : Prop where
  pc : r.1.pc = m.pc
  registers : r.1.registers = m.registers
  returns : r.1.returns = m.returns
  image : r.1.image = m.image
  ticks : r.1.ticks = m.ticks
  operands : r.1.operands.IsRestOf m.operands
  flags : r.1.flags = m.flags ∨ r.2 = none ∧ ∃ ordering, r.1.flags = Flag.compared m.flags ordering
  memory : r.1.memory = m.memory ∨ r.2 = none ∧ r.1.memory.size = m.memory.size
  fault : ∀ f ∈ r.2, f.isUnreadable = false

variable {m : Machine}

theorem Keeps.halt {r : Machine × Option Fault} (h : Keeps m r) :
    Flag.isSet r.1.flags Flag.halt = Flag.isSet m.flags Flag.halt := by
  rcases h.flags with hflags | ⟨-, ordering, hflags⟩
  · rw [hflags]
  · rw [hflags, halt_compared]

theorem keeps_host (console : Console) (files : FileSystem) :
    Keeps m ({ m with console := console, files := files }, none) :=
  ⟨rfl, rfl, rfl, rfl, rfl, m.operands.isRestOf_self, .inl rfl, .inl rfl, by simp⟩

theorem keeps_failure (console : Console) {f : Fault} (hf : f.isUnreadable = false) :
    Keeps m ({ m with console := console }, some f) :=
  ⟨rfl, rfl, rfl, rfl, rfl, m.operands.isRestOf_self, .inl rfl, .inl rfl, by simpa using hf⟩

theorem keeps_fault {f : Fault} (hf : f.isUnreadable = false) : Keeps m (m, some f) :=
  keeps_failure m.console hf

theorem keeps_memory {memory : Memory} (hsize : memory.size = m.memory.size) :
    Keeps m ({ m with memory := memory }, none) :=
  ⟨rfl, rfl, rfl, rfl, rfl, m.operands.isRestOf_self, .inl rfl, .inr ⟨rfl, hsize⟩, by simp⟩

theorem keeps_compared (ordering : Option Ordering) :
    Keeps m ({ m with flags := Flag.compared m.flags ordering }, none) :=
  ⟨rfl, rfl, rfl, rfl, rfl, m.operands.isRestOf_self, .inr ⟨rfl, ordering, rfl⟩, .inl rfl, by simp⟩

/-- What is kept after operands were popped and the console was used is kept altogether. -/
theorem Keeps.after {operands : Stack UInt64} (console : Console) {r : Machine × Option Fault}
    (hrest : operands.IsRestOf m.operands) (h : Keeps { m with operands := operands, console := console } r) :
    Keeps m r :=
  ⟨h.pc, h.registers, h.returns, h.image, h.ticks, h.operands.trans hrest, h.flags, h.memory, h.fault⟩

/-- A load puts its value into the register, zero if it fails, and keeps all else. -/
theorem keeps_loadInto (r : Register) (address : UInt64) (size : Int) :
    Keeps (m.setReg r ((m.memory.load address size).toOption.getD 0)) (m.loadInto r address size) := by
  unfold loadInto
  cases hload : m.memory.load address size with
  | ok value => exact keeps_host m.console m.files
  | error f => exact keeps_fault (Memory.isUnreadable_of_load hload)

theorem keeps_storeAt (address : UInt64) (size : Int) (value : UInt64) :
    Keeps m (m.storeAt address size value) := by
  unfold storeAt
  split
  next hstore => exact keeps_memory (Memory.size_of_store hstore)
  next hstore => exact keeps_fault (Memory.isUnreadable_of_store hstore)

theorem keeps_compareStrings {string : UInt64 → Except Fault Bytes} {a b : UInt64}
    (hstring : ∀ {address f}, string address = .error f → f.isUnreadable = false) :
    Keeps m (m.compareStrings string a b) := by
  unfold compareStrings
  split
  next h => exact keeps_fault (hstring h)
  · split
    next h => exact keeps_fault (hstring h)
    · exact keeps_compared _

theorem keeps_writeMemory (address : UInt64) (data : Bytes) : Keeps m (m.writeMemory address data) := by
  unfold writeMemory
  split
  next h => exact keeps_fault (Memory.isUnreadable_of_write h)
  next h => exact keeps_memory (Memory.size_of_write h)

theorem keeps_copyString (source target : UInt64) : Keeps m (m.copyString source target) := by
  unfold copyString
  split
  next h => exact keeps_fault (isUnreadable_of_regionString h)
  · exact keeps_writeMemory _ _

/-! ## Host calls -/

theorem keeps_print (text : Bytes) : Keeps m (m.print text) := by
  unfold print
  split
  next console _ _ => exact keeps_host console m.files
  next console _ _ _ => exact keeps_failure console rfl

theorem keeps_popping {k : Machine → UInt64 → Machine × Option Fault}
    (hk : ∀ (m : Machine) (value : UInt64), Keeps m (k m value)) : Keeps m (m.popping k) := by
  unfold popping
  split
  next h => exact keeps_fault (Stack.isUnreadable_of_pop h)
  next value rest hpop => exact .after m.console (Stack.isRestOf_of_pop hpop) (hk { m with operands := rest } value)

theorem keeps_printString {string : Machine → UInt64 → Except Fault Bytes}
    (hstring : ∀ {m address f}, string m address = .error f → f.isUnreadable = false) :
    Keeps m (m.printString string) := by
  refine keeps_popping fun m address => ?_
  split
  next h => exact keeps_fault (hstring h)
  · exact keeps_print _

theorem keeps_readLine : Keeps m m.readLine := by
  refine keeps_popping fun m buffer => ?_
  split
  next console _ _ _ => exact keeps_failure console rfl
  next console line _ => exact .after console m.operands.isRestOf_self (keeps_writeMemory buffer _)

theorem keeps_withFile {number : UInt64} {k : Machine → Bytes → UInt64 → Machine × Option Fault}
    (hk : ∀ (m : Machine) (name : Bytes) (buffer : UInt64), Keeps m (k m name buffer)) :
    Keeps m (m.withFile number k) := by
  refine keeps_popping fun m nameAddress => keeps_popping fun m buffer => keeps_popping fun m context => ?_
  split
  next f h =>
    refine keeps_fault ?_
    unfold fileName at h
    split at h
    · exact isUnreadable_of_regionString h
    · exact isUnreadable_of_regionString h
    · cases h
      rfl
  · exact hk _ _ _

theorem keeps_fileRead (name : Bytes) (buffer : UInt64) : Keeps m (m.fileRead name buffer) := by
  unfold fileRead
  split
  · exact keeps_fault rfl
  · exact keeps_writeMemory _ _

theorem keeps_fileWrite (name : Bytes) (buffer : UInt64) : Keeps m (m.fileWrite name buffer) := by
  unfold fileWrite
  split
  next h => exact keeps_fault (isUnreadable_of_regionString h)
  · split
    · exact keeps_fault rfl
    next files _ => exact keeps_host m.console files

theorem keeps_syscall (number : UInt64) : Keeps m (m.syscall number) := by
  unfold syscall
  split
  · exact keeps_fault rfl
  · exact keeps_popping fun _ _ => keeps_print _
  · exact keeps_popping fun _ _ => keeps_print _
  · exact keeps_popping fun _ _ => keeps_print _
  · exact keeps_popping fun _ _ => keeps_print _
  · exact keeps_popping fun _ _ => keeps_print _
  · exact keeps_printString isUnreadable_of_regionString
  · exact keeps_printString isUnreadable_of_regionString
  · exact keeps_readLine
  · exact keeps_withFile fun _ => keeps_fileRead
  · exact keeps_withFile fun _ => keeps_fileWrite

/-! ## Operations -/

/-- An operation goes on at the next place, or stays where it is after a fault; it keeps the halt flag,
the return stack and the image. -/
structure Moves (m : Machine) (next : Int) (r : Machine × Option Fault) : Prop where
  pc : r.1.pc = if r.2.isNone then next else m.pc
  halt : Flag.isSet r.1.flags Flag.halt = Flag.isSet m.flags Flag.halt
  returns : r.1.returns = m.returns
  image : r.1.image = m.image
  fault : ∀ f ∈ r.2, f.isUnreadable = false

theorem moves_andThen {r : Machine × Option Fault} (h : Keeps m r) (next : Int) :
    Moves m next (andThen r next) := by
  obtain ⟨m', f⟩ := r
  cases f with
  | none => exact ⟨rfl, h.halt, h.returns, h.image, nofun⟩
  | some f => exact ⟨h.pc, h.halt, h.returns, h.image, h.fault⟩

theorem perform_moves {op : Operation} (hop : op.goesOn = true) (dst src : Register) (imm : UInt64) (next : Int) :
    Moves m next (m.perform op dst src imm next) := by
  have hset (value : UInt64) : Moves m next ((m.setReg dst value).goOn next) := ⟨rfl, rfl, rfl, rfl, nofun⟩
  have hfault {f : Fault} (hf : f.isUnreadable = false) : Moves m next (m, some f) :=
    ⟨rfl, rfl, rfl, rfl, fun _ h => Option.some.inj h ▸ hf⟩
  have hload (address : UInt64) (size : Int) : Moves m next (andThen (m.loadInto dst address size) next) := by
    obtain ⟨hpc, hhalt, hreturns, himage, hf⟩ := moves_andThen (keeps_loadInto dst address size) next
    exact ⟨hpc, hhalt, hreturns, himage, hf⟩
  cases op with
  | mov | adr | cpy | iadd | isub | imul | dadd | dsub | dmul | ddiv | icst | dcst | shl | shr | and | or | neg
  | pow | root => exact hset _
  | ldr | indl | lei | lst | ltt | lsf => exact hload _ _
  | str | inds | sei | sst | stt | ssf => exact moves_andThen (keeps_storeAt _ _ _) next
  | push =>
    simp only [perform]
    split
    next h => exact hfault (Stack.isUnreadable_of_push h)
    · exact ⟨rfl, rfl, rfl, rfl, nofun⟩
  | pop =>
    simp only [perform]
    split
    next h => exact hfault (Stack.isUnreadable_of_pop h)
    · exact ⟨rfl, rfl, rfl, rfl, nofun⟩
  | idiv =>
    simp only [perform]
    split
    · exact hfault rfl
    · exact hset _
  | icmp | dcmp => exact ⟨rfl, halt_compared _ _, rfl, rfl, nofun⟩
  | sys | call => exact moves_andThen (keeps_syscall _) next
  | bufc => exact moves_andThen (keeps_copyString _ _) next
  | bseq => exact moves_andThen (keeps_compareStrings isUnreadable_of_regionString) next
  | lseq => exact moves_andThen (keeps_compareStrings isUnreadable_of_regionString) next
  | jmp | beq | bne | bgt | blt | jsr | ret | halt => cases hop

/-- A branch goes on at its target or at the next place, and changes nothing else; a jump goes on at its
target. -/
theorem perform_branch {op : Operation} (hop : op.isBranch = true) (dst src : Register) (imm : UInt64) (next : Int) :
    ∃ taken : Bool, (op = .jmp → taken = true) ∧ m.perform op dst src imm next =
      ({ m with pc := if taken then imm.toInt64.toInt else next }, none) := by
  cases op with
  | jmp => exact ⟨true, fun _ => rfl, rfl⟩
  | beq | bne | bgt | blt => exact ⟨_, nofun, rfl⟩
  | _ => cases hop

/-! ## Places -/

/-- Places below `2 ^ 32` do not wrap around. -/
theorem placeAfter_eq {place width : Nat} (h : place + width < UInt32.size + 16) :
    placeAfter place width = ((place + width : Nat) : Int) := by
  have hlt : (place : Int) + width < 4294967312 := by exact_mod_cast h
  rw [placeAfter, Int64.toInt_ofInt_of_le (by omega) (by omega), Nat.cast_add]

theorem toInt_place {v : UInt64} (h : v.toNat < UInt32.size) : v.toInt64.toInt = v.toNat := by
  calc v.toInt64.toInt
      = (UInt64.ofNat v.toNat).toInt64.toInt := by rw [UInt64.ofNat_toNat]
    _ = (Int64.ofNat v.toNat).toInt := by rw [UInt64.toInt64_ofNat']
    _ = v.toNat := Int64.toInt_ofNat_of_lt (Nat.lt_trans h (by decide))

theorem toNat_ofInt {n : Nat} (h : n < UInt32.size) : (UInt32.ofInt n).toNat = n := by
  have hlt : (n : Int) < 2 ^ 32 := by exact_mod_cast h
  have hmod : ((n : Int) % 2 ^ 32).toNat = n := by
    rw [Int.emod_eq_of_lt (Int.natCast_nonneg n) hlt, Int.toNat_natCast]
  rw [UInt32.ofInt, hmod, UInt32.toNat_ofNat_of_lt' h]

/-! ## Control flow -/

/-- Where an operation goes on and what it does to the return places, given the next place and the target
that its operand names. -/
inductive Flows (next target : Int) : Operation → List UInt32 → Int → List UInt32 → Prop where
  | goesOn {op : Operation} {returns : List UInt32} (hop : op.goesOn = true) :
      Flows next target op returns next returns
  | falls {op : Operation} {returns : List UInt32} (hop : op.isBranch = true) (hjmp : op ≠ .jmp) :
      Flows next target op returns next returns
  | taken {op : Operation} {returns : List UInt32} (hop : op.isBranch = true) :
      Flows next target op returns target returns
  | calls {returns : List UInt32} : Flows next target .jsr returns target (UInt32.ofInt next :: returns)
  | returns {r : UInt32} {returns : List UInt32} : Flows next target .ret (r :: returns) r.toNat returns

/-- An operation flows on, or stays where it is after a fault; it keeps the halt flag and the image. -/
structure Proceeds (m : Machine) (op : Operation) (next target : Int) (r : Machine × Option Fault) : Prop where
  halt : Flag.isSet r.1.flags Flag.halt = Flag.isSet m.flags Flag.halt
  image : r.1.image = m.image
  flows (h : r.2 = none) : Flows next target op m.returns.items r.1.pc r.1.returns.items
  stays {f : Fault} (h : r.2 = some f) : r.1.pc = m.pc ∧ r.1.returns = m.returns
  readable {f : Fault} (h : r.2 = some f) : f.isUnreadable = false
  returnless {f : Fault} (h : r.2 = some f) (hop : op = .ret) : m.returns.items = []

theorem proceeds_of_moves {op : Operation} {next target : Int} {r : Machine × Option Fault}
    (hop : op.goesOn = true) (h : Moves m next r) : Proceeds m op next target r where
  halt := h.halt
  image := h.image
  flows hnone := by
    rw [h.returns, h.pc, hnone]
    exact .goesOn hop
  stays hsome := ⟨by rw [h.pc, hsome]; rfl, h.returns⟩
  readable hsome := h.fault _ hsome
  returnless _ hret := by
    subst hret
    cases hop

theorem proceeds_jumpSubroutine (next target : Int) :
    Proceeds m .jsr next target (m.jumpSubroutine next target) := by
  unfold jumpSubroutine
  split
  next f hpush =>
    exact {
      halt := rfl
      image := rfl
      flows := nofun
      stays := fun _ => ⟨rfl, rfl⟩
      readable := fun h => Option.some.inj h ▸ Stack.isUnreadable_of_push hpush
      returnless := fun _ h => nomatch h }
  next returns hpush =>
    refine ⟨rfl, rfl, fun _ => ?_, nofun, nofun, nofun⟩
    obtain ⟨-, hitems, -⟩ := Stack.of_push hpush
    show Flows next target .jsr m.returns.items target returns.items
    rw [hitems]
    exact .calls

theorem proceeds_returnSubroutine (next target : Int) : Proceeds m .ret next target m.returnSubroutine := by
  unfold returnSubroutine
  split
  next f hpop =>
    exact {
      halt := rfl
      image := rfl
      flows := nofun
      stays := fun _ => ⟨rfl, rfl⟩
      readable := fun h => Option.some.inj h ▸ Stack.isUnreadable_of_pop hpop
      returnless := fun _ _ => Stack.items_of_pop_error hpop }
  next place returns hpop =>
    refine ⟨rfl, rfl, fun _ => ?_, nofun, nofun, nofun⟩
    obtain ⟨hitems, -⟩ := Stack.of_pop hpop
    show Flows next target .ret m.returns.items place.toNat returns.items
    rw [hitems]
    exact .returns

/-- What any operation but the last does to the place and the return stack. -/
theorem perform_proceeds {op : Operation} (hop : op ≠ .halt) (dst src : Register) (imm : UInt64) (next : Int) :
    Proceeds m op next imm.toInt64.toInt (m.perform op dst src imm next) := by
  cases hgoes : op.goesOn with
  | true => exact proceeds_of_moves hgoes (perform_moves hgoes dst src imm next)
  | false =>
    cases hbranch : op.isBranch with
    | true =>
      obtain ⟨taken, hjmp, htaken⟩ := @perform_branch m op hbranch dst src imm next
      rw [htaken]
      refine ⟨rfl, rfl, fun _ => ?_, nofun, nofun, nofun⟩
      cases taken with
      | true => exact .taken hbranch
      | false => exact .falls hbranch fun h => Bool.noConfusion (hjmp h)
    | false =>
      cases op with
      | jsr => exact proceeds_jumpSubroutine next _
      | ret => exact proceeds_returnSubroutine next _
      | halt => exact absurd rfl hop
      | jmp | beq | bne | bgt | blt => cases hbranch
      | _ => cases hgoes

/-! ## Runs -/

theorem isSet_halt (flags : UInt8) : Flag.isSet (flags ||| Flag.halt) Flag.halt = true := by
  have hbits : (flags ||| Flag.halt) &&& Flag.halt = Flag.halt := by
    apply UInt8.toBitVec_inj.mp
    ext i hi
    simp only [UInt8.toBitVec_and, UInt8.toBitVec_or, BitVec.getElem_and, BitVec.getElem_or]
    grind
  rw [Flag.isSet, hbits]
  rfl

/-- A halted machine stays as it is. -/
theorem tick_of_halted {m : Machine} (h : m.isHalted = true) : m.tick = (m, .halted) := by
  rw [tick, if_pos h]

/-- A machine with another host around it. -/
def withHost (m : Machine) (console : Console) (files : FileSystem) : Machine :=
  { m with console := console, files := files }

/-- The machines that ticks lead to. Where `changes` holds, the host may at any time give other input, take the
output elsewhere and change files, so that whatever it answers to a tick is among the runs. -/
inductive Reaches (changes : Prop) (m : Machine) : Machine → Prop where
  | here : Reaches changes m m
  | tick {s : Machine} (h : Reaches changes m s) : Reaches changes m s.tick.1
  | host {s : Machine} (hchanges : changes) (console : Console) (files : FileSystem) (h : Reaches changes m s) :
      Reaches changes m (s.withHost console files)

/-- A machine has performed a `halt` in the last bytes of the image. -/
def HaltsAs (changes : Prop) (m s : Machine) : Prop :=
  ∃ s' s'', m.Reaches changes s' ∧ s'.fetch = .ok ⟨.of .halt, 0, 0, 0⟩ ∧ s'.pc + 2 = s'.image.size ∧
    s'.tick = (s'', .ran) ∧ s''.Reaches changes s

end Machine

/-- The state that a number of steps lead to, and what each of them returned. -/
def stepped {σ ρ : Type} (step : σ → σ × ρ) : Nat → σ → σ × List ρ
  | 0, s => (s, [])
  | k + 1, s => ((stepped step k (step s).1).1, (step s).2 :: (stepped step k (step s).1).2)

end WordMachine
