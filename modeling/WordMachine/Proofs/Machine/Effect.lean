import Mathlib
import WordMachine.Machine.Request
import WordMachine.Proofs.Machine.Fault

/-!
# `Proofs.Machine.Effect` — what a tick that runs changes

Each operation that succeeds does one of few things: it fills a register, writes memory, compares, goes
elsewhere, uses one of the stacks, calls the host or halts. What it does not do stays as it was, so each part of
the machine is changed by few operations only, and memory only where the operation addresses it.

Contents:
* `Operation.fills`, `Operation.writes`, `Operation.compares`: operations that do one thing only;
* `Syscall.arity`, `Memory.Within`, `Machine.of_withFile`, `Machine.received?`, `Machine.Served`,
  `Machine.served_of_syscall`: host calls;
* `Machine.addressed?`, `Machine.hostCall?`, `Machine.jumps`: what an operation addresses, calls and goes to;
* `Machine.Does`, `Machine.does_of_perform`: all that an operation can do;
* `Machine.Does.reg_eq` to `Machine.Does.image_eq`: what that leaves as it was;
* `Machine.placeAfter_of_fetch`, `Machine.ran_frame`: ticks.
-/

namespace WordMachine

/-- How many operands a host call takes. -/
def Syscall.arity : Syscall → Nat
  | .fileRead | .fileWrite => 3
  | _ => 1

namespace Operation

/-- The operations that only put a value into a register. -/
def fills : Operation → Bool
  | .mov | .adr | .ldr | .indl | .cpy | .iadd | .isub | .imul | .idiv | .dadd | .dsub | .dmul | .ddiv | .icst | .dcst
  | .shl | .shr | .and | .or | .neg | .lei | .lst | .ltt | .lsf | .pow | .root => true
  | _ => false

/-- The operations that only write memory. -/
def writes : Operation → Bool
  | .str | .inds | .sei | .sst | .stt | .ssf | .bufc => true
  | _ => false

/-- The operations that only set the flags by a comparison. -/
def compares : Operation → Bool
  | .icmp | .dcmp | .bseq | .lseq => true
  | _ => false

end Operation

/-! ## Memory -/

namespace Memory

variable {m m' : Memory}

/-- Memory differs from another one within a range of addresses only, which is told by its start and its
length. -/
structure Within (m m' : Memory) (range? : Option (UInt64 × Nat)) : Prop where
  size : m'.size = m.size
  byte (place : Nat) (h : ∀ start n, range? = some (start, n) → place < start.toNat ∨ start.toNat + n ≤ place) :
    m'.byte place = m.byte place

theorem within_self (m : Memory) (range? : Option (UInt64 × Nat)) : Within m m range? := ⟨rfl, fun _ _ => rfl⟩

theorem within_write {address : UInt64} {data : Bytes} {n : Nat} (h : m.write address data = .ok m')
    (hn : data.length = n) : Within m m' (some (address, n)) := by
  refine ⟨size_of_write h, fun place hplace => ?_⟩
  unfold write at h
  split at h
  · cases h
  · cases h
    rw [byte_put]
    rcases hplace address n rfl with hlt | hle
    · rw [if_neg (by omega)]
    · rw [if_pos (by omega), List.getElem?_eq_none (by omega), Option.getD_none]

theorem within_store {address value : UInt64} {n : Nat} (h : m.store address n value = .ok m') :
    Within m m' (some (address, n)) := by
  rw [store_eq_write] at h
  exact within_write h (length_littleEndian _ _)

end Memory

namespace Machine

variable {m m' : Machine}

/-! ## Parts of operations that succeed -/

theorem of_andThen {r : Machine × Option Fault} {next : Int} (h : andThen r next = (m', none)) :
    ∃ m₁, r = (m₁, none) ∧ m' = { m₁ with pc := next } := by
  obtain ⟨m₁, fault?⟩ := r
  cases fault? with
  | none => exact ⟨m₁, rfl, (congrArg Prod.fst h).symm⟩
  | some f => cases h

theorem of_loadInto {r : Register} {address : UInt64} {size : Int} (h : m.loadInto r address size = (m', none)) :
    ∃ value, m' = m.setReg r value := by
  unfold loadInto at h
  split at h
  next value _ => exact ⟨value, (congrArg Prod.fst h).symm⟩
  · cases h

theorem of_storeAt {address value : UInt64} {n : Nat} (h : m.storeAt address n value = (m', none)) :
    ∃ memory, m.memory.Within memory (some (address, n)) ∧ m' = { m with memory := memory } := by
  unfold storeAt at h
  split at h
  next memory hstore => exact ⟨memory, Memory.within_store hstore, (congrArg Prod.fst h).symm⟩
  · cases h

theorem of_writeMemory {address : UInt64} {data : Bytes} (h : m.writeMemory address data = (m', none)) :
    ∃ memory, m.memory.Within memory (some (address, data.length)) ∧ m' = { m with memory := memory } := by
  unfold writeMemory at h
  split at h
  · cases h
  next memory hwrite => exact ⟨memory, Memory.within_write hwrite rfl, (congrArg Prod.fst h).symm⟩

theorem of_copyString {source target : UInt64} (h : m.copyString source target = (m', none)) :
    ∃ text memory, m.image.string source = .ok text ∧
      m.memory.Within memory (some (target, text.length + 1)) ∧ m' = { m with memory := memory } := by
  unfold copyString at h
  split at h
  · cases h
  next text htext =>
    obtain ⟨memory, hmemory, hm'⟩ := of_writeMemory h
    rw [List.length_append] at hmemory
    exact ⟨text, memory, htext, hmemory, hm'⟩

theorem of_compareStrings {string : UInt64 → Except Fault Bytes} {a b : UInt64}
    (h : m.compareStrings string a b = (m', none)) :
    ∃ ordering, m' = { m with flags := Flag.compared m.flags ordering } := by
  unfold compareStrings at h
  split at h
  · cases h
  · split at h
    · cases h
    · exact ⟨_, (congrArg Prod.fst h).symm⟩

theorem of_print {text : Bytes} (h : m.print text = (m', none)) : ∃ console, m' = { m with console := console } := by
  unfold print at h
  split at h
  next console _ _ => exact ⟨console, (congrArg Prod.fst h).symm⟩
  · cases h

theorem of_popping {k : Machine → UInt64 → Machine × Option Fault} (h : m.popping k = (m', none)) :
    ∃ value rest, m.operands.items = value :: rest.items ∧ rest.limit = m.operands.limit ∧
      k { m with operands := rest } value = (m', none) := by
  unfold popping at h
  split at h
  · cases h
  next value rest hpop =>
    obtain ⟨hitems, hlimit⟩ := Stack.of_pop hpop
    exact ⟨value, rest, hitems, hlimit, h⟩

/-- A call about a file takes the address of its name, a buffer and the context of the name. -/
theorem of_withFile {number : UInt64} {k : Machine → Bytes → UInt64 → Machine × Option Fault}
    (h : m.withFile number k = (m', none)) :
    ∃ nameAddress buffer context rest name, m.operands.items = nameAddress :: buffer :: context :: rest.items ∧
      rest.limit = m.operands.limit ∧ m.fileName number context nameAddress = .ok name ∧
      k { m with operands := rest } name buffer = (m', none) := by
  obtain ⟨nameAddress, rest₁, hitems₁, hlimit₁, h⟩ := of_popping h
  obtain ⟨buffer, rest₂, hitems₂, hlimit₂, h⟩ := of_popping h
  obtain ⟨context, rest₃, hitems₃, hlimit₃, h⟩ := of_popping h
  dsimp only at hitems₂ hlimit₂ hitems₃ hlimit₃
  split at h
  · cases h
  next name hname =>
    -- each pop starts from what the one before it left
    refine ⟨nameAddress, buffer, context, rest₃, name, ?_, hlimit₃.trans (hlimit₂.trans hlimit₁), hname, h⟩
    rw [hitems₁, hitems₂, hitems₃]

/-! ## Host calls -/

/-- The range of memory that a host call puts bytes into: a line of input or the contents of a file, with a zero
byte after them. -/
def received? (m : Machine) (number : UInt64) : Option (UInt64 × Nat) :=
  match Syscall.ofNumber? number with
  | some .readLine => m.operands.items[0]?.map fun buffer => (buffer, m.console.readLine.2.1.length + 1)
  | some .fileRead =>
      m.operands.items[1]?.bind fun buffer =>
        (m.namedFile? number).bind fun name =>
          (m.files.read name).toOption.map fun data => (buffer, data.length + 1)
  | _ => none

/-- A host call has taken its operands, dealt with the host and perhaps put bytes into memory. -/
structure Served (m : Machine) (number : UInt64) (m' : Machine) : Prop where
  rest : ∃ operands memory console files,
    m' = { m with operands := operands, memory := memory, console := console, files := files }
  popped : ∃ call popped, Syscall.ofNumber? number = some call ∧
    m.operands.items = popped ++ m'.operands.items ∧ popped.length = call.arity
  limit : m'.operands.limit = m.operands.limit
  memory : m.memory.Within m'.memory (m.received? number)

theorem served_of_printing {number : UInt64} {call : Syscall} {k : Machine → UInt64 → Machine × Option Fault}
    (hcall : Syscall.ofNumber? number = some call) (harity : call.arity = 1)
    (hk : ∀ {m m' : Machine} {value : UInt64}, k m value = (m', none) →
      ∃ console, m' = { m with console := console })
    (h : m.popping k = (m', none)) : Served m number m' := by
  obtain ⟨value, rest, hitems, hlimit, h⟩ := of_popping h
  obtain ⟨console, rfl⟩ := hk h
  exact ⟨⟨rest, m.memory, console, m.files, rfl⟩, ⟨call, [value], hcall, hitems, harity.symm⟩, hlimit,
    Memory.within_self _ _⟩

theorem served_of_readLine {number : UInt64} (hcall : Syscall.ofNumber? number = some .readLine)
    (h : m.readLine = (m', none)) : Served m number m' := by
  obtain ⟨buffer, rest, hitems, hlimit, h⟩ := of_popping h
  have hrange : m.received? number = some (buffer, m.console.readLine.2.1.length + 1) := by
    simp only [received?, hcall, hitems]
    rfl
  generalize m.console.readLine = r at h hrange
  obtain ⟨console, line, failure⟩ := r
  cases failure with
  | some failure => cases h
  | none =>
    obtain ⟨memory, hmemory, rfl⟩ := of_writeMemory h
    refine ⟨⟨rest, memory, console, m.files, rfl⟩, ⟨_, [buffer], hcall, hitems, rfl⟩, hlimit, ?_⟩
    rw [hrange]
    rwa [List.length_append] at hmemory

/-- The calls that name a file take three operands, and the one that reads puts the contents into memory. -/
theorem served_of_withFile {number : UInt64} {call : Syscall}
    {k : Machine → Bytes → UInt64 → Machine × Option Fault}
    (hcall : Syscall.ofNumber? number = some call) (harity : call.arity = 3)
    (hk : ∀ {m₁ m' : Machine} {name : Bytes} {buffer : UInt64}, k m₁ name buffer = (m', none) →
      ∃ memory files, m' = { m₁ with memory := memory, files := files } ∧
        ∀ range?, (call = .fileRead → range? =
          (m₁.files.read name).toOption.map fun data => (buffer, data.length + 1)) →
            m₁.memory.Within memory range?)
    (h : m.withFile number k = (m', none)) : Served m number m' := by
  obtain ⟨nameAddress, buffer, context, rest, name, hitems, hlimit, hname, h⟩ := of_withFile h
  have hnamed : m.namedFile? number = some name := by
    simp only [namedFile?, hitems, hname]
    rfl
  obtain ⟨memory, files, rfl, hmemory⟩ := hk h
  refine ⟨⟨rest, memory, m.console, files, rfl⟩, ⟨call, [nameAddress, buffer, context], hcall, hitems,
    harity.symm⟩, hlimit, hmemory _ fun hread => ?_⟩
  simp only [received?, hcall, hread, hitems, hnamed]
  rfl

/-- What a host call that succeeds has done. -/
theorem served_of_syscall {number : UInt64} (h : m.syscall number = (m', none)) : Served m number m' := by
  cases hcall : Syscall.ofNumber? number with
  | none =>
    simp only [syscall, hcall] at h
    cases h
  | some call =>
    simp only [syscall, hcall] at h
    cases call with
    | printInt | printBin | printHex | printFloat | printSigned => exact served_of_printing hcall rfl of_print h
    | printStr | printBuf =>
      refine served_of_printing hcall rfl (fun {m m' address} hk => ?_) h
      split at hk
      · cases hk
      · exact of_print hk
    | readLine => exact served_of_readLine hcall h
    | fileRead =>
      refine served_of_withFile hcall rfl (fun {m₁ m' name buffer} hk => ?_) h
      unfold fileRead at hk
      split at hk
      · cases hk
      next data hread =>
        obtain ⟨memory, hmemory, rfl⟩ := of_writeMemory hk
        refine ⟨memory, m₁.files, rfl, fun range? hrange => ?_⟩
        rw [hrange rfl, hread]
        rwa [List.length_append] at hmemory
    | fileWrite =>
      refine served_of_withFile hcall rfl (fun {m₁ m' name buffer} hk => ?_) h
      unfold fileWrite at hk
      split at hk
      · cases hk
      · split at hk
        · cases hk
        next files _ =>
          cases hk
          exact ⟨m₁.memory, files, rfl, fun range? _ => Memory.within_self _ _⟩

/-! ## Operations -/

/-- The range of memory that an operation addresses to change it. -/
def addressed? (m : Machine) (op : Operation) (dst src : Register) (imm : UInt64) : Option (UInt64 × Nat) :=
  match op with
  | .str => some (imm, 1)
  | .inds => some (imm + m.reg src, 1)
  | .sei => some (m.reg src, 1)
  | .sst => some (m.reg src, 2)
  | .stt => some (m.reg src, 4)
  | .ssf => some (m.reg src, 8)
  | .bufc => (m.image.string (m.reg dst)).toOption.map fun text => (m.reg src, text.length + 1)
  | .sys => m.received? imm
  | .call => m.received? (m.reg dst)
  | _ => none

/-- The number of the host call that an operation makes. -/
def hostCall? (m : Machine) (op : Operation) (dst : Register) (imm : UInt64) : Option UInt64 :=
  match op with
  | .sys => some imm
  | .call => some (m.reg dst)
  | _ => none

/-- Whether an operation goes on at the place that its operand names. -/
def jumps (m : Machine) (op : Operation) : Bool :=
  match op with
  | .jmp | .jsr => true
  | .beq => Flag.isSet m.flags Flag.equal
  | .bne => !Flag.isSet m.flags Flag.equal
  | .bgt => Flag.isSet m.flags Flag.greater
  | .blt => Flag.isSet m.flags Flag.less
  | _ => false

/-- All that an operation can do when it succeeds; `next` is the place after it. -/
inductive Does (m : Machine) (dst src : Register) (imm : UInt64) (next : Int) : Operation → Machine → Prop where
  | fills {op : Operation} (hop : op.fills = true) (value : UInt64) :
      Does m dst src imm next op { m.setReg dst value with pc := next }
  | writes {op : Operation} {memory : Memory} {start : UInt64} {n : Nat} (hop : op.writes = true)
      (hrange : m.addressed? op dst src imm = some (start, n)) (h : m.memory.Within memory (some (start, n))) :
      Does m dst src imm next op { m with memory := memory, pc := next }
  | compares {op : Operation} (hop : op.compares = true) (ordering : Option Ordering) :
      Does m dst src imm next op { m with flags := Flag.compared m.flags ordering, pc := next }
  | branches {op : Operation} (hop : op.isBranch = true) :
      Does m dst src imm next op { m with pc := if m.jumps op then imm.toInt64.toInt else next }
  | pushes {operands : Stack UInt64} (h : operands.items = m.reg dst :: m.operands.items)
      (hlimit : operands.limit = m.operands.limit) :
      Does m dst src imm next .push { m with operands := operands, pc := next }
  | pops {value : UInt64} {operands : Stack UInt64} (h : m.operands.items = value :: operands.items)
      (hlimit : operands.limit = m.operands.limit) :
      Does m dst src imm next .pop { { m with operands := operands }.setReg dst value with pc := next }
  | calls {returns : Stack UInt32} (h : returns.items = UInt32.ofInt next :: m.returns.items)
      (hlimit : returns.limit = m.returns.limit) :
      Does m dst src imm next .jsr { m with returns := returns, pc := imm.toInt64.toInt }
  | returns {place : UInt32} {returns : Stack UInt32} (h : m.returns.items = place :: returns.items)
      (hlimit : returns.limit = m.returns.limit) :
      Does m dst src imm next .ret { m with returns := returns, pc := place.toNat }
  | hosts {op : Operation} {number : UInt64} {m₁ : Machine} (hop : m.hostCall? op dst imm = some number)
      (h : Served m number m₁) : Does m dst src imm next op { m₁ with pc := next }
  | halts : Does m dst src imm next .halt { m with flags := m.flags ||| Flag.halt, pc := next }

variable {op : Operation} {dst src : Register} {imm : UInt64} {next : Int}

theorem does_of_loadInto {address : UInt64} {size : Int} (hop : op.fills = true)
    (h : andThen (m.loadInto dst address size) next = (m', none)) : Does m dst src imm next op m' := by
  obtain ⟨m₁, hload, rfl⟩ := of_andThen h
  obtain ⟨value, rfl⟩ := of_loadInto hload
  exact .fills hop value

theorem does_of_storeAt {address value : UInt64} {n : Nat} (hop : op.writes = true)
    (hrange : m.addressed? op dst src imm = some (address, n))
    (h : andThen (m.storeAt address n value) next = (m', none)) : Does m dst src imm next op m' := by
  obtain ⟨m₁, hstore, rfl⟩ := of_andThen h
  obtain ⟨memory, hmemory, rfl⟩ := of_storeAt hstore
  exact .writes hop hrange hmemory

theorem does_of_compareStrings {string : UInt64 → Except Fault Bytes} {a b : UInt64} (hop : op.compares = true)
    (h : andThen (m.compareStrings string a b) next = (m', none)) : Does m dst src imm next op m' := by
  obtain ⟨m₁, hcompare, rfl⟩ := of_andThen h
  obtain ⟨ordering, rfl⟩ := of_compareStrings hcompare
  exact .compares hop ordering

theorem does_of_syscall {number : UInt64} (hop : m.hostCall? op dst imm = some number)
    (h : andThen (m.syscall number) next = (m', none)) : Does m dst src imm next op m' := by
  obtain ⟨m₁, hcall, rfl⟩ := of_andThen h
  exact .hosts hop (served_of_syscall hcall)

theorem does_of_perform (h : m.perform op dst src imm next = (m', none)) : Does m dst src imm next op m' := by
  -- one constructor of `Does` for each group of operations that change the same parts
  cases op with
  | mov | adr | cpy | iadd | isub | imul | dadd | dsub | dmul | ddiv | icst | dcst | shl | shr | and | or | neg
  | pow | root =>
    obtain rfl := congrArg Prod.fst h
    exact .fills rfl _
  | ldr | indl | lei | lst | ltt | lsf => exact does_of_loadInto rfl h
  | str | inds | sei | sst | stt | ssf => exact does_of_storeAt rfl rfl h
  | icmp | dcmp =>
    obtain rfl := congrArg Prod.fst h
    exact .compares rfl _
  | jmp | beq | bne | bgt | blt =>
    obtain rfl := congrArg Prod.fst h
    exact .branches rfl
  | sys | call => exact does_of_syscall rfl h
  | bseq | lseq => exact does_of_compareStrings rfl h
  | halt =>
    obtain rfl := congrArg Prod.fst h
    exact .halts
  | idiv =>
    simp only [perform] at h
    split at h
    · cases h
    · obtain rfl := congrArg Prod.fst h
      exact .fills rfl _
  | push =>
    simp only [perform] at h
    split at h
    · cases h
    next hpush =>
      obtain ⟨-, hitems, hlimit⟩ := Stack.of_push hpush
      obtain rfl := congrArg Prod.fst h
      exact .pushes hitems hlimit
  | pop =>
    simp only [perform] at h
    split at h
    · cases h
    next hpop =>
      obtain ⟨hitems, hlimit⟩ := Stack.of_pop hpop
      obtain rfl := congrArg Prod.fst h
      exact .pops hitems hlimit
  | jsr =>
    simp only [perform, jumpSubroutine] at h
    split at h
    · cases h
    next hpush =>
      obtain ⟨-, hitems, hlimit⟩ := Stack.of_push hpush
      obtain rfl := congrArg Prod.fst h
      exact .calls hitems hlimit
  | ret =>
    simp only [perform, returnSubroutine] at h
    split at h
    · cases h
    next hpop =>
      obtain ⟨hitems, hlimit⟩ := Stack.of_pop hpop
      obtain rfl := congrArg Prod.fst h
      exact .returns hitems hlimit
  | bufc =>
    obtain ⟨m₁, hcopy, rfl⟩ := of_andThen h
    obtain ⟨text, memory, htext, hmemory, rfl⟩ := of_copyString hcopy
    refine .writes rfl ?_ hmemory
    rw [addressed?, htext]
    rfl

/-! ## What stays -/

namespace Does

/-- Only the destination register may change. -/
theorem reg_eq (h : Does m dst src imm next op m') {r : Register} (hr : r ≠ dst) : m'.reg r = m.reg r := by
  have hset (m : Machine) (value : UInt64) : (m.setReg dst value).reg r = m.reg r := by
    rw [reg_setReg, Function.update_of_ne hr]
  cases h with
  | fills _ value => exact hset m value
  | pops => exact hset _ _
  | hosts _ hserved =>
    obtain ⟨_, _, _, _, rfl⟩ := hserved.rest
    rfl
  | writes | compares | branches | pushes | calls | returns | halts => rfl

/-- Memory changes only where the operation addresses it. -/
theorem memory_within (h : Does m dst src imm next op m') :
    m.memory.Within m'.memory (m.addressed? op dst src imm) := by
  cases h with
  | writes _ hrange hmemory =>
    rw [hrange]
    exact hmemory
  | @hosts _ number m₁ hcall hserved =>
    have hrange : m.addressed? op dst src imm = m.received? number := by
      unfold hostCall? at hcall
      split at hcall <;> cases hcall <;> rfl
    rw [hrange]
    exact hserved.memory
  | fills | compares | branches | pushes | pops | calls | returns | halts => exact Memory.within_self _ _

theorem flags_eq (h : Does m dst src imm next op m') (hcompares : op.compares = false) (hhalt : op ≠ .halt) :
    m'.flags = m.flags := by
  cases h with
  | compares hop =>
    rw [hop] at hcompares
    cases hcompares
  | halts => exact absurd rfl hhalt
  | hosts _ hserved =>
    obtain ⟨_, _, _, _, rfl⟩ := hserved.rest
    rfl
  | fills | writes | branches | pushes | pops | calls | returns => rfl

/-- The halt flag is never cleared, and one operation sets it. -/
theorem halt_eq (h : Does m dst src imm next op m') :
    Flag.isSet m'.flags Flag.halt = (Flag.isSet m.flags Flag.halt || decide (op = .halt)) := by
  by_cases hhalt : op = .halt
  · subst hhalt
    rw [decide_eq_true rfl, Bool.or_true]
    cases h with
    | halts => exact isSet_halt _
    | fills hop | writes hop | compares hop | branches hop | hosts hop => cases hop
  · rw [decide_eq_false hhalt, Bool.or_false]
    cases h with
    | compares => exact halt_compared _ _
    | halts => exact absurd rfl hhalt
    | hosts _ hserved =>
      obtain ⟨_, _, _, _, rfl⟩ := hserved.rest
      rfl
    | fills | writes | branches | pushes | pops | calls | returns => rfl

theorem returns_eq (h : Does m dst src imm next op m') (hjsr : op ≠ .jsr) (hret : op ≠ .ret) :
    m'.returns = m.returns := by
  cases h with
  | calls => exact absurd rfl hjsr
  | returns => exact absurd rfl hret
  | hosts _ hserved =>
    obtain ⟨_, _, _, _, rfl⟩ := hserved.rest
    rfl
  | fills | writes | compares | branches | pushes | pops | halts => rfl

theorem returns_call (h : Does m dst src imm next .jsr m') :
    m'.returns.items = UInt32.ofInt next :: m.returns.items := by
  cases h with
  | calls hitems => exact hitems
  | fills hop | writes hop | compares hop | branches hop | hosts hop => cases hop

theorem returns_return (h : Does m dst src imm next .ret m') :
    ∃ place, m.returns.items = place :: m'.returns.items ∧ m'.pc = place.toNat := by
  cases h with
  | @returns place _ hitems => exact ⟨place, hitems, rfl⟩
  | fills hop | writes hop | compares hop | branches hop | hosts hop => cases hop

theorem operands_eq (h : Does m dst src imm next op m') (hpush : op ≠ .push) (hpop : op ≠ .pop)
    (hcall : m.hostCall? op dst imm = none) : m'.operands = m.operands := by
  cases h with
  | pushes => exact absurd rfl hpush
  | pops => exact absurd rfl hpop
  | hosts hop =>
    rw [hop] at hcall
    cases hcall
  | fills | writes | compares | branches | calls | returns | halts => rfl

theorem operands_push (h : Does m dst src imm next .push m') :
    m'.operands.items = m.reg dst :: m.operands.items := by
  cases h with
  | pushes hitems => exact hitems
  | fills hop | writes hop | compares hop | branches hop | hosts hop => cases hop

theorem operands_pop (h : Does m dst src imm next .pop m') :
    m.operands.items = m'.reg dst :: m'.operands.items := by
  cases h with
  | @pops value operands hitems =>
    have hreg : ({ m with operands := operands }.setReg dst value).reg dst = value := by
      rw [reg_setReg, Function.update_self]
    rw [hitems]
    exact congrArg (· :: operands.items) hreg.symm
  | fills hop | writes hop | compares hop | branches hop | hosts hop => cases hop

theorem served (h : Does m dst src imm next op m') {number : UInt64}
    (hcall : m.hostCall? op dst imm = some number) :
    ∃ m₁, Served m number m₁ ∧ m' = { m₁ with pc := next } := by
  have hhost : op = .sys ∨ op = .call := by
    unfold hostCall? at hcall
    split at hcall
    · exact .inl rfl
    · exact .inr rfl
    · cases hcall
  cases h with
  | @hosts _ _ m₁ hop hserved =>
    obtain rfl := Option.some.inj (hop.symm.trans hcall)
    exact ⟨m₁, hserved, rfl⟩
  | fills hop | writes hop | compares hop | branches hop => rcases hhost with rfl | rfl <;> cases hop
  | pushes | pops | calls | returns | halts => cases hcall

/-- An operation goes on at the place after it, unless it jumps or returns. -/
theorem pc_eq (h : Does m dst src imm next op m') (hret : op ≠ .ret) :
    m'.pc = if m.jumps op then imm.toInt64.toInt else next := by
  have hstays (hop : op.fills = true ∨ op.writes = true ∨ op.compares = true ∨ m.hostCall? op dst imm ≠ none) :
      next = if m.jumps op then imm.toInt64.toInt else next := by
    have hjumps : m.jumps op = false := by
      cases op with
      | jmp | beq | bne | bgt | blt | jsr =>
        simp [Operation.fills, Operation.writes, Operation.compares, hostCall?] at hop
      | _ => rfl
    rw [hjumps]
    rfl
  cases h with
  | fills hop => exact hstays (.inl hop)
  | writes hop => exact hstays (.inr (.inl hop))
  | compares hop => exact hstays (.inr (.inr (.inl hop)))
  | hosts hop => exact hstays (.inr (.inr (.inr (by rw [hop]; exact Option.some_ne_none _))))
  | returns => exact absurd rfl hret
  | branches | calls | pushes | pops | halts => rfl

theorem limits_eq (h : Does m dst src imm next op m') :
    m'.operands.limit = m.operands.limit ∧ m'.returns.limit = m.returns.limit := by
  cases h with
  | pushes _ hlimit => exact ⟨hlimit, rfl⟩
  | pops _ hlimit => exact ⟨hlimit, rfl⟩
  | calls _ hlimit => exact ⟨rfl, hlimit⟩
  | returns _ hlimit => exact ⟨rfl, hlimit⟩
  | hosts _ hserved =>
    have hlimit := hserved.limit
    obtain ⟨_, _, _, _, rfl⟩ := hserved.rest
    exact ⟨hlimit, rfl⟩
  | fills | writes | compares | branches | halts => exact ⟨rfl, rfl⟩

theorem image_eq (h : Does m dst src imm next op m') : m'.image = m.image ∧ m'.ticks = m.ticks := by
  cases h with
  | hosts _ hserved =>
    obtain ⟨_, _, _, _, rfl⟩ := hserved.rest
    exact ⟨rfl, rfl⟩
  | fills | writes | compares | branches | pushes | pops | calls | returns | halts => exact ⟨rfl, rfl⟩

end Does

/-! ## Ticks -/

/-- The place after a decoded instruction lies in the image or at its end, so it does not wrap around. -/
theorem placeAfter_of_fetch {i : Instruction} (hsize : m.image.size < 2 ^ 63) (h : m.fetch = .ok i) :
    placeAfter m.pc i.opcode.width = m.pc + i.opcode.width := by
  obtain ⟨before, op, desc, operand, after, himage, hpc, hoperand, rfl⟩ := Image.of_decode h
  have hend : before.length + (Opcode.of op).width ≤ m.image.size := by
    rw [← Array.length_toList, himage, Opcode.width, Opcode.immediate?_of, ← hoperand]
    simp
    omega
  rw [hpc, placeAfter, Instruction.opcode_ofBytes]
  exact Int64.toInt_ofInt_of_le (by omega) (by omega)

/-- A tick that runs an instruction changes, of the registers, at most its destination, and none if it calls the
host; of memory, at most the range that it addresses; the flags by a comparison or by `halt` only, and it clears
the halt flag never; the return stack by a call or a return only; the operand stack by a push, a pop, or a host
call, which takes one operand or, if it is about a file, three. It goes on behind the instruction unless it jumps
or returns, and is counted. -/
theorem ran_frame (hsize : m.image.size < 2 ^ 63) (h : m.tick = (m', .ran)) :
    ∃ i op, m.fetch = .ok i ∧ i.opcode = .of op ∧
      ((∀ r, r ≠ Register.ofInt i.dst → m'.reg r = m.reg r) ∧
        (op = .sys ∨ op = .call → m'.registers = m.registers)) ∧
      (m'.memory.size = m.memory.size ∧
        ∀ place, (∀ start n,
          m.addressed? op (Register.ofInt i.dst) (Register.ofInt i.src) i.imm = some (start, n) →
            place < start.toNat ∨ start.toNat + n ≤ place) →
          m'.memory.byte place = m.memory.byte place) ∧
      ((op.compares = false → op ≠ .halt → m'.flags = m.flags) ∧
        Flag.isSet m'.flags Flag.halt = (Flag.isSet m.flags Flag.halt || decide (op = .halt))) ∧
      ((op = .jsr → m'.returns.items = UInt32.ofInt (m.pc + 6) :: m.returns.items) ∧
        (op = .ret → ∃ place, m.returns.items = place :: m'.returns.items ∧ m'.pc = place.toNat) ∧
        (op ≠ .jsr → op ≠ .ret → m'.returns = m.returns) ∧ m'.returns.limit = m.returns.limit) ∧
      ((op = .push → m'.operands.items = m.reg (Register.ofInt i.dst) :: m.operands.items) ∧
        (op = .pop → m.operands.items = m'.reg (Register.ofInt i.dst) :: m'.operands.items) ∧
        (∀ number, m.hostCall? op (Register.ofInt i.dst) i.imm = some number →
          ∃ call popped, Syscall.ofNumber? number = some call ∧
            m.operands.items = popped ++ m'.operands.items ∧ popped.length = call.arity) ∧
        (op ≠ .push → op ≠ .pop → op ≠ .sys → op ≠ .call → m'.operands = m.operands) ∧
        m'.operands.limit = m.operands.limit) ∧
      (op ≠ .ret → m'.pc = if m.jumps op then i.imm.toInt64.toInt else m.pc + i.opcode.width) ∧
      m'.ticks = m.ticks + 1 ∧ m'.image = m.image := by
  have hsteps := m.steps_tick
  rw [h] at hsteps
  cases hsteps with
  | @ran i op m₁ hhalted hfetch hop hperform =>
    have hplace := placeAfter_of_fetch hsize hfetch
    rw [hplace] at hperform
    -- every part of the frame is read off the one thing that the operation has done
    have hdoes := does_of_perform hperform
    refine ⟨i, op, hfetch, hop, ⟨fun r hr => hdoes.reg_eq hr, ?_⟩,
      ⟨hdoes.memory_within.size, hdoes.memory_within.byte⟩,
      ⟨hdoes.flags_eq, hdoes.halt_eq⟩, ⟨?_, ?_, hdoes.returns_eq, hdoes.limits_eq.2⟩,
      ⟨?_, ?_, ?_, ?_, hdoes.limits_eq.1⟩, hdoes.pc_eq, congrArg (· + 1) hdoes.image_eq.2, hdoes.image_eq.1⟩
    · intro hhost
      have hcall : ∃ number, m.hostCall? op (Register.ofInt i.dst) i.imm = some number := by
        rcases hhost with rfl | rfl
        · exact ⟨_, rfl⟩
        · exact ⟨_, rfl⟩
      obtain ⟨number, hnumber⟩ := hcall
      obtain ⟨m₂, hserved, rfl⟩ := hdoes.served hnumber
      obtain ⟨_, _, _, _, rfl⟩ := hserved.rest
      rfl
    · rintro rfl
      have hwidth : i.opcode.width = 6 := by
        rw [hop]
        rfl
      rw [hwidth] at hdoes
      exact hdoes.returns_call
    · rintro rfl
      exact hdoes.returns_return
    · rintro rfl
      exact hdoes.operands_push
    · rintro rfl
      exact hdoes.operands_pop
    · intro number hnumber
      obtain ⟨m₂, hserved, rfl⟩ := hdoes.served hnumber
      exact hserved.popped
    · intro hpush hpop hsys hcall
      refine hdoes.operands_eq hpush hpop ?_
      unfold hostCall?
      split
      · exact absurd rfl hsys
      · exact absurd rfl hcall
      · rfl

/-- A machine that is to read a file of three bytes to the address 2; the name stands behind the call. -/
def beforeFileRead : Machine :=
  { (create 16 8 8 {} (.store ((∅ : FileMap).insert [0x61] [1, 2, 3]))).load
      #[0x20, 0x00, 0x08, 0x00, 0x00, 0x00, 0x61, 0x00] with
    operands := ⟨[6, 2, 0, 9], 4, 8, rfl⟩ }

/-- The call takes three of four operands and changes four bytes at most. -/
theorem ran_frame_file_read :
    beforeFileRead.tick.2 = .ran ∧ beforeFileRead.tick.1.operands.items = [9] ∧ beforeFileRead.tick.1.pc = 6 ∧
      beforeFileRead.tick.1.registers = beforeFileRead.registers ∧
      beforeFileRead.tick.1.memory.load 2 4 = .ok 0x00030201 ∧
      ∀ place, place < 2 ∨ 6 ≤ place →
        beforeFileRead.tick.1.memory.byte place = beforeFileRead.memory.byte place := by
  have hran : beforeFileRead.tick.2 = .ran := by decide +kernel
  have hload : beforeFileRead.tick.1.memory.load 2 4 = .ok 0x00030201 := by decide +kernel
  have hfetch : beforeFileRead.fetch = .ok ⟨.of .sys, 0, 0, 8⟩ := by decide +kernel
  have hrange : beforeFileRead.addressed? .sys 0 0 8 = some (2, 4) := by decide +kernel
  obtain ⟨after, hafter⟩ : ∃ after, beforeFileRead.tick = (after, .ran) := ⟨_, Prod.ext rfl hran⟩
  rw [hafter] at hload ⊢
  obtain ⟨i, op, hi, hop, ⟨-, hregisters⟩, ⟨-, hmemory⟩, -, -, ⟨-, -, hpopped, -⟩, hpc, -⟩ :=
    ran_frame (by decide) hafter
  obtain rfl := Except.ok.inj (hfetch.symm.trans hi)
  obtain rfl : Operation.sys = op := Opcode.of_injective hop
  refine ⟨rfl, ?_, hpc (by decide), hregisters (.inl rfl), hload, fun place hplace => ?_⟩
  · obtain ⟨call, popped, hcall, hitems, hlength⟩ := hpopped 8 rfl
    obtain rfl := Option.some.inj ((show Syscall.ofNumber? 8 = some .fileRead by decide).symm.trans hcall)
    have htaken := congrArg (List.drop popped.length) hitems
    rw [List.drop_left, hlength] at htaken
    exact htaken.symm
  · refine hmemory place fun start n hstart => ?_
    obtain ⟨rfl, rfl⟩ := Prod.mk.inj (Option.some.inj (hrange.symm.trans hstart))
    exact hplace

end Machine

end WordMachine
