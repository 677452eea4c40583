import Mathlib
import WordMachine.Emulator
import WordMachine.Machine.Request
import WordMachine.Proofs.Machine.Frame

/-!
# `Proofs.Buffering` — output through a buffer

A buffer only holds bytes back. A program that writes through one does the same, tick by tick, as a program that
writes to the sink at once; the sink lags behind by what the buffer holds, which is nothing whenever a line is
read and when a run is over.

Contents:
* `Output.Mirrors`, `Output.Mirrors.write`, `Output.Mirrors.flush`: outputs that were given the same bytes;
* `Machine.withOutput`, `Machine.Mirrors`, `Machine.Paired`: machines that differ in their outputs only;
* `Machine.paired_syscall`, `Machine.paired_perform`, `Machine.Mirrors.tick`: they go on alike;
* `Machine.execute_of_nextCall`, `Machine.console_tick_of_line`: the ticks that read a line;
* `Machine.output_readLine`, `Machine.Mirrors.received_of_line`: reading a line delivers the output;
* `Emulator.Mirrors`, `Emulator.Mirrors.run`, `Emulator.buffering_unobservable`.
-/

namespace WordMachine

/-! ## Outputs -/

namespace Output

/-- An output without a buffer and one with a buffer, to sinks that take all bytes, after the same bytes were
written to both. -/
inductive Mirrors : Output → Output → Prop where
  | intro (received : Array UInt8) {pending : Bytes} (hpending : pending.length ≤ bufferSize) :
      Mirrors (.direct ⟨received ++ pending.toArray, none⟩) (.buffered ⟨received, none⟩ pending none)

theorem mirrors_start (received : Array UInt8) :
    Mirrors (.direct ⟨received, none⟩) (.buffered ⟨received, none⟩ [] none) := by
  have h := @Mirrors.intro received [] (Nat.zero_le bufferSize)
  rwa [Array.append_empty] at h

theorem write_direct (received : Array UInt8) (data : Bytes) :
    (direct ⟨received, none⟩).write data = (.direct ⟨received ++ data.toArray, none⟩, data.length, none) := rfl

/-- What an empty buffer does with bytes: it holds them, or lets them through if they are too many. -/
theorem writeBuffered_empty (received : Array UInt8) (fuel taken : Nat) (data : Bytes) :
    ∃ received' pending, pending.length ≤ bufferSize ∧ received' ++ pending.toArray = received ++ data.toArray ∧
      writeBuffered ⟨received, none⟩ [] (fuel + 1) taken data =
        (.buffered ⟨received', none⟩ pending none, taken + data.length, none) := by
  by_cases hfits : data.length ≤ bufferSize
  · refine ⟨received, data, hfits, rfl, ?_⟩
    simp [writeBuffered, hfits]
  · refine ⟨received ++ data.toArray, [], Nat.zero_le _, by simp, ?_⟩
    simp [writeBuffered, hfits, Sink.write]

/-- Two passes do for any bytes and any buffer. -/
theorem writeBuffered_two (received : Array UInt8) {pending : Bytes} (hpending : pending.length ≤ bufferSize)
    (data : Bytes) :
    ∃ received' pending', pending'.length ≤ bufferSize ∧
      received' ++ pending'.toArray = received ++ pending.toArray ++ data.toArray ∧
      writeBuffered ⟨received, none⟩ pending 2 0 data =
        (.buffered ⟨received', none⟩ pending' none, data.length, none) := by
  by_cases hfits : data.length ≤ bufferSize - pending.length
  · refine ⟨received, pending ++ data, ?_, by simp, ?_⟩
    · rw [List.length_append]
      omega
    · simp [writeBuffered, hfits]
  · by_cases hempty : pending = []
    · subst hempty
      obtain ⟨received', pending', hlength, hbytes, hwrite⟩ := writeBuffered_empty received 1 0 data
      refine ⟨received', pending', hlength, by simpa using hbytes, ?_⟩
      rw [hwrite, Nat.zero_add]
    · -- the buffer is filled up and emptied, and the bytes left meet an empty buffer
      obtain ⟨received', pending', hlength, hbytes, hwrite⟩ := writeBuffered_empty
        (received ++ (pending ++ data.take (bufferSize - pending.length)).toArray) 0
        (0 + (bufferSize - pending.length)) (data.drop (bufferSize - pending.length))
      refine ⟨received', pending', hlength, ?_, ?_⟩
      · rw [hbytes]
        apply Array.toList_inj.mp
        simp
      · rw [writeBuffered]
        simp only [hfits, if_false, List.isEmpty_iff, hempty, Sink.write, Option.all_none, if_true]
        rw [hwrite, List.length_drop]
        congr 2
        omega

namespace Mirrors

variable {plain buffered : Output}

/-- The same bytes are taken by both. -/
theorem write (h : Mirrors plain buffered) (data : Bytes) :
    ∃ plain' buffered', plain.write data = (plain', data.length, none) ∧
      buffered.write data = (buffered', data.length, none) ∧ Mirrors plain' buffered' := by
  cases h with
  | @intro received pending hpending =>
    obtain ⟨received', pending', hlength, hbytes, hwrite⟩ := writeBuffered_two received hpending data
    refine ⟨_, _, write_direct _ data, hwrite, ?_⟩
    rw [← hbytes]
    exact .intro received' hlength

/-- Without a buffer there is nothing to flush; with one, the sink then has all bytes. -/
theorem flush (h : Mirrors plain buffered) :
    plain.flush = (plain, none) ∧ buffered.flush.2 = none ∧ Mirrors plain buffered.flush.1 ∧
      buffered.flush.1.received = plain.received := by
  cases h with
  | @intro received pending hpending =>
    cases pending with
    | nil => exact ⟨rfl, rfl, .intro received hpending, (Array.append_empty).symm⟩
    | cons b pending => exact ⟨rfl, rfl, mirrors_start _, rfl⟩

/-- The sink behind the buffer has received all but the bytes of one buffer. -/
theorem received (h : Mirrors plain buffered) :
    buffered.received.toList <+: plain.received.toList ∧
      plain.received.size ≤ buffered.received.size + bufferSize := by
  cases h with
  | @intro received pending hpending =>
    refine ⟨⟨pending, Array.toList_append.symm⟩, ?_⟩
    simpa [Output.received] using hpending

end Mirrors

end Output

/-! ## Machines -/

/-- The console with another output. -/
def Console.withOutput (c : Console) (o : Output) : Console := { c with output := o }

/-- Reading a line flushes the output and does nothing else with it. -/
theorem Console.readLine_withOutput (c : Console) {o : Output} (hc : c.output.flush = (c.output, none))
    (ho : o.flush.2 = none) :
    (c.withOutput o).readLine = (c.readLine.1.withOutput o.flush.1, c.readLine.2) ∧
      c.readLine.1.output = c.output := by
  obtain ⟨input, buffer, output⟩ := c
  generalize hflush : o.flush = flushed at ho
  obtain ⟨o', failure⟩ := flushed
  obtain rfl : failure = none := ho
  simp only at hc
  simp only [readLine, flush, withOutput, hc, hflush]
  cases input with
  | none => exact ⟨rfl, rfl⟩
  | some input => exact ⟨rfl, rfl⟩

theorem Console.output_readLine (c : Console) : c.readLine.1.output = c.output.flush.1 := by
  rw [readLine, flush]
  generalize c.output.flush = r
  obtain ⟨o, failure⟩ := r
  cases failure with
  | some failure => rfl
  | none =>
    dsimp only
    split
    · rfl
    · rfl

namespace Machine

/-- The machine with another output of its console. -/
def withOutput (m : Machine) (o : Output) : Machine := { m with console := m.console.withOutput o }

/-- A machine that writes to its sink at once, and the same machine with a buffer before the sink. -/
inductive Mirrors (m : Machine) : Machine → Prop where
  | intro {o : Output} (h : m.console.output.Mirrors o) : Mirrors m (m.withOutput o)

/-- A part of an operation has the same result on two such machines. -/
structure Paired (r s : Machine × Option Fault) : Prop where
  machine : Mirrors r.1 s.1
  fault : s.2 = r.2

variable {m n : Machine}

theorem Mirrors.of_eq {o : Output} (h : m.console.output.Mirrors o) (heq : n = m.withOutput o) : Mirrors m n := by
  rw [heq]
  exact .intro h

/-- The machines have all in common but their outputs. -/
theorem Mirrors.differ (h : Mirrors m n) :
    n = m.withOutput n.console.output ∧ m.console.output.Mirrors n.console.output := by
  cases h with
  | intro h => exact ⟨rfl, h⟩

theorem Mirrors.pc (h : Mirrors m n) : n.pc = m.pc := by
  rw [h.differ.1]
  rfl

theorem paired_fault (h : Mirrors m n) (f : Fault) : Paired (m, some f) (n, some f) := ⟨h, rfl⟩

theorem Paired.andThen {r s : Machine × Option Fault} (h : Paired r s) (next : Int) :
    Paired (andThen r next) (Machine.andThen s next) := by
  obtain ⟨m, f⟩ := r
  obtain ⟨n, g⟩ := s
  obtain ⟨⟨houtput⟩, hfault⟩ := h
  obtain rfl : g = f := hfault
  cases g with
  | none => exact ⟨.of_eq houtput rfl, rfl⟩
  | some f => exact ⟨.of_eq houtput rfl, rfl⟩

/-! ## Host calls -/

theorem paired_writeMemory (h : Mirrors m n) (address : UInt64) (data : Bytes) :
    Paired (m.writeMemory address data) (n.writeMemory address data) := by
  cases h with
  | @intro o h =>
    have hmemory : (m.withOutput o).memory = m.memory := rfl
    rw [writeMemory, writeMemory, hmemory]
    cases m.memory.write address data with
    | error f => exact paired_fault (.intro h) f
    | ok memory => exact ⟨.of_eq h rfl, rfl⟩

/-- Both outputs take the text. -/
theorem paired_print (h : Mirrors m n) (text : Bytes) : Paired (m.print text) (n.print text) := by
  cases h with
  | @intro o h =>
    obtain ⟨plain', o', hplain, ho, hmirrors⟩ := h.write text
    have hm : m.print text = (m.withOutput plain', none) := by
      simp only [print, Console.write, hplain]
      rfl
    have hn : (m.withOutput o).print text = (m.withOutput o', none) := by
      have hwrite : (m.withOutput o).console.output.write text = (o', text.length, none) := ho
      simp only [print, Console.write, hwrite]
      rfl
    rw [hm, hn]
    exact ⟨.of_eq hmirrors rfl, rfl⟩

theorem paired_popping {k : Machine → UInt64 → Machine × Option Fault} (h : Mirrors m n)
    (hk : ∀ {m n : Machine} (value : UInt64), Mirrors m n → Paired (k m value) (k n value)) :
    Paired (m.popping k) (n.popping k) := by
  cases h with
  | @intro o h =>
    have hoperands : (m.withOutput o).operands = m.operands := rfl
    rw [popping, popping, hoperands]
    cases m.operands.pop with
    | error f => exact paired_fault (.intro h) f
    | ok popped => exact hk popped.1 (.of_eq h rfl)

theorem paired_printString {string : Machine → UInt64 → Except Fault Bytes} (h : Mirrors m n)
    (hstring : ∀ (m : Machine) (o : Output) (address : UInt64), string (m.withOutput o) address = string m address) :
    Paired (m.printString string) (n.printString string) := by
  refine paired_popping h fun {m n} address h => ?_
  have hsame : string n address = string m address := by
    cases h with
    | intro => exact hstring m _ address
  rw [hsame]
  cases string m address with
  | error f => exact paired_fault h f
  | ok text => exact paired_print h text

theorem paired_readLine (h : Mirrors m n) : Paired m.readLine n.readLine := by
  refine paired_popping h fun {m n} buffer h => ?_
  cases h with
  | @intro o h =>
    -- the outputs are flushed before the line is read; only the one with a buffer changes
    obtain ⟨hplain, hflushed, hmirrors, -⟩ := h.flush
    obtain ⟨hread, houtput⟩ := m.console.readLine_withOutput hplain hflushed
    have hconsole : (m.withOutput o).console = m.console.withOutput o := rfl
    rw [hconsole, hread]
    generalize m.console.readLine = r at houtput
    obtain ⟨console, line, failure⟩ := r
    have hafter : console.output.Mirrors o.flush.1 := by
      rw [houtput]
      exact hmirrors
    cases failure with
    | none => exact paired_writeMemory (.of_eq hafter rfl) buffer _
    | some failure => exact paired_fault (.of_eq hafter rfl) _

theorem paired_withFile {number : UInt64} {k : Machine → Bytes → UInt64 → Machine × Option Fault}
    (h : Mirrors m n)
    (hk : ∀ {m n : Machine} (name : Bytes) (buffer : UInt64), Mirrors m n →
      Paired (k m name buffer) (k n name buffer)) :
    Paired (m.withFile number k) (n.withFile number k) := by
  refine paired_popping h fun nameAddress h => paired_popping h fun buffer h =>
    paired_popping h fun {m n} context h => ?_
  have hsame : n.fileName number context nameAddress = m.fileName number context nameAddress := by
    cases h with
    | intro => rfl
  rw [hsame]
  cases m.fileName number context nameAddress with
  | error f => exact paired_fault h f
  | ok name => exact hk name buffer h

theorem paired_fileRead (h : Mirrors m n) (name : Bytes) (buffer : UInt64) :
    Paired (m.fileRead name buffer) (n.fileRead name buffer) := by
  have hfiles : n.files = m.files := by
    cases h with
    | intro => rfl
  rw [fileRead, fileRead, hfiles]
  cases m.files.read name with
  | error failure => exact paired_fault h _
  | ok data => exact paired_writeMemory h buffer _

theorem paired_fileWrite (h : Mirrors m n) (name : Bytes) (buffer : UInt64) :
    Paired (m.fileWrite name buffer) (n.fileWrite name buffer) := by
  cases h with
  | @intro o h =>
    have hmemory : (m.withOutput o).memory = m.memory := rfl
    have hfiles : (m.withOutput o).files = m.files := rfl
    rw [fileWrite, fileWrite, hmemory, hfiles]
    cases m.memory.string buffer with
    | error f => exact paired_fault (.intro h) f
    | ok data =>
      dsimp only
      cases m.files.write name data with
      | error failure => exact paired_fault (.intro h) _
      | ok files => exact ⟨.of_eq h rfl, rfl⟩

theorem paired_syscall (h : Mirrors m n) (number : UInt64) : Paired (m.syscall number) (n.syscall number) := by
  have hprint (render : UInt64 → Bytes) : Paired (m.printWith render) (n.printWith render) :=
    paired_popping h fun value h => paired_print h (render value)
  cases hcall : Syscall.ofNumber? number with
  | none =>
    simp only [syscall, hcall]
    exact paired_fault h _
  | some call =>
    simp only [syscall, hcall]
    cases call with
    | printInt | printBin | printHex | printFloat | printSigned => exact hprint _
    | printStr | printBuf => exact paired_printString h fun _ _ _ => rfl
    | readLine => exact paired_readLine h
    | fileRead => exact paired_withFile h fun name buffer h => paired_fileRead h name buffer
    | fileWrite => exact paired_withFile h fun name buffer h => paired_fileWrite h name buffer

/-! ## Operations -/

theorem paired_loadInto (h : Mirrors m n) (r : Register) (address : UInt64) (size : Int) :
    Paired (m.loadInto r address size) (n.loadInto r address size) := by
  cases h with
  | @intro o h =>
    have hmemory : (m.withOutput o).memory = m.memory := rfl
    rw [loadInto, loadInto, hmemory]
    cases m.memory.load address size with
    | error f => exact ⟨.of_eq h rfl, rfl⟩
    | ok value => exact ⟨.of_eq h rfl, rfl⟩

theorem paired_storeAt (h : Mirrors m n) (address : UInt64) (size : Int) (value : UInt64) :
    Paired (m.storeAt address size value) (n.storeAt address size value) := by
  cases h with
  | @intro o h =>
    have hmemory : (m.withOutput o).memory = m.memory := rfl
    rw [storeAt, storeAt, hmemory]
    cases m.memory.store address size value with
    | error f => exact paired_fault (.intro h) f
    | ok memory => exact ⟨.of_eq h rfl, rfl⟩

theorem paired_compareStrings (h : Mirrors m n) (string : UInt64 → Except Fault Bytes) (a b : UInt64) :
    Paired (m.compareStrings string a b) (n.compareStrings string a b) := by
  rw [compareStrings, compareStrings]
  cases string a with
  | error f => exact paired_fault h f
  | ok s =>
    dsimp only
    cases string b with
    | error f => exact paired_fault h f
    | ok t =>
      cases h with
      | intro h => exact ⟨.of_eq h rfl, rfl⟩

theorem paired_copyString (h : Mirrors m n) (source target : UInt64) :
    Paired (m.copyString source target) (n.copyString source target) := by
  have himage : n.image = m.image := by
    cases h with
    | intro => rfl
  rw [copyString, copyString, himage]
  cases m.image.string source with
  | error f => exact paired_fault h f
  | ok text => exact paired_writeMemory h target _

theorem paired_perform (h : Mirrors m n) (op : Operation) (dst src : Register) (imm : UInt64) (next : Int) :
    Paired (m.perform op dst src imm next) (n.perform op dst src imm next) := by
  cases h with
  | @intro o h =>
    have hmirrors : Mirrors m (m.withOutput o) := .intro h
    -- moves, jumps and all arithmetic but division cannot fail, and they only touch what the two machines share
    cases op with
    | mov | adr | cpy | iadd | isub | imul | dadd | dsub | dmul | ddiv | icst | dcst | shl | shr | and | or | neg
    | pow | root | icmp | dcmp | jmp | beq | bne | bgt | blt | halt => exact ⟨.of_eq h rfl, rfl⟩
    | ldr | indl | lei | lst | ltt | lsf => exact (paired_loadInto hmirrors dst _ _).andThen next
    | str | inds | sei | sst | stt | ssf => exact (paired_storeAt hmirrors _ _ _).andThen next
    | sys | call => exact (paired_syscall hmirrors _).andThen next
    | bufc => exact (paired_copyString hmirrors _ _).andThen next
    | bseq | lseq => exact (paired_compareStrings hmirrors _ _ _).andThen next
    | idiv =>
      have hreg (r : Register) : (m.withOutput o).reg r = m.reg r := rfl
      simp only [perform, hreg]
      split
      · exact paired_fault hmirrors _
      · exact ⟨.of_eq h rfl, rfl⟩
    | push =>
      have hpush : (m.withOutput o).operands.push ((m.withOutput o).reg dst) = m.operands.push (m.reg dst) := rfl
      simp only [perform, hpush]
      cases m.operands.push (m.reg dst) with
      | error f => exact paired_fault hmirrors f
      | ok operands => exact ⟨.of_eq h rfl, rfl⟩
    | pop =>
      have hpop : (m.withOutput o).operands.pop = m.operands.pop := rfl
      simp only [perform, hpop]
      cases m.operands.pop with
      | error f => exact paired_fault hmirrors f
      | ok popped => exact ⟨.of_eq h rfl, rfl⟩
    | jsr =>
      have hreturns : (m.withOutput o).returns = m.returns := rfl
      simp only [perform, jumpSubroutine, hreturns]
      cases m.returns.push (UInt32.ofInt next) with
      | error f => exact paired_fault hmirrors f
      | ok returns => exact ⟨.of_eq h rfl, rfl⟩
    | ret =>
      have hreturns : (m.withOutput o).returns = m.returns := rfl
      simp only [perform, returnSubroutine, hreturns]
      cases m.returns.pop with
      | error f => exact paired_fault hmirrors f
      | ok popped => exact ⟨.of_eq h rfl, rfl⟩

/-! ## Ticks -/

theorem paired_execute (h : Mirrors m n) (i : Instruction) : Paired (m.execute i) (n.execute i) := by
  rw [execute, execute, h.pc]
  cases i.opcode.operation? with
  | none => exact paired_fault h _
  | some op => exact paired_perform h op _ _ _ _

/-- A tick does the same to both machines. -/
theorem Mirrors.tick (h : Mirrors m n) : Mirrors m.tick.1 n.tick.1 ∧ n.tick.2 = m.tick.2 := by
  have hsame : n.isHalted = m.isHalted ∧ n.fetch = m.fetch ∧ n.opcodeAtPc = m.opcodeAtPc := by
    cases h with
    | intro => exact ⟨rfl, rfl, rfl⟩
  obtain ⟨hhalted, hfetch, hopcode⟩ := hsame
  rw [Machine.tick, Machine.tick, hhalted, hfetch, h.pc, hopcode]
  cases m.isHalted with
  | true => exact ⟨h, rfl⟩
  | false =>
    simp only [Bool.false_eq_true, if_false]
    cases m.fetch with
    | error f => exact ⟨h, rfl⟩
    | ok i =>
      have hpaired := paired_execute h i
      dsimp only
      generalize m.execute i = r at hpaired
      generalize n.execute i = s at hpaired
      obtain ⟨m', f⟩ := r
      obtain ⟨n', g⟩ := s
      obtain ⟨⟨houtput⟩, hfault⟩ := hpaired
      obtain rfl : g = f := hfault
      cases g with
      | none => exact ⟨.of_eq houtput rfl, rfl⟩
      | some f => exact ⟨.of_eq houtput rfl, rfl⟩

/-! ## Lines -/

/-- The host call that is found for the next instruction is the one that executing it makes. -/
theorem execute_of_nextCall {number : UInt64} (h : m.nextCall? = some number) :
    ∃ i, m.fetch = .ok i ∧ m.execute i = andThen (m.syscall number) (placeAfter m.pc i.opcode.width) := by
  unfold nextCall? at h
  split at h
  · cases h
  next i hfetch =>
    refine ⟨i, hfetch, ?_⟩
    split at h
    next hop =>
      obtain rfl := Option.some.inj h
      simp only [execute, hop, perform]
    next hop =>
      obtain rfl := Option.some.inj h
      simp only [execute, hop, perform]
    · cases h

/-- Where a line is asked for, the next instruction makes the host call that reads one. -/
theorem nextCall_of_line (h : m.request? = some .line) :
    m.isHalted = false ∧ ∃ number, m.nextCall? = some number ∧ m.syscall number = m.readLine := by
  unfold request? at h
  split at h
  · cases h
  next hhalted =>
    refine ⟨by simpa using hhalted, ?_⟩
    split at h
    · cases h
    next number hcall =>
      refine ⟨number, hcall, ?_⟩
      split at h
      next hline => simp only [syscall, hline]
      -- the calls that ask for a file do not ask for a line
      · cases hnamed : m.namedFile? number <;> simp [hnamed] at h
      · cases hnamed : m.namedFile? number <;> simp [hnamed] at h
      · cases h

/-- Where the next instruction asks for a line, a tick reads it. -/
theorem console_tick_of_line (h : m.request? = some .line) : m.tick.1.console = m.readLine.1.console := by
  obtain ⟨hhalted, number, hcall, hsyscall⟩ := nextCall_of_line h
  obtain ⟨i, hfetch, hexecute⟩ := execute_of_nextCall hcall
  rw [hsyscall] at hexecute
  rw [tick, hhalted, hfetch]
  simp only [Bool.false_eq_true, if_false, hexecute]
  generalize m.readLine = r
  obtain ⟨m', f⟩ := r
  cases f with
  | none => rfl
  | some f => rfl

/-- Reading a line delivers the output first, and nothing is written behind it. -/
theorem output_readLine (hne : m.operands.items ≠ []) :
    m.readLine.1.console.output = m.console.output.flush.1 := by
  have hwrites (m : Machine) (address : UInt64) (data : Bytes) :
      (m.writeMemory address data).1.console = m.console := by
    rw [writeMemory]
    cases m.memory.write address data with
    | error f => rfl
    | ok memory => rfl
  rw [readLine, popping]
  cases hpop : m.operands.pop with
  | error f => exact absurd (Stack.items_of_pop_error hpop) hne
  | ok popped =>
    have houtput := m.console.output_readLine
    dsimp only
    generalize m.console.readLine = r at houtput
    obtain ⟨console, line, failure⟩ := r
    cases failure with
    | none =>
      dsimp only
      rw [hwrites]
      exact houtput
    | some failure => exact houtput

/-- Once a line has been read, both sinks have received the same bytes. -/
theorem Mirrors.received_of_line (h : Mirrors m n) (hline : m.request? = some .line)
    (hne : m.operands.items ≠ []) : n.tick.1.console.output.received = m.tick.1.console.output.received := by
  have hm : m.tick.1.console.output = m.console.output.flush.1 := by
    rw [console_tick_of_line hline, output_readLine hne]
  cases h with
  | @intro o h =>
    have hn : (m.withOutput o).tick.1.console.output = o.flush.1 := by
      have hrequest : (m.withOutput o).request? = some .line := hline
      have hitems : (m.withOutput o).operands.items ≠ [] := hne
      rw [console_tick_of_line hrequest, output_readLine hitems]
      rfl
    obtain ⟨hplain, -, -, hreceived⟩ := h.flush
    rw [hm, hn, hplain, hreceived]

end Machine

/-! ## Runs -/

/-- Two systems whose steps keep a relation and return the same go on alike. -/
theorem stepped_related {σ τ ρ : Type} {f : σ → σ × ρ} {g : τ → τ × ρ} {R : σ → τ → Prop}
    (hstep : ∀ {s t}, R s t → R (f s).1 (g t).1 ∧ (g t).2 = (f s).2) (k : Nat) {s : σ} {t : τ} (h : R s t) :
    R (stepped f k s).1 (stepped g k t).1 ∧ (stepped g k t).2 = (stepped f k s).2 := by
  induction k generalizing s t with
  | zero => exact ⟨h, rfl⟩
  | succ k ih =>
    obtain ⟨hnext, hresult⟩ := hstep h
    obtain ⟨hlast, hresults⟩ := ih hnext
    exact ⟨hlast, congrArg₂ List.cons hresult hresults⟩

namespace Emulator

/-- Emulators of one program on machines that differ in their outputs only. -/
structure Mirrors (e f : Emulator) : Prop where
  program : f.program = e.program
  machine : e.machine.Mirrors f.machine

namespace Mirrors

variable {e f : Emulator}

theorem tick (h : Mirrors e f) : Mirrors e.tick.1 f.tick.1 ∧ f.tick.2 = e.tick.2 := by
  obtain ⟨hmachine, hresult⟩ := h.machine.tick
  have hline : f.lineNumber = e.lineNumber := by rw [lineNumber, lineNumber, h.program, h.machine.pc]
  rw [Emulator.tick, Emulator.tick, h.machine.pc, hline]
  generalize e.machine.tick = r at hmachine hresult
  generalize f.machine.tick = s at hmachine hresult
  obtain ⟨m, result⟩ := r
  obtain ⟨n, result'⟩ := s
  obtain rfl : result' = result := hresult
  cases result' with
  | ran | halted | trapped => exact ⟨⟨h.program, hmachine⟩, rfl⟩

theorem steps (h : Mirrors e f) (fuel : Nat) :
    Mirrors (Emulator.steps fuel e).1 (Emulator.steps fuel f).1 ∧
      (Emulator.steps fuel f).2 = (Emulator.steps fuel e).2 := by
  induction fuel generalizing e f with
  | zero => exact ⟨h, rfl⟩
  | succ fuel ih =>
    obtain ⟨hnext, hresult⟩ := h.tick
    rw [Emulator.steps, Emulator.steps]
    generalize e.tick = r at hnext hresult
    generalize f.tick = s at hnext hresult
    obtain ⟨e', result⟩ := r
    obtain ⟨f', result'⟩ := s
    obtain rfl : result' = result := hresult
    cases result' with
    | ran => exact ih hnext
    | done | failed => exact ⟨hnext, rfl⟩

/-- Closing an emulator delivers all output. -/
theorem close (h : Mirrors e f) :
    Mirrors e.close.1 f.close.1 ∧ e.close.2 = none ∧ f.close.2 = none ∧
      f.close.1.machine.console.output.received = e.close.1.machine.console.output.received := by
  obtain ⟨hdiffer, houtput⟩ := h.machine.differ
  obtain ⟨hplain, hflushed, hmirrors, hreceived⟩ := houtput.flush
  have he : e.close = (e, none) := by
    simp only [Emulator.close, Console.flush, hplain]
  have hf : f.close.1.machine = e.machine.withOutput f.machine.console.output.flush.1 :=
    congrArg (·.withOutput f.machine.console.output.flush.1) hdiffer
  rw [he]
  exact ⟨⟨h.program, .of_eq hmirrors hf⟩, rfl, hflushed, hreceived⟩

/-- A run ends alike, and then both sinks have received the same bytes. -/
theorem run (h : Mirrors e f) (fuel : Nat) :
    Mirrors (Emulator.run fuel e).1 (Emulator.run fuel f).1 ∧
      (Emulator.run fuel f).2 = (Emulator.run fuel e).2 ∧
      (Emulator.run fuel f).1.machine.console.output.received =
        (Emulator.run fuel e).1.machine.console.output.received := by
  obtain ⟨hsteps, hresult⟩ := h.steps fuel
  obtain ⟨hclosed, he, hf, hreceived⟩ := hsteps.close
  have hrun (e : Emulator) (hclose : (Emulator.steps fuel e).1.close.2 = none) :
      Emulator.run fuel e = ((Emulator.steps fuel e).1.close.1, (Emulator.steps fuel e).2) := by
    rw [Emulator.run]
    dsimp only
    rw [hclose]
    cases (Emulator.steps fuel e).2 <;> rfl
  rw [hrun e he, hrun f hf]
  exact ⟨hclosed, hresult, hreceived⟩

end Mirrors

/-- A program that writes through a buffer to a sink that takes all bytes, and the same program without the
buffer: after any number of ticks the machines differ in their outputs only, all ticks had the same results, and
the sink behind the buffer lacks at most the last bytes that a buffer holds; it lacks none right after a line was
read; and every run has the same result on both and ends with the same bytes in both sinks. -/
theorem buffering_unobservable (program : Assembly.Program) (m : Machine) (received : Array UInt8) :
    let plain : Emulator := ⟨program, m.withOutput (.direct ⟨received, none⟩)⟩
    let buffered : Emulator := ⟨program, m.withOutput (.buffered ⟨received, none⟩ [] none)⟩
    (∀ k,
      let p := stepped tick k plain
      let b := stepped tick k buffered
      b.2 = p.2 ∧ b.1.program = p.1.program ∧
        b.1.machine = p.1.machine.withOutput b.1.machine.console.output ∧
        b.1.machine.console.output.received.toList <+: p.1.machine.console.output.received.toList ∧
        p.1.machine.console.output.received.size ≤ b.1.machine.console.output.received.size + bufferSize ∧
        (p.1.machine.request? = some .line → p.1.machine.operands.items ≠ [] →
          b.1.tick.1.machine.console.output.received = p.1.tick.1.machine.console.output.received)) ∧
      ∀ fuel, (run fuel buffered).2 = (run fuel plain).2 ∧
        (run fuel buffered).1.machine = (run fuel plain).1.machine.withOutput
          (run fuel buffered).1.machine.console.output ∧
        (run fuel buffered).1.machine.console.output.received =
          (run fuel plain).1.machine.console.output.received := by
  intro plain buffered
  have hstart : Mirrors plain buffered := ⟨rfl, .of_eq (Output.mirrors_start received) rfl⟩
  refine ⟨fun k => ?_, fun fuel => ?_⟩
  · obtain ⟨hmirrors, hresults⟩ := stepped_related Mirrors.tick k hstart
    obtain ⟨hmachine, houtput⟩ := hmirrors.machine.differ
    refine ⟨hresults, hmirrors.program, hmachine, houtput.received.1, houtput.received.2, fun hline hne => ?_⟩
    have hmachines (e : Emulator) : e.tick.1.machine = e.machine.tick.1 := by
      rw [tick]
      split
      next h => rw [h]
      next h => rw [h]
      next h => rw [h]
    rw [hmachines, hmachines]
    exact hmirrors.machine.received_of_line hline hne
  · obtain ⟨hmirrors, hresult, hreceived⟩ := hstart.run fuel
    exact ⟨hresult, hmirrors.machine.differ.1, hreceived⟩

/-- A machine that prints a byte and then reads a line. -/
def prompting : Machine :=
  (Machine.create 16 8 8 { input := some (.ofBytes (bytes "a\n") false) } (.store ∅)).load
    #[0x06, 0x00, 0x20, 0x00, 0x01, 0x00, 0x00, 0x00, 0x06, 0x00, 0x20, 0x00, 0x05, 0x00, 0x00, 0x00]

theorem buffering_unobservable_prompt :
    let plain : Emulator := ⟨{}, prompting.withOutput (.direct ⟨#[], none⟩)⟩
    let buffered : Emulator := ⟨{}, prompting.withOutput (.buffered ⟨#[], none⟩ [] none)⟩
    (stepped tick 3 plain).1.machine.request? = some .line ∧
      (stepped tick 3 plain).1.machine.console.output.received = #[0x06] ∧
      (stepped tick 3 buffered).1.machine.console.output.received = #[] ∧
      (stepped tick 3 buffered).1.tick.1.machine.console.output.received =
        (stepped tick 3 plain).1.tick.1.machine.console.output.received := by
  obtain ⟨-, -, -, -, -, hread⟩ := (buffering_unobservable {} prompting #[]).1 3
  dsimp only
  exact ⟨by decide +kernel, by decide +kernel, by decide +kernel, hread (by decide +kernel) (by decide +kernel)⟩

end Emulator

end WordMachine
