import Mathlib
import WordMachine.Emulator
import WordMachine.Proofs.Assembly.Disassembly
import WordMachine.Proofs.Machine.Fault
import WordMachine.Proofs.Machine.Memory
import WordMachine.Proofs.Source.Blocks

/-!
# `Proofs.Printing` — data through a literal, an image and a run

Data can be escaped, written between quotes, assembled and printed, and comes out as it was; only a zero byte
ends it early, since strings end there.

Contents:
* `Escape.letterOf?_cases`, `Escape.decode?_encode`, `Escape.quoted_encode`: escapes are read back;
* `Output.Unfailing`, `Output.written`, `Output.write_unfailing`, `Output.flush_unfailing`: output that nothing
  is lost of;
* `Assembly.printer`, `Assembly.parse_printer`: a program that prints a string, and its image;
* `Machine.tick_of_decode`, `Machine.Printing`, `Machine.Printing.prints`, `Emulator.run_of_goes`: its run;
* `Assembly.literal_prints`.
-/

namespace WordMachine

open Assembly (Lexeme)

/-! ## Escapes -/

namespace Escape

theorem letterOf?_cases (b : UInt8) :
    (∃ letter, letterOf? b = some letter ∧ byteOf? letter = some b ∧ Bytes.isInner letter = true) ∨
      (letterOf? b = none ∧ b ≠ Ascii.backslash ∧ b ≠ Ascii.quote ∧ Bytes.isInner b = true) := by
  have hsome : ∀ b, ((letterOf? b).all fun l => byteOf? l == some b && Bytes.isInner l) = true :=
    forall_byte (by decide +kernel)
  have hnone : ∀ b, ((letterOf? b).isSome || b != Ascii.backslash && b != Ascii.quote && Bytes.isInner b) = true :=
    forall_byte (by decide +kernel)
  cases hletter : letterOf? b with
  | some letter =>
    have hb := hsome b
    rw [hletter] at hb
    simp only [Option.all_some, Bool.and_eq_true, beq_iff_eq] at hb
    exact .inl ⟨letter, rfl, hb⟩
  | none =>
    have hb := hnone b
    rw [hletter] at hb
    simp only [Option.isSome_none, Bool.false_or, Bool.and_eq_true, bne_iff_ne, ne_eq] at hb
    exact .inr ⟨rfl, hb.1.1, hb.1.2, hb.2⟩

theorem encode_cons_some {b letter : UInt8} (h : letterOf? b = some letter) (data : Bytes) :
    encode (b :: data) = Ascii.backslash :: letter :: encode data := by
  simp [encode, h]

theorem encode_cons_none {b : UInt8} (h : letterOf? b = none) (data : Bytes) :
    encode (b :: data) = b :: encode data := by
  simp [encode, h]

theorem decode?_encode (data : Bytes) : decode? (encode data) = some data := by
  induction data with
  | nil => rfl
  | cons b data ih =>
    rcases letterOf?_cases b with ⟨letter, hletter, hbyte, -⟩ | ⟨hletter, hne, -, -⟩
    · rw [encode_cons_some hletter, decode?, if_pos rfl]
      simp only [hbyte, ih, Option.map_some]
    · rw [encode_cons_none hletter]
      unfold decode?
      rw [if_neg hne, ih, Option.map_some]

theorem quoted_encode (data rest : Bytes) :
    Lexeme.quoted Ascii.quote .stringUnterminated (encode data ++ Ascii.quote :: rest) = .ok (encode data, rest) := by
  induction data with
  | nil =>
    show Lexeme.quoted _ _ (Ascii.quote :: rest) = _
    unfold Lexeme.quoted
    rw [if_neg (by decide), if_pos rfl]
    rfl
  | cons b data ih =>
    rcases letterOf?_cases b with ⟨letter, hletter, hbyte, -⟩ | ⟨hletter, hne, hquote, -⟩
    · rw [encode_cons_some hletter, List.cons_append, List.cons_append]
      unfold Lexeme.quoted
      simp only [if_true, hbyte, Option.isSome_some, ih]
    · rw [encode_cons_none hletter, List.cons_append]
      unfold Lexeme.quoted
      rw [if_neg hne, if_neg hquote, ih]

theorem isInner_encode (data : Bytes) : ∀ c ∈ encode data, Bytes.isInner c = true := by
  induction data with
  | nil => exact List.forall_mem_nil _
  | cons b data ih =>
    rcases letterOf?_cases b with ⟨letter, hletter, -, hinner⟩ | ⟨hletter, -, -, hinner⟩
    · rw [encode_cons_some hletter]
      exact List.forall_mem_cons.mpr ⟨by decide, List.forall_mem_cons.mpr ⟨hinner, ih⟩⟩
    · rw [encode_cons_none hletter]
      exact List.forall_mem_cons.mpr ⟨hinner, ih⟩

end Escape

/-! ## Output -/

theorem Sink.write_of_room {sink : Sink} (h : sink.room = none) (data : Bytes) :
    sink.write data = ({ sink with received := sink.received ++ data.toArray }, none) := by
  rw [write, h]
  rfl

namespace Output

/-- The output goes to a sink that takes whatever it is given. -/
def Unfailing : Output → Prop
  | .discard => False
  | .direct sink => sink.room = none
  | .buffered sink _ failure => sink.room = none ∧ failure = none

/-- What was written: what the sink has received, and what is still pending. -/
def written : Output → Bytes
  | .discard => []
  | .direct sink => sink.received.toList
  | .buffered sink pending _ => sink.received.toList ++ pending

theorem writeBuffered_unfailing {sink : Sink} (h : sink.room = none) (pending data : Bytes) (fuel taken : Nat) :
    ∃ out count, writeBuffered sink pending fuel taken data = (out, count, none) ∧ out.Unfailing ∧
      out.written = sink.received.toList ++ pending ++ data := by
  induction fuel generalizing sink pending data taken with
  | zero => exact ⟨_, _, rfl, ⟨h, rfl⟩, (List.append_assoc _ _ _).symm⟩
  | succ fuel ih =>
    rw [writeBuffered]
    by_cases hfits : data.length ≤ bufferSize - pending.length
    · rw [if_pos hfits]
      exact ⟨_, _, rfl, ⟨h, rfl⟩, (List.append_assoc _ _ _).symm⟩
    · rw [if_neg hfits, Sink.write_of_room h, Sink.write_of_room h]
      by_cases hpending : pending.isEmpty = true
      · rw [if_pos hpending]
        refine ⟨_, _, rfl, ⟨h, rfl⟩, ?_⟩
        rw [List.isEmpty_iff.mp hpending]
        simp [written]
      · rw [if_neg hpending]
        -- the buffer is filled up and goes to the sink, and the rest is written with nothing pending
        obtain ⟨out, count, hwrite, hout, hwritten⟩ := @ih
          { sink with received := sink.received ++ (pending ++ data.take (bufferSize - pending.length)).toArray } h
          [] (data.drop (bufferSize - pending.length)) (taken + (bufferSize - pending.length))
        refine ⟨out, count, hwrite, hout, hwritten.trans ?_⟩
        simp

/-- A sink that never fails gets all that is written. -/
theorem write_unfailing {out : Output} (h : out.Unfailing) (data : Bytes) :
    ∃ out' count, out.write data = (out', count, none) ∧ out'.Unfailing ∧ out'.written = out.written ++ data := by
  cases out with
  | discard => exact h.elim
  | direct sink =>
    rw [write, Sink.write_of_room h]
    exact ⟨_, _, rfl, h, by simp [written]⟩
  | buffered sink pending failure =>
    obtain ⟨hroom, rfl⟩ := h
    exact writeBuffered_unfailing hroom pending data 2 0

/-- Flushing brings all that was written to the sink. -/
theorem flush_unfailing {out : Output} (h : out.Unfailing) :
    ∃ out', out.flush = (out', none) ∧ out'.received.toList = out.written := by
  cases out with
  | discard => exact h.elim
  | direct sink => exact ⟨_, rfl, rfl⟩
  | buffered sink pending failure =>
    obtain ⟨hroom, rfl⟩ := h
    rw [flush]
    by_cases hpending : pending.isEmpty = true
    · rw [if_pos hpending]
      refine ⟨_, rfl, ?_⟩
      rw [List.isEmpty_iff.mp hpending]
      simp [received, written]
    · rw [if_neg hpending, Sink.write_of_room hroom]
      exact ⟨_, rfl, by simp [received, written]⟩

end Output

/-! ## The text -/

/-- An instruction with no other register than the first. -/
theorem Instruction.canonical_zero (op : Operation) (imm : UInt64)
    (h : imm.toNat < 256 ^ (op.immediate?.map Operand.cost).getD 0) :
    Instruction.Canonical ⟨.of op, 0, 0, imm⟩ op := by
  have hzero : (0 : Int) ≤ 0 ∧ (0 : Int) < 16 := by decide
  exact ⟨⟨rfl, hzero, hzero, h⟩, fun _ => rfl, fun _ => rfl⟩

namespace Assembly

/-- The code that prints the string behind it: its address is pushed for the call. -/
def printerCode : List Instruction :=
  [⟨.of .adr, 0, 0, 16⟩, ⟨.of .push, 0, 0, 0⟩, ⟨.of .sys, 0, 0, 1⟩, ⟨.of .halt, 0, 0, 0⟩]

/-- Data as a literal. -/
def literal (data : Bytes) : Bytes := Ascii.quote :: (Escape.encode data ++ [Ascii.quote])

/-- The lines of a program that prints data. -/
def printerLines (data : Bytes) : List Bytes :=
  [bytes "adr r0, .s", bytes "push r0", bytes "sys U$0x1", bytes "halt", bytes ".s: " ++ literal data]

/-- The items of these lines. -/
def printerItems (data : Bytes) : List Item :=
  [.instruction .adr [⟨.register, bytes "0", 1⟩, ⟨.labelUse, bytes "s", 1⟩] 1,
   .instruction .push [⟨.register, bytes "0", 2⟩] 2, .instruction .sys [⟨.int32, bytes "0x1", 3⟩] 3,
   .instruction .halt [] 4, .label (bytes "s") 5, .string (Escape.encode data) 5]

theorem isLine_literal (before data : Bytes) (h : ∀ c ∈ before, Bytes.isInner c = true) :
    Bytes.IsLine (before ++ literal data) := by
  apply Bytes.isLine_of_isInner
  refine List.forall_mem_append.mpr ⟨h, List.forall_mem_cons.mpr ⟨by decide, ?_⟩⟩
  exact List.forall_mem_append.mpr ⟨Escape.isInner_encode data, List.forall_mem_singleton.mpr (by decide)⟩

/-- A literal is read as one string. -/
theorem lexFrom_literal (scope : Scope) (line : Int) (ts : List Token) (data : Bytes) :
    lexFrom scope line (.of ts []) (literal data) = .ok (.of (⟨.string, Escape.encode data, line⟩ :: ts) []) := by
  have hnext := Lexeme.next_string (Escape.quoted_encode data [])
  rw [literal, lexFrom_next hnext rfl rfl, lexFrom_end rfl]
  rfl

theorem lexLine_adr (scope : Scope) (number : Nat) :
    lexLine scope number (bytes "adr r0, .s") =
      .ok [⟨.instruction, bytes "adr", number⟩, ⟨.register, bytes "0", number⟩,
        ⟨.labelUse, bytes "s", number⟩] := by
  have hmnemonic : Lexeme.next (bytes "adr r0, .s") = .ok (some (.word (bytes "adr"), bytes " r0, .s")) := rfl
  have hregister : Lexeme.next (bytes " r0, .s") = .ok (some (.register (bytes "0"), bytes ", .s")) := rfl
  have hlabel : Lexeme.next (bytes ", .s") = .ok (some (.labelUse (bytes "s"), [])) := rfl
  apply lexLine_of_lexFrom
  rw [lexFrom_next hmnemonic rfl rfl, lexFrom_next hregister rfl rfl, lexFrom_next hlabel rfl rfl, lexFrom_end rfl]
  rfl

theorem lexLine_labelled (scope : Scope) (number : Nat) (data : Bytes) :
    lexLine scope number (bytes ".s: " ++ literal data) =
      .ok [⟨.labelDefinition, bytes "s", number⟩, ⟨.string, Escape.encode data, number⟩] := by
  have hlabel : Lexeme.next (bytes ".s: " ++ literal data) =
      .ok (some (.labelDefinition (bytes "s"), Ascii.space :: literal data)) :=
    @Lexeme.next_labelDefinition (bytes "s") (Ascii.space :: literal data) (List.cons_ne_nil _ _)
      (List.all_eq_true.mp rfl)
  have hoffer : ({} : Draft).offer ⟨.labelDefinition, bytes "s", number⟩ =
      .ok (.of [⟨.labelDefinition, bytes "s", number⟩] []) := rfl
  apply lexLine_of_lexFrom
  rw [lexFrom_next hlabel rfl hoffer, lexFrom_separator (by decide), lexFrom_literal]
  rfl

theorem lexLines_printer (scope : Scope) (data : Bytes) :
    lexLines scope 1 (printerLines data) = .ok ((printerItems data).flatMap Item.tokens) := by
  have hpush := (Instruction.canonical_zero .push 0 (by decide)).lexLine_text (scope.atNumber 2) 2
  have hsys := (Instruction.canonical_zero .sys 1 (by decide)).lexLine_text (scope.atNumber 3) 3
  have hhalt := (Instruction.canonical_zero .halt 0 (by decide)).lexLine_text (scope.atNumber 4) 4
  have hpushText : Instruction.text ⟨.of .push, 0, 0, 0⟩ = bytes "push r0" := by decide
  have hsysText : Instruction.text ⟨.of .sys, 0, 0, 1⟩ = bytes "sys U$0x1" := by decide
  have hhaltText : Instruction.text ⟨.of .halt, 0, 0, 0⟩ = bytes "halt" := by decide
  rw [hpushText] at hpush
  rw [hsysText] at hsys
  rw [hhaltText] at hhalt
  simp only [printerLines, lexLines, lexLine_adr, lexLine_labelled, hpush, hsys, hhalt]
  rfl

theorem complete_printerItems (data : Bytes) : ∀ i ∈ printerItems data, i.Complete := by
  have hadr : Item.Complete (.instruction .adr [⟨.register, bytes "0", 1⟩, ⟨.labelUse, bytes "s", 1⟩] 1) := by
    refine ⟨?_, rfl⟩
    have hregister : Token.HasValue ⟨.register, bytes "0", 1⟩ := ⟨0, rfl⟩
    simp only [Item.tokens, List.forall_mem_cons]
    exact ⟨⟨rfl, rfl⟩, ⟨hregister, rfl⟩, ⟨trivial, rfl⟩, List.forall_mem_nil _⟩
  have hpush := (Instruction.canonical_zero .push 0 (by decide)).complete_item 2
  have hsys := (Instruction.canonical_zero .sys 1 (by decide)).complete_item 3
  have hhalt := (Instruction.canonical_zero .halt 0 (by decide)).complete_item 4
  have hlabel : Item.Complete (.label (bytes "s") 5) :=
    ⟨by simp [Item.tokens, Token.HasValue, Item.line], trivial⟩
  have hstring : Item.Complete (.string (Escape.encode data) 5) :=
    ⟨by simp [Item.tokens, Token.HasValue, Item.line, Escape.decode?_encode], trivial⟩
  simp only [printerItems, List.forall_mem_cons]
  exact ⟨hadr, hpush, hsys, hhalt, hlabel, hstring, List.forall_mem_nil _⟩

theorem ofLine_printerLines (data : Bytes) : ∀ line ∈ printerLines data, Directive.ofLine line = .other := by
  simp only [printerLines, List.forall_mem_cons]
  exact ⟨ofLine_of_head _ (by decide), ofLine_of_head _ (by decide), ofLine_of_head _ (by decide),
    ofLine_of_head _ (by decide), ofLine_of_head _ (by decide), List.forall_mem_nil _⟩

theorem isLine_printerLines (data : Bytes) : ∀ line ∈ printerLines data, Bytes.IsLine line := by
  have hinner {text : Bytes} (h : text.all Bytes.isInner = true) : ∀ c ∈ text, Bytes.isInner c = true :=
    List.all_eq_true.mp h
  simp only [printerLines, List.forall_mem_cons]
  exact ⟨Bytes.isLine_of_isInner (hinner rfl), Bytes.isLine_of_isInner (hinner rfl),
    Bytes.isLine_of_isInner (hinner rfl), Bytes.isLine_of_isInner (hinner rfl), isLine_literal _ data (hinner rfl),
    List.forall_mem_nil _⟩

/-- The text of the program. -/
def printer (data : Bytes) : Bytes := (printerLines data).flatMap fun line => line ++ [Ascii.newline]

/-- The code of the printer and the data it prints. -/
theorem parse_printer (a : Assembler) (data : Bytes) :
    ∃ p, (a.parse (printer data)).1 = .ok p ∧
      p.image.toList = printerCode.flatMap Instruction.encode ++ data ++ [0] := by
  have hassemble := assemble_items (complete_printerItems data)
  have hduplicate : duplicate? [] (printerItems data) = none := rfl
  have hundefined : undefined? (printerItems data) = none := rfl
  rw [hduplicate, hundefined] at hassemble
  obtain ⟨p, hp, hdenotes⟩ := hassemble
  refine ⟨p, ?_, ?_⟩
  · rw [printer, Assembler.parse_eq (Assembler.expand_lines (isLine_printerLines data) (ofLine_printerLines data)),
      Bytes.lines_render (isLine_printerLines data), lexLines_printer]
    exact hp
  · -- The four instructions take sixteen bytes, so that is where the string is.
    have hlabel : p.labels[bytes "s"]? = some 16 :=
      (hdenotes.labels _ _).mpr ⟨16, List.mem_singleton.mpr rfl, rfl⟩
    have hadr : Item.instruction? (fun name => p.labels[name]?) .adr
        [⟨.register, bytes "0", 1⟩, ⟨.labelUse, bytes "s", 1⟩] = some ⟨.of .adr, 0, 0, 16⟩ := by
      have hregister : Token.register ⟨.register, bytes "0", 1⟩ = .ok 0 := rfl
      simp [Item.instruction?, Item.fields, Item.immediate?, hlabel, hregister, Except.toOption]
    have himage := hdenotes.image
    have hbytes : bytes? (fun name => p.labels[name]?) (printerItems data) =
        some (printerCode.flatMap Instruction.encode ++ data ++ [0]) := by
      simp only [printerItems, bytes?, Item.bytes?, hadr, Escape.decode?_encode]
      simp [printerCode]
      rfl
    rw [hbytes] at himage
    exact (Option.some.inj himage).symm

end Assembly

/-! ## The run -/

namespace Machine

/-- A machine performs the instruction that it is at. -/
theorem tick_of_decode {m m' : Machine} {i : Instruction} {op : Operation} (hdecode : m.image.decode m.pc = .ok i)
    (hop : i.opcode = .of op) (hhalt : Flag.isSet m.flags Flag.halt = false)
    (h : m.perform op (Register.ofInt i.dst) (Register.ofInt i.src) i.imm (placeAfter m.pc (Opcode.of op).width) =
      (m', none)) : m.tick = ({ m' with ticks := m'.ticks + 1 }, .ran) := by
  have hnot : m.isHalted = false := by
    obtain ⟨before, op, desc, operand, after, himage, hpc, -, -⟩ := Image.of_decode hdecode
    have hsize := congrArg List.length himage
    rw [Array.length_toList] at hsize
    simp only [List.length_append, List.length_cons] at hsize
    rw [isHalted, hhalt, hpc]
    simp only [Bool.false_or, decide_eq_false_iff_not, not_le, Nat.cast_lt]
    omega
  have hexecute : m.execute i = (m', none) := by
    rw [execute, hop, Opcode.operation?_of]
    exact h
  rw [tick, if_neg (by simp [hnot])]
  simp only [fetch, hdecode, hexecute]

/-- Printing to a sink that never fails. -/
theorem print_unfailing {m : Machine} (h : m.console.output.Unfailing) (text : Bytes) :
    ∃ console, m.print text = ({ m with console := console }, none) ∧ console.output.Unfailing ∧
      console.output.written = m.console.output.written ++ text := by
  obtain ⟨out, count, hwrite, hout, hwritten⟩ := Output.write_unfailing h text
  refine ⟨{ m.console with output := out }, ?_, hout, hwritten⟩
  simp only [print, Console.write, hwrite]

end Machine

/-- The code of the printer stands at the start of an image, and its data behind it. -/
def Image.Prints (image : Image) (data : Bytes) : Prop :=
  image.toList = Assembly.printerCode.flatMap Instruction.encode ++ data ++ [0]

theorem Image.Prints.decode {image : Image} {data : Bytes} (h : image.Prints data) :
    image.decode 0 = .ok ⟨.of .adr, 0, 0, 16⟩ ∧ image.decode 6 = .ok ⟨.of .push, 0, 0, 0⟩ ∧
      image.decode 8 = .ok ⟨.of .sys, 0, 0, 1⟩ ∧ image.decode 14 = .ok ⟨.of .halt, 0, 0, 0⟩ := by
  have hat {before after : List Instruction} {op : Operation} {imm : UInt64}
      (hcode : Assembly.printerCode = before ++ ⟨.of op, 0, 0, imm⟩ :: after)
      (himm : imm.toNat < 256 ^ (op.immediate?.map Operand.cost).getD 0) :
      image.decode (before.flatMap Instruction.encode).length = .ok ⟨.of op, 0, 0, imm⟩ := by
    refine @Image.decode_encode image _ op (Instruction.canonical_zero op imm himm) _
      (after.flatMap Instruction.encode ++ data ++ [0]) ?_
    rw [show image.toList = _ from h, hcode]
    simp
  refine ⟨?_, ?_, ?_, ?_⟩
  · exact @hat [] _ .adr 16 rfl (by decide)
  · exact @hat [⟨.of .adr, 0, 0, 16⟩] _ .push 0 rfl (by decide)
  · exact @hat [⟨.of .adr, 0, 0, 16⟩, ⟨.of .push, 0, 0, 0⟩] _ .sys 1 rfl (by decide)
  · exact @hat [⟨.of .adr, 0, 0, 16⟩, ⟨.of .push, 0, 0, 0⟩, ⟨.of .sys, 0, 0, 1⟩] _ .halt 0 rfl (by decide)

/-- A zero byte behind data ends what stands before the first zero byte at the same place. -/
theorem Bytes.takeWhile_terminated (data : Bytes) :
    (data ++ [0]).takeWhile (· != 0) = data.takeWhile (· != 0) := by
  induction data with
  | nil => rfl
  | cons b data ih =>
    by_cases hb : b = 0
    · simp [hb]
    · simp [hb, ih]

theorem Image.Prints.string {image : Image} {data : Bytes} (h : image.Prints data) :
    image.string 16 = .ok (data.takeWhile (· != 0)) := by
  have hdrop : image.toList.drop (16 : UInt64).toNat = data ++ [0] := by
    rw [show image.toList = _ from h, List.append_assoc]
    rfl
  rw [Image.string_eq, hdrop, if_pos (List.mem_append_right _ List.mem_cons_self)]
  rw [Bytes.takeWhile_terminated]

namespace Machine

/-- A machine with the printer as its image is at a place, with values on its stack and bytes written. -/
structure Printing (data : Bytes) (place : Nat) (stack : List UInt64) (out : Bytes) (m : Machine) : Prop where
  image : m.image.Prints data
  pc : m.pc = place
  running : Flag.isSet m.flags Flag.halt = false
  stack : m.operands.items = stack
  unfailing : m.console.output.Unfailing
  written : m.console.output.written = out

namespace Printing

variable {data out : Bytes} {place : Nat} {stack : List UInt64} {m m' : Machine}

theorem goes (h : m.Printing data place stack out) {op : Operation} {imm : UInt64}
    (hdecode : m.image.decode place = .ok ⟨.of op, 0, 0, imm⟩)
    (hperform : m.perform op 0 0 imm (placeAfter place (Opcode.of op).width) = (m', none)) :
    m.Goes { m' with ticks := m'.ticks + 1 } := by
  rw [← h.pc] at hdecode hperform
  exact .step (tick_of_decode hdecode rfl h.running hperform) .refl

/-- The address of the data goes to a register. -/
theorem adr (h : m.Printing data 0 [] out) : ∃ m', m.Goes m' ∧ m'.Printing data 6 [] out ∧ m'.reg 0 = 16 := by
  have hperform : m.perform .adr 0 0 16 (placeAfter 0 6) = ({ m.setReg 0 16 with pc := 6 }, none) := rfl
  refine ⟨_, h.goes h.image.decode.1 hperform, ?_, ?_⟩
  · exact ⟨h.image, rfl, h.running, h.stack, h.unfailing, h.written⟩
  · exact (reg_setReg m 0 0 16).trans (Function.update_self _ _ _)

/-- The address goes to the stack, which has room for it. -/
theorem push (h : m.Printing data 6 [] out) (hreg : m.reg 0 = 16) :
    ∃ m', m.Goes m' ∧ m'.Printing data 8 [16] out := by
  obtain ⟨operands, hpush, hitems, -⟩ := @Stack.push_of_room _ m.operands
    (by rw [h.stack, List.length_nil]; omega) 16
  have hperform : m.perform .push 0 0 0 (placeAfter 6 2) = ({ m with operands := operands, pc := 8 }, none) := by
    simp only [perform, hreg, hpush]
    rfl
  refine ⟨_, h.goes h.image.decode.2.1 hperform, ?_⟩
  exact ⟨h.image, rfl, h.running, hitems.trans (by rw [h.stack]), h.unfailing, h.written⟩

/-- The call takes the address and prints the data up to the first zero byte. -/
theorem sys (h : m.Printing data 8 [16] out) :
    ∃ m', m.Goes m' ∧ m'.Printing data 14 [] (out ++ data.takeWhile (· != 0)) := by
  obtain ⟨operands, hpop, hitems, -⟩ := Stack.pop_of_cons h.stack
  obtain ⟨console, hprint, hout, hwritten⟩ :=
    @print_unfailing { m with operands := operands } h.unfailing (data.takeWhile (· != 0))
  have hcall : m.syscall 1 = ({ m with operands := operands, console := console }, none) := by
    have hstring := h.image.string
    show m.printString (fun m address => m.image.string address) = _
    simp only [printString, popping, hpop, hstring, hprint]
  have hperform : m.perform .sys 0 0 1 (placeAfter 8 6) =
      ({ m with operands := operands, console := console, pc := 14 }, none) := by
    simp only [perform, hcall]
    rfl
  refine ⟨_, h.goes h.image.decode.2.2.1 hperform, ?_⟩
  exact ⟨h.image, rfl, h.running, hitems, hout, hwritten.trans (by rw [h.written])⟩

/-- The printer halts with its output unchanged. -/
theorem halt (h : m.Printing data 14 [] out) :
    ∃ m', m.Goes m' ∧ m'.isHalted = true ∧ m'.console.output.Unfailing ∧ m'.console.output.written = out := by
  have hperform : m.perform .halt 0 0 0 (placeAfter 14 2) =
      ({ m with flags := m.flags ||| Flag.halt, pc := 16 }, none) := rfl
  refine ⟨_, h.goes h.image.decode.2.2.2 hperform, ?_, h.unfailing, h.written⟩
  rw [isHalted]
  show (Flag.isSet (m.flags ||| Flag.halt) Flag.halt || _) = true
  rw [isSet_halt, Bool.true_or]

/-- From its start, the printer prints its data up to the first zero byte and halts. -/
theorem prints (h : m.Printing data 0 [] out) :
    ∃ m', m.Goes m' ∧ m'.isHalted = true ∧ m'.console.output.Unfailing ∧
      m'.console.output.written = out ++ data.takeWhile (· != 0) := by
  obtain ⟨m₁, hadr, h₁, hreg⟩ := h.adr
  obtain ⟨m₂, hpush, h₂⟩ := h₁.push hreg
  obtain ⟨m₃, hsys, h₃⟩ := h₂.sys
  obtain ⟨m₄, hhalt, hend⟩ := h₃.halt
  exact ⟨m₄, ((hadr.trans hpush).trans hsys).trans hhalt, hend⟩

end Printing

end Machine

namespace Emulator

/-- An emulator ticks as its machine does. -/
theorem steps_of_goes {e : Emulator} {m' : Machine} (h : e.machine.Goes m') :
    ∃ n, ∀ fuel, steps (n + fuel) e = steps fuel { e with machine := m' } := by
  obtain ⟨p, m⟩ := e
  dsimp only at h
  induction h with
  | refl => exact ⟨0, fun fuel => by rw [Nat.zero_add]⟩
  | @step s s' s'' htick _ ih =>
    obtain ⟨n, hn⟩ := ih
    refine ⟨n + 1, fun fuel => ?_⟩
    rw [Nat.add_right_comm, steps]
    simp only [tick, htick]
    exact hn fuel

/-- A machine that goes on until it halts, with a sink that never fails: the run is done, and the sink has all
that was written. -/
theorem run_of_goes {e : Emulator} {m' : Machine} (h : e.machine.Goes m') (hhalt : m'.isHalted = true)
    (hout : m'.console.output.Unfailing) :
    ∃ n e', (∀ fuel, e.run (n + 1 + fuel) = (e', .done)) ∧ e'.machine.isHalted = true ∧
      e'.machine.console.output.received.toList = m'.console.output.written := by
  obtain ⟨n, hn⟩ := steps_of_goes h
  obtain ⟨out, hflush, hreceived⟩ := Output.flush_unfailing hout
  refine ⟨n, ⟨e.program, { m' with console := { m'.console with output := out } }⟩, fun fuel => ?_, hhalt,
    hreceived⟩
  -- One more tick finds the machine halted, and then the run flushes its output.
  have hdone : steps (n + 1 + fuel) e = ({ e with machine := m' }, .done) := by
    rw [Nat.add_assoc, hn, Nat.add_comm, steps]
    simp only [tick, Machine.tick_of_halted hhalt]
  simp only [run, hdone, close, Console.flush, hflush]

end Emulator

namespace Assembly

/-- A literal alone is read as one string. -/
theorem lex_literal (a : Assembler) (data : Bytes) :
    (a.lex (literal data)).1 = .ok ⟨[⟨.string, Escape.encode data, 1⟩], 1⟩ := by
  have hline := isLine_literal [] data (List.forall_mem_nil _)
  obtain ⟨expanded, hexpand, hlines⟩ := a.expand_line hline (List.cons_ne_nil _ _) (ofLine_of_head _ (by decide))
  have hlex (scope : Scope) (number : Nat) :
      lexLine scope number (literal data) = .ok [⟨.string, Escape.encode data, number⟩] :=
    lexLine_of_lexFrom (lexFrom_literal scope number [] data)
  rw [List.nil_append] at hexpand hlines
  simp only [Assembler.lex, Assembler.tokenize, hexpand, hlines, lexLines, hlex]
  rfl

/-- Data that is written as a literal is one string, which stands for that data. A program that prints the
string ends in the data and a zero byte. Run with a sink that never fails, it halts, and the sink gets what
stands before the first zero byte, which is all the data if there is none. -/
theorem literal_prints (a : Assembler) (data : Bytes) {e : Emulator} (hout : e.machine.console.output.Unfailing) :
    (a.lex (literal data)).1 = .ok ⟨[⟨.string, Escape.encode data, 1⟩], 1⟩ ∧
    Escape.decode? (Escape.encode data) = some data ∧
    ∃ p, (a.parse (printer data)).1 = .ok p ∧
      p.image.toList = printerCode.flatMap Instruction.encode ++ data ++ [0] ∧
      ∃ n e', (∀ fuel, ({ e with program := p } : Emulator).reset.run (n + fuel) = (e', .done)) ∧
        e'.machine.isHalted = true ∧
        e'.machine.console.output.received.toList =
          e.machine.console.output.written ++ data.takeWhile (· != 0) ∧
        (0 ∉ data → e'.machine.console.output.received.toList = e.machine.console.output.written ++ data) := by
  refine ⟨lex_literal a data, Escape.decode?_encode data, ?_⟩
  obtain ⟨p, hp, himage⟩ := parse_printer a data
  refine ⟨p, hp, himage, ?_⟩
  have hstart :
      ({ e with program := p } : Emulator).reset.machine.Printing data 0 [] e.machine.console.output.written :=
    ⟨himage, rfl, show Flag.isSet 0 Flag.halt = false by decide, rfl, hout, rfl⟩
  obtain ⟨m', hgoes, hhalt, hunfailing, hwritten⟩ := hstart.prints
  obtain ⟨n, e', hrun, hend, hreceived⟩ := Emulator.run_of_goes hgoes hhalt hunfailing
  refine ⟨n + 1, e', hrun, hend, hreceived.trans hwritten, fun hzero => ?_⟩
  have hall : data.takeWhile (· != 0) = data := by
    rw [List.takeWhile_eq_self_iff]
    intro b hb
    exact bne_iff_ne.mpr fun heq => hzero (heq ▸ hb)
  rw [hreceived, hwritten, hall]

/-- Data with a quote, a backslash, a comment mark, a newline and a byte that is no text, printed through a
buffer. -/
theorem literal_prints_quote :
    Escape.encode [0x22, 0x5c, 0x3b, 0x0a, 0xff] = bytes "\\\"\\\\;\\n" ++ [0xff] ∧
    ∃ p n e', (({} : Assembler).parse (printer [0x22, 0x5c, 0x3b, 0x0a, 0xff])).1 = .ok p ∧
      (∀ fuel, (⟨p, .create 16 8 8 { output := .buffered {} [] none } (.store ∅)⟩ : Emulator).reset.run
        (n + fuel) = (e', .done)) ∧
      e'.machine.console.output.received.toList = [0x22, 0x5c, 0x3b, 0x0a, 0xff] := by
  refine ⟨by decide +kernel, ?_⟩
  obtain ⟨-, -, p, hp, -, n, e', hrun, -, -, hreceived⟩ := @literal_prints {} [0x22, 0x5c, 0x3b, 0x0a, 0xff]
    ⟨{}, .create 16 8 8 { output := .buffered {} [] none } (.store ∅)⟩ ⟨rfl, rfl⟩
  exact ⟨p, n, e', hp, hrun, hreceived (by decide)⟩

end Assembly

end WordMachine
