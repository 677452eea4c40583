import Mathlib
import WordMachine.Emulator
import WordMachine.Proofs.Assembly.Lines
import WordMachine.Proofs.Machine.Fault

/-!
# `Proofs.LineNumbers` — the lines of places

Instructions are laid one after the other and never overlap, so the last one that starts at or before a place
is the only one that can hold it. A place inside an instruction has its line, wherever a jump came from, and
string data has none.

Contents:
* `mem_entries`, `TextReads.of_mem`, `Program.Denotes.encoded`: the line and the bytes of an instruction;
* `Parts`, `parts_searchFrom`: what halving a range finds;
* `pairwise_entries`, `Program.exists_lastBefore_eq`, `Program.lastBefore_eq_some_iff`: the table of lines is
  ascending, and is searched for the last entry at or before a place;
* `Within`, `debug?_eq_some_iff`: the instruction that a place lies in;
* `Emulator.Reaches`, `Emulator.tick_failed`: ticks that fail;
* `parse_locates`.
-/

namespace WordMachine

namespace Assembly

/-! ## Instructions and their lines -/

theorem mem_entries {start : Nat} {items : List Item} {entry : LineEntry} :
    entry ∈ entries start items ↔
      ∃ before op operands after, items = before ++ .instruction op operands entry.line :: after ∧
        entry.offset = start + extent before := by
  constructor
  · intro h
    induction items generalizing start with
    | nil => cases h
    | cons i rest ih =>
      have hrest (h : entry ∈ entries (start + i.size) rest) :
          ∃ before op operands after, i :: rest = before ++ .instruction op operands entry.line :: after ∧
            entry.offset = start + extent before := by
        obtain ⟨before, op, operands, after, rfl, hoffset⟩ := ih h
        exact ⟨i :: before, op, operands, after, rfl, by rw [hoffset, extent]; omega⟩
      cases i with
      | label name line => exact hrest h
      | string raw line => exact hrest h
      | instruction op operands line =>
        rcases List.mem_cons.mp h with rfl | h
        · exact ⟨[], op, operands, rest, rfl, rfl⟩
        · exact hrest h
  · rintro ⟨before, op, operands, after, rfl, hoffset⟩
    rw [entries_append, ← hoffset]
    exact List.mem_append_right _ List.mem_cons_self

/-- Every item of a text is read on its line. -/
theorem TextReads.of_mem {scope : Scope} {number : Nat} {lines : List Bytes} {items : List Item} {i : Item}
    (h : TextReads scope number lines items) (hi : i ∈ items) :
    ∃ n text own, lines[n]? = some text ∧ LineReads scope (number + n) text own ∧ i ∈ own ∧
      i.line = (number + n : Nat) := by
  induction h with
  | nil => cases hi
  | @cons number line lines items more head tail ih =>
    rcases List.mem_append.mp hi with hi | hi
    · exact ⟨0, line, items, rfl, head, hi, head.line_eq i hi⟩
    · obtain ⟨n, text, own, hline, hreads, hmem, heq⟩ := ih hi
      rw [Nat.add_right_comm] at hreads heq
      exact ⟨n + 1, text, own, hline, hreads, hmem, heq⟩

/-- The bytes of an instruction stand behind those of the items before it. -/
theorem Program.Denotes.encoded {p : Program} {before after : List Item} {op : Operation} {operands : List Token}
    {line : Int} (hp : p.Denotes (before ++ .instruction op operands line :: after)) :
    ∃ i head tail, Item.instruction? (fun name => p.labels[name]?) op operands = some i ∧
      p.image.toList = head ++ i.encode ++ tail ∧ head.length = extent before ∧
      i.encode.length = (Opcode.of op).width ∧ p.image[extent before]? = some op.code := by
  have himage := hp.image
  rw [bytes?_append] at himage
  obtain ⟨head, hhead, himage⟩ := Option.bind_eq_some_iff.mp himage
  obtain ⟨rest, hrest, himage⟩ := Option.map_eq_some_iff.mp himage
  obtain ⟨bs, hbs, hrest⟩ := Option.bind_eq_some_iff.mp hrest
  obtain ⟨tail, -, rfl⟩ := Option.map_eq_some_iff.mp hrest
  obtain ⟨i, hi, rfl⟩ := Option.map_eq_some_iff.mp hbs
  have hlength := length_of_bytes? hhead
  have hopcode : i.opcode = .of op := by
    obtain ⟨f, -, rfl⟩ := Option.map_eq_some_iff.mp hi
    rfl
  refine ⟨i, head, tail, hi, by rw [← himage, List.append_assoc], hlength, ?_, ?_⟩
  · rw [Instruction.length_encode, hopcode]
  · rw [← Array.getElem?_toList, ← himage, ← hlength, List.getElem?_append_right (Nat.le_refl _), Nat.sub_self,
      Instruction.encode, hopcode]
    rfl

/-! ## The table of lines -/

/-- A number parts a range: before it a test fails, from it on the test is passed. -/
structure Parts (test : Nat → Bool) (low high n : Nat) : Prop where
  least : low ≤ n
  most : n ≤ high
  fails : ∀ i, low ≤ i → i < n → test i = false
  passes : ∀ i, n ≤ i → i < high → test i = true

/-- Halving a range finds where a test begins to be passed. -/
theorem parts_searchFrom {test : Nat → Bool} (htest : ∀ i j, i ≤ j → test i = true → test j = true)
    {low high : Nat} (hle : low ≤ high) : Parts test low high (searchFrom test low high) := by
  fun_induction searchFrom test low high with
  | case1 low high hlt _ _ hmiddle ih =>
    have hparts := ih (by omega)
    refine ⟨hparts.least, by have := hparts.most; omega, hparts.fails, fun i hi hhigh => ?_⟩
    by_cases hbefore : i < (low + high) / 2
    · exact hparts.passes i hi hbefore
    · exact htest _ i (by omega) hmiddle
  | case2 low high hlt _ _ hmiddle ih =>
    have hparts := ih (by omega)
    refine ⟨by have := hparts.least; omega, hparts.most, fun i hlow hi => ?_, hparts.passes⟩
    by_cases hbehind : (low + high) / 2 < i
    · exact hparts.fails i hbehind hi
    · -- a number up to the middle fails, since else the middle would pass
      by_contra hpasses
      exact hmiddle (htest i _ (by omega) (Bool.not_eq_false _ ▸ hpasses))
  | case3 low high hlt =>
    exact ⟨Nat.le_refl low, hle, fun i hlow hi => by omega, fun i hi hhigh => by omega⟩

/-- Instructions have bytes, so their offsets ascend. -/
theorem pairwise_entries (start : Nat) (items : List Item) :
    (entries start items).Pairwise fun a b => a.offset < b.offset := by
  induction items generalizing start with
  | nil => exact .nil
  | cons i rest ih =>
    cases i with
    | label name line => exact ih _
    | string raw line => exact ih _
    | instruction op operands line =>
      refine List.pairwise_cons.mpr ⟨fun entry hentry => ?_, ih _⟩
      obtain ⟨before, _, _, _, -, hoffset⟩ := mem_entries.mp hentry
      have hwidth : 0 < (Opcode.of op).width := by
        rw [Opcode.width]
        omega
      rw [hoffset, Item.size]
      dsimp only
      omega

namespace Program

variable {p : Program}

/-- In an ascending table, the entries at or before a place are the first ones, and the search finds how many there
are. -/
theorem exists_lastBefore_eq (hlines : p.lines.Pairwise fun a b => a.offset < b.offset) (pc : Int) :
    ∃ n ≤ p.lines.length, (p.lastBefore pc = if n = 0 then none else p.lines[n - 1]?) ∧
      ∀ {i l}, p.lines[i]? = some l → (l.offset ≤ pc ↔ i < n) := by
  have hascends : ∀ i j : Nat, i ≤ j →
      ((p.lines.toArray[i]?).all fun l : LineEntry => decide (pc < l.offset)) = true →
      ((p.lines.toArray[j]?).all fun l : LineEntry => decide (pc < l.offset)) = true := by
    intro i j hij hi
    by_cases hj : j < p.lines.length
    · have hi' : i < p.lines.length := by omega
      simp only [List.getElem?_toArray, List.getElem?_eq_getElem, hi', hj, Option.all_some, decide_eq_true_eq] at hi ⊢
      rcases Nat.lt_or_eq_of_le hij with hlt | rfl
      · have hoffset := List.pairwise_iff_getElem.mp hlines i j hi' hj hlt
        omega
      · exact hi
    · simp only [List.getElem?_toArray, List.getElem?_eq_none (Nat.le_of_not_lt hj), Option.all_none]
  have hparts := parts_searchFrom hascends (Nat.zero_le p.lines.toArray.size)
  refine ⟨_, hparts.most, by rw [lastBefore, List.getElem?_toArray], ?_⟩
  intro i l hl
  constructor
  · intro hle
    by_contra hnot
    have htest := hparts.passes i (Nat.le_of_not_lt hnot) (List.getElem?_eq_some_iff.mp hl).1
    simp only [List.getElem?_toArray, hl, Option.all_some, decide_eq_true_eq] at htest
    omega
  · intro hi
    have htest := hparts.fails i (Nat.zero_le i) hi
    simp only [List.getElem?_toArray, hl, Option.all_some, decide_eq_false_iff_not] at htest
    omega

/-- In an ascending table, the search finds the last entry at or before a place. -/
theorem lastBefore_eq_some_iff (hlines : p.lines.Pairwise fun a b => a.offset < b.offset) (pc : Int)
    (entry : LineEntry) : p.lastBefore pc = some entry ↔
      ∃ earlier later, p.lines = earlier ++ entry :: later ∧ entry.offset ≤ pc ∧
        ∀ l ∈ later, pc < l.offset := by
  obtain ⟨n, hn, heq, hfirst⟩ := exists_lastBefore_eq hlines pc
  rw [heq]
  constructor
  · intro h
    split at h
    · cases h
    next hpos =>
      obtain ⟨hlt, hget⟩ := List.getElem?_eq_some_iff.mp h
      have hsplit : p.lines = p.lines.take (n - 1) ++ entry :: p.lines.drop (n - 1 + 1) := by
        rw [← hget, ← List.drop_eq_getElem_cons hlt, List.take_append_drop]
      refine ⟨_, _, hsplit, (hfirst h).mpr (by omega), fun l hl => ?_⟩
      obtain ⟨k, hk⟩ := List.getElem?_of_mem hl
      rw [List.getElem?_drop] at hk
      have hbehind := (hfirst hk).not.mpr (by omega)
      omega
  · rintro ⟨earlier, later, hsplit, hle, hlater⟩
    have hentry : p.lines[earlier.length]? = some entry := by
      rw [hsplit, List.getElem?_append_right (Nat.le_refl _), Nat.sub_self]
      rfl
    have hbefore : earlier.length < n := (hfirst hentry).mp hle
    -- the entry that is found is not one of those behind, since it is at or before the place
    have hbehind : n ≤ earlier.length + 1 := by
      by_contra hnot
      obtain ⟨last, hlast⟩ : ∃ last, p.lines[n - 1]? = some last := ⟨_, List.getElem?_eq_getElem (by omega)⟩
      have hoffset := (hfirst hlast).mpr (by omega)
      rw [hsplit, List.getElem?_append_right (by omega), List.getElem?_cons,
        if_neg (show n - 1 - earlier.length ≠ 0 by omega)] at hlast
      have hlt := hlater _ (List.mem_of_getElem? hlast)
      omega
    rw [if_neg (by omega), show n - 1 = earlier.length by omega, hentry]

end Program

/-! ## Places -/

/-- A place lies in the bytes of an instruction, which starts at the offset and stands on the line of an entry;
the index counts the bytes before the place. -/
def Within (items : List Item) (pc : Int) (d : Program.Debug) : Prop :=
  ∃ before op operands after, items = before ++ .instruction op operands d.entry.line :: after ∧
    d.entry.offset = extent before ∧ (extent before : Int) ≤ pc ∧ pc < extent before + (Opcode.of op).width ∧
    (d.index : Int) = pc - extent before

/-- The table of an assembled program is ascending. -/
theorem Program.Denotes.ascending {p : Program} {items : List Item} (hp : p.Denotes items) :
    p.lines.Pairwise fun a b => a.offset < b.offset := by
  rw [hp.lines]
  exact pairwise_entries 0 items

/-- The last instruction that starts at or before a place is the one that the place lies in, if it lies in one:
all later ones start behind it. -/
theorem Program.Denotes.lastBefore {p : Program} {before after : List Item} {op : Operation}
    {operands : List Token} {line pc : Int} (hp : p.Denotes (before ++ .instruction op operands line :: after))
    (hle : (extent before : Int) ≤ pc) (hlt : pc < extent before + (Opcode.of op).width) :
    p.lastBefore pc = some ⟨extent before, line⟩ := by
  have hlines : p.lines = entries 0 before ++ ⟨extent before, line⟩ ::
      entries (extent before + (Opcode.of op).width) after := by
    rw [hp.lines, entries_append, Nat.zero_add]
    rfl
  refine (p.lastBefore_eq_some_iff hp.ascending pc _).mpr ⟨_, _, hlines, hle, fun entry hentry => ?_⟩
  obtain ⟨_, _, _, _, -, hoffset⟩ := mem_entries.mp hentry
  omega

theorem opcode_eq_of {p : Program} {offset : Nat} {op : Operation} (h : p.image[offset]? = some op.code) :
    (⟨p.image[offset]?.getD 0⟩ : Opcode) = .of op := by
  rw [h]
  rfl

/-- A place is traced to an entry if and only if it lies in the instruction of that entry. -/
theorem Program.Denotes.debug?_eq_some_iff {p : Program} {items : List Item} (hp : p.Denotes items) (pc : Int)
    (d : Program.Debug) : p.debug? pc = some d ↔ Within items pc d := by
  constructor
  · intro h
    unfold Program.debug? at h
    split at h
    · cases h
    next entry hlast =>
      -- the last entry that starts at the place or before it
      obtain ⟨earlier, later, hsplit, hle, -⟩ := (p.lastBefore_eq_some_iff hp.ascending pc entry).mp hlast
      have hmem : entry ∈ entries 0 items := by
        rw [← hp.lines, hsplit]
        exact List.mem_append_right _ List.mem_cons_self
      obtain ⟨before, op, operands, after, rfl, hoffset⟩ := mem_entries.mp hmem
      rw [Nat.zero_add] at hoffset
      obtain ⟨i, head, tail, -, -, -, -, hcode⟩ := hp.encoded
      rw [← hoffset] at hcode
      simp only [opcode_eq_of hcode] at h
      split at h
      · cases h
      · split at h
        · cases h
        next hlt =>
          cases h
          have hindex : ((pc.toNat - entry.offset : Nat) : Int) = pc - extent before := by omega
          exact ⟨before, op, operands, after, rfl, hoffset, by omega, by omega, hindex⟩
  · rintro ⟨before, op, operands, after, rfl, hoffset, hle, hlt, hindex⟩
    obtain ⟨i, head, tail, -, -, -, -, hcode⟩ := hp.encoded
    have hlast := hp.lastBefore hle hlt
    have hsize : extent before + (Opcode.of op).width ≤ p.image.size := by
      rw [hp.size, extent_append, extent, Item.size]
      omega
    have hinside : ¬((p.image.size : Int) ≤ pc) := by omega
    have hbehind : ¬(((extent before + (Opcode.of op).width : Nat) : Int) ≤ pc) := by omega
    unfold Program.debug?
    simp only [hlast, opcode_eq_of hcode, if_neg hinside, if_neg hbehind]
    obtain ⟨⟨offset, line⟩, index⟩ := d
    dsimp only at hoffset hindex
    have heq : pc.toNat - extent before = index := by omega
    rw [heq, hoffset]

/-- A place that lies in no instruction is traced to none. -/
theorem Program.Denotes.debug?_eq_none_iff {p : Program} {items : List Item} (hp : p.Denotes items) (pc : Int) :
    p.debug? pc = none ↔ ∀ d, ¬ Within items pc d := by
  rw [Option.eq_none_iff_forall_ne_some]
  exact forall_congr' fun d => not_congr (hp.debug?_eq_some_iff pc d)

end Assembly

/-! ## Ticks that fail -/

namespace Emulator

/-- The emulators that ticks lead to, while the host may at any time give other input, take the output elsewhere
and change files. -/
inductive Reaches (e : Emulator) : Emulator → Prop where
  | here : Reaches e e
  | tick {s : Emulator} (h : Reaches e s) : Reaches e s.tick.1
  | host {s : Emulator} (console : Console) (files : FileSystem) (h : Reaches e s) :
      Reaches e { s with machine := s.machine.withHost console files }

theorem program_tick (e : Emulator) : e.tick.1.program = e.program := by
  unfold tick
  split <;> rfl

/-- Ticks keep the program. -/
theorem Reaches.program {e s : Emulator} (h : e.Reaches s) : s.program = e.program := by
  induction h with
  | here => rfl
  | tick _ ih => rw [program_tick, ih]
  | host _ _ _ ih => exact ih

/-- A tick that fails stays at the place where the trap is. -/
theorem tick_failed {e e' : Emulator} {error : RuntimeError} (h : e.tick = (e', .failed error)) :
    error.pc = error.trap.pc ∧ error.pc = e'.machine.pc ∧
      error.line = ((e.program.debug? error.pc).map fun d => d.entry.line).getD 0 := by
  unfold tick at h
  split at h
  · cases h
  · cases h
  next m t htick =>
    cases h
    refine ⟨(Machine.byte_of_trapped htick).1.symm, (Machine.leaves_of_trapped htick).pc.symm, ?_⟩
    show e.lineNumber = _
    unfold lineNumber
    cases e.program.debug? e.machine.pc <;> rfl

end Emulator

namespace Assembly

/-- A text that is accepted consists of items, and its program is what they say. -/
theorem denotes_of_parse {a : Assembler} {text : Bytes} {p : Program} (h : (a.parse text).1 = .ok p) :
    ∃ source items, a.expand text = .ok source ∧ TextReads a.initialScope 1 (Bytes.lines source) items ∧
      p.Denotes items := by
  cases hexpand : a.expand text with
  | error e =>
    have hreset : a.reset.expand text = .error e := hexpand
    simp [Assembler.parse, Assembler.lex, Assembler.tokenize, hreset] at h
  | ok source =>
    rw [Assembler.parse_eq hexpand] at h
    cases hlines : lexLines a.initialScope 1 (Bytes.lines source) with
    | error e =>
      rw [hlines] at h
      cases h
    | ok ts =>
      rw [hlines] at h
      obtain ⟨items, hreads, rfl⟩ := reads_of_lexLines hlines
      exact ⟨source, items, rfl, hreads, denotes_of_assemble hreads.complete h⟩

/-- Every text that is accepted consists of items, each instruction read on its line and encoded behind the items
before it, and the table of lines is ascending. A place is traced to an instruction, with its offset, its line
and the index in it, if and only if it lies in the bytes of that instruction, and to nothing otherwise. So in
every run, an error tells the place where the machine is trapped, and the line of the instruction that this
place lies in, or zero if it lies in none. -/
theorem parse_locates {a : Assembler} {text : Bytes} {p : Program} (h : (a.parse text).1 = .ok p) :
    ∃ source items, a.expand text = .ok source ∧ TextReads a.initialScope 1 (Bytes.lines source) items ∧
      (∀ before op operands (line : Int) after, items = before ++ .instruction op operands line :: after →
        (∃ n lineText own, (Bytes.lines source)[n]? = some lineText ∧ line = (1 + n : Nat) ∧
          LineReads a.initialScope (1 + n) lineText own ∧ .instruction op operands line ∈ own) ∧
        ∃ i head tail, Item.instruction? (fun name => p.labels[name]?) op operands = some i ∧
          p.image.toList = head ++ i.encode ++ tail ∧ head.length = extent before ∧
          i.encode.length = (Opcode.of op).width) ∧
      (p.lines.Pairwise fun a b => a.offset < b.offset) ∧
      (∀ pc d, p.debug? pc = some d ↔ Within items pc d) ∧
      (∀ pc, p.debug? pc = none ↔ ∀ d, ¬ Within items pc d) ∧
      ∀ (e s s' : Emulator) (error : RuntimeError), e.program = p → e.Reaches s → s.tick = (s', .failed error) →
        error.pc = error.trap.pc ∧ error.pc = s'.machine.pc ∧
          ((∃ d, Within items error.pc d ∧ error.line = d.entry.line ∧ 0 < error.line) ∨
            (∀ d, ¬ Within items error.pc d) ∧ error.line = 0) := by
  obtain ⟨source, items, hexpand, hreads, hdenotes⟩ := denotes_of_parse h
  have hline {i : Item} (hi : i ∈ items) := hreads.of_mem hi
  refine ⟨source, items, hexpand, hreads, ?_, hdenotes.ascending, hdenotes.debug?_eq_some_iff,
    hdenotes.debug?_eq_none_iff, ?_⟩
  · rintro before op operands line after rfl
    obtain ⟨n, lineText, own, hget, hown, hmem, heq⟩ := hline (List.mem_append_right _ List.mem_cons_self)
    obtain ⟨i, head, tail, hi, himage, hhead, hlength, -⟩ := hdenotes.encoded
    exact ⟨⟨n, lineText, own, hget, heq, hown, hmem⟩, i, head, tail, hi, himage, hhead, hlength⟩
  · intro e s s' error he hreaches htick
    obtain ⟨htrap, hpc, hnumber⟩ := Emulator.tick_failed htick
    rw [hreaches.program, he] at hnumber
    refine ⟨htrap, hpc, ?_⟩
    cases hdebug : p.debug? error.pc with
    | none =>
      rw [hdebug] at hnumber
      exact .inr ⟨(hdenotes.debug?_eq_none_iff _).mp hdebug, hnumber⟩
    | some d =>
      rw [hdebug] at hnumber
      have hwithin := (hdenotes.debug?_eq_some_iff _ _).mp hdebug
      refine .inl ⟨d, hwithin, hnumber, ?_⟩
      -- lines are numbered from one on, so a line is never taken for none
      obtain ⟨before, op, operands, after, rfl, -⟩ := hwithin
      obtain ⟨n, _, _, _, _, _, heq⟩ := hline (List.mem_append_right _ List.mem_cons_self)
      have hentry : d.entry.line = (1 + n : Nat) := heq
      have hvalue : error.line = d.entry.line := hnumber
      omega

/-- A jump into the immediate of an instruction, and one to string data. -/
theorem parse_locates_jumps :
    (∃ p s error, (({} : Assembler).parse (bytes "jmp U$0x8\nmov r0, $0xff")).1 = .ok p ∧
      (⟨p, .create 16 8 8 {} (.store ∅)⟩ : Emulator).reset.tick.1.tick = (s, .failed error) ∧
      error.line = 2 ∧ error.pc = 8 ∧ s.machine.pc = 8) ∧
    ∃ p s error, (({} : Assembler).parse (bytes "jmp .d\n.d: \"hi\"")).1 = .ok p ∧
      (⟨p, .create 16 8 8 {} (.store ∅)⟩ : Emulator).reset.tick.1.tick = (s, .failed error) ∧
      error.line = 0 ∧ error.pc = 6 ∧ s.machine.pc = 6 := by
  have hrun {text : Bytes} {error : RuntimeError}
      (h : (({} : Assembler).parse text).1.toOption.map (fun p =>
        (⟨p, .create 16 8 8 {} (.store ∅)⟩ : Emulator).reset.tick.1.tick.2) = some (.failed error)) :
      ∃ p s, (({} : Assembler).parse text).1 = .ok p ∧
        (⟨p, .create 16 8 8 {} (.store ∅)⟩ : Emulator).reset.tick.1.tick = (s, .failed error) ∧
        error.pc = s.machine.pc := by
    cases hp : (({} : Assembler).parse text).1 with
    | error e =>
      rw [hp] at h
      cases h
    | ok p =>
      rw [hp] at h
      have htick : (⟨p, .create 16 8 8 {} (.store ∅)⟩ : Emulator).reset.tick.1.tick = (_, .failed error) :=
        Prod.ext rfl (Option.some.inj h)
      obtain ⟨_, _, _, _, _, _, _, _, hfailed⟩ := parse_locates hp
      exact ⟨p, _, rfl, htick, (hfailed _ _ _ _ rfl (.tick .here) htick).2.1⟩
  have hinside := @hrun (bytes "jmp U$0x8\nmov r0, $0xff") ⟨8, 2, ⟨8, ⟨0xff⟩, .unknownOpcode 0xff⟩⟩
    (by decide +kernel)
  have hdata := @hrun (bytes "jmp .d\n.d: \"hi\"") ⟨6, 0, ⟨6, ⟨0x68⟩, .unknownOpcode 0x68⟩⟩
    (by decide +kernel)
  obtain ⟨p, s, hp, htick, hpc⟩ := hinside
  obtain ⟨p', s', hp', htick', hpc'⟩ := hdata
  exact ⟨⟨p, s, _, hp, htick, rfl, rfl, hpc.symm⟩, p', s', _, hp', htick', rfl, rfl, hpc'.symm⟩

end Assembly

end WordMachine
