import Mathlib
import WordMachine.Proofs.Machine.Frame
import WordMachine.Proofs.Source.Names

/-!
# `Proofs.Source.Generated` — what one statement adds to the code

Code within a method never halts, branches only to labels of comparisons and blocks, calls only methods,
and reads the addresses of string data. The six ways in which a statement changes the generator are
listed once, with the code each of them adds; all that is proved of whole programs rests on that list.

Contents:
* `Line.Inner`, `labels`, `localTargets`: lines of a method body and the labels they define and need;
* `Generator.Passes`, `Generator.consume_eq` and the equations of the other generating functions;
* `Role`, `Generator.Handles`, `Generator.handles_of_word`, `Generator.statement_cases`: what a word or a literal
  does, case by case;
* `Token.Addressed`: the word stands for no memory address of more than 32 bits;
* `Generator.Emits`, `Generator.Grows`, `Generator.grows_of_statement`.
-/

namespace WordMachine

theorem Operation.operands_of_isBranch {op : Operation} (h : op.isBranch = true) : op.operands = [.imm32] := by
  cases op <;> first | rfl | cases h

namespace Source

/-! ## Lines of a method body -/

/-- The labels that stand inside methods. -/
def Label.isLocal : Label → Bool
  | .holds _ | .join _ | .loop _ | .blockEnd _ => true
  | _ => false

/-- The labels that an operation in a method may name. -/
def Label.Target (d : Declarations) (literals : Nat) (op : Operation) : Label → Prop
  | .holds _ | .join _ | .loop _ | .blockEnd _ => op.isBranch = true
  | .method w => op = .jsr ∧ w ∈ d.methods
  | .literal n => op = .adr ∧ n < literals
  | .constant w => op = .adr ∧ w ∈ d.strings.map (·.1)
  | .start | .finish => False

/-- The arguments that an operation in a method may have. -/
def Argument.Inner (d : Declarations) (literals : Nat) (op : Operation) : Argument → Prop
  | .register n => n < 16
  | .word _ | .truth _ => True
  | .short _ => op = .adr
  | .label l => l.Target d literals op

/-- The lines of a method body, given how many string literals there are. -/
def Line.Inner (d : Declarations) (literals : Nat) : Line → Prop
  | .label l => l.isLocal = true
  | .code op args => op ≠ .halt ∧ args.map Argument.kind = op.operands ∧ ∀ a ∈ args, a.Inner d literals op
  | _ => False

/-- The label that a line defines. -/
def Line.label? : Line → Option Label
  | .label l | .data l _ => some l
  | _ => none

/-- The label that an argument names. -/
def Argument.label? : Argument → Option Label
  | .label l => some l
  | _ => none

/-- The labels that the operands of a line name. -/
def Line.targets : Line → List Label
  | .code _ args => args.filterMap Argument.label?
  | _ => []

/-- The labels that lines define. -/
def labels (ls : List Line) : List Label := ls.filterMap Line.label?

/-- The labels inside methods that lines branch to. -/
def localTargets (ls : List Line) : List Label := (ls.flatMap Line.targets).filter Label.isLocal

@[simp] theorem labels_nil : labels [] = [] := rfl

@[simp] theorem labels_append (xs ys : List Line) : labels (xs ++ ys) = labels xs ++ labels ys :=
  List.filterMap_append

@[simp] theorem localTargets_append (xs ys : List Line) :
    localTargets (xs ++ ys) = localTargets xs ++ localTargets ys := by
  simp [localTargets]

theorem Label.Target.mono {d : Declarations} {n m : Nat} {op : Operation} {l : Label} (hnm : n ≤ m)
    (h : l.Target d n op) : l.Target d m op := by
  cases l with
  | literal i => exact ⟨h.1, Nat.lt_of_lt_of_le h.2 hnm⟩
  | _ => exact h

theorem Line.Inner.mono {d : Declarations} {n m : Nat} {l : Line} (hnm : n ≤ m) (h : l.Inner d n) :
    l.Inner d m := by
  cases l with
  | label l => exact h
  | code op args =>
    refine ⟨h.1, h.2.1, fun a ha => ?_⟩
    have hinner := h.2.2 a ha
    cases a with
    | label l => exact Label.Target.mono hnm hinner
    | _ => exact hinner
  | _ => exact h

/-- A label that an inner operand names can be written. -/
theorem Label.Target.proper {d : Declarations} {n : Nat} {op : Operation} {l : Label} (hd : d.Sound)
    (h : l.Target d n op) : l.Proper := by
  cases l with
  | method w => exact hd.methods w h.2
  | constant w =>
    obtain ⟨⟨w, raw⟩, hmem, rfl⟩ := List.mem_map.mp h.2
    exact hd.constants (hd.strings.mp hmem)
  | _ => trivial

theorem Line.Inner.wellFormed {d : Declarations} {n : Nat} {l : Line} (hd : d.Sound) (h : l.Inner d n) :
    l.WellFormed := by
  cases l with
  | label l => cases l <;> first | exact Label.named_of_proper trivial | cases h
  | code op args =>
    refine ⟨fun a ha => ?_, h.2.1⟩
    have hinner := h.2.2 a ha
    cases a with
    | register r => exact hinner
    | label l => exact Label.named_of_proper (Label.Target.proper hd hinner)
    | _ => trivial
  | _ => exact h.elim

/-! ## Tables -/

/-- A sequence of operations on registers only. -/
def Snippet.isPlain (s : Snippet) : Bool :=
  s.code.all fun (op, args) => op != .halt && args.map Argument.kind == op.operands &&
    args.all fun
      | .register n => n < 16
      | _ => false

theorem Snippet.isPlain_of_ofWord? {w : Bytes} {s : Snippet} (h : ofWord? w = some s) : s.isPlain = true := by
  have hall : table.all (fun e => e.2.isPlain) = true := by decide
  obtain ⟨e, he, rfl⟩ := Option.map_eq_some_iff.mp h
  exact List.all_eq_true.mp hall e (List.mem_of_find?_eq_some he)

/-- A comparison of two registers with a branch. -/
def Comparison.isPlain (c : Comparison) : Bool :=
  c.compare.operands == [.register, .register] && c.branch.isBranch

theorem Comparison.isPlain_of_ofWord? {w : Bytes} {c : Comparison} (h : ofWord? w = some c) :
    c.isPlain = true := by
  have hall : table.all (fun e => e.2.isPlain) = true := by decide
  obtain ⟨e, he, rfl⟩ := Option.map_eq_some_iff.mp h
  exact List.all_eq_true.mp hall e (List.mem_of_find?_eq_some he)

/-- The lines of a sequence name no label, define none, and hold no short word. -/
theorem Snippet.lines_plain {s : Snippet} (h : s.isPlain = true) (d : Declarations) (n : Nat) :
    (∀ l ∈ s.lines, l.Inner d n ∧ l.fits = true) ∧ labels s.lines = [] ∧ localTargets s.lines = [] := by
  have hline : ∀ l ∈ s.lines, ∃ op args, l = .code op args ∧ op ≠ .halt ∧
      args.map Argument.kind = op.operands ∧ ∀ a ∈ args, ∃ r, a = .register r ∧ r < 16 := by
    intro l hl
    obtain ⟨⟨op, args⟩, hmem, rfl⟩ := List.mem_map.mp hl
    have hplain := List.all_eq_true.mp h (op, args) hmem
    simp only [Bool.and_eq_true, bne_iff_ne, ne_eq, beq_iff_eq, List.all_eq_true] at hplain
    refine ⟨op, args, rfl, hplain.1.1, hplain.1.2, fun a ha => ?_⟩
    have hreg := hplain.2 a ha
    cases a with
    | register r => exact ⟨r, rfl, by simpa using hreg⟩
    | _ => cases hreg
  refine ⟨fun l hl => ?_, List.filterMap_eq_nil_iff.mpr fun l hl => ?_, ?_⟩
  · obtain ⟨op, args, rfl, hhalt, hkinds, hargs⟩ := hline l hl
    refine ⟨⟨hhalt, hkinds, fun a ha => ?_⟩, List.all_eq_true.mpr fun a ha => ?_⟩
    · obtain ⟨r, rfl, hr⟩ := hargs a ha
      exact hr
    · obtain ⟨r, rfl, -⟩ := hargs a ha
      rfl
  · obtain ⟨op, args, rfl, -⟩ := hline l hl
    rfl
  · have htargets : s.lines.flatMap Line.targets = [] := by
      refine List.flatMap_eq_nil_iff.mpr fun l hl => ?_
      obtain ⟨op, args, rfl, -, -, hargs⟩ := hline l hl
      refine List.filterMap_eq_nil_iff.mpr fun a ha => ?_
      obtain ⟨r, rfl, -⟩ := hargs a ha
      rfl
    rw [localTargets, htargets]
    rfl

/-! ## Equations of the generating functions -/

namespace Generator

variable {g g' : Generator}

/-- The depth before and after a check for values that is passed: it stays unknown, or the values are there. -/
inductive Passes (args results : Nat) : Option Nat → Option Nat → Prop where
  | unknown : Passes args results none none
  | known {n : Nat} (enough : args ≤ n) : Passes args results (some n) (some (n + results - args))

theorem consume_eq {args results : Nat} (h : g.consume args results = .ok g') :
    ∃ depth, Passes args results g.depth depth ∧ g' = { g with depth := depth } := by
  unfold consume at h
  split at h
  next hdepth =>
    cases h
    refine ⟨g.depth, ?_, rfl⟩
    rw [hdepth]
    exact .unknown
  next n hdepth =>
    split at h
    · cases h
    next henough =>
      cases h
      rw [hdepth]
      exact ⟨_, .known (Nat.le_of_not_lt henough), rfl⟩

theorem snippet_eq {s : Snippet} {hostCall : Bool} (h : g.snippet s hostCall = .ok g') :
    ∃ depth, Passes s.args (s.args + s.pushes - s.pops) g.depth depth ∧ g' = { g with
      lines := s.lines.reverse ++ g.lines
      depth := if hostCall then none else depth } := by
  unfold snippet at h
  split at h
  · cases h
  next mid hconsume =>
    obtain ⟨depth, hpasses, rfl⟩ := consume_eq hconsume
    cases h
    refine ⟨depth, hpasses, ?_⟩
    cases hostCall <;> rfl

theorem comparison_eq {c : Comparison} (h : g.comparison c = .ok g') :
    ∃ depth, Passes 2 1 g.depth depth ∧ g' = { g with
      lines := (c.lines g.comparisons).reverse ++ g.lines
      comparisons := g.comparisons + 1
      depth := depth } := by
  unfold comparison at h
  split at h
  · cases h
  next mid hconsume =>
    obtain ⟨depth, hpasses, rfl⟩ := consume_eq hconsume
    cases h
    exact ⟨depth, hpasses, rfl⟩

/-- The code that pushes zero. -/
def zeroLines : List Line := [.code .mov [.register 0, .truth false], .code .push [.register 0]]

theorem negation_eq (h : g.negation = .ok g') :
    ∃ depth, Passes 1 1 g.depth depth ∧ g' = { g with
      lines := (zeroLines ++ Comparison.equal.lines g.comparisons).reverse ++ g.lines
      comparisons := g.comparisons + 1
      depth := depth } := by
  unfold negation at h
  split at h
  · cases h
  next mid hconsume =>
    obtain ⟨depth, hpasses, rfl⟩ := consume_eq hconsume
    cases h
    exact ⟨depth, hpasses, rfl⟩

/-- The code that enters a block if the value on the stack is one. -/
def openLines (index : Nat) : List Line :=
  [.code .pop [.register 0], .code .mov [.register 1, .truth true],
   .code .icmp [.register 0, .register 1], .code .bne [.label (.blockEnd index)]]

theorem openBlock_eq (h : g.openBlock = .ok g') :
    ∃ b outer depth, g.blocks = b :: outer ∧ Passes 1 0 g.depth depth ∧ g' = { g with
      lines := (openLines b.index).reverse ++ g.lines
      blocks := { b with opened := true } :: outer
      depth := none } := by
  unfold openBlock at h
  split at h
  · cases h
  next b outer hblocks =>
    split at h
    · cases h
    · split at h
      · cases h
      next mid hconsume =>
        obtain ⟨depth, hpasses, rfl⟩ := consume_eq hconsume
        cases h
        exact ⟨b, outer, depth, hblocks, hpasses, rfl⟩

/-- The code at the end of a block. -/
def closeLines (b : Block) : List Line :=
  (if b.loop then [.code .jmp [.label (.loop b.index)]] else []) ++ [.label (.blockEnd b.index)]

theorem close_eq (h : g.close = .ok g') :
    (g.blocks = [] ∧ g' = { g with lines := [.code .ret []] ++ g.lines, inMethod := false }) ∨
    ∃ b outer, g.blocks = b :: outer ∧ b.opened = true ∧
      g' = { g with lines := (closeLines b).reverse ++ g.lines, blocks := outer } := by
  unfold close at h
  split at h
  next hblocks =>
    cases h
    exact Or.inl ⟨hblocks, rfl⟩
  next b outer hblocks =>
    split at h
    next hopened =>
      cases h
      exact Or.inr ⟨b, outer, hblocks, hopened, rfl⟩
    · cases h

/-- A name pushes its constant or calls its method. -/
theorem defined_eq {d : Declarations} {w : Bytes} (h : g.defined d w = .ok g') :
    (∃ op arg, (op = .mov ∨ op = .adr) ∧ arg.label?.all (fun l => !l.isLocal) = true ∧ g' = g.push op arg) ∨
    w ∈ d.methods ∧ g' = { g with lines := [.code .jsr [.label (.method w)]] ++ g.lines, depth := none } := by
  unfold defined at h
  split at h
  next c _ =>
    cases h
    cases c with
    | number value => exact .inl ⟨.mov, .word value, .inl rfl, rfl, rfl⟩
    | char value => exact .inl ⟨.adr, .short value, .inr rfl, rfl, rfl⟩
    | string raw => exact .inl ⟨.adr, .label (.constant w), .inr rfl, rfl, rfl⟩
    | memory address size => exact .inl ⟨.adr, .short address, .inr rfl, rfl, rfl⟩
  · split at h
    next hmethod =>
      cases h
      exact .inr ⟨List.contains_iff_mem.mp hmethod, rfl⟩
    · cases h

end Generator

/-! ## Words -/

/-- The part that a sentence plays in the structure of a text. -/
inductive Role where
  | step
  /-- The word before the condition of a block. -/
  | start (loop : Bool)
  | opens
  | closes
  /-- The head of a method. -/
  | head
  deriving DecidableEq, Repr

/-- The role of a word in a method body. -/
def Role.ofWord (w : Bytes) : Role :=
  if w = bytes "if" then .start false
  else if w = bytes "while" then .start true
  else if w = bytes "\x7b" then .opens
  else if w = bytes "\x7d" then .closes
  else .step

/-- A word that no table holds and that is no keyword. -/
theorem unreserved {w : Bytes} (h : isReserved w = false) :
    Snippet.ofWord? w = none ∧ Comparison.ofWord? w = none ∧ ∀ k ∈ keywords, w ≠ k := by
  simp only [isReserved, Bool.or_eq_false_iff, Option.isSome_eq_false_iff, Option.isNone_iff_eq_none] at h
  obtain ⟨⟨hsnippet, hcomparison⟩, hkeyword⟩ := h
  refine ⟨hsnippet, hcomparison, ?_⟩
  rintro k hk rfl
  rw [List.contains_iff_mem.mpr hk] at hkeyword
  cases hkeyword

namespace Generator

variable {d : Declarations} {g g' : Generator}

/-- A word that is not reserved is looked up among the definitions. -/
theorem word_of_unreserved (g : Generator) (d : Declarations) {w : Bytes} (h : isReserved w = false) :
    g.word d w = g.defined d w := by
  obtain ⟨hsnippet, hcomparison, hne⟩ := unreserved h
  unfold word
  rw [hsnippet, hcomparison]
  dsimp only
  rw [if_neg (hne _ (by decide)), if_neg (hne _ (by decide)), if_neg (hne _ (by decide)),
    if_neg (hne _ (by decide)), if_neg (hne _ (by decide)), if_neg (hne _ (by decide))]

/-- What a word in a method body does to the generator. -/
inductive Handles (d : Declarations) (w : Bytes) (g g' : Generator) : Prop where
  | snippet {s : Snippet} (entry : Snippet.ofWord? w = some s) (step : g.snippet s (w == bytes "syscall") = .ok g')
  | comparison {c : Comparison} (entry : Comparison.ofWord? w = some c) (step : g.comparison c = .ok g')
  | negation (step : g.negation = .ok g')
  | starts (loop : Bool) (role : Role.ofWord w = .start loop) (step : g' = g.startBlock loop)
  | opens (role : Role.ofWord w = .opens) (step : g.openBlock = .ok g')
  | closes (role : Role.ofWord w = .closes) (step : g.close = .ok g')
  /-- A constant or a method. -/
  | defined (step : g.defined d w = .ok g')

theorem handles_of_word {w : Bytes} (h : g.word d w = .ok g') : Handles d w g g' := by
  unfold word at h
  split at h
  next entry => exact .snippet entry h
  · split at h
    next entry => exact .comparison entry h
    · split at h
      · exact .negation h
      · split at h
        next hw =>
          subst hw
          exact .starts false rfl (Except.ok.inj h).symm
        · split at h
          next hw =>
            subst hw
            exact .starts true rfl (Except.ok.inj h).symm
          · split at h
            next hw =>
              subst hw
              exact .opens rfl h
            · split at h
              next hw =>
                subst hw
                exact .closes rfl h
              · split at h
                · cases h
                · exact .defined h

/-- A literal loads a register and pushes it, and a word is looked up. -/
theorem statement_cases {t : Token} (ht : t.Sound) (h : g.statement d t = .ok g') :
    (t.kind ≠ .word ∧ ∃ op arg literals, (op = .mov ∨ op = .adr) ∧
      arg.label?.all (fun l => !l.isLocal) = true ∧ g' = { g.push op arg with literals := literals }) ∨
    t.kind = .word ∧ g.word d t.text = .ok g' := by
  unfold statement at h
  cases hk : t.kind with
  | integer | double =>
    rw [hk] at h
    cases h
    exact .inl ⟨by rintro ⟨⟩, .mov, _, g.literals, .inl rfl, rfl, rfl⟩
  | char =>
    rw [hk] at h
    cases h
    exact .inl ⟨by rintro ⟨⟩, .adr, _, g.literals, .inr rfl, rfl, rfl⟩
  | string =>
    rw [hk] at h
    cases h
    exact .inl ⟨by rintro ⟨⟩, .adr, _, t.text :: g.literals, .inr rfl, rfl, rfl⟩
  | word =>
    rw [hk] at h
    exact .inr ⟨rfl, h⟩
  | unassigned n => exact absurd hk (ht.kind n)

end Generator

/-! ## Growth -/

/-- The word, if it names memory, names an address of at most 32 bits. -/
def Token.Addressed (t : Token) (d : Declarations) : Prop :=
  t.kind = .word → ∀ address size, d.constants[t.text]? = some (.memory address size) →
    address.toNat < UInt32.size

theorem Token.addressed_of_isReserved {t : Token} {d : Declarations} (hd : d.Sound)
    (h : isReserved t.text = true) : t.Addressed d := by
  intro _ address size hmemory
  have hfree := (hd.constants hmemory).free
  rw [h] at hfree
  cases hfree

namespace Generator

/-- A statement adds lines of code that fit a method body, and perhaps string literals. -/
structure Emits (d : Declarations) (t : Token) (g g' : Generator) (code : List Line) : Prop where
  lines : g'.lines = code.reverse ++ g.lines
  inner : ∀ l ∈ code, l.Inner d g'.literals.length
  fits : (∀ l ∈ code, l.fits = true) ↔ t.Addressed d
  literals : ∃ new, g'.literals = new ++ g.literals ∧ ∀ raw ∈ new, IsRaw raw

/-- What a statement can do to the generator. -/
inductive Grows (d : Declarations) (t : Token) (g g' : Generator) : Prop where
  /-- Code without labels of its own. -/
  | straight (code : List Line) (emits : Emits d t g g' code) (labels : labels code = [])
      (targets : localTargets code = []) (blocks : g'.blocks = g.blocks) (loops : g'.loops = g.loops)
      (comparisons : g'.comparisons = g.comparisons) (inMethod : g'.inMethod = g.inMethod)
  /-- A comparison with its two labels. -/
  | compared (code : List Line) (emits : Emits d t g g' code)
      (labels : labels code = [.holds g.comparisons, .join g.comparisons])
      (targets : localTargets code = [.holds g.comparisons, .join g.comparisons])
      (blocks : g'.blocks = g.blocks) (loops : g'.loops = g.loops)
      (comparisons : g'.comparisons = g.comparisons + 1) (inMethod : g'.inMethod = g.inMethod)
  /-- The start of a block; a loop has a label there. -/
  | started (loop : Bool) (code : List Line) (emits : Emits d t g g' code)
      (labels : labels code = if loop then [.loop g.loops] else []) (targets : localTargets code = [])
      (blocks : g'.blocks = ⟨loop, g.loops, false⟩ :: g.blocks) (loops : g'.loops = g.loops + 1)
      (comparisons : g'.comparisons = g.comparisons) (inMethod : g'.inMethod = g.inMethod)
  /-- The brace that opens a block. -/
  | opened (b : Block) (outer : List Block) (code : List Line) (emits : Emits d t g g' code)
      (labels : labels code = []) (targets : localTargets code = [.blockEnd b.index])
      (before : g.blocks = b :: outer) (blocks : g'.blocks = { b with opened := true } :: outer)
      (loops : g'.loops = g.loops) (comparisons : g'.comparisons = g.comparisons)
      (inMethod : g'.inMethod = g.inMethod)
  /-- The brace that closes a block. -/
  | closed (b : Block) (outer : List Block) (code : List Line) (emits : Emits d t g g' code)
      (labels : labels code = [.blockEnd b.index])
      (targets : localTargets code = if b.loop then [.loop b.index] else [])
      (before : g.blocks = b :: outer) (blocks : g'.blocks = outer) (loops : g'.loops = g.loops)
      (comparisons : g'.comparisons = g.comparisons) (inMethod : g'.inMethod = g.inMethod)
  /-- The brace that closes the method. -/
  | finished (emits : Emits d t g g' [.code .ret []]) (before : g.blocks = []) (blocks : g'.blocks = [])
      (loops : g'.loops = g.loops) (comparisons : g'.comparisons = g.comparisons)
      (inMethod : g'.inMethod = false)

variable {d : Declarations} {t : Token} {g g' : Generator}

theorem Grows.emits (h : Grows d t g g') : ∃ code, Emits d t g g' code := by
  cases h with
  | straight code e => exact ⟨code, e⟩
  | compared code e => exact ⟨code, e⟩
  | started _ code e => exact ⟨code, e⟩
  | opened _ _ code e => exact ⟨code, e⟩
  | closed _ _ code e => exact ⟨code, e⟩
  | finished e => exact ⟨_, e⟩

theorem keeps_literals (literals : List Bytes) : ∃ new, literals = new ++ literals ∧ ∀ raw ∈ new, IsRaw raw :=
  ⟨[], rfl, by simp⟩

/-- Loading a register and pushing it. -/
theorem grows_push {op : Operation} {arg : Argument} (literals : List Bytes)
    (hnew : ∃ new, literals = new ++ g.literals ∧ ∀ raw ∈ new, IsRaw raw) (hop : op ≠ .halt)
    (hkind : [.register, arg.kind] = op.operands) (harg : arg.Inner d literals.length op)
    (hlocal : arg.label?.all (fun l => !l.isLocal) = true) (hfits : arg.fits = true ↔ t.Addressed d) :
    Grows d t g { g.push op arg with literals := literals } := by
  refine .straight [.code op [.register 0, arg], .code .push [.register 0]]
    ⟨rfl, ?_, ?_, hnew⟩ rfl ?_ rfl rfl rfl rfl
  · simp only [List.forall_mem_cons, Line.Inner]
    exact ⟨⟨hop, hkind, Nat.zero_lt_succ 15, harg, nofun⟩, ⟨nofun, rfl, Nat.zero_lt_succ 15, nofun⟩, nofun⟩
  · simp [Line.fits, Argument.fits, ← hfits]
  · cases arg with
    | label l => simpa [localTargets, Line.targets, Argument.label?] using hlocal
    | _ => rfl

/-- A fixed sequence. -/
theorem grows_snippet {s : Snippet} {hostCall : Bool} (hs : s.isPlain = true) (ht : t.Addressed d)
    (h : g.snippet s hostCall = .ok g') : Grows d t g g' := by
  obtain ⟨depth, -, rfl⟩ := snippet_eq h
  obtain ⟨hlines, hlabels, htargets⟩ := Snippet.lines_plain hs d g.literals.length
  refine .straight s.lines ⟨rfl, fun l hl => (hlines l hl).1, ?_, keeps_literals _⟩ hlabels htargets rfl rfl rfl rfl
  exact ⟨fun _ => ht, fun _ l hl => (hlines l hl).2⟩

/-- The lines of a comparison. -/
theorem comparison_lines {c : Comparison} (hc : c.isPlain = true) (d : Declarations) (n k : Nat) :
    (∀ l ∈ c.lines k, l.Inner d n ∧ l.fits = true) ∧ labels (c.lines k) = [.holds k, .join k] ∧
      localTargets (c.lines k) = [.holds k, .join k] := by
  simp only [Comparison.isPlain, Bool.and_eq_true, beq_iff_eq] at hc
  obtain ⟨hcompare, hbranch⟩ := hc
  have hhalt : c.compare ≠ .halt := fun h => by rw [h] at hcompare; cases hcompare
  have hhalt' : c.branch ≠ .halt := fun h => by rw [h] at hbranch; cases hbranch
  have hoperands := Operation.operands_of_isBranch hbranch
  refine ⟨fun l hl => ?_, rfl, rfl⟩
  simp only [Comparison.lines, List.mem_cons, List.not_mem_nil, or_false] at hl
  rcases hl with rfl | rfl | rfl | rfl | rfl | rfl | rfl | rfl | rfl | rfl
  · exact ⟨⟨nofun, rfl, by simp [Argument.Inner]⟩, rfl⟩
  · exact ⟨⟨nofun, rfl, by simp [Argument.Inner]⟩, rfl⟩
  · exact ⟨⟨hhalt, hcompare.symm, by simp [Argument.Inner]⟩, rfl⟩
  · exact ⟨⟨hhalt', hoperands.symm, by simp [Argument.Inner, Label.Target, hbranch]⟩, rfl⟩
  · exact ⟨⟨nofun, rfl, by simp [Argument.Inner]⟩, rfl⟩
  · exact ⟨⟨nofun, rfl, by simp [Argument.Inner, Label.Target, Operation.isBranch]⟩, rfl⟩
  · exact ⟨rfl, rfl⟩
  · exact ⟨⟨nofun, rfl, by simp [Argument.Inner]⟩, rfl⟩
  · exact ⟨rfl, rfl⟩
  · exact ⟨⟨nofun, rfl, by simp [Argument.Inner]⟩, rfl⟩

theorem grows_comparison {c : Comparison} (hc : c.isPlain = true) (ht : t.Addressed d)
    (h : g.comparison c = .ok g') : Grows d t g g' := by
  obtain ⟨depth, -, rfl⟩ := comparison_eq h
  obtain ⟨hlines, hlabels, htargets⟩ := comparison_lines hc d g.literals.length g.comparisons
  refine .compared (c.lines g.comparisons) ⟨rfl, fun l hl => (hlines l hl).1, ?_, keeps_literals _⟩ hlabels
    htargets rfl rfl rfl rfl
  exact ⟨fun _ => ht, fun _ l hl => (hlines l hl).2⟩

theorem grows_negation (ht : t.Addressed d) (h : g.negation = .ok g') : Grows d t g g' := by
  obtain ⟨depth, -, rfl⟩ := negation_eq h
  obtain ⟨hlines, hlabels, htargets⟩ :=
    comparison_lines (show Comparison.equal.isPlain = true from rfl) d g.literals.length g.comparisons
  have hzero : ∀ l ∈ zeroLines, l.Inner d g.literals.length ∧ l.fits = true := by
    intro l hl
    simp only [zeroLines, List.mem_cons, List.not_mem_nil, or_false] at hl
    rcases hl with rfl | rfl
    · exact ⟨⟨nofun, rfl, by simp [Argument.Inner]⟩, rfl⟩
    · exact ⟨⟨nofun, rfl, by simp [Argument.Inner]⟩, rfl⟩
  have hall := List.forall_mem_append.mpr ⟨hzero, hlines⟩
  refine .compared (zeroLines ++ Comparison.equal.lines g.comparisons)
    ⟨rfl, fun l hl => (hall l hl).1, ?_, keeps_literals _⟩ ?_ ?_ rfl rfl rfl rfl
  · exact ⟨fun _ => ht, fun _ l hl => (hall l hl).2⟩
  · rw [labels_append, hlabels]
    rfl
  · rw [localTargets_append, htargets]
    rfl

theorem grows_startBlock (ht : t.Addressed d) (loop : Bool) : Grows d t g (g.startBlock loop) := by
  cases loop with
  | false =>
    exact .started false [] ⟨rfl, nofun, ⟨fun _ => ht, nofun⟩, keeps_literals _⟩
      rfl rfl rfl rfl rfl rfl
  | true =>
    refine .started true [.label (.loop g.loops)] ⟨rfl, ?_, ⟨fun _ => ht, fun _ => ?_⟩, keeps_literals _⟩
      rfl rfl rfl rfl rfl rfl
    · simp [Line.Inner, Label.isLocal]
    · simp [Line.fits]

theorem grows_openBlock (ht : t.Addressed d) (h : g.openBlock = .ok g') : Grows d t g g' := by
  obtain ⟨b, outer, depth, hblocks, -, rfl⟩ := openBlock_eq h
  have hlines : ∀ l ∈ openLines b.index, l.Inner d g.literals.length ∧ l.fits = true := by
    intro l hl
    simp only [openLines, List.mem_cons, List.not_mem_nil, or_false] at hl
    rcases hl with rfl | rfl | rfl | rfl
    · exact ⟨⟨nofun, rfl, by simp [Argument.Inner]⟩, rfl⟩
    · exact ⟨⟨nofun, rfl, by simp [Argument.Inner]⟩, rfl⟩
    · exact ⟨⟨nofun, rfl, by simp [Argument.Inner]⟩, rfl⟩
    · exact ⟨⟨nofun, rfl, by simp [Argument.Inner, Label.Target, Operation.isBranch]⟩, rfl⟩
  refine .opened b outer (openLines b.index) ⟨rfl, fun l hl => (hlines l hl).1, ?_, keeps_literals _⟩ rfl rfl
    hblocks rfl rfl rfl rfl
  exact ⟨fun _ => ht, fun _ l hl => (hlines l hl).2⟩

theorem grows_close (ht : t.Addressed d) (h : g.close = .ok g') : Grows d t g g' := by
  rcases close_eq h with ⟨hblocks, rfl⟩ | ⟨b, outer, hblocks, hopened, rfl⟩
  · refine .finished ⟨rfl, ?_, ⟨fun _ => ht, fun _ => ?_⟩, keeps_literals _⟩ hblocks hblocks rfl rfl rfl
    · simp [Line.Inner, Operation.operands]
    · simp [Line.fits]
  · have hlines : ∀ l ∈ closeLines b, l.Inner d g.literals.length ∧ l.fits = true := by
      refine List.forall_mem_append.mpr ⟨?_, by simp [Line.Inner, Label.isLocal, Line.fits]⟩
      cases b.loop with
      | false => simp
      | true =>
        simp only [if_true, List.forall_mem_singleton]
        exact ⟨⟨by rintro ⟨⟩, rfl, by simp [Argument.Inner, Label.Target, Operation.isBranch]⟩, rfl⟩
    have hparts : labels (closeLines b) = [.blockEnd b.index] ∧
        localTargets (closeLines b) = if b.loop then [.loop b.index] else [] := by
      unfold closeLines
      cases b.loop <;> exact ⟨rfl, rfl⟩
    refine .closed b outer (closeLines b) ⟨rfl, fun l hl => (hlines l hl).1, ?_, keeps_literals _⟩ hparts.1
      hparts.2 hblocks rfl rfl rfl rfl
    exact ⟨fun _ => ht, fun _ l hl => (hlines l hl).2⟩

/-- A word that the text defines: a constant or a call. -/
theorem grows_defined (hd : d.Sound) (hk : t.kind = .word) (h : g.defined d t.text = .ok g') :
    Grows d t g g' := by
  unfold defined at h
  split at h
  next c hc =>
    cases h
    -- only a memory constant can name an address that is too large
    have hother (hmemory : ∀ address size, c ≠ .memory address size) : t.Addressed d := by
      intro _ address size hsome
      rw [hc] at hsome
      exact absurd (Option.some.inj hsome) (hmemory address size)
    cases c with
    | number value =>
      refine grows_push g.literals (keeps_literals _) (by rintro ⟨⟩) rfl trivial rfl
        ⟨fun _ => hother (by rintro _ _ ⟨⟩), fun _ => rfl⟩
    | char value =>
      refine grows_push g.literals (keeps_literals _) (by rintro ⟨⟩) rfl rfl rfl
        ⟨fun _ => hother (by rintro _ _ ⟨⟩), fun _ => ?_⟩
      have hlt := hd.char hc
      simp only [Argument.fits, decide_eq_true_eq]
      exact Nat.lt_trans hlt (by decide)
    | string raw =>
      refine grows_push g.literals (keeps_literals _) (by rintro ⟨⟩) rfl ⟨rfl, ?_⟩ rfl
        ⟨fun _ => hother (by rintro _ _ ⟨⟩), fun _ => rfl⟩
      exact List.mem_map.mpr ⟨_, hd.strings.mpr hc, rfl⟩
    | memory address size =>
      refine grows_push g.literals (keeps_literals _) (by rintro ⟨⟩) rfl rfl rfl
        ⟨fun hfits => ?_, fun haddr => ?_⟩
      · intro _ address' size' hsome
        rw [hc] at hsome
        cases hsome
        simpa [Argument.fits] using hfits
      · simpa [Argument.fits] using haddr hk address size hc
  next hnone =>
    split at h
    next hmethod =>
      cases h
      refine .straight [.code .jsr [.label (.method t.text)]]
        ⟨rfl, ?_, ⟨fun _ => ?_, fun _ => ?_⟩, keeps_literals _⟩
        rfl rfl rfl rfl rfl rfl
      · simp only [List.forall_mem_singleton]
        exact ⟨by rintro ⟨⟩, rfl, by simpa [Argument.Inner, Label.Target] using hmethod⟩
      · intro _ address size hsome
        rw [hnone] at hsome
        cases hsome
      · simp [Line.fits, Argument.fits]
    · cases h

theorem grows_word (hd : d.Sound) (hk : t.kind = .word) (h : g.word d t.text = .ok g') : Grows d t g g' := by
  cases hreserved : isReserved t.text with
  | false =>
    rw [word_of_unreserved g d hreserved] at h
    exact grows_defined hd hk h
  | true =>
    have ht := t.addressed_of_isReserved hd hreserved
    cases handles_of_word h with
    | snippet entry step => exact grows_snippet (Snippet.isPlain_of_ofWord? entry) ht step
    | comparison entry step => exact grows_comparison (Comparison.isPlain_of_ofWord? entry) ht step
    | negation step => exact grows_negation ht step
    | starts loop _ step =>
      subst step
      exact grows_startBlock ht loop
    | opens _ step => exact grows_openBlock ht step
    | closes _ step => exact grows_close ht step
    | defined step => exact grows_defined hd hk step

/-- Every statement does one of the things listed. -/
theorem grows_of_statement (hd : d.Sound) (ht : t.Sound) (h : g.statement d t = .ok g') :
    Grows d t g g' := by
  -- only words name memory
  have hother (hk : t.kind ≠ .word) : t.Addressed d := fun h => absurd h hk
  unfold statement at h
  cases hk : t.kind with
  | integer =>
    obtain rfl : g.push .mov (.word t.value) = g' := by simpa [hk] using h
    exact grows_push g.literals (keeps_literals _) nofun rfl trivial rfl
      ⟨fun _ => hother (by simp [hk]), fun _ => rfl⟩
  | double =>
    obtain rfl : g.push .mov (.word t.value) = g' := by simpa [hk] using h
    exact grows_push g.literals (keeps_literals _) nofun rfl trivial rfl
      ⟨fun _ => hother (by simp [hk]), fun _ => rfl⟩
  | char =>
    obtain rfl : g.push .adr (.short t.value) = g' := by simpa [hk] using h
    refine grows_push g.literals (keeps_literals _) nofun rfl rfl rfl ⟨fun _ => hother (by simp [hk]), fun _ => ?_⟩
    have hlt := ht.char_lt hk
    simp only [Argument.fits, decide_eq_true_eq]
    exact Nat.lt_trans hlt (by decide)
  | string =>
    rw [hk] at h
    cases h
    refine grows_push (t.text :: g.literals) ⟨[t.text], rfl, ?_⟩ nofun rfl ⟨rfl, ?_⟩ rfl
      ⟨fun _ => hother (by simp [hk]), fun _ => rfl⟩
    · simpa using ht.string hk
    · simp
  | word =>
    rw [hk] at h
    exact grows_word hd hk h
  | unassigned n => exact absurd hk (ht.kind n)

end Generator

end Source

end WordMachine
