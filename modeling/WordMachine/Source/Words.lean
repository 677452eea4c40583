import WordMachine.Source.Listing

/-!
# `Source.Words` — the words every source text knows

Contents:
* `Snippet`: words that stand for a fixed sequence of instructions;
* `Comparison`: words that push a truth value;
* `isReserved`, `isName`: which words a text may define.
-/

namespace WordMachine.Source

/-! ## Fixed sequences -/

/-- A fixed sequence of instructions that takes values off the operand stack. -/
structure Snippet where
  args : Nat
  code : List (Operation × List Argument)
  deriving DecidableEq, Repr

namespace Snippet

abbrev r0 : Argument := .register 0
abbrev r1 : Argument := .register 1
abbrev r2 : Argument := .register 2

/-- Take the second operand into `r1` and the first into `r0`, and push the result. -/
def ordered (op : Operation) : Snippet :=
  ⟨2, [(.pop, [r1]), (.pop, [r0]), (op, [r0, r1]), (.push, [r0])]⟩

/-- Take the second operand into `r0` and the first into `r1`, and push the result. -/
def swapped (op : Operation) : Snippet :=
  ⟨2, [(.pop, [r0]), (.pop, [r1]), (op, [r0, r1]), (.push, [r0])]⟩

/-- Change the top of the stack. -/
def unary (op : Operation) : Snippet := ⟨1, [(.pop, [r0]), (op, [r0]), (.push, [r0])]⟩

/-- Replace an address by what memory holds there. -/
def fetch (op : Operation) : Snippet := ⟨1, [(.pop, [r1]), (op, [r0, r1]), (.push, [r0])]⟩

/-- Store the top of the stack at the address below it. -/
def store (op : Operation) : Snippet := ⟨2, [(.pop, [r0]), (.pop, [r1]), (op, [r0, r1])]⟩

/-- The words with their sequences. -/
def table : List (Bytes × Snippet) :=
  [(bytes "+", swapped .iadd), (bytes "-", ordered .isub), (bytes "*", swapped .imul),
   (bytes "/", ordered .idiv), (bytes "d+", swapped .dadd), (bytes "d-", ordered .dsub),
   (bytes "d*", swapped .dmul), (bytes "d/", ordered .ddiv), (bytes "and", ordered .and),
   (bytes "or", ordered .or), (bytes "pow", ordered .pow), (bytes "root", ordered .root),
   (bytes "(int)", unary .dcst), (bytes "(float)", unary .icst),
   (bytes "dup", ⟨1, [(.pop, [r0]), (.push, [r0]), (.push, [r0])]⟩),
   (bytes "swap", ⟨2, [(.pop, [r0]), (.pop, [r1]), (.push, [r0]), (.push, [r1])]⟩),
   (bytes "drop", ⟨1, [(.pop, [r0])]⟩),
   (bytes "rot", ⟨3, [(.pop, [r0]), (.pop, [r1]), (.pop, [r2]), (.push, [r1]), (.push, [r0]),
     (.push, [r2])]⟩),
   (bytes "@8", fetch .lei), (bytes "@16", fetch .lst), (bytes "@32", fetch .ltt),
   (bytes "@64", fetch .lsf), (bytes "!8", store .sei), (bytes "!16", store .sst),
   (bytes "!32", store .stt), (bytes "!64", store .ssf), (bytes "copy", store .bufc),
   (bytes "syscall", ⟨1, [(.pop, [r0]), (.call, [r0])]⟩), (bytes "return", ⟨0, [(.ret, [])]⟩)]

/-- The sequence of a word. -/
def ofWord? (w : Bytes) : Option Snippet := (table.find? (·.1 == w)).map (·.2)

/-- How many values a sequence pushes. -/
def pushes (s : Snippet) : Nat := s.code.countP (·.1 == .push)

/-- How many values a sequence pops. -/
def pops (s : Snippet) : Nat := s.code.countP (·.1 == .pop)

/-- The lines of a sequence. -/
def lines (s : Snippet) : List Line := s.code.map fun (op, args) => .code op args

end Snippet

/-! ## Comparisons -/

/-- A comparison of two values and the branch taken if it holds. The second value is in `r0`, so the
branch is the one for the operands the other way round. -/
structure Comparison where
  compare : Operation
  branch : Operation
  deriving DecidableEq, Repr

namespace Comparison

/-- The comparison for equality of words. -/
def equal : Comparison := ⟨.icmp, .beq⟩

/-- The words with their comparisons. -/
def table : List (Bytes × Comparison) :=
  [(bytes ">", ⟨.icmp, .blt⟩), (bytes "<", ⟨.icmp, .bgt⟩), (bytes "=", equal),
   (bytes "!=", ⟨.icmp, .bne⟩), (bytes "d>", ⟨.dcmp, .blt⟩), (bytes "d<", ⟨.dcmp, .bgt⟩),
   (bytes "d=", ⟨.dcmp, .beq⟩), (bytes "d!=", ⟨.dcmp, .bne⟩), (bytes "str=", ⟨.lseq, .beq⟩),
   (bytes "str!=", ⟨.lseq, .bne⟩)]

/-- The comparison of a word. -/
def ofWord? (w : Bytes) : Option Comparison := (table.find? (·.1 == w)).map (·.2)

/-- Pop two values, and push one if the branch is taken and zero if not. The labels carry an index. -/
def lines (c : Comparison) (index : Nat) : List Line :=
  [.code .pop [.register 0], .code .pop [.register 1],
   .code c.compare [.register 0, .register 1],
   .code c.branch [.label (.holds index)],
   .code .mov [.register 0, .truth false],
   .code .jmp [.label (.join index)],
   .label (.holds index),
   .code .mov [.register 0, .truth true],
   .label (.join index),
   .code .push [.register 0]]

end Comparison

/-! ## Names -/

/-- The words of the language's own structure. -/
def keywords : List Bytes :=
  [bytes "not", bytes "if", bytes "while", bytes "\x7b", bytes "\x7d", bytes "method", bytes "let",
   bytes "memory", bytes "const", bytes "start", bytes "end"]

/-- The words that no text may define. -/
def isReserved (w : Bytes) : Bool :=
  (Snippet.ofWord? w).isSome || (Comparison.ofWord? w).isSome || keywords.contains w

/-- A letter, then letters, digits and underscores. -/
def isName (w : Bytes) : Bool := w.head?.any Ascii.isLetter && w.all Ascii.isIdent

end WordMachine.Source
