import WordMachine.Source.Declarations

/-!
# `Source.Compiler` — source text to assembly

A program jumps to a trailer that calls `main` and halts. The code of each method ends with `ret`, and
string data follows the methods. As long as the depth of the operand stack is known, a word that takes
more values than there are is refused.

Contents:
* `Block`, `Generator`: open blocks and the code so far;
* `Generator.statement`: the code of one token in a method body;
* `Generator.tokens`: the code of a token sequence;
* `Compiled`, `generate`, `compile`.
-/

namespace WordMachine.Source

/-- An `if` or `while` that is not closed yet; `opened` tells whether its brace has come. -/
structure Block where
  loop : Bool
  index : Nat
  opened : Bool
  deriving DecidableEq, Repr

/-- The code generated so far, latest line first, and what the rest depends on. -/
structure Generator where
  lines : List Line := []
  /-- String literals, latest first. -/
  literals : List Bytes := []
  /-- Open blocks, innermost first. -/
  blocks : List Block := []
  inMethod : Bool := false
  /-- The depth of the operand stack, if it is known. -/
  depth : Option Nat := none
  loops : Nat := 0
  comparisons : Nat := 0
  deriving DecidableEq, Repr

namespace Generator

/-! ## Code and depth -/

/-- Add lines of code. -/
def emit (g : Generator) (ls : List Line) : Generator := { g with lines := ls.reverse ++ g.lines }

/-- Note a value pushed. -/
def produce (g : Generator) : Generator := { g with depth := g.depth.map (· + 1) }

/-- Check that the stack holds `args` values, and replace them by `results` others. -/
def consume (g : Generator) (args results : Nat) : Except Cause Generator :=
  match g.depth with
  | none => .ok g
  | some depth =>
      if depth < args then .error .arguments else .ok { g with depth := some (depth + results - args) }

/-- Forget the depth. -/
def forget (g : Generator) : Generator := { g with depth := none }

/-- Load `r0` and push it. -/
def push (g : Generator) (op : Operation) (arg : Argument) : Generator :=
  (g.emit [.code op [.register 0, arg], .code .push [.register 0]]).produce

/-- Push a constant. -/
def pushConstant (g : Generator) (name : Bytes) : Constant → Generator
  | .number value => g.push .mov (.word value)
  | .char value => g.push .adr (.short value)
  | .string _ => g.push .adr (.label (.constant name))
  | .memory address _ => g.push .adr (.short address)

/-- Compare the two values on top of the stack. -/
def compare (g : Generator) (c : Comparison) : Generator :=
  { g.emit (c.lines g.comparisons) with comparisons := g.comparisons + 1 }

/-! ## Statements -/

/-- The code of a fixed sequence. What a host call leaves on the stack is not known. -/
def snippet (g : Generator) (s : Snippet) (hostCall : Bool) : Except Cause Generator :=
  match g.consume s.args (s.args + s.pushes - s.pops) with
  | .error cause => .error cause
  | .ok g =>
      let g := g.emit s.lines
      .ok (if hostCall then g.forget else g)

/-- The code of a comparison. -/
def comparison (g : Generator) (c : Comparison) : Except Cause Generator :=
  match g.consume 2 1 with
  | .error cause => .error cause
  | .ok g => .ok (g.compare c)

/-- The code of `not`: a comparison with zero. -/
def negation (g : Generator) : Except Cause Generator :=
  match g.consume 1 1 with
  | .error cause => .error cause
  | .ok g =>
      .ok ((g.emit [.code .mov [.register 0, .truth false], .code .push [.register 0]]).compare
        Comparison.equal)

/-- Start a block; the condition of a loop has a label. -/
def startBlock (g : Generator) (loop : Bool) : Generator :=
  let g' := if loop then g.emit [.label (.loop g.loops)] else g
  { g' with blocks := ⟨loop, g.loops, false⟩ :: g.blocks, loops := g.loops + 1 }

/-- Open the innermost block: its code runs if the value on the stack is one. -/
def openBlock (g : Generator) : Except Cause Generator :=
  match g.blocks with
  | [] => .error .braceUnbalanced
  | b :: outer =>
      if b.opened then .error .braceUnbalanced
      else
        match g.consume 1 0 with
        | .error cause => .error cause
        | .ok g =>
            .ok ({ g with blocks := { b with opened := true } :: outer }.forget.emit
              [.code .pop [.register 0], .code .mov [.register 1, .truth true],
               .code .icmp [.register 0, .register 1], .code .bne [.label (.blockEnd b.index)]])

/-- Close the innermost block, or the method if there is none. -/
def close (g : Generator) : Except Cause Generator :=
  match g.blocks with
  | [] => .ok { g.emit [.code .ret []] with inMethod := false }
  | b :: outer =>
      if b.opened then
        .ok { g.emit ((if b.loop then [.code .jmp [.label (.loop b.index)]] else [])
          ++ [.label (.blockEnd b.index)]) with blocks := outer }
      else .error .conditionMissing

/-- The code of a word that the text defines. -/
def defined (g : Generator) (d : Declarations) (w : Bytes) : Except Cause Generator :=
  match d.constants[w]? with
  | some c => .ok (g.pushConstant w c)
  | none =>
      if d.methods.contains w then .ok (g.emit [.code .jsr [.label (.method w)]]).forget
      else .error .definitionMissing

/-- The code of a word in a method body. -/
def word (g : Generator) (d : Declarations) (w : Bytes) : Except Cause Generator :=
  match Snippet.ofWord? w with
  | some s => g.snippet s (w == bytes "syscall")
  | none =>
      match Comparison.ofWord? w with
      | some c => g.comparison c
      | none =>
          if w = bytes "not" then g.negation
          else if w = bytes "if" then .ok (g.startBlock false)
          else if w = bytes "while" then .ok (g.startBlock true)
          else if w = bytes "\x7b" then g.openBlock
          else if w = bytes "\x7d" then g.close
          else if w = bytes "method" then .error .methodNested
          else g.defined d w

/-- The code of a token in a method body. -/
def statement (g : Generator) (d : Declarations) (t : Token) : Except Cause Generator :=
  match t.kind with
  | .integer | .double => .ok (g.push .mov (.word t.value))
  | .char => .ok (g.push .adr (.short t.value))
  | .string =>
      .ok { g.push .adr (.label (.literal g.literals.length)) with literals := t.text :: g.literals }
  | _ => g.word d t.text

/-! ## Token sequences -/

/-- Start a method; only `main` starts with a known depth. -/
def startMethod (g : Generator) (name : Bytes) : Generator :=
  { g.emit [.blank, .label (.method name)] with
    inMethod := true
    depth := if name = bytes "main" then some 0 else none }

/-- Whether a token starts a definition of a constant. -/
def isDefinition (t : Token) : Bool := t.text == bytes "let" || t.text == bytes "memory"

/-- Whether a token in a method body is looked up as a word. -/
def isWordLike (t : Token) : Bool :=
  match t.kind with
  | .word | .unassigned _ => true
  | _ => false

/-- The code of tokens. Definitions of constants stand for no code. -/
def tokens (g : Generator) (d : Declarations) : List Token → Except Error Generator
  | [] => .ok g
  | t :: rest =>
      if g.inMethod then
        if isWordLike t && isDefinition t then
          match rest with
          | _ :: _ :: _ :: tail => tokens g d tail
          | _ => .ok g
        else
          match g.statement d t with
          | .error cause => .error (t.error cause)
          | .ok next => tokens next d rest
      else if t.kind = .word ∧ t.text = bytes "method" then
        match rest with
        | name :: brace :: tail =>
            if brace.text = bytes "\x7b" then tokens (g.startMethod name.text) d tail
            else .error (t.error .methodName)
        | _ => .error (t.error .methodName)
      else if t.kind = .word ∧ isDefinition t then
        match rest with
        | _ :: _ :: _ :: tail => tokens g d tail
        | _ => .ok g
      else if t.kind = .word ∧ t.text = bytes "\x7d" then .error (t.error .braceUnbalanced)
      else .error (t.error .outsideMethod)

end Generator

/-! ## Whole texts -/

/-- Generated code and what it was generated from. -/
structure Compiled where
  lines : List Line
  declarations : Declarations
  literals : List Bytes

namespace Compiled

/-- The assembly text. -/
def text (c : Compiled) : Bytes := render c.lines

/-- What was generated, in numbers. -/
def summary (c : Compiled) : Bytes :=
  bytes "generated " ++ Numeral.decimal c.declarations.methods.length ++ bytes " methods, "
    ++ Numeral.decimal (c.literals.length + c.declarations.strings.length) ++ bytes " strings, "
    ++ Numeral.decimal c.declarations.memory.toNat ++ bytes " bytes of memory"

end Compiled

/-- What comes before the methods. -/
def header : List Line :=
  [.comment (bytes "generated by the vml compiler"), .blank, .label .start,
   .code .jmp [.label .finish]]

/-- The string data and the trailer. -/
def trailer (literals : List Bytes) (strings : List (Bytes × Bytes)) : List Line :=
  .blank :: (literals.zipIdx.map fun (raw, n) => .data (.literal n) raw)
    ++ strings.map (fun (name, raw) => .data (.constant name) raw)
    ++ [.label .finish, .code .jsr [.label (.method (bytes "main"))], .code .halt []]

/-- Generate code for tokens. -/
def generate (ts : List Token) : Except Error Compiled :=
  match declare ts with
  | .error e => .error e
  | .ok d =>
      match Generator.tokens {} d ts with
      | .error e => .error e
      | .ok g =>
          match g.inMethod, ts.getLast? with
          | true, some last => .error (last.error .braceUnbalanced)
          | _, _ =>
              let literals := g.literals.reverse
              .ok ⟨header ++ g.lines.reverse ++ trailer literals d.strings.reverse, d, literals⟩

/-- Compile a source text; include lines are followed only if there is a library. -/
def compile (library? : Option Library) (text : Bytes) : Except Error Compiled :=
  let expanded : Except Error Bytes :=
    match library? with
    | none => .ok text
    | some library =>
        match library.expand text with
        | .ok source => .ok source
        | .error e => .error (.inclusion e)
  match expanded with
  | .error e => .error e
  | .ok source =>
      match lex source with
      | .error e => .error e
      | .ok tokens => generate tokens

end WordMachine.Source
