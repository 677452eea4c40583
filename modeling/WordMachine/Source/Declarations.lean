import Std.Data.TreeMap
import WordMachine.Source.Token
import WordMachine.Source.Words

/-!
# `Source.Declarations` — methods and constants of a source text

All names are collected before any code is generated, so a text may use them before it defines them.

Contents: `Constant`, `Declarations`, `Declarations.define`, `declare`.
-/

namespace WordMachine.Source

/-- A named value. -/
inductive Constant where
  /-- A word pushed as it is: an integer or the pattern of a double. -/
  | number (value : UInt64)
  | char (value : UInt64)
  /-- A string, as raw literal text. -/
  | string (raw : Bytes)
  /-- Memory set aside: its address and size. -/
  | memory (address size : UInt64)
  deriving DecidableEq, Repr

/-- The value of a `let` token; a word has none. -/
def Constant.ofToken? (t : Token) : Option Constant :=
  match t.kind with
  | .word => none
  | .string => some (.string t.text)
  | .char => some (.char t.value)
  | _ => some (.number t.value)

/-- The names a source text defines. -/
structure Declarations where
  methods : List Bytes := []
  constants : Std.TreeMap Bytes Constant := ∅
  /-- String constants in the order of their definition, latest first. -/
  strings : List (Bytes × Bytes) := []
  /-- The first address that is not set aside yet. -/
  memory : UInt64 := 0

namespace Declarations

/-- Check that a token may become a name. -/
def define (d : Declarations) (t : Token) : Except Cause Bytes :=
  if t.kind != .word || !isName t.text || isReserved t.text then .error .nameInvalid
  else if d.methods.contains t.text || d.constants.contains t.text then
    .error (.definitionDuplicate t.text)
  else .ok t.text

/-- Define a method. -/
def addMethod (d : Declarations) (name : Token) : Except Cause Declarations :=
  match d.define name with
  | .error cause => .error cause
  | .ok n => .ok { d with methods := n :: d.methods }

/-- Define a constant with the value of a token. -/
def addLet (d : Declarations) (value name : Token) : Except Cause Declarations :=
  match d.define name with
  | .error cause => .error cause
  | .ok n =>
      match Constant.ofToken? value with
      | none => .error .letMalformed
      | some c =>
          .ok { d with
            constants := d.constants.insert n c
            strings :=
              match c with
              | .string raw => (n, raw) :: d.strings
              | _ => d.strings }

/-- Set memory aside and define its address. -/
def addMemory (d : Declarations) (size name : Token) : Except Cause Declarations :=
  match d.define name with
  | .error cause => .error cause
  | .ok n =>
      if size.kind = .integer then
        .ok { d with
          constants := d.constants.insert n (.memory d.memory size.value)
          memory := d.memory + size.value }
      else .error .memoryMalformed

/-- Whether a token is the word between a value and its name. -/
def isConst (t : Token) : Bool := t.kind == .word && t.text == bytes "const"

/-- Collect the definitions among tokens. -/
def collect (d : Declarations) : List Token → Except Error Declarations
  | [] => .ok d
  | t :: rest =>
      if t.kind = .word ∧ t.text = bytes "method" then
        match rest with
        | [] => .error (t.error .methodName)
        | name :: tail =>
            if name.text = bytes "\x7b" then .error (t.error .methodName)
            else
              match d.addMethod name with
              | .error cause => .error (t.error cause)
              | .ok next => collect next tail
      else if t.kind = .word ∧ t.text = bytes "let" then
        match rest with
        | value :: const :: name :: tail =>
            if isConst const then
              match d.addLet value name with
              | .error cause => .error (t.error cause)
              | .ok next => collect next tail
            else .error (t.error .letMalformed)
        | _ => .error (t.error .letMalformed)
      else if t.kind = .word ∧ t.text = bytes "memory" then
        match rest with
        | size :: const :: name :: tail =>
            if isConst const then
              match d.addMemory size name with
              | .error cause => .error (t.error cause)
              | .ok next => collect next tail
            else .error (t.error .memoryMalformed)
        | _ => .error (t.error .memoryMalformed)
      else collect d rest

end Declarations

/-- The definitions of a source text, which must have a method `main`. -/
def declare (tokens : List Token) : Except Error Declarations :=
  match Declarations.collect {} tokens with
  | .error e => .error e
  | .ok d => if d.methods.contains (bytes "main") then .ok d else .error .mainMissing

end WordMachine.Source
