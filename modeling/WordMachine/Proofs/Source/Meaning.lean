import Mathlib
import WordMachine.Proofs.Source.Layout

/-!
# `Proofs.Source.Meaning` — what words without branches mean

A word changes a stack of 64-bit values and the bytes of memory, or it fails. The meaning of a word is
given here on its own: numbers in memory are sums of bytes, strings in the image end before the first zero
byte, and comparisons are those of the two values in the order in which they were pushed.

Contents:
* `Setting`, `State`: what words run against and what they change; `push`, `load`, `write`, `string`;
* `Word`, `Word.run`, `Word.runAll`;
* `Word.table`: the words of the language;
* `define?`: what the names of constants stand for;
* `Literal`, `Means`: the words that tokens stand for; `Sentence.isPlain`;
* `depthAfter?`: the depth of the stack, told from the tokens alone.
-/

namespace WordMachine.Source

/-! ## States -/

/-- What words run against: the image, the number of bytes of memory, and the depth of the stack, where
zero means any depth. -/
structure Setting where
  image : Image
  memory : Nat
  depth : Nat

/-- What words change: the values on the stack, latest first, and the bytes of memory. -/
structure State where
  stack : List UInt64
  byte : Nat → UInt8

namespace Setting

/-- Put a value on the stack. -/
def push (e : Setting) (value : UInt64) (st : State) : Except Fault State :=
  if 0 < e.depth ∧ e.depth ≤ st.stack.length then .error .stackFull
  else .ok { st with stack := value :: st.stack }

/-- The number in `size` bytes of memory, the least significant byte first. -/
def load (e : Setting) (st : State) (size : Nat) (address : UInt64) : Except Fault UInt64 :=
  if address.toNat + size ≤ e.memory then
    .ok ((List.range size).map fun i => (st.byte (address.toNat + i)).toNat * 256 ^ i).sum.toUInt64
  else .error (.access ⟨.memory, address, size, e.memory⟩)

/-- The low `size` bytes of a value, the least significant first. -/
def lowBytes (size : Nat) (value : UInt64) : Bytes :=
  (List.range size).map fun i => (value.toNat / 256 ^ i).toUInt8

/-- The bytes of memory with `data` from an address on. -/
def write (e : Setting) (byte : Nat → UInt8) (address : UInt64) (data : Bytes) : Except Fault (Nat → UInt8) :=
  if address.toNat + data.length ≤ e.memory then
    .ok fun i => if address.toNat ≤ i then data[i - address.toNat]?.getD (byte i) else byte i
  else .error (.access ⟨.memory, address, data.length, e.memory⟩)

/-- The bytes of the image from an address up to a zero byte. -/
def string (e : Setting) (address : UInt64) : Except Fault Bytes :=
  let rest := e.image.toList.drop address.toNat
  if 0 ∈ rest then .ok (rest.takeWhile (· != 0))
  else .error (.access ⟨.image, address, rest.length + 1, e.image.size⟩)

end Setting

/-! ## Words -/

/-- A word of straight code. In `a b word`, the second value `b` is on top. -/
inductive Word where
  | value (v : UInt64)
  /-- Replace `a b` by `f a b`. -/
  | arithmetic (f : UInt64 → UInt64 → UInt64)
  | quotient
  | convert (f : UInt64 → UInt64)
  /-- Replace `a b` by one if `a` and `b` are related, and by zero if not. -/
  | relation (holds : UInt64 → UInt64 → Bool)
  /-- Compare the strings at two addresses of the image. -/
  | sameText (same : Bool)
  | negation
  | dup
  | swap
  | drop
  | rot
  | load (size : Nat)
  | store (size : Nat)
  | copy

namespace Word

/-- One or zero. -/
def truth (b : Bool) : UInt64 := if b then 1 else 0

/-- What a word does. `not` takes a place above its operand for a moment, and the upper of two strings is
read first. -/
def run (e : Setting) (w : Word) (st : State) : Except Fault State :=
  match w, st.stack with
  | .value v, _ => e.push v st
  | .arithmetic f, b :: a :: rest => .ok { st with stack := f a b :: rest }
  | .quotient, b :: a :: rest =>
      if b = 0 then .error .divideByZero else .ok { st with stack := a / b :: rest }
  | .convert f, a :: rest => .ok { st with stack := f a :: rest }
  | .relation holds, b :: a :: rest => .ok { st with stack := truth (holds a b) :: rest }
  | .sameText same, b :: a :: rest => do
      let upper ← e.string b
      let lower ← e.string a
      return { st with stack := truth (decide (lower = upper) == same) :: rest }
  | .negation, a :: rest => do
      let _ ← e.push 0 st
      return { st with stack := truth (a == 0) :: rest }
  | .dup, a :: _ => e.push a st
  | .swap, b :: a :: rest => .ok { st with stack := a :: b :: rest }
  | .drop, _ :: rest => .ok { st with stack := rest }
  | .rot, c :: b :: a :: rest => .ok { st with stack := a :: c :: b :: rest }
  | .load size, address :: rest => do
      let v ← e.load st size address
      return { st with stack := v :: rest }
  | .store size, v :: address :: rest => do
      let byte ← e.write st.byte address (Setting.lowBytes size v)
      return ⟨rest, byte⟩
  | .copy, source :: target :: rest => do
      let text ← e.string source
      let byte ← e.write st.byte target (text ++ [0])
      return ⟨rest, byte⟩
  | _, _ => .error .stackEmpty

/-- What words do one after another. -/
def runAll (e : Setting) : List Word → State → Except Fault State
  | [], st => .ok st
  | w :: rest, st => do
      let next ← w.run e st
      runAll e rest next

/-- How many values a word takes off the stack, and how many it leaves in their place. -/
def effect : Word → Nat × Nat
  | .value _ => (0, 1)
  | .arithmetic _ | .quotient | .relation _ | .sameText _ => (2, 1)
  | .convert _ | .negation | .load _ => (1, 1)
  | .dup => (1, 2)
  | .swap => (2, 2)
  | .drop => (1, 0)
  | .rot => (3, 3)
  | .store _ | .copy => (2, 0)

/-- The words that every text knows. -/
def table : List (Bytes × Word) :=
  [(bytes "+", .arithmetic fun a b => a + b), (bytes "-", .arithmetic fun a b => a - b),
   (bytes "*", .arithmetic fun a b => a * b), (bytes "/", .quotient),
   (bytes "and", .arithmetic fun a b => a &&& b), (bytes "or", .arithmetic fun a b => a ||| b),
   (bytes "d+", .arithmetic fun a b => Double.lift (· + ·) b a), (bytes "d-", .arithmetic (Double.lift (· - ·))),
   (bytes "d*", .arithmetic fun a b => Double.lift (· * ·) b a), (bytes "d/", .arithmetic (Double.lift (· / ·))),
   (bytes "pow", .arithmetic Double.power), (bytes "root", .arithmetic Double.root),
   (bytes "(int)", .convert Double.toSigned), (bytes "(float)", .convert Double.ofSigned),
   (bytes "<", .relation fun a b => a < b), (bytes ">", .relation fun a b => a > b),
   (bytes "=", .relation fun a b => a == b), (bytes "!=", .relation fun a b => a != b),
   (bytes "d<", .relation fun a b => Double.compare? a b == some .lt),
   (bytes "d>", .relation fun a b => Double.compare? a b == some .gt),
   (bytes "d=", .relation fun a b => Double.compare? a b == some .eq),
   (bytes "d!=", .relation fun a b => Double.compare? a b != some .eq),
   (bytes "str=", .sameText true), (bytes "str!=", .sameText false), (bytes "not", .negation),
   (bytes "dup", .dup), (bytes "swap", .swap), (bytes "drop", .drop), (bytes "rot", .rot),
   (bytes "@8", .load 1), (bytes "@16", .load 2), (bytes "@32", .load 4), (bytes "@64", .load 8),
   (bytes "!8", .store 1), (bytes "!16", .store 2), (bytes "!32", .store 4), (bytes "!64", .store 8),
   (bytes "copy", .copy)]

/-- The word with a text. -/
def ofText? (text : Bytes) : Option Word := (table.find? (·.1 == text)).map (·.2)

end Word

/-! ## Tokens -/

/-- What the name of a constant stands for: the value after `let`, or the address of memory. -/
inductive Definition where
  | value (t : Token)
  | memory (address : UInt64)

/-- The definitions among sentences, with their names; memory is set aside from an address on. -/
def definitionsFrom (address : UInt64) : List Sentence → List (Bytes × Definition)
  | [] => []
  | .definition keyword value _ name :: rest =>
      if keyword.text = bytes "memory" then
        (name.text, .memory address) ::
          definitionsFrom (address + UInt64.ofInt (integerValue value.text)) rest
      else (name.text, .value value) :: definitionsFrom address rest
  | _ :: rest => definitionsFrom address rest

/-- What a name stands for in a text. -/
def define? (ss : List Sentence) (name : Bytes) : Option Definition := (definitionsFrom 0 ss).lookup name

/-- The values that a literal can push. A string pushes an address of the image at which its text stands
with a zero byte after it. -/
inductive Literal (image : Bytes) (t : Token) : UInt64 → Prop where
  | integer (hk : t.kind = .integer) : Literal image t (UInt64.ofInt (integerValue t.text))
  | double {v : UInt64} (hk : t.kind = .double) (hv : number t.text = .ok (some (.double, v))) : Literal image t v
  | char {b : UInt8} (hk : t.kind = .char) (hb : Escape.decode? t.text = some [b]) : Literal image t b.toUInt64
  | string {address : UInt64} {text rest : Bytes} (hk : t.kind = .string)
      (htext : Escape.decode? t.text = some text) (hplace : image.drop address.toNat = text ++ 0 :: rest) :
      Literal image t address

/-- The words that a token can stand for, given the sentences of the text and the addresses of its string
constants. -/
inductive Means (image : Bytes) (ss : List Sentence) (address : Bytes → UInt64) (t : Token) : Word → Prop where
  | literal {v : UInt64} (h : Literal image t v) : Means image ss address t (.value v)
  | word {w : Word} (hk : t.kind = .word) (h : Word.ofText? t.text = some w) : Means image ss address t w
  | memory {v : UInt64} (hk : t.kind = .word) (h : define? ss t.text = some (.memory v)) :
      Means image ss address t (.value v)
  | constant {u : Token} {v : UInt64} (hk : t.kind = .word) (h : define? ss t.text = some (.value u))
      (hv : Literal image u v) (hs : u.kind = .string → v = address t.text) : Means image ss address t (.value v)

/-- Whether a token is a literal, a word of the table or the name of a constant. -/
def Token.isPlain (ss : List Sentence) (t : Token) : Bool :=
  match t.kind with
  | .word => (Word.ofText? t.text).isSome || (define? ss t.text).isSome
  | .unassigned _ => false
  | _ => true

/-- Whether a sentence belongs to straight code. -/
def Sentence.isPlain (ss : List Sentence) : Sentence → Bool
  | .statement t => t.isPlain ss
  | .definition .. => true
  | .method .. => false

/-- Whether a sentence defines a constant. -/
def Sentence.isDefinition : Sentence → Bool
  | .definition .. => true
  | _ => false

/-- How many values the word of a token takes and leaves. -/
def Token.effect (t : Token) : Nat × Nat :=
  match t.kind with
  | .word => ((Word.ofText? t.text).map Word.effect).getD (0, 1)
  | _ => (0, 1)

/-- The depth of the stack after straight code, unless a word finds too few values. -/
def depthAfter? : List Token → Nat → Option Nat
  | [], n => some n
  | t :: rest, n => if t.effect.1 ≤ n then depthAfter? rest (n - t.effect.1 + t.effect.2) else none

end WordMachine.Source
