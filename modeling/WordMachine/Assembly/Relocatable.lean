import WordMachine.Assembly.Lexer

/-!
# `Assembly.Relocatable` — tokens to bytes with holes for labels

Tokens become bytes in order. A label definition names the current offset, a label use leaves four bytes
to be filled with the offset of its label once all are known.

Contents: `Relocation`, `LineEntry`, `Relocatable`, `lower`, `Relocatable.resolve`.
-/

namespace WordMachine.Assembly

/-- Offsets of labels by name. -/
abbrev Labels := Std.TreeMap Bytes UInt32

/-- Four bytes to be filled with the offset of a label, and the line that uses it. -/
structure Relocation where
  offset : Nat
  label : Bytes
  line : Int
  deriving DecidableEq, Repr

/-- The offset of an instruction and its line. -/
structure LineEntry where
  offset : Nat
  line : Int
  deriving DecidableEq, Repr

/-- Bytes with holes for labels. Relocations and line entries are in ascending order of offsets. -/
structure Relocatable where
  image : Image := #[]
  relocations : Array Relocation := #[]
  labels : Labels := ∅
  lines : Array LineEntry := #[]

namespace Relocatable

/-- Add bytes at the end. -/
def append (r : Relocatable) (data : Bytes) : Relocatable := { r with image := r.image ++ data }

/-- Start an instruction; one without register operands has a zero descriptor right away. -/
def startInstruction (r : Relocatable) (op : Operation) (line : Int) : Relocatable :=
  { r.append (op.code :: if op.registers = 0 then [0] else []) with
    lines := r.lines.push ⟨r.image.size, line⟩ }

/-- Name the current offset. -/
def define (r : Relocatable) (name : Bytes) : Relocatable :=
  { r with labels := r.labels.insert name r.image.size.toUInt32 }

/-- Leave a hole for a label. -/
def hole (r : Relocatable) (name : Bytes) (line : Int) : Relocatable :=
  { r.append [0, 0, 0, 0] with relocations := r.relocations.push ⟨r.image.size, name, line⟩ }

/-- Lower one token that is no register. -/
def token (r : Relocatable) (t : Token) : Except Error Relocatable :=
  let refuse (cause : Cause) : Except Error Relocatable := .error (.line t.line t.text cause)
  let number (width : Nat) : Except Error Relocatable :=
    match t.value with
    | .ok value => .ok (r.append (littleEndian width value.toNat))
    | .error cause => refuse cause
  match t.kind with
  | .instruction =>
      match Operation.ofMnemonic? t.text with
      | some op => .ok (r.startInstruction op t.line)
      | none => refuse (.wordUnknown t.text)
  | .int32 | .char => number 4
  | .int64 => number 8
  | .string =>
      match Escape.decode? t.text with
      | some data => .ok (r.append (data ++ [0]))
      | none => refuse .escapeUnknown
  | .labelDefinition =>
      if t.text ∈ r.labels then .error (.label t.line (.duplicate t.text)) else .ok (r.define t.text)
  | .labelUse => .ok (r.hole t.text t.line)
  | .register | .unassigned _ => refuse .operandKind

/-- The register of a token. -/
def registerOf (t : Token) : Except Error Register :=
  match t.register with
  | .ok reg => .ok reg
  | .error cause => .error (.line t.line t.text cause)

/-- The descriptor byte of two registers. -/
def descriptor (lo hi : Register) : UInt8 := (lo.val + 16 * hi.val).toUInt8

/-- Lower tokens one after the other; a pair of registers shares one byte. -/
def tokens (r : Relocatable) : List Token → Except Error Relocatable
  | [] => .ok r
  | t :: rest =>
      if t.kind = .register then
        match registerOf t with
        | .error e => .error e
        | .ok lo =>
            match rest with
            | [] => .ok (r.append [descriptor lo 0])
            | u :: tail =>
                if u.kind = .register then
                  match registerOf u with
                  | .error e => .error e
                  | .ok hi => tokens (r.append [descriptor lo hi]) tail
                else tokens (r.append [descriptor lo 0]) (u :: tail)
      else
        match r.token t with
        | .error e => .error e
        | .ok next => tokens next rest

/-- Write bytes over those from an offset on, as far as there are any. -/
def patch (image : Image) : Nat → Bytes → Image
  | _, [] => image
  | offset, b :: rest => patch (image.setIfInBounds offset b) (offset + 1) rest

/-- Fill holes one after the other. -/
def fill (labels : Labels) : Image → List Relocation → Except Error Image
  | image, [] => .ok image
  | image, hole :: rest =>
      match labels[hole.label]? with
      | none => .error (.label hole.line (.missing hole.label))
      | some offset => fill labels (patch image hole.offset (littleEndian 4 offset.toNat)) rest

/-- The image with every hole filled. -/
def resolve (r : Relocatable) : Except Error Image := fill r.labels r.image r.relocations.toList

/-- What was lowered, in numbers. -/
def summary (r : Relocatable) : Bytes :=
  bytes "lowered " ++ Numeral.decimal r.image.size ++ bytes " bytes, "
    ++ Numeral.decimal r.labels.size ++ bytes " labels, "
    ++ Numeral.decimal r.relocations.size ++ bytes " relocations"

end Relocatable

/-- The bytes of tokens, with holes for labels. -/
def lower (ts : List Token) : Except Error Relocatable := Relocatable.tokens {} ts

end WordMachine.Assembly
