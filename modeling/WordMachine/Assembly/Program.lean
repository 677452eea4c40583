import WordMachine.Assembly.Relocatable

/-!
# `Assembly.Program` — assembled programs and where their bytes come from

Contents: `Program`, `assemble`, `searchFrom`, `Program.debug?`, `Program.symbols`.
-/

namespace WordMachine.Assembly

/-- An image with its labels and the lines of its instructions. -/
structure Program where
  image : Image := #[]
  labels : Labels := ∅
  lines : List LineEntry := []

/-- Assemble tokens; no program has a label that is defined twice or not at all. -/
def assemble (ts : List Token) : Except Error Program :=
  match lower ts with
  | .error e => .error e
  | .ok r =>
      match r.resolve with
      | .error e => .error e
      | .ok image => .ok ⟨image, r.labels, r.lines.toList⟩

theorem middle_sub_lt {low high : Nat} (h : low < high) : (low + high) / 2 - low < high - low := by omega

theorem sub_middle_lt {low high : Nat} (h : low < high) : high - ((low + high) / 2 + 1) < high - low := by omega

/-- The first number of a range that passes a test which all larger numbers pass as well; the range is
halved until nothing is left of it. -/
def searchFrom (test : Nat → Bool) (low high : Nat) : Nat :=
  if h : low < high then
    have := middle_sub_lt h
    have := sub_middle_lt h
    if test ((low + high) / 2) then searchFrom test low ((low + high) / 2)
    else searchFrom test ((low + high) / 2 + 1) high
  else low
  termination_by high - low

namespace Program

/-- A program without labels and lines. -/
def ofImage (image : Image) : Program := { image := image }

/-- The instruction that a place of the image lies in, and the index of the place within it. -/
structure Debug where
  entry : LineEntry
  index : Nat
  deriving DecidableEq, Repr

/-- The last instruction that starts at or before a place, found by the first one that starts behind it. -/
def lastBefore (p : Program) (pc : Int) : Option LineEntry :=
  let table := p.lines.toArray
  let behind := searchFrom (fun i => (table[i]?).all fun l => decide (pc < l.offset)) 0 table.size
  if behind = 0 then none else table[behind - 1]?

/-- Find the instruction that holds a place; string bytes and places outside belong to none. -/
def debug? (p : Program) (pc : Int) : Option Debug :=
  match p.lastBefore pc with
  | none => none
  | some entry =>
      let opcode : Opcode := ⟨p.image[entry.offset]?.getD 0⟩
      if (p.image.size : Int) ≤ pc then none
      else if (entry.offset + opcode.width : Nat) ≤ pc then none
      else some ⟨entry, pc.toNat - entry.offset⟩

/-- The labels in ascending order of offsets, those of one offset by name. -/
def symbols (p : Program) : List (Bytes × UInt32) :=
  p.labels.toList.mergeSort fun a b => decide (a.2 ≤ b.2)

end Program

end WordMachine.Assembly
