import WordMachine.Assembly.Token

/-!
# `Assembly.Draft` — the tokens of a line against the operand slots of its instructions

Tokens are offered in order. An instruction opens the slots of its operands, each operand must fill the
first open slot, and nothing else may come before all slots are filled. `sys` followed by a register is
the instruction `call`.

Contents: `Draft`, `Draft.alternate?`, `Draft.accept`, `Draft.offer`, `Draft.finish`, `Draft.ofTokens`, and
`Draft.budget_eq_zero`.
-/

namespace WordMachine.Assembly

/-- No slots have no budget. -/
theorem zero_eq_budget : 0 = Operand.budget [] := rfl

/-- The tokens of a line accepted so far, latest first, the operand slots still open, and their budget. -/
structure Draft where
  tokens : List Token := []
  slots : List Operand := []
  budget : Nat := 0
  budget_eq : budget = Operand.budget slots := by exact WordMachine.Assembly.zero_eq_budget
  deriving DecidableEq, Repr

namespace Draft

/-- The draft of some tokens that leave some slots open. -/
def of (tokens : List Token) (slots : List Operand) : Draft := ⟨tokens, slots, Operand.budget slots, rfl⟩

/-- The operand slots that an instruction token opens. -/
def slotsOf (mnemonic : Bytes) : List Operand :=
  ((Operation.ofMnemonic? mnemonic).map Operation.operands).getD []

/-- Give the latest token, an instruction without operands yet, its alternate form if that one takes an
operand of the given kind first. -/
def alternate? (d : Draft) (kind : Operand) : Option Draft :=
  match d.tokens with
  | [] => none
  | last :: earlier =>
      if last.kind = .instruction then
        match (Operation.ofMnemonic? last.text).bind Operation.alternate? with
        | none => none
        | some alt =>
            if alt.operands.head? = some kind then
              some (of ({ last with text := alt.mnemonic } :: earlier) alt.operands)
            else none
      else none

/-- A filled slot leaves the budget of those behind it. -/
theorem budget_tail (d : Draft) :
    d.budget - (d.slots.head?.map Operand.cost).getD 0 = Operand.budget d.slots.tail := by
  rw [d.budget_eq]
  cases d.slots with
  | nil => rfl
  | cons slot rest => exact Nat.add_sub_cancel_left ..

/-- Put an operand into the first open slot. -/
def accept (d : Draft) (t : Token) : Draft :=
  ⟨t :: d.tokens, d.slots.tail, d.budget - (d.slots.head?.map Operand.cost).getD 0, d.budget_tail⟩

/-- Fill the first open slot with an operand of a kind. -/
def fill (d : Draft) (t : Token) (kind : Option Operand) : Except Cause Draft :=
  match d.slots with
  | [] => .error .operandCount
  | slot :: _ =>
      if kind = some slot then .ok (d.accept t)
      else
        match kind.bind d.alternate? with
        | some changed => .ok (changed.accept t)
        | none => .error .operandKind

/-- Accept the next token of a line. -/
def offer (d : Draft) (t : Token) : Except Cause Draft :=
  match t.kind with
  | .instruction =>
      if d.budget = 0 then .ok (of (t :: d.tokens) (slotsOf t.text)) else .error .operandCount
  | .labelDefinition => if d.budget = 0 then .ok { d with tokens := t :: d.tokens } else .error .operandCount
  | .string => if d.budget = 0 then .ok { d with tokens := t :: d.tokens } else .error .operandKind
  | _ => d.fill t t.operand?

/-- The tokens of a finished line, in order. -/
def finish (d : Draft) : Except Cause (List Token) :=
  if d.budget = 0 then .ok d.tokens.reverse else .error .operandCount

/-- Accept tokens one after the other. -/
def offerAll : Draft → List Token → Except Cause Draft
  | d, [] => .ok d
  | d, t :: rest =>
      match d.offer t with
      | .ok next => offerAll next rest
      | .error cause => .error cause

/-- The tokens of a line that holds exactly the given ones. -/
def ofTokens (ts : List Token) : Except Cause (List Token) :=
  match offerAll {} ts with
  | .ok d => d.finish
  | .error cause => .error cause

/-! ## Slots and their budget -/

/-- Every slot has a cost, so the budget is used up when no slot is open. -/
@[simp] theorem budget_eq_zero {d : Draft} : d.budget = 0 ↔ d.slots = [] := by
  rw [d.budget_eq]
  cases d.slots with
  | nil => exact ⟨fun _ => rfl, fun _ => rfl⟩
  | cons slot rest =>
      have hpos : 0 < Operand.budget (slot :: rest) := by
        cases slot <;> exact Nat.lt_of_lt_of_le (by decide) (Nat.le_add_right ..)
      exact ⟨fun h => absurd h (Nat.ne_of_gt hpos), fun h => absurd h (List.cons_ne_nil slot rest)⟩

@[simp] theorem tokens_of (ts : List Token) (slots : List Operand) : (of ts slots).tokens = ts := rfl

@[simp] theorem slots_of (ts : List Token) (slots : List Operand) : (of ts slots).slots = slots := rfl

@[simp] theorem accept_of (ts : List Token) (slot : Operand) (slots : List Operand) (t : Token) :
    (of ts (slot :: slots)).accept t = of (t :: ts) slots := by
  have hbudget := (of ts (slot :: slots)).budget_tail
  simp only [accept, of, List.tail_cons, Draft.mk.injEq, true_and] at hbudget ⊢
  exact hbudget

end Draft

end WordMachine.Assembly
