import WordMachine.Assembly.Expression.Function
import WordMachine.Assembly.Expression.Tree
import WordMachine.Assembly.Scope

/-!
# `Assembly.Expression.Eval` — an interpreter of operand expressions

A name that is assigned to anywhere in a program stands for what was assigned; other names stand for
the integers that are known before, then for the functions and constants every expression knows.

Contents: `Tree.eval?`, `Statement.run?`, `interpreter`.
-/

namespace WordMachine.Assembly

namespace Expression

/-- The value of a name that is not assigned to. -/
def lookup? (known : Bytes → Option Int) (name : Bytes) : Option Value :=
  match known name with
  | some n => some (.int n)
  | none => Value.universe? name

namespace Tree

mutual

/-- The value of an expression, if it has one. No value has an attribute. -/
def eval? (env : Bytes → Option Value) : Tree → Option Value
  | .literal v => some v
  | .name n => env n
  | .unary op e => (eval? env e).bind (Value.unary? op)
  | .binary op a b => (eval? env a).bind fun x => (eval? env b).bind fun y => Value.binary? op x y
  | .both a b => (eval? env a).bind fun x => if x.truth then eval? env b else some x
  | .either a b => (eval? env a).bind fun x => if x.truth then some x else eval? env b
  | .choice c a b => (eval? env c).bind fun x => if x.truth then eval? env a else eval? env b
  | .list es => (evalAll? env es).map .list
  | .tuple es => (evalAll? env es).map .tuple
  | .index e i => (eval? env e).bind fun x => (eval? env i).bind fun y => Value.index? x y
  | .slice e lo hi step =>
      (eval? env e).bind fun x => (eval? env lo).bind fun p => (eval? env hi).bind fun q =>
        (eval? env step).bind fun r => Value.slice? x p q r
  | .attribute _ _ => none
  | .call f args keys values spread =>
      (eval? env f).bind fun g => (evalAll? env args).bind fun xs => (evalAll? env values).bind fun ys =>
        (evalAll? env spread).bind fun zs => (zs.mapM Value.items?).bind fun more =>
          Value.call? g (xs ++ more.flatten) (keys.zip ys)

/-- The values of expressions, if all have one. -/
def evalAll? (env : Bytes → Option Value) : List Tree → Option (List Value)
  | [] => some []
  | e :: es => (eval? env e).bind fun x => (evalAll? env es).map (x :: ·)

end

end Tree

/-! ## Statements -/

/-- Names with the values assigned to them, latest first. -/
abbrev Assigned := List (Bytes × Value)

mutual

/-- Assign a value to a target; a sequence has as many items as there are targets. -/
def Target.assign? (names : Assigned) : Target → Value → Option Assigned
  | .name n, v => some ((n, v) :: names)
  | .items ts, v => v.items?.bind (Target.assignAll? names ts)

/-- Assign values to targets in order. -/
def Target.assignAll? (names : Assigned) : List Target → List Value → Option Assigned
  | [], [] => some names
  | t :: ts, v :: vs => (Target.assign? names t v).bind fun names => Target.assignAll? names ts vs
  | _, _ => none

end

namespace Statement

/-- Perform a statement. -/
def run? (env : Assigned → Bytes → Option Value) (names : Assigned) : Statement → Option Assigned
  | .assign t e => (e.eval? (env names)).bind (t.assign? names)
  | .perform e => (e.eval? (env names)).map fun _ => names

end Statement

/-- The values assigned to names when statements are performed in order. No name is assigned to twice,
and every name has a meaning, also where it is not evaluated. -/
def perform? (known : Bytes → Option Int) (statements : List Statement) : Option Assigned :=
  let targets := statements.flatMap Statement.assigns
  let meant (n : Bytes) : Bool := targets.contains n || (lookup? known n).isSome
  let env (names : Assigned) (n : Bytes) : Option Value :=
    if targets.contains n then names.lookup n else lookup? known n
  if targets.Nodup ∧ (statements.flatMap Statement.uses).all meant then
    statements.foldlM (Statement.run? env) []
  else none

/-- The integer that a program leaves under a name. -/
def integer? (known : Bytes → Option Int) (program name : Bytes) : Option Int := do
  let statements ← Statement.parse? program
  let names ← perform? known statements
  match names.lookup name with
  | some (.int n) => some n
  | _ => none

/-- The interpreter of the command line. -/
def interpreter : Interpreter := ⟨integer?⟩

end Expression

end WordMachine.Assembly
