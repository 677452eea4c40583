import WordMachine.Assembly.Expression.Operator
import WordMachine.Assembly.Expression.Symbol

/-!
# `Assembly.Expression.Tree` — reading operand expressions

The symbols of a text are read as statements: expressions, and assignments of expressions to names.
Comparisons do not associate; `not` binds more loosely than they do; a conditional `a if c else b`
binds loosest.

Contents: `Tree`, `Tree.names`; `Statement`, `Statement.parse?`.
-/

namespace WordMachine.Assembly.Expression

/-! ## Trees -/

/-- An expression. A call has arguments in order, arguments by name (their names and their values), and
at most one sequence of further arguments in order. -/
inductive Tree where
  | literal (v : Value)
  | name (n : Bytes)
  | unary (op : UnaryOp) (e : Tree)
  | binary (op : BinaryOp) (a b : Tree)
  | both (a b : Tree)
  | either (a b : Tree)
  | choice (condition yes no : Tree)
  | list (es : List Tree)
  | tuple (es : List Tree)
  | index (e i : Tree)
  | slice (e lo hi step : Tree)
  | attribute (e : Tree) (n : Bytes)
  | call (f : Tree) (args : List Tree) (keys : List Bytes) (values spread : List Tree)

namespace Tree

mutual

/-- The names in an expression. -/
def names : Tree → List Bytes
  | .literal _ => []
  | .name n => [n]
  | .unary _ e | .attribute e _ => names e
  | .binary _ a b | .both a b | .either a b | .index a b => names a ++ names b
  | .choice c a b => names c ++ names a ++ names b
  | .list es | .tuple es => namesAll es
  | .slice e lo hi step => names e ++ names lo ++ names hi ++ names step
  | .call f args _ values spread => names f ++ namesAll args ++ namesAll values ++ namesAll spread

/-- The names in expressions. -/
def namesAll : List Tree → List Bytes
  | [] => []
  | e :: es => names e ++ namesAll es

end

/-! ## Operators -/

/-- Levels of the operators between two values, from the loosest. -/
def levels : List (List (Bytes × (Tree → Tree → Tree))) :=
  [[(bytes "or", .either)],
   [(bytes "and", .both)],
   [],
   [(bytes "==", .binary .eq), (bytes "!=", .binary .ne), (bytes "<", .binary .lt),
    (bytes ">", .binary .gt), (bytes "<=", .binary .le), (bytes ">=", .binary .ge),
    (bytes "in", .binary .isIn), (bytes "not in", .binary .isNotIn)],
   [(bytes "|", .binary .bitOr)],
   [(bytes "^", .binary .bitXor)],
   [(bytes "&", .binary .bitAnd)],
   [(bytes "<<", .binary .shiftLeft), (bytes ">>", .binary .shiftRight)],
   [(bytes "-", .binary .sub), (bytes "+", .binary .add)],
   [(bytes "*", .binary .mul), (bytes "%", .binary .mod), (bytes "/", .binary .div),
    (bytes "//", .binary .floorDiv)]]

/-- The level of `not`. -/
def notLevel : Nat := 2

/-- The level of comparisons, which do not associate. -/
def comparisonLevel : Nat := 3

/-- Join `not` and a following `in` to one operator. -/
def joinNotIn : List Symbol → List Symbol
  | .mark m :: .mark n :: rest =>
      if m == bytes "not" && n == bytes "in" then .mark (bytes "not in") :: rest
      else .mark m :: .mark n :: rest
  | symbols => symbols

/-- The operator of a level in front. -/
def operator? (level : Nat) : List Symbol → Option ((Tree → Tree → Tree) × List Symbol)
  | .mark m :: rest =>
      ((levels[level]?.getD []).find? fun entry => entry.1 == m).map fun entry => (entry.2, rest)
  | _ => none

/-- The sign operators in front of a value. -/
def sign? (m : Bytes) : Option UnaryOp :=
  if m == bytes "+" then some .plus
  else if m == bytes "-" then some .minus
  else if m == bytes "~" then some .invert
  else none

/-- Whether a mark is in front. -/
def startsWith (m : String) : List Symbol → Bool
  | .mark n :: _ => n == bytes m
  | _ => false

/-- Take a mark from the front. -/
def expect? (m : String) (symbols : List Symbol) : Option (List Symbol) :=
  if startsWith m symbols then some (symbols.drop 1) else none

/-- The name in front, if an equals sign follows it. -/
def key? : List Symbol → Option (Bytes × List Symbol)
  | .name n :: rest => (expect? "=" rest).map fun rest => (n, rest)
  | _ => none

/-! ## Arguments -/

/-- The arguments of a call. -/
structure Arguments where
  plain : List Tree := []
  keys : List Bytes := []
  values : List Tree := []
  spread : List Tree := []

namespace Arguments

/-- The number of arguments in order, or by name, that a call may have. -/
def limit : Nat := 255

/-- Add an argument in order; none may follow one by name or a sequence. -/
def addPlain? (a : Arguments) (e : Tree) : Option Arguments :=
  if a.keys.isEmpty && a.spread.isEmpty then some { a with plain := a.plain ++ [e] } else none

/-- Add an argument by name; none may follow a sequence or repeat a name. -/
def addNamed? (a : Arguments) (key : Bytes) (e : Tree) : Option Arguments :=
  if a.spread.isEmpty && !a.keys.contains key then
    some { a with keys := a.keys ++ [key], values := a.values ++ [e] }
  else none

/-- Add a sequence of arguments; there may be only one. -/
def addSpread? (a : Arguments) (e : Tree) : Option Arguments :=
  if a.spread.isEmpty then some { a with spread := [e] } else none

/-- The call with these arguments. -/
def call? (a : Arguments) (f : Tree) : Option Tree :=
  if a.plain.length ≤ limit ∧ a.keys.length ≤ limit then
    some (.call f a.plain a.keys a.values a.spread)
  else none

end Arguments

/-! ## Reading -/

mutual

/-- Read an expression that may be conditional. -/
def parseTest : Nat → List Symbol → Option (Tree × List Symbol)
  | 0, _ => none
  | fuel + 1, symbols => do
      let (e, rest) ← parseLevel fuel 0 symbols
      if startsWith "if" rest then
        let (condition, rest) ← parseLevel fuel 0 (rest.drop 1)
        let (no, rest) ← parseTest fuel (← expect? "else" rest)
        pure (.choice condition e no, rest)
      else pure (e, rest)

/-- Read an expression whose operators are at least of a level. -/
def parseLevel : Nat → Nat → List Symbol → Option (Tree × List Symbol)
  | 0, _, _ => none
  | fuel + 1, level, symbols =>
      if levels.length ≤ level then parseOperand fuel symbols
      else if level = notLevel ∧ startsWith "not" symbols then do
        let (e, rest) ← parseLevel fuel level (symbols.drop 1)
        pure (.unary .negate e, rest)
      else do
        let (e, rest) ← parseLevel fuel (level + 1) symbols
        parseOperators fuel level true e rest

/-- Read further operators of a level after an operand; comparisons allow only one. -/
def parseOperators : Nat → Nat → Bool → Tree → List Symbol → Option (Tree × List Symbol)
  | 0, _, _, _, _ => none
  | fuel + 1, level, first, e, symbols =>
      let symbols := joinNotIn symbols
      match operator? level symbols with
      | none => some (e, symbols)
      | some (build, rest) =>
          if !first && level == comparisonLevel then none
          else do
            let (right, rest) ← parseLevel fuel (level + 1) rest
            parseOperators fuel level false (build e right) rest

/-- Read an operand with what follows it directly. -/
def parseOperand : Nat → List Symbol → Option (Tree × List Symbol)
  | 0, _ => none
  | fuel + 1, .literal v :: rest => parseSuffixes fuel (.literal v) rest
  | fuel + 1, .name n :: rest => parseSuffixes fuel (.name n) rest
  | fuel + 1, .mark m :: rest =>
      match sign? m with
      | some op => do
          let (e, rest) ← parseOperand fuel rest
          pure (.unary op e, rest)
      | none =>
          if m == bytes "(" then do
            let (items, comma, rest) ← parseItems fuel ")" rest
            match items, comma with
            | [e], false => parseSuffixes fuel e rest
            | items, _ => parseSuffixes fuel (.tuple items) rest
          else if m == bytes "[" then do
            let (items, _, rest) ← parseItems fuel "]" rest
            parseSuffixes fuel (.list items) rest
          else none
  | _ + 1, _ => none

/-- Read attributes, indices, slices and calls after an operand. -/
def parseSuffixes : Nat → Tree → List Symbol → Option (Tree × List Symbol)
  | 0, _, _ => none
  | fuel + 1, e, symbols =>
      if startsWith "." symbols then
        match symbols.drop 1 with
        | .name n :: rest => parseSuffixes fuel (.attribute e n) rest
        | _ => none
      else if startsWith "[" symbols then
        if startsWith ":" (symbols.drop 1) then do
          let (e, rest) ← parseSlice fuel e (.literal .nothing) (symbols.drop 1)
          parseSuffixes fuel e rest
        else do
          let (i, rest) ← parseExpression fuel (symbols.drop 1)
          if startsWith "]" rest then parseSuffixes fuel (.index e i) (rest.drop 1)
          else
            let (e, rest) ← parseSlice fuel e i rest
            parseSuffixes fuel e rest
      else if startsWith "(" symbols then do
        let (args, rest) ← parseArguments fuel {} (symbols.drop 1)
        parseSuffixes fuel (← args.call? e) rest
      else some (e, symbols)

/-- Read a slice from the colon after its first bound on. -/
def parseSlice : Nat → Tree → Tree → List Symbol → Option (Tree × List Symbol)
  | 0, _, _, _ => none
  | fuel + 1, e, lo, symbols => do
      let (hi, rest) ← parseBound fuel (← expect? ":" symbols)
      let (step, rest) ← if startsWith ":" rest then parseBound fuel (rest.drop 1)
        else some (.literal .nothing, rest)
      pure (.slice e lo hi step, ← expect? "]" rest)

/-- Read a bound of a slice, which may be missing. -/
def parseBound : Nat → List Symbol → Option (Tree × List Symbol)
  | 0, _ => none
  | fuel + 1, symbols =>
      if startsWith ":" symbols || startsWith "]" symbols then some (.literal .nothing, symbols)
      else parseTest fuel symbols

/-- Read arguments up to the closing bracket. -/
def parseArguments : Nat → Arguments → List Symbol → Option (Arguments × List Symbol)
  | 0, _, _ => none
  | fuel + 1, args, symbols =>
      if startsWith ")" symbols then some (args, symbols.drop 1)
      else do
        let (args, rest) ← if startsWith "*" symbols then do
            let (e, rest) ← parseTest fuel (symbols.drop 1)
            pure (← args.addSpread? e, rest)
          else
            match key? symbols with
            | some (key, rest) => do
                let (e, rest) ← parseTest fuel rest
                pure (← args.addNamed? key e, rest)
            | none => do
                let (e, rest) ← parseTest fuel symbols
                pure (← args.addPlain? e, rest)
        if startsWith ")" rest then pure (args, rest.drop 1)
        else parseArguments fuel args (← expect? "," rest)

/-- Read items up to a closing mark; the flag tells a comma after the last one. -/
def parseItems : Nat → String → List Symbol → Option (List Tree × Bool × List Symbol)
  | 0, _, _ => none
  | fuel + 1, close, symbols =>
      if startsWith close symbols then some ([], false, symbols.drop 1)
      else do
        let (e, rest) ← parseTest fuel symbols
        if startsWith close rest then pure ([e], false, rest.drop 1)
        else
          let (more, comma, rest) ← parseItems fuel close (← expect? "," rest)
          pure (e :: more, comma || more.isEmpty, rest)

/-- Read an expression, or several with commas between them as a tuple. -/
def parseExpression : Nat → List Symbol → Option (Tree × List Symbol)
  | 0, _ => none
  | fuel + 1, symbols => do
      let (e, rest) ← parseTest fuel symbols
      if startsWith "," rest then
        let (more, rest) ← parseMore fuel rest
        pure (.tuple (e :: more), rest)
      else pure (e, rest)

/-- Read further expressions, each after a comma. -/
def parseMore : Nat → List Symbol → Option (List Tree × List Symbol)
  | 0, _ => none
  | fuel + 1, symbols =>
      if startsWith "," symbols then do
        let (e, rest) ← parseTest fuel (symbols.drop 1)
        let (more, rest) ← parseMore fuel rest
        pure (e :: more, rest)
      else some ([], symbols)

end

end Tree

/-! ## Statements -/

/-- What a value is assigned to: a name, or as many targets as a sequence has items. -/
inductive Target where
  | name (n : Bytes)
  | items (ts : List Target)

mutual

/-- The target that an expression spells. -/
def Target.ofTree? : Tree → Option Target
  | .name n => some (.name n)
  | .list es | .tuple es => (Target.ofTrees? es).map .items
  | _ => none

/-- The targets that expressions spell. -/
def Target.ofTrees? : List Tree → Option (List Target)
  | [] => some []
  | e :: es => (Target.ofTree? e).bind fun t => (Target.ofTrees? es).map (t :: ·)

end

mutual

/-- The names that a target assigns to. -/
def Target.names : Target → List Bytes
  | .name n => [n]
  | .items ts => Target.namesAll ts

/-- The names that targets assign to. -/
def Target.namesAll : List Target → List Bytes
  | [] => []
  | t :: ts => Target.names t ++ Target.namesAll ts

end

/-- A statement: an assignment, or an expression alone. -/
inductive Statement where
  | assign (target : Target) (e : Tree)
  | perform (e : Tree)

namespace Statement

/-- The names that a statement uses. -/
def uses : Statement → List Bytes
  | .assign _ e | .perform e => e.names

/-- The names that a statement assigns to. -/
def assigns : Statement → List Bytes
  | .assign t _ => t.names
  | .perform _ => []

/-- Whether a line ends in front. -/
def atLineEnd : List Symbol → Bool
  | .lineEnd :: _ => true
  | [] => true
  | _ => false

/-- Read a statement; `pass` is none. -/
def parseOne (fuel : Nat) (symbols : List Symbol) : Option (List Statement × List Symbol) :=
  if Tree.startsWith "pass" symbols then some ([], symbols.drop 1)
  else do
    let (e, rest) ← Tree.parseExpression fuel symbols
    if Tree.startsWith "=" rest then
      let t ← Target.ofTree? e
      let (value, rest) ← Tree.parseExpression fuel (rest.drop 1)
      pure ([.assign t value], rest)
    else pure ([.perform e], rest)

/-- Read lines of statements with semicolons between them; one may stand at the end of a line. The
first fuel bounds the number of statements and lines, the second the depth of an expression. -/
def parseAll : Nat → Nat → List Symbol → Option (List Statement)
  | 0, _, _ => none
  | _, _, [] => some []
  | rounds + 1, fuel, .lineEnd :: rest => parseAll rounds fuel rest
  | rounds + 1, fuel, symbols => do
      let (statements, rest) ← parseOne fuel symbols
      if atLineEnd rest then
        let more ← parseAll rounds fuel rest
        pure (statements ++ more)
      else
        let rest ← Tree.expect? ";" rest
        let more ← parseAll rounds fuel rest
        pure (statements ++ more)

/-- Read a text as statements. -/
def parse? (text : Bytes) : Option (List Statement) :=
  (Symbol.scan? text).bind fun symbols =>
    parseAll (symbols.length + 1) (32 * (symbols.length + 2)) symbols

end Statement

end WordMachine.Assembly.Expression
