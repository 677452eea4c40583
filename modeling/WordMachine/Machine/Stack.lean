import WordMachine.Fault

/-!
# `Machine.Stack` — bounded stacks

A stack is the list of its values, latest first, with their number and the depth it may reach.

Contents: `Stack`, `push`, `pop`, `peek?`, `reset`, `toList` (bottom to top).
-/

namespace WordMachine

/-- A stack of values, latest first. A limit of zero means no limit. -/
structure Stack (α : Type) where
  items : List α
  depth : Nat
  limit : Nat
  depth_eq : depth = items.length

namespace Stack

variable {α : Type}

/-- The stack without values. -/
def empty (limit : Nat) : Stack α := ⟨[], 0, limit, rfl⟩

/-- Whether the limit is reached. -/
def isFull (s : Stack α) : Bool := 0 < s.limit && s.limit ≤ s.depth

/-- Whether there is no value. -/
def isEmpty (s : Stack α) : Bool := s.depth == 0

/-- Put a value on top. -/
def push (s : Stack α) (value : α) : Except Fault (Stack α) :=
  if s.isFull then .error .stackFull
  else .ok ⟨value :: s.items, s.depth + 1, s.limit, by simp [s.depth_eq]⟩

/-- Take the top value. -/
def pop (s : Stack α) : Except Fault (α × Stack α) :=
  match h : s.items with
  | [] => .error .stackEmpty
  | value :: rest => .ok (value, ⟨rest, s.depth - 1, s.limit, by simp [s.depth_eq, h]⟩)

/-- The top value. -/
def peek? (s : Stack α) : Option α := s.items.head?

/-- Drop all values. -/
def reset (s : Stack α) : Stack α := empty s.limit

/-- The values, bottom to top. -/
def toList (s : Stack α) : List α := s.items.reverse

/-- Push a value several times, up to the first failure. -/
def pushMany (s : Stack α) (value : α) : Nat → Stack α × Option Fault
  | 0 => (s, none)
  | n + 1 =>
      match s.push value with
      | .ok s => s.pushMany value n
      | .error fault => (s, some fault)

end Stack

end WordMachine
