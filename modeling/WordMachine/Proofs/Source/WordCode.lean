import Mathlib
import WordMachine.Proofs.Source.Blocks

/-!
# `Proofs.Source.WordCode` — the code of a word does what the word means

Each way of turning a word into instructions has its own order of operands: some sequences pop the upper
value into the first register and some into the second, comparisons test the two values the other way
round, and stores and copies name their address last.

Contents:
* `Yields`, `Implements`: a block ends with the state that a word leaves, or fails as the word does;
* `implements_ordered`, `implements_swapped` and the other shapes of sequences;
* `implements_comparison`, `implements_negation`;
* `implements_snippet`, `implements_compared`: the words of the table; `implements_value`.
-/

namespace WordMachine.Source

/-- The stack is not deeper than it may be. -/
def State.Fits (e : Setting) (st : State) : Prop := 0 < e.depth → st.stack.length ≤ e.depth

section Contracts

variable (e : Setting) (returns : List UInt32) (place : Label → UInt64)

/-- A block takes a core to a state, or fails. -/
def Yields (code : List Line) (k : Core) : Except Fault State → Prop
  | .ok st => ∃ k', k'.state = st ∧ Runs e returns place code k k'
  | .error f => Fails e returns place code k f

/-- A block does what a word means. -/
def Implements (code : List Line) (w : Word) : Prop :=
  ∀ k : Core, k.state.Fits e → Yields e returns place code k (w.run e k.state)

end Contracts

variable {e : Setting} {returns : List UInt32} {place : Label → UInt64} {l : Line} {code code' : List Line}
  {k k' : Core} {r : Except Fault State} {f : Fault} {w : Word}

theorem Runs.yields_append (h : Runs e returns place code k k') (h' : Yields e returns place code' k' r) :
    Yields e returns place (code ++ code') k r := by
  cases r with
  | ok st =>
    obtain ⟨k'', hstate, hruns⟩ := h'
    exact ⟨k'', hstate, h.append hruns⟩
  | error f => exact h.fails h'

theorem Runs.yields (h : Runs e returns place [l] k k') (h' : Yields e returns place code k' r) :
    Yields e returns place (l :: code) k r :=
  h.yields_append h'

theorem Fails.yields (h : Fails e returns place [l] k f) : Yields e returns place (l :: code) k (.error f) :=
  h.append code

/-! ## Operands -/

theorem yields_push (args : List Argument) :
    Yields e returns place [.code .push args] k (e.push (k.reg (registerAt args 0)) k.state) := by
  unfold Setting.push
  split
  next hfull => exact fails_push args hfull
  next hroom => exact ⟨_, rfl, runs_push args hroom⟩

/-- Push a result where values were popped. -/
theorem yields_result (args : List Argument) {v : UInt64} (hv : k.reg (registerAt args 0) = v)
    (hroom : 0 < e.depth → k.state.stack.length < e.depth) :
    Yields e returns place [.code .push args] k (.ok ⟨v :: k.state.stack, k.state.byte⟩) := by
  subst hv
  refine ⟨_, rfl, runs_push args ?_⟩
  rintro ⟨hpos, hle⟩
  exact absurd (hroom hpos) (Nat.not_lt.mpr hle)

theorem yields_nil : Yields e returns place [] k (.ok k.state) := by
  refine ⟨k, rfl, fun ls before after _ _ s hs => ⟨s, .refl, ?_⟩⟩
  rw [List.append_nil]
  exact hs

theorem implements_one {x : List Argument} (hnone : ∀ byte, w.run e ⟨[], byte⟩ = .error .stackEmpty)
    (h : ∀ reg flags a rest byte, State.Fits e ⟨a :: rest, byte⟩ →
      Yields e returns place code ⟨Function.update reg (registerAt x 0) a, flags, ⟨rest, byte⟩⟩
        (w.run e ⟨a :: rest, byte⟩)) :
    Implements e returns place (.code .pop x :: code) w := by
  rintro ⟨reg, flags, ⟨stack, byte⟩⟩ hfits
  cases stack with
  | nil =>
    rw [hnone]
    exact (fails_pop x rfl).yields
  | cons a rest => exact (runs_pop x rfl).yields (h reg flags a rest byte hfits)

theorem implements_two {x y : List Argument} (hnone : ∀ byte, w.run e ⟨[], byte⟩ = .error .stackEmpty)
    (hone : ∀ b byte, w.run e ⟨[b], byte⟩ = .error .stackEmpty)
    (h : ∀ reg flags b a rest byte, State.Fits e ⟨b :: a :: rest, byte⟩ →
      Yields e returns place code
        ⟨Function.update (Function.update reg (registerAt x 0) b) (registerAt y 0) a, flags, ⟨rest, byte⟩⟩
        (w.run e ⟨b :: a :: rest, byte⟩)) :
    Implements e returns place (.code .pop x :: .code .pop y :: code) w := by
  refine implements_one hnone fun reg flags b rest byte hfits => ?_
  cases rest with
  | nil =>
    rw [hone]
    exact (fails_pop y rfl).yields
  | cons a rest => exact (runs_pop y rfl).yields (h reg flags b a rest byte hfits)

/-! ## Sequences -/

section Sequences

variable {op : Operation}

theorem implements_ordered {g : UInt64 → UInt64 → UInt64}
    (hop : ∀ (m : Machine) (dst src : Register) (imm : UInt64) (next : Int),
      m.perform op dst src imm next = (m.setReg dst (g (m.reg dst) (m.reg src))).goOn next) :
    Implements e returns place (Snippet.ordered op).lines (.arithmetic g) := by
  refine implements_two (fun _ => rfl) (fun _ _ => rfl) fun reg flags b a rest byte hfits => ?_
  refine (runs_set (g := fun x y _ => g x y) hop _).yields ?_
  exact yields_result _ rfl fun hpos => Nat.lt_of_succ_lt (hfits hpos)

theorem implements_swapped {g : UInt64 → UInt64 → UInt64}
    (hop : ∀ (m : Machine) (dst src : Register) (imm : UInt64) (next : Int),
      m.perform op dst src imm next = (m.setReg dst (g (m.reg dst) (m.reg src))).goOn next) :
    Implements e returns place (Snippet.swapped op).lines (.arithmetic fun a b => g b a) := by
  refine implements_two (fun _ => rfl) (fun _ _ => rfl) fun reg flags b a rest byte hfits => ?_
  refine (runs_set (g := fun x y _ => g x y) hop _).yields ?_
  exact yields_result _ rfl fun hpos => Nat.lt_of_succ_lt (hfits hpos)

theorem implements_quotient : Implements e returns place (Snippet.ordered .idiv).lines .quotient := by
  refine implements_two (fun _ => rfl) (fun _ _ => rfl) fun reg flags b a rest byte hfits => ?_
  show Yields _ _ _ _ _ (if b = 0 then .error .divideByZero else .ok ⟨a / b :: rest, byte⟩)
  by_cases hb : b = 0
  · rw [if_pos hb]
    exact (fails_quotient _ hb).yields
  · rw [if_neg hb]
    refine (runs_quotient _ hb).yields ?_
    exact yields_result _ rfl fun hpos => Nat.lt_of_succ_lt (hfits hpos)

theorem implements_unary {g : UInt64 → UInt64}
    (hop : ∀ (m : Machine) (dst src : Register) (imm : UInt64) (next : Int),
      m.perform op dst src imm next = (m.setReg dst (g (m.reg dst))).goOn next) :
    Implements e returns place (Snippet.unary op).lines (.convert g) := by
  refine implements_one (fun _ => rfl) fun reg flags a rest byte hfits => ?_
  refine (runs_set (g := fun x _ _ => g x) hop _).yields ?_
  exact yields_result _ rfl fun hpos => hfits hpos

theorem implements_fetch {size : Nat}
    (hop : ∀ (m : Machine) (dst src : Register) (imm : UInt64) (next : Int),
      m.perform op dst src imm next = Machine.andThen (m.loadInto dst (m.reg src) size) next) :
    Implements e returns place (Snippet.fetch op).lines (.load size) := by
  refine implements_one (fun _ => rfl) fun reg flags a rest byte hfits => ?_
  show Yields _ _ _ _ _ ((e.load ⟨a :: rest, byte⟩ size a).bind fun v => .ok ⟨v :: rest, byte⟩)
  cases hload : e.load ⟨a :: rest, byte⟩ size a with
  | error f => exact (fails_load hop _ hload).yields
  | ok v =>
    refine (runs_load hop _ hload).yields ?_
    exact yields_result _ rfl fun hpos => hfits hpos

theorem implements_store {size : Nat}
    (hop : ∀ (m : Machine) (dst src : Register) (imm : UInt64) (next : Int),
      m.perform op dst src imm next = Machine.andThen (m.storeAt (m.reg src) size (m.reg dst)) next) :
    Implements e returns place (Snippet.store op).lines (.store size) := by
  refine implements_two (fun _ => rfl) (fun _ _ => rfl) fun reg flags v address rest byte _ => ?_
  show Yields _ _ _ _ _ ((e.write byte address (Setting.lowBytes size v)).bind fun byte => .ok ⟨rest, byte⟩)
  cases hwrite : e.write byte address (Setting.lowBytes size v) with
  | error f => exact (fails_store hop _ hwrite).yields
  | ok byte' => exact (runs_store hop _ hwrite).yields yields_nil

theorem implements_copy : Implements e returns place (Snippet.store .bufc).lines .copy := by
  refine implements_two (fun _ => rfl) (fun _ _ => rfl) fun reg flags source target rest byte _ => ?_
  show Yields _ _ _ _ _ ((e.string source).bind fun text =>
    (e.write byte target (text ++ [0])).bind fun byte => .ok ⟨rest, byte⟩)
  cases htext : e.string source with
  | error f => exact (fails_copy _ (Or.inl htext)).yields
  | ok text =>
    show Yields _ _ _ _ _ ((e.write byte target (text ++ [0])).bind fun byte => .ok ⟨rest, byte⟩)
    cases hwrite : e.write byte target (text ++ [0]) with
    | error f => exact (fails_copy _ (Or.inr ⟨text, htext, hwrite⟩)).yields
    | ok byte' => exact (runs_copy _ htext hwrite).yields yields_nil

theorem implements_dup :
    Implements e returns place (Snippet.mk 1 [(.pop, [Snippet.r0]), (.push, [Snippet.r0]), (.push, [Snippet.r0])]).lines
      .dup := by
  refine implements_one (fun _ => rfl) fun reg flags a rest byte hfits => ?_
  refine (runs_push _ ?_).yields (yields_push _)
  rintro ⟨hpos, hle⟩
  exact absurd (hfits hpos) (Nat.not_le.mpr (Nat.lt_succ_of_le hle))

theorem implements_swap :
    Implements e returns place (Snippet.mk 2 [(.pop, [Snippet.r0]), (.pop, [Snippet.r1]), (.push, [Snippet.r0]),
      (.push, [Snippet.r1])]).lines .swap := by
  refine implements_two (fun _ => rfl) (fun _ _ => rfl) fun reg flags b a rest byte hfits => ?_
  refine (runs_push _ ?_).yields (yields_result _ rfl fun hpos => hfits hpos)
  rintro ⟨hpos, hle⟩
  exact absurd (Nat.lt_of_succ_lt (hfits hpos)) (Nat.not_lt.mpr hle)

theorem implements_drop : Implements e returns place (Snippet.mk 1 [(.pop, [Snippet.r0])]).lines .drop :=
  implements_one (fun _ => rfl) fun _ _ _ _ _ _ => yields_nil

theorem implements_rot :
    Implements e returns place (Snippet.mk 3 [(.pop, [Snippet.r0]), (.pop, [Snippet.r1]), (.pop, [Snippet.r2]),
      (.push, [Snippet.r1]), (.push, [Snippet.r0]), (.push, [Snippet.r2])]).lines .rot := by
  refine implements_two (fun _ => rfl) (fun _ _ => rfl) fun reg flags c b rest byte hfits => ?_
  cases rest with
  | nil => exact (fails_pop _ rfl).yields
  | cons a rest =>
    have hlt (hpos : 0 < e.depth) : rest.length + 2 < e.depth := hfits hpos
    refine (runs_pop _ rfl).yields ((runs_push _ ?_).yields ((runs_push _ ?_).yields (yields_result _ rfl hlt)))
    · rintro ⟨hpos, hle⟩
      exact absurd (Nat.lt_of_succ_lt (Nat.lt_of_succ_lt (hlt hpos))) (Nat.not_lt.mpr hle)
    · rintro ⟨hpos, hle⟩
      exact absurd (Nat.lt_of_succ_lt (hlt hpos)) (Nat.not_lt.mpr hle)

end Sequences

/-! ## Comparisons -/

/-- Doubles compared the other way round. -/
theorem compare?_swap (a b : UInt64) : Double.compare? b a = (Double.compare? a b).map Ordering.swap := by
  rw [Double.compare?, Double.compare?, Bool.or_comm]
  split
  · rfl
  · rw [Option.map_some, Std.OrientedOrd.eq_swap]

section Comparisons

variable {branch : Operation} (taken : UInt8 → Bool)
  (hbranch : ∀ (m : Machine) (dst src : Register) (imm : UInt64) (next : Int),
    m.perform branch dst src imm next = m.goOn (if taken m.flags then imm.toInt64.toInt else next))

include hbranch in
theorem implements_comparison {compare : Operation} (g : UInt64 → UInt64 → Option Ordering)
    {holds : UInt64 → UInt64 → Bool}
    (hcompare : ∀ (m : Machine) (dst src : Register) (imm : UInt64) (next : Int),
      m.perform compare dst src imm next =
        { m with flags := Flag.compared m.flags (g (m.reg dst) (m.reg src)) }.goOn next)
    (hholds : ∀ flags a b, taken (Flag.compared flags (g b a)) = holds a b) (index : Nat) :
    Implements e returns place (Comparison.lines ⟨compare, branch⟩ index) (.relation holds) := by
  refine implements_two (fun _ => rfl) (fun _ _ => rfl) fun reg flags b a rest byte hfits => ?_
  refine (runs_compare hcompare _).yields ⟨_, ?_, runs_choice hbranch index ?_⟩
  · show State.mk (Word.truth (taken (Flag.compared flags (g b a))) :: rest) byte =
      ⟨Word.truth (holds a b) :: rest, byte⟩
    rw [hholds]
  · rintro ⟨hpos, hle⟩
    exact absurd (Nat.lt_of_succ_lt (hfits hpos)) (Nat.not_lt.mpr hle)

include hbranch in
theorem implements_sameText {same : Bool}
    (hsame : ∀ flags (equal : Bool), taken (Flag.compared flags (if equal then some .eq else none)) = (equal == same))
    (index : Nat) : Implements e returns place (Comparison.lines ⟨.lseq, branch⟩ index) (.sameText same) := by
  refine implements_two (fun _ => rfl) (fun _ _ => rfl) fun reg flags b a rest byte hfits => ?_
  show Yields _ _ _ _ _ ((e.string b).bind fun upper => (e.string a).bind fun lower =>
    .ok ⟨Word.truth (decide (lower = upper) == same) :: rest, byte⟩)
  cases hupper : e.string b with
  | error f => exact (fails_sameText _ (Or.inl hupper)).yields
  | ok upper =>
    show Yields _ _ _ _ _ ((e.string a).bind fun lower =>
      .ok ⟨Word.truth (decide (lower = upper) == same) :: rest, byte⟩)
    cases hlower : e.string a with
    | error f => exact (fails_sameText _ (Or.inr ⟨upper, hupper, hlower⟩)).yields
    | ok lower =>
      refine (runs_sameText _ hupper hlower).yields ⟨_, ?_, runs_choice hbranch index ?_⟩
      · have hequal : (if upper = lower then some Ordering.eq else none) =
            if decide (lower = upper) then some .eq else none := by
          by_cases h : lower = upper
          · subst h
            simp
          · simp [h, Ne.symm h]
        show State.mk (Word.truth (taken (Flag.compared flags (if upper = lower then some .eq else none))) :: rest)
          byte = ⟨Word.truth (decide (lower = upper) == same) :: rest, byte⟩
        rw [hequal, hsame]
      · rintro ⟨hpos, hle⟩
        exact absurd (Nat.lt_of_succ_lt (hfits hpos)) (Nat.not_lt.mpr hle)

end Comparisons

section Relations

variable {compare : Operation} {g : UInt64 → UInt64 → Option Ordering} {holds : UInt64 → UInt64 → Bool}
  (hcompare : ∀ (m : Machine) (dst src : Register) (imm : UInt64) (next : Int),
    m.perform compare dst src imm next =
      { m with flags := Flag.compared m.flags (g (m.reg dst) (m.reg src)) }.goOn next)

include hcompare

theorem implements_less (hholds : ∀ a b, (g b a == some .lt) = holds a b) (index : Nat) :
    Implements e returns place (Comparison.lines ⟨compare, .blt⟩ index) (.relation holds) := by
  refine implements_comparison (Flag.isSet · Flag.less) (fun _ _ _ _ _ => rfl) g hcompare (fun flags a b => ?_) index
  rw [Flag.less_compared, hholds]

theorem implements_greater (hholds : ∀ a b, (g b a == some .gt) = holds a b) (index : Nat) :
    Implements e returns place (Comparison.lines ⟨compare, .bgt⟩ index) (.relation holds) := by
  refine implements_comparison (Flag.isSet · Flag.greater) (fun _ _ _ _ _ => rfl) g hcompare
    (fun flags a b => ?_) index
  rw [Flag.greater_compared, hholds]

theorem implements_equal (hholds : ∀ a b, (g b a == some .eq) = holds a b) (index : Nat) :
    Implements e returns place (Comparison.lines ⟨compare, .beq⟩ index) (.relation holds) := by
  refine implements_comparison (Flag.isSet · Flag.equal) (fun _ _ _ _ _ => rfl) g hcompare (fun flags a b => ?_) index
  rw [Flag.equal_compared, hholds]

theorem implements_unequal (hholds : ∀ a b, (g b a != some .eq) = holds a b) (index : Nat) :
    Implements e returns place (Comparison.lines ⟨compare, .bne⟩ index) (.relation holds) := by
  refine implements_comparison (!Flag.isSet · Flag.equal) (fun _ _ _ _ _ => rfl) g hcompare (fun flags a b => ?_) index
  rw [Flag.equal_compared, ← hholds]
  rfl

end Relations

theorem lt_compare (a b : UInt64) : (some (compare b a) == some .lt) = decide (a > b) := by
  rw [Bool.eq_iff_iff, beq_iff_eq, Option.some.injEq, Std.compare_eq_lt, decide_eq_true_eq]

theorem gt_compare (a b : UInt64) : (some (compare b a) == some .gt) = decide (a < b) := by
  rw [Bool.eq_iff_iff, beq_iff_eq, Option.some.injEq, Std.compare_eq_gt, decide_eq_true_eq]

theorem eq_compare (a b : UInt64) : (some (compare b a) == some .eq) = (a == b) := by
  rw [Bool.eq_iff_iff, beq_iff_eq, beq_iff_eq, Option.some.injEq, Std.compare_eq_iff_eq, eq_comm]

/-- The words that comparisons stand for. -/
theorem implements_compared {text : Bytes} {c : Comparison} (hw : Word.ofText? text = some w)
    (hc : Comparison.ofWord? text = some c) (index : Nat) : Implements e returns place (c.lines index) w := by
  obtain ⟨entry, hentry, rfl⟩ := Option.map_eq_some_iff.mp hc
  have hmem := List.mem_of_find?_eq_some hentry
  obtain rfl : entry.1 = text := by simpa using List.find?_some hentry
  simp only [Comparison.table, List.mem_cons, List.not_mem_nil, or_false] at hmem
  -- four words compare integers, four compare doubles and two compare strings
  rcases hmem with rfl | rfl | rfl | rfl | rfl | rfl | rfl | rfl | rfl | rfl
  all_goals cases hw
  · exact implements_less (g := fun x y => some (compare x y)) (fun _ _ _ _ _ => rfl) lt_compare index
  · exact implements_greater (g := fun x y => some (compare x y)) (fun _ _ _ _ _ => rfl) gt_compare index
  · exact implements_equal (g := fun x y => some (compare x y)) (fun _ _ _ _ _ => rfl) eq_compare index
  · refine implements_unequal (g := fun x y => some (compare x y)) (fun _ _ _ _ _ => rfl) (fun a b => ?_) index
    exact congrArg (!·) (eq_compare a b)
  · refine implements_less (g := Double.compare?) (fun _ _ _ _ _ => rfl) (fun a b => ?_) index
    rw [compare?_swap]
    rcases Double.compare? a b with _ | _ | _ | _ <;> rfl
  · refine implements_greater (g := Double.compare?) (fun _ _ _ _ _ => rfl) (fun a b => ?_) index
    rw [compare?_swap]
    rcases Double.compare? a b with _ | _ | _ | _ <;> rfl
  · refine implements_equal (g := Double.compare?) (fun _ _ _ _ _ => rfl) (fun a b => ?_) index
    rw [compare?_swap]
    rcases Double.compare? a b with _ | _ | _ | _ <;> rfl
  · refine implements_unequal (g := Double.compare?) (fun _ _ _ _ _ => rfl) (fun a b => ?_) index
    rw [compare?_swap]
    rcases Double.compare? a b with _ | _ | _ | _ <;> rfl
  · refine implements_sameText (Flag.isSet · Flag.equal) (fun _ _ _ _ _ => rfl) (fun flags equal => ?_) index
    rw [Flag.equal_compared]
    cases equal <;> rfl
  · refine implements_sameText (!Flag.isSet · Flag.equal) (fun _ _ _ _ _ => rfl) (fun flags equal => ?_) index
    rw [Flag.equal_compared]
    cases equal <;> rfl

/-- The code of `not` compares with a zero above the operand. -/
theorem implements_negation (index : Nat) :
    Implements e returns place (Generator.zeroLines ++ Comparison.equal.lines index) .negation := by
  have hequal : Implements e returns place (Comparison.equal.lines index) (.relation fun a b => a == b) :=
    implements_equal (g := fun x y => some (compare x y)) (fun _ _ _ _ _ => rfl) eq_compare index
  rintro ⟨reg, flags, ⟨stack, byte⟩⟩ hfits
  refine (runs_set (g := fun _ _ imm => imm) (fun _ _ _ _ _ => rfl) _).yields ?_
  by_cases hfull : 0 < e.depth ∧ e.depth ≤ stack.length
  · have hrun : Word.run e .negation ⟨stack, byte⟩ = .error .stackFull := by
      cases stack with
      | nil => exact absurd hfull.2 (Nat.not_le.mpr hfull.1)
      | cons a rest =>
        show (e.push 0 ⟨a :: rest, byte⟩).bind _ = _
        rw [Setting.push, if_pos hfull]
        rfl
    rw [hrun]
    exact (fails_push _ hfull).yields
  · have hrun : Word.run e .negation ⟨stack, byte⟩ =
        Word.run e (.relation fun a b => a == b) ⟨0 :: stack, byte⟩ := by
      cases stack with
      | nil => rfl
      | cons a rest =>
        show (e.push 0 ⟨a :: rest, byte⟩).bind _ = _
        rw [Setting.push, if_neg hfull]
        rfl
    rw [hrun]
    refine (runs_push _ hfull).yields (hequal _ fun hpos => ?_)
    exact Nat.lt_of_not_le fun hle => hfull ⟨hpos, hle⟩

/-- The words that sequences stand for. -/
theorem implements_snippet {text : Bytes} {snippet : Snippet} (hw : Word.ofText? text = some w)
    (hs : Snippet.ofWord? text = some snippet) : Implements e returns place snippet.lines w := by
  obtain ⟨entry, hentry, rfl⟩ := Option.map_eq_some_iff.mp hs
  have hmem := List.mem_of_find?_eq_some hentry
  obtain rfl : entry.1 = text := by simpa using List.find?_some hentry
  have hadd : (fun a b : UInt64 => a + b) = fun a b => b + a := funext₂ UInt64.add_comm
  have hmul : (fun a b : UInt64 => a * b) = fun a b => b * a := funext₂ UInt64.mul_comm
  simp only [Snippet.table, List.mem_cons, List.not_mem_nil, or_false] at hmem
  rcases hmem with rfl | rfl | rfl | rfl | rfl | rfl | rfl | rfl | rfl | rfl | rfl | rfl | rfl | rfl | rfl | rfl |
    rfl | rfl | rfl | rfl | rfl | rfl | rfl | rfl | rfl | rfl | rfl | rfl | rfl
  -- Of all sequences, only host calls and `return` are no words of the table.
  all_goals cases hw
  · show Implements e returns place _ (.arithmetic fun a b => a + b)
    rw [hadd]
    exact implements_swapped (g := fun x y => x + y) fun _ _ _ _ _ => rfl
  · exact implements_ordered fun _ _ _ _ _ => rfl
  · show Implements e returns place _ (.arithmetic fun a b => a * b)
    rw [hmul]
    exact implements_swapped (g := fun x y => x * y) fun _ _ _ _ _ => rfl
  · exact implements_quotient
  · exact implements_swapped (g := Double.lift (· + ·)) fun _ _ _ _ _ => rfl
  · exact implements_ordered fun _ _ _ _ _ => rfl
  · exact implements_swapped (g := Double.lift (· * ·)) fun _ _ _ _ _ => rfl
  · exact implements_ordered fun _ _ _ _ _ => rfl
  · exact implements_ordered fun _ _ _ _ _ => rfl
  · exact implements_ordered fun _ _ _ _ _ => rfl
  · exact implements_ordered fun _ _ _ _ _ => rfl
  · exact implements_ordered fun _ _ _ _ _ => rfl
  · exact implements_unary fun _ _ _ _ _ => rfl
  · exact implements_unary fun _ _ _ _ _ => rfl
  · exact implements_dup
  · exact implements_swap
  · exact implements_drop
  · exact implements_rot
  · exact implements_fetch fun _ _ _ _ _ => rfl
  · exact implements_fetch fun _ _ _ _ _ => rfl
  · exact implements_fetch fun _ _ _ _ _ => rfl
  · exact implements_fetch fun _ _ _ _ _ => rfl
  · exact implements_store fun _ _ _ _ _ => rfl
  · exact implements_store fun _ _ _ _ _ => rfl
  · exact implements_store fun _ _ _ _ _ => rfl
  · exact implements_store fun _ _ _ _ _ => rfl
  · exact implements_copy

/-- Loading a register with a value and pushing it. -/
theorem implements_value {op : Operation} {arg : Argument} {v : UInt64}
    (hop : ∀ (m : Machine) (dst src : Register) (imm : UInt64) (next : Int),
      m.perform op dst src imm next = (m.setReg dst imm).goOn next)
    (hv : immediate place [.register 0, arg] = v) :
    Implements e returns place [.code op [.register 0, arg], .code .push [.register 0]] (.value v) := by
  subst hv
  intro k _
  exact (runs_set (g := fun _ _ imm => imm) hop _).yields (yields_push _)

end WordMachine.Source
