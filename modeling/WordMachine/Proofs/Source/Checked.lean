import Mathlib
import WordMachine.Proofs.Source.Height
import WordMachine.Proofs.Source.Targets

/-!
# `Proofs.Source.Checked` — values that the depth check has seen

As long as the generator knows the depth of the stack, it refuses a word for which there are too few values. A
`pop` in the code of a word of `main` that passes this check finds a value in every run, unless the value was
pushed before a `while`: the generator still takes the depth for known in the condition of a loop, but the
condition is reached again with whatever the body has left.

Contents:
* `enough`, `popsFirst`: code that finds the values it pops, and pops before it branches;
* `Level`: code without calls whose branches stay at one height; `Level.append`;
* `Generator.Counted`, `counted_of_statement`: the code of a token while the depth is known;
* `level_of_writes`: the code of `main` between places where the depth is known;
* `Generator.Compares`, `Level.guarded`: level code is a region that is entered at its start only;
* `CheckedPop`, `CheckedPop.Supplied`, `CheckedPop.guarded`, `SafeAt`, `checked_pop_safe`.
-/

namespace WordMachine.Source

open Generator (Writes)

/-! ## Code of a token -/

/-- Whether a line pops an operand. -/
def Line.isPop : Line → Bool
  | .code op _ => op == .pop
  | _ => false

/-- Whether a line calls neither the host nor a method. -/
def Line.isQuiet : Line → Bool
  | .code op _ => !op.isHost && op != .jsr
  | _ => true

/-- Whether each `pop` finds an operand, given the number of operands before the lines. -/
def enough : Nat → List Line → Bool
  | _, [] => true
  | n, l :: ls => (!l.isPop || decide (0 < n)) && enough (l.adjust n) ls

/-- Whether there are only quiet lines without labels before the last `pop`. -/
def popsFirst : List Line → Bool
  | [] => true
  | l :: ls => (ls.all (!·.isPop) || l.isQuiet && l.label?.isNone) && popsFirst ls

/-- More operands are enough as well, and they stay. -/
theorem enough_add {n : Nat} {ls : List Line} (h : enough n ls = true) (k : Nat) :
    enough (n + k) ls = true ∧ height (n + k) ls = height n ls + k := by
  induction ls generalizing n with
  | nil => exact ⟨rfl, rfl⟩
  | cons l ls ih =>
    simp only [enough, Bool.and_eq_true, Bool.or_eq_true, Bool.not_eq_true', decide_eq_true_eq] at h
    obtain ⟨hfirst, hrest⟩ := h
    have hadjust : l.adjust (n + k) = l.adjust n + k := by
      cases l with
      | code op args =>
        cases op with
        | push => exact Nat.add_right_comm n k 1
        | pop =>
          have hpos : 0 < n := by simpa [Line.isPop] using hfirst
          show n + k - 1 = n - 1 + k
          omega
        | _ => rfl
      | _ => rfl
    obtain ⟨hmore, hheight⟩ := ih hrest
    rw [← hadjust] at hmore hheight
    refine ⟨?_, hheight⟩
    simp only [enough, hmore, Bool.and_true, Bool.or_eq_true, Bool.not_eq_true', decide_eq_true_eq]
    exact hfirst.imp_right fun hpos => by omega

/-- Lines that pop nothing find all they pop. -/
theorem enough_of_popless (n : Nat) {ls : List Line} (h : (ls.all fun l => !l.isPop) = true) :
    enough n ls = true ∧ popsFirst ls = true := by
  induction ls generalizing n with
  | nil => exact ⟨rfl, rfl⟩
  | cons l ls ih =>
    rw [List.all_cons, Bool.and_eq_true] at h
    obtain ⟨henough, hpopsFirst⟩ := ih (l.adjust n) h.2
    simp [enough, popsFirst, h.1, h.2, henough, hpopsFirst]

/-- A `pop` in code with enough operands stands at a place where there is one. -/
theorem height_pos_of_enough {n : Nat} {done rest : List Line} {args : List Argument}
    (h : enough n (done ++ .code .pop args :: rest) = true) : 0 < height n done := by
  induction done generalizing n with
  | nil =>
    simp only [List.nil_append, enough, Line.isPop, Bool.and_eq_true, Bool.or_eq_true, decide_eq_true_eq] at h
    simpa using h.1
  | cons l done ih =>
    simp only [List.cons_append, enough, Bool.and_eq_true] at h
    exact ih h.2

theorem quiet_of_popsFirst {done rest : List Line} {args : List Argument}
    (h : popsFirst (done ++ .code .pop args :: rest) = true) :
    ∀ l ∈ done, l.isQuiet = true ∧ l.label? = none := by
  induction done with
  | nil => exact List.forall_mem_nil _
  | cons l done ih =>
    simp only [List.cons_append, popsFirst, Bool.and_eq_true, Bool.or_eq_true] at h
    refine List.forall_mem_cons.mpr ⟨?_, ih h.2⟩
    rcases h.1 with hnone | hquiet
    · simp [Line.isPop] at hnone
    · exact ⟨hquiet.1, Option.isNone_iff_eq_none.mp hquiet.2⟩

/-! ## Level code -/

/-- The labels of comparisons with a number from a range. -/
def Label.Between (lo hi : Nat) (l : Label) : Prop := ∃ k, lo ≤ k ∧ k < hi ∧ (l = .holds k ∨ l = .join k)

theorem Label.Between.isLocal {lo hi : Nat} {l : Label} (h : l.Between lo hi) : l.isLocal = true := by
  obtain ⟨k, -, -, rfl | rfl⟩ := h
  · rfl
  · rfl

theorem Label.Between.not_between {lo mid hi : Nat} {l : Label} (h : l.Between lo mid) : ¬l.Between mid hi := by
  rintro ⟨k, hle, -, hk⟩
  obtain ⟨k', -, hlt, hk'⟩ := h
  have heq : k' = k := by
    rcases hk with rfl | rfl
    · rcases hk' with heq | heq
      · exact (Label.holds.inj heq).symm
      · cases heq
    · rcases hk' with heq | heq
      · cases heq
      · exact (Label.join.inj heq).symm
  omega

theorem Label.Between.mono {lo hi lo' hi' : Nat} {l : Label} (h : l.Between lo hi) (hlo : lo' ≤ lo)
    (hhi : hi ≤ hi') : l.Between lo' hi' := by
  obtain ⟨k, hle, hlt, hk⟩ := h
  exact ⟨k, by omega, by omega, hk⟩

theorem mem_labels {ls xs ys : List Line} {line : Line} {l : Label} (h : ls = xs ++ line :: ys)
    (hl : line.label? = some l) : l ∈ labels ls :=
  List.mem_filterMap.mpr ⟨line, by simp [h], hl⟩

theorem mem_localTargets {ls xs ys : List Line} {op : Operation} {args : List Argument} {l : Label}
    (h : ls = xs ++ .code op args :: ys) (hl : .label l ∈ args) (hlocal : l.isLocal = true) :
    l ∈ localTargets ls := by
  have hmem : .code op args ∈ ls := by simp [h]
  exact List.mem_filter.mpr ⟨List.mem_flatMap.mpr ⟨_, hmem, List.mem_filterMap.mpr ⟨_, hl, rfl⟩⟩, hlocal⟩

/-- Code that takes the number of operands from `n` to `n'`. It calls neither the host nor a method, its labels
are those of comparisons numbered from `lo` to `hi`, and a branch within it goes to a place of its own height,
however many operands there are before the code. -/
structure Level (lo hi n n' : Nat) (code : List Line) : Prop where
  le : lo ≤ hi
  height_eq : height n code = n'
  quiet : ∀ l ∈ code, l.isQuiet = true
  labels : ∀ l ∈ labels code, l.Between lo hi
  targets : ∀ l ∈ localTargets code, l.Between lo hi
  level {us vs xs ys : List Line} {op : Operation} {args : List Argument} {line : Line} {l : Label} :
    code = us ++ .code op args :: vs → .label l ∈ args → code = xs ++ line :: ys → line.label? = some l →
      ∀ n, height n us = height n xs

namespace Level

variable {lo mid hi n k n' : Nat} {code first second : List Line}

/-- Code without labels is level. -/
theorem of_straight (hlabels : Source.labels code = []) (htargets : localTargets code = [])
    (hquiet : ∀ l ∈ code, l.isQuiet = true) : Level lo lo n (height n code) code where
  le := Nat.le_refl lo
  height_eq := rfl
  quiet := hquiet
  labels := by
    rw [hlabels]
    exact List.forall_mem_nil _
  targets := by
    rw [htargets]
    exact List.forall_mem_nil _
  level := by
    intro us vs xs ys op args line l _ _ hline hl _
    have hmem := mem_labels hline hl
    rw [hlabels] at hmem
    cases hmem

/-- Level code after level code is level: no branch of one part goes to a label of the other. -/
theorem append (h : Level lo mid n k first) (h' : Level mid hi k n' second) :
    Level lo hi n n' (first ++ second) where
  le := Nat.le_trans h.le h'.le
  height_eq := by rw [height_append, h.height_eq, h'.height_eq]
  quiet := List.forall_mem_append.mpr ⟨h.quiet, h'.quiet⟩
  labels := by
    rw [labels_append]
    exact List.forall_mem_append.mpr ⟨fun l hl => (h.labels l hl).mono (Nat.le_refl lo) h'.le,
      fun l hl => (h'.labels l hl).mono h.le (Nat.le_refl hi)⟩
  targets := by
    rw [localTargets_append]
    exact List.forall_mem_append.mpr ⟨fun l hl => (h.targets l hl).mono (Nat.le_refl lo) h'.le,
      fun l hl => (h'.targets l hl).mono h.le (Nat.le_refl hi)⟩
  level := by
    intro us vs xs ys op args line l hcode harg hline hl n
    rcases split_of_append_eq hcode with ⟨vs', hfirst, -⟩ | ⟨us', rfl, hsecond⟩
    · rcases split_of_append_eq hline with ⟨ys', hfirst', -⟩ | ⟨xs', rfl, hsecond'⟩
      · exact h.level hfirst harg hfirst' hl n
      · have hbetween := h'.labels l (mem_labels hsecond' hl)
        have htarget := h.targets l (mem_localTargets hfirst harg hbetween.isLocal)
        exact absurd hbetween htarget.not_between
    · rcases split_of_append_eq hline with ⟨ys', hfirst', -⟩ | ⟨xs', rfl, hsecond'⟩
      · have hbetween := h.labels l (mem_labels hfirst' hl)
        have htarget := h'.targets l (mem_localTargets hsecond harg hbetween.isLocal)
        exact absurd htarget hbetween.not_between
      · rw [height_append, height_append]
        exact h'.level hsecond harg hsecond' hl _

/-- Lines that change nothing. -/
theorem height_of_flat {ls : List Line} (h : ∀ l ∈ ls, ∀ n, l.adjust n = n) (n : Nat) : height n ls = n := by
  induction ls with
  | nil => rfl
  | cons l ls ih =>
    obtain ⟨hfirst, hrest⟩ := List.forall_mem_cons.mp h
    rw [height_cons, hfirst, ih hrest]

/-- Branches and labels among lines that change nothing are at one height. -/
theorem level_of_flat {before flat after us vs xs ys : List Line} {op : Operation} {args : List Argument}
    {line : Line} {l : Label} (hbefore : ∀ k ∈ before, k.targets = [] ∧ k.label? = none)
    (hflat : ∀ k ∈ flat, ∀ n, k.adjust n = n) (hafter : ∀ k ∈ after, k.targets = [] ∧ k.label? = none)
    (hcode : before ++ (flat ++ after) = us ++ .code op args :: vs) (harg : .label l ∈ args)
    (hline : before ++ (flat ++ after) = xs ++ line :: ys) (hl : line.label? = some l) :
    height n us = height n xs := by
  have htargets : l ∈ (Line.code op args).targets := List.mem_filterMap.mpr ⟨_, harg, rfl⟩
  have hinside {done rest : List Line} {k : Line} (hsplit : before ++ (flat ++ after) = done ++ k :: rest)
      (hk : ¬(k.targets = [] ∧ k.label? = none)) : height n done = height n before := by
    rcases split_of_append_eq hsplit with ⟨mid, rfl, -⟩ | ⟨mid, rfl, hrest⟩
    · exact absurd (hbefore k (by simp)) hk
    · rcases split_of_append_eq hrest with ⟨mid', rfl, -⟩ | ⟨mid', rfl, rfl⟩
      · rw [height_append]
        exact height_of_flat (fun k hk => hflat k (List.mem_append_left _ hk)) _
      · exact absurd (hafter k (by simp)) hk
  rw [hinside hcode, hinside hline]
  · rintro ⟨-, hnone⟩
    rw [hl] at hnone
    cases hnone
  · rintro ⟨hnone, -⟩
    rw [hnone] at htargets
    cases htargets

end Level

/-! ## Tokens at a known depth -/

/-- The values that a sequence checks for are those it pops; only `syscall` calls the host, and last. -/
theorem Snippet.counted_of_ofWord? {w : Bytes} {s : Snippet} (h : ofWord? w = some s) :
    enough s.args s.lines = true ∧ popsFirst s.lines = true ∧
      (w ≠ bytes "syscall" → (∀ l ∈ s.lines, l.isQuiet = true) ∧
        height s.args s.lines = s.args + s.pushes - s.pops) := by
  have hall : table.all (fun e => enough e.2.args e.2.lines && popsFirst e.2.lines && (e.1 == bytes "syscall" ||
      (e.2.lines.all Line.isQuiet && height e.2.args e.2.lines == e.2.args + e.2.pushes - e.2.pops))) = true := by
    decide
  obtain ⟨e, he, rfl⟩ := Option.map_eq_some_iff.mp h
  obtain rfl : e.1 = w := by simpa using List.find?_some he
  have hone := List.all_eq_true.mp hall e (List.mem_of_find?_eq_some he)
  simp only [Bool.and_eq_true, Bool.or_eq_true, beq_iff_eq, List.all_eq_true] at hone
  exact ⟨hone.1.1, hone.1.2, fun hne => hone.2.resolve_left hne⟩

/-- The comparison, its branches and its labels: all of its lines but those that pop and push. -/
def Comparison.middle (c : Comparison) (k : Nat) : List Line :=
  [.code c.compare [.register 0, .register 1], .code c.branch [.label (.holds k)],
   .code .mov [.register 0, .truth false], .code .jmp [.label (.join k)], .label (.holds k),
   .code .mov [.register 0, .truth true], .label (.join k)]

theorem Comparison.lines_eq (c : Comparison) (k : Nat) : c.lines k =
    [Line.code .pop [.register 0], .code .pop [.register 1]] ++ (c.middle k ++ [Line.code .push [.register 0]]) := rfl

namespace Comparison

variable {c : Comparison}

theorem middle_flat (hc : c.isPlain = true) (k : Nat) :
    ∀ l ∈ c.middle k, (∀ n, l.adjust n = n) ∧ l.isQuiet = true ∧ l.isPop = false := by
  simp only [isPlain, Bool.and_eq_true, beq_iff_eq] at hc
  obtain ⟨hadjust, hhost, hjsr, hpop⟩ := Operation.quiet_of_registers hc.1
  obtain ⟨hhost', hjsr', hpop'⟩ := Operation.quiet_of_isBranch hc.2
  intro l hl
  simp only [middle, List.mem_cons, List.not_mem_nil, or_false] at hl
  rcases hl with rfl | rfl | rfl | rfl | rfl | rfl | rfl
  · exact ⟨hadjust, by simp [Line.isQuiet, hhost, hjsr], by simp [Line.isPop, hpop]⟩
  · exact ⟨Operation.adjust_of_isBranch hc.2, by simp [Line.isQuiet, hhost', hjsr'], by simp [Line.isPop, hpop']⟩
  · exact ⟨fun _ => rfl, rfl, rfl⟩
  · exact ⟨fun _ => rfl, rfl, rfl⟩
  · exact ⟨fun _ => rfl, rfl, rfl⟩
  · exact ⟨fun _ => rfl, rfl, rfl⟩
  · exact ⟨fun _ => rfl, rfl, rfl⟩

/-- The lines of a comparison find their two operands, and leave one. -/
theorem counted (hc : c.isPlain = true) (k : Nat) : enough 2 (c.lines k) = true ∧ popsFirst (c.lines k) = true ∧
    (∀ n, height (n + 2) (c.lines k) = n + 1) ∧ ∀ l ∈ c.lines k, l.isQuiet = true := by
  have hmiddle := middle_flat hc k
  have hpops : ((c.middle k ++ [Line.code .push [.register 0]]).all fun l => !l.isPop) = true := by
    refine List.all_eq_true.mpr (List.forall_mem_append.mpr ⟨fun l hl => ?_, ?_⟩)
    · simp [(hmiddle l hl).2.2]
    · simp [Line.isPop]
  rw [lines_eq]
  refine ⟨?_, ?_, fun n => ?_, ?_⟩
  · exact (enough_of_popless 0 hpops).1
  · simp [popsFirst, Line.isQuiet, Line.label?, Operation.isHost, (enough_of_popless 0 hpops).2]
  · rw [height_append, height_append, Level.height_of_flat fun l hl => (hmiddle l hl).1]
    rfl
  · refine List.forall_mem_append.mpr ⟨?_, List.forall_mem_append.mpr ⟨fun l hl => (hmiddle l hl).2.1, ?_⟩⟩
    · simp [Line.isQuiet, Operation.isHost]
    · simp [Line.isQuiet, Operation.isHost]

/-- A comparison is level, also after lines without labels. -/
theorem level (hc : c.isPlain = true) (k n : Nat) {before : List Line} (hlabels : labels before = [])
    (htargets : before.flatMap Line.targets = []) (hquiet : ∀ l ∈ before, l.isQuiet = true) :
    Level k (k + 1) n (height n (before ++ c.lines k)) (before ++ c.lines k) where
  le := Nat.le_succ k
  height_eq := rfl
  quiet := List.forall_mem_append.mpr ⟨hquiet, (counted hc k).2.2.2⟩
  labels := by
    rw [labels_append, hlabels, (Generator.comparison_lines hc {} 0 k).2.1]
    simp [Label.Between]
  targets := by
    rw [localTargets_append, (Generator.comparison_lines hc {} 0 k).2.2, localTargets, htargets]
    simp [Label.Between]
  level := by
    intro us vs xs ys op args line l hcode harg hline hl n
    have hbefore : ∀ l ∈ before ++ [Line.code .pop [.register 0], .code .pop [.register 1]],
        l.targets = [] ∧ l.label? = none := by
      refine List.forall_mem_append.mpr ⟨fun l hl => ⟨List.flatMap_eq_nil_iff.mp htargets l hl, ?_⟩, ?_⟩
      · exact List.filterMap_eq_nil_iff.mp hlabels l hl
      · simp [Line.targets, Line.label?, Argument.label?]
    rw [lines_eq, ← List.append_assoc] at hcode hline
    refine Level.level_of_flat hbefore (fun l hl => (middle_flat hc k l hl).1) ?_ hcode harg hline hl
    simp [Line.targets, Line.label?, Argument.label?]

end Comparison

namespace Generator

/-- What a token adds to the code while the depth is known to be `n`. If the depth is known after it as well, no
block has been opened, and its code is level unless it starts a loop. -/
structure Counted (t : Token) (g g' : Generator) (n : Nat) (code : List Line) : Prop where
  lines : g'.lines = code.reverse ++ g.lines
  enough : enough n code = true
  popsFirst : popsFirst code = true
  unopened : (∀ b ∈ g.blocks, b.opened = false) → g'.depth ≠ none → ∀ b ∈ g'.blocks, b.opened = false
  level {n' : Nat} : (Sentence.statement t).role ≠ .start true → (∀ b ∈ g.blocks, b.opened = false) →
    g'.depth = some n' → Level g.comparisons g'.comparisons n n' code

variable {d : Declarations} {t : Token} {g g' mid : Generator} {n : Nat}

/-- A check that is passed at a known depth finds its values, and the depth stays known. -/
theorem Passes.of_known {args results : Nat} {depth : Option Nat} (h : Passes args results g.depth depth)
    (hn : g.depth = some n) : args ≤ n ∧ depth = some (n + results - args) := by
  rw [hn] at h
  cases h with
  | known enough => exact ⟨enough, rfl⟩

theorem Passes.of_unknown {args results : Nat} {depth : Option Nat} (h : Passes args results g.depth depth)
    (hn : g.depth = none) : depth = none := by
  rw [hn] at h
  cases h
  rfl

theorem counted_push (hn : g.depth = some n) {op : Operation} (hop : op = .mov ∨ op = .adr) {arg : Argument}
    (hlocal : arg.label?.all (fun l => !l.isLocal) = true) (literals : List Bytes) :
    Counted t g { g.push op arg with literals := literals } n
      [.code op [.register 0, arg], .code .push [.register 0]] := by
  have hpops : (([Line.code op [.register 0, arg], .code .push [.register 0]] : List Line).all
      fun l => !l.isPop) = true := by
    rcases hop with rfl | rfl <;> rfl
  obtain ⟨henough, hpopsFirst⟩ := enough_of_popless n hpops
  refine ⟨rfl, henough, hpopsFirst, fun hblocks _ => hblocks, fun _ _ hdepth => ?_⟩
  have htargets : localTargets [.code op [.register 0, arg], .code .push [.register 0]] = [] := by
    cases arg with
    | label l => simpa [localTargets, Line.targets, Argument.label?] using hlocal
    | _ => rfl
  have hquiet : ∀ l ∈ [Line.code op [.register 0, arg], .code .push [.register 0]], l.isQuiet = true := by
    rcases hop with rfl | rfl <;> simp [Line.isQuiet, Operation.isHost]
  have hlevel := @Level.of_straight g.comparisons n _ rfl htargets hquiet
  have hheight : height n [.code op [.register 0, arg], .code .push [.register 0]] = n + 1 := by
    rcases hop with rfl | rfl <;> rfl
  have hdepth' : g.depth.map (· + 1) = some _ := hdepth
  rw [hn] at hdepth'
  rw [hheight] at hlevel
  exact Option.some.inj hdepth' ▸ hlevel

theorem counted_snippet {s : Snippet} (hn : g.depth = some n) (hs : Snippet.ofWord? t.text = some s)
    (h : g.snippet s (t.text == bytes "syscall") = .ok g') : Counted t g g' n s.lines := by
  obtain ⟨henough, hpopsFirst, hlevel⟩ := Snippet.counted_of_ofWord? hs
  obtain ⟨depth, hpasses, rfl⟩ := snippet_eq h
  obtain ⟨hle, rfl⟩ := hpasses.of_known hn
  obtain ⟨hmore, hheight⟩ := enough_add henough (n - s.args)
  rw [Nat.add_sub_cancel' hle] at hmore hheight
  refine ⟨rfl, hmore, hpopsFirst, fun hblocks _ => hblocks, fun {n'} _ _ hdepth => ?_⟩
  -- what the host leaves is not known
  have hsyscall : t.text ≠ bytes "syscall" := by
    intro htext
    rw [htext] at hdepth
    cases hdepth
  have hn' : some (n + (s.args + s.pushes - s.pops) - s.args) = some n' := by
    rwa [beq_eq_false_iff_ne.mpr hsyscall] at hdepth
  obtain ⟨hquiet, heffect⟩ := hlevel hsyscall
  obtain ⟨-, hlabels, htargets⟩ := Snippet.lines_plain (Snippet.isPlain_of_ofWord? hs) {} 0
  have hstraight := @Level.of_straight g.comparisons n _ hlabels htargets hquiet
  have heq : n + (s.args + s.pushes - s.pops) - s.args = s.args + s.pushes - s.pops + (n - s.args) := by omega
  rw [hheight, heffect, ← heq, Option.some.inj hn'] at hstraight
  exact hstraight

theorem counted_comparison {c : Comparison} (hc : c.isPlain = true) (hn : g.depth = some n)
    (h : g.comparison c = .ok g') : Counted t g g' n (c.lines g.comparisons) := by
  obtain ⟨henough, hpopsFirst, hheight, -⟩ := Comparison.counted hc g.comparisons
  obtain ⟨depth, hpasses, rfl⟩ := comparison_eq h
  obtain ⟨hle, rfl⟩ := hpasses.of_known hn
  have hmore := (enough_add henough (n - 2)).1
  rw [Nat.add_sub_cancel' hle] at hmore
  refine ⟨rfl, hmore, hpopsFirst, fun hblocks _ => hblocks, fun {n'} _ _ hdepth => ?_⟩
  have hlevel := Comparison.level hc g.comparisons n labels_nil rfl (List.forall_mem_nil _)
  have hn' : n - 2 + 1 = n' := by
    have hsome : some (n + 1 - 2) = some n' := hdepth
    have hvalue := Option.some.inj hsome
    omega
  rw [List.nil_append, ← Nat.sub_add_cancel hle, hheight, Nat.sub_add_cancel hle, hn'] at hlevel
  exact hlevel

theorem counted_negation (hn : g.depth = some n) (h : g.negation = .ok g') :
    Counted t g g' n (zeroLines ++ Comparison.equal.lines g.comparisons) := by
  obtain ⟨depth, hpasses, rfl⟩ := negation_eq h
  obtain ⟨hle, rfl⟩ := hpasses.of_known hn
  have henough : Source.enough 1 (zeroLines ++ Comparison.equal.lines g.comparisons) = true := rfl
  obtain ⟨hmore, hheight⟩ := enough_add henough (n - 1)
  rw [Nat.add_sub_cancel' hle] at hmore hheight
  refine ⟨rfl, hmore, rfl, fun hblocks _ => hblocks, fun _ _ hdepth => ?_⟩
  have hlevel := Comparison.level (show Comparison.equal.isPlain = true from rfl) g.comparisons n
    (show labels zeroLines = [] from rfl) rfl (by simp [zeroLines, Line.isQuiet, Operation.isHost])
  have hone : height 1 (zeroLines ++ Comparison.equal.lines g.comparisons) = 1 := rfl
  have hn' : some (n + 1 - 1) = some _ := hdepth
  rw [hheight, hone, Nat.add_sub_cancel' hle] at hlevel
  exact Option.some.inj hn' ▸ hlevel

theorem counted_openBlock (hn : g.depth = some n) (h : g.openBlock = .ok g') :
    ∃ code, Counted t g g' n code := by
  obtain ⟨b, outer, depth, -, hpasses, rfl⟩ := openBlock_eq h
  obtain ⟨hle, -⟩ := hpasses.of_known hn
  have henough : Source.enough 1 (openLines b.index) = true := rfl
  have hmore := (enough_add henough (n - 1)).1
  rw [Nat.add_sub_cancel' hle] at hmore
  exact ⟨openLines b.index, rfl, hmore, rfl, fun _ hdepth => absurd rfl hdepth, fun _ _ hdepth => by cases hdepth⟩

theorem counted_close (hn : g.depth = some n) (h : g.close = .ok g') : ∃ code, Counted t g g' n code := by
  rcases close_eq h with ⟨hblocks, rfl⟩ | ⟨b, outer, hblocks, hopened, rfl⟩
  · refine ⟨[.code .ret []], rfl, rfl, rfl, fun hunopened _ => hunopened, fun _ _ hdepth => ?_⟩
    have hlevel := @Level.of_straight g.comparisons n [.code .ret []] rfl rfl (by simp [Line.isQuiet, Operation.isHost])
    have hdepth' : g.depth = some _ := hdepth
    exact Option.some.inj (hn.symm.trans hdepth') ▸ hlevel
  · have hpops : ((closeLines b).all fun l => !l.isPop) = true := by
      unfold closeLines
      cases b.loop <;> rfl
    obtain ⟨henough, hpopsFirst⟩ := enough_of_popless n hpops
    -- a block is not opened while the depth is known
    have hfalse : ¬∀ b ∈ g.blocks, b.opened = false := by
      intro hunopened
      have hunopened := hunopened b (by simp [hblocks])
      rw [hopened] at hunopened
      cases hunopened
    exact ⟨closeLines b, rfl, henough, hpopsFirst, fun hunopened => absurd hunopened hfalse,
      fun _ hunopened => absurd hunopened hfalse⟩

theorem counted_startBlock (hn : g.depth = some n) (loop : Bool)
    (hrole : (Sentence.statement t).role = .start loop) : ∃ code, Counted t g (g.startBlock loop) n code := by
  have hunopened (hblocks : ∀ b ∈ g.blocks, b.opened = false) :
      ∀ b ∈ (g.startBlock loop).blocks, b.opened = false :=
    List.forall_mem_cons.mpr ⟨rfl, hblocks⟩
  cases loop with
  | true =>
    exact ⟨[.label (.loop g.loops)], rfl, rfl, rfl, fun hblocks _ => hunopened hblocks, fun hne => absurd hrole hne⟩
  | false =>
    refine ⟨[], rfl, rfl, rfl, fun hblocks _ => hunopened hblocks, fun _ _ hdepth => ?_⟩
    have hlevel := @Level.of_straight g.comparisons n [] rfl rfl (List.forall_mem_nil _)
    have hdepth' : g.depth = some _ := hdepth
    exact Option.some.inj (hn.symm.trans hdepth') ▸ hlevel

theorem counted_defined (hn : g.depth = some n) (h : g.defined d t.text = .ok g') :
    ∃ code, Counted t g g' n code := by
  rcases defined_eq h with ⟨op, arg, hop, hlocal, rfl⟩ | ⟨-, rfl⟩
  · exact ⟨_, counted_push hn hop hlocal g.literals⟩
  · exact ⟨[.code .jsr [.label (.method t.text)]], rfl, rfl, rfl, fun hblocks _ => hblocks,
      fun _ _ hdepth => by cases hdepth⟩

theorem counted_word (hk : t.kind = .word) (hn : g.depth = some n) (h : g.word d t.text = .ok g') :
    ∃ code, Counted t g g' n code := by
  cases handles_of_word h with
  | snippet entry step => exact ⟨_, counted_snippet hn entry step⟩
  | comparison entry step => exact ⟨_, counted_comparison (Comparison.isPlain_of_ofWord? entry) hn step⟩
  | negation step => exact ⟨_, counted_negation hn step⟩
  | starts loop role step =>
    subst step
    exact counted_startBlock hn loop (by simpa [Sentence.role, hk] using role)
  | opens _ step => exact counted_openBlock hn step
  | closes _ step => exact counted_close hn step
  | defined step => exact counted_defined hn step

/-- Every token that is accepted while the depth is known finds the values that its code pops. -/
theorem counted_of_statement (ht : t.Sound) (hn : g.depth = some n) (h : g.statement d t = .ok g') :
    ∃ code, Counted t g g' n code := by
  rcases statement_cases ht h with ⟨-, op, arg, literals, hop, hlocal, rfl⟩ | ⟨hk, hword⟩
  · exact ⟨_, counted_push hn hop hlocal literals⟩
  · exact counted_word hk hn hword

/-! ## The code of `main` -/

theorem depth_of_word {w : Bytes} (hn : g.depth = none) (h : g.word d w = .ok g') : g'.depth = none := by
  cases handles_of_word h with
  | snippet _ step =>
    obtain ⟨depth, hpasses, rfl⟩ := snippet_eq step
    obtain rfl := hpasses.of_unknown hn
    exact ite_self none
  | comparison _ step =>
    obtain ⟨depth, hpasses, rfl⟩ := comparison_eq step
    exact hpasses.of_unknown hn
  | negation step =>
    obtain ⟨depth, hpasses, rfl⟩ := negation_eq step
    exact hpasses.of_unknown hn
  | starts loop _ step =>
    subst step
    cases loop <;> exact hn
  | opens _ step =>
    obtain ⟨b, outer, depth, -, -, rfl⟩ := openBlock_eq step
    rfl
  | closes _ step =>
    rcases close_eq step with ⟨-, rfl⟩ | ⟨_, _, -, -, rfl⟩
    · exact hn
    · exact hn
  | defined step =>
    rcases defined_eq step with ⟨op, arg, -, -, rfl⟩ | ⟨-, rfl⟩
    · exact congrArg (Option.map (· + 1)) hn
    · rfl

/-- A depth that is not known stays so until the next method. -/
theorem Writes.depth_eq_none {ss : List Sentence} (h : Writes d g ss g') (hheads : ∀ s ∈ ss, s.role ≠ .head)
    (hn : g.depth = none) : g'.depth = none := by
  induction h with
  | nil => exact hn
  | method => exact absurd rfl (hheads _ List.mem_cons_self)
  | definition _ ih => exact ih (List.forall_mem_cons.mp hheads).2 hn
  | @statement g next g' t ss sound inside step _ ih =>
    refine ih (List.forall_mem_cons.mp hheads).2 ?_
    rcases statement_cases sound step with ⟨-, op, arg, literals, -, -, rfl⟩ | ⟨-, hword⟩
    · exact congrArg (Option.map (· + 1)) hn
    · exact depth_of_word hn hword

/-- Between two places of a method where the depth is known no block is opened, and the code is level if no loop
starts there. -/
theorem level_of_writes {ss : List Sentence} {m : Nat} (h : Writes d g ss g') (hheads : ∀ s ∈ ss, s.role ≠ .head)
    (hblocks : ∀ b ∈ g.blocks, b.opened = false) (hm : g.depth = some m) (hn : g'.depth = some n) :
    (∀ b ∈ g'.blocks, b.opened = false) ∧ ∃ code : List Line, g'.lines = code.reverse ++ g.lines ∧
      ((∀ s ∈ ss, s.role ≠ .start true) → Level g.comparisons g'.comparisons m n code) := by
  induction h generalizing m with
  | @nil g =>
    obtain rfl : m = n := Option.some.inj (hm.symm.trans hn)
    exact ⟨hblocks, [], rfl, fun _ => @Level.of_straight g.comparisons m [] rfl rfl (List.forall_mem_nil _)⟩
  | method => exact absurd rfl (hheads _ List.mem_cons_self)
  | definition _ ih =>
    obtain ⟨hunopened, code, hlines, hlevel⟩ := ih (List.forall_mem_cons.mp hheads).2 hblocks hm hn
    exact ⟨hunopened, code, hlines, fun hloops => hlevel (List.forall_mem_cons.mp hloops).2⟩
  | @statement g next g' t ss sound inside step rest ih =>
    replace hheads : ∀ s ∈ ss, s.role ≠ .head := (List.forall_mem_cons.mp hheads).2
    cases hnext : next.depth with
    | none =>
      rw [rest.depth_eq_none hheads hnext] at hn
      cases hn
    | some k =>
      obtain ⟨first, hcounted⟩ := counted_of_statement sound hm step
      have hstill := hcounted.unopened hblocks (by simp [hnext])
      obtain ⟨hunopened, code, hlines, hrest⟩ := ih hheads hstill hnext hn
      refine ⟨hunopened, first ++ code, ?_, fun hloops => ?_⟩
      · rw [hlines, hcounted.lines]
        simp
      · have hlevel := hcounted.level (hloops _ List.mem_cons_self) hblocks hnext
        exact hlevel.append (hrest (List.forall_mem_cons.mp hloops).2)

/-- Code in which only labels of its own comparisons are named, among those of all comparisons. -/
structure Compares (g g' : Generator) (code : List Line) : Prop where
  lines : g'.lines = code.reverse ++ g.lines
  le : g.comparisons ≤ g'.comparisons
  targets : ∀ l ∈ localTargets code, ∀ lo hi, l.Between lo hi → l.Between g.comparisons g'.comparisons

theorem Compares.append {first second : List Line} (h : Compares g mid first) (h' : Compares mid g' second) :
    Compares g g' (first ++ second) where
  lines := by
    rw [h'.lines, h.lines]
    simp
  le := Nat.le_trans h.le h'.le
  targets := by
    rw [localTargets_append]
    refine List.forall_mem_append.mpr ⟨fun l hl lo hi hbetween => ?_, fun l hl lo hi hbetween => ?_⟩
    · exact (h.targets l hl lo hi hbetween).mono (Nat.le_refl _) h'.le
    · exact (h'.targets l hl lo hi hbetween).mono h.le (Nat.le_refl _)

theorem Grows.compares (h : Grows d t g g') : ∃ code, Compares g g' code := by
  -- the labels of blocks are no labels of comparisons
  have hother {code : List Line} {l : Label} (e : Emits d t g g' code) (hcount : g'.comparisons = g.comparisons)
      (htargets : ∀ k ∈ localTargets code, k = l) (hl : ∀ lo hi, ¬l.Between lo hi) : Compares g g' code := by
    refine ⟨e.lines, Nat.le_of_eq hcount.symm, fun k hk lo hi hbetween => ?_⟩
    rw [htargets k hk] at hbetween
    exact absurd hbetween (hl lo hi)
  have hloop (i lo hi : Nat) : ¬(Label.loop i).Between lo hi := by simp [Label.Between]
  have hend (i lo hi : Nat) : ¬(Label.blockEnd i).Between lo hi := by simp [Label.Between]
  cases h with
  | straight code e _ htargets _ _ hcount => exact ⟨code, hother e hcount (by simp [htargets]) (hloop 0)⟩
  | compared code e _ htargets _ _ hcount =>
    refine ⟨code, e.lines, by omega, ?_⟩
    rw [htargets, hcount]
    simp [Label.Between]
  | started _ code e _ htargets _ _ hcount => exact ⟨code, hother e hcount (by simp [htargets]) (hloop 0)⟩
  | opened b _ code e _ htargets _ _ _ hcount => exact ⟨code, hother e hcount (by simp [htargets]) (hend b.index)⟩
  | closed b _ code e _ htargets _ _ _ hcount =>
    refine ⟨code, hother e hcount ?_ (hloop b.index)⟩
    rw [htargets]
    split
    · simp
    · simp
  | finished e _ _ _ hcount => exact ⟨_, hother e hcount (by simp [localTargets, Line.targets]) (hloop 0)⟩

theorem Writes.compares {ss : List Sentence} (hd : d.Sound) (h : Writes d g ss g') : ∃ code, Compares g g' code := by
  induction h with
  | nil => exact ⟨[], rfl, Nat.le_refl _, List.forall_mem_nil _⟩
  | @method g _ name _ _ _ _ _ ih =>
    obtain ⟨code, hcode⟩ := ih
    have hhead : Compares g (g.startMethod name.text) [.blank, .label (.method name.text)] :=
      ⟨rfl, Nat.le_refl _, List.forall_mem_nil _⟩
    exact ⟨_, hhead.append hcode⟩
  | definition _ ih => exact ih
  | statement sound _ step _ ih =>
    obtain ⟨first, hfirst⟩ := (grows_of_statement hd sound step).compares
    obtain ⟨code, hcode⟩ := ih
    exact ⟨first ++ code, hfirst.append hcode⟩

end Generator

/-- Level code, and what comes before a `pop`, make a region if the rest names no label of the code. -/
theorem Level.guarded {lo hi m n : Nat} {before code done after : List Line} {args : List Argument}
    (h : Level lo hi m n code) (hdone : ∀ l ∈ done, l.isQuiet = true ∧ l.label? = none)
    (hbefore : ∀ l ∈ localTargets before, ¬l.Between lo hi)
    (hafter : ∀ l ∈ localTargets (done ++ .code .pop args :: after), ¬l.Between lo hi) :
    Guarded (before ++ (code ++ (done ++ .code .pop args :: after))) before
      (code ++ (done ++ [Line.code .pop args])) where
  lines := ⟨after, by simp⟩
  plain := by
    intro us vs op args' hregion
    have hquiet : ∀ l ∈ code ++ (done ++ [Line.code .pop args]), l.isQuiet = true := by
      refine List.forall_mem_append.mpr ⟨h.quiet, List.forall_mem_append.mpr ⟨fun l hl => (hdone l hl).1, ?_⟩⟩
      simp [Line.isQuiet, Operation.isHost]
    have hline := hquiet (.code op args') (by simp [hregion])
    simpa [Line.isQuiet] using hline
  targets := by
    intro xs' ys' xs ys op args' line l hlines harg hline hl
    rcases split_of_append_eq hline with ⟨mid, hcode, -⟩ | ⟨mid, -, hlast⟩
    · have hbetween := h.labels l (mem_labels hcode hl)
      rcases split_of_append_eq hlines with ⟨mid', hfirst, -⟩ | ⟨us, rfl, hrest⟩
      · exact absurd hbetween (hbefore l (mem_localTargets hfirst harg hbetween.isLocal))
      · rcases split_of_append_eq hrest with ⟨vs, hsame, -⟩ | ⟨vs, -, hsecond⟩
        · refine ⟨us, vs ++ (done ++ [Line.code .pop args]), ?_, rfl, h.level hsame harg hcode hl 0⟩
          rw [hsame]
          simp
        · exact absurd hbetween (hafter l (mem_localTargets hsecond harg hbetween.isLocal))
    · -- no label stands behind the level code
      have hnone : ∀ l ∈ done ++ [Line.code .pop args], l.label? = none :=
        List.forall_mem_append.mpr ⟨fun l hl => (hdone l hl).2, by simp [Line.label?]⟩
      rw [hnone line (by simp [hlast])] at hl
      cases hl

/-! ## Checked words -/

/-- A `pop` in the code of a token of `main` at which the depth of the stack is known. -/
structure CheckedPop (d : Declarations) (ss : List Sentence) where
  outer : List Sentence
  name : Token
  brace : Token
  body : List Sentence
  token : Token
  after : List Sentence
  /-- The lines of the token before the `pop`. -/
  done : List Line
  args : List Argument
  rest : List Line
  text : ss = outer ++ .method name brace :: (body ++ .statement token :: after)
  main : name.text = bytes "main"
  body_role : ∀ s ∈ body, s.role ≠ .head
  known : ((outer ++ .method name brace :: body).foldl (Generator.read d) {}).depth ≠ none
  code : listing d (outer ++ .method name brace :: (body ++ [.statement token])) =
    listing d (outer ++ .method name brace :: body) ++ (done ++ .code .pop args :: rest)

/-- The place of the `pop` in the image. -/
def CheckedPop.place {d : Declarations} {ss : List Sentence} (q : CheckedPop d ss) : Nat :=
  offset d (q.outer ++ .method q.name q.brace :: q.body) + span q.done

/-- No run of an image finds the stack empty at a place; `changes` tells whether the host may change in it. -/
def SafeAt (changes : Prop) (image : Image) (place : Nat) : Prop :=
  ∀ (m s : Machine), (m.load image).Reaches changes s → s.pc = place → ∀ t, s.tick.2 = .trapped t →
    t.fault ≠ .stackEmpty

theorem localTargets_trailer (literals : List Bytes) (strings : List (Bytes × Bytes)) :
    localTargets (trailer literals strings) = [] := by
  refine List.filter_eq_nil_iff.mpr fun l hl => ?_
  obtain ⟨line, hline, htarget⟩ := List.mem_flatMap.mp hl
  cases trailing_of_mem hline with
  | blank | literal | constant | finish | halt => cases htarget
  | main =>
    obtain rfl : l = .method (bytes "main") := by simpa [Line.targets, Argument.label?] using htarget
    exact Bool.false_ne_true

namespace CheckedPop

variable {d : Declarations} {ss first rest : List Sentence} {code : List Line} {g : Generator}

/-- Of the operands that a part of `main` without loops has pushed, right before the token, there is one left at
the `pop`. -/
structure Supplied (q : CheckedPop d ss) (first rest : List Sentence) (code : List Line) : Prop where
  body : q.body = first ++ rest
  loops : ∀ s ∈ rest, s.role ≠ .start true
  lines : listing d (q.outer ++ .method q.name q.brace :: q.body) =
    listing d (q.outer ++ .method q.name q.brace :: first) ++ code
  height : 0 < height 0 (code ++ q.done)

/-- The generator before a part of `main`, after it, which is before the token, and after the whole text. The depth
is known at the token, so it is known before. -/
theorem writes (hd : d.Sound) (hw : Writes d {} ss g) (q : CheckedPop d ss) (hbody : q.body = first ++ rest) :
    ∃ mid known m n, Writes d {} (q.outer ++ .method q.name q.brace :: first) mid ∧ Writes d mid rest known ∧
      Writes d known (.statement q.token :: q.after) g ∧ mid.depth = some m ∧ known.depth = some n ∧
      (∀ b ∈ mid.blocks, b.opened = false) ∧ (first = [] → m = 0) := by
  rw [q.text, hbody, List.append_assoc] at hw
  obtain ⟨start, houter, hmain⟩ := Writes.append_inv hw
  have hheads := q.body_role
  rw [hbody] at hheads
  obtain ⟨hheads, hheads'⟩ := List.forall_mem_append.mp hheads
  cases hmain with
  | method outside brace_eq hinside =>
    obtain ⟨mid, hfirst, hbehind⟩ := Writes.append_inv hinside
    obtain ⟨known, hrest, htoken⟩ := Writes.append_inv hbehind
    have hmid := houter.append (.method outside brace_eq hfirst)
    obtain ⟨n, hn⟩ : ∃ n, known.depth = some n := by
      have hknown := q.known
      rw [hbody, ← List.cons_append, ← List.append_assoc, (hmid.append hrest).foldl_read] at hknown
      exact Option.ne_none_iff_exists'.mp hknown
    -- a depth that is forgotten stays so until the next method
    obtain ⟨m, hm⟩ : ∃ m, mid.depth = some m := by
      refine Option.ne_none_iff_exists'.mp fun hnone => ?_
      rw [hrest.depth_eq_none hheads' hnone] at hn
      cases hn
    have hzero : (start.startMethod q.name.text).depth = some 0 := if_pos q.main
    -- no block is open where a method starts
    have hunopened : ∀ b ∈ (start.startMethod q.name.text).blocks, b.opened = false := by
      have hnone : start.blocks = [] := houter.blocks_eq_nil hd outside
      show ∀ b ∈ start.blocks, b.opened = false
      rw [hnone]
      exact List.forall_mem_nil _
    have hblocks := (Generator.level_of_writes hfirst hheads hunopened hzero hm).1
    refine ⟨mid, known, m, n, hmid, hrest, htoken, hm, hn, hblocks, ?_⟩
    rintro rfl
    cases hfirst
    exact Option.some.inj (hm.symm.trans hzero)

/-- The code of the token finds its operands, and what follows names no label of an earlier comparison. -/
theorem own_code {known : Generator} {n : Nat} (hd : d.Sound) (q : CheckedPop d ss)
    (hupTo : Writes d {} (q.outer ++ .method q.name q.brace :: q.body) known)
    (htoken : Writes d known (.statement q.token :: q.after) g) (hn : known.depth = some n) :
    enough n (q.done ++ .code .pop q.args :: q.rest) = true ∧
      popsFirst (q.done ++ .code .pop q.args :: q.rest) = true ∧
      ∃ more, Generator.Compares known g (q.done ++ .code .pop q.args :: more) := by
  obtain ⟨behind, hbehind⟩ := htoken.compares hd
  obtain ⟨next, hone, hafter⟩ := htoken.cons_inv
  have hnext := hupTo.append hone
  cases hone with
  | statement sound _ step nil =>
    cases nil
    obtain ⟨own, hcounted⟩ := Generator.counted_of_statement sound hn step
    obtain rfl : own = q.done ++ .code .pop q.args :: q.rest := by
      have hown := q.code
      rw [← List.cons_append, ← List.append_assoc, hnext.listing_eq, hupTo.listing_eq, hcounted.lines] at hown
      simpa using hown
    obtain ⟨more, hmore, -⟩ := hafter.emits hd
    refine ⟨hcounted.enough, hcounted.popsFirst, q.rest ++ more, ?_⟩
    obtain rfl : behind = q.done ++ .code .pop q.args :: (q.rest ++ more) := by
      have hsame := hbehind.lines.symm.trans hmore
      rw [hcounted.lines, ← List.append_assoc, ← List.reverse_append] at hsame
      simpa using List.reverse_injective (List.append_cancel_right hsame)
    exact hbehind

/-- Without a loop before the token, the check tells that there is an operand. -/
theorem supplied_of_loopless (hd : d.Sound) (hw : Writes d {} ss g) (q : CheckedPop d ss)
    (hloops : ∀ s ∈ q.body, s.role ≠ .start true) : ∃ code, q.Supplied [] q.body code := by
  obtain ⟨mid, known, m, n, hmid, hrest, htoken, hm, hn, hblocks, hzero⟩ := q.writes hd hw (List.nil_append _).symm
  obtain rfl := hzero rfl
  have hupTo := hmid.append hrest
  rw [List.append_assoc] at hupTo
  obtain ⟨henough, -⟩ := q.own_code hd hupTo htoken hn
  obtain ⟨-, code, hcode, hlevel⟩ := Generator.level_of_writes hrest q.body_role hblocks hm hn
  refine ⟨code, (List.nil_append _).symm, hloops, ?_, ?_⟩
  · have hlisting : listing d (q.outer ++ .method q.name q.brace :: q.body) = _ := hupTo.listing_eq
    rw [hlisting, hmid.listing_eq, hcode]
    simp
  · rw [height_append, (hlevel hloops).height_eq]
    exact height_pos_of_enough henough

/-- The code that has pushed the operand and the lines up to the `pop` are a region of the program. -/
theorem guarded (hd : d.Sound) (hw : Writes d {} ss g) (q : CheckedPop d ss) (h : q.Supplied first rest code)
    {tail : List Line} (htail : localTargets tail = []) :
    Guarded (header ++ g.lines.reverse ++ tail) (listing d (q.outer ++ .method q.name q.brace :: first))
      (code ++ (q.done ++ [Line.code .pop q.args])) := by
  obtain ⟨mid, known, m, n, hmid, hrest, htoken, hm, hn, hblocks, -⟩ := q.writes hd hw h.body
  have hupTo := hmid.append hrest
  rw [List.append_assoc, List.cons_append, ← h.body] at hupTo
  obtain ⟨-, hpopsFirst, more, hmore⟩ := q.own_code hd hupTo htoken hn
  have hheads : ∀ s ∈ rest, s.role ≠ .head := by
    intro s hs
    exact q.body_role s (by simp [h.body, hs])
  obtain ⟨-, own, hown, hlevel⟩ := Generator.level_of_writes hrest hheads hblocks hm hn
  -- the code of the part is what stands between the two listings
  obtain rfl : own = code := by
    have hlines := h.lines
    rw [hupTo.listing_eq, hmid.listing_eq, hown] at hlines
    simpa using hlines
  obtain ⟨before, hbefore⟩ := hmid.compares hd
  have hlisting : listing d (q.outer ++ .method q.name q.brace :: first) = header ++ before := by
    rw [hmid.listing_eq, hbefore.lines]
    simp
  have hguarded := (hlevel h.loops).guarded (quiet_of_popsFirst hpopsFirst)
    (show ∀ l ∈ localTargets (header ++ before), ¬l.Between mid.comparisons known.comparisons by
      intro l hl hbetween
      rw [localTargets_append] at hl
      exact (hbefore.targets l hl _ _ hbetween).not_between hbetween)
    (show ∀ l ∈ localTargets (q.done ++ .code .pop q.args :: (more ++ tail)),
        ¬l.Between mid.comparisons known.comparisons by
      intro l hl hbetween
      rw [← List.cons_append, ← List.append_assoc, localTargets_append, htail, List.append_nil] at hl
      exact hbetween.not_between (hmore.targets l hl _ _ hbetween))
  rw [hlisting, hmore.lines, hown, hbefore.lines]
  simpa using hguarded

theorem place_eq (q : CheckedPop d ss) (h : q.Supplied first rest code) :
    q.place = span (listing d (q.outer ++ .method q.name q.brace :: first) ++ (code ++ q.done)) := by
  rw [place, offset, h.lines]
  simp [Nat.add_assoc]

end CheckedPop

/-- A `pop` in the code of a word of `main` that is checked against a known depth never finds the stack empty, if
no `while` comes before the word or the operand has been pushed since. -/
theorem checked_pop_safe {library? : Option Library} {text : Bytes} {c : Compiled} {a : Assembly.Assembler}
    {p : Assembly.Program} (h : compile library? text = .ok c) (ha : a.library? = none)
    (hp : (a.parse c.text).1 = .ok p) (hsmall : p.image.size < UInt32.size) :
    ∃ source ts, Expands library? text source ∧ lex source = .ok ts ∧
      ∀ q : CheckedPop c.declarations (sentences ts),
        p.image.decode q.place = .ok (instruction (place p) .pop q.args) ∧
        ((∀ s ∈ q.body, s.role ≠ .start true) ∨ (∃ first rest code, q.Supplied first rest code) →
          SafeAt True p.image q.place) := by
  obtain ⟨source, ts, hexpands, hlex, hgenerate⟩ := of_compile h
  have hsound := sound_of_lex hlex
  obtain ⟨ms, harranged⟩ := Compiled.arranged_of_generate hsound hgenerate
  have hd := harranged.sound
  obtain ⟨g, -, hw, -, -, hlines⟩ := writes_of_generate hsound hgenerate
  obtain ⟨hlaid, hlinked, -⟩ := Compiled.laid hsound hgenerate ha hp hsmall
  refine ⟨source, ts, hexpands, hlex, fun q => ⟨?_, fun hcondition => ?_⟩⟩
  · have htext : sentences ts =
        (q.outer ++ .method q.name q.brace :: (q.body ++ [Sentence.statement q.token])) ++ q.after :=
      q.text.trans (by simp)
    have hupTo := hlaid.upTo htext
    have hdecode := hupTo.code (q.code.trans (List.append_assoc _ _ _).symm)
    rw [span_append] at hdecode
    exact hdecode
  · obtain ⟨first, rest, code, hsupplied⟩ : ∃ first rest code, q.Supplied first rest code := by
      rcases hcondition with hloops | hsupplied
      · exact ⟨[], q.body, q.supplied_of_loopless hd hw hloops⟩
      · exact hsupplied
    have hguarded := q.guarded hd hw hsupplied (localTargets_trailer c.literals c.declarations.strings.reverse)
    rw [← hlines] at hguarded
    intro m s hs hpc t ht
    rw [q.place_eq hsupplied] at hpc
    exact pop_ne_stackEmpty harranged hlinked hguarded hs (List.append_assoc _ _ _).symm hsupplied.height hpc ht

/-- The second `pop` of a comparison in the condition of a loop. -/
theorem checked_pop_safe_condition :
    ∃ c p ts, ∃ q : CheckedPop c.declarations (sentences ts),
      compile none (bytes "method main \x7b 0 while 1 2 < \x7b \x7d \x7d") = .ok c ∧
      (({} : Assembly.Assembler).parse c.text).1 = .ok p ∧ p.image.size < UInt32.size ∧
      q.token.text = bytes "<" ∧ q.done = [.code .pop [.register 0]] ∧ SafeAt True p.image q.place := by
  let t (ts : List Token) (k : Nat) : Token := ts.getD k ⟨.word, [], 0, 0, []⟩
  let first (ts : List Token) : List Sentence := [.statement (t ts 3), .statement (t ts 4)]
  let rest (ts : List Token) : List Sentence := [.statement (t ts 5), .statement (t ts 6)]
  let pushes : List Line := [.code .mov [.register 0, .word 1], .code .push [.register 0],
    .code .mov [.register 0, .word 2], .code .push [.register 0]]
  have hcompiled : ((compile none (bytes "method main \x7b 0 while 1 2 < \x7b \x7d \x7d")).toOption.bind fun c =>
      (({} : Assembly.Assembler).parse c.text).1.toOption.bind fun p =>
        (lex (bytes "method main \x7b 0 while 1 2 < \x7b \x7d \x7d")).toOption.map fun ts =>
          let before := .method (t ts 1) (t ts 2) :: (first ts ++ rest ts)
          decide (p.image.size < UInt32.size ∧
            sentences ts = .method (t ts 1) (t ts 2) ::
              (first ts ++ rest ts ++ .statement (t ts 7) :: (sentences ts).drop 6) ∧
            (t ts 1).text = bytes "main" ∧ (t ts 7).text = bytes "<" ∧
            (∀ s ∈ first ts ++ rest ts, s.role ≠ .head) ∧ (∀ s ∈ rest ts, s.role ≠ .start true) ∧
            (before.foldl (Generator.read c.declarations) {}).depth ≠ none ∧
            listing c.declarations
                (.method (t ts 1) (t ts 2) :: (first ts ++ rest ts ++ [Sentence.statement (t ts 7)])) =
              listing c.declarations before ++ ([Line.code .pop [.register 0]] ++ .code .pop [.register 1] ::
                (Comparison.lines ⟨.icmp, .bgt⟩ 0).drop 2) ∧
            listing c.declarations before =
              listing c.declarations (.method (t ts 1) (t ts 2) :: first ts) ++ pushes)) = some true := by
    decide +kernel
  obtain ⟨c, hcompile, hcompiled⟩ := Option.bind_eq_some_iff.mp hcompiled
  obtain ⟨p, hparse, hcompiled⟩ := Option.bind_eq_some_iff.mp hcompiled
  obtain ⟨ts, hlex, hparts⟩ := Option.map_eq_some_iff.mp hcompiled
  obtain ⟨hsmall, htext, hmain, htoken, hheads, hloops, hknown, hcode, hlines⟩ := of_decide_eq_true hparts
  replace hcompile := eq_ok_of_toOption hcompile
  replace hparse := eq_ok_of_toOption hparse
  let q : CheckedPop c.declarations (sentences ts) :=
    ⟨[], t ts 1, t ts 2, first ts ++ rest ts, t ts 7, _, [.code .pop [.register 0]], _, _, htext, hmain, hheads,
      hknown, hcode⟩
  obtain ⟨source, ts', rfl, hlex', hsafe⟩ := checked_pop_safe hcompile rfl hparse hsmall
  obtain rfl : ts' = ts := Except.ok.inj (hlex'.symm.trans (eq_ok_of_toOption hlex))
  have hsupplied : q.Supplied (first ts') (rest ts') pushes := ⟨rfl, hloops, hlines, Nat.one_pos⟩
  exact ⟨c, p, ts', q, hcompile, hparse, hsmall, htoken, rfl, (hsafe q).2 (Or.inr ⟨_, _, _, hsupplied⟩)⟩

/-- Any number of ticks leads to a machine that is reached. -/
theorem reaches_iterate (m : Machine) (n : Nat) :
    m.Reaches False ((fun s => s.tick.1)^[n] m) := by
  induction n with
  | zero => exact .here
  | succ n ih =>
    rw [Function.iterate_succ_apply']
    exact ih.tick

/-- The condition of a loop takes a value that the body has dropped: it was there only the first time. -/
theorem not_forall_checked_pop_safe :
    ¬∀ (library? : Option Library) (text source : Bytes) (c : Compiled) (a : Assembly.Assembler)
      (p : Assembly.Program) (ts : List Token), compile library? text = .ok c → a.library? = none →
      (a.parse c.text).1 = .ok p → p.image.size < UInt32.size → Expands library? text source →
      lex source = .ok ts → ∀ q : CheckedPop c.declarations (sentences ts), SafeAt False p.image q.place := by
  intro hall
  let t (ts : List Token) (k : Nat) : Token := ts.getD k ⟨.word, [], 0, 0, []⟩
  let body (ts : List Token) : List Sentence := [.statement (t ts 3), .statement (t ts 4)]
  let state (p : Assembly.Program) : Machine :=
    (fun s => s.tick.1)^[13] ((Machine.create 16 8 8 {} (.store ∅)).load p.image)
  have hcompiled : ((compile none (bytes "method main \x7b 1 while dup \x7b drop \x7d \x7d")).toOption.bind fun c =>
      (({} : Assembly.Assembler).parse c.text).1.toOption.bind fun p =>
        (lex (bytes "method main \x7b 1 while dup \x7b drop \x7d \x7d")).toOption.map fun ts =>
          let before := .method (t ts 1) (t ts 2) :: body ts
          decide (p.image.size < UInt32.size ∧
            sentences ts = .method (t ts 1) (t ts 2) :: (body ts ++ .statement (t ts 5) :: (sentences ts).drop 4) ∧
            (t ts 1).text = bytes "main" ∧ (∀ s ∈ body ts, s.role ≠ .head) ∧
            (before.foldl (Generator.read c.declarations) {}).depth ≠ none ∧
            listing c.declarations (.method (t ts 1) (t ts 2) :: (body ts ++ [Sentence.statement (t ts 5)])) =
              listing c.declarations before ++ ([] ++ Line.code .pop [.register 0] ::
                [.code .push [.register 0], .code .push [.register 0]]) ∧
            (state p).pc = (offset c.declarations before + span [] : Nat) ∧
            (state p).tick.2 = .trapped ⟨18, .of .pop, .stackEmpty⟩)) = some true := by
    decide +kernel
  obtain ⟨c, hcompile, hcompiled⟩ := Option.bind_eq_some_iff.mp hcompiled
  obtain ⟨p, hparse, hcompiled⟩ := Option.bind_eq_some_iff.mp hcompiled
  obtain ⟨ts, hlex, hparts⟩ := Option.map_eq_some_iff.mp hcompiled
  obtain ⟨hsmall, htext, hmain, hheads, hknown, hcode, hpc, htrap⟩ := of_decide_eq_true hparts
  let q : CheckedPop c.declarations (sentences ts) :=
    ⟨[], t ts 1, t ts 2, body ts, t ts 5, _, [], _, _, htext, hmain, hheads, hknown, hcode⟩
  have hsafe := hall none _ _ c {} p ts (eq_ok_of_toOption hcompile) rfl (eq_ok_of_toOption hparse) hsmall rfl
    (eq_ok_of_toOption hlex) q
  exact hsafe _ _ (reaches_iterate _ 13) hpc _ htrap rfl

end WordMachine.Source
