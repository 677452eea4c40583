import Mathlib
import WordMachine.Proofs.Source.Statements

/-!
# `Proofs.Source.Depth` — the depth of the stack in straight code

While the depth of the stack is known, a word of straight code is refused exactly if it takes more values
than there are. So straight code that is accepted never finds too few values when it runs, and straight code
that takes no more values than there are is accepted.

Contents:
* `Leaves`, `Word.leaves_run`, `runAll_ne_stackEmpty`: what words do to the depth;
* `Generator.Tracks`, `tracks_of_isPlain`: what the generator makes of a token;
* `depth_of_writes`, `writes_of_depth`: the same for bodies of any length;
* `depth_of_generate`, `generate_of_depth`: which texts with a straight `main` are accepted.
-/

namespace WordMachine.Source

/-! ## Words -/

/-- A result that does not lack values: the depth is `n`, or there is a fault for another reason. -/
def Leaves (n : Nat) : Except Fault State → Prop
  | .ok st => st.stack.length = n
  | .error f => f ≠ .stackEmpty

theorem leaves_bind {α : Type} {n : Nat} {x : Except Fault α} {next : α → Except Fault State}
    (hx : x ≠ .error .stackEmpty) (h : ∀ a, Leaves n (next a)) : Leaves n (x >>= next) := by
  cases x with
  | ok a => exact h a
  | error f =>
    rintro rfl
    exact hx rfl

namespace Setting

variable {e : Setting} {st : State} {address : UInt64}

theorem push_ne_stackEmpty {v : UInt64} : e.push v st ≠ .error .stackEmpty := by
  unfold push
  split <;> nofun

theorem load_ne_stackEmpty {size : Nat} : e.load st size address ≠ .error .stackEmpty := by
  unfold load
  split <;> nofun

theorem write_ne_stackEmpty {byte : Nat → UInt8} {data : Bytes} :
    e.write byte address data ≠ .error .stackEmpty := by
  unfold write
  split <;> nofun

theorem string_ne_stackEmpty : e.string address ≠ .error .stackEmpty := by
  unfold string
  dsimp only
  split <;> nofun

theorem leaves_push (v : UInt64) : Leaves (st.stack.length + 1) (e.push v st) := by
  unfold push
  split
  · exact nofun
  · rfl

end Setting

/-- A word that finds the values it takes changes the depth by its effect. -/
theorem Word.leaves_run {e : Setting} {w : Word} {st : State} (h : w.effect.1 ≤ st.stack.length) :
    Leaves (st.stack.length - w.effect.1 + w.effect.2) (w.run e st) := by
  obtain ⟨stack, byte⟩ := st
  -- a stack that is too short for the word contradicts `h`; a fault of another kind is allowed
  cases w with
  | value v => exact Setting.leaves_push v
  | arithmetic | relation | swap =>
    rcases stack with _ | ⟨b, _ | ⟨a, rest⟩⟩
    · cases h
    · cases Nat.le_of_succ_le_succ h
    · rfl
  | convert | drop =>
    rcases stack with _ | ⟨a, rest⟩
    · cases h
    · rfl
  | quotient =>
    rcases stack with _ | ⟨b, _ | ⟨a, rest⟩⟩
    · cases h
    · cases Nat.le_of_succ_le_succ h
    · show Leaves _ (if b = 0 then _ else _)
      split
      · exact nofun
      · rfl
  | sameText same =>
    rcases stack with _ | ⟨b, _ | ⟨a, rest⟩⟩
    · cases h
    · cases Nat.le_of_succ_le_succ h
    · exact leaves_bind Setting.string_ne_stackEmpty fun _ => leaves_bind Setting.string_ne_stackEmpty fun _ => rfl
  | negation =>
    rcases stack with _ | ⟨a, rest⟩
    · cases h
    · exact leaves_bind Setting.push_ne_stackEmpty fun _ => rfl
  | dup =>
    rcases stack with _ | ⟨a, rest⟩
    · cases h
    · exact Setting.leaves_push a
  | rot =>
    rcases stack with _ | ⟨c, _ | ⟨b, _ | ⟨a, rest⟩⟩⟩
    · cases h
    · cases Nat.le_of_succ_le_succ h
    · cases Nat.le_of_succ_le_succ (Nat.le_of_succ_le_succ h)
    · rfl
  | load size =>
    rcases stack with _ | ⟨a, rest⟩
    · cases h
    · exact leaves_bind Setting.load_ne_stackEmpty fun _ => rfl
  | store size =>
    rcases stack with _ | ⟨v, _ | ⟨a, rest⟩⟩
    · cases h
    · cases Nat.le_of_succ_le_succ h
    · exact leaves_bind Setting.write_ne_stackEmpty fun _ => rfl
  | copy =>
    rcases stack with _ | ⟨v, _ | ⟨a, rest⟩⟩
    · cases h
    · cases Nat.le_of_succ_le_succ h
    · exact leaves_bind Setting.string_ne_stackEmpty fun _ => leaves_bind Setting.write_ne_stackEmpty fun _ => rfl

/-- Straight code with values enough never lacks any. -/
theorem Word.runAll_ne_stackEmpty {e : Setting} {tokens : List Token} {words : List Word} {st : State}
    (heffects : List.Forall₂ (fun t w => t.effect = w.effect) tokens words)
    (h : (depthAfter? tokens st.stack.length).isSome = true) : runAll e words st ≠ .error .stackEmpty := by
  induction heffects generalizing st with
  | nil => exact nofun
  | @cons t w tokens words heffect _ ih =>
    rw [depthAfter?, heffect] at h
    by_cases hle : w.effect.1 ≤ st.stack.length
    · rw [if_pos hle] at h
      have hleaves := leaves_run (e := e) hle
      rw [runAll]
      cases hrun : w.run e st with
      | error f =>
        rw [hrun] at hleaves
        intro herror
        cases herror
        exact hleaves rfl
      | ok st' =>
        rw [hrun] at hleaves
        exact ih (by rw [show st'.stack.length = _ from hleaves]; exact h)
    · rw [if_neg hle] at h
      cases h

/-! ## Tokens -/

section Tokens

variable {ss : List Sentence} {d : Declarations} {t : Token} {w : Word}

theorem Token.effect_of_kind (hk : t.kind ≠ .word) : t.effect = (0, 1) := by
  unfold effect
  split
  next hword => exact absurd hword hk
  · rfl

theorem Token.effect_of_ofText? (hk : t.kind = .word) (hw : Word.ofText? t.text = some w) : t.effect = w.effect := by
  rw [effect, hk, hw]
  rfl

theorem Token.effect_of_define? (hd : d.Sound) (hreads : Declarations.Reads {} ss d) (hk : t.kind = .word)
    {x : Definition} (hx : define? ss t.text = some x) : t.effect = (0, 1) := by
  obtain ⟨c, -, hc⟩ := hreads.constant hx
  rw [effect, hk, Word.ofText?_of_nameable (hd.constants hc)]
  rfl

/-- Whatever the addresses of strings are, a token takes and leaves the same numbers of values. -/
theorem Means.effect_eq (hd : d.Sound) (hreads : Declarations.Reads {} ss d) {image : Bytes}
    {address : Bytes → UInt64} (h : Means image ss address t w) : t.effect = w.effect := by
  cases h with
  | literal h =>
    apply Token.effect_of_kind
    cases h with
    | integer hk | double hk | char hk | string hk => simp [hk]
  | word hk hw => exact Token.effect_of_ofText? hk hw
  | memory hk hx => exact Token.effect_of_define? hd hreads hk hx
  | constant hk hx => exact Token.effect_of_define? hd hreads hk hx

/-- A sequence replaces values as the word of the table says. -/
theorem Snippet.effect_eq {text : Bytes} {s : Snippet} (hw : Word.ofText? text = some w)
    (hs : ofWord? text = some s) : (s.args, s.args + s.pushes - s.pops) = w.effect ∧ text ≠ bytes "syscall" := by
  have hall : Word.table.all (fun entry => (ofWord? entry.1).all fun s =>
      (s.args, s.args + s.pushes - s.pops) == entry.2.effect && entry.1 != bytes "syscall") = true := by
    decide
  obtain ⟨entry, hentry, rfl⟩ := Option.map_eq_some_iff.mp hw
  obtain rfl : entry.1 = text := by simpa using List.find?_some hentry
  have hone := List.all_eq_true.mp hall entry (List.mem_of_find?_eq_some hentry)
  rw [hs] at hone
  simpa using hone

theorem Comparison.effect_eq {text : Bytes} {c : Comparison} (hw : Word.ofText? text = some w)
    (hc : ofWord? text = some c) : w.effect = (2, 1) := by
  have hall : Word.table.all (fun entry => (ofWord? entry.1).isNone || entry.2.effect == (2, 1)) = true := by
    decide
  obtain ⟨entry, hentry, rfl⟩ := Option.map_eq_some_iff.mp hw
  obtain rfl : entry.1 = text := by simpa using List.find?_some hentry
  have hone := List.all_eq_true.mp hall entry (List.mem_of_find?_eq_some hentry)
  rw [hc] at hone
  simpa using hone

end Tokens

/-! ## Statements -/

namespace Generator

/-- What becomes of a generator that knows the depth: it is refused for want of values, or knows the depth
after a statement and is in the same method and blocks. -/
def Tracks (g : Generator) (n : Nat) (effect : Nat × Nat) : Except Cause Generator → Prop
  | .ok g' => effect.1 ≤ n ∧ g'.depth = some (n - effect.1 + effect.2) ∧ g'.blocks = g.blocks ∧
      g'.inMethod = g.inMethod
  | .error _ => n < effect.1

variable {ss body : List Sentence} {d : Declarations} {t : Token} {w : Word} {g g' : Generator} {n : Nat}

theorem tracks_push (h : g.depth = some n) (op : Operation) (arg : Argument) (literals : List Bytes) :
    Tracks g n (0, 1) (.ok { g.push op arg with literals := literals }) := by
  refine ⟨Nat.zero_le n, ?_, rfl, rfl⟩
  show g.depth.map (· + 1) = some (n + 1)
  rw [h]
  rfl

theorem tracks_consume (h : g.depth = some n) (args results : Nat) :
    Tracks g n (args, results) (g.consume args results) := by
  unfold consume
  rw [h]
  dsimp only
  split
  next hlt => exact hlt
  next hle =>
    refine ⟨Nat.le_of_not_lt hle, ?_, rfl, rfl⟩
    show some (n + results - args) = some (n - args + results)
    congr 1
    omega

theorem tracks_snippet (h : g.depth = some n) (s : Snippet) :
    Tracks g n (s.args, s.args + s.pushes - s.pops) (g.snippet s false) := by
  have hconsume := tracks_consume h s.args (s.args + s.pushes - s.pops)
  unfold snippet
  generalize g.consume s.args (s.args + s.pushes - s.pops) = r at hconsume ⊢
  cases r with
  | error cause => exact hconsume
  | ok g' => exact hconsume

theorem tracks_comparison (h : g.depth = some n) (c : Comparison) : Tracks g n (2, 1) (g.comparison c) := by
  have hconsume := tracks_consume h 2 1
  unfold comparison
  generalize g.consume 2 1 = r at hconsume ⊢
  cases r with
  | error cause => exact hconsume
  | ok g' => exact hconsume

theorem tracks_negation (h : g.depth = some n) : Tracks g n (1, 1) g.negation := by
  have hconsume := tracks_consume h 1 1
  unfold negation
  generalize g.consume 1 1 = r at hconsume ⊢
  cases r with
  | error cause => exact hconsume
  | ok g' => exact hconsume

theorem tracks_of_ofText? (hw : Word.ofText? t.text = some w) (h : g.depth = some n) :
    Tracks g n w.effect (g.word d t.text) := by
  unfold word
  split
  next s hs =>
    obtain ⟨heffect, hne⟩ := Snippet.effect_eq hw hs
    rw [beq_eq_false_iff_ne.mpr hne, ← heffect]
    exact tracks_snippet h s
  next hsnippet =>
    split
    next c hc =>
      rw [Comparison.effect_eq hw hc]
      exact tracks_comparison h c
    next hcomparison =>
      have hnot := Word.eq_not_of_ofText? hw hsnippet hcomparison
      rw [if_pos hnot]
      rw [hnot] at hw
      cases hw
      exact tracks_negation h

theorem tracks_of_define? (hd : d.Sound) (hreads : Declarations.Reads {} ss d) {x : Definition}
    (hx : define? ss t.text = some x) (h : g.depth = some n) : Tracks g n (0, 1) (g.word d t.text) := by
  obtain ⟨c, -, hc⟩ := hreads.constant hx
  rw [word_of_unreserved g d (hd.constants hc).free, defined, hc]
  cases c with
  | number | char | string | memory => exact tracks_push h _ _ g.literals

/-- A token of straight code is refused only for want of values. -/
theorem tracks_of_isPlain (hd : d.Sound) (hreads : Declarations.Reads {} ss d) (ht : t.Sound)
    (hplain : t.isPlain ss = true) (h : g.depth = some n) : Tracks g n t.effect (g.statement d t) := by
  unfold statement
  unfold Token.isPlain at hplain
  by_cases hk : t.kind = .word
  · rw [hk] at hplain ⊢
    rcases Bool.or_eq_true_iff.mp hplain with hw | hx
    · obtain ⟨w, hw⟩ := Option.isSome_iff_exists.mp hw
      rw [Token.effect_of_ofText? hk hw]
      exact tracks_of_ofText? hw h
    · obtain ⟨x, hx⟩ := Option.isSome_iff_exists.mp hx
      rw [Token.effect_of_define? hd hreads hk hx]
      exact tracks_of_define? hd hreads hx h
  · rw [Token.effect_of_kind hk]
    cases hkind : t.kind with
    | word => exact absurd hkind hk
    | integer | double | char => exact tracks_push h _ _ g.literals
    | string => exact tracks_push h _ _ (t.text :: g.literals)
    | unassigned k => exact absurd hkind (ht.kind k)

/-! ## Bodies -/

/-- Straight code that is accepted takes no more values than there are. -/
theorem depth_of_writes (hd : d.Sound) (hreads : Declarations.Reads {} ss d)
    (hplain : ∀ s ∈ body, s.isPlain ss = true) (hw : Writes d g body g') (h : g.depth = some n) :
    (depthAfter? (body.filterMap Sentence.statement?) n).isSome = true := by
  induction hw generalizing n with
  | nil => rfl
  | method => exact absurd (hplain _ List.mem_cons_self) Bool.false_ne_true
  | definition _ ih => exact ih (fun s hs => hplain s (List.mem_cons_of_mem _ hs)) h
  | @statement g next g' t body sound _ step _ ih =>
    have htracks := tracks_of_isPlain hd hreads sound (hplain _ List.mem_cons_self) h
    rw [step] at htracks
    obtain ⟨hle, hdepth, -, -⟩ := htracks
    show (depthAfter? (t :: body.filterMap Sentence.statement?) n).isSome = true
    rw [depthAfter?, if_pos hle]
    exact ih (fun s hs => hplain s (List.mem_cons_of_mem _ hs)) hdepth

/-- Straight code that takes no more values than there are is accepted. -/
theorem writes_of_depth (hd : d.Sound) (hreads : Declarations.Reads {} ss d)
    (hsound : ∀ t ∈ body.filterMap Sentence.statement?, t.Sound) (hplain : ∀ s ∈ body, s.isPlain ss = true)
    (hin : g.inMethod = true) (h : g.depth = some n)
    (henough : (depthAfter? (body.filterMap Sentence.statement?) n).isSome = true) :
    ∃ g', Writes d g body g' ∧ g'.blocks = g.blocks ∧ g'.inMethod = true := by
  induction body generalizing g n with
  | nil => exact ⟨g, .nil, rfl, hin⟩
  | cons s body ih =>
    obtain ⟨hfirst, hrest⟩ := List.forall_mem_cons.mp hplain
    cases s with
    | method => exact absurd hfirst Bool.false_ne_true
    | definition =>
      obtain ⟨g', hw, hblocks, hin'⟩ := ih hsound hrest hin h henough
      exact ⟨g', .definition hw, hblocks, hin'⟩
    | statement t =>
      obtain ⟨ht, hsound⟩ := List.forall_mem_cons.mp hsound
      -- the depth that the generator tracks is the one that is counted here
      have htracks := tracks_of_isPlain (g := g) hd hreads ht hfirst h
      replace henough : (depthAfter? (t :: body.filterMap Sentence.statement?) n).isSome = true := henough
      rw [depthAfter?] at henough
      by_cases hle : t.effect.1 ≤ n
      · rw [if_pos hle] at henough
        cases hstep : g.statement d t with
        | error cause =>
          rw [hstep] at htracks
          exact absurd hle (Nat.not_le.mpr htracks)
        | ok next =>
          rw [hstep] at htracks
          obtain ⟨-, hdepth, hblocks, hinside⟩ := htracks
          obtain ⟨g', hw, hblocks', hin'⟩ := ih hsound hrest (hinside.trans hin) hdepth henough
          exact ⟨g', .statement ht hin hstep hw, hblocks'.trans hblocks, hin'⟩
      · rw [if_neg hle] at henough
        cases henough

/-- Definitions stand for no code. -/
theorem writes_of_isDefinition (h : ∀ s ∈ ss, s.isDefinition = true) : Writes d g ss g := by
  induction ss with
  | nil => exact .nil
  | cons s ss ih =>
    obtain ⟨hfirst, hrest⟩ := List.forall_mem_cons.mp h
    cases s with
    | definition => exact .definition (ih hrest)
    | method | statement => cases hfirst

end Generator

/-! ## Texts -/

section Texts

variable {ts : List Token} {before body after : List Sentence} {main brace close t : Token}

theorem mem_of_statement (h : .statement t ∈ sentences ts) : t ∈ ts := by
  induction ts using sentences.induct with
  | case1 => cases h
  | case2 u hm name brace tail ih =>
    rw [sentences_method hm] at h
    rcases List.mem_cons.mp h with h | h
    · cases h
    · simp [ih h]
  | case3 u rest hm hshort =>
    rw [sentences_cut hm hshort] at h
    cases List.mem_singleton.mp h
    exact List.mem_cons_self
  | case4 u hm hdef value const name tail ih =>
    rw [sentences_definition hm hdef] at h
    rcases List.mem_cons.mp h with h | h
    · cases h
    · simp [ih h]
  | case5 u rest hm hdef hshort =>
    rw [sentences_short hm hdef hshort] at h
    cases h
  | case6 u rest hm hdef ih =>
    rw [sentences_statement hm hdef] at h
    rcases List.mem_cons.mp h with h | h
    · cases h
      exact List.mem_cons_self
    · exact List.mem_cons_of_mem u (ih h)

/-- Only the last sentence can be the head of a method that is cut short. -/
theorem eq_nil_of_cut (h : sentences ts = before ++ .statement t :: after)
    (hm : t.kind = .word ∧ t.text = bytes "method") : after = [] := by
  induction ts using sentences.induct generalizing before with
  | case1 => simp [sentences] at h
  | case2 u hu name brace tail ih =>
    rw [sentences_method hu] at h
    rcases List.cons_eq_append_iff.mp h with ⟨-, h⟩ | ⟨before', -, h⟩
    · cases h
    · exact ih h
  | case3 u rest hu hshort =>
    rw [sentences_cut hu hshort] at h
    simp only [List.singleton_eq_append_iff, List.cons.injEq] at h
    tauto
  | case4 u hu hdef value const name tail ih =>
    rw [sentences_definition hu hdef] at h
    rcases List.cons_eq_append_iff.mp h with ⟨-, h⟩ | ⟨before', -, h⟩
    · cases h
    · exact ih h
  | case5 u rest hu hdef hshort =>
    rw [sentences_short hu hdef hshort] at h
    simp at h
  | case6 u rest hu hdef ih =>
    rw [sentences_statement hu hdef] at h
    rcases List.cons_eq_append_iff.mp h with ⟨-, h⟩ | ⟨before', -, h⟩
    · cases h
      exact absurd hm hu
    · exact ih h

/-- An accepted straight `main` takes no more values than there are. -/
theorem depth_of_generate {c : Compiled} (hts : ∀ t ∈ ts, t.Sound) (h : generate ts = .ok c)
    (hss : sentences ts = before ++ .method main brace :: (body ++ .statement close :: after))
    (hmain : main.text = bytes "main") (hplain : ∀ s ∈ body, s.isPlain (sentences ts) = true) :
    (depthAfter? (body.filterMap Sentence.statement?) 0).isSome = true := by
  obtain ⟨g, hd, hw, -⟩ := writes_of_generate hts h
  have hreads := reads_of_declare hts hw.proper hd
  rw [hss] at hw
  obtain ⟨first, -, hrest⟩ := hw.append_inv
  cases hrest with
  | method _ _ hrest =>
    obtain ⟨last, hbody, -⟩ := hrest.append_inv
    have hdepth : (first.startMethod main.text).depth = some 0 := by simp [Generator.startMethod, hmain]
    exact Generator.depth_of_writes (sound_of_declare hts hd).1 hreads hplain hbody hdepth

/-- In a text of definitions and a straight `main`, no sentence is out of order. -/
theorem proper_of_straight
    (hss : sentences ts = before ++ .method main brace :: (body ++ .statement close :: after))
    (hbefore : ∀ s ∈ before, s.isDefinition = true) (hafter : ∀ s ∈ after, s.isDefinition = true)
    (hbrace : brace.text = bytes "\x7b") (hclose : close.text = bytes "\x7d")
    (hplain : ∀ s ∈ body, s.isPlain (sentences ts) = true) : ∀ s ∈ sentences ts, s.Proper := by
  have hdefinition {ss : List Sentence} (h : ∀ s ∈ ss, s.isDefinition = true) : ∀ s ∈ ss, s.Proper := by
    intro s hs
    have hs := h s hs
    cases s with
    | definition => trivial
    | method | statement => cases hs
  have hbody : ∀ s ∈ body, s.Proper := by
    intro s hs
    cases s with
    | definition => trivial
    | method => exact absurd (hplain _ hs) Bool.false_ne_true
    | statement t =>
      intro hm
      -- the brace that closes the method comes after it
      obtain ⟨first, rest, rfl⟩ := List.append_of_mem hs
      have hsplit : sentences ts = (before ++ .method main brace :: first) ++ .statement t ::
          (rest ++ .statement close :: after) := by
        rw [hss]
        simp
      simpa using eq_nil_of_cut hsplit hm
  have hend : ¬(close.kind = .word ∧ close.text = bytes "method") := by
    rw [hclose]
    rintro ⟨-, h⟩
    exact absurd h (by decide)
  rw [hss]
  refine List.forall_mem_append.mpr ⟨hdefinition hbefore, ?_⟩
  refine List.forall_mem_cons.mpr ⟨hbrace, ?_⟩
  exact List.forall_mem_append.mpr ⟨hbody, List.forall_mem_cons.mpr ⟨hend, hdefinition hafter⟩⟩

/-- A text of definitions and a straight `main` that takes no more values than there are is accepted. -/
theorem generate_of_depth {d : Declarations} (hts : ∀ t ∈ ts, t.Sound) (hd : declare ts = .ok d)
    (hss : sentences ts = before ++ .method main brace :: (body ++ .statement close :: after))
    (hbefore : ∀ s ∈ before, s.isDefinition = true) (hafter : ∀ s ∈ after, s.isDefinition = true)
    (hmain : main.text = bytes "main") (hbrace : brace.text = bytes "\x7b")
    (hclose : close.kind = .word ∧ close.text = bytes "\x7d")
    (hplain : ∀ s ∈ body, s.isPlain (sentences ts) = true)
    (henough : (depthAfter? (body.filterMap Sentence.statement?) 0).isSome = true) : ∃ c, generate ts = .ok c := by
  have hreads := reads_of_declare hts (proper_of_straight hss hbefore hafter hbrace hclose.2 hplain) hd
  have hsound {t : Token} (ht : .statement t ∈ sentences ts) : t.Sound := hts t (mem_of_statement ht)
  have hbodySound : ∀ t ∈ body.filterMap Sentence.statement?, t.Sound := by
    intro t ht
    obtain ⟨s, hs, hst⟩ := List.mem_filterMap.mp ht
    cases s with
    | statement u =>
      cases hst
      exact hsound (by simp [hss, hs])
    | method | definition => cases hst
  obtain ⟨last, hbody, hblocks, hin⟩ := Generator.writes_of_depth (g := Generator.startMethod {} main.text)
    (sound_of_declare hts hd).1 hreads hbodySound hplain rfl (by simp [Generator.startMethod, hmain]) henough
  have hstep : last.statement d close = .ok { last.emit [.code .ret []] with inMethod := false } := by
    rw [Generator.statement, hclose.1, hclose.2]
    show last.close = _
    rw [Generator.close, hblocks]
    rfl
  have hwrites : Generator.Writes d {} (sentences ts) { last.emit [.code .ret []] with inMethod := false } := by
    rw [hss]
    refine (Generator.writes_of_isDefinition hbefore).append (.method rfl hbrace (hbody.append ?_))
    exact .statement (hsound (by simp [hss])) hin hstep (Generator.writes_of_isDefinition hafter)
  have htokens := Generator.tokens_of_writes hts hwrites
  unfold generate
  simp only [hd, htokens]
  exact ⟨_, rfl⟩

end Texts

end WordMachine.Source
