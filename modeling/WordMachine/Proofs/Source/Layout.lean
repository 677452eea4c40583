import Mathlib
import WordMachine.Proofs.Source.Generated

/-!
# `Proofs.Source.Layout` — the code of a whole program

Declaring and generating read a text as the same sentences: heads of methods, definitions of constants,
and the words of method bodies. So the generated code is one piece for each method that was declared. A
method ends with `ret`, all branches within it have their labels in it, and no label is defined twice.

Contents:
* `Sentence`, `sentences`, `Generator.Writes`, `writes_of_tokens`;
* `Declarations.Reads`, `reads_of_declare`: what declaring makes of the same sentences;
* `Method`, `Generator.Layout`, `layout_of_writes`: generated lines are the lines of methods;
* `Generator.Fresh`, `fresh_of_writes`: labels inside methods are defined once;
* `Compiled.Arranged`, `arranged_of_generate`.
-/

namespace WordMachine.Source

/-! ## Sentences -/

/-- A piece of a source text. -/
inductive Sentence where
  | method (name brace : Token)
  | definition (keyword value const name : Token)
  /-- A word, a literal or a brace of a method body. -/
  | statement (t : Token)
  deriving DecidableEq, Repr

/-- The sentences of a text. A definition that is cut short at its end is left out, and the head of a
method that is cut short stands for itself. -/
def sentences : List Token → List Sentence
  | [] => []
  | t :: rest =>
      if t.kind = .word ∧ t.text = bytes "method" then
        match rest with
        | name :: brace :: tail => .method name brace :: sentences tail
        | _ => [.statement t]
      else if t.kind = .word ∧ Generator.isDefinition t then
        match rest with
        | value :: const :: name :: tail => .definition t value const name :: sentences tail
        | _ => []
      else .statement t :: sentences rest

/-- The name that a sentence gives to a method. -/
def Sentence.methodName? : Sentence → Option Bytes
  | .method name _ => some name.text
  | _ => none

/-- The token of a sentence in a method body. -/
def Sentence.statement? : Sentence → Option Token
  | .statement t => some t
  | _ => none

/-- The words, literals and braces of all method bodies. -/
def bodyTokens (ts : List Token) : List Token := (sentences ts).filterMap Sentence.statement?

theorem sentences_method {t name brace : Token} {tail : List Token}
    (h : t.kind = .word ∧ t.text = bytes "method") :
    sentences (t :: name :: brace :: tail) = .method name brace :: sentences tail := by
  rw [sentences, if_pos h]

theorem sentences_cut {t : Token} {rest : List Token} (h : t.kind = .word ∧ t.text = bytes "method")
    (hshort : ∀ name brace tail, rest = name :: brace :: tail → False) :
    sentences (t :: rest) = [.statement t] := by
  rw [sentences.eq_def]
  simp only [if_pos h]

theorem sentences_definition {t value const name : Token} {tail : List Token}
    (hm : ¬(t.kind = .word ∧ t.text = bytes "method")) (h : t.kind = .word ∧ Generator.isDefinition t = true) :
    sentences (t :: value :: const :: name :: tail) = .definition t value const name :: sentences tail := by
  rw [sentences, if_neg hm, if_pos h]

theorem sentences_short {t : Token} {rest : List Token}
    (hm : ¬(t.kind = .word ∧ t.text = bytes "method")) (h : t.kind = .word ∧ Generator.isDefinition t = true)
    (hshort : ∀ value const name tail, rest = value :: const :: name :: tail → False) :
    sentences (t :: rest) = [] := by
  rw [sentences.eq_def]
  simp only [if_neg hm, if_pos h]

theorem sentences_statement {t : Token} {rest : List Token}
    (hm : ¬(t.kind = .word ∧ t.text = bytes "method"))
    (h : ¬(t.kind = .word ∧ Generator.isDefinition t = true)) :
    sentences (t :: rest) = .statement t :: sentences rest := by
  rw [sentences.eq_def]
  simp only [if_neg hm, if_neg h]

namespace Generator

/-- Reading sentences takes one generator to another. -/
inductive Writes (d : Declarations) : Generator → List Sentence → Generator → Prop where
  | nil {g : Generator} : Writes d g [] g
  | method {g g' : Generator} {name brace : Token} {ss : List Sentence} (outside : g.inMethod = false)
      (brace_eq : brace.text = bytes "\x7b") (rest : Writes d (g.startMethod name.text) ss g') :
      Writes d g (.method name brace :: ss) g'
  | definition {g g' : Generator} {keyword value const name : Token} {ss : List Sentence}
      (rest : Writes d g ss g') : Writes d g (.definition keyword value const name :: ss) g'
  | statement {g next g' : Generator} {t : Token} {ss : List Sentence} (sound : t.Sound)
      (inside : g.inMethod = true) (step : g.statement d t = .ok next) (rest : Writes d next ss g') :
      Writes d g (.statement t :: ss) g'

theorem Writes.append_inv {d : Declarations} {g g' : Generator} {ss ss' : List Sentence}
    (h : Writes d g (ss ++ ss') g') : ∃ mid, Writes d g ss mid ∧ Writes d mid ss' g' := by
  induction ss generalizing g with
  | nil => exact ⟨g, .nil, h⟩
  | cons s ss ih =>
    cases h with
    | method outside brace_eq rest =>
      obtain ⟨mid, hfirst, hsecond⟩ := ih rest
      exact ⟨mid, .method outside brace_eq hfirst, hsecond⟩
    | definition rest =>
      obtain ⟨mid, hfirst, hsecond⟩ := ih rest
      exact ⟨mid, .definition hfirst, hsecond⟩
    | statement sound inside step rest =>
      obtain ⟨mid, hfirst, hsecond⟩ := ih rest
      exact ⟨mid, .statement sound inside step hfirst, hsecond⟩

theorem Writes.append {d : Declarations} {g mid g' : Generator} {ss ss' : List Sentence} (h : Writes d g ss mid)
    (h' : Writes d mid ss' g') : Writes d g (ss ++ ss') g' := by
  induction h with
  | nil => exact h'
  | method outside brace_eq _ ih => exact .method outside brace_eq (ih h')
  | definition _ ih => exact .definition (ih h')
  | statement sound inside step _ ih => exact .statement sound inside step (ih h')

/-- A statement that is accepted is no head of a method. -/
theorem not_method_of_statement {d : Declarations} {g g' : Generator} {t : Token}
    (h : g.statement d t = .ok g') : ¬(t.kind = .word ∧ t.text = bytes "method") := by
  rintro ⟨hk, htext⟩
  unfold statement at h
  simp only [hk, htext] at h
  cases h

theorem not_method_of_isDefinition {t : Token} (h : isDefinition t = true) :
    ¬(t.kind = .word ∧ t.text = bytes "method") := by
  rintro ⟨-, htext⟩
  simp only [isDefinition, htext] at h
  exact absurd h (by decide)

/-- Words and, elsewhere, tokens of no kind are looked up; lexed tokens have a kind. -/
theorem isWordLike_of_sound {t : Token} (h : t.Sound) : isWordLike t = true ↔ t.kind = .word := by
  unfold isWordLike
  split
  next hk => simp [hk]
  next n hk => exact absurd hk (h.kind n)
  next hword _ => simpa using hword

/-- Generating code reads the sentences of a text. -/
theorem writes_of_tokens {d : Declarations} {g g' : Generator} {ts : List Token} (hts : ∀ t ∈ ts, t.Sound)
    (h : g.tokens d ts = .ok g') : Writes d g (sentences ts) g' := by
  fun_induction tokens g d ts with
  | case1 g =>
    cases h
    exact .nil
  | case2 g t _ hdef value const name tail ih =>
    have hword := (isWordLike_of_sound (hts t List.mem_cons_self)).mp (Bool.and_eq_true _ _ ▸ hdef).1
    have hdef := (Bool.and_eq_true _ _ ▸ hdef).2
    rw [sentences_definition (not_method_of_isDefinition hdef) ⟨hword, hdef⟩]
    exact .definition (ih (fun u hu => hts u (by simp [hu])) h)
  | case3 g t rest _ hdef hshort =>
    cases h
    have hword := (isWordLike_of_sound (hts t List.mem_cons_self)).mp (Bool.and_eq_true _ _ ▸ hdef).1
    have hdef := (Bool.and_eq_true _ _ ▸ hdef).2
    rw [sentences_short (not_method_of_isDefinition hdef) ⟨hword, hdef⟩ hshort]
    exact .nil
  | case4 => cases h
  | case5 g t rest hin hdef next hstep ih =>
    have hsound := hts t List.mem_cons_self
    have hnot : ¬(t.kind = .word ∧ isDefinition t = true) := by
      rintro ⟨hword, hd⟩
      exact hdef (by rw [(isWordLike_of_sound hsound).mpr hword, hd]; rfl)
    rw [sentences_statement (not_method_of_statement hstep) hnot]
    exact .statement hsound hin hstep (ih (fun u hu => hts u (List.mem_cons_of_mem t hu)) h)
  | case6 g t hout hmethod name brace tail hbrace ih =>
    rw [sentences_method hmethod]
    exact .method (by simpa using hout) hbrace (ih (fun u hu => hts u (by simp [hu])) h)
  | case7 => cases h
  | case8 => cases h
  | case9 g t _ hnot hdef value const name tail ih =>
    rw [sentences_definition hnot hdef]
    exact .definition (ih (fun u hu => hts u (by simp [hu])) h)
  | case10 g t rest _ hnot hdef hshort =>
    cases h
    rw [sentences_short hnot hdef hshort]
    exact .nil
  | case11 => cases h
  | case12 => cases h

/-- Sentences that can be read are accepted. -/
theorem tokens_of_writes {d : Declarations} {g g' : Generator} {ts : List Token} (hts : ∀ t ∈ ts, t.Sound)
    (h : Writes d g (sentences ts) g') : g.tokens d ts = .ok g' := by
  induction ts using sentences.induct generalizing g with
  | case1 =>
    cases h
    rfl
  | case2 t hm name brace tail ih =>
    rw [sentences_method hm] at h
    cases h with
    | method outside brace_eq rest =>
      rw [tokens.eq_def]
      simp only [outside, Bool.false_eq_true, if_false, if_pos hm, if_pos brace_eq]
      exact ih (fun u hu => hts u (by simp [hu])) rest
  | case3 t rest hm hshort =>
    rw [sentences_cut hm hshort] at h
    cases h with
    | statement _ _ step _ => exact absurd hm (not_method_of_statement step)
  | case4 t hm hdef value const name tail ih =>
    rw [sentences_definition hm hdef] at h
    cases h with
    | definition rest =>
      -- a definition is passed over inside of methods and outside
      have htail := ih (fun u hu => hts u (by simp [hu])) rest
      have hlike := (isWordLike_of_sound (hts t List.mem_cons_self)).mpr hdef.1
      rw [tokens, if_neg hm, if_pos hdef, hlike, hdef.2]
      cases g.inMethod <;> exact htail
  | case5 t rest hm hdef hshort =>
    rw [sentences_short hm hdef hshort] at h
    cases h
    have hlike := (isWordLike_of_sound (hts t List.mem_cons_self)).mpr hdef.1
    rw [tokens.eq_def]
    cases g'.inMethod with
    | true => simp [hlike, hdef.2]
    | false => simp only [Bool.false_eq_true, if_false, if_neg hm, if_pos hdef]
  | case6 t rest hm hdef ih =>
    rw [sentences_statement hm hdef] at h
    cases h with
    | statement sound inside step hrest =>
      have hnot : (isWordLike t && isDefinition t) = false := by
        rw [Bool.and_eq_false_iff, ← Bool.not_eq_true, ← Bool.not_eq_true, isWordLike_of_sound sound]
        tauto
      rw [tokens.eq_def]
      simp only [inside, hnot, step]
      exact ih (fun u hu => hts u (List.mem_cons_of_mem t hu)) hrest

end Generator

namespace Declarations

variable {d d' : Declarations} {t : Token}

/-- Collecting passes over a statement. -/
theorem collect_statement {rest : List Token} (hm : ¬(t.kind = .word ∧ t.text = bytes "method"))
    (hdef : ¬(t.kind = .word ∧ Generator.isDefinition t = true)) : d.collect (t :: rest) = d.collect rest := by
  have hne {w : Bytes} (hw : w = bytes "let" ∨ w = bytes "memory") : ¬(t.kind = .word ∧ t.text = w) := by
    rintro ⟨hk, htext⟩
    refine hdef ⟨hk, ?_⟩
    rw [Generator.isDefinition, htext]
    rcases hw with rfl | rfl <;> decide
  rw [collect.eq_def]
  simp only [if_neg hm, if_neg (hne (Or.inl rfl)), if_neg (hne (Or.inr rfl))]

/-- A brace starts no definition. -/
theorem collect_brace {tail : List Token} (h : t.text = bytes "\x7b") :
    d.collect (t :: tail) = d.collect tail := by
  refine collect_statement ?_ ?_
  · rintro ⟨-, htext⟩
    exact absurd (h.symm.trans htext) (by decide)
  · rintro ⟨-, hdef⟩
    rw [Generator.isDefinition, h] at hdef
    exact absurd hdef (by decide)

theorem of_collect_method {name : Token} {tail : List Token} (hm : t.kind = .word ∧ t.text = bytes "method")
    (h : d.collect (t :: name :: tail) = .ok d') :
    ∃ next, d.addMethod name = .ok next ∧ next.collect tail = .ok d' := by
  rw [collect, if_pos hm] at h
  split at h
  · cases h
  · split at h
    · cases h
    next next hadd => exact ⟨next, hadd, h⟩

theorem of_collect_definition {value const name : Token} {tail : List Token}
    (hm : ¬(t.kind = .word ∧ t.text = bytes "method")) (hdef : t.kind = .word ∧ Generator.isDefinition t = true)
    (h : d.collect (t :: value :: const :: name :: tail) = .ok d') :
    ∃ next, next.collect tail = .ok d' ∧
      (t.text ≠ bytes "memory" ∧ d.addLet value name = .ok next ∨
        t.text = bytes "memory" ∧ d.addMemory value name = .ok next) := by
  rw [collect.eq_def] at h
  simp only [if_neg hm] at h
  split at h
  next hlet =>
    have hne : t.text ≠ bytes "memory" := hlet.2 ▸ by decide
    split at h
    · split at h
      · cases h
      next next hadd => exact ⟨next, h, .inl ⟨hne, hadd⟩⟩
    · cases h
  next hlet =>
    have hmemory : t.kind = .word ∧ t.text = bytes "memory" := by
      simp only [Generator.isDefinition, Bool.or_eq_true, beq_iff_eq] at hdef
      exact ⟨hdef.1, hdef.2.resolve_left fun htext => hlet ⟨hdef.1, htext⟩⟩
    rw [if_pos hmemory] at h
    split at h
    · split at h
      · cases h
      next next hadd => exact ⟨next, h, .inr ⟨hmemory.2, hadd⟩⟩
    · cases h

/-- A definition that ends before its name is an error. -/
theorem collect_short_ne_ok {rest : List Token} (hm : ¬(t.kind = .word ∧ t.text = bytes "method"))
    (hdef : t.kind = .word ∧ Generator.isDefinition t = true)
    (hshort : ∀ value const name tail, rest = value :: const :: name :: tail → False) :
    d.collect (t :: rest) ≠ .ok d' := by
  intro h
  rw [collect.eq_def] at h
  simp only [if_neg hm] at h
  simp only [Generator.isDefinition, Bool.or_eq_true, beq_iff_eq] at hdef
  have hlet : bytes "let" ≠ bytes "memory" := by decide
  rcases hdef with ⟨hk, htext | htext⟩
  · rw [if_pos ⟨hk, htext⟩] at h
    cases h
  · rw [if_neg (fun hword => hlet (hword.2.symm.trans htext)), if_pos ⟨hk, htext⟩] at h
    cases h

end Declarations

/-- Collecting the definitions of sentences takes one set of declarations to another. -/
inductive Declarations.Reads : Declarations → List Sentence → Declarations → Prop where
  | nil {d : Declarations} : Reads d [] d
  | method {d next d' : Declarations} {name brace : Token} {ss : List Sentence}
      (step : d.addMethod name = .ok next) (rest : Reads next ss d') : Reads d (.method name brace :: ss) d'
  | value {d next d' : Declarations} {keyword value const name : Token} {ss : List Sentence}
      (sound : value.Sound) (keyword_ne : keyword.text ≠ bytes "memory") (step : d.addLet value name = .ok next)
      (rest : Reads next ss d') : Reads d (.definition keyword value const name :: ss) d'
  | memory {d next d' : Declarations} {keyword size const name : Token} {ss : List Sentence}
      (sound : size.Sound) (keyword_eq : keyword.text = bytes "memory") (step : d.addMemory size name = .ok next)
      (rest : Reads next ss d') : Reads d (.definition keyword size const name :: ss) d'
  | statement {d d' : Declarations} {t : Token} {ss : List Sentence} (rest : Reads d ss d') :
      Reads d (.statement t :: ss) d'

/-- The head of a method has its brace, and none is cut short. -/
def Sentence.Proper : Sentence → Prop
  | .method _ brace => brace.text = bytes "\x7b"
  | .definition .. => True
  | .statement t => ¬(t.kind = .word ∧ t.text = bytes "method")

theorem Generator.Writes.proper {d : Declarations} {g g' : Generator} {ss : List Sentence} (h : Writes d g ss g') :
    ∀ s ∈ ss, s.Proper := by
  induction h with
  | nil => exact List.forall_mem_nil _
  | method _ brace_eq _ ih => exact List.forall_mem_cons.mpr ⟨brace_eq, ih⟩
  | definition _ ih => exact List.forall_mem_cons.mpr ⟨trivial, ih⟩
  | statement _ _ step _ ih => exact List.forall_mem_cons.mpr ⟨not_method_of_statement step, ih⟩

/-- Collecting definitions reads the sentences of a text. -/
theorem Declarations.reads_of_collect {d d' : Declarations} {ts : List Token} (hts : ∀ t ∈ ts, t.Sound)
    (hproper : ∀ s ∈ sentences ts, s.Proper) (h : d.collect ts = .ok d') : d.Reads (sentences ts) d' := by
  induction ts using sentences.induct generalizing d with
  | case1 =>
    cases h
    exact .nil
  | case2 t hm name brace tail ih =>
    rw [sentences_method hm] at hproper ⊢
    obtain ⟨hbrace, hrest⟩ := List.forall_mem_cons.mp hproper
    obtain ⟨next, hadd, h⟩ := of_collect_method hm h
    rw [collect_brace hbrace] at h
    exact .method hadd (ih (fun u hu => hts u (by simp [hu])) hrest h)
  | case3 t rest hm hshort =>
    rw [sentences_cut hm hshort] at hproper
    exact absurd hm (hproper _ List.mem_cons_self)
  | case4 t hm hdef value const name tail ih =>
    rw [sentences_definition hm hdef] at hproper ⊢
    have hvalue : value.Sound := hts value (by simp)
    obtain ⟨next, h, hadd⟩ := of_collect_definition hm hdef h
    have hrest := ih (fun u hu => hts u (by simp [hu])) (List.forall_mem_cons.mp hproper).2 h
    rcases hadd with ⟨hne, hadd⟩ | ⟨heq, hadd⟩
    · exact .value hvalue hne hadd hrest
    · exact .memory hvalue heq hadd hrest
  | case5 t rest hm hdef hshort => exact absurd h (collect_short_ne_ok hm hdef hshort)
  | case6 t rest hm hdef ih =>
    rw [sentences_statement hm hdef] at hproper ⊢
    rw [collect_statement hm hdef] at h
    exact .statement (ih (fun u hu => hts u (List.mem_cons_of_mem t hu)) (List.forall_mem_cons.mp hproper).2 h)

/-- The methods of a text are those that its sentences name, in order. -/
theorem Declarations.Reads.methods {d d' : Declarations} {ss : List Sentence} (h : d.Reads ss d') :
    d'.methods = (ss.filterMap Sentence.methodName?).reverse ++ d.methods := by
  induction h with
  | nil => rfl
  | method step _ ih =>
    obtain ⟨-, -, -, rfl⟩ := of_addMethod step
    rw [ih]
    simp [Sentence.methodName?]
  | value _ _ step _ ih =>
    obtain ⟨_, -, -, -, -, rfl⟩ := of_addLet step
    rw [ih]
    rfl
  | memory _ _ step _ ih =>
    obtain ⟨-, -, -, -, rfl⟩ := of_addMemory step
    rw [ih]
    rfl
  | statement _ ih => exact ih

theorem reads_of_declare {d : Declarations} {ts : List Token} (hts : ∀ t ∈ ts, t.Sound)
    (hproper : ∀ s ∈ sentences ts, s.Proper) (h : declare ts = .ok d) :
    Declarations.Reads {} (sentences ts) d := by
  unfold declare at h
  split at h
  · cases h
  next d' hcollect =>
    split at h
    · cases h
      exact Declarations.reads_of_collect hts hproper hcollect
    · cases h

/-! ## Methods -/

/-- The code of a method, without its head and its last `ret`. -/
structure Method where
  name : Bytes
  body : List Line

namespace Method

/-- The lines before the body. -/
def head (m : Method) : List Line := [.blank, .label (.method m.name)]

/-- All lines of a method. -/
def lines (m : Method) : List Line := m.head ++ m.body ++ [.code .ret []]

/-- Branches of the body stay within it. -/
def Closed (m : Method) : Prop := localTargets m.body ⊆ labels m.body

end Method

namespace Generator

/-- The labels at the ends of the blocks that are open. -/
def pending (g : Generator) : List Label := (g.blocks.filter (·.opened)).map fun b => .blockEnd b.index

/-- The generated lines are those of finished methods and of the one at work, whose branches may also go
to the ends of open blocks. -/
structure Layout (d : Declarations) (g : Generator) (finished : List Method) (current : Option Method) : Prop where
  lines : g.lines.reverse =
    finished.flatMap Method.lines ++ current.toList.flatMap fun m => m.head ++ m.body
  inMethod : g.inMethod = current.isSome
  inner : ∀ m ∈ finished ++ current.toList, ∀ l ∈ m.body, l.Inner d g.literals.length
  closed : ∀ m ∈ finished, m.Closed
  opened : ∀ m ∈ current, localTargets m.body ⊆ labels m.body ++ g.pending
  loops : ∀ m ∈ current, ∀ b ∈ g.blocks, b.loop = true → .loop b.index ∈ labels m.body
  blocks : current = none → g.blocks = []
  raw : ∀ raw ∈ g.literals, IsRaw raw

variable {d : Declarations} {g g' : Generator} {finished : List Method} {current : Option Method}

theorem layout_empty (d : Declarations) : Layout d {} [] none where
  lines := rfl
  inMethod := rfl
  inner := nofun
  closed := nofun
  opened := nofun
  loops := nofun
  blocks _ := rfl
  raw := nofun

theorem Layout.current_eq_none (h : Layout d g finished current) (hin : g.inMethod = false) : current = none := by
  have hcurrent := h.inMethod
  rw [hin] at hcurrent
  simpa using hcurrent

theorem layout_startMethod (h : Layout d g finished none) (name : Bytes) :
    Layout d (g.startMethod name) finished (some ⟨name, []⟩) where
  lines := by
    have hlines := h.lines
    simp only [Option.toList_none, List.flatMap_nil, List.append_nil] at hlines
    simp [startMethod, emit, hlines, Method.head]
  inMethod := rfl
  inner := by
    intro m hm l hl
    rcases List.mem_append.mp hm with hm | hm
    · exact h.inner m (List.mem_append_left _ hm) l hl
    · obtain rfl := List.mem_singleton.mp hm
      cases hl
  closed := h.closed
  opened := by
    rintro m ⟨⟩
    exact nofun
  loops := by
    rintro m ⟨⟩ b hb
    have hblocks : (g.startMethod name).blocks = [] := h.blocks rfl
    rw [hblocks] at hb
    cases hb
  blocks := nofun
  raw := h.raw

/-- The loops at work have their labels in the method, also after more code. -/
theorem Layout.loop_mem {m : Method} (h : Layout d g finished (some m)) (code : List Line) {b : Block}
    (hb : b ∈ g.blocks) (hloop : b.loop = true) : .loop b.index ∈ labels (m.body ++ code) := by
  rw [labels_append]
  exact List.mem_append_left _ (h.loops m rfl b hb hloop)

/-- Code that stays in the method at work. What is left to show is about its own branches, and that the ends of
blocks that are no longer awaited stand in it. -/
theorem layout_emits {t : Token} {m : Method} {code : List Line} (h : Layout d g finished (some m))
    (e : Emits d t g g' code) (hin : g'.inMethod = g.inMethod) (hpending : g.pending ⊆ labels code ++ g'.pending)
    (htargets : localTargets code ⊆ labels (m.body ++ code) ++ g'.pending)
    (hloops : ∀ b ∈ g'.blocks, b.loop = true → .loop b.index ∈ labels (m.body ++ code)) :
    Layout d g' finished (some ⟨m.name, m.body ++ code⟩) where
  lines := by
    have hlines := h.lines
    simp only [Option.toList_some, List.flatMap_singleton] at hlines
    simp [e.lines, hlines, Method.head]
  inMethod := by rw [hin, h.inMethod]; rfl
  inner := by
    obtain ⟨new, hnew, -⟩ := e.literals
    have hle : g.literals.length ≤ g'.literals.length := by simp [hnew]
    intro k hk l hl
    rcases List.mem_append.mp hk with hk | hk
    · exact (h.inner k (List.mem_append_left _ hk) l hl).mono hle
    · obtain rfl := List.mem_singleton.mp hk
      rcases List.mem_append.mp hl with hl | hl
      · exact (h.inner m (by simp) l hl).mono hle
      · exact e.inner l hl
  closed := h.closed
  opened := by
    rintro k ⟨⟩
    -- a branch from before goes to a label from before, or to an end that was awaited then
    have hbefore : localTargets m.body ⊆ labels (m.body ++ code) ++ g'.pending := by
      rw [labels_append, List.append_assoc]
      exact List.Subset.trans (h.opened m rfl) (List.append_subset.mpr ⟨List.subset_append_left _ _,
        List.Subset.trans hpending (List.subset_append_right _ _)⟩)
    rw [localTargets_append]
    exact List.append_subset.mpr ⟨hbefore, htargets⟩
  loops := by
    rintro k ⟨⟩
    exact hloops
  blocks := nofun
  raw := by
    obtain ⟨new, hnew, hraw⟩ := e.literals
    rw [hnew]
    exact List.forall_mem_append.mpr ⟨hraw, h.raw⟩

/-- The last `ret` finishes the method at work, in which no block is open. -/
theorem layout_finished {t : Token} {m : Method} (h : Layout d g finished (some m))
    (e : Emits d t g g' [.code .ret []]) (hbefore : g.blocks = []) (hblocks : g'.blocks = [])
    (hin : g'.inMethod = false) : Layout d g' (finished ++ [m]) none where
  lines := by
    have hlines := h.lines
    simp only [Option.toList_some, List.flatMap_singleton] at hlines
    simp [e.lines, hlines, Method.lines]
  inMethod := hin
  inner := by
    obtain ⟨new, hnew, -⟩ := e.literals
    have hle : g.literals.length ≤ g'.literals.length := by simp [hnew]
    intro k hk l hl
    exact (h.inner k (by simpa using hk) l hl).mono hle
  closed := by
    have hopened := h.opened m rfl
    refine List.forall_mem_append.mpr ⟨h.closed, List.forall_mem_singleton.mpr ?_⟩
    simpa [Method.Closed, pending, hbefore] using hopened
  opened := nofun
  loops := nofun
  blocks _ := hblocks
  raw := by
    obtain ⟨new, hnew, hraw⟩ := e.literals
    rw [hnew]
    exact List.forall_mem_append.mpr ⟨hraw, h.raw⟩

/-- A statement goes on with the method at work or finishes it. -/
theorem layout_of_grows {t : Token} {m : Method} (h : Layout d g finished (some m)) (hg : Grows d t g g') :
    (∃ body, Layout d g' finished (some ⟨m.name, body⟩)) ∨ Layout d g' (finished ++ [m]) none := by
  have hkept {code : List Line} (hpending : g'.pending = g.pending) : g.pending ⊆ labels code ++ g'.pending := by
    rw [hpending]
    exact List.subset_append_right _ _
  cases hg with
  | straight code e hlabels htargets hblocks hl hc hin =>
    refine Or.inl ⟨_, layout_emits h e hin (hkept (by rw [pending, hblocks]; rfl)) ?_ ?_⟩
    · rw [htargets]
      exact List.nil_subset _
    · rw [hblocks]
      exact fun b hb => h.loop_mem code hb
  | compared code e hlabels htargets hblocks hl hc hin =>
    refine Or.inl ⟨_, layout_emits h e hin (hkept (by rw [pending, hblocks]; rfl)) ?_ ?_⟩
    · -- both branches of a comparison go to its own labels
      rw [htargets, ← hlabels, labels_append, List.append_assoc]
      exact List.Subset.trans (List.subset_append_left _ _) (List.subset_append_right _ _)
    · rw [hblocks]
      exact fun b hb => h.loop_mem code hb
  | started loop code e hlabels htargets hblocks hl hc hin =>
    refine Or.inl ⟨_, layout_emits h e hin (hkept (by simp [pending, hblocks])) ?_ ?_⟩
    · rw [htargets]
      exact List.nil_subset _
    · rw [hblocks]
      refine List.forall_mem_cons.mpr ⟨fun hloop => ?_, fun b hb => h.loop_mem code hb⟩
      rw [labels_append, hlabels, if_pos hloop]
      simp
  | opened b outer code e hlabels htargets hbefore hblocks hl hc hin =>
    have hpending : g'.pending = .blockEnd b.index :: (outer.filter (·.opened)).map fun b => .blockEnd b.index := by
      simp [pending, hblocks]
    refine Or.inl ⟨_, layout_emits h e hin ?_ ?_ ?_⟩
    · -- the end of the block is awaited from here on
      rw [hlabels, hpending, pending, hbefore, List.filter_cons]
      split
      · exact List.Subset.refl _
      · exact List.subset_cons_self _ _
    · rw [htargets, hpending]
      simp
    · rw [hblocks]
      exact List.forall_mem_cons.mpr ⟨fun hloop => h.loop_mem code (b := b) (by simp [hbefore]) hloop,
        fun b' hb' => h.loop_mem code (by simp [hbefore, hb'])⟩
  | closed b outer code e hlabels htargets hbefore hblocks hl hc hin =>
    refine Or.inl ⟨_, layout_emits h e hin ?_ ?_ ?_⟩
    · -- the end of the block is defined here, and awaited no longer
      rw [hlabels, pending, pending, hblocks, hbefore, List.filter_cons]
      split
      · exact List.Subset.refl _
      · exact List.subset_cons_self _ _
    · rw [htargets]
      split
      next hloop =>
        have hmem := h.loop_mem code (b := b) (by simp [hbefore]) hloop
        exact List.cons_subset.mpr ⟨List.mem_append_left _ hmem, List.nil_subset _⟩
      · exact List.nil_subset _
    · rw [hblocks]
      exact fun b' hb' => h.loop_mem code (by simp [hbefore, hb'])
  | finished e hbefore hblocks hl hc hin => exact Or.inr (layout_finished h e hbefore hblocks hin)

/-- The names of the methods begun so far. -/
def begun (finished : List Method) (current : Option Method) : List Bytes :=
  (finished ++ current.toList).map Method.name

/-- Reading sentences finishes more methods, in the order in which the sentences name them. -/
theorem layout_of_writes {ss : List Sentence} (hd : d.Sound) (hw : Writes d g ss g')
    (h : Layout d g finished current) :
    ∃ more current', Layout d g' (finished ++ more) current' ∧
      begun (finished ++ more) current' = begun finished current ++ ss.filterMap Sentence.methodName? := by
  induction hw generalizing finished current with
  | nil => exact ⟨[], current, by simpa using h, by simp⟩
  | @method g g' name brace ss outside _ _ ih =>
    obtain rfl := h.current_eq_none outside
    obtain ⟨more, current', hlayout, hnames⟩ := ih (layout_startMethod h name.text)
    refine ⟨more, current', hlayout, ?_⟩
    rw [hnames]
    simp [begun, Sentence.methodName?]
  | definition _ ih =>
    obtain ⟨more, current', hlayout, hnames⟩ := ih h
    exact ⟨more, current', hlayout, hnames⟩
  | statement sound inside step _ ih =>
    -- a statement stands in a method, which it goes on with or finishes
    have hin := h.inMethod
    rw [inside] at hin
    obtain ⟨m, rfl⟩ := Option.isSome_iff_exists.mp hin.symm
    rcases layout_of_grows h (grows_of_statement hd sound step) with ⟨body, hnext⟩ | hnext
    · obtain ⟨more, current', hlayout, hnames⟩ := ih hnext
      refine ⟨more, current', hlayout, ?_⟩
      rw [hnames, List.filterMap_cons_none rfl]
      simp [begun]
    · obtain ⟨more, current', hlayout, hnames⟩ := ih hnext
      refine ⟨m :: more, current', by simpa using hlayout, ?_⟩
      rw [List.append_cons, hnames, List.filterMap_cons_none rfl]
      simp [begun]

/-! ## Fresh labels -/

/-- The labels inside methods that lines define. -/
def localLabels (ls : List Line) : List Label := (labels ls).filter Label.isLocal

/-- A label inside a method that may have been defined: the counters are past it, and its block is not
open. -/
def Used (g : Generator) : Label → Prop
  | .holds n | .join n => n < g.comparisons
  | .loop n => n < g.loops
  | .blockEnd n => n < g.loops ∧ n ∉ g.blocks.map Block.index
  | _ => False

/-- Labels inside methods are defined once, and all of them are used up. -/
structure Fresh (g : Generator) : Prop where
  nodup : (localLabels g.lines).Nodup
  used : ∀ l ∈ localLabels g.lines, g.Used l
  indices : (g.blocks.map Block.index).Nodup
  bound : ∀ b ∈ g.blocks, b.index < g.loops

theorem fresh_empty : Fresh {} := ⟨List.nodup_nil, nofun, List.nodup_nil, nofun⟩

theorem localLabels_emits (code ls : List Line) :
    localLabels (code.reverse ++ ls) = (localLabels code).reverse ++ localLabels ls := by
  simp [localLabels, labels, List.filterMap_reverse, List.filter_reverse]

/-- New labels that were not used keep labels fresh. -/
theorem fresh_emits {code : List Line} (h : Fresh g) (hlines : g'.lines = code.reverse ++ g.lines)
    (hnodup : (localLabels code).Nodup) (hnew : ∀ l ∈ localLabels code, ¬g.Used l ∧ g'.Used l)
    (hmono : ∀ l, g.Used l → g'.Used l) (hindices : (g'.blocks.map Block.index).Nodup)
    (hbound : ∀ b ∈ g'.blocks, b.index < g'.loops) : Fresh g' where
  nodup := by
    rw [hlines, localLabels_emits]
    refine List.nodup_append.mpr ⟨List.nodup_reverse.mpr hnodup, h.nodup, ?_⟩
    rintro l hl k hk rfl
    exact (hnew l (List.mem_reverse.mp hl)).1 (h.used l hk)
  used := by
    rw [hlines, localLabels_emits]
    intro l hl
    rcases List.mem_append.mp hl with hl | hl
    · exact (hnew l (List.mem_reverse.mp hl)).2
    · exact hmono l (h.used l hl)
  indices := hindices
  bound := hbound

/-- More labels are used after a statement than before it. -/
theorem used_mono {l : Label} (hc : g.comparisons ≤ g'.comparisons) (hl : g.loops ≤ g'.loops)
    (hblocks : ∀ n, n < g.loops → n ∉ g.blocks.map Block.index → n ∉ g'.blocks.map Block.index)
    (h : g.Used l) : g'.Used l := by
  cases l with
  | holds n => exact Nat.lt_of_lt_of_le h hc
  | join n => exact Nat.lt_of_lt_of_le h hc
  | loop n => exact Nat.lt_of_lt_of_le h hl
  | blockEnd n => exact ⟨Nat.lt_of_lt_of_le h.1 hl, hblocks n h.1 h.2⟩
  | _ => exact h

/-- New labels of comparisons keep labels fresh while the same blocks are open. -/
theorem fresh_same_blocks {code : List Line} (h : Fresh g) (hlines : g'.lines = code.reverse ++ g.lines)
    (hnodup : (localLabels code).Nodup) (hnew : ∀ l ∈ localLabels code, ¬g.Used l ∧ g'.Used l)
    (hc : g.comparisons ≤ g'.comparisons) (hl : g'.loops = g.loops)
    (hindices : g'.blocks.map Block.index = g.blocks.map Block.index) : Fresh g' := by
  refine fresh_emits h hlines hnodup hnew (fun l => used_mono hc hl.ge ?_) ?_ fun b hb => ?_
  · rw [hindices]
    exact fun _ _ hn => hn
  · rw [hindices]
    exact h.indices
  · have hmem := List.mem_map_of_mem (f := Block.index) hb
    rw [hindices] at hmem
    obtain ⟨b', hb', hindex⟩ := List.mem_map.mp hmem
    rw [← hindex, hl]
    exact h.bound b' hb'

/-- A block that starts has an index of its own. -/
theorem fresh_started {loop : Bool} {code : List Line} (h : Fresh g) (hlines : g'.lines = code.reverse ++ g.lines)
    (hnew : localLabels code = if loop then [.loop g.loops] else [])
    (hblocks : g'.blocks = ⟨loop, g.loops, false⟩ :: g.blocks) (hl : g'.loops = g.loops + 1)
    (hc : g'.comparisons = g.comparisons) : Fresh g' := by
  have hfresh : g.loops ∉ g.blocks.map Block.index := by
    intro hmem
    obtain ⟨b, hb, heq⟩ := List.mem_map.mp hmem
    exact absurd (h.bound b hb) (by omega)
  refine fresh_emits h hlines ?_ ?_ (fun l => used_mono hc.ge (by omega) ?_) ?_ ?_
  · rw [hnew]
    cases loop <;> simp
  · rw [hnew]
    cases loop <;> simp [Used, hl]
  · intro n hn hnot
    rw [hblocks, List.map_cons, List.mem_cons, not_or]
    exact ⟨fun heq => absurd heq (Nat.ne_of_lt hn), hnot⟩
  · rw [hblocks]
    exact List.nodup_cons.mpr ⟨hfresh, h.indices⟩
  · rw [hblocks, hl]
    refine List.forall_mem_cons.mpr ⟨Nat.lt_succ_self _, fun b hb => ?_⟩
    exact Nat.lt_succ_of_lt (h.bound b hb)

/-- The end of a block is no label while the block is open, and is used once it is closed. -/
theorem fresh_closed {b : Block} {outer : List Block} {code : List Line} (h : Fresh g)
    (hlines : g'.lines = code.reverse ++ g.lines) (hnew : localLabels code = [.blockEnd b.index])
    (hbefore : g.blocks = b :: outer) (hblocks : g'.blocks = outer) (hl : g'.loops = g.loops)
    (hc : g'.comparisons = g.comparisons) : Fresh g' := by
  have hindices := h.indices
  have hbound := h.bound
  rw [hbefore] at hbound hindices
  obtain ⟨hnot, hnodup⟩ := List.nodup_cons.mp hindices
  refine fresh_emits h hlines (by simp [hnew]) ?_ (fun l => used_mono hc.ge hl.ge ?_) ?_ ?_
  · rw [hnew, List.forall_mem_singleton]
    refine ⟨fun hused => hused.2 (by simp [hbefore]), ?_, ?_⟩
    · rw [hl]
      exact hbound b List.mem_cons_self
    · rw [hblocks]
      exact hnot
  · rw [hblocks, hbefore]
    exact fun n _ hn hmem => hn (List.mem_cons_of_mem _ hmem)
  · rw [hblocks]
    exact hnodup
  · rw [hblocks, hl]
    exact fun b' hb' => hbound b' (List.mem_cons_of_mem b hb')

theorem fresh_of_grows {t : Token} (h : Fresh g) (hg : Grows d t g g') : Fresh g' := by
  have hlocal {code : List Line} {ls : List Label} (hlabels : labels code = ls)
      (hls : ls.all Label.isLocal = true) : localLabels code = ls := by
    rw [localLabels, hlabels]
    exact List.filter_eq_self.mpr (List.all_eq_true.mp hls)
  cases hg with
  | straight code e hlabels htargets hblocks hl hc hin =>
    have hnew := hlocal hlabels rfl
    exact fresh_same_blocks h e.lines (by simp [hnew]) (by simp [hnew]) hc.ge hl (by rw [hblocks])
  | compared code e hlabels htargets hblocks hl hc hin =>
    have hnew := hlocal hlabels rfl
    refine fresh_same_blocks h e.lines (by simp [hnew]) ?_ (by omega) hl (by rw [hblocks])
    rw [hnew]
    simp [Used, hc]
  | started loop code e hlabels htargets hblocks hl hc hin =>
    exact fresh_started h e.lines (hlocal hlabels (by cases loop <;> rfl)) hblocks hl hc
  | opened b outer code e hlabels htargets hbefore hblocks hl hc hin =>
    have hnew := hlocal hlabels rfl
    exact fresh_same_blocks h e.lines (by simp [hnew]) (by simp [hnew]) hc.ge hl (by simp [hblocks, hbefore])
  | closed b outer code e hlabels htargets hbefore hblocks hl hc hin =>
    exact fresh_closed h e.lines (hlocal hlabels rfl) hbefore hblocks hl hc
  | finished e hbefore hblocks hl hc hin =>
    exact fresh_same_blocks h e.lines List.nodup_nil (List.forall_mem_nil _) hc.ge hl (by rw [hblocks, hbefore])

theorem fresh_of_writes {ss : List Sentence} (hd : d.Sound) (hw : Writes d g ss g') (h : Fresh g) : Fresh g' := by
  induction hw with
  | nil => exact h
  | method _ _ _ ih => exact ih ⟨h.nodup, h.used, h.indices, h.bound⟩
  | definition _ ih => exact ih h
  | statement sound _ step _ ih => exact ih (fresh_of_grows h (grows_of_statement hd sound step))

/-- All lines fit if and only if no word of a method body names an address that is too large. -/
theorem fits_of_writes {ss : List Sentence} (hd : d.Sound) (hw : Writes d g ss g') :
    (∀ l ∈ g'.lines, l.fits = true) ↔
      (∀ l ∈ g.lines, l.fits = true) ∧ ∀ t ∈ ss.filterMap Sentence.statement?, t.Addressed d := by
  have hemits {t : Token} {g g' : Generator} (hg : Grows d t g g') :
      (∀ l ∈ g'.lines, l.fits = true) ↔ t.Addressed d ∧ ∀ l ∈ g.lines, l.fits = true := by
    obtain ⟨code, e⟩ := hg.emits
    rw [e.lines, List.forall_mem_append, ← e.fits]
    simp only [List.mem_reverse]
  induction hw with
  | nil => simp
  | method _ _ _ ih =>
    refine ih.trans ?_
    rw [List.filterMap_cons_none rfl]
    simp [startMethod, emit, Line.fits]
  | definition _ ih =>
    rw [List.filterMap_cons_none rfl]
    exact ih
  | @statement g next g' t ss sound _ step _ ih =>
    have hcons : (Sentence.statement t :: ss).filterMap Sentence.statement? =
      t :: ss.filterMap Sentence.statement? := rfl
    refine ih.trans ?_
    rw [hemits (grows_of_statement hd sound step), hcons, List.forall_mem_cons]
    tauto

end Generator

/-! ## Whole programs -/

/-- The code of a program lies between the header and the trailer, method by method, in the order in
which the methods were declared. -/
structure Compiled.Arranged (c : Compiled) (ms : List Method) : Prop where
  sound : c.declarations.Sound
  main : bytes "main" ∈ c.declarations.methods
  lines : c.lines = header ++ ms.flatMap Method.lines ++ trailer c.literals c.declarations.strings.reverse
  names : ms.map Method.name = c.declarations.methods.reverse
  inner : ∀ m ∈ ms, ∀ l ∈ m.body, l.Inner c.declarations c.literals.length
  closed : ∀ m ∈ ms, m.Closed
  nodup : (Generator.localLabels (ms.flatMap Method.lines)).Nodup
  raw : ∀ raw ∈ c.literals, IsRaw raw

/-- Generated code comes from a generator that has read all sentences and is in no method. -/
theorem writes_of_generate {ts : List Token} {c : Compiled} (hts : ∀ t ∈ ts, t.Sound)
    (h : generate ts = .ok c) :
    ∃ g, declare ts = .ok c.declarations ∧ Generator.Writes c.declarations {} (sentences ts) g ∧
      g.inMethod = false ∧ c.literals = g.literals.reverse ∧
      c.lines = header ++ g.lines.reverse ++ trailer c.literals c.declarations.strings.reverse := by
  unfold generate at h
  split at h
  · cases h
  next d hd =>
    split at h
    · cases h
    next g hg =>
      have hw := Generator.writes_of_tokens hts hg
      split at h
      · cases h
      next hlast =>
        cases h
        refine ⟨g, hd, hw, ?_, rfl, rfl⟩
        cases ts with
        | nil =>
          cases hw
          rfl
        | cons t rest =>
          cases hin : g.inMethod with
          | false => rfl
          | true =>
            obtain ⟨last, heq⟩ := Option.isSome_iff_exists.mp (List.getLast?_isSome.mpr (List.cons_ne_nil t rest))
            exact absurd heq (hlast last hin)

/-- A layout of all that was read arranges the program. -/
theorem Compiled.arranged_of_layout {ts : List Token} {c : Compiled} {g : Generator} {ms : List Method}
    (hts : ∀ t ∈ ts, t.Sound) (hd : declare ts = .ok c.declarations)
    (hw : Generator.Writes c.declarations {} (sentences ts) g) (hliterals : c.literals = g.literals.reverse)
    (hlines : c.lines = header ++ g.lines.reverse ++ trailer c.literals c.declarations.strings.reverse)
    (hlayout : Generator.Layout c.declarations g ms none)
    (hnames : Generator.begun ms none = (sentences ts).filterMap Sentence.methodName?) : c.Arranged ms := by
  obtain ⟨hsound, hmain⟩ := sound_of_declare hts hd
  have hcode : g.lines.reverse = ms.flatMap Method.lines := by simpa using hlayout.lines
  have hlength : c.literals.length = g.literals.length := by rw [hliterals, List.length_reverse]
  refine { sound := hsound, main := hmain, lines := by rw [hlines, hcode], names := ?_, inner := ?_,
           closed := hlayout.closed, nodup := ?_, raw := ?_ }
  · rw [(reads_of_declare hts hw.proper hd).methods, ← hnames]
    simp [Generator.begun]
  · rw [hlength]
    exact fun m hm => hlayout.inner m (by simpa using hm)
  · rw [← hcode]
    have hfresh := (Generator.fresh_of_writes hsound hw Generator.fresh_empty).nodup
    simpa [Generator.localLabels, labels, List.filterMap_reverse, List.filter_reverse] using hfresh
  · rw [hliterals]
    exact fun raw hraw => hlayout.raw raw (List.mem_reverse.mp hraw)

theorem Compiled.arranged_of_generate {ts : List Token} {c : Compiled} (hts : ∀ t ∈ ts, t.Sound)
    (h : generate ts = .ok c) : ∃ ms, c.Arranged ms := by
  obtain ⟨g, hd, hw, hin, hliterals, hlines⟩ := writes_of_generate hts h
  have hsound := (sound_of_declare hts hd).1
  obtain ⟨ms, current, hlayout, hnames⟩ :=
    Generator.layout_of_writes hsound hw (Generator.layout_empty c.declarations)
  obtain rfl := hlayout.current_eq_none hin
  exact ⟨ms, arranged_of_layout hts hd hw hliterals hlines hlayout hnames⟩

end WordMachine.Source
