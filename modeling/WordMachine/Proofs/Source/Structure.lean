import Mathlib
import WordMachine.Proofs.Source.Layout

/-!
# `Proofs.Source.Structure` — blocks and methods of a text

The sentences of an accepted text nest: each `if` or `while` has a condition, a brace, a body and the brace
that matches it, where conditions and bodies may hold blocks of their own, and each method is a head, a body
and a brace. The generator keeps a stack of open blocks; that the stack is the same after a balanced part of
the text as before it is what ties the code of a brace to the brace it matches.

Contents:
* `Sentence.role`: the part that a sentence plays;
* `Generator.Writes.start`, `opens`, `closes`, `step`: what a sentence of each role does to open blocks;
* `Balanced`, `Clause`, `Routine`, `Structured`: parts of a text whose braces match;
* `Clause.writes_inv`, `Balanced.keeps`: the generator across a block and across balanced sentences;
* `balanced_of_writes`, `structured_of_writes`: accepted texts are structured;
* `Belongs`, `Structured.belongs`: every keyword and brace belongs to a block or a method.
-/

namespace WordMachine.Source

/-! ## Roles -/

/-- The role of a sentence. -/
def Sentence.role : Sentence → Role
  | .method .. => .head
  | .definition .. => .step
  | .statement t => if t.kind = .word then .ofWord t.text else .step

/-- A sentence of a role other than a step or a head is a word. -/
theorem Sentence.word_of_role {s : Sentence} (hstep : s.role ≠ .step) (hhead : s.role ≠ .head) :
    ∃ t, s = .statement t ∧ t.kind = .word ∧ Role.ofWord t.text = s.role := by
  cases s with
  | method name brace => exact absurd rfl hhead
  | definition keyword value const name => exact absurd rfl hstep
  | statement t =>
    by_cases hk : t.kind = .word
    · exact ⟨t, rfl, hk, by simp [role, hk]⟩
    · exact absurd (by simp [role, hk]) hstep

theorem Role.of_ofWord_start {w : Bytes} {loop : Bool} (h : ofWord w = .start loop) :
    w = if loop then bytes "while" else bytes "if" := by
  unfold ofWord at h
  split at h
  next hw =>
    cases h
    exact hw
  · split at h
    next hw =>
      cases h
      exact hw
    · split at h
      · cases h
      · split at h <;> cases h

theorem Role.of_ofWord_opens {w : Bytes} (h : ofWord w = .opens) : w = bytes "\x7b" := by
  unfold ofWord at h
  split at h
  · cases h
  · split at h
    · cases h
    · split at h
      next hw => exact hw
      · split at h <;> cases h

theorem Role.of_ofWord_closes {w : Bytes} (h : ofWord w = .closes) : w = bytes "\x7d" := by
  unfold ofWord at h
  split at h
  · cases h
  · split at h
    · cases h
    · split at h
      · cases h
      · split at h
        next hw => exact hw
        · cases h

/-! ## Sentences and open blocks -/

namespace Generator

variable {d : Declarations} {g g' : Generator} {s : Sentence} {ss : List Sentence}

theorem Writes.cons_inv (h : Writes d g (s :: ss) g') : ∃ mid, Writes d g [s] mid ∧ Writes d mid ss g' :=
  Writes.append_inv (show Writes d g ([s] ++ ss) g' from h)

/-- A word is written inside a method. -/
theorem Writes.word {t : Token} (hk : t.kind = .word) (h : Writes d g [.statement t] g') :
    g.inMethod = true ∧ g.word d t.text = .ok g' := by
  cases h with
  | statement sound inside step rest =>
    cases rest
    unfold Generator.statement at step
    rw [hk] at step
    exact ⟨inside, step⟩

theorem Writes.start {loop : Bool} (hs : s.role = .start loop) (h : Writes d g [s] g') :
    g.inMethod = true ∧ g' = g.startBlock loop := by
  obtain ⟨t, rfl, hk, hrole⟩ := Sentence.word_of_role (s := s) (by simp [hs]) (by simp [hs])
  obtain ⟨hin, hword⟩ := h.word hk
  refine ⟨hin, ?_⟩
  rw [Role.of_ofWord_start (hrole.trans hs)] at hword
  cases loop with
  | false => exact (Except.ok.inj hword).symm
  | true => exact (Except.ok.inj hword).symm

theorem Writes.opens (hs : s.role = .opens) (h : Writes d g [s] g') : g.openBlock = .ok g' := by
  obtain ⟨t, rfl, hk, hrole⟩ := Sentence.word_of_role (s := s) (by simp [hs]) (by simp [hs])
  obtain ⟨-, hword⟩ := h.word hk
  rw [Role.of_ofWord_opens (hrole.trans hs)] at hword
  exact hword

theorem Writes.closes (hs : s.role = .closes) (h : Writes d g [s] g') : g.close = .ok g' := by
  obtain ⟨t, rfl, hk, hrole⟩ := Sentence.word_of_role (s := s) (by simp [hs]) (by simp [hs])
  obtain ⟨-, hword⟩ := h.word hk
  rw [Role.of_ofWord_closes (hrole.trans hs)] at hword
  exact hword

/-- A word that is neither a keyword nor a brace leaves open blocks as they are. -/
theorem word_step {w : Bytes} (hrole : Role.ofWord w = .step) (h : g.word d w = .ok g') :
    g'.blocks = g.blocks ∧ g'.inMethod = g.inMethod := by
  cases handles_of_word h with
  | snippet _ step =>
    obtain ⟨depth, -, rfl⟩ := snippet_eq step
    exact ⟨rfl, rfl⟩
  | comparison _ step =>
    obtain ⟨depth, -, rfl⟩ := comparison_eq step
    exact ⟨rfl, rfl⟩
  | negation step =>
    obtain ⟨depth, -, rfl⟩ := negation_eq step
    exact ⟨rfl, rfl⟩
  | starts _ role => cases role.symm.trans hrole
  | opens role => cases role.symm.trans hrole
  | closes role => cases role.symm.trans hrole
  | defined step =>
    rcases defined_eq step with ⟨op, arg, -, -, rfl⟩ | ⟨-, rfl⟩
    · exact ⟨rfl, rfl⟩
    · exact ⟨rfl, rfl⟩

theorem Writes.step (hs : s.role = .step) (h : Writes d g [s] g') :
    g'.blocks = g.blocks ∧ g'.inMethod = g.inMethod := by
  cases h with
  | method => cases hs
  | definition rest =>
    cases rest
    exact ⟨rfl, rfl⟩
  | @statement _ next _ t _ sound inside step rest =>
    cases rest
    rcases statement_cases sound step with ⟨-, op, arg, literals, -, -, rfl⟩ | ⟨hk, hword⟩
    · exact ⟨rfl, rfl⟩
    · exact word_step (by simpa [Sentence.role, hk] using hs) hword

end Generator

/-! ## Balanced sentences -/

/-- Sentences in which every block is closed. -/
inductive Balanced : List Sentence → Prop where
  | nil : Balanced []
  | step {s : Sentence} {ss : List Sentence} (role : s.role = .step) (rest : Balanced ss) : Balanced (s :: ss)
  | block {loop : Bool} {keyword opening closing : Sentence} {condition body rest : List Sentence}
      (keyword_role : keyword.role = .start loop) (opening_role : opening.role = .opens)
      (closing_role : closing.role = .closes) (condition_balanced : Balanced condition)
      (body_balanced : Balanced body) (rest_balanced : Balanced rest) :
      Balanced (keyword :: (condition ++ opening :: (body ++ closing :: rest)))

/-- An `if` or a `while` with its condition, its body and its two braces, which match: what is between them
is balanced. -/
structure Clause where
  loop : Bool
  keyword : Sentence
  condition : List Sentence
  opening : Sentence
  body : List Sentence
  closing : Sentence
  keyword_role : keyword.role = .start loop
  opening_role : opening.role = .opens
  closing_role : closing.role = .closes
  condition_balanced : Balanced condition
  body_balanced : Balanced body

/-- A method with its body and its last brace. -/
structure Routine where
  name : Token
  brace : Token
  body : List Sentence
  closing : Sentence
  closing_role : closing.role = .closes
  body_balanced : Balanced body

namespace Clause

/-- The sentences up to the condition. -/
def upToCondition (b : Clause) : List Sentence := b.keyword :: b.condition

/-- The sentences up to the brace that opens the block. -/
def upToOpening (b : Clause) : List Sentence := b.upToCondition ++ [b.opening]

/-- The sentences up to the body. -/
def upToBody (b : Clause) : List Sentence := b.upToOpening ++ b.body

/-- All sentences of a block. -/
def sentences (b : Clause) : List Sentence := b.upToBody ++ [b.closing]

end Clause

namespace Routine

/-- The head of a method. -/
def head (m : Routine) : Sentence := .method m.name m.brace

/-- The sentences up to the body. -/
def upToBody (m : Routine) : List Sentence := m.head :: m.body

/-- All sentences of a method. -/
def sentences (m : Routine) : List Sentence := m.upToBody ++ [m.closing]

end Routine

/-- Texts that consist of definitions and whole methods. -/
inductive Structured : List Sentence → Prop where
  | nil : Structured []
  | definition {keyword value const name : Token} {ss : List Sentence} (rest : Structured ss) :
      Structured (.definition keyword value const name :: ss)
  | method {ss : List Sentence} (m : Routine) (rest : Structured ss) : Structured (m.sentences ++ ss)

/-! ## Generating balanced sentences -/

section

variable {d : Declarations} {g g' : Generator} {ss : List Sentence}

open Generator

/-- Across a block, given that its condition and its body leave open blocks as they are: the branch at the
opening brace and the code at the closing one carry the index that the keyword drew. -/
theorem Clause.writes_of_keeps (b : Clause)
    (hcondition : ∀ {g g' : Generator}, Writes d g b.condition g' →
      g'.blocks = g.blocks ∧ g'.inMethod = g.inMethod)
    (hbody : ∀ {g g' : Generator}, Writes d g b.body g' → g'.blocks = g.blocks ∧ g'.inMethod = g.inMethod)
    (hw : Writes d g b.sentences g') :
    ∃ before inner last, Writes d g b.upToCondition before ∧ Writes d g b.upToOpening inner ∧
      Writes d g b.upToBody last ∧ Writes d g [b.keyword] (g.startBlock b.loop) ∧
      inner.lines = (openLines g.loops).reverse ++ before.lines ∧
      g'.lines = (closeLines ⟨b.loop, g.loops, true⟩).reverse ++ last.lines ∧
      g'.blocks = g.blocks ∧ g'.inMethod = g.inMethod := by
  obtain ⟨last, hlast, hclosing⟩ := Writes.append_inv hw
  obtain ⟨inner, hinner, hbodyWrites⟩ := Writes.append_inv hlast
  obtain ⟨before, hbefore, hopening⟩ := Writes.append_inv hinner
  obtain ⟨started, hkeyword, hconditionWrites⟩ := Writes.cons_inv hbefore
  obtain ⟨hin, rfl⟩ := hkeyword.start b.keyword_role
  -- the keyword puts a block on the stack, and both braces find that block on top
  obtain ⟨hblocks, hinside⟩ := hcondition hconditionWrites
  obtain ⟨top, outer, depth, htop, -, rfl⟩ := openBlock_eq (hopening.opens b.opening_role)
  have hstarted : (g.startBlock b.loop).blocks = ⟨b.loop, g.loops, false⟩ :: g.blocks := by
    cases b.loop <;> rfl
  obtain ⟨rfl, rfl⟩ : top = ⟨b.loop, g.loops, false⟩ ∧ outer = g.blocks := by
    rw [hblocks, hstarted] at htop
    exact ⟨(List.cons.inj htop).1.symm, (List.cons.inj htop).2.symm⟩
  obtain ⟨hblocks', hinside'⟩ := hbody hbodyWrites
  rcases close_eq (hclosing.closes b.closing_role) with ⟨hnone, -⟩ | ⟨top, outer, htop', -, rfl⟩
  · rw [hblocks'] at hnone
    cases hnone
  · obtain ⟨rfl, rfl⟩ := List.cons.inj (hblocks'.symm.trans htop')
    refine ⟨before, _, last, hbefore, hinner, hlast, hkeyword, rfl, rfl, rfl, ?_⟩
    have hstart : (g.startBlock b.loop).inMethod = g.inMethod := by
      cases b.loop <;> rfl
    exact hinside'.trans (hinside.trans hstart)

/-- Balanced sentences leave open blocks as they are. -/
theorem Balanced.keeps (h : Balanced ss) (hw : Writes d g ss g') :
    g'.blocks = g.blocks ∧ g'.inMethod = g.inMethod := by
  induction h generalizing g g' with
  | nil =>
    cases hw
    exact ⟨rfl, rfl⟩
  | step role _ ih =>
    obtain ⟨mid, hfirst, hrest⟩ := hw.cons_inv
    obtain ⟨hblocks, hin⟩ := hfirst.step role
    obtain ⟨hblocks', hin'⟩ := ih hrest
    exact ⟨hblocks'.trans hblocks, hin'.trans hin⟩
  | @block loop keyword opening closing condition body rest hk ho hc hcondition hbody _ ihc ihb ihr =>
    let b : Clause := ⟨loop, keyword, condition, opening, body, closing, hk, ho, hc, hcondition, hbody⟩
    have hsplit : keyword :: (condition ++ opening :: (body ++ closing :: rest)) = b.sentences ++ rest := by
      simp [b, Clause.sentences, Clause.upToBody, Clause.upToOpening, Clause.upToCondition]
    rw [hsplit] at hw
    obtain ⟨mid, hfirst, hrest⟩ := Writes.append_inv hw
    obtain ⟨_, _, _, -, -, -, -, -, -, hblocks, hin⟩ := b.writes_of_keeps ihc ihb hfirst
    obtain ⟨hblocks', hin'⟩ := ihr hrest
    exact ⟨hblocks'.trans hblocks, hin'.trans hin⟩

/-- Across a block: the branch at the opening brace and the code at the closing one carry the index that the
keyword drew. -/
theorem Clause.writes_inv (b : Clause) (hw : Writes d g b.sentences g') :
    ∃ before inner last, Writes d g b.upToCondition before ∧ Writes d g b.upToOpening inner ∧
      Writes d g b.upToBody last ∧ Writes d g [b.keyword] (g.startBlock b.loop) ∧
      inner.lines = (openLines g.loops).reverse ++ before.lines ∧
      g'.lines = (closeLines ⟨b.loop, g.loops, true⟩).reverse ++ last.lines ∧
      g'.blocks = g.blocks ∧ g'.inMethod = g.inMethod :=
  b.writes_of_keeps b.condition_balanced.keeps b.body_balanced.keeps hw

/-! ## Accepted texts are structured -/

theorem openBlock_ne_ok_of_nil (h : g.blocks = []) : g.openBlock ≠ .ok g' := by
  intro hopen
  obtain ⟨b, outer, depth, hblocks, -⟩ := openBlock_eq hopen
  rw [h] at hblocks
  cases hblocks

/-- A block is opened once. -/
theorem openBlock_ne_ok_of_opened {b : Block} {outer : List Block} (h : g.blocks = b :: outer)
    (hb : b.opened = true) : g.openBlock ≠ .ok g' := by
  intro hopen
  unfold openBlock at hopen
  rw [h] at hopen
  dsimp only at hopen
  rw [if_pos hb] at hopen
  cases hopen

/-- A block is not closed before it is opened. -/
theorem close_ne_ok_of_unopened {b : Block} {outer : List Block} (h : g.blocks = b :: outer)
    (hb : b.opened = false) : g.close ≠ .ok g' := by
  intro hclose
  rcases close_eq hclose with ⟨hblocks, -⟩ | ⟨b', outer', hblocks, hopened, -⟩
  · rw [h] at hblocks
    cases hblocks
  · rw [h] at hblocks
    rw [← (List.cons.inj hblocks).1, hb] at hopened
    cases hopened

/-- Inside a method that is finished later, sentences are balanced up to a brace that belongs to what is
open. -/
theorem balanced_of_writes (hw : Writes d g ss g') (hin : g.inMethod = true) (hout : g'.inMethod = false) :
    ∃ b s rest, ss = b ++ s :: rest ∧ Balanced b ∧ (s.role = .opens ∨ s.role = .closes) := by
  induction hlength : ss.length using Nat.strong_induction_on generalizing ss g with
  | _ n ih =>
    subst hlength
    cases ss with
    | nil =>
      cases hw
      rw [hin] at hout
      cases hout
    | cons s ss =>
      obtain ⟨next, hfirst, hrest⟩ := hw.cons_inv
      cases hrole : s.role with
      | step =>
        obtain ⟨b, s', rest, rfl, hb, hs'⟩ := ih ss.length (by simp) hrest ((hfirst.step hrole).2.trans hin) rfl
        exact ⟨s :: b, s', rest, rfl, .step hrole hb, hs'⟩
      | opens => exact ⟨[], s, ss, rfl, .nil, Or.inl hrole⟩
      | closes => exact ⟨[], s, ss, rfl, .nil, Or.inr hrole⟩
      | head =>
        cases hfirst with
        | method outside =>
          rw [hin] at outside
          cases outside
        | definition => cases hrole
        | @statement _ _ _ t =>
          simp only [Sentence.role, Role.ofWord] at hrole
          split_ifs at hrole
      | start loop =>
        -- the condition ends at a brace, which opens the block that the keyword started
        obtain ⟨-, rfl⟩ := hfirst.start hrole
        have hstarted : (g.startBlock loop).blocks = ⟨loop, g.loops, false⟩ :: g.blocks := by
          cases loop <;> rfl
        have hinside : (g.startBlock loop).inMethod = true := by
          cases loop <;> exact hin
        obtain ⟨condition, opening, rest, rfl, hcondition, hopening⟩ := ih ss.length (by simp) hrest hinside rfl
        obtain ⟨before, hbefore, hrest⟩ := Writes.append_inv hrest
        obtain ⟨inner, hbrace, hrest⟩ := hrest.cons_inv
        obtain ⟨hblocks, hin₁⟩ := hcondition.keeps hbefore
        rw [hstarted] at hblocks
        rcases hopening with hopening | hclosing
        · obtain ⟨b, outer, depth, htop, -, rfl⟩ := openBlock_eq (hbrace.opens hopening)
          -- the body ends at a brace, which closes the block
          obtain ⟨body, closing, rest, rfl, hbody, hclosing⟩ :=
            ih rest.length (by simp; omega) hrest (hin₁.trans hinside) rfl
          obtain ⟨last, hlast, hrest⟩ := Writes.append_inv hrest
          obtain ⟨after, hbrace', hrest⟩ := hrest.cons_inv
          obtain ⟨hblocks', hin₂⟩ := hbody.keeps hlast
          rcases hclosing with hopening' | hclosing
          · exact absurd (hbrace'.opens hopening') (openBlock_ne_ok_of_opened hblocks' rfl)
          · rcases close_eq (hbrace'.closes hclosing) with ⟨hnone, -⟩ | ⟨b', outer', -, -, rfl⟩
            · rw [hblocks'] at hnone
              cases hnone
            · obtain ⟨more, s', rest, rfl, hmore, hs'⟩ :=
                ih rest.length (by simp; omega) hrest (hin₂.trans (hin₁.trans hinside)) rfl
              refine ⟨s :: (condition ++ opening :: (body ++ closing :: more)), s', rest, by simp, ?_, hs'⟩
              exact .block hrole hopening hclosing hcondition hbody hmore
        · exact absurd (hbrace.closes hclosing) (close_ne_ok_of_unopened hblocks rfl)

/-- A text that is read from outside of methods to outside of methods is structured. -/
theorem structured_of_writes (hw : Writes d g ss g') (hout : g.inMethod = false) (hblocks : g.blocks = [])
    (hend : g'.inMethod = false) : Structured ss := by
  -- on the number of sentences: a method takes several of them at once
  induction hlength : ss.length using Nat.strong_induction_on generalizing ss g with
  | _ n ih =>
    subst hlength
    cases hw with
    | nil => exact .nil
    | definition rest => exact .definition (ih _ (by simp) rest hout hblocks rfl)
    | statement sound inside =>
      rw [hout] at inside
      cases inside
    | @method _ _ name brace ss outside brace_eq rest =>
      obtain ⟨body, closing, after, rfl, hbody, hclosing⟩ := balanced_of_writes rest rfl hend
      obtain ⟨last, hlast, hrest⟩ := Writes.append_inv rest
      obtain ⟨next, hbrace, hrest⟩ := hrest.cons_inv
      have hnone : last.blocks = [] := (hbody.keeps hlast).1.trans hblocks
      rcases hclosing with hopening | hclosing
      · exact absurd (hbrace.opens hopening) (openBlock_ne_ok_of_nil hnone)
      · rcases close_eq (hbrace.closes hclosing) with ⟨-, rfl⟩ | ⟨b, outer, hsome, -⟩
        · have hafter : Structured after := ih after.length (by simp; omega) hrest rfl hnone rfl
          have hmethod := Structured.method ⟨name, brace, body, closing, hclosing, hbody⟩ hafter
          simpa [Routine.sentences, Routine.upToBody, Routine.head] using hmethod
        · rw [hnone] at hsome
          cases hsome

end

/-! ## Keywords and braces -/

/-- A sentence that is no step belongs to a block or a method of the text. -/
inductive Belongs (ss before : List Sentence) (s : Sentence) : Prop where
  | keyword (b : Clause) (after : List Sentence) (text : ss = before ++ b.sentences ++ after) (eq : s = b.keyword)
  | opening (b : Clause) (outside after : List Sentence) (text : ss = outside ++ b.sentences ++ after)
      (place : before = outside ++ b.upToCondition) (eq : s = b.opening)
  | closing (b : Clause) (outside after : List Sentence) (text : ss = outside ++ b.sentences ++ after)
      (place : before = outside ++ b.upToBody) (eq : s = b.closing)
  | head (m : Routine) (after : List Sentence) (text : ss = before ++ m.sentences ++ after) (eq : s = m.head)
  | last (m : Routine) (outside after : List Sentence) (text : ss = outside ++ m.sentences ++ after)
      (place : before = outside ++ m.upToBody) (eq : s = m.closing)

theorem Belongs.widen {ss before : List Sentence} {s : Sentence} (h : Belongs ss before s)
    (xs ys : List Sentence) : Belongs (xs ++ ss ++ ys) (xs ++ before) s := by
  cases h with
  | keyword b after text eq => exact .keyword b (after ++ ys) (by simp [text]) eq
  | opening b outside after text place eq =>
    exact .opening b (xs ++ outside) (after ++ ys) (by simp [text]) (by simp [place]) eq
  | closing b outside after text place eq =>
    exact .closing b (xs ++ outside) (after ++ ys) (by simp [text]) (by simp [place]) eq
  | head m after text eq => exact .head m (after ++ ys) (by simp [text]) eq
  | last m outside after text place eq =>
    exact .last m (xs ++ outside) (after ++ ys) (by simp [text]) (by simp [place]) eq

/-- An element of two lists in a row is in one of them. -/
theorem split_of_append_eq {α : Type} {xs ys before after : List α} {x : α} (h : xs ++ ys = before ++ x :: after) :
    (∃ mid, xs = before ++ x :: mid ∧ after = mid ++ ys) ∨
      ∃ mid, before = xs ++ mid ∧ ys = mid ++ x :: after := by
  rcases List.append_eq_append_iff.mp h with ⟨mid, hbefore, hys⟩ | ⟨mid, hxs, hafter⟩
  · exact Or.inr ⟨mid, hbefore, hys⟩
  · cases mid with
    | nil => exact Or.inr ⟨[], by simpa using hxs.symm, hafter.symm⟩
    | cons y mid =>
      obtain ⟨rfl, hrest⟩ := List.cons.inj hafter
      exact Or.inl ⟨mid, hxs, hrest⟩

theorem Balanced.belongs {ss before after : List Sentence} {s : Sentence} (h : Balanced ss)
    (hss : ss = before ++ s :: after) (hs : s.role ≠ .step) : Belongs ss before s := by
  induction h generalizing before after with
  | nil => simp at hss
  | @step s' ss role _ ih =>
    cases before with
    | nil =>
      obtain ⟨rfl, -⟩ := List.cons.inj hss
      exact absurd role hs
    | cons x before =>
      obtain ⟨rfl, hrest⟩ := List.cons.inj hss
      simpa using (ih hrest).widen [s'] []
  | @block loop keyword opening closing condition body rest hk ho hc hcondition hbody _ ihc ihb ihr =>
    let b : Clause := ⟨loop, keyword, condition, opening, body, closing, hk, ho, hc, hcondition, hbody⟩
    have htext : keyword :: (condition ++ opening :: (body ++ closing :: rest)) = b.sentences ++ rest := by
      simp [b, Clause.sentences, Clause.upToBody, Clause.upToOpening, Clause.upToCondition]
    rw [htext] at hss ⊢
    rcases split_of_append_eq hss with ⟨mid, hblock, rfl⟩ | ⟨mid, rfl, hrest⟩
    · rcases split_of_append_eq hblock with ⟨mid, hopened, rfl⟩ | ⟨mid, rfl, hlast⟩
      · rcases split_of_append_eq hopened with ⟨mid, hhead, rfl⟩ | ⟨mid, rfl, hmid⟩
        · rcases split_of_append_eq hhead with ⟨mid, hstart, rfl⟩ | ⟨mid, rfl, hmid⟩
          · -- the keyword or the condition
            cases before with
            | nil => exact .keyword b rest (by simp) (List.cons.inj hstart).1.symm
            | cons x before =>
              obtain ⟨rfl, hinside⟩ := List.cons.inj hstart
              have hwide := (ihc hinside).widen [keyword] (opening :: (body ++ closing :: rest))
              simpa [← htext] using hwide
          · -- the brace that opens the block
            cases mid with
            | nil => exact .opening b [] rest (by simp) (by simp) (List.cons.inj hmid).1.symm
            | cons x mid => simp at hmid
        · -- the body
          have hwide := (ihb hmid).widen b.upToOpening (closing :: rest)
          simpa [b, Clause.sentences, Clause.upToBody] using hwide
      · -- the brace that closes the block
        cases mid with
        | nil => exact .closing b [] rest (by simp) (by simp) (List.cons.inj hlast).1.symm
        | cons x mid => simp at hlast
    · simpa using (ihr hrest).widen b.sentences []

/-- Every keyword, brace and head of a structured text belongs to a block or a method. -/
theorem Structured.belongs {ss before after : List Sentence} {s : Sentence} (h : Structured ss)
    (hss : ss = before ++ s :: after) (hs : s.role ≠ .step) : Belongs ss before s := by
  induction h generalizing before after with
  | nil => simp at hss
  | @definition keyword value const name ss _ ih =>
    cases before with
    | nil =>
      obtain ⟨rfl, -⟩ := List.cons.inj hss
      exact absurd rfl hs
    | cons x before =>
      obtain ⟨rfl, hrest⟩ := List.cons.inj hss
      simpa using (ih hrest).widen [.definition keyword value const name] []
  | @method ss m _ ih =>
    rcases split_of_append_eq hss with ⟨mid, hmethod, rfl⟩ | ⟨mid, rfl, hrest⟩
    · rcases split_of_append_eq hmethod with ⟨mid, hopened, rfl⟩ | ⟨mid, rfl, hlast⟩
      · cases before with
        | nil => exact .head m ss (by simp) (List.cons.inj hopened).1.symm
        | cons x before =>
          obtain ⟨rfl, hinside⟩ := List.cons.inj hopened
          have hwide := (m.body_balanced.belongs hinside hs).widen [m.head] (m.closing :: ss)
          simpa [Routine.sentences, Routine.upToBody] using hwide
      · cases mid with
        | nil => exact .last m [] ss (by simp) (by simp) (List.cons.inj hlast).1.symm
        | cons x mid => simp at hlast
    · simpa using (ih hrest).widen m.sentences []

end WordMachine.Source
