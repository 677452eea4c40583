import Mathlib
import WordMachine.Proofs.Source.Statements
import WordMachine.Proofs.Source.Structure

/-!
# `Proofs.Source.Targets` — where the branches of a program go

Each sentence of a text adds its code after the code of the sentences before it, so a place in the text is a
place in the image. The branch at the brace of a block goes behind the code of the matching brace, a loop
goes back to its condition, a call goes to the first instruction of its method, and a method is one piece of
code with `ret` at its end.

Contents:
* `Generator.read`, `listing`, `offset`: the code of the sentences read so far, and where it ends;
* `Laid`: an image that holds the code of sentences; `Laid.code`, `Laid.label`;
* `Jumps`, `Clause.Resolved`, `Routine.Placed`: branches, blocks and methods in an image;
* `Clause.resolved`, `Laid.call`, `Routine.placed`, `compiled_targets`.
-/

namespace WordMachine.Source

open Generator (Writes)

/-! ## Places of sentences -/

namespace Generator

variable {d : Declarations} {g g' : Generator} {ss : List Sentence}

/-- The generator after a sentence; one that is refused changes nothing. -/
def read (d : Declarations) (g : Generator) : Sentence → Generator
  | .method name _ => g.startMethod name.text
  | .definition .. => g
  | .statement t => (g.statement d t).toOption.getD g

theorem Writes.foldl_read (h : Writes d g ss g') : ss.foldl (read d) g = g' := by
  induction h with
  | nil => rfl
  | method _ _ _ ih => exact ih
  | definition _ ih => exact ih
  | statement _ _ step _ ih =>
    rw [List.foldl_cons, read, step]
    exact ih

/-- Sentences add lines to the code; without heads of methods these are lines of a method body. -/
theorem Writes.emits (hd : d.Sound) (h : Writes d g ss g') :
    ∃ code : List Line, g'.lines = code.reverse ++ g.lines ∧ g.literals.length ≤ g'.literals.length ∧
      ((∀ s ∈ ss, s.role ≠ .head) → ∀ l ∈ code, l.Inner d g'.literals.length) := by
  induction h with
  | nil => exact ⟨[], rfl, Nat.le_refl _, fun _ => List.forall_mem_nil _⟩
  | @method g _ name _ _ _ _ _ ih =>
    obtain ⟨code, hlines, hle, -⟩ := ih
    refine ⟨[Line.blank, .label (.method name.text)] ++ code, ?_, hle, fun hheads => ?_⟩
    · rw [hlines]
      simp [startMethod, emit]
    · exact absurd rfl (hheads _ List.mem_cons_self)
  | definition _ ih =>
    obtain ⟨code, hlines, hle, hinner⟩ := ih
    exact ⟨code, hlines, hle, fun hheads => hinner fun s hs => hheads s (List.mem_cons_of_mem _ hs)⟩
  | statement sound _ step _ ih =>
    obtain ⟨code, hlines, hle, hinner⟩ := ih
    obtain ⟨first, e⟩ := (grows_of_statement hd sound step).emits
    obtain ⟨new, hnew, -⟩ := e.literals
    refine ⟨first ++ code, ?_, ?_, fun hheads => List.forall_mem_append.mpr ⟨fun l hl => ?_, ?_⟩⟩
    · rw [hlines, e.lines]
      simp
    · rw [hnew, List.length_append] at hle
      omega
    · exact (e.inner l hl).mono hle
    · exact hinner fun s hs => hheads s (List.mem_cons_of_mem _ hs)

end Generator

/-- The code of sentences, after the header. -/
def listing (d : Declarations) (ss : List Sentence) : List Line :=
  header ++ (ss.foldl (Generator.read d) {}).lines.reverse

/-- The place in the image where the code of sentences ends, and that of the next one begins. -/
def offset (d : Declarations) (ss : List Sentence) : Nat := span (listing d ss)

theorem Generator.Writes.listing_eq {d : Declarations} {g : Generator} {ss : List Sentence}
    (h : Writes d {} ss g) : listing d ss = header ++ g.lines.reverse := by
  rw [listing, h.foldl_read]

/-- An image holds the code of sentences that are accepted. -/
structure Laid (d : Declarations) (ss : List Sentence) (image : Image) (place : Label → UInt64) : Prop where
  sound : d.Sound
  accepted : ∃ g, Writes d {} ss g
  linked : ∃ tail, Linked image place (listing d ss ++ tail)

namespace Laid

variable {d : Declarations} {ss xs ys : List Sentence} {image : Image} {place : Label → UInt64}

theorem upTo (h : Laid d ss image place) (hss : ss = xs ++ ys) : Laid d xs image place := by
  subst hss
  obtain ⟨g', hw⟩ := h.accepted
  obtain ⟨g, hfirst, hrest⟩ := Writes.append_inv hw
  obtain ⟨code, hlines, -⟩ := hrest.emits h.sound
  obtain ⟨tail, hlinked⟩ := h.linked
  refine ⟨h.sound, ⟨g, hfirst⟩, code ++ tail, ?_⟩
  rw [hw.listing_eq, hlines] at hlinked
  rw [hfirst.listing_eq]
  simpa using hlinked

/-- An instruction of the code is decoded at its place. -/
theorem code (h : Laid d ss image place) {before after : List Line} {op : Operation} {args : List Argument}
    (hl : listing d ss = before ++ .code op args :: after) :
    image.decode (span before) = .ok (instruction place op args) := by
  obtain ⟨tail, hlinked⟩ := h.linked
  have hsplit : listing d ss ++ tail = before ++ .code op args :: (after ++ tail) := by
    rw [hl]
    simp
  exact hlinked.code hsplit

/-- A label of the code is a place. -/
theorem label (h : Laid d ss image place) {before after : List Line} {l : Label}
    (hl : listing d ss = before ++ .label l :: after) : (place l).toNat = span before := by
  obtain ⟨tail, hlinked⟩ := h.linked
  have hsplit : listing d ss ++ tail = before ++ .label l :: (after ++ tail) := by
    rw [hl]
    simp
  exact hlinked.label hsplit rfl

end Laid

/-! ## Blocks -/

/-- An instruction without registers that goes to a place. -/
def Jumps (image : Image) (op : Operation) (start target : Nat) : Prop :=
  ∃ imm : UInt64, image.decode start = .ok ⟨.of op, 0, 0, imm⟩ ∧ imm.toNat = target

/-- The branches of a block that stands after other sentences: past its end if the condition does not hold,
and back to the condition from the end of a loop. The end of another block has no code. -/
structure Clause.Resolved (d : Declarations) (image : Image) (before : List Sentence) (b : Clause) : Prop where
  branch : ∃ start, start + (Opcode.of .bne).width = offset d (before ++ b.upToOpening) ∧
    offset d (before ++ b.upToCondition) ≤ start ∧
    Jumps image .bne start (offset d (before ++ b.sentences))
  back : b.loop = true →
    Jumps image .jmp (offset d (before ++ b.upToBody)) (offset d (before ++ [b.keyword])) ∧
    offset d (before ++ b.sentences) = offset d (before ++ b.upToBody) + (Opcode.of .jmp).width
  plain : b.loop = false → offset d (before ++ b.sentences) = offset d (before ++ b.upToBody) ∧
    ∃ l, listing d (before ++ b.sentences) = listing d (before ++ b.upToBody) ++ [.label l]

theorem Clause.resolved {d : Declarations} {image : Image} {place : Label → UInt64} {before : List Sentence}
    (b : Clause) (h : Laid d (before ++ b.sentences) image place) : b.Resolved d image before := by
  obtain ⟨g', hw⟩ := h.accepted
  obtain ⟨g, hbefore, hblock⟩ := Writes.append_inv hw
  obtain ⟨condition, inner, last, hcondition, hinner, hlast, hkeyword, hopen, hclose, -⟩ := b.writes_inv hblock
  have hopened : Laid d (before ++ b.upToOpening) image place :=
    h.upTo (show before ++ b.sentences = before ++ b.upToOpening ++ (b.body ++ [b.closing]) by
      simp [sentences, upToBody])
  have hstarted : Laid d (before ++ [b.keyword]) image place :=
    h.upTo (show before ++ b.sentences =
        before ++ [b.keyword] ++ (b.condition ++ b.opening :: (b.body ++ [b.closing])) by
      simp [sentences, upToBody, upToOpening, upToCondition])
  -- the listings at the ends of the parts of the block
  have hlistingCondition := (hbefore.append hcondition).listing_eq
  have hlistingInner := (hbefore.append hinner).listing_eq
  have hlistingLast := (hbefore.append hlast).listing_eq
  have hlistingStart := (hbefore.append hkeyword).listing_eq
  have hlistingEnd := hw.listing_eq
  have hbranch : listing d (before ++ b.upToOpening) = listing d (before ++ b.upToCondition) ++
      [Line.code .pop [.register 0], .code .mov [.register 1, .truth true], .code .icmp [.register 0, .register 1]] ++
      [Line.code .bne [.label (.blockEnd g.loops)]] := by
    rw [hlistingInner, hlistingCondition, hopen]
    simp [Generator.openLines]
  have hend : listing d (before ++ b.sentences) = listing d (before ++ b.upToBody) ++
      Generator.closeLines ⟨b.loop, g.loops, true⟩ := by
    rw [hlistingEnd, hlistingLast, hclose]
    simp
  have htarget : (place (.blockEnd g.loops)).toNat = offset d (before ++ b.sentences) := by
    have hlabel := h.label (l := .blockEnd g.loops) (hend.trans (List.append_assoc _ _ _).symm)
    rw [hlabel, offset, hend, Generator.closeLines]
    simp [Line.size]
  refine ⟨⟨_, ?_, ?_, _, hopened.code hbranch, htarget⟩, fun hloop => ?_, fun hloop => ?_⟩
  · rw [offset, hbranch, span_append (_ ++ _)]
    rfl
  · rw [offset]
    simp
  · rw [hloop] at hend
    have hlabel : (place (.loop g.loops)).toNat = offset d (before ++ [b.keyword]) := by
      have hsplit : listing d (before ++ [b.keyword]) = listing d before ++ [Line.label (.loop g.loops)] := by
        rw [hlistingStart, hbefore.listing_eq, hloop]
        simp [Generator.startBlock, Generator.emit]
      rw [hstarted.label hsplit, offset, hsplit]
      simp [Line.size]
    refine ⟨⟨_, h.code hend, hlabel⟩, ?_⟩
    rw [offset, offset, hend]
    simp [Generator.closeLines, Line.size]
  · rw [hloop] at hend
    refine ⟨?_, _, hend⟩
    rw [offset, offset, hend]
    simp [Generator.closeLines, Line.size]

/-! ## Calls -/

namespace Declarations

variable {d d' : Declarations} {ss : List Sentence}

/-- Sentences give no name to a method and to a constant. -/
theorem Reads.constants_of_methods (h : d.Reads ss d') (hd : ∀ n ∈ d.methods, d.constants[n]? = none) :
    ∀ n ∈ d'.methods, d'.constants[n]? = none := by
  -- a constant under a name that is not a method's
  have hinsert {d : Declarations} {n : Bytes} {c : Constant} (hd : ∀ n ∈ d.methods, d.constants[n]? = none)
      (hfree : n ∉ d.methods) : ∀ k ∈ d.methods, (d.constants.insert n c)[k]? = none := by
    intro k hk
    have hne : n ≠ k := by
      rintro rfl
      exact hfree hk
    rw [Std.TreeMap.getElem?_insert, if_neg (by simpa using hne)]
    exact hd k hk
  induction h with
  | nil => exact hd
  | method step _ ih =>
    obtain ⟨-, -, hfree, rfl⟩ := of_addMethod step
    exact ih (List.forall_mem_cons.mpr ⟨hfree, hd⟩)
  | value _ _ step _ ih =>
    obtain ⟨_, -, -, hfree, -, rfl⟩ := of_addLet step
    exact ih (hinsert hd hfree)
  | memory _ _ step _ ih =>
    obtain ⟨-, -, hfree, -, rfl⟩ := of_addMemory step
    exact ih (hinsert hd hfree)
  | statement _ ih => exact ih hd

end Declarations

namespace Laid

variable {d : Declarations} {ss before after : List Sentence} {image : Image} {place : Label → UInt64}

/-- The label of a method is the place of its first instruction. -/
theorem entry {name brace : Token} (h : Laid d ss image place) (hss : ss = before ++ .method name brace :: after) :
    (place (.method name.text)).toNat = offset d (before ++ [Sentence.method name brace]) := by
  have hhead : Laid d (before ++ [Sentence.method name brace]) image place :=
    h.upTo (hss.trans (List.append_cons _ _ _))
  obtain ⟨g', hw⟩ := hhead.accepted
  obtain ⟨g, hbefore, hmethod⟩ := Writes.append_inv hw
  have hsplit : listing d (before ++ [Sentence.method name brace]) =
      listing d before ++ [Line.blank] ++ [Line.label (.method name.text)] := by
    rw [hw.listing_eq, hbefore.listing_eq, ← hmethod.foldl_read]
    simp [Generator.read, Generator.startMethod, Generator.emit]
  rw [hhead.label hsplit, offset, hsplit]
  simp [Line.size]

/-- A word that names a method is a call of it. -/
theorem call {t : Token} (h : Laid d ss image place) (hss : ss = before ++ .statement t :: after)
    (hk : t.kind = .word) (hmethod : t.text ∈ d.methods) (hconstant : d.constants[t.text]? = none) :
    image.decode (offset d before) = .ok ⟨.of .jsr, 0, 0, place (.method t.text)⟩ ∧
      offset d (before ++ [Sentence.statement t]) = offset d before + (Opcode.of .jsr).width := by
  have hcall : Laid d (before ++ [Sentence.statement t]) image place := h.upTo (hss.trans (List.append_cons _ _ _))
  obtain ⟨g', hw⟩ := hcall.accepted
  obtain ⟨g, hbefore, hstatement⟩ := Writes.append_inv hw
  obtain ⟨-, hword⟩ := hstatement.word hk
  rw [Generator.word_of_unreserved g d (h.sound.methods _ hmethod).free, Generator.defined, hconstant] at hword
  dsimp only at hword
  rw [if_pos (List.contains_iff_mem.mpr hmethod)] at hword
  cases hword
  have hsplit : listing d (before ++ [Sentence.statement t]) =
      listing d before ++ [Line.code .jsr [.label (.method t.text)]] := by
    rw [hw.listing_eq, hbefore.listing_eq]
    simp [Generator.forget, Generator.emit]
  refine ⟨hcall.code hsplit, ?_⟩
  rw [offset, offset, hsplit, span_append]
  rfl

end Laid

/-! ## Methods -/

/-- A method that stands after other sentences, in an image: its code is one piece, which begins where the code
of those sentences ends, and its last instruction is `ret`. -/
structure Routine.Placed (d : Declarations) (image : Image) (place : Label → UInt64) (before : List Sentence)
    (m : Routine) (code : List Line) : Prop where
  lines : listing d (before ++ m.sentences) = listing d before ++ (Method.mk m.name.text code).lines
  inner : ∃ literals, ∀ l ∈ code, l.Inner d literals
  entry : offset d (before ++ [m.head]) = offset d before
  instructions (xs ys : List Line) (op : Operation) (args : List Argument) :
    code = xs ++ .code op args :: ys →
      image.decode (offset d before + span xs) = .ok (instruction place op args)
  size : offset d (before ++ m.upToBody) = offset d before + span code
  ret : image.decode (offset d (before ++ m.upToBody)) = .ok ⟨.of .ret, 0, 0, 0⟩
  ends : offset d (before ++ m.sentences) = offset d (before ++ m.upToBody) + (Opcode.of .ret).width

theorem Balanced.role_ne_head {ss : List Sentence} (h : Balanced ss) : ∀ s ∈ ss, s.role ≠ .head := by
  induction h with
  | nil => exact List.forall_mem_nil _
  | step role _ ih => exact List.forall_mem_cons.mpr ⟨by simp [role], ih⟩
  | block hk ho hc _ _ _ ihc ihb ihr =>
    refine List.forall_mem_cons.mpr ⟨by simp [hk], List.forall_mem_append.mpr ⟨ihc, ?_⟩⟩
    refine List.forall_mem_cons.mpr ⟨by simp [ho], List.forall_mem_append.mpr ⟨ihb, ?_⟩⟩
    exact List.forall_mem_cons.mpr ⟨by simp [hc], ihr⟩

/-- No block is open outside of methods. -/
theorem Generator.Writes.blocks_eq_nil {d : Declarations} {g : Generator} {ss : List Sentence} (hd : d.Sound)
    (h : Writes d {} ss g) (hout : g.inMethod = false) : g.blocks = [] := by
  obtain ⟨more, current, hlayout, -⟩ := Generator.layout_of_writes hd h (Generator.layout_empty d)
  exact hlayout.blocks (hlayout.current_eq_none hout)

theorem Routine.placed {d : Declarations} {image : Image} {place : Label → UInt64} {before : List Sentence}
    (m : Routine) (h : Laid d (before ++ m.sentences) image place) : ∃ code, m.Placed d image place before code := by
  obtain ⟨g', hw⟩ := h.accepted
  obtain ⟨g, hbefore, hmethod⟩ := Writes.append_inv hw
  obtain ⟨last, hlast, hclosing⟩ := Writes.append_inv hmethod
  obtain ⟨start, hhead, hbody⟩ := hlast.cons_inv
  cases hhead with
  | method outside brace_eq rest =>
    cases rest
    -- at the last brace no block is open, so it ends the method
    have hnone : g.blocks = [] := hbefore.blocks_eq_nil h.sound outside
    have hblocks : last.blocks = [] := (m.body_balanced.keeps hbody).1.trans hnone
    rcases Generator.close_eq (hclosing.closes m.closing_role) with ⟨-, rfl⟩ | ⟨b, outer, hsome, -⟩
    · obtain ⟨code, hcode, -, hinner⟩ := hbody.emits h.sound
      have hlistingBody : listing d (before ++ m.upToBody) =
          listing d before ++ [Line.blank, .label (.method m.name.text)] ++ code := by
        rw [(hbefore.append hlast).listing_eq, hbefore.listing_eq, hcode]
        simp [Generator.startMethod, Generator.emit]
      have hlisting : listing d (before ++ m.sentences) = listing d (before ++ m.upToBody) ++ [Line.code .ret []] := by
        rw [hw.listing_eq, (hbefore.append hlast).listing_eq]
        simp
      have hlistingHead : listing d (before ++ [m.head]) =
          listing d before ++ [Line.blank, .label (.method m.name.text)] := by
        have hstart : Writes d g [m.head] (g.startMethod m.name.text) := .method outside brace_eq .nil
        rw [(hbefore.append hstart).listing_eq, hbefore.listing_eq]
        simp [Generator.startMethod, Generator.emit]
      refine ⟨code, ?_, ⟨_, hinner m.body_balanced.role_ne_head⟩, ?_, ?_, ?_, h.code hlisting, ?_⟩
      · rw [hlisting, hlistingBody]
        simp [Method.lines, Method.head]
      · rw [offset, offset, hlistingHead]
        simp [Line.size]
      · rintro xs ys op args rfl
        have hdecode := h.code (show listing d (before ++ m.sentences) =
            (listing d before ++ [Line.blank, .label (.method m.name.text)] ++ xs) ++
              .code op args :: (ys ++ [Line.code .ret []]) by
          rw [hlisting, hlistingBody]
          simp)
        simpa [offset, Line.size] using hdecode
      · rw [offset, offset, hlistingBody]
        simp [Line.size]
      · rw [offset, offset, hlisting, span_append]
        rfl
    · rw [hblocks] at hsome
      cases hsome

/-! ## Whole programs -/

/-- Compiling and assembling lays the code of a text into the image, with the trailer behind it. -/
theorem Compiled.laid {ts : List Token} {c : Compiled} {a : Assembly.Assembler} {p : Assembly.Program}
    (hts : ∀ t ∈ ts, t.Sound) (h : generate ts = .ok c) (ha : a.library? = none)
    (hp : (a.parse c.text).1 = .ok p) (hsmall : p.image.size < UInt32.size) :
    Laid c.declarations (sentences ts) p.image (place p) ∧ Linked p.image (place p) c.lines ∧
      c.lines = listing c.declarations (sentences ts) ++ trailer c.literals c.declarations.strings.reverse := by
  obtain ⟨g, -, hw, -, -, hlines⟩ := writes_of_generate hts h
  obtain ⟨ms, harranged⟩ := arranged_of_generate hts h
  have hlinked := harranged.linked ha hp hsmall
  rw [← hw.listing_eq] at hlines
  exact ⟨⟨harranged.sound, ⟨g, hw⟩, _, hlines ▸ hlinked⟩, hlinked, hlines⟩

/-- The last two instructions of a program call `main` and halt. -/
theorem Linked.call_main {image : Image} {place : Label → UInt64} {ls : List Line} {literals : List Bytes}
    {strings : List (Bytes × Bytes)} (h : Linked image place (ls ++ trailer literals strings)) :
    ∃ start, start + (Opcode.of .jsr).width + (Opcode.of .halt).width = image.size ∧
      image.decode start = .ok ⟨.of .jsr, 0, 0, place (.method (bytes "main"))⟩ := by
  obtain ⟨data, hdata⟩ : ∃ data, trailer literals strings =
      data ++ [Line.code .jsr [.label (.method (bytes "main"))], .code .halt []] :=
    ⟨_, (List.append_cons _ _ _).trans rfl⟩
  refine ⟨span (ls ++ data), ?_, ?_⟩
  · rw [h.size, hdata, ← List.append_assoc, span_append (ls ++ data), Nat.add_assoc]
    rfl
  · exact h.code (by rw [hdata, List.append_assoc])

/-- In an assembled program every keyword and brace belongs to a block or a method of the text, the branches of
blocks and the calls of methods go where the text says, and each method is one piece of code. -/
theorem compiled_targets {library? : Option Library} {text : Bytes} {c : Compiled} {a : Assembly.Assembler}
    {p : Assembly.Program} (h : compile library? text = .ok c) (ha : a.library? = none)
    (hp : (a.parse c.text).1 = .ok p) (hsmall : p.image.size < UInt32.size) :
    ∃ source ts, Expands library? text source ∧ lex source = .ok ts ∧
      c.lines = listing c.declarations (sentences ts) ++ trailer c.literals c.declarations.strings.reverse ∧
      (∀ before s after, sentences ts = before ++ s :: after → s.role ≠ .step →
        Belongs (sentences ts) before s) ∧
      (∀ before (b : Clause) after, sentences ts = before ++ b.sentences ++ after →
        b.Resolved c.declarations p.image before) ∧
      (∀ before (m : Routine) after, sentences ts = before ++ m.sentences ++ after →
        (∃ code, m.Placed c.declarations p.image (place p) before code) ∧
        (∀ before' t after', sentences ts = before' ++ .statement t :: after' → t.kind = .word →
          t.text = m.name.text → Jumps p.image .jsr (offset c.declarations before')
            (offset c.declarations (before ++ [m.head]))) ∧
        (m.name.text = bytes "main" →
          ∃ start, start + (Opcode.of .jsr).width + (Opcode.of .halt).width = p.image.size ∧
            Jumps p.image .jsr start (offset c.declarations (before ++ [m.head])))) := by
  obtain ⟨source, ts, hexpands, hlex, hgenerate⟩ := of_compile h
  have hsound := sound_of_lex hlex
  obtain ⟨g, hdeclare, hwrites, hout, -⟩ := writes_of_generate hsound hgenerate
  have hreads := reads_of_declare hsound hwrites.proper hdeclare
  obtain ⟨hlaid, hlinked, hlines⟩ := Compiled.laid hsound hgenerate ha hp hsmall
  have hstructured := structured_of_writes hwrites rfl rfl hout
  refine ⟨source, ts, hexpands, hlex, hlines, fun before s after => hstructured.belongs, ?_, ?_⟩
  · intro before b after hss
    exact b.resolved (hlaid.upTo hss)
  · intro before m after hss
    have hhead : sentences ts = before ++ .method m.name m.brace :: (m.body ++ [m.closing] ++ after) := by
      rw [hss]
      simp [Routine.sentences, Routine.upToBody, Routine.head]
    have hentry := hlaid.entry hhead
    have hmethod : m.name.text ∈ c.declarations.methods := by
      rw [hreads.methods, hhead]
      simp [Sentence.methodName?]
    -- no constant has the name of a method, so the word is a call
    have hconstant := hreads.constants_of_methods (List.forall_mem_nil _) _ hmethod
    refine ⟨m.placed (hlaid.upTo hss), ?_, ?_⟩
    · intro before' t after' hcall hk ht
      rw [← ht] at hmethod hconstant hentry
      exact ⟨_, (hlaid.call hcall hk hmethod hconstant).1, hentry⟩
    · intro hmain
      rw [hlines] at hlinked
      obtain ⟨start, hsize, hdecode⟩ := hlinked.call_main
      rw [hmain] at hentry
      exact ⟨start, hsize, _, hdecode, hentry⟩

/-- A loop with a block in its condition and one in its body. -/
theorem compiled_targets_nested :
    ∃ c p ts before after, ∃ b : Clause,
      compile none
        (bytes "method f \x7b 1 \x7d method main \x7b 0 while 1 if 1 \x7b f \x7d < \x7b if 1 \x7b f \x7d \x7d \x7d") =
          .ok c ∧
      (({} : Assembly.Assembler).parse c.text).1 = .ok p ∧ p.image.size < UInt32.size ∧
      sentences ts = before ++ b.sentences ++ after ∧ b.loop = true ∧
      b.Resolved c.declarations p.image before := by
  have hplace : ((compile none
      (bytes "method f \x7b 1 \x7d method main \x7b 0 while 1 if 1 \x7b f \x7d < \x7b if 1 \x7b f \x7d \x7d \x7d")
      ).toOption.bind fun c => (({} : Assembly.Assembler).parse c.text).1.toOption.map fun p =>
          decide (p.image.size < UInt32.size)) = some true := by
    decide +kernel
  have hloop : (lex
      (bytes "method f \x7b 1 \x7d method main \x7b 0 while 1 if 1 \x7b f \x7d < \x7b if 1 \x7b f \x7d \x7d \x7d")
      ).toOption.map (fun ts => (sentences ts).any fun s => s.role = .start true) = some true := by
    decide +kernel
  obtain ⟨c, hcompile, hplace⟩ := Option.bind_eq_some_iff.mp hplace
  obtain ⟨p, hparse, hplace⟩ := Option.map_eq_some_iff.mp hplace
  replace hcompile := eq_ok_of_toOption hcompile
  replace hparse := eq_ok_of_toOption hparse
  have hsmall : p.image.size < UInt32.size := of_decide_eq_true hplace
  obtain ⟨source, ts, rfl, hlex, -, hbelongs, hresolved, -⟩ := compiled_targets hcompile rfl hparse hsmall
  rw [hlex] at hloop
  obtain ⟨s, hmem, hrole⟩ := List.any_eq_true.mp (Option.some.inj hloop)
  replace hrole := of_decide_eq_true hrole
  obtain ⟨before, after, hsplit⟩ := List.append_of_mem hmem
  cases hbelongs before s after hsplit (by simp [hrole]) with
  | keyword b rest htext heq =>
    refine ⟨c, p, ts, before, rest, b, hcompile, hparse, hsmall, htext, ?_, hresolved _ _ _ htext⟩
    have hkeyword := b.keyword_role
    rw [← heq, hrole] at hkeyword
    exact (Role.start.inj hkeyword).symm
  | opening b _ _ _ _ heq =>
    rw [heq, b.opening_role] at hrole
    cases hrole
  | closing b _ _ _ _ heq =>
    rw [heq, b.closing_role] at hrole
    cases hrole
  | head m _ _ heq =>
    rw [heq] at hrole
    cases hrole
  | last m _ _ _ _ heq =>
    rw [heq, m.closing_role] at hrole
    cases hrole

end WordMachine.Source
