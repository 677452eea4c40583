import Mathlib
import WordMachine.Proofs.Source.Control
import WordMachine.Proofs.Source.Depth

/-!
# `Proofs.Source.StraightLine` — straight programs do what their words mean

A program whose `main` is straight code halts with the stack and the memory that the words of `main` leave,
or is trapped by the fault that they raise. The rest of the text may hold any other methods.

Contents:
* `Yields.append`, `Implements.yields`: words one after another;
* `Generator.StraightAll`, `straightAll_of_writes`: the code of a body of any length;
* `Compiled.arranged_around`: where the code of a straight method stands;
* `Ends`, `Compiled.Arranged.ends`: the call of `main`, its body, its return and the halt;
* `straight_line_correct`.
-/

namespace WordMachine.Source

section Bodies

variable {e : Setting} {returns : List UInt32} {place : Label → UInt64} {code code' : List Line} {k : Core}
  {r : Except Fault State} {w : Word}

/-! ## Sequences of words -/

theorem Yields.append {next : State → Except Fault State} (h : Yields e returns place code k r)
    (h' : ∀ k', Yields e returns place code' k' (next k'.state)) :
    Yields e returns place (code ++ code') k (r >>= next) := by
  cases r with
  | error f => exact Fails.append h code'
  | ok st =>
    obtain ⟨k', rfl, hruns⟩ := h
    exact hruns.yields_append (h' k')

/-- No machine stands anywhere with a stack that is too deep, so a word need not ask for room. -/
theorem Implements.yields (h : Implements e returns place code w) (k : Core) :
    Yields e returns place code k (w.run e k.state) := by
  by_cases hfits : k.state.Fits e
  · exact h k hfits
  · have hnowhere {here : Nat} {s : Machine} (hs : Stands e returns here k s) : False := hfits hs.bounded
    cases w.run e k.state with
    | ok st => exact ⟨⟨k.reg, k.flags, st⟩, rfl, fun _ _ _ _ _ _ hs => (hnowhere hs).elim⟩
    | error f => exact fun _ _ _ _ _ _ hs => (hnowhere hs).elim

/-! ## Bodies -/

namespace Generator

/-- Sentences add code that does what their tokens mean, one after another. -/
structure StraightAll (e : Setting) (place : Label → UInt64) (ss body : List Sentence) (g g' : Generator)
    (code : List Line) (words : List Word) : Prop where
  lines : g'.lines = code.reverse ++ g.lines
  blocks : g'.blocks = g.blocks
  inMethod : g'.inMethod = g.inMethod
  means : List.Forall₂ (Means e.image.toList ss fun n => place (.constant n))
    (body.filterMap Sentence.statement?) words
  yields (returns : List UInt32) (k : Core) : Yields e returns place code k (Word.runAll e words k.state)

variable {ss body : List Sentence} {d : Declarations} {literals : List Bytes} {t : Token} {g mid g' : Generator}
  {words : List Word}

theorem straightAll_nil : StraightAll e place ss [] g g [] [] :=
  ⟨rfl, rfl, rfl, .nil, fun _ _ => yields_nil⟩

theorem StraightAll.cons (h : Straight e place ss t g mid code w)
    (h' : StraightAll e place ss body mid g' code' words) :
    StraightAll e place ss (.statement t :: body) g g' (code ++ code') (w :: words) where
  lines := by rw [h'.lines, h.lines, List.reverse_append, List.append_assoc]
  blocks := h'.blocks.trans h.blocks
  inMethod := h'.inMethod.trans h.inMethod
  means := .cons h.means h'.means
  yields returns k := ((h.implements returns).yields k).append (h'.yields returns)

/-- Literals are only added. -/
theorem literals_of_writes (hd : d.Sound) (hw : Writes d g body g') : g.literals.reverse <+: g'.literals.reverse := by
  induction hw with
  | nil => exact List.prefix_refl _
  | method _ _ _ ih => exact ih
  | definition _ ih => exact ih
  | statement sound _ step _ ih =>
    obtain ⟨_, hemits⟩ := (grows_of_statement hd sound step).emits
    obtain ⟨new, hnew, -⟩ := hemits.literals
    refine List.IsPrefix.trans ?_ ih
    rw [hnew, List.reverse_append]
    exact List.prefix_append _ _

/-- Straight code of any length does what its tokens mean. -/
theorem straightAll_of_writes (hd : d.Sound) (hreads : Declarations.Reads {} ss d)
    (hstrings : Strings e.image place d literals) (hplain : ∀ s ∈ body, s.isPlain ss = true)
    (hw : Writes d g body g') (hliterals : g'.literals.reverse <+: literals) :
    ∃ code words, StraightAll e place ss body g g' code words := by
  induction hw with
  | nil => exact ⟨[], [], straightAll_nil⟩
  | method => exact absurd (hplain _ List.mem_cons_self) Bool.false_ne_true
  | definition _ ih =>
    obtain ⟨code, words, hall⟩ := ih (fun s hs => hplain s (List.mem_cons_of_mem _ hs)) hliterals
    exact ⟨code, words, { hall with }⟩
  | statement sound _ step rest ih =>
    have hmid := (literals_of_writes hd rest).trans hliterals
    obtain ⟨code, w, hone⟩ :=
      straight_of_statement hd hreads hstrings sound (hplain _ List.mem_cons_self) step hmid
    obtain ⟨code', words, hall⟩ := ih (fun s hs => hplain s (List.mem_cons_of_mem _ hs)) hliterals
    exact ⟨code ++ code', w :: words, hall.cons hone⟩

/-! ## The place of a body -/

theorem methodNames_of_isPlain (hplain : ∀ s ∈ body, s.isPlain ss = true) :
    body.filterMap Sentence.methodName? = [] := by
  refine List.filterMap_eq_nil_iff.mpr fun s hs => ?_
  cases s with
  | method name brace => exact absurd (hplain _ hs) Bool.false_ne_true
  | definition | statement => rfl

/-- Sentences that name no method and leave the one at work open only add to its body. -/
theorem layout_of_body {finished : List Method} {m : Method} (hd : d.Sound) (hw : Writes d g body g')
    (hbody : body.filterMap Sentence.methodName? = []) (h : Layout d g finished (some m))
    (hin : g'.inMethod = g.inMethod) (hlines : g'.lines = code.reverse ++ g.lines) :
    Layout d g' finished (some ⟨m.name, m.body ++ code⟩) := by
  obtain ⟨more, current, hlayout, hnames⟩ := layout_of_writes hd hw h
  obtain ⟨m', rfl⟩ : ∃ m', current = some m' := by
    rw [← Option.isSome_iff_exists, ← hlayout.inMethod, hin, h.inMethod]
    rfl
  -- the same methods have been begun, so none was finished on the way
  rw [hbody, List.append_nil] at hnames
  simp only [begun, Option.toList_some, List.map_append, List.map_cons, List.map_nil, List.append_assoc,
    List.append_cancel_left_eq] at hnames
  obtain ⟨hmore, hname⟩ := List.append_eq_singleton_iff.mp hnames |>.resolve_right (by simp)
  obtain rfl := List.map_eq_nil_iff.mp hmore
  have hcode := hlayout.lines
  rw [hlines, List.reverse_append, h.lines, List.reverse_reverse] at hcode
  obtain ⟨name, done⟩ := m'
  obtain rfl : name = m.name := by simpa using hname
  obtain rfl : m.body ++ code = done := by simpa [Method.head] using hcode
  simpa using hlayout

/-- The brace after straight code closes the method. -/
theorem layout_of_close {finished : List Method} {m : Method} (hd : d.Sound) (ht : t.Sound) (hk : t.kind = .word)
    (htext : t.text = bytes "\x7d") (h : Layout d g finished (some m)) (hblocks : g.blocks = [])
    (hstep : g.statement d t = .ok g') : Layout d g' (finished ++ [m]) none := by
  have hclose : g.close = .ok g' := by
    rw [statement, hk, htext] at hstep
    exact hstep
  have hin : g'.inMethod = false := by
    rcases close_eq hclose with ⟨-, rfl⟩ | ⟨b, outer, hopen, -⟩
    · rfl
    · rw [hblocks] at hopen
      cases hopen
  rcases layout_of_grows h (grows_of_statement hd ht hstep) with ⟨body, hlayout⟩ | hlayout
  · have hinside := hlayout.inMethod
    rw [hin] at hinside
    cases hinside
  · exact hlayout

/-- Reading a straight method adds it to the finished ones. -/
theorem layout_of_method {finished : List Method} {name brace close : Token} {after : List Sentence} (hd : d.Sound)
    (hreads : Declarations.Reads {} ss d) (hstrings : Strings e.image place d literals)
    (hplain : ∀ s ∈ body, s.isPlain ss = true) (hclose : close.kind = .word ∧ close.text = bytes "\x7d")
    (h : Layout d g finished none) (hw : Writes d g (.method name brace :: (body ++ .statement close :: after)) g')
    (hliterals : g'.literals.reverse <+: literals) :
    ∃ mid code words, Layout d mid (finished ++ [⟨name.text, code⟩]) none ∧ Writes d mid after g' ∧
      List.Forall₂ (Means e.image.toList ss fun n => place (.constant n))
        (body.filterMap Sentence.statement?) words ∧
      ∀ returns k, Yields e returns place code k (Word.runAll e words k.state) := by
  cases hw with
  | method _ _ hrest =>
    obtain ⟨last, hbody, hrest⟩ := hrest.append_inv
    have hlast := (literals_of_writes hd hrest).trans hliterals
    obtain ⟨code, words, hall⟩ := straightAll_of_writes hd hreads hstrings hplain hbody hlast
    have hlayout := layout_of_body hd hbody (methodNames_of_isPlain hplain) (layout_startMethod h name.text)
      hall.inMethod hall.lines
    have hblocks : last.blocks = [] := hall.blocks.trans (h.blocks rfl)
    cases hrest with
    | @statement _ mid _ _ _ sound _ step hafter =>
      exact ⟨mid, code, words, layout_of_close hd sound hclose.1 hclose.2 hlayout hblocks step, hafter, hall.means,
        hall.yields⟩

end Generator

/-- The code of a straight method stands among the methods of a program. -/
theorem Compiled.arranged_around {ts : List Token} {c : Compiled} {before body after : List Sentence}
    {name brace close : Token} (hts : ∀ t ∈ ts, t.Sound) (hgenerate : generate ts = .ok c)
    (hstrings : Strings e.image place c.declarations c.literals)
    (hss : sentences ts = before ++ .method name brace :: (body ++ .statement close :: after))
    (hclose : close.kind = .word ∧ close.text = bytes "\x7d")
    (hplain : ∀ s ∈ body, s.isPlain (sentences ts) = true) :
    ∃ pre post code words, c.Arranged (pre ++ ⟨name.text, code⟩ :: post) ∧
      List.Forall₂ (Means e.image.toList (sentences ts) fun n => place (.constant n))
        (body.filterMap Sentence.statement?) words ∧
      ∀ returns k, Yields e returns place code k (Word.runAll e words k.state) := by
  obtain ⟨g, hd, hw, hin, hliterals, hlines⟩ := writes_of_generate hts hgenerate
  have hsound := (sound_of_declare hts hd).1
  have hwrites := hw
  rw [hss] at hwrites
  obtain ⟨first, hbefore, hrest⟩ := hwrites.append_inv
  have houtside : first.inMethod = false := by
    cases hrest
    assumption
  -- the methods before, the method itself, and the methods behind it, each from the layout so far
  obtain ⟨pre, current, hpre, hprenames⟩ :=
    Generator.layout_of_writes hsound hbefore (Generator.layout_empty c.declarations)
  obtain rfl := hpre.current_eq_none houtside
  rw [List.nil_append] at hpre hprenames
  obtain ⟨mid, code, words, hmethod, hafter, hmeans, hyields⟩ :=
    Generator.layout_of_method hsound (reads_of_declare hts hw.proper hd) hstrings hplain hclose hpre hrest
      (by rw [hliterals])
  obtain ⟨post, current, hpost, hpostnames⟩ := Generator.layout_of_writes hsound hafter hmethod
  obtain rfl := hpost.current_eq_none hin
  refine ⟨pre, post, code, words, arranged_of_layout hts hd hw hliterals hlines ?_ ?_, hmeans, hyields⟩
  · simpa using hpost
  · have hnone := Generator.methodNames_of_isPlain hplain
    have hbrace : (.statement close :: after).filterMap Sentence.methodName? = after.filterMap Sentence.methodName? :=
      rfl
    rw [hss, List.append_cons, hpostnames]
    simp only [Generator.begun, Option.toList_none, List.append_nil, List.map_nil, List.nil_append] at hprenames ⊢
    simp [hprenames, hnone, hbrace, Sentence.methodName?]

/-! ## Whole runs -/

/-- How a run ends: halted, with the stack and the memory of a state, or trapped by a fault. -/
def Ends (m : Machine) : Except Fault State → Prop
  | .ok st => ∃ fuel s, Machine.run fuel m = (s, .halted) ∧ s.operands.toList = st.stack.reverse ∧
      ∀ i, s.memory.byte i = st.byte i
  | .error f => ∃ fuel s t, Machine.run fuel m = (s, .trapped t) ∧ t.fault = f

theorem Ends.of_goes {m m' : Machine} (h : m.Goes m') (h' : Ends m' r) : Ends m r := by
  obtain ⟨n, hrun⟩ := h.run_eq
  cases r with
  | ok st =>
    obtain ⟨fuel, s, hhalted, hstate⟩ := h'
    exact ⟨n + fuel, s, (hrun fuel).trans hhalted, hstate⟩
  | error f =>
    obtain ⟨fuel, s, t, htrapped, hf⟩ := h'
    exact ⟨n + fuel, s, t, (hrun fuel).trans htrapped, hf⟩

theorem Traps.ends {m : Machine} {f : Fault} (h : Traps m f) : Ends m (.error f) := by
  obtain ⟨s, s', t, hgoes, htick, hf⟩ := h
  refine Ends.of_goes hgoes ⟨1, s', t, ?_, hf⟩
  rw [Machine.run, htick]

/-- A machine at the last `halt` ends with the state it has. -/
theorem Stands.ends {s : Machine} {ls before after : List Line} (hl : Linked e.image place ls)
    (hls : ls = before ++ .code .halt [] :: after) (hs : Stands e returns (span before) k s) :
    Ends s (.ok k.state) := by
  have htick := hl.tick_eq hls hs.image hs.halt hs.pc
  have hhalted : s.tick.1.isHalted = true := by
    rw [htick, Machine.isHalted]
    show (Flag.isSet (s.flags ||| Flag.halt) Flag.halt || _) = true
    rw [Machine.isSet_halt, Bool.true_or]
  have hstays : s.tick.1.tick = (s.tick.1, .halted) := by rw [Machine.tick, if_pos hhalted]
  have hran : s.tick = (s.tick.1, .ran) := by rw [htick]; rfl
  refine Ends.of_goes (.step hran .refl) ⟨1, s.tick.1, ?_, ?_, fun i => ?_⟩
  · rw [Machine.run, hstays]
  · rw [htick, Stack.toList]
    exact congrArg List.reverse hs.stack
  · rw [htick]
    exact hs.byte i

/-- A machine that has just loaded an image. -/
theorem stands_load (m : Machine) (image : Image) :
    Stands ⟨image, m.memory.limit, m.operands.limit⟩ [] 0
      ⟨fun _ => 0, 0, ⟨[], fun _ => 0⟩⟩ (m.load image) where
  image := rfl
  halt := by
    show Flag.isSet 0 Flag.halt = false
    decide
  returns := rfl
  pc := rfl
  reg r := by simp [Machine.load, Machine.reset, Machine.reg]
  flags := rfl
  stack := rfl
  depth := rfl
  bounded _ := Nat.zero_le _
  byte i := by simp [Machine.load, Machine.reset, Memory.reset, Memory.byte]
  limit := rfl

/-- A program jumps to its end, calls `main`, runs its body, returns and halts. -/
theorem Compiled.Arranged.ends {c : Compiled} {pre post : List Method} {s : Machine}
    (h : c.Arranged (pre ++ ⟨bytes "main", code⟩ :: post)) (hl : Linked e.image place c.lines)
    (hyields : ∀ returns, Yields e returns place code k r) (hs : Stands e [] 0 k s) : Ends s r := by
  have hmethod := h.toInt_method hl rfl
  generalize hms : pre ++ ⟨bytes "main", code⟩ :: post = ms at h
  have hcode : c.lines = upTo pre ⟨bytes "main", code⟩ ++ code ++ (.code .ret [] ::
      (post.flatMap Method.lines ++ trailer c.literals c.declarations.strings.reverse)) := by
    have hlines := h.lines_eq hms.symm (List.nil_append _).symm
    rw [hlines, Method.code]
    simp
  -- the jump to the last lines, the call, the body, the return, and `halt`
  obtain ⟨after, hheader⟩ := h.header_lines
  obtain ⟨s₁, hgoes₁, hs₁⟩ :=
    goes_branch (fun _ => true) (fun _ _ _ _ _ => rfl) hl hheader (h.toInt_finish hl) hs
  rw [if_pos rfl] at hs₁
  obtain ⟨s₂, hgoes₂, hs₂⟩ := goes_call hl h.front_lines hmethod hs₁
  refine Ends.of_goes (hgoes₁.trans hgoes₂) ?_
  have hyields := hyields [UInt32.ofInt (span (c.front ms ++ [callMain]))]
  cases r with
  | error f => exact (hyields hl hcode hs₂).ends
  | ok st =>
    obtain ⟨k', rfl, hruns⟩ := hyields
    obtain ⟨s₃, hgoes₃, hs₃⟩ := hruns hl hcode hs₂
    obtain ⟨s₄, hgoes₄, hs₄⟩ := goes_return hl hcode hs₃
    rw [callMain, hl.toNat_return h.front_lines] at hs₄
    refine Ends.of_goes (hgoes₃.trans hgoes₄) ?_
    exact hs₄.ends hl (h.front_lines.trans (List.append_cons _ _ _))

end Bodies

/-- A text of definitions and a straight `main` is accepted exactly if no word takes more values than there
are. Whatever else is in an accepted text with a straight `main`, its image ends as the words of `main` say,
from an empty stack and cleared memory, and these never lack a value. -/
theorem straight_line_correct {library? : Option Library} {text source : Bytes} {ts : List Token}
    {before body after : List Sentence} {main brace close : Token} (hexpands : Expands library? text source)
    (hlex : lex source = .ok ts)
    (hss : sentences ts = before ++ .method main brace :: (body ++ .statement close :: after))
    (hmain : main.text = bytes "main") (hclose : close.kind = .word ∧ close.text = bytes "\x7d")
    (hplain : ∀ s ∈ body, s.isPlain (sentences ts) = true) :
    ((∀ s ∈ before ++ after, s.isDefinition = true) → brace.text = bytes "\x7b" →
      (∃ d, declare ts = .ok d) →
      ((∃ c, compile library? text = .ok c) ↔
        (depthAfter? (body.filterMap Sentence.statement?) 0).isSome = true)) ∧
    ∀ (c : Compiled) (a : Assembly.Assembler) (p : Assembly.Program), compile library? text = .ok c →
      a.library? = none → (a.parse c.text).1 = .ok p → p.image.size < UInt32.size → ∀ m : Machine,
      ∃ words, List.Forall₂ (Means p.image.toList (sentences ts) fun n => place p (.constant n))
          (body.filterMap Sentence.statement?) words ∧
        Word.runAll ⟨p.image, m.memory.limit, m.operands.limit⟩ words ⟨[], fun _ => 0⟩ ≠
          .error .stackEmpty ∧
        Ends (m.load p.image)
          (Word.runAll ⟨p.image, m.memory.limit, m.operands.limit⟩ words ⟨[], fun _ => 0⟩) := by
  have hts := sound_of_lex hlex
  rw [compile_eq hexpands hlex]
  refine ⟨fun hdefinitions hbrace ⟨d, hd⟩ => ⟨fun ⟨c, hgenerate⟩ => ?_, fun henough => ?_⟩, ?_⟩
  · exact depth_of_generate hts hgenerate hss hmain hplain
  · obtain ⟨hbefore, hafter⟩ := List.forall_mem_append.mp hdefinitions
    exact generate_of_depth hts hd hss hbefore hafter hmain hbrace hclose hplain henough
  · intro c a p hgenerate ha hp hsmall m
    obtain ⟨ms, harranged⟩ := Compiled.arranged_of_generate hts hgenerate
    have hl := harranged.linked ha hp hsmall
    obtain ⟨pre, post, code, words, hmethods, hmeans, hyields⟩ :=
      Compiled.arranged_around (e := ⟨p.image, m.memory.limit, m.operands.limit⟩) hts hgenerate
        (harranged.strings hl) hss hclose hplain
    rw [hmain] at hmethods
    refine ⟨words, hmeans, ?_, hmethods.ends hl (fun returns => hyields returns _) (stands_load m p.image)⟩
    obtain ⟨g, hd, hw, -⟩ := writes_of_generate hts hgenerate
    have hreads := reads_of_declare hts hw.proper hd
    exact Word.runAll_ne_stackEmpty (hmeans.imp fun t w h => h.effect_eq harranged.sound hreads)
      (depth_of_generate hts hgenerate hss hmain hplain)

/-- A character stored and compared, in a text with another method. -/
theorem straight_line_correct_stored :
    ∃ c p ts, compile none (bytes "memory 8 const x method main \x7b x 'a' !8 x @8 98 < \x7d method f \x7b f \x7d") =
        .ok c ∧ (({} : Assembly.Assembler).parse c.text).1 = .ok p ∧ p.image.size < UInt32.size ∧
      ∃ tokens words, tokens.map Token.text = [bytes "x", bytes "a", bytes "!8", bytes "x", bytes "@8", bytes "98",
          bytes "<"] ∧
        List.Forall₂ (Means p.image.toList (sentences ts) fun n => place p (.constant n)) tokens words ∧
        Ends ((Machine.create 16 8 8 {} (.store ∅)).load p.image)
          (Word.runAll ⟨p.image, 16, 8⟩ words ⟨[], fun _ => 0⟩) := by
  have hcompiled : ((compile none
      (bytes "memory 8 const x method main \x7b x 'a' !8 x @8 98 < \x7d method f \x7b f \x7d")).toOption.bind fun c =>
        (({} : Assembly.Assembler).parse c.text).1.toOption.map fun p => decide (p.image.size < UInt32.size)) =
        some true := by
    decide +kernel
  have hlexed : ((lex
      (bytes "memory 8 const x method main \x7b x 'a' !8 x @8 98 < \x7d method f \x7b f \x7d")).toOption.map fun ts =>
        let t (k : Nat) : Token := ts.getD k ⟨.word, [], 0, 0, []⟩
        let body := [t 7, t 8, t 9, t 10, t 11, t 12, t 13]
        decide (sentences ts = [Sentence.definition (t 0) (t 1) (t 2) (t 3)] ++ .method (t 5) (t 6) ::
            (body.map .statement ++ .statement (t 14) :: (sentences ts).drop 10)) &&
          decide ((t 5).text = bytes "main") && decide ((t 14).kind = .word ∧ (t 14).text = bytes "\x7d") &&
          body.all (Token.isPlain (sentences ts)) &&
          decide (body.map Token.text = [bytes "x", bytes "a", bytes "!8", bytes "x", bytes "@8", bytes "98",
            bytes "<"])) = some true := by
    decide +kernel
  obtain ⟨c, hcompile, hsmall⟩ := Option.bind_eq_some_iff.mp hcompiled
  obtain ⟨p, hparse, hsmall⟩ := Option.map_eq_some_iff.mp hsmall
  obtain ⟨ts, hlex, hparts⟩ := Option.map_eq_some_iff.mp hlexed
  replace hcompile := eq_ok_of_toOption hcompile
  replace hparse := eq_ok_of_toOption hparse
  replace hsmall := of_decide_eq_true hsmall
  simp only [Bool.and_eq_true, decide_eq_true_eq, List.all_eq_true] at hparts
  obtain ⟨⟨⟨⟨hss, hmain⟩, hclose⟩, hplain⟩, htexts⟩ := hparts
  obtain ⟨words, hmeans, -, hends⟩ := (straight_line_correct (show Expands none _ _ from rfl)
    (eq_ok_of_toOption hlex) hss hmain hclose (by simpa [Sentence.isPlain] using hplain)).2 c {} p hcompile rfl
      hparse hsmall (Machine.create 16 8 8 {} (.store ∅))
  exact ⟨c, p, ts, hcompile, hparse, hsmall, _, words, htexts, hmeans, hends⟩

end WordMachine.Source
