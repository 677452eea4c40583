import Mathlib
import WordMachine.CommandLine.Job
import WordMachine.Proofs.Include
import WordMachine.Proofs.Source.Assembles

/-!
# `Proofs.Source.Inclusion` — generated code includes nothing

Generated code may be expanded once more before it is assembled. A line of it starts with a blank, a label or a
comment mark, so no name and no string of the source comes first on a line, where it could be taken for a directive.

Contents:
* `Line.ofLine_text`: no line of generated code is a directive;
* `Compiled.Arranged.lines_text`, `expand_text`, `parse_eq`: its text is expanded to itself;
* `Library.not_reaches_of_other`, `Options.assembling_of_expand`: texts that are expanded to themselves;
* `expand_compiled`.
-/

namespace WordMachine

/-! ## Lines that include nothing -/

namespace Source

/-- No line of generated code is a directive, whatever its strings hold: a string stands behind a label. -/
theorem Line.ofLine_text (l : Line) : Directive.ofLine l.text = .other := by
  cases l with
  | comment text => exact Assembly.ofLine_of_head _ (by decide)
  | blank => decide
  | label l => exact Assembly.ofLine_of_head _ (by decide)
  | data l raw => exact Assembly.ofLine_of_head _ (by decide)
  | code op args =>
    have hcode := Assembly.ofLine_code op (args.map Argument.text)
    rw [Assembly.ofLine_eq_other_iff] at hcode ⊢
    rwa [Line.text_code, Bytes.firstField_blank _ (by decide) (by decide),
      Bytes.firstField_blank _ (by decide) (by decide)]

theorem Compiled.text_eq (c : Compiled) :
    c.text = (c.lines.map Line.text).flatMap fun line => line ++ [Ascii.newline] := by
  rw [List.flatMap_map]
  rfl

namespace Compiled.Arranged

variable {c : Compiled} {ms : List Method}

theorem isLine_of_mem (h : c.Arranged ms) : ∀ line ∈ c.lines.map Line.text, Bytes.IsLine line := by
  intro line hline
  obtain ⟨l, hl, rfl⟩ := List.mem_map.mp hline
  exact Line.isLine_text (h.wellFormed l hl)

/-- The text of generated code has the lines that were generated. -/
theorem lines_text (h : c.Arranged ms) : Bytes.lines c.text = c.lines.map Line.text := by
  rw [text_eq, Bytes.lines_render h.isLine_of_mem]

theorem ofLine_of_mem (h : c.Arranged ms) : ∀ line ∈ Bytes.lines c.text, Directive.ofLine line = .other := by
  intro line hline
  rw [h.lines_text] at hline
  obtain ⟨l, -, rfl⟩ := List.mem_map.mp hline
  exact l.ofLine_text

/-- Generated code is expanded to itself. -/
theorem expand_text (h : c.Arranged ms) (library : Library) : library.expand c.text = .ok c.text := by
  have hother := h.ofLine_of_mem
  rw [h.lines_text] at hother
  rw [text_eq]
  exact Assembly.expand_other library h.isLine_of_mem hother

/-- Generated code is assembled in the same way with a library for included files and without one. -/
theorem parse_eq (h : c.Arranged ms) (a : Assembly.Assembler) :
    (a.parse c.text).1 = (({ a with library? := none } : Assembly.Assembler).parse c.text).1 := by
  have hexpand : a.expand c.text = .ok c.text := by
    cases hlibrary : a.library? with
    | none => exact Assembly.Assembler.expand_of_library?_none hlibrary
    | some library => simp only [Assembly.Assembler.expand, hlibrary, h.expand_text library]
  rw [Assembly.Assembler.parse_eq hexpand,
    Assembly.Assembler.parse_eq (Assembly.Assembler.expand_of_library?_none rfl)]
  rfl

end Compiled.Arranged

end Source

/-! ## The command line -/

namespace Library

/-- Lines without a directive reach no file. -/
theorem not_reaches_of_other {lib : Library} {lines : List Bytes}
    (h : ∀ line ∈ lines, Directive.ofLine line = .other) (path : Bytes) : ¬lib.Reaches lines path := by
  have hnames : ∀ p, ¬Names lines p := by
    rintro p ⟨line, hline, hfile⟩
    rw [h line hline] at hfile
    cases hfile
  intro hreaches
  cases hreaches with
  | direct hname => exact hnames _ hname
  | through hname rest => exact hnames _ hname

end Library

namespace CommandLine.Options

variable {o : Options} {loc : Locale} {interpreter : Assembly.Interpreter} {library : Library} {report : Report}
  {text : Bytes}

/-- What is saved, printed and reported of a text that is assembled as it stands. -/
def assembled (o : Options) (loc : Locale) (interpreter : Assembly.Interpreter) (report : Report) (text : Bytes) :
    Work :=
  let result := ((o.assembler interpreter).parse text).1
  { saves := (result.toOption.map fun program => (o.output, program.image.toList)).toList
    ending := (result.mapError Failure.assembly).map fun program => finished loc program.image
    report := report.withText text }

/-- A text that is expanded to itself is assembled as it stands. -/
theorem assembling_of_expand (h : library.expand text = .ok text) :
    o.assembling loc interpreter library report text = o.assembled loc interpreter report text := by
  simp only [assembling, h, assembled]
  cases ((o.assembler interpreter).parse text).1 with
  | ok program => rfl
  | error e => rfl

end CommandLine.Options

/-! ## Generated code -/

namespace Source

/-- The code generated for a text is expanded to itself whatever files there are, and reaches none of them. So to
compile on the command line is to assemble the generated code as it stands. -/
theorem expand_compiled {library? : Option Library} {text : Bytes} {c : Compiled}
    (h : compile library? text = .ok c) (library : Library) :
    library.expand c.text = .ok c.text ∧
      (∀ path, ¬library.Reaches (Bytes.lines c.text) path) ∧
      ∀ (o : CommandLine.Options) (loc : Locale) (interpreter : Assembly.Interpreter) (report : Report)
        (source expanded : Bytes), library.expand source = .ok expanded → compile none expanded = .ok c →
          let work := o.assembled loc interpreter (report.withText expanded) c.text
          o.compiling loc interpreter library report source =
            { work with saves := (if o.listing.isEmpty then [] else [(o.listing, c.text)]) ++ work.saves } := by
  obtain ⟨_, ts, -, hlex, hgenerate⟩ := of_compile h
  obtain ⟨ms, harranged⟩ := Compiled.arranged_of_generate (sound_of_lex hlex) hgenerate
  refine ⟨harranged.expand_text library, Library.not_reaches_of_other harranged.ofLine_of_mem, ?_⟩
  intro o loc interpreter report source expanded hexpand hcompile work
  have hwork : o.assembling loc interpreter library (report.withText expanded) c.text = work :=
    CommandLine.Options.assembling_of_expand (harranged.expand_text library)
  simp only [CommandLine.Options.compiling, hexpand, hcompile, hwork]
  by_cases hlisting : o.listing.isEmpty = true
  · rw [if_pos hlisting, if_pos hlisting]
    rfl
  · rw [if_neg hlisting, if_neg hlisting]
    rfl

/-- A text with a method named as the directive is, and with two strings that read as one. -/
def directives : Bytes :=
  bytes "let \"include \\\"x\\\"\" const included\n" ++
    bytes "method include \x7b included drop \"include \\\"x\\\"\" drop \x7d method main \x7b include \x7d\n"

/-- The file that the directives would name. -/
def named : Library := .store ((∅ : FileMap).insert (bytes "x") (bytes "halt\n"))

theorem expand_compiled_directives :
    ∃ c, named.expand directives = .ok directives ∧ compile none directives = .ok c ∧
      bytes ".include:" ∈ Bytes.lines c.text ∧ bytes "._str0: \"include \\\"x\\\"\"" ∈ Bytes.lines c.text ∧
      named.expand c.text = .ok c.text ∧ ¬named.Reaches (Bytes.lines c.text) (bytes "x") ∧
      (({ listing := bytes "out.s" } : CommandLine.Options).compiling .english .refusing named {}
          directives).saves.head? =
        some (bytes "out.s", c.text) := by
  have hlines : (compile none directives).toOption.map (fun c =>
      decide (bytes ".include:" ∈ Bytes.lines c.text ∧
        bytes "._str0: \"include \\\"x\\\"\"" ∈ Bytes.lines c.text)) = some true := by
    decide +kernel
  obtain ⟨c, hsome, hlines⟩ := Option.map_eq_some_iff.mp hlines
  have hcompile := eq_ok_of_toOption hsome
  have hsource : named.expand directives = .ok directives := eq_ok_of_toOption (by decide +kernel)
  obtain ⟨hlabel, hdata⟩ := of_decide_eq_true hlines
  obtain ⟨hexpand, hreaches, hwork⟩ := expand_compiled hcompile named
  refine ⟨c, hsource, hcompile, hlabel, hdata, hexpand, hreaches _, ?_⟩
  rw [hwork _ _ _ _ _ _ hsource hcompile]
  rfl

end Source

end WordMachine
