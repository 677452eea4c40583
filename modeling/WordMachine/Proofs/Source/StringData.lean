import Mathlib
import WordMachine.Proofs.Assembly.Resolution
import WordMachine.Proofs.Source.Depth
import WordMachine.Proofs.Source.Inclusion
import WordMachine.Proofs.Source.Targets

/-!
# `Proofs.Source.StringData` — strings from the source to the image

The literals of the method bodies and the string constants are written behind the code, each under a label of
its own. So an `adr` that pushes a string finds the bytes of that string and a zero byte, whatever the text of
the string looks like, and no two strings share a byte.

Contents:
* `quoted_of_lex`: the raw text of a string stands between quotes on a line of the source;
* `Sentence.string?`, `Generator.Writes.literals_eq`, `Declarations.Reads.strings_eq`: the strings of a text;
* `Sentence.label`, `label_ne`, `Linked.apart`: different strings have different places;
* `Pushes`, `Laid.pushes_literal`, `Laid.pushes_constant`, `compiled_strings`.
-/

namespace WordMachine.Source

open Generator (Writes)

/-! ## Strings of the source -/

theorem quoted_of_string {line : Int} {source rest after : Bytes} {t : Token}
    (h : string line source rest = .ok (t, after)) : rest = t.text ++ Ascii.quote :: after := by
  unfold string at h
  split at h
  · cases h
  next raw after' hquoted =>
    split at h
    next hdecoded =>
      cases h
      exact (quoted_of_quoted? hquoted hdecoded).1
    · cases h

theorem rest_of_char {line : Int} {source rest after : Bytes} {t : Token}
    (h : char line source rest = .ok (t, after)) : t.kind ≠ .string ∧ ∃ read, rest = read ++ after := by
  unfold char at h
  split at h
  · cases h
  next raw after' hquoted =>
    split at h
    · cases h
    next b hdecoded =>
      cases h
      obtain ⟨hrest, -⟩ := quoted_of_quoted? hquoted (by rw [hdecoded]; rfl)
      exact ⟨by rintro ⟨⟩, raw ++ [Ascii.apostrophe], hrest.trans (List.append_cons _ _ _)⟩
    · cases h

theorem rest_of_word {line : Int} {source rest after : Bytes} {c : UInt8} {t : Token}
    (h : word line source c rest = .ok (t, after)) : t.kind ≠ .string ∧ ∃ read, rest = read ++ after := by
  have hrun : rest = rest.takeWhile (fun d => !isBlank d) ++ rest.dropWhile (fun d => !isBlank d) :=
    List.takeWhile_append_dropWhile.symm
  unfold word at h
  simp only at h
  split at h
  · cases h
  next kind value hnumber =>
    cases h
    refine ⟨?_, _, hrun⟩
    rcases number_cases hnumber with ⟨rfl, -⟩ | rfl <;> rintro ⟨⟩
  · cases h
    exact ⟨by rintro ⟨⟩, _, hrun⟩

/-- What is read of a line is followed by the rest of it, and a string stands between quotes before it. -/
theorem quoted_of_next {line : Int} {source text after : Bytes} {t : Token}
    (h : next line source text = .ok (some (t, after))) :
    (∃ read, text = read ++ after) ∧
      (t.kind = .string → ∃ before, text = before ++ Ascii.quote :: (t.text ++ Ascii.quote :: after)) := by
  obtain ⟨blanks, c, rest, rfl, hread⟩ := read_of_next h
  rcases hread with ⟨rfl, hstring⟩ | hother
  · have hrest := quoted_of_string hstring
    refine ⟨⟨blanks ++ Ascii.quote :: (t.text ++ [Ascii.quote]), ?_⟩, fun _ => ⟨blanks, by rw [hrest]⟩⟩
    rw [hrest]
    simp
  · obtain ⟨hkind, read, rfl⟩ := hother.elim rest_of_char rest_of_word
    exact ⟨⟨blanks ++ c :: read, by simp⟩, fun hk => absurd hk hkind⟩

theorem quoted_of_lexFrom {line : Int} {source text : Bytes} {ts : List Token}
    (h : lexFrom line source text = .ok ts) :
    ∀ t ∈ ts, t.kind = .string →
      ∃ before after, text = before ++ Ascii.quote :: (t.text ++ Ascii.quote :: after) := by
  fun_induction lexFrom line source text generalizing ts with
  | case1 => cases h
  | case2 =>
    cases h
    exact List.forall_mem_nil _
  | case3 => cases h
  | case4 text t rest hnext _ more hmore ih =>
    cases h
    obtain ⟨⟨read, hread⟩, hstring⟩ := quoted_of_next hnext
    refine List.forall_mem_cons.mpr ⟨fun hk => ?_, fun u hu hk => ?_⟩
    · obtain ⟨before, hbefore⟩ := hstring hk
      exact ⟨before, rest, hbefore⟩
    · obtain ⟨before, after, hrest⟩ := ih hmore u hu hk
      exact ⟨read ++ before, after, by rw [hread, hrest, List.append_assoc]⟩

/-- The raw text of a string stands between quotes on a line of the source. -/
theorem quoted_of_lex {source : Bytes} {ts : List Token} (h : lex source = .ok ts) :
    ∀ t ∈ ts, t.kind = .string →
      ∃ before after, before ++ Ascii.quote :: (t.text ++ Ascii.quote :: after) ∈ Bytes.lines source := by
  unfold lex at h
  generalize 1 = number at h
  generalize Bytes.lines source = lines at h
  fun_induction lexLines number lines generalizing ts with
  | case1 =>
    cases h
    exact List.forall_mem_nil _
  | case2 => cases h
  | case3 => cases h
  | case4 number line rest tokens hline more hmore ih =>
    cases h
    refine List.forall_mem_append.mpr ⟨fun t ht hk => ?_, fun t ht hk => ?_⟩
    · unfold lexLine at hline
      split at hline
      · cases hline
      next hlex =>
        cases hline
        obtain ⟨before, after, htext⟩ := quoted_of_lexFrom hlex t ht hk
        exact ⟨before, after, by rw [← htext]; exact List.mem_cons_self⟩
    · obtain ⟨before, after, hmem⟩ := ih hmore t ht hk
      exact ⟨before, after, List.mem_cons_of_mem line hmem⟩

/-! ## Strings of the text -/

namespace Sentence

/-- The raw text of a string literal in a method body. -/
def literal? : Sentence → Option Bytes
  | .statement t => if t.kind = .string then some t.text else none
  | _ => none

/-- The name and the raw text of a string constant. -/
def constant? : Sentence → Option (Bytes × Bytes)
  | .definition _ value _ name => if value.kind = .string then some (name.text, value.text) else none
  | _ => none

/-- The raw text of the string that a sentence brings into the program. -/
def string? (s : Sentence) : Option Bytes := s.literal?.or (s.constant?.map Prod.snd)

/-- The label of that string, after other sentences: literals are numbered, and constants have their names. -/
def label (before : List Sentence) (s : Sentence) : Label :=
  s.constant?.elim (.literal (before.filterMap literal?).length) fun e => .constant e.1

theorem literal?_string {t : Token} (hk : t.kind = .string) : literal? (.statement t) = some t.text := if_pos hk

theorem constant?_string {keyword value const name : Token} (hk : value.kind = .string) :
    constant? (.definition keyword value const name) = some (name.text, value.text) := if_pos hk

theorem literal?_of_ne {t : Token} (hk : t.kind ≠ .string) : literal? (.statement t) = none := if_neg hk

theorem string?_cases {s : Sentence} {raw : Bytes} (h : s.string? = some raw) :
    (s.literal? = some raw ∧ s.constant? = none) ∨
      s.literal? = none ∧ ∃ name, s.constant? = some (name, raw) := by
  cases s with
  | method name brace => cases h
  | definition keyword value const name =>
    obtain ⟨e, he, rfl⟩ := Option.map_eq_some_iff.mp (show (constant? _).map Prod.snd = some raw from h)
    exact .inr ⟨rfl, e.1, he⟩
  | statement t =>
    refine .inl ⟨?_, rfl⟩
    have hnone : constant? (.statement t) = none := rfl
    rwa [string?, hnone, Option.map_none, Option.or_none] at h

theorem string?_statement {t : Token} {raw : Bytes} (h : string? (.statement t) = some raw) :
    t.kind = .string ∧ t.text = raw := by
  rcases string?_cases h with ⟨hliteral, -⟩ | ⟨-, name, hname⟩
  · by_cases hk : t.kind = .string
    · rw [literal?_string hk] at hliteral
      exact ⟨hk, Option.some.inj hliteral⟩
    · rw [literal?_of_ne hk] at hliteral
      cases hliteral
  · cases hname

theorem string?_definition {keyword value const name : Token} {raw : Bytes}
    (h : string? (.definition keyword value const name) = some raw) : value.kind = .string ∧ value.text = raw := by
  rcases string?_cases h with ⟨hliteral, -⟩ | ⟨-, n, hname⟩
  · cases hliteral
  · by_cases hk : value.kind = .string
    · rw [constant?_string hk] at hname
      cases hname
      exact ⟨hk, rfl⟩
    · rw [constant?, if_neg hk] at hname
      cases hname

end Sentence

/-- The string of a sentence is a token of the text. -/
theorem mem_of_string {ts : List Token} {s : Sentence} {raw : Bytes} (hs : s ∈ sentences ts)
    (h : s.string? = some raw) : ∃ t ∈ ts, t.kind = .string ∧ t.text = raw := by
  induction ts using sentences.induct with
  | case1 => cases hs
  | case2 u hm name brace tail ih =>
    rw [sentences_method hm] at hs
    rcases List.mem_cons.mp hs with rfl | hs
    · cases h
    · obtain ⟨t, ht, hraw⟩ := ih hs
      exact ⟨t, by simp [ht], hraw⟩
  | case3 u rest hm hshort =>
    rw [sentences_cut hm hshort] at hs
    cases List.mem_singleton.mp hs
    exact ⟨u, List.mem_cons_self, Sentence.string?_statement h⟩
  | case4 u hm hdef value const name tail ih =>
    rw [sentences_definition hm hdef] at hs
    rcases List.mem_cons.mp hs with rfl | hs
    · exact ⟨value, by simp, Sentence.string?_definition h⟩
    · obtain ⟨t, ht, hraw⟩ := ih hs
      exact ⟨t, by simp [ht], hraw⟩
  | case5 u rest hm hdef hshort =>
    rw [sentences_short hm hdef hshort] at hs
    cases hs
  | case6 u rest hm hdef ih =>
    rw [sentences_statement hm hdef] at hs
    rcases List.mem_cons.mp hs with rfl | hs
    · exact ⟨u, List.mem_cons_self, Sentence.string?_statement h⟩
    · obtain ⟨t, ht, hraw⟩ := ih hs
      exact ⟨t, List.mem_cons_of_mem u ht, hraw⟩

namespace Generator

variable {d : Declarations} {g g' : Generator}

/-- A word adds no literal. -/
theorem literals_of_word {w : Bytes} (h : g.word d w = .ok g') : g'.literals = g.literals := by
  cases handles_of_word h with
  | snippet _ step =>
    obtain ⟨depth, -, rfl⟩ := snippet_eq step
    rfl
  | comparison _ step =>
    obtain ⟨depth, -, rfl⟩ := comparison_eq step
    rfl
  | negation step =>
    obtain ⟨depth, -, rfl⟩ := negation_eq step
    rfl
  | starts loop _ step =>
    subst step
    cases loop <;> rfl
  | opens _ step =>
    obtain ⟨b, outer, depth, -, -, rfl⟩ := openBlock_eq step
    rfl
  | closes _ step => rcases close_eq step with ⟨-, rfl⟩ | ⟨b, outer, -, -, rfl⟩ <;> rfl
  | defined step =>
    rcases defined_eq step with ⟨op, arg, -, -, rfl⟩ | ⟨-, rfl⟩
    · rfl
    · rfl

theorem literals_of_statement {t : Token} (h : g.statement d t = .ok g') :
    g'.literals = (Sentence.literal? (.statement t)).toList ++ g.literals := by
  unfold statement at h
  by_cases hstring : t.kind = .string
  · rw [hstring] at h
    cases h
    rw [Sentence.literal?_string hstring]
    rfl
  · rw [Sentence.literal?_of_ne hstring]
    cases hk : t.kind with
    | string => exact absurd hk hstring
    | integer | double | char =>
      rw [hk] at h
      cases h
      rfl
    | word | unassigned n =>
      rw [hk] at h
      exact literals_of_word h

/-- The literals are those of the statements, in the order of the text. -/
theorem Writes.literals_eq {ss : List Sentence} (h : Writes d g ss g') :
    g'.literals.reverse = g.literals.reverse ++ ss.filterMap Sentence.literal? := by
  induction h with
  | nil => simp
  | method _ _ _ ih => exact ih
  | definition _ ih => exact ih
  | @statement g next g' t ss _ _ step _ ih =>
    rw [ih, literals_of_statement step, List.filterMap_cons]
    cases Sentence.literal? (.statement t) <;> simp

end Generator

/-- The string constants are those of the definitions, in the order of the text. -/
theorem Declarations.Reads.strings_eq {d d' : Declarations} {ss : List Sentence} (h : d.Reads ss d') :
    d'.strings.reverse = d.strings.reverse ++ ss.filterMap Sentence.constant? := by
  induction h with
  | nil => simp
  | method step _ ih =>
    obtain ⟨-, -, -, rfl⟩ := of_addMethod step
    exact ih
  | @value d next d' keyword value const name ss sound _ step _ ih =>
    obtain ⟨c, hc, -, -, -, rfl⟩ := of_addLet step
    rw [ih, List.filterMap_cons, Sentence.constant?]
    rcases Constant.ofToken?_cases sound hc with ⟨hk, rfl⟩ | ⟨hk, rfl⟩ | ⟨hk | hk, rfl⟩ <;> simp [hk]
  | memory _ _ step _ ih =>
    obtain ⟨hk, -, -, -, rfl⟩ := of_addMemory step
    rw [ih, List.filterMap_cons, Sentence.constant?, hk]
    rfl
  | statement _ ih => exact ih

/-- What a program has of strings is what its text has of them. -/
theorem Compiled.strings_eq {ts : List Token} {c : Compiled} (hts : ∀ t ∈ ts, t.Sound) (h : generate ts = .ok c) :
    c.literals = (sentences ts).filterMap Sentence.literal? ∧
      c.declarations.strings.reverse = (sentences ts).filterMap Sentence.constant? := by
  obtain ⟨g, hdeclare, hwrites, -, hliterals, -⟩ := writes_of_generate hts h
  exact ⟨hliterals.trans hwrites.literals_eq, (reads_of_declare hts hwrites.proper hdeclare).strings_eq⟩

/-! ## Places of strings -/

/-- The label of the string of a sentence, by the number of the sentence. -/
def labelAt (ss : List Sentence) (n : Nat) : Label := ss[n]?.elim .start (Sentence.label (ss.take n))

theorem labelAt_eq {ss before after : List Sentence} {s : Sentence} (hss : ss = before ++ s :: after) :
    labelAt ss before.length = s.label before := by
  rw [labelAt, hss, List.getElem?_append_right (Nat.le_refl _), Nat.sub_self, List.take_left]
  rfl

/-- Two strings at different places of a text have different labels. -/
theorem label_ne {before mid after : List Sentence} {s s' : Sentence} {raw raw' : Bytes}
    (hnames : (((before ++ s :: (mid ++ s' :: after)).filterMap Sentence.constant?).map Prod.fst).Nodup)
    (hs : s.string? = some raw) (hs' : s'.string? = some raw') :
    s.label before ≠ s'.label (before ++ s :: mid) := by
  unfold Sentence.label
  rcases Sentence.string?_cases hs with ⟨hliteral, hnone⟩ | ⟨-, name, hname⟩ <;>
    rcases Sentence.string?_cases hs' with ⟨hliteral', hnone'⟩ | ⟨-, name', hname'⟩
  · rw [hnone, hnone']
    intro heq
    -- The second literal has the first one before it, so its number is greater.
    have hlength := Label.literal.inj heq
    rw [List.filterMap_append, List.filterMap_cons_some hliteral] at hlength
    simp at hlength
  · rw [hnone, hname']
    rintro ⟨⟩
  · rw [hname, hnone']
    rintro ⟨⟩
  · rw [hname, hname']
    intro heq
    -- No name is declared twice.
    have hsame : name = name' := Label.constant.inj heq
    rw [List.filterMap_append, List.filterMap_cons_some hname, List.filterMap_append,
      List.filterMap_cons_some hname', List.map_append, List.map_cons, List.map_append, List.map_cons] at hnames
    have hnot := (List.nodup_cons.mp (List.nodup_append.mp hnames).2.1).1
    exact hnot (List.mem_append_right _ (by rw [hsame]; exact List.mem_cons_self))

/-- Data under different labels shares no byte. -/
theorem Linked.apart {image : Image} {place : Label → UInt64} {ls : List Line} {l l' : Label} {raw raw' : Bytes}
    (hl : Linked image place ls) (h : .data l raw ∈ ls) (h' : .data l' raw' ∈ ls) (hne : l ≠ l') :
    (place l).toNat + (Line.data l raw).size ≤ (place l').toNat ∨
      (place l').toNat + (Line.data l' raw').size ≤ (place l).toNat := by
  obtain ⟨before, after, hls⟩ := List.append_of_mem h
  obtain ⟨before', after', hls'⟩ := List.append_of_mem h'
  have hplace := hl.label hls rfl
  have hplace' := hl.label hls' rfl
  -- Lines with different labels are different lines, so one of them stands before the other.
  rcases Assembly.eq_or_before (hls.symm.trans hls') with heq | ⟨mid, rfl⟩ | ⟨mid, rfl⟩
  · cases heq
    exact absurd rfl hne
  · left
    rw [hplace, hplace', span_append, span_cons]
    omega
  · right
    rw [hplace, hplace', span_append, span_cons]
    omega

/-- The data of a string stands behind the code, under the label of the string. -/
theorem data_mem_trailer {ss before after : List Sentence} {s : Sentence} {raw : Bytes}
    (hss : ss = before ++ s :: after) (h : s.string? = some raw) :
    .data (s.label before) raw ∈ trailer (ss.filterMap Sentence.literal?) (ss.filterMap Sentence.constant?) := by
  subst hss
  have hparts {l : Line} {literals : List Bytes} {strings : List (Bytes × Bytes)}
      (hl : l ∈ (literals.zipIdx.map fun e => Line.data (.literal e.2) e.1) ∨
        l ∈ strings.map fun e => Line.data (.constant e.1) e.2) : l ∈ trailer literals strings := by
    rw [trailer_eq]
    simp only [List.mem_append]
    tauto
  unfold Sentence.label
  rcases Sentence.string?_cases h with ⟨hliteral, hnone⟩ | ⟨-, name, hname⟩
  · rw [hnone]
    apply hparts
    refine .inl (List.mem_map.mpr ⟨(raw, (before.filterMap Sentence.literal?).length), ?_, rfl⟩)
    rw [List.mem_zipIdx_iff_getElem?, List.filterMap_append, List.filterMap_cons_some hliteral,
      List.getElem?_append_right (Nat.le_refl _), Nat.sub_self]
    rfl
  · rw [hname]
    apply hparts
    refine .inr (List.mem_map.mpr ⟨(name, raw), ?_, rfl⟩)
    rw [List.filterMap_append, List.filterMap_cons_some hname]
    exact List.mem_append_right _ List.mem_cons_self

/-! ## Code that pushes strings -/

/-- At a place, an address is loaded and pushed. -/
structure Pushes (image : Image) (start : Nat) (address : UInt64) : Prop where
  load : image.decode start = .ok ⟨.of .adr, 0, 0, address⟩
  push : image.decode (start + (Opcode.of .adr).width : Nat) = .ok ⟨.of .push, 0, 0, 0⟩

namespace Laid

variable {d : Declarations} {ss before after : List Sentence} {image : Image} {place : Label → UInt64} {t : Token}

/-- A statement that writes the two instructions pushes the place of a label. -/
theorem pushes (h : Laid d ss image place) (hss : ss = before ++ .statement t :: after) {l : Label}
    {g : Generator} (hbefore : Writes d {} before g)
    (hlines : ((g.statement d t).toOption.getD g).lines = (g.push .adr (.label l)).lines) :
    Pushes image (offset d before) (place l) := by
  have hlisting : listing d (before ++ [Sentence.statement t]) =
      listing d before ++ [Line.code .adr [.register 0, .label l], .code .push [.register 0]] := by
    rw [listing, List.foldl_append, hbefore.foldl_read, List.foldl_cons, List.foldl_nil, Generator.read, hlines,
      hbefore.listing_eq]
    simp [Generator.push, Generator.emit, Generator.produce]
  have hhere : Laid d (before ++ [Sentence.statement t]) image place := h.upTo (hss.trans (List.append_cons _ _ _))
  refine ⟨hhere.code hlisting, ?_⟩
  have hpush := hhere.code (hlisting.trans (List.append_cons _ _ _))
  rw [span_append] at hpush
  exact hpush

/-- A string literal pushes the place of its own label. -/
theorem pushes_literal (h : Laid d ss image place) (hss : ss = before ++ .statement t :: after)
    (hk : t.kind = .string) : Pushes image (offset d before) (place (Sentence.label before (.statement t))) := by
  obtain ⟨g', hw⟩ := h.accepted
  rw [hss] at hw
  obtain ⟨g, hbefore, -⟩ := Writes.append_inv hw
  have hcount : g.literals.length = (before.filterMap Sentence.literal?).length := by
    rw [← List.length_reverse, hbefore.literals_eq]
    rfl
  refine h.pushes hss hbefore ?_
  rw [Generator.statement, hk, hcount]
  rfl

/-- The name of a string constant pushes the place of that constant. -/
theorem pushes_constant {n raw : Bytes} (h : Laid d ss image place) (hss : ss = before ++ .statement t :: after)
    (hk : t.kind = .word) (hname : t.text = n) (hconstant : d.constants[n]? = some (.string raw)) :
    Pushes image (offset d before) (place (.constant n)) := by
  obtain ⟨g', hw⟩ := h.accepted
  rw [hss] at hw
  obtain ⟨g, hbefore, -⟩ := Writes.append_inv hw
  refine h.pushes hss hbefore ?_
  rw [Generator.statement, hk]
  dsimp only
  rw [hname, Generator.word_of_unreserved g d (h.sound.constants hconstant).free, Generator.defined, hconstant]
  rfl

end Laid

/-- The strings of a text come through compiling and assembling: each literal and each string constant has an
address, where the image holds the bytes that its raw text stands for and a zero byte, behind all code. A literal
pushes its own address, and the name of a constant pushes that of the constant. No two of them share a byte, also
if their texts are the same. -/
theorem compiled_strings {library? : Option Library} {text : Bytes} {c : Compiled} {a : Assembly.Assembler}
    {p : Assembly.Program} (h : compile library? text = .ok c) (hp : (a.parse c.text).1 = .ok p)
    (hsmall : p.image.size < UInt32.size) :
    ∃ source ts, Expands library? text source ∧ lex source = .ok ts ∧ ∃ address : Nat → UInt64,
      (∀ (before : List Sentence) (s : Sentence) (after : List Sentence) (raw : Bytes),
        sentences ts = before ++ s :: after → s.string? = some raw →
        (∃ left right : Bytes, left ++ Ascii.quote :: (raw ++ Ascii.quote :: right) ∈ Bytes.lines source) ∧
        Stored p.image (address before.length) raw ∧
        offset c.declarations (sentences ts) ≤ (address before.length).toNat) ∧
      (∀ (before : List Sentence) (t : Token) (after : List Sentence),
        sentences ts = before ++ .statement t :: after → t.kind = .string →
        Pushes p.image (offset c.declarations before) (address before.length)) ∧
      (∀ (before : List Sentence) (keyword value const name : Token) (after before' : List Sentence) (t : Token)
        (after' : List Sentence),
        sentences ts = before ++ .definition keyword value const name :: after → value.kind = .string →
        sentences ts = before' ++ .statement t :: after' → t.kind = .word → t.text = name.text →
        Pushes p.image (offset c.declarations before') (address before.length)) ∧
      (∀ (before : List Sentence) (s : Sentence) (mid : List Sentence) (s' : Sentence) (after : List Sentence)
        (raw raw' data data' : Bytes), sentences ts = before ++ s :: (mid ++ s' :: after) →
        s.string? = some raw → s'.string? = some raw' → Escape.decode? raw = some data →
        Escape.decode? raw' = some data' →
        (address before.length).toNat + data.length + 1 ≤ (address (before ++ s :: mid).length).toNat ∨
          (address (before ++ s :: mid).length).toNat + data'.length + 1 ≤ (address before.length).toNat) := by
  obtain ⟨source, ts, hexpands, hlex, hgenerate⟩ := of_compile h
  have hsound := sound_of_lex hlex
  obtain ⟨hliterals, hconstants⟩ := Compiled.strings_eq hsound hgenerate
  obtain ⟨ms, harranged⟩ := Compiled.arranged_of_generate hsound hgenerate
  -- A string may look like a directive, but no line starts with a string, so no library is asked.
  rw [harranged.parse_eq] at hp
  obtain ⟨hlaid, hlinked, hlines⟩ := Compiled.laid hsound hgenerate rfl hp hsmall
  rw [hliterals, hconstants] at hlines
  have hdata {before after : List Sentence} {s : Sentence} {raw : Bytes}
      (hss : sentences ts = before ++ s :: after) (hs : s.string? = some raw) :
      .data (s.label before) raw ∈ c.lines := by
    rw [hlines]
    exact List.mem_append_right _ (data_mem_trailer hss hs)
  refine ⟨source, ts, hexpands, hlex, fun n => place p (labelAt (sentences ts) n), ?_, ?_, ?_, ?_⟩
  · intro before s after raw hss hs
    dsimp only
    rw [labelAt_eq hss]
    refine ⟨?_, hlinked.stored (hdata hss hs), ?_⟩
    · obtain ⟨t, ht, hk, rfl⟩ := mem_of_string (hss ▸ List.mem_append_right _ List.mem_cons_self) hs
      exact quoted_of_lex hlex t ht hk
    · obtain ⟨xs, ys, htrailer⟩ := List.append_of_mem (data_mem_trailer hss hs)
      rw [htrailer, ← List.append_assoc] at hlines
      rw [hlinked.label hlines rfl, span_append]
      exact Nat.le_add_right _ _
  · intro before t after hss hk
    dsimp only
    rw [labelAt_eq hss]
    exact hlaid.pushes_literal hss hk
  · intro before keyword value const name after before' t after' hss hk hss' hk' hname
    dsimp only
    rw [labelAt_eq hss]
    have hmem : (name.text, value.text) ∈ c.declarations.strings := by
      rw [← List.mem_reverse, hconstants, hss, List.filterMap_append,
        List.filterMap_cons_some (Sentence.constant?_string hk)]
      simp
    rw [Sentence.label, Sentence.constant?_string hk]
    exact hlaid.pushes_constant hss' hk' hname (harranged.sound.strings.mp hmem)
  · intro before s mid s' after raw raw' data data' hss hs hs' hraw hraw'
    have hss' : sentences ts = (before ++ s :: mid) ++ s' :: after := by
      rw [hss]
      simp
    have hnames := List.nodup_reverse.mpr harranged.sound.nodup_strings
    rw [← List.map_reverse, hconstants, hss] at hnames
    dsimp only
    rw [labelAt_eq hss, labelAt_eq hss']
    have hapart := hlinked.apart (hdata hss hs) (hdata hss' hs') (label_ne hnames hs hs')
    rw [Line.size, Line.size, hraw, hraw'] at hapart
    exact hapart

/-- A text with one literal twice, full of marks that mean something outside a string. -/
def marked : Bytes :=
  bytes "let \"include .s\" const k method main \x7b \"; \\\" . % // include\" \"; \\\" . % // include\" k \x7d"

theorem compiled_strings_repeated :
    ∃ c p first second constant,
      compile none marked = .ok c ∧
      (({} : Assembly.Assembler).parse c.text).1 = .ok p ∧ p.image.size < UInt32.size ∧
      Stored p.image first (bytes "; \\\" . % // include") ∧ Stored p.image second (bytes "; \\\" . % // include") ∧
      first ≠ second ∧ Stored p.image constant (bytes "include .s") := by
  have hplace : ((compile none marked).toOption.bind fun c =>
        (({} : Assembly.Assembler).parse c.text).1.toOption.map fun p =>
          decide (p.image.size < UInt32.size)) = some true := by
    decide +kernel
  have hstrings : (lex marked).toOption.map (fun ts => (sentences ts).map Sentence.string?) =
      some [some (bytes "include .s"), none, some (bytes "; \\\" . % // include"),
        some (bytes "; \\\" . % // include"), none, none] := by
    decide +kernel
  obtain ⟨c, hcompile, hplace⟩ := Option.bind_eq_some_iff.mp hplace
  obtain ⟨p, hparse, hplace⟩ := Option.map_eq_some_iff.mp hplace
  replace hcompile := eq_ok_of_toOption hcompile
  replace hparse := eq_ok_of_toOption hparse
  have hsmall : p.image.size < UInt32.size := of_decide_eq_true hplace
  obtain ⟨source, ts, rfl, hlex, address, hstored, -, -, hapart⟩ := compiled_strings hcompile hparse hsmall
  rw [hlex] at hstrings
  obtain ⟨definition, ss, hss, hdefinition, hstrings⟩ := List.map_eq_cons_iff.mp (Option.some.inj hstrings)
  obtain ⟨head, ss, rfl, -, hstrings⟩ := List.map_eq_cons_iff.mp hstrings
  obtain ⟨s, ss, rfl, hs, hstrings⟩ := List.map_eq_cons_iff.mp hstrings
  obtain ⟨s', ss, rfl, hs', -⟩ := List.map_eq_cons_iff.mp hstrings
  have hfirst := (hstored [definition, head] s (s' :: ss) _ hss hs).2.1
  have hsecond := (hstored [definition, head, s] s' ss _ hss hs').2.1
  refine ⟨c, p, address 2, address 3, address 0, hcompile, hparse, hsmall, hfirst, hsecond, ?_,
    (hstored [] definition _ _ hss hdefinition).2.1⟩
  obtain ⟨data, -, hdata, -⟩ := hfirst
  have hne := hapart [definition, head] s [] s' ss _ _ data data hss hs hs' hdata hdata
  intro heq
  change (address 2).toNat + data.length + 1 ≤ (address 3).toNat ∨
    (address 3).toNat + data.length + 1 ≤ (address 2).toNat at hne
  rw [heq] at hne
  omega

end WordMachine.Source
