import Mathlib
import WordMachine.Proofs.Source.WordCode

/-!
# `Proofs.Source.Statements` — the code of a statement does what its token means

A literal, a name or a word of the table is generated as code that does what the token means. Names stand
for what their definitions say, wherever in the text those are, and strings stand in the image at the
addresses that the code pushes.

Contents:
* `Definition.Holds`, `Declarations.Reads.constant`: the constants that declaring finds;
* `Stored`, `Strings`: the string data of a program, `Compiled.Arranged.strings`;
* `Generator.Straight`, `straight_of_statement`.
-/

namespace WordMachine.Source

/-! ## Constants -/

/-- A constant that a definition introduces. -/
inductive Definition.Holds : Definition → Constant → Prop where
  | value {t : Token} {c : Constant} (sound : t.Sound) (h : Constant.ofToken? t = some c) : Holds (.value t) c
  | memory (address size : UInt64) : Holds (.memory address) (.memory address size)

namespace Declarations

/-- A new name leaves the other constants as they are. -/
theorem getElem?_insert_of_free {constants : Std.TreeMap Bytes Constant} {n k : Bytes} {c c' : Constant}
    (hfree : constants[n]? = none) (hk : constants[k]? = some c) : (constants.insert n c')[k]? = some c := by
  refine getElem?_insert.mpr (Or.inr ⟨?_, hk⟩)
  rintro rfl
  rw [hfree] at hk
  cases hk

/-- Sentences do not change what a name already stands for. -/
theorem Reads.keeps {d d' : Declarations} {ss : List Sentence} (h : d.Reads ss d') {n : Bytes} {c : Constant}
    (hc : d.constants[n]? = some c) : d'.constants[n]? = some c := by
  induction h with
  | nil => exact hc
  | method step _ ih =>
    obtain ⟨-, -, -, rfl⟩ := of_addMethod step
    exact ih hc
  | value _ _ step _ ih =>
    obtain ⟨_, -, -, -, hfree, rfl⟩ := of_addLet step
    exact ih (getElem?_insert_of_free hfree hc)
  | memory _ _ step _ ih =>
    obtain ⟨-, -, -, hfree, rfl⟩ := of_addMemory step
    exact ih (getElem?_insert_of_free hfree hc)
  | statement _ ih => exact ih hc

/-- The definition of a name is found, and memory is set aside where the sentences before it end. -/
theorem Reads.constant {d d' : Declarations} {ss : List Sentence} (h : d.Reads ss d') {n : Bytes} {x : Definition}
    (hx : (definitionsFrom d.memory ss).lookup n = some x) : ∃ c, x.Holds c ∧ d'.constants[n]? = some c := by
  induction h with
  | nil => cases hx
  | method step _ ih =>
    obtain ⟨-, -, -, rfl⟩ := of_addMethod step
    exact ih hx
  | @value d next d' keyword value const name ss sound keyword_ne step rest ih =>
    obtain ⟨c, hc, -, -, -, hnext⟩ := of_addLet step
    rw [definitionsFrom, if_neg keyword_ne, List.lookup_cons] at hx
    by_cases hn : n = name.text
    · rw [beq_iff_eq.mpr hn] at hx
      cases hx
      -- the name is taken from here on, so no later definition replaces it
      refine ⟨c, .value sound hc, rest.keeps ?_⟩
      rw [hnext]
      exact getElem?_insert.mpr (Or.inl ⟨hn.symm, rfl⟩)
    · rw [beq_eq_false_iff_ne.mpr hn] at hx
      have hmemory : next.memory = d.memory := by rw [hnext]
      rw [← hmemory] at hx
      exact ih hx
  | @memory d next d' keyword size const name ss sound keyword_eq step rest ih =>
    obtain ⟨hkind, -, -, -, hnext⟩ := of_addMemory step
    rw [definitionsFrom, if_pos keyword_eq, List.lookup_cons] at hx
    by_cases hn : n = name.text
    · rw [beq_iff_eq.mpr hn] at hx
      cases hx
      refine ⟨_, .memory d.memory size.value, rest.keeps ?_⟩
      rw [hnext]
      exact getElem?_insert.mpr (Or.inl ⟨hn.symm, rfl⟩)
    · rw [beq_eq_false_iff_ne.mpr hn] at hx
      have hmemory : next.memory = d.memory + UInt64.ofInt (integerValue size.text) := by
        rw [hnext, sound.integer hkind]
      rw [← hmemory] at hx
      exact ih hx
  | statement _ ih => exact ih hx

end Declarations

/-! ## Strings -/

/-- The string of a raw text stands at an address of an image, with a zero byte after it. -/
def Stored (image : Image) (address : UInt64) (raw : Bytes) : Prop :=
  ∃ text rest, Escape.decode? raw = some text ∧ image.toList.drop address.toNat = text ++ 0 :: rest

/-- The strings of a program stand at the places of their labels. -/
structure Strings (image : Image) (place : Label → UInt64) (d : Declarations) (literals : List Bytes) : Prop where
  literal {n : Nat} {raw : Bytes} (h : literals[n]? = some raw) : Stored image (place (.literal n)) raw
  constant {n raw : Bytes} (h : d.constants[n]? = some (.string raw)) : Stored image (place (.constant n)) raw

theorem Linked.stored {image : Image} {place : Label → UInt64} {ls : List Line} {l : Label} {raw : Bytes}
    (hl : Linked image place ls) (h : .data l raw ∈ ls) : Stored image (place l) raw := by
  obtain ⟨before, after, hls⟩ := List.append_of_mem h
  obtain ⟨text, rest, htext, hdrop⟩ := hl.data hls
  rw [← hl.label hls rfl] at hdrop
  exact ⟨text, rest, htext, hdrop⟩

theorem Compiled.Arranged.strings {c : Compiled} {ms : List Method} {image : Image} {place : Label → UInt64}
    (h : c.Arranged ms) (hl : Linked image place c.lines) : Strings image place c.declarations c.literals where
  literal {n raw} hn := by
    apply hl.stored
    have hdata : .data (.literal n) raw ∈ c.literals.zipIdx.map fun e => Line.data (.literal e.2) e.1 :=
      List.mem_map.mpr ⟨(raw, n), List.mem_zipIdx_iff_getElem?.mpr hn, rfl⟩
    rw [h.lines, trailer_eq]
    simp only [List.mem_append]
    tauto
  constant {n raw} hn := by
    apply hl.stored
    have hmem : (n, raw) ∈ c.declarations.strings := h.sound.strings.mpr hn
    have hdata : .data (.constant n) raw ∈
        c.declarations.strings.reverse.map fun e => Line.data (.constant e.1) e.2 :=
      List.mem_map.mpr ⟨(n, raw), List.mem_reverse.mpr hmem, rfl⟩
    rw [h.lines, trailer_eq]
    simp only [List.mem_append]
    tauto

/-! ## Literals -/

theorem literal_of_sound (image : Bytes) {t : Token} (ht : t.Sound) (hword : t.kind ≠ .word)
    (hstring : t.kind ≠ .string) : Literal image t t.value := by
  cases hk : t.kind with
  | integer =>
    rw [ht.integer hk]
    exact .integer hk
  | double => exact .double hk (ht.double hk)
  | char =>
    obtain ⟨b, hb, hvalue⟩ := ht.char hk
    rw [hvalue]
    exact .char hk hb
  | word => exact absurd hk hword
  | string => exact absurd hk hstring
  | unassigned n => exact absurd hk (ht.kind n)

theorem literal_of_stored {image : Image} {address : UInt64} {t : Token} (hk : t.kind = .string)
    (h : Stored image address t.text) : Literal image.toList t address := by
  obtain ⟨text, rest, htext, hdrop⟩ := h
  exact .string hk htext hdrop

/-! ## Words -/

/-- All words of the table but `not` are sequences or comparisons. -/
theorem Word.eq_not_of_ofText? {text : Bytes} {w : Word} (h : ofText? text = some w)
    (hsnippet : Snippet.ofWord? text = none) (hcomparison : Comparison.ofWord? text = none) :
    text = bytes "not" := by
  have hall : table.all (fun entry => (Snippet.ofWord? entry.1).isSome || (Comparison.ofWord? entry.1).isSome ||
      entry.1 == bytes "not") = true := by
    decide
  obtain ⟨entry, hentry, rfl⟩ := Option.map_eq_some_iff.mp h
  obtain rfl : entry.1 = text := by simpa using List.find?_some hentry
  have hone := List.all_eq_true.mp hall entry (List.mem_of_find?_eq_some hentry)
  rw [hsnippet, hcomparison] at hone
  simpa using hone

/-- A name that a text may define is no word of the table. -/
theorem Word.ofText?_of_nameable {n : Bytes} (hn : Nameable n) : ofText? n = none := by
  obtain ⟨hsnippet, hcomparison, hne⟩ := unreserved hn.free
  by_contra hsome
  obtain ⟨w, hw⟩ := Option.ne_none_iff_exists'.mp hsome
  exact hne _ (by decide) (eq_not_of_ofText? hw hsnippet hcomparison)

/-! ## Statements -/

/-- A statement adds code that does what its token means, and leaves the method and its blocks open. -/
structure Generator.Straight (e : Setting) (place : Label → UInt64) (ss : List Sentence) (t : Token)
    (g g' : Generator) (code : List Line) (w : Word) : Prop where
  lines : g'.lines = code.reverse ++ g.lines
  blocks : g'.blocks = g.blocks
  inMethod : g'.inMethod = g.inMethod
  means : Means e.image.toList ss (fun n => place (.constant n)) t w
  implements (returns : List UInt32) : Implements e returns place code w

namespace Generator

variable {e : Setting} {place : Label → UInt64} {ss : List Sentence} {d : Declarations}
  {literals : List Bytes} {t : Token} {g g' : Generator} {w : Word}

/-- Pushing the value that a token means. -/
theorem straight_push {op : Operation} {arg : Argument} (literals : List Bytes)
    (hop : ∀ (m : Machine) (dst src : Register) (imm : UInt64) (next : Int),
      m.perform op dst src imm next = (m.setReg dst imm).goOn next)
    (h : Means e.image.toList ss (fun n => place (.constant n)) t (.value (immediate place [.register 0, arg]))) :
    ∃ code w, Straight e place ss t g { g.push op arg with literals := literals } code w :=
  ⟨_, _, rfl, rfl, rfl, h, fun _ => implements_value hop rfl⟩

theorem straight_of_ofText? (hk : t.kind = .word) (hw : Word.ofText? t.text = some w)
    (h : g.word d t.text = .ok g') : ∃ code, Straight e place ss t g g' code w := by
  unfold word at h
  split at h
  next s hs =>
    obtain ⟨depth, -, rfl⟩ := snippet_eq h
    exact ⟨_, rfl, rfl, rfl, .word hk hw, fun _ => implements_snippet hw hs⟩
  next hsnippet =>
    split at h
    next c hc =>
      obtain ⟨depth, -, rfl⟩ := comparison_eq h
      exact ⟨_, rfl, rfl, rfl, .word hk hw, fun _ => implements_compared hw hc _⟩
    next hcomparison =>
      have hnot := Word.eq_not_of_ofText? hw hsnippet hcomparison
      rw [if_pos hnot] at h
      obtain ⟨depth, -, rfl⟩ := negation_eq h
      have hmeans : Means e.image.toList ss (fun n => place (.constant n)) t w := .word hk hw
      rw [hnot] at hw
      cases hw
      exact ⟨_, rfl, rfl, rfl, hmeans, fun _ => implements_negation _⟩

/-- The name of a constant pushes what its definition says. -/
theorem straight_of_define? (hd : d.Sound) (hreads : Declarations.Reads {} ss d)
    (hstrings : Strings e.image place d literals) (hk : t.kind = .word) {x : Definition}
    (hx : define? ss t.text = some x) (h : g.word d t.text = .ok g') :
    ∃ code w, Straight e place ss t g g' code w := by
  obtain ⟨c, hholds, hc⟩ := hreads.constant hx
  rw [word_of_unreserved g d (hd.constants hc).free, defined, hc] at h
  cases h
  cases hholds with
  | memory address size => exact straight_push g.literals (fun _ _ _ _ _ => rfl) (.memory hk hx)
  | @value u c sound hu =>
    rcases Constant.ofToken?_cases sound hu with ⟨hkind, rfl⟩ | ⟨hkind, rfl⟩ | ⟨hkind, rfl⟩
    · have hliteral := literal_of_stored hkind (hstrings.constant hc)
      exact straight_push g.literals (fun _ _ _ _ _ => rfl) (.constant hk hx hliteral fun _ => rfl)
    · have hstring : u.kind ≠ .string := by simp [hkind]
      have hliteral := literal_of_sound e.image.toList sound (by simp [hkind]) hstring
      exact straight_push g.literals (fun _ _ _ _ _ => rfl) (.constant hk hx hliteral fun hs => absurd hs hstring)
    · have hstring : u.kind ≠ .string := by rcases hkind with hkind | hkind <;> simp [hkind]
      have hword : u.kind ≠ .word := by rcases hkind with hkind | hkind <;> simp [hkind]
      have hliteral := literal_of_sound e.image.toList sound hword hstring
      exact straight_push g.literals (fun _ _ _ _ _ => rfl) (.constant hk hx hliteral fun hs => absurd hs hstring)

/-- A statement of straight code does what its token means. The literals are those of the whole program, so
that a string keeps the index it has now. -/
theorem straight_of_statement (hd : d.Sound) (hreads : Declarations.Reads {} ss d)
    (hstrings : Strings e.image place d literals) (ht : t.Sound) (hplain : t.isPlain ss = true)
    (h : g.statement d t = .ok g') (hliterals : g'.literals.reverse <+: literals) :
    ∃ code w, Straight e place ss t g g' code w := by
  unfold statement at h
  unfold Token.isPlain at hplain
  cases hk : t.kind with
  | integer =>
    obtain rfl : g.push .mov (.word t.value) = g' := by simpa [hk] using h
    have hliteral := literal_of_sound e.image.toList ht (by simp [hk]) (by simp [hk])
    exact straight_push g.literals (fun _ _ _ _ _ => rfl) (.literal hliteral)
  | double =>
    obtain rfl : g.push .mov (.word t.value) = g' := by simpa [hk] using h
    have hliteral := literal_of_sound e.image.toList ht (by simp [hk]) (by simp [hk])
    exact straight_push g.literals (fun _ _ _ _ _ => rfl) (.literal hliteral)
  | char =>
    obtain rfl : g.push .adr (.short t.value) = g' := by simpa [hk] using h
    have hliteral := literal_of_sound e.image.toList ht (by simp [hk]) (by simp [hk])
    exact straight_push g.literals (fun _ _ _ _ _ => rfl) (.literal hliteral)
  | string =>
    rw [hk] at h
    cases h
    -- the new literal comes after those before it, also among all literals of the program
    have hnew : literals[g.literals.length]? = some t.text := by
      obtain ⟨later, rfl⟩ := hliterals
      simp
    have hliteral := literal_of_stored hk (hstrings.literal hnew)
    exact straight_push (t.text :: g.literals) (fun _ _ _ _ _ => rfl) (.literal hliteral)
  | word =>
    rw [hk] at h hplain
    rcases Bool.or_eq_true_iff.mp hplain with hw | hx
    · obtain ⟨w, hw⟩ := Option.isSome_iff_exists.mp hw
      obtain ⟨code, hcode⟩ := straight_of_ofText? hk hw h
      exact ⟨code, w, hcode⟩
    · obtain ⟨x, hx⟩ := Option.isSome_iff_exists.mp hx
      exact straight_of_define? hd hreads hstrings hk hx h
  | unassigned n => exact absurd hk (ht.kind n)

end Generator

end WordMachine.Source
