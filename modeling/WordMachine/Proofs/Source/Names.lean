import Mathlib
import WordMachine.Proofs.Source.Listing

/-!
# `Proofs.Source.Names` — what lexing and declaring promise

Tokens that come from a text have a known kind, characters of one byte, and strings whose raw text can be
pasted into assembly. Names that a text defines are identifiers of their own, so no two labels of
generated code are written the same way.

Contents:
* `Token.Sound`, `sound_of_lex`;
* `Nameable`, `Declarations.Sound`, `sound_of_declare`;
* `Label.Proper`, `Label.named_of_proper`, `Label.name_injective`.
-/

namespace WordMachine

namespace Source

/-! ## Tokens -/

/-- The integer that decimal digits stand for, perhaps after a minus sign. -/
def integerValue (text : Bytes) : Int :=
  if text.head? = some Ascii.minus then -(Numeral.value text.tail : Int) else Numeral.value text

/-- What lexing promises of a token. -/
structure Token.Sound (t : Token) : Prop where
  kind (n : Int) : t.kind ≠ .unassigned n
  integer : t.kind = .integer → t.value = UInt64.ofInt (integerValue t.text)
  double : t.kind = .double → number t.text = .ok (some (.double, t.value))
  char : t.kind = .char → ∃ b, Escape.decode? t.text = some [b] ∧ t.value = b.toUInt64
  string : t.kind = .string → IsRaw t.text

theorem Token.Sound.char_lt {t : Token} (h : t.Sound) (hk : t.kind = .char) : t.value.toNat < 256 := by
  obtain ⟨b, -, hvalue⟩ := h.char hk
  rw [hvalue, UInt8.toNat_toUInt64]
  exact b.toNat_lt

/-- Raw text that was read up to its quote and stands for bytes is read the same way in assembly. -/
theorem quoted_of_quoted? {quote : UInt8} {text raw after : Bytes}
    (h : quoted? quote text = some (raw, after)) (hd : (Escape.decode? raw).isSome) :
    text = raw ++ quote :: after ∧
      ∀ cause rest, Assembly.Lexeme.quoted quote cause (raw ++ quote :: rest) = .ok (raw, rest) := by
  fun_induction quoted? quote text generalizing raw after with
  | case1 => cases h
  | case2 => cases h
  | case3 d tail ih =>
    obtain ⟨⟨raw', after'⟩, hr, heq⟩ := Option.map_eq_some_iff.mp h
    obtain ⟨rfl, rfl⟩ := Prod.mk.inj heq
    unfold Escape.decode? at hd
    rw [if_pos rfl] at hd
    dsimp only at hd
    -- the assembler stops at an escape that it does not know; here it knows all of them
    cases hbyte : Escape.byteOf? d with
    | none => simp [hbyte] at hd
    | some b =>
      have hdecoded : (Escape.decode? raw').isSome := by simpa [hbyte] using hd
      obtain ⟨htext, hquoted⟩ := ih hr hdecoded
      refine ⟨by rw [htext]; rfl, fun cause rest => ?_⟩
      show Assembly.Lexeme.quoted quote cause (Ascii.backslash :: d :: (raw' ++ quote :: rest)) = _
      rw [Assembly.Lexeme.quoted, if_pos rfl]
      simp only [hbyte, Option.isSome_some, if_true, hquoted cause rest]
  | case4 rest hc =>
    obtain ⟨rfl, rfl⟩ := Prod.mk.inj (Option.some.inj h)
    refine ⟨rfl, fun cause rest => ?_⟩
    show Assembly.Lexeme.quoted quote cause (quote :: rest) = _
    unfold Assembly.Lexeme.quoted
    rw [if_neg hc, if_pos rfl]
  | case5 c rest hc hq ih =>
    obtain ⟨⟨raw', after'⟩, hr, heq⟩ := Option.map_eq_some_iff.mp h
    obtain ⟨rfl, rfl⟩ := Prod.mk.inj heq
    have hdecoded : (Escape.decode? raw').isSome := by
      unfold Escape.decode? at hd
      rw [if_neg hc] at hd
      simpa using hd
    obtain ⟨htext, hquoted⟩ := ih hr hdecoded
    refine ⟨by rw [htext]; rfl, fun cause rest => ?_⟩
    show Assembly.Lexeme.quoted quote cause (c :: (raw' ++ quote :: rest)) = _
    unfold Assembly.Lexeme.quoted
    rw [if_neg hc, if_neg hq, hquoted cause rest]

theorem sound_of_string {line : Int} {source rest after : Bytes} {t : Token}
    (h : string line source rest = .ok (t, after)) (hn : Ascii.newline ∉ rest) :
    t.Sound ∧ Ascii.newline ∉ after := by
  unfold string at h
  split at h
  · cases h
  next raw after' hquoted =>
    split at h
    next hdecoded =>
      cases h
      obtain ⟨rfl, hread⟩ := quoted_of_quoted? hquoted hdecoded
      simp only [List.mem_append, List.mem_cons, not_or] at hn
      exact ⟨⟨nofun, nofun, nofun, nofun, fun _ => ⟨hn.1, hread _, hdecoded⟩⟩, hn.2.2⟩
    · cases h

theorem sound_of_char {line : Int} {source rest after : Bytes} {t : Token}
    (h : char line source rest = .ok (t, after)) (hn : Ascii.newline ∉ rest) :
    t.Sound ∧ Ascii.newline ∉ after := by
  unfold char at h
  split at h
  · cases h
  next raw after' hquoted =>
    split at h
    · cases h
    next b hdecoded =>
      cases h
      obtain ⟨rfl, -⟩ := quoted_of_quoted? hquoted (by rw [hdecoded]; rfl)
      simp only [List.mem_append, List.mem_cons, not_or] at hn
      exact ⟨⟨nofun, nofun, nofun, fun _ => ⟨b, hdecoded, by simp⟩, nofun⟩, hn.2.2⟩
    · cases h

theorem ofInt_natCast (n : Nat) : UInt64.ofInt n = n.toUInt64 := by
  have hmod : ((n : Int) % 2 ^ 64).toNat = n % 2 ^ 64 := by
    rw [← Int.toNat_natCast (n % 2 ^ 64)]
    push_cast
    rfl
  apply UInt64.toNat_inj.mp
  rw [UInt64.ofInt, hmod]
  simp

theorem hasPrefix_minus (w : Bytes) : Bytes.hasPrefix (bytes "-") w = true ↔ w.head? = some Ascii.minus := by
  cases w with
  | nil => exact ⟨fun h => absurd h (by decide), nofun⟩
  | cons c rest =>
    show ((Ascii.minus == c) && true) = true ↔ some c = some Ascii.minus
    rw [Bool.and_true, beq_iff_eq, Option.some.injEq, eq_comm]

theorem value_of_integer? {w : Bytes} {value : UInt64}
    (hdigits : (Bytes.dropPrefix (bytes "-") w).all Ascii.isDigit = true)
    (h : integer? (Bytes.hasPrefix (bytes "-") w) (Bytes.dropPrefix (bytes "-") w) = some value) :
    value = UInt64.ofInt (integerValue w) := by
  have hne : Bytes.dropPrefix (bytes "-") w ≠ [] := by
    intro hnil
    rw [hnil] at h
    cases h
  unfold integer? at h
  rw [Numeral.ofDigits?_digits hdigits hne] at h
  dsimp only at h
  by_cases hminus : w.head? = some Ascii.minus
  · have hdrop : Bytes.dropPrefix (bytes "-") w = w.tail := by
      rw [Bytes.dropPrefix, if_pos ((hasPrefix_minus w).mpr hminus)]
      exact List.drop_one
    rw [if_pos ((hasPrefix_minus w).mpr hminus), hdrop, Numeral.fitSigned?, if_pos rfl] at h
    rw [integerValue, if_pos hminus]
    split at h
    · exact (Option.some.inj h).symm
    · cases h
  · have hnot : Bytes.hasPrefix (bytes "-") w = false := by
      rw [Bool.eq_false_iff]
      exact fun hprefix => hminus ((hasPrefix_minus w).mp hprefix)
    have hdrop : Bytes.dropPrefix (bytes "-") w = w := by
      rw [Bytes.dropPrefix, if_neg (by rw [hnot]; exact Bool.false_ne_true)]
    rw [hnot, if_neg Bool.false_ne_true, hdrop] at h
    rw [integerValue, if_neg hminus]
    split at h
    · cases h
      exact (ofInt_natCast _).symm
    · cases h

theorem number_cases {w : Bytes} {kind : Kind} {value : UInt64} (h : number w = .ok (some (kind, value))) :
    (kind = .integer ∧ value = UInt64.ofInt (integerValue w)) ∨ kind = .double := by
  unfold number at h
  simp only at h
  split at h
  · cases h
  · split at h
    next hdigits =>
      split at h
      next hinteger =>
        cases h
        exact Or.inl ⟨rfl, value_of_integer? hdigits hinteger⟩
      · cases h
    · split at h
      · cases h
        exact Or.inr rfl
      · cases h

theorem sound_of_word {line : Int} {source rest after : Bytes} {c : UInt8} {t : Token}
    (h : word line source c rest = .ok (t, after)) (hn : Ascii.newline ∉ rest) :
    t.Sound ∧ Ascii.newline ∉ after := by
  have hafter : Ascii.newline ∉ rest.dropWhile fun d => !isBlank d :=
    fun hmem => hn ((List.dropWhile_sublist _).mem hmem)
  unfold word at h
  simp only at h
  split at h
  · cases h
  next kind value hnumber =>
    cases h
    refine ⟨?_, hafter⟩
    rcases number_cases hnumber with ⟨rfl, hvalue⟩ | rfl
    · exact ⟨nofun, fun _ => hvalue, nofun, nofun, nofun⟩
    · exact ⟨nofun, nofun, fun _ => hnumber, nofun, nofun⟩
  · cases h
    exact ⟨⟨nofun, nofun, nofun, nofun, nofun⟩, hafter⟩

/-- A token of a line stands behind blanks, and its first byte tells how it is read. -/
theorem read_of_next {line : Int} {source text after : Bytes} {t : Token}
    (h : next line source text = .ok (some (t, after))) :
    ∃ blanks c rest, text = blanks ++ c :: rest ∧
      (c = Ascii.quote ∧ string line source rest = .ok (t, after) ∨ char line source rest = .ok (t, after) ∨
        word line source c rest = .ok (t, after)) := by
  have some_of_map {e : Except Cause (Token × Bytes)} (he : e.map some = .ok (some (t, after))) :
      e = .ok (t, after) := by
    cases e with
    | error _ => cases he
    | ok r => simpa [Except.map] using he
  induction text with
  | nil => cases h
  | cons c rest ih =>
    rw [next] at h
    split at h
    · obtain ⟨blanks, c', rest', hrest, hread⟩ := ih h
      exact ⟨c :: blanks, c', rest', by rw [hrest, List.cons_append], hread⟩
    · refine ⟨[], c, rest, rfl, ?_⟩
      split at h
      · cases h
      · split at h
        next hquote => exact .inl ⟨hquote, some_of_map h⟩
        · split at h
          · exact .inr (.inl (some_of_map h))
          · exact .inr (.inr (some_of_map h))

theorem sound_of_next {line : Int} {source text after : Bytes} {t : Token}
    (h : next line source text = .ok (some (t, after))) (hn : Ascii.newline ∉ text) :
    t.Sound ∧ Ascii.newline ∉ after := by
  obtain ⟨blanks, c, rest, rfl, hread⟩ := read_of_next h
  have hrest : Ascii.newline ∉ rest :=
    fun hmem => hn (List.mem_append_right blanks (List.mem_cons_of_mem c hmem))
  rcases hread with ⟨-, hstring⟩ | hchar | hword
  · exact sound_of_string hstring hrest
  · exact sound_of_char hchar hrest
  · exact sound_of_word hword hrest

theorem sound_of_lexFrom {line : Int} {source text : Bytes} {ts : List Token}
    (h : lexFrom line source text = .ok ts) (hn : Ascii.newline ∉ text) : ∀ t ∈ ts, t.Sound := by
  fun_induction lexFrom line source text generalizing ts with
  | case1 => cases h
  | case2 => cases h; simp
  | case3 => cases h
  | case4 text t rest hnext _ more _ ih =>
    cases h
    obtain ⟨hsound, hrest⟩ := sound_of_next hnext hn
    exact List.forall_mem_cons.mpr ⟨hsound, ih (by assumption) hrest⟩

theorem sound_of_lexLines {number : Nat} {lines : List Bytes} {ts : List Token}
    (h : lexLines number lines = .ok ts) (hn : ∀ line ∈ lines, Ascii.newline ∉ line) :
    ∀ t ∈ ts, t.Sound := by
  fun_induction lexLines number lines generalizing ts with
  | case1 => cases h; simp
  | case2 => cases h
  | case3 => cases h
  | case4 number line rest tokens hline more hmore ih =>
    cases h
    refine List.forall_mem_append.mpr ⟨?_, ih hmore fun l hl => hn l (List.mem_cons_of_mem line hl)⟩
    unfold lexLine at hline
    split at hline
    · cases hline
    next hlex =>
      cases hline
      exact sound_of_lexFrom hlex (hn line List.mem_cons_self)

/-- All tokens of a text are sound. -/
theorem sound_of_lex {text : Bytes} {ts : List Token} (h : lex text = .ok ts) : ∀ t ∈ ts, t.Sound :=
  sound_of_lexLines h (Bytes.newline_notMem_linesFrom (by simp))

/-! ## Definitions -/

/-- A name that a text may define. -/
structure Nameable (n : Bytes) : Prop where
  name : isName n = true
  free : isReserved n = false

/-- The constants that tokens with a kind stand for. -/
theorem Constant.ofToken?_cases {t : Token} {c : Constant} (ht : t.Sound) (h : ofToken? t = some c) :
    (t.kind = .string ∧ c = .string t.text) ∨ (t.kind = .char ∧ c = .char t.value) ∨
      ((t.kind = .integer ∨ t.kind = .double) ∧ c = .number t.value) := by
  unfold ofToken? at h
  cases hkind : t.kind with
  | word => simp [hkind] at h
  | string => exact Or.inl ⟨rfl, by simpa [hkind] using h.symm⟩
  | char => exact Or.inr (Or.inl ⟨rfl, by simpa [hkind] using h.symm⟩)
  | integer => exact Or.inr (Or.inr ⟨Or.inl rfl, by simpa [hkind] using h.symm⟩)
  | double => exact Or.inr (Or.inr ⟨Or.inr rfl, by simpa [hkind] using h.symm⟩)
  | unassigned n => exact absurd hkind (ht.kind n)

/-- What declaring promises of the names of a text. -/
structure Declarations.Sound (d : Declarations) : Prop where
  methods : ∀ n ∈ d.methods, Nameable n
  nodup_methods : d.methods.Nodup
  constants {n : Bytes} {c : Constant} : d.constants[n]? = some c → Nameable n
  char {n : Bytes} {value : UInt64} : d.constants[n]? = some (.char value) → value.toNat < 256
  strings {n raw : Bytes} : (n, raw) ∈ d.strings ↔ d.constants[n]? = some (.string raw)
  nodup_strings : (d.strings.map (·.1)).Nodup
  raw {n raw : Bytes} : d.constants[n]? = some (.string raw) → IsRaw raw

namespace Declarations

theorem sound_empty : Sound {} where
  methods := by simp
  nodup_methods := List.nodup_nil
  constants h := by simp at h
  char h := by simp at h
  strings := by simp
  nodup_strings := List.nodup_nil
  raw h := by simp at h

/-- A token that becomes a name is a word, and its text is free. -/
theorem of_define {d : Declarations} {t : Token} {n : Bytes} (h : d.define t = .ok n) :
    n = t.text ∧ t.kind = .word ∧ Nameable n ∧ n ∉ d.methods ∧ d.constants[n]? = none := by
  unfold define at h
  split at h
  · cases h
  next hname =>
    split at h
    · cases h
    next hfree =>
      cases h
      simp only [Bool.or_eq_true, not_or, bne_iff_ne, ne_eq, not_not, Bool.not_eq_true', Bool.not_eq_false,
        Bool.not_eq_true] at hname
      simp only [Bool.or_eq_true, not_or, List.contains_iff_mem, Std.TreeMap.contains_iff_mem] at hfree
      exact ⟨rfl, hname.1.1, ⟨hname.1.2, hname.2⟩, hfree.1, Std.TreeMap.getElem?_eq_none hfree.2⟩

theorem of_addMethod {d d' : Declarations} {name : Token} (h : d.addMethod name = .ok d') :
    Nameable name.text ∧ name.text ∉ d.methods ∧ d.constants[name.text]? = none ∧
      d' = { d with methods := name.text :: d.methods } := by
  unfold addMethod at h
  split at h
  · cases h
  next n hdefine =>
    cases h
    obtain ⟨rfl, -, hname, hmethod, hconstant⟩ := of_define hdefine
    exact ⟨hname, hmethod, hconstant, rfl⟩

/-- Strings are listed apart from other constants. -/
theorem of_addLet {d d' : Declarations} {value name : Token} (h : d.addLet value name = .ok d') :
    ∃ c, Constant.ofToken? value = some c ∧ Nameable name.text ∧ name.text ∉ d.methods ∧
      d.constants[name.text]? = none ∧
      d' = { d with
        constants := d.constants.insert name.text c
        strings :=
          match c with
          | .string raw => (name.text, raw) :: d.strings
          | _ => d.strings } := by
  unfold addLet at h
  split at h
  · cases h
  next n hdefine =>
    obtain ⟨rfl, -, hname, hmethod, hconstant⟩ := of_define hdefine
    split at h
    · cases h
    next c hc =>
      cases h
      exact ⟨c, hc, hname, hmethod, hconstant, rfl⟩

theorem of_addMemory {d d' : Declarations} {size name : Token} (h : d.addMemory size name = .ok d') :
    size.kind = .integer ∧ Nameable name.text ∧ name.text ∉ d.methods ∧ d.constants[name.text]? = none ∧
      d' = { d with
        constants := d.constants.insert name.text (.memory d.memory size.value)
        memory := d.memory + size.value } := by
  unfold addMemory at h
  split at h
  · cases h
  next n hdefine =>
    obtain ⟨rfl, -, hname, hmethod, hconstant⟩ := of_define hdefine
    split at h
    next hkind =>
      cases h
      exact ⟨hkind, hname, hmethod, hconstant, rfl⟩
    · cases h

theorem sound_of_addMethod {d d' : Declarations} {t : Token} (hd : d.Sound)
    (h : d.addMethod t = .ok d') : d'.Sound := by
  obtain ⟨hname, hfree, -, rfl⟩ := of_addMethod h
  exact { hd with
    methods := List.forall_mem_cons.mpr ⟨hname, hd.methods⟩
    nodup_methods := List.nodup_cons.mpr ⟨hfree, hd.nodup_methods⟩ }

theorem getElem?_insert {constants : Std.TreeMap Bytes Constant} {n k : Bytes} {c c' : Constant} :
    (constants.insert n c)[k]? = some c' ↔ (n = k ∧ c = c') ∨ (n ≠ k ∧ constants[k]? = some c') := by
  rw [Std.TreeMap.getElem?_insert]
  by_cases hk : n = k
  · simp [hk]
  · simp [hk]

/-- A constant that holds no string leaves the list of strings as it is. -/
theorem sound_insert {d : Declarations} {n : Bytes} {c : Constant} (hd : d.Sound) (hname : Nameable n)
    (hfree : d.constants[n]? = none) (hc : ∀ raw, c ≠ .string raw)
    (hchar : ∀ value, c = .char value → value.toNat < 256) (memory : UInt64) :
    Sound { d with constants := d.constants.insert n c, memory := memory } where
  methods := hd.methods
  nodup_methods := hd.nodup_methods
  constants h := by
    rcases getElem?_insert.mp h with ⟨rfl, -⟩ | ⟨-, h⟩
    · exact hname
    · exact hd.constants h
  char h := by
    rcases getElem?_insert.mp h with ⟨-, h⟩ | ⟨-, h⟩
    · exact hchar _ h
    · exact hd.char h
  strings {k raw} := by
    rw [getElem?_insert]
    constructor
    · intro h
      have hk := hd.strings.mp h
      refine Or.inr ⟨?_, hk⟩
      rintro rfl
      rw [hfree] at hk
      cases hk
    · rintro (⟨-, h⟩ | ⟨-, h⟩)
      · exact absurd h (hc raw)
      · exact hd.strings.mpr h
  nodup_strings := hd.nodup_strings
  raw h := by
    rcases getElem?_insert.mp h with ⟨-, h⟩ | ⟨-, h⟩
    · exact absurd h (hc _)
    · exact hd.raw h

theorem sound_insert_string {d : Declarations} {n raw : Bytes} (hd : d.Sound) (hname : Nameable n)
    (hfree : d.constants[n]? = none) (hraw : IsRaw raw) :
    Sound { d with constants := d.constants.insert n (.string raw), strings := (n, raw) :: d.strings } where
  methods := hd.methods
  nodup_methods := hd.nodup_methods
  constants h := by
    rcases getElem?_insert.mp h with ⟨rfl, -⟩ | ⟨-, h⟩
    · exact hname
    · exact hd.constants h
  char h := by
    rcases getElem?_insert.mp h with ⟨-, h⟩ | ⟨-, h⟩
    · cases h
    · exact hd.char h
  strings {k raw'} := by
    rw [getElem?_insert, List.mem_cons, Prod.mk.injEq, hd.strings]
    constructor
    · rintro (⟨rfl, rfl⟩ | h)
      · exact Or.inl ⟨rfl, rfl⟩
      · refine Or.inr ⟨?_, h⟩
        rintro rfl
        rw [hfree] at h
        cases h
    · rintro (⟨rfl, h⟩ | ⟨-, h⟩)
      · cases h
        exact Or.inl ⟨rfl, rfl⟩
      · exact Or.inr h
  nodup_strings := by
    refine List.nodup_cons.mpr ⟨?_, hd.nodup_strings⟩
    intro hmem
    obtain ⟨⟨k, raw'⟩, hk, rfl⟩ := List.mem_map.mp hmem
    have hstring := hd.strings.mp hk
    rw [hfree] at hstring
    cases hstring
  raw h := by
    rcases getElem?_insert.mp h with ⟨-, h⟩ | ⟨-, h⟩
    · cases h
      exact hraw
    · exact hd.raw h

theorem sound_of_addLet {d d' : Declarations} {value name : Token} (hd : d.Sound) (hv : value.Sound)
    (h : d.addLet value name = .ok d') : d'.Sound := by
  obtain ⟨c, hc, hname, -, hfree, rfl⟩ := of_addLet h
  rcases Constant.ofToken?_cases hv hc with ⟨hkind, rfl⟩ | ⟨hkind, rfl⟩ | ⟨-, rfl⟩
  · exact sound_insert_string hd hname hfree (hv.string hkind)
  · refine sound_insert hd hname hfree (fun _ h => by cases h) ?_ d.memory
    rintro v ⟨⟩
    exact hv.char_lt hkind
  · exact sound_insert hd hname hfree (fun _ h => by cases h) (fun _ h => by cases h) d.memory

theorem sound_of_addMemory {d d' : Declarations} {size name : Token} (hd : d.Sound)
    (h : d.addMemory size name = .ok d') : d'.Sound := by
  obtain ⟨-, hname, -, hfree, rfl⟩ := of_addMemory h
  exact sound_insert hd hname hfree (fun _ h => by cases h) (fun _ h => by cases h) _

theorem sound_of_collect {d d' : Declarations} {ts : List Token} (hd : d.Sound) (hts : ∀ t ∈ ts, t.Sound)
    (h : d.collect ts = .ok d') : d'.Sound := by
  fun_induction collect d ts with
  | case1 => exact Except.ok.inj h ▸ hd
  | case2 | case3 | case4 => cases h
  | case5 d t _ name tail _ next hadd ih =>
    exact ih (sound_of_addMethod hd hadd) (fun u hu => hts u (by simp [hu])) h
  | case6 | case8 | case9 => cases h
  | case7 d t _ _ value const name tail _ next hadd ih =>
    exact ih (sound_of_addLet hd (hts value (by simp)) hadd) (fun u hu => hts u (by simp [hu])) h
  | case10 | case12 | case13 => cases h
  | case11 d t _ _ _ size const name tail _ next hadd ih =>
    exact ih (sound_of_addMemory hd hadd) (fun u hu => hts u (by simp [hu])) h
  | case14 d t rest _ _ _ ih => exact ih hd (fun u hu => hts u (by simp [hu])) h

end Declarations

/-- The definitions of a text are sound, and one of its methods is `main`. -/
theorem sound_of_declare {ts : List Token} {d : Declarations} (hts : ∀ t ∈ ts, t.Sound)
    (h : declare ts = .ok d) : d.Sound ∧ bytes "main" ∈ d.methods := by
  unfold declare at h
  split at h
  · cases h
  next d' hcollect =>
    split at h
    next hmain =>
      cases h
      exact ⟨Declarations.sound_of_collect Declarations.sound_empty hts hcollect, List.contains_iff_mem.mp hmain⟩
    · cases h

/-! ## Labels -/

namespace Label

/-- Labels for definitions carry names that a text may define. -/
def Proper : Label → Prop
  | .method n | .constant n => Nameable n
  | _ => True

theorem isIdent_of_nameable {n : Bytes} (h : Nameable n) : ∀ c ∈ n, Ascii.isIdent c = true := by
  have hname := h.name
  simp only [isName, Bool.and_eq_true] at hname
  exact List.all_eq_true.mp hname.2

/-- A name starts with a letter. -/
theorem head_of_nameable {n : Bytes} (h : Nameable n) : ∃ c rest, n = c :: rest ∧ Ascii.isLetter c = true := by
  have hname := h.name
  simp only [isName, Bool.and_eq_true] at hname
  cases n with
  | nil => simp at hname
  | cons c rest => exact ⟨c, rest, rfl, by simpa using hname.1⟩

theorem named_of_proper {l : Label} (h : l.Proper) : l.Named := by
  have hdecimal (n : Nat) : ∀ c ∈ Numeral.decimal n, Ascii.isIdent c = true :=
    fun c hc => Assembly.isIdent_of_isDigit (Numeral.isDigit_of_mem_decimal hc)
  have hfixed {s : Bytes} (hs : s.all Ascii.isIdent = true) : ∀ c ∈ s, Ascii.isIdent c = true :=
    List.all_eq_true.mp hs
  cases l with
  | start => exact ⟨List.cons_ne_nil _ _, hfixed rfl⟩
  | finish => exact ⟨List.cons_ne_nil _ _, hfixed rfl⟩
  | method n =>
    obtain ⟨c, rest, rfl, -⟩ := head_of_nameable h
    exact ⟨List.cons_ne_nil c rest, isIdent_of_nameable h⟩
  | literal n => exact ⟨List.cons_ne_nil _ _, List.forall_mem_append.mpr ⟨hfixed rfl, hdecimal n⟩⟩
  | constant n => exact ⟨List.cons_ne_nil _ _, List.forall_mem_append.mpr ⟨hfixed rfl, isIdent_of_nameable h⟩⟩
  | holds n => exact ⟨List.cons_ne_nil _ _, List.forall_mem_append.mpr ⟨hfixed rfl, hdecimal n⟩⟩
  | loop n => exact ⟨List.cons_ne_nil _ _, List.forall_mem_append.mpr ⟨hfixed rfl, hdecimal n⟩⟩
  | join n =>
    have hstem := List.forall_mem_append.mpr ⟨@hfixed (bytes "_cmp") rfl, hdecimal n⟩
    exact ⟨List.cons_ne_nil _ _, List.forall_mem_append.mpr ⟨hstem, hfixed rfl⟩⟩
  | blockEnd n =>
    have hstem := List.forall_mem_append.mpr ⟨@hfixed (bytes "_loop") rfl, hdecimal n⟩
    exact ⟨List.cons_ne_nil _ _, List.forall_mem_append.mpr ⟨hstem, hfixed rfl⟩⟩

/-- The first two bytes of a name, apart from those of methods. -/
def tag : Label → Bytes
  | .start => bytes "st"
  | .finish => bytes "en"
  | .method n => n.take 2
  | .literal _ => bytes "_s"
  | .constant _ => bytes "_v"
  | .holds _ | .join _ => bytes "_c"
  | .loop _ | .blockEnd _ => bytes "_l"

theorem take_name (l : Label) : l.name.take 2 = l.tag := by
  cases l <;> rfl

/-- No number is written with a suffix that starts with an underscore. -/
theorem decimal_ne_suffixed {m n : Nat} {suffix : Bytes} (h : Ascii.underscore ∈ suffix) :
    Numeral.decimal m ≠ Numeral.decimal n ++ suffix := by
  intro heq
  have hmem : Ascii.underscore ∈ Numeral.decimal m := by
    rw [heq]
    exact List.mem_append_right _ h
  have hdigit := Numeral.isDigit_of_mem_decimal hmem
  revert hdigit
  decide

/-- A method has no name of another label. -/
theorem eq_of_name_method {n : Bytes} {l : Label} (hn : Nameable n) (h : n = l.name) : l = .method n := by
  obtain ⟨c, rest, hcons, hletter⟩ := head_of_nameable hn
  have hunderscore {s : Bytes} (hs : n = Ascii.underscore :: s) : l = .method n := by
    rw [hcons] at hs
    cases hs
    exact absurd hletter (by decide)
  have hreserved {w : Bytes} (hw : n = w) (hr : isReserved w = true) : l = .method n := by
    have hfree := hn.free
    rw [hw, hr] at hfree
    cases hfree
  cases l with
  | start => exact hreserved h rfl
  | finish => exact hreserved h rfl
  | method k => exact congrArg Label.method h.symm
  | literal _ => exact hunderscore h
  | constant _ => exact hunderscore h
  | holds _ => exact hunderscore h
  | join _ => exact hunderscore h
  | loop _ => exact hunderscore h
  | blockEnd _ => exact hunderscore h

/-- Different labels are written in different ways. -/
theorem name_injective {l k : Label} (hl : l.Proper) (hk : k.Proper) (h : l.name = k.name) : l = k := by
  by_cases hmethod : ∃ n, l = .method n
  · obtain ⟨n, rfl⟩ := hmethod
    exact (eq_of_name_method hl h).symm
  by_cases hmethod' : ∃ n, k = .method n
  · obtain ⟨n, rfl⟩ := hmethod'
    exact eq_of_name_method hk h.symm
  have htag : l.tag = k.tag := by rw [← take_name, ← take_name, h]
  have hsuffix {stem suffix : Bytes} {m n : Nat}
      (h : stem ++ Numeral.decimal m ++ suffix = stem ++ Numeral.decimal n ++ suffix) : m = n :=
    Numeral.decimal_injective (List.append_cancel_left (List.append_cancel_right h))
  have hmixed {stem suffix : Bytes} {m n : Nat} (hu : Ascii.underscore ∈ suffix) {P : Prop}
      (h : stem ++ Numeral.decimal m = stem ++ Numeral.decimal n ++ suffix) : P := by
    rw [List.append_assoc] at h
    exact absurd (List.append_cancel_left h) (decimal_ne_suffixed hu)
  cases l <;> cases k
  case literal.literal m n => rw [Numeral.decimal_injective (List.append_cancel_left h)]
  case constant.constant m n => rw [List.append_cancel_left h]
  case holds.holds m n => rw [Numeral.decimal_injective (List.append_cancel_left h)]
  case holds.join m n => exact hmixed (by decide) h
  case join.holds m n => exact hmixed (by decide) h.symm
  case join.join m n => rw [hsuffix h]
  case loop.loop m n => rw [Numeral.decimal_injective (List.append_cancel_left h)]
  case loop.blockEnd m n => exact hmixed (by decide) h
  case blockEnd.loop m n => exact hmixed (by decide) h.symm
  case blockEnd.blockEnd m n => rw [hsuffix h]
  -- all other pairs are told apart by their tags
  all_goals first
    | rfl
    | exact absurd ⟨_, rfl⟩ hmethod
    | exact absurd ⟨_, rfl⟩ hmethod'
    | exact absurd htag (by show ¬(bytes _ = bytes _); decide)

end Label

end Source

end WordMachine
