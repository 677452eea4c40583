import Mathlib
import WordMachine.Proofs.Assembly.Phrases
import WordMachine.Proofs.Source.Names

/-!
# `Proofs.StringLiterals` — where a string literal ends

A quote ends a literal unless an odd number of backslashes stands right before it. Neither scanner counts
backslashes: the assembler reads escape by escape and refuses an unknown one where it stands, and the compiler first
looks for the closing quote, taking two bytes at a backslash, and decodes what it found afterwards. Both end at the
first bare quote, so both take exactly the same texts between two quotes for one string.

Contents:
* `backslashes`, `HasBare`: quotes that are not escaped, by the backslashes before them;
* `Source.quoted?_eq_some_iff`, `Assembly.Lexeme.quoted_eq_ok_iff`: what the two scanners read;
* `Assembly.quoted_of_lexLine`, `Source.quoted?_of_lexLine`: the first token of a line that starts with a quote;
* `Assembly.lexLine_string_iff`, `Source.lexLine_string_iff`, `one_string_iff`: lines that are one string.
-/

namespace WordMachine

/-! ## Bare quotes -/

/-- The number of backslashes that a text ends in. -/
def backslashes (text : Bytes) : Nat := (text.reverse.takeWhile (· == Ascii.backslash)).length

/-- Somewhere in the text stands a quote that is not escaped: an even number of backslashes stands right before it. -/
def HasBare (quote : UInt8) (text : Bytes) : Prop :=
  ∃ before after, text = before ++ quote :: after ∧ Even (backslashes before)

theorem backslashes_le (text : Bytes) : backslashes text ≤ text.length := by
  have hle := (List.takeWhile_sublist (· == Ascii.backslash) (l := text.reverse)).length_le
  rwa [List.length_reverse] at hle

/-- A byte in front of a text adds to the backslashes at its end only if it is one and all of the text is. -/
theorem backslashes_cons (c : UInt8) (text : Bytes) :
    backslashes (c :: text) =
      if backslashes text = text.length ∧ c = Ascii.backslash then text.length + 1 else backslashes text := by
  rw [backslashes, List.reverse_cons, List.takeWhile_append, List.length_reverse, ← backslashes]
  by_cases hall : backslashes text = text.length
  · by_cases hc : c = Ascii.backslash
    · simp [hall, hc]
    · simp [hall, hc]
  · rw [if_neg hall, if_neg (fun h => hall h.1), ← backslashes]

theorem backslashes_cons_of_ne {c : UInt8} (hc : c ≠ Ascii.backslash) (text : Bytes) :
    backslashes (c :: text) = backslashes text := by
  rw [backslashes_cons, if_neg (fun h => hc h.2)]

/-- A backslash and the byte that it takes with it do not change the parity at the end. -/
theorem even_backslashes_pair (d : UInt8) (text : Bytes) :
    Even (backslashes (Ascii.backslash :: d :: text)) ↔ Even (backslashes text) := by
  have hle := backslashes_le text
  rw [backslashes_cons, backslashes_cons, List.length_cons]
  by_cases hall : backslashes text = text.length ∧ d = Ascii.backslash
  · rw [if_pos hall, if_pos ⟨rfl, rfl⟩, hall.1]
    show Even (text.length + 2) ↔ Even text.length
    simp [Nat.even_add]
  · rw [if_neg hall, if_neg (fun h => absurd h.1 (by omega))]

variable {quote : UInt8}

theorem not_hasBare_nil : ¬HasBare quote [] := by
  rintro ⟨before, after, htext, -⟩
  exact absurd htext.symm (List.append_ne_nil_of_right_ne_nil _ (List.cons_ne_nil _ _))

theorem hasBare_cons {c : UInt8} (hc : c ≠ Ascii.backslash) (text : Bytes) :
    HasBare quote (c :: text) ↔ c = quote ∨ HasBare quote text := by
  constructor
  · rintro ⟨before, after, htext, heven⟩
    cases before with
    | nil => exact .inl (List.cons.inj htext).1
    | cons b before =>
      obtain ⟨rfl, hrest⟩ := List.cons.inj htext
      rw [backslashes_cons_of_ne hc] at heven
      exact .inr ⟨before, after, hrest, heven⟩
  · rintro (rfl | ⟨before, after, rfl, heven⟩)
    · exact ⟨[], text, rfl, Even.zero⟩
    · refine ⟨c :: before, after, rfl, ?_⟩
      rwa [backslashes_cons_of_ne hc]

/-- What a backslash takes with it is not bare. -/
theorem hasBare_pair (hq : quote ≠ Ascii.backslash) (d : UInt8) (text : Bytes) :
    HasBare quote (Ascii.backslash :: d :: text) ↔ HasBare quote text := by
  constructor
  · rintro ⟨before, after, htext, heven⟩
    cases before with
    | nil => exact absurd (List.cons.inj htext).1.symm hq
    | cons b before =>
      obtain ⟨rfl, hrest⟩ := List.cons.inj htext
      cases before with
      | nil => exact absurd heven (by decide)
      | cons e before =>
        obtain ⟨rfl, htail⟩ := List.cons.inj hrest
        exact ⟨before, after, htail, (even_backslashes_pair _ _).mp heven⟩
  · rintro ⟨before, after, rfl, heven⟩
    exact ⟨Ascii.backslash :: d :: before, after, rfl, (even_backslashes_pair _ _).mpr heven⟩

/-- Text with a backslash that takes nothing with it stands for no data. -/
theorem Escape.even_of_decode? {raw : Bytes} (h : (Escape.decode? raw).isSome) : Even (backslashes raw) := by
  fun_induction Escape.decode? raw with
  | case1 => exact Even.zero
  | case2 => cases h
  | case3 => cases h
  | case4 letter tail b hletter ih =>
    rw [Option.isSome_map] at h
    exact (even_backslashes_pair letter tail).mpr (ih h)
  | case5 c rest hc ih =>
    rw [Option.isSome_map] at h
    rw [backslashes_cons_of_ne hc]
    exact ih h

/-! ## Scanners -/

/-- Taking two bytes at a backslash leads to the first bare quote. -/
theorem Source.quoted?_eq_some_iff (hq : quote ≠ Ascii.backslash) {text raw after : Bytes} :
    quoted? quote text = some (raw, after) ↔
      text = raw ++ quote :: after ∧ Even (backslashes raw) ∧ ¬HasBare quote raw := by
  fun_induction quoted? quote text generalizing raw with
  | case1 => simp
  | case2 =>
    refine ⟨fun h => (by cases h), ?_⟩
    rintro ⟨htext, -, -⟩
    cases raw with
    | nil => exact absurd (List.cons.inj htext).1.symm hq
    | cons c raw => simp at htext
  | case3 d tail ih =>
    rw [Option.map_eq_some_iff]
    constructor
    · rintro ⟨⟨raw', after'⟩, hread, heq⟩
      obtain ⟨rfl, rfl⟩ := Prod.mk.inj heq
      obtain ⟨rfl, heven, hbare⟩ := ih.mp hread
      exact ⟨rfl, (even_backslashes_pair _ _).mpr heven, fun h => hbare ((hasBare_pair hq _ _).mp h)⟩
    · rintro ⟨htext, heven, hbare⟩
      cases raw with
      | nil => exact absurd (List.cons.inj htext).1.symm hq
      | cons c raw =>
        obtain ⟨rfl, hrest⟩ := List.cons.inj htext
        cases raw with
        -- one backslash is an odd number of them
        | nil => exact absurd heven (by decide)
        | cons e raw =>
          obtain ⟨rfl, htail⟩ := List.cons.inj hrest
          have hread := ih.mpr ⟨htail, (even_backslashes_pair _ _).mp heven,
            fun h => hbare ((hasBare_pair hq _ _).mpr h)⟩
          exact ⟨(raw, after), hread, rfl⟩
  | case4 rest hc =>
    constructor
    · intro h
      obtain ⟨rfl, rfl⟩ := Prod.mk.inj (Option.some.inj h)
      exact ⟨rfl, Even.zero, not_hasBare_nil⟩
    · rintro ⟨htext, -, hbare⟩
      cases raw with
      | nil => rw [(List.cons.inj htext).2]
      | cons c raw =>
        obtain ⟨rfl, -⟩ := List.cons.inj htext
        exact absurd ((hasBare_cons hc raw).mpr (.inl rfl)) hbare
  | case5 c rest hc hne ih =>
    rw [Option.map_eq_some_iff]
    constructor
    · rintro ⟨⟨raw', after'⟩, hread, heq⟩
      obtain ⟨rfl, rfl⟩ := Prod.mk.inj heq
      obtain ⟨rfl, heven, hbare⟩ := ih.mp hread
      refine ⟨rfl, by rwa [backslashes_cons_of_ne hc], ?_⟩
      rw [hasBare_cons hc]
      exact not_or.mpr ⟨hne, hbare⟩
    · rintro ⟨htext, heven, hbare⟩
      cases raw with
      | nil => exact absurd (List.cons.inj htext).1 hne
      | cons e raw =>
        obtain ⟨rfl, hrest⟩ := List.cons.inj htext
        rw [backslashes_cons_of_ne hc] at heven
        rw [hasBare_cons hc] at hbare
        exact ⟨(raw, after), ih.mpr ⟨hrest, heven, (not_or.mp hbare).2⟩, rfl⟩

namespace Assembly

theorem Lexeme.quoted?_of_quoted {cause : Cause} {text raw after : Bytes}
    (h : Lexeme.quoted quote cause text = .ok (raw, after)) : Source.quoted? quote text = some (raw, after) := by
  fun_induction Lexeme.quoted quote cause text generalizing raw after with
  | case1 => cases h
  | case2 => cases h
  | case3 letter tail hletter raw' after' hread ih =>
    cases h
    rw [Source.quoted?, if_pos rfl]
    simp only [ih hread, Option.map_some]
  | case4 => cases h
  | case5 => cases h
  | case6 rest hc =>
    cases h
    unfold Source.quoted?
    rw [if_neg hc, if_pos rfl]
  | case7 c rest hc hne raw' after' hread ih =>
    cases h
    unfold Source.quoted?
    rw [if_neg hc, if_neg hne, ih hread, Option.map_some]
  | case8 => cases h

/-- Refusing an unknown escape where it stands, and decoding the whole text behind the scanner, refuse the same
texts. -/
theorem Lexeme.quoted_eq_ok_iff {cause : Cause} {text raw after : Bytes} :
    Lexeme.quoted quote cause text = .ok (raw, after) ↔
      Source.quoted? quote text = some (raw, after) ∧ (Escape.decode? raw).isSome := by
  constructor
  · intro h
    exact ⟨quoted?_of_quoted h, decode?_of_quoted h⟩
  · rintro ⟨hread, hdecoded⟩
    obtain ⟨rfl, hquoted⟩ := Source.quoted_of_quoted? hread hdecoded
    exact hquoted cause after

/-! ## Lines of one string -/

variable {scope : Scope}

/-- A line that starts with a quote has the string behind it as its first token. -/
theorem quoted_of_lexLine {number : Nat} {text : Bytes} {t : Token} {ts : List Token}
    (h : lexLine scope number (Ascii.quote :: text) = .ok (t :: ts)) :
    ∃ after, Lexeme.quoted Ascii.quote .stringUnterminated text = .ok (t.text, after) := by
  obtain ⟨draft, hlex, htokens⟩ := lexFrom_of_lexLine h
  cases hread : Lexeme.quoted Ascii.quote .stringUnterminated text with
  | error cause =>
    have hnext : Lexeme.next (Ascii.quote :: text) = .error cause := by
      rw [Lexeme.next, if_neg (by decide), if_neg (by decide), Lexeme.first, if_pos rfl, hread]
    rw [lexFrom_eq, hnext] at hlex
    cases hlex
  | ok read =>
    obtain ⟨raw, after⟩ := read
    rw [lexFrom_next (Lexeme.next_string hread) rfl rfl] at hlex
    have hkind : (⟨.string, raw, number⟩ : Token).kind ≠ .instruction := by rintro ⟨⟩
    obtain ⟨later, hlater⟩ := suffix_of_lexFrom hkind (List.suffix_refl _) hlex
    -- the draft holds its tokens latest first, so the string comes last in it
    have hfirst : t :: ts = ⟨.string, raw, number⟩ :: later.reverse := by
      rw [htokens, ← hlater]
      exact List.reverse_concat' _ _
    obtain rfl := (List.cons.inj hfirst).1
    exact ⟨after, rfl⟩

theorem lexLine_of_quoted {number : Nat} {text raw : Bytes}
    (h : Lexeme.quoted Ascii.quote .stringUnterminated text = .ok (raw, [])) :
    lexLine scope number (Ascii.quote :: text) = .ok [⟨.string, raw, number⟩] := by
  apply lexLine_of_lexFrom
  rw [lexFrom_next (Lexeme.next_string h) rfl rfl, lexFrom_end rfl]
  rfl

end Assembly

namespace Source

variable {line : Int} {source text rest : Bytes} {t : Token}

theorem lexFrom_next (hn : next line source text = .ok (some (t, rest))) :
    lexFrom line source text = (lexFrom line source rest).map (t :: ·) := by
  rw [lexFrom]
  split
  next h => cases hn.symm.trans h
  next h => cases hn.symm.trans h
  next h =>
    cases hn.symm.trans h
    dsimp only
    cases lexFrom line source rest with
    | error cause => rfl
    | ok more => rfl

theorem lexFrom_end (hn : next line source text = .ok none) : lexFrom line source text = .ok [] := by
  rw [lexFrom]
  split
  next h => cases hn.symm.trans h
  next h => rfl
  next h => cases hn.symm.trans h

theorem next_quote : next line source (Ascii.quote :: text) = (string line source text).map some := by
  have hcomment : ¬(Ascii.quote = Ascii.slash ∧ text.head? = some Ascii.slash) := fun h => absurd h.1 (by decide)
  rw [next, if_neg (by decide), if_neg hcomment, if_pos rfl]

theorem quoted?_of_string {after : Bytes} (h : string line source rest = .ok (t, after)) :
    quoted? Ascii.quote rest = some (t.text, after) ∧ (Escape.decode? t.text).isSome := by
  unfold string at h
  split at h
  · cases h
  next raw after' hread =>
    split at h
    next hdecoded =>
      cases h
      exact ⟨hread, hdecoded⟩
    · cases h

/-- A line that starts with a quote has the string behind it as its first token. -/
theorem quoted?_of_lexLine {number : Nat} {text : Bytes} {t : Token} {ts : List Token}
    (h : lexLine number (Ascii.quote :: text) = .ok (t :: ts)) :
    ∃ after, quoted? Ascii.quote text = some (t.text, after) ∧ (Escape.decode? t.text).isSome := by
  unfold lexLine at h
  split at h
  · cases h
  next tokens hlex =>
    obtain rfl := Except.ok.inj h
    unfold lexFrom at hlex
    split at hlex
    · cases hlex
    · cases hlex
    next u after hnext =>
      have hu : u = t := by
        dsimp only at hlex
        split at hlex
        · cases hlex
        · exact (List.cons.inj (Except.ok.inj hlex)).1
      subst hu
      rw [next_quote] at hnext
      cases hstring : string number (Ascii.quote :: text) text with
      | error cause =>
        rw [hstring] at hnext
        cases hnext
      | ok read =>
        rw [hstring] at hnext
        obtain rfl : read = (u, after) := Option.some.inj (Except.ok.inj hnext)
        exact ⟨after, quoted?_of_string hstring⟩

theorem lexLine_of_quoted? {number : Nat} {text raw : Bytes}
    (h : quoted? Ascii.quote text = some (raw, [])) (hd : (Escape.decode? raw).isSome) :
    lexLine number (Ascii.quote :: text) = .ok [⟨.string, raw, 0, number, Ascii.quote :: text⟩] := by
  have hnext : next number (Ascii.quote :: text) (Ascii.quote :: text) =
      .ok (some (⟨.string, raw, 0, number, Ascii.quote :: text⟩, [])) := by
    rw [next_quote, string, h]
    dsimp only
    rw [if_pos hd]
    rfl
  rw [lexLine, lexFrom_next hnext, lexFrom_end rfl]
  rfl

end Source

/-! ## Agreement -/

/-- The text before a closing quote is read up to it, unless a bare quote comes first or the closing one is escaped. -/
theorem Source.quoted?_closed_iff {raw after : Bytes} :
    quoted? Ascii.quote (raw ++ [Ascii.quote]) = some (raw, after) ↔
      after = [] ∧ Even (backslashes raw) ∧ ¬HasBare Ascii.quote raw := by
  rw [quoted?_eq_some_iff (by decide)]
  simp [eq_comm]

theorem Assembly.lexLine_string_iff {scope : Scope} {number : Nat} {raw : Bytes} :
    (∃ t, lexLine scope number (Ascii.quote :: (raw ++ [Ascii.quote])) = .ok [t] ∧ t.kind = .string ∧
        t.text = raw) ↔
      ¬HasBare Ascii.quote raw ∧ (Escape.decode? raw).isSome := by
  constructor
  · rintro ⟨t, hlex, -, rfl⟩
    obtain ⟨after, hquoted⟩ := quoted_of_lexLine hlex
    obtain ⟨hread, hdecoded⟩ := Lexeme.quoted_eq_ok_iff.mp hquoted
    exact ⟨(Source.quoted?_closed_iff.mp hread).2.2, hdecoded⟩
  · rintro ⟨hbare, hdecoded⟩
    have hread := Source.quoted?_closed_iff.mpr ⟨rfl, Escape.even_of_decode? hdecoded, hbare⟩
    have hlex := @lexLine_of_quoted scope number _ _ (Lexeme.quoted_eq_ok_iff.mpr ⟨hread, hdecoded⟩)
    exact ⟨_, hlex, rfl, rfl⟩

theorem Source.lexLine_string_iff {number : Nat} {raw : Bytes} :
    (∃ t, lexLine number (Ascii.quote :: (raw ++ [Ascii.quote])) = .ok [t] ∧ t.kind = .string ∧ t.text = raw) ↔
      ¬HasBare Ascii.quote raw ∧ (Escape.decode? raw).isSome := by
  constructor
  · rintro ⟨t, hlex, -, rfl⟩
    obtain ⟨after, hread, hdecoded⟩ := quoted?_of_lexLine hlex
    exact ⟨(quoted?_closed_iff.mp hread).2.2, hdecoded⟩
  · rintro ⟨hbare, hdecoded⟩
    have hread := quoted?_closed_iff.mpr ⟨rfl, Escape.even_of_decode? hdecoded, hbare⟩
    exact ⟨_, lexLine_of_quoted? hread hdecoded, rfl, rfl⟩

/-- Between two quotes, both languages read one string with the text as it is written, if and only if no quote in it
is bare and it can be decoded. -/
theorem one_string_iff (scope : Assembly.Scope) (number : Nat) (raw : Bytes) :
    let line := Ascii.quote :: (raw ++ [Ascii.quote])
    ((∃ t, Assembly.lexLine scope number line = .ok [t] ∧ t.kind = .string ∧ t.text = raw) ↔
        ∃ t, Source.lexLine number line = .ok [t] ∧ t.kind = .string ∧ t.text = raw) ∧
      ((∃ t, Source.lexLine number line = .ok [t] ∧ t.kind = .string ∧ t.text = raw) ↔
        ¬HasBare Ascii.quote raw ∧ (Escape.decode? raw).isSome) :=
  ⟨Assembly.lexLine_string_iff.trans Source.lexLine_string_iff.symm, Source.lexLine_string_iff⟩

end WordMachine
