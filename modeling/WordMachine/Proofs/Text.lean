import Mathlib
import WordMachine.Text.Numeral

/-!
# `Proofs.Text` — numerals and lines round trip

A numeral reads back as the number it was written for, and lines that are written one after the other are
the lines of the text.

Contents:
* `forall_byte`: facts about single bytes;
* `Numeral.ofDigits?_render`, `Numeral.decimal_injective`, and the bytes numerals consist of;
* `Numeral.positional`, `Numeral.ofDigits?_eq_some_iff`: the runs of digits that are read, and their numbers;
  `Numeral.value`, `Numeral.ofDigits?_digits`: decimal digits;
* `Bytes.newline_notMem_linesFrom`, `Bytes.lines_render`, `Bytes.lines_eq_singleton`: the lines of a text, and of
  one put together line by line.
-/

namespace WordMachine

/-- What holds of the first 256 numbers holds of all bytes. -/
theorem forall_byte {P : UInt8 → Prop} (h : ∀ n : Fin 256, P (UInt8.ofNat n)) (b : UInt8) : P b := by
  have hb := h ⟨b.toNat, b.toNat_lt⟩
  rwa [UInt8.ofNat_toNat] at hb

/-! ## Numerals -/

namespace Numeral

/-- The byte of a digit below sixteen, in lower case. -/
def digitByte (d : Nat) : UInt8 := (Nat.digitChar d).toUInt8

theorem digit?_digitByte {d : Nat} (h : d < 16) : digit? (digitByte d) = some d := by
  have hall : ∀ d : Fin 16, digit? (digitByte d) = some d.val := by decide
  exact hall ⟨d, h⟩

theorem render_eq {base : Nat} (hb : 1 < base) (n : Nat) :
    render base n =
      if n < base then [digitByte n] else render base (n / base) ++ [digitByte (n % base)] := by
  rw [render, Nat.toDigits_eq_if hb]
  split
  · rfl
  · rw [List.map_append]; rfl

theorem digitsFrom?_append (base acc : Nat) (xs ys : Bytes) :
    digitsFrom? base acc (xs ++ ys) = (digitsFrom? base acc xs).bind fun n => digitsFrom? base n ys := by
  induction xs generalizing acc with
  | nil => rfl
  | cons c rest ih =>
    simp only [List.cons_append, digitsFrom?]
    cases digit? c with
    | none => rfl
    | some d =>
      simp only
      split
      · exact ih _
      · rfl

/-- Digits read back as the number they were written for. -/
theorem digitsFrom?_render {base : Nat} (hb : 1 < base) (hb16 : base ≤ 16) (n : Nat) :
    digitsFrom? base 0 (render base n) = some n := by
  induction n using Nat.strongRecOn with
  | ind n ih =>
    rw [render_eq hb]
    split
    next hlt => simp [digitsFrom?, digit?_digitByte (show n < 16 by omega), hlt]
    next hge =>
      have hpos : 0 < base := by omega
      have hdiv : n / base < n := Nat.div_lt_self (by omega) hb
      have hmod : n % base < base := Nat.mod_lt n hpos
      rw [digitsFrom?_append, ih _ hdiv]
      simp only [Option.bind_some, digitsFrom?, digit?_digitByte (show n % base < 16 by omega), hmod, if_true]
      rw [Nat.div_add_mod']

theorem render_ne_nil {base : Nat} (hb : 1 < base) (n : Nat) : render base n ≠ [] := by
  rw [render_eq hb]
  split <;> simp

theorem ofDigits?_render {base : Nat} (hb : 1 < base) (hb16 : base ≤ 16) (n : Nat) :
    ofDigits? base (render base n) = some n := by
  rw [ofDigits?, if_neg (by simpa using render_ne_nil hb n)]
  exact digitsFrom?_render hb hb16 n

/-- A numeral of a word reads back within the width of the word, and not beyond it. -/
theorem word?_render {base bits : Nat} (hb : 1 < base) (hb16 : base ≤ 16) (n : Nat) :
    word? base bits (render base n) = if n < Nat.pow 2 bits then some n else none := by
  rw [word?, ofDigits?_render hb hb16]

theorem mem_render {base : Nat} (hb : 1 < base) {n : Nat} {c : UInt8} (h : c ∈ render base n) :
    ∃ d < base, c = digitByte d := by
  induction n using Nat.strongRecOn with
  | ind n ih =>
    rw [render_eq hb] at h
    split at h
    next hlt => exact ⟨n, hlt, List.mem_singleton.mp h⟩
    next hge =>
      rcases List.mem_append.mp h with h | h
      · exact ih _ (Nat.div_lt_self (by omega) hb) h
      · exact ⟨n % base, Nat.mod_lt n (by omega), List.mem_singleton.mp h⟩

theorem isDigit_of_mem_decimal {n : Nat} {c : UInt8} (h : c ∈ decimal n) : Ascii.isDigit c = true := by
  obtain ⟨d, hd, rfl⟩ := mem_render (by decide) h
  have hall : ∀ d : Fin 10, Ascii.isDigit (digitByte d) = true := by decide
  exact hall ⟨d, hd⟩

theorem isIdent_of_mem_hex {n : Nat} {c : UInt8} (h : c ∈ hex n) : Ascii.isIdent c = true := by
  obtain ⟨d, hd, rfl⟩ := mem_render (by decide) h
  have hall : ∀ d : Fin 16, Ascii.isIdent (digitByte d) = true := by decide
  exact hall ⟨d, hd⟩

/-- The number that digits stand for in a base, most significant first, given the value of each digit. -/
def positional (base : Nat) (digit : UInt8 → Nat) (digits : Bytes) : Nat :=
  Nat.ofDigits base (digits.reverse.map digit)

theorem positional_cons (base : Nat) (digit : UInt8 → Nat) (c : UInt8) (rest : Bytes) :
    positional base digit (c :: rest) = digit c * base ^ rest.length + positional base digit rest := by
  rw [positional, List.reverse_cons, List.map_append, Nat.ofDigits_append, List.length_map, List.length_reverse,
    List.map_singleton, Nat.ofDigits_singleton, positional]
  ring

/-- A run of digits adds its number to the one read before, which moves up by as many places. -/
theorem digitsFrom?_positional {base : Nat} {digit : UInt8 → Nat} {digits : Bytes}
    (h : ∀ c ∈ digits, digit? c = some (digit c) ∧ digit c < base) (acc : Nat) :
    digitsFrom? base acc digits = some (acc * base ^ digits.length + positional base digit digits) := by
  induction digits generalizing acc with
  | nil => simp [digitsFrom?, positional]
  | cons c rest ih =>
    obtain ⟨hdigit, hlt⟩ := h c List.mem_cons_self
    rw [digitsFrom?, hdigit]
    simp only [if_pos hlt]
    rw [ih fun b hb => h b (List.mem_cons_of_mem c hb), positional_cons, List.length_cons, pow_succ]
    congr 1
    ring

/-- Only digits of the base are read. -/
theorem digit?_of_digitsFrom? {base acc n : Nat} {digits : Bytes} (h : digitsFrom? base acc digits = some n) :
    ∀ c ∈ digits, ∃ d, digit? c = some d ∧ d < base := by
  induction digits generalizing acc with
  | nil => simp
  | cons c rest ih =>
    rw [digitsFrom?] at h
    split at h
    next d hd =>
      split at h
      next hlt => exact List.forall_mem_cons.mpr ⟨⟨d, hd, hlt⟩, ih h⟩
      · cases h
    · cases h

/-- A text is read as a number if and only if it is a non-empty run of digits of the base. -/
theorem ofDigits?_eq_some_iff {base n : Nat} {isDigit : UInt8 → Bool} {digit : UInt8 → Nat} {digits : Bytes}
    (h : ∀ c, (digit? c).filter (· < base) = if isDigit c then some (digit c) else none) :
    ofDigits? base digits = some n ↔
      digits ≠ [] ∧ (∀ c ∈ digits, isDigit c = true) ∧ n = positional base digit digits := by
  have hread (hdigits : ∀ c ∈ digits, isDigit c = true) :
      digitsFrom? base 0 digits = some (positional base digit digits) := by
    have hvalues : ∀ c ∈ digits, digit? c = some (digit c) ∧ digit c < base := by
      intro c hc
      have hsome := h c
      rw [if_pos (hdigits c hc)] at hsome
      simpa using Option.filter_eq_some_iff.mp hsome
    rw [digitsFrom?_positional hvalues, Nat.zero_mul, Nat.zero_add]
  rw [ofDigits?]
  split
  next hempty => simp [List.isEmpty_iff.mp hempty]
  next hne =>
    constructor
    · intro hn
      have hdigits : ∀ c ∈ digits, isDigit c = true := by
        intro c hc
        obtain ⟨d, hd, hlt⟩ := digit?_of_digitsFrom? hn c hc
        have hsome := h c
        rw [hd, Option.filter_some_pos (by simpa using hlt)] at hsome
        exact by_contra fun hno => by simp [hno] at hsome
      rw [hread hdigits] at hn
      exact ⟨fun hnil => hne (List.isEmpty_iff.mpr hnil), hdigits, (Option.some.inj hn).symm⟩
    · rintro ⟨-, hdigits, rfl⟩
      exact hread hdigits

/-- The number that decimal digits stand for. -/
def value (digits : Bytes) : Nat := Nat.ofDigits 10 (digits.reverse.map fun c => c.toNat - 0x30)

theorem ofDigits?_digits {digits : Bytes} (h : digits.all Ascii.isDigit = true) (hne : digits ≠ []) :
    ofDigits? 10 digits = some (value digits) := by
  have hdecimal : ∀ c, (digit? c).filter (· < 10) = if Ascii.isDigit c then some (c.toNat - 0x30) else none :=
    forall_byte (by decide +kernel)
  exact (ofDigits?_eq_some_iff hdecimal).mpr ⟨hne, List.all_eq_true.mp h, rfl⟩

theorem decimal_ne_nil (n : Nat) : decimal n ≠ [] := render_ne_nil (by decide) n

theorem decimal_injective {m n : Nat} (h : decimal m = decimal n) : m = n := by
  have hm := digitsFrom?_render (show 1 < 10 by decide) (by decide) m
  have hn := digitsFrom?_render (show 1 < 10 by decide) (by decide) n
  rw [show render 10 m = render 10 n from h, hn] at hm
  exact (Option.some.inj hm).symm

end Numeral

/-! ## Lines -/

namespace Bytes

/-- A line that keeps its text when it is written and read: no newline in it, no carriage return at its
end. -/
structure IsLine (line : Bytes) : Prop where
  newline : Ascii.newline ∉ line
  carriageReturn : line.getLast? ≠ some Ascii.carriageReturn

theorem dropReturn_of_isLine {line : Bytes} (h : IsLine line) : dropReturn line = line := by
  rw [dropReturn, if_neg h.carriageReturn]

theorem linesFrom_append {line rest done : Bytes} (h : Ascii.newline ∉ line) :
    linesFrom done (line ++ Ascii.newline :: rest) =
      dropReturn (done.reverse ++ line) :: linesFrom [] rest := by
  induction line generalizing done with
  | nil => simp [linesFrom]
  | cons c line ih =>
    have hc : c ≠ Ascii.newline := fun hc => h (by simp [hc])
    have hline : Ascii.newline ∉ line := fun hn => h (List.mem_cons_of_mem c hn)
    rw [List.cons_append, linesFrom, if_neg hc, ih hline]
    simp

/-- No line of a text holds a newline. -/
theorem newline_notMem_linesFrom {text done : Bytes} (hdone : Ascii.newline ∉ done) :
    ∀ line ∈ linesFrom done text, Ascii.newline ∉ line := by
  have hreturn {line : Bytes} (h : Ascii.newline ∉ line) : Ascii.newline ∉ dropReturn line := by
    unfold dropReturn
    split
    · exact fun hmem => h (List.dropLast_subset line hmem)
    · exact h
  induction text generalizing done with
  | nil =>
    intro line hline
    cases done with
    | nil => simp [linesFrom] at hline
    | cons c done =>
      obtain rfl := List.mem_singleton.mp hline
      exact hreturn fun hmem => hdone (List.mem_reverse.mp hmem)
  | cons c rest ih =>
    intro line hline
    rw [linesFrom] at hline
    split at hline
    · rcases List.mem_cons.mp hline with rfl | hline
      · exact hreturn fun hmem => hdone (List.mem_reverse.mp hmem)
      · exact ih (by simp) line hline
    next hc =>
      refine ih ?_ line hline
      simp only [List.mem_cons, not_or]
      exact ⟨fun h => hc h.symm, hdone⟩

/-- The lines of a text written line by line are those that were written. -/
theorem lines_render {ls : List Bytes} (h : ∀ line ∈ ls, IsLine line) :
    lines (ls.flatMap fun line => line ++ [Ascii.newline]) = ls := by
  induction ls with
  | nil => rfl
  | cons line rest ih =>
    have hline := h line List.mem_cons_self
    rw [List.flatMap_cons, lines, List.append_assoc, List.singleton_append, linesFrom_append hline.newline,
      List.reverse_nil, List.nil_append, dropReturn_of_isLine hline]
    congr 1
    exact ih fun l hl => h l (List.mem_cons_of_mem line hl)

/-- A text without a newline is one line, unless it is empty. -/
theorem lines_eq_singleton {line : Bytes} (h : IsLine line) (hne : line ≠ []) : lines line = [line] := by
  have hread (text done : Bytes) (hnewline : Ascii.newline ∉ text) (hsome : done.reverse ++ text ≠ []) :
      linesFrom done text = [dropReturn (done.reverse ++ text)] := by
    induction text generalizing done with
    | nil =>
      cases done with
      | nil => exact absurd rfl hsome
      | cons c done => rw [List.append_nil]; rfl
    | cons c text ih =>
      rw [List.mem_cons, not_or] at hnewline
      rw [linesFrom, if_neg (Ne.symm hnewline.1), ih (c :: done) hnewline.2 (by simp)]
      simp
  rw [lines, hread line [] h.newline (by simpa using hne), List.reverse_nil, List.nil_append,
    dropReturn_of_isLine h]

end Bytes

end WordMachine
