import Mathlib
import WordMachine.Proofs.Assembly.Items
import WordMachine.Proofs.Assembly.Lexemes

/-!
# `Proofs.Assembly.Phrases` — the lines that drafts accept

A line is a sequence of phrases: a label definition, a string, or an instruction with operands of exactly the
kinds that its operation calls for, where `sys` may also stand before one register. Counting slots and budget
token by token accepts exactly these lines. A line is refused at the first token after which no tokens could
make it one.

Contents:
* `Phrase`, `Phrases`, `Begins`, `Awaits`: lines, their beginnings, and beginnings that wait for operands;
* `Draft.offerAll_phrases`, `Draft.offerAll_awaits`: lines and beginnings are accepted;
* `Draft.Holds`, `Draft.holds_of_offer`, `Draft.offerAll_eq_ok_iff`: nothing else is;
* `Draft.Mistaken`, `Draft.cause_of_offer`: why a token is refused;
* `Lexes`, `lexLine_eq_ofTokens`: the tokens of a line of text;
* `Draft.ofTokens_eq_ok_iff`, `Draft.ofTokens_eq_error_iff`, `Draft.ofTokens_iff_phrases`.
-/

namespace WordMachine.Assembly

/-! ## Lines -/

/-- The kind of a token is one that texts have. -/
def Kind.IsAssigned (k : Kind) : Prop := ∀ n, k ≠ .unassigned n

/-- Tokens that make up a part of a line, and what they are read as. -/
inductive Phrase : List Token → List Token → Prop where
  | single {t : Token} (hkind : t.kind = .labelDefinition ∨ t.kind = .string) : Phrase [t] [t]
  | instruction {t : Token} {op : Operation} {operands : List Token} (hkind : t.kind = .instruction)
      (hop : Operation.ofMnemonic? t.text = some op)
      (hoperands : operands.map Token.operand? = op.operands.map some) : Phrase (t :: operands) (t :: operands)
  | call {t r : Token} (hkind : t.kind = .instruction) (htext : t.text = Operation.sys.mnemonic)
      (hr : r.operand? = some .register) : Phrase [t, r] [{ t with text := Operation.call.mnemonic }, r]

/-- Tokens that make up a line, and what they are read as. -/
inductive Phrases : List Token → List Token → Prop where
  | nil : Phrases [] []
  | cons {xs xs' ts ts' : List Token} (head : Phrase xs xs') (tail : Phrases ts ts') :
      Phrases (xs ++ ts) (xs' ++ ts')

/-- Tokens with which a line can begin. -/
def Begins (ts : List Token) : Prop := ∃ more result, Phrases (ts ++ more) result

/-- Tokens that end in an instruction without its last operands, what they are read as so far, and the kinds of
the operands to come. -/
inductive Awaits : List Token → List Token → List Operand → Prop where
  | intro {before result operands : List Token} {t : Token} {op : Operation} {slot : Operand}
      {slots : List Operand} (hbefore : Phrases before result) (hkind : t.kind = .instruction)
      (hop : Operation.ofMnemonic? t.text = some op)
      (hoperands : operands.map Token.operand? ++ (slot :: slots).map some = op.operands.map some) :
      Awaits (before ++ t :: operands) (result ++ t :: operands) (slot :: slots)

theorem Phrases.snoc {xs xs' ts ts' : List Token} (h : Phrases ts ts') (hx : Phrase xs xs') :
    Phrases (ts ++ xs) (ts' ++ xs') := by
  induction h with
  | nil =>
    have hone := Phrases.cons hx .nil
    rwa [List.append_nil, List.append_nil] at hone
  | cons head _ ih =>
    rw [List.append_assoc, List.append_assoc]
    exact .cons head ih

/-- A token that fills a slot of a kind. -/
def Token.ofSlot : Operand → Token
  | .register => ⟨.register, bytes "0", 0⟩
  | .imm32 => ⟨.int32, bytes "0x0", 0⟩
  | .imm64 => ⟨.int64, bytes "0x0", 0⟩

theorem Token.operand?_ofSlot (kind : Operand) : (ofSlot kind).operand? = some kind := by
  cases kind <;> rfl

/-- The missing operands can be written. -/
theorem Awaits.begins {ts written : List Token} {slots : List Operand} (h : Awaits ts written slots) :
    Begins ts := by
  cases h with
  | @intro before result operands t op slot slots hbefore hkind hop hoperands =>
    have hphrase : Phrase (t :: (operands ++ (slot :: slots).map Token.ofSlot))
        (t :: (operands ++ (slot :: slots).map Token.ofSlot)) := by
      refine .instruction hkind hop ?_
      rw [List.map_append, List.map_map, ← hoperands]
      congr 1
      exact List.map_congr_left fun kind _ => Token.operand?_ofSlot kind
    have hline := hbefore.snoc hphrase
    rw [← List.cons_append, ← List.append_assoc] at hline
    exact ⟨_, _, hline⟩

namespace Draft

/-! ## What is accepted -/

theorem empty_eq : ({} : Draft) = of [] [] := rfl

theorem offerAll_append (d : Draft) (xs ys : List Token) :
    offerAll d (xs ++ ys) = (offerAll d xs).bind (offerAll · ys) := by
  induction xs generalizing d with
  | nil => rfl
  | cons x xs ih =>
    rw [List.cons_append, offerAll, offerAll]
    cases hoffer : d.offer x with
    | error cause => rfl
    | ok next => exact ih next

theorem offer_operand (d : Draft) {t : Token} {kind : Operand} (h : t.operand? = some kind) :
    d.offer t = d.fill t (some kind) := by
  rw [← h]
  obtain ⟨tkind, text, line⟩ := t
  cases tkind with
  | register | int32 | int64 | labelUse | char => rfl
  | _ => cases h

/-- Operands of the kinds of the first slots fill these. -/
theorem offerAll_operands {operands : List Token} {kinds : List Operand}
    (h : operands.map Token.operand? = kinds.map some) (ts : List Token) (slots : List Operand) :
    offerAll (of ts (kinds ++ slots)) operands = .ok (of (operands.reverse ++ ts) slots) := by
  induction operands generalizing kinds ts with
  | nil =>
    obtain rfl : kinds = [] := List.map_eq_nil_iff.mp h.symm
    rfl
  | cons t operands ih =>
    cases kinds with
    | nil => cases h
    | cons kind kinds =>
      obtain ⟨ht, hrest⟩ := List.cons.inj h
      have hoffer : (of ts (kind :: (kinds ++ slots))).offer t = .ok (of (t :: ts) (kinds ++ slots)) := by
        rw [offer_operand _ ht]
        simp [fill]
      rw [List.cons_append, offerAll, hoffer]
      simpa using ih hrest (t :: ts)

/-- An instruction and its first operands leave the other slots open. -/
theorem offerAll_instruction {t : Token} {op : Operation} {operands : List Token} {slots : List Operand}
    (hkind : t.kind = .instruction) (hop : Operation.ofMnemonic? t.text = some op)
    (h : operands.map Token.operand? ++ slots.map some = op.operands.map some) (ts : List Token) :
    offerAll (of ts []) (t :: operands) = .ok (of ((t :: operands).reverse ++ ts) slots) := by
  obtain ⟨kinds, rest, hsplit, hkinds, hrest⟩ := List.map_eq_append_iff.mp h.symm
  obtain rfl : rest = slots := List.map_injective_iff.mpr (Option.some_injective _) hrest
  have hoffer : (of ts []).offer t = .ok (of (t :: ts) (kinds ++ rest)) := by
    simp [offer, hkind, slotsOf, hop, hsplit]
  rw [offerAll, hoffer]
  simpa using offerAll_operands hkinds.symm (t :: ts) rest

theorem offerAll_phrase {xs xs' : List Token} (h : Phrase xs xs') (ts : List Token) :
    offerAll (of ts []) xs = .ok (of (xs'.reverse ++ ts) []) := by
  cases h with
  | @single t hkind =>
    have hoffer : (of ts []).offer t = .ok (of (t :: ts) []) := by
      rcases hkind with hkind | hkind
      · rw [offer, hkind]
        rfl
      · rw [offer, hkind]
        rfl
    rw [offerAll, hoffer]
    rfl
  | instruction hkind hop hoperands =>
    exact offerAll_instruction hkind hop (by rw [List.map_nil, List.append_nil]; exact hoperands) ts
  | @call t r hkind htext hr =>
    have hopens : (of ts []).offer t = .ok (of (t :: ts) [.imm32]) := by
      simp [offer, hkind, slotsOf, htext, Operation.operands]
    have hswitches : (of (t :: ts) [.imm32]).alternate? .register =
        some (of ({ t with text := Operation.call.mnemonic } :: ts) [.register]) := by
      simp [alternate?, hkind, htext, Operation.alternate?, Operation.operands]
    have hfills : (of (t :: ts) [.imm32]).offer r =
        .ok (of (r :: { t with text := Operation.call.mnemonic } :: ts) []) := by
      rw [offer_operand _ hr]
      simp [fill, hswitches]
    rw [offerAll, hopens]
    dsimp only
    rw [offerAll, hfills]
    rfl

/-- Lines are accepted. -/
theorem offerAll_phrases {ts ts' : List Token} (h : Phrases ts ts') (earlier : List Token) :
    offerAll (of earlier []) ts = .ok (of (ts'.reverse ++ earlier) []) := by
  induction h generalizing earlier with
  | nil => rfl
  | @cons xs xs' ts ts' head _ ih =>
    rw [offerAll_append, offerAll_phrase head, Except.bind, ih, List.reverse_append, List.append_assoc]

/-- So are beginnings, and the operands to come are the slots left open. -/
theorem offerAll_awaits {ts written : List Token} {slots : List Operand} (h : Awaits ts written slots) :
    offerAll {} ts = .ok (of written.reverse slots) := by
  obtain ⟨hbefore, hkind, hop, hoperands⟩ := h
  have hclosed := offerAll_phrases hbefore []
  rw [List.append_nil] at hclosed
  rw [empty_eq, offerAll_append, hclosed, Except.bind, offerAll_instruction hkind hop hoperands,
    List.reverse_append]

theorem offerAll_of_begins {ts : List Token} (h : Begins ts) : ∃ d, offerAll {} ts = .ok d := by
  obtain ⟨more, result, hphrases⟩ := h
  have hall := offerAll_phrases hphrases []
  rw [offerAll_append] at hall
  rw [empty_eq]
  cases hts : offerAll (of [] []) ts with
  | error cause =>
    rw [hts] at hall
    cases hall
  | ok d => exact ⟨d, rfl⟩

/-! ## What a draft holds -/

/-- A draft of the given tokens: they are a line, or they wait for operands in the open slots. -/
inductive Holds (ts : List Token) : Draft → Prop where
  | closed {result : List Token} (h : Phrases ts result) : Holds ts (of result.reverse [])
  | awaiting {written : List Token} {slots : List Operand} (h : Awaits ts written slots) :
      Holds ts (of written.reverse slots)

theorem Holds.begins {ts : List Token} {d : Draft} (h : Holds ts d) : Begins ts := by
  cases h with
  | @closed result h => exact ⟨[], result, by rwa [List.append_nil]⟩
  | awaiting h => exact h.begins

theorem Holds.offerAll {ts : List Token} {d : Draft} (h : Holds ts d) : Draft.offerAll {} ts = .ok d := by
  cases h with
  | closed h =>
    have hclosed := offerAll_phrases h []
    rwa [List.append_nil] at hclosed
  | awaiting h => exact offerAll_awaits h

/-- Behind a line, an instruction with some of its operands, whichever slots are left. -/
theorem holds_instruction {before result operands : List Token} {t : Token} {op : Operation}
    {slots : List Operand} (hbefore : Phrases before result) (hkind : t.kind = .instruction)
    (hop : Operation.ofMnemonic? t.text = some op)
    (h : operands.map Token.operand? ++ slots.map some = op.operands.map some) :
    Holds (before ++ t :: operands) (of (result ++ t :: operands).reverse slots) := by
  cases slots with
  | nil =>
    rw [List.map_nil, List.append_nil] at h
    exact .closed (hbefore.snoc (.instruction hkind hop h))
  | cons slot slots => exact .awaiting (.intro hbefore hkind hop h)

/-- An operand that is accepted fills a slot, or makes the `sys` before it a `call`. -/
theorem holds_of_fill {ts : List Token} {d d' : Draft} {t : Token} {kind : Operand} (hd : Holds ts d)
    (ht : t.operand? = some kind) (h : d.fill t (some kind) = .ok d') : Holds (ts ++ [t]) d' := by
  cases hd with
  | closed => cases h
  | awaiting hawaits =>
    cases hawaits with
    | @intro before result operands u op slot slots hbefore hkind hop hoperands =>
      simp only [fill, slots_of, accept_of] at h
      split at h
      next hslot =>
        obtain rfl := Except.ok.inj h
        have hmore : (operands ++ [t]).map Token.operand? ++ slots.map some = op.operands.map some := by
          rw [← hoperands, List.map_append, List.append_assoc]
          simp [ht, hslot]
        have hholds := holds_instruction hbefore hkind hop hmore
        rw [← List.cons_append, ← List.append_assoc, ← List.append_assoc, List.reverse_append] at hholds
        exact hholds
      next hslot =>
        split at h
        next changed hchanged =>
          obtain ⟨last, earlier, hlast, hinstr, htext, rfl, rfl⟩ := alternate?_eq_some hchanged
          -- the latest token is an instruction, so no operand has come yet
          have hnone : operands = [] := by
            rcases List.eq_nil_or_concat operands with hnil | ⟨init, v, rfl⟩
            · exact hnil
            · have hv : v = last := by
                simp only [tokens_of, List.reverse_append, List.reverse_cons, List.concat_eq_append,
                  List.reverse_nil, List.nil_append, List.cons_append, List.cons.injEq] at hlast
                exact hlast.1
              have hmem : v.operand? ∈ op.operands.map some := by
                rw [← hoperands]
                simp
              obtain ⟨k, -, hk⟩ := List.mem_map.mp hmem
              rw [hv, Token.operand?, hinstr] at hk
              cases hk
          subst hnone
          have hsplit : u = last ∧ result.reverse = earlier := by simpa using hlast
          obtain ⟨rfl, rfl⟩ := hsplit
          obtain rfl := Except.ok.inj h
          have hholds := Holds.closed (hbefore.snoc (.call hkind htext ht))
          simpa using hholds
        · cases h

/-- A token that is accepted leads from a beginning to a beginning. -/
theorem holds_of_offer {ts : List Token} {d d' : Draft} {t : Token} (hd : Holds ts d) (hv : t.HasValue)
    (ha : t.kind.IsAssigned) (h : d.offer t = .ok d') : Holds (ts ++ [t]) d' := by
  -- what is no operand is accepted only where no slot is open
  have hclosed (hk : t.kind = .instruction ∨ t.kind = .labelDefinition ∨ t.kind = .string) :
      ∃ result, Phrases ts result ∧ d = of result.reverse [] := by
    cases hd with
    | @closed result hphrases => exact ⟨result, hphrases, rfl⟩
    | awaiting hawaits =>
      cases hawaits
      rcases hk with hk | hk | hk <;> simp [offer, hk] at h
  have hsingle (hk : t.kind = .labelDefinition ∨ t.kind = .string) : Holds (ts ++ [t]) d' := by
    obtain ⟨result, hphrases, rfl⟩ := hclosed (.inr hk)
    have hholds := Holds.closed (hphrases.snoc (.single hk))
    rw [List.reverse_append] at hholds
    have hd' : of (t :: result.reverse) [] = d' := by
      rcases hk with hk | hk
      · rw [offer, hk] at h
        exact Except.ok.inj h
      · rw [offer, hk] at h
        exact Except.ok.inj h
    rw [← hd']
    exact hholds
  cases hk : t.kind with
  | unassigned n => exact absurd hk (ha n)
  | labelDefinition => exact hsingle (.inl hk)
  | string => exact hsingle (.inr hk)
  | instruction =>
    obtain ⟨result, hphrases, rfl⟩ := hclosed (.inl hk)
    rw [Token.HasValue, hk] at hv
    obtain ⟨op, hop⟩ := Option.isSome_iff_exists.mp hv
    have hd' : of (t :: result.reverse) op.operands = d' := by
      simpa [offer, hk, slotsOf, hop] using h
    have hholds := @holds_instruction _ _ [] _ _ _ hphrases hk hop rfl
    rw [List.reverse_append] at hholds
    rw [← hd']
    exact hholds
  | register | int32 | int64 | labelUse | char =>
    have ht : ∃ kind, t.operand? = some kind := ⟨_, by rw [Token.operand?, hk]; rfl⟩
    obtain ⟨kind, ht⟩ := ht
    rw [offer_operand d ht] at h
    exact holds_of_fill hd ht h

theorem holds_of_offerAll {done ts : List Token} {d d' : Draft} (hd : Holds done d)
    (hts : ∀ t ∈ ts, t.HasValue ∧ t.kind.IsAssigned) (h : offerAll d ts = .ok d') : Holds (done ++ ts) d' := by
  induction ts generalizing done d with
  | nil =>
    obtain rfl := Except.ok.inj h
    rwa [List.append_nil]
  | cons t ts ih =>
    obtain ⟨⟨hv, ha⟩, hrest⟩ := List.forall_mem_cons.mp hts
    rw [offerAll] at h
    cases hoffer : d.offer t with
    | error cause =>
      rw [hoffer] at h
      cases h
    | ok next =>
      rw [hoffer] at h
      have hholds := ih (holds_of_offer hd hv ha hoffer) hrest h
      rwa [List.append_assoc] at hholds

/-- Tokens are accepted if and only if a line can begin with them. -/
theorem offerAll_eq_ok_iff {ts : List Token} {d : Draft} (hts : ∀ t ∈ ts, t.HasValue ∧ t.kind.IsAssigned) :
    offerAll {} ts = .ok d ↔ Holds ts d :=
  ⟨fun h => @holds_of_offerAll [] ts {} d (.closed .nil) hts h, Holds.offerAll⟩

/-! ## What is refused -/

/-- An operand is missing behind the tokens, and the next token is a string or an operand of another kind. -/
def Mistaken (before : List Token) (t : Token) : Prop :=
  ∃ written slot slots, Awaits before written (slot :: slots) ∧
    (t.kind = .string ∨ t.operand? ≠ none ∧ t.operand? ≠ some slot)

/-- The cause for which a token is refused. -/
theorem cause_of_offer {ts : List Token} {d : Draft} {t : Token} {cause : Cause} (hd : Holds ts d)
    (ha : t.kind.IsAssigned) (h : d.offer t = .error cause) :
    cause = .operandKind ∧ Mistaken ts t ∨ cause = .operandCount ∧ ¬ Mistaken ts t := by
  cases hd with
  | closed hphrases =>
    -- no operand is missing, so an operand is one too many
    have hnot : ¬ Mistaken ts t := by
      rintro ⟨written, slot, slots, hawaits, -⟩
      have hdrafts := (Holds.closed hphrases).offerAll.symm.trans (offerAll_awaits hawaits)
      cases congrArg Draft.slots (Except.ok.inj hdrafts)
    refine .inr ⟨?_, hnot⟩
    cases hk : t.kind with
    | unassigned n => exact absurd hk (ha n)
    | instruction | labelDefinition | string => simp [offer, hk] at h
    | register | int32 | int64 | labelUse | char =>
      rw [offer, hk] at h
      exact (Except.error.inj h).symm
  | @awaiting written slots hawaits =>
    obtain ⟨slot, slots', rfl⟩ : ∃ slot slots', slots = slot :: slots' := by
      cases hawaits
      exact ⟨_, _, rfl⟩
    have hoperand {kind : Operand} (ht : t.operand? = some kind) : cause = .operandKind ∧ Mistaken ts t := by
      rw [offer_operand _ ht] at h
      simp only [fill, slots_of] at h
      split at h
      · cases h
      next hne =>
        split at h
        · cases h
        · exact ⟨(Except.error.inj h).symm, written, slot, slots', hawaits,
            .inr ⟨by simp [ht], by rwa [ht]⟩⟩
    have hnot (hstring : t.kind ≠ .string) (ht : t.operand? = none) : ¬ Mistaken ts t := by
      rintro ⟨-, -, -, -, hk | ⟨hne, -⟩⟩
      · exact hstring hk
      · exact hne ht
    cases hk : t.kind with
    | unassigned n => exact absurd hk (ha n)
    | string =>
      have hcause : Cause.operandKind = cause := by simpa [offer, hk] using h
      exact .inl ⟨hcause.symm, written, slot, slots', hawaits, .inl hk⟩
    | instruction | labelDefinition =>
      have hcause : Cause.operandCount = cause := by simpa [offer, hk] using h
      exact .inr ⟨hcause.symm, hnot (by simp [hk]) (by rw [Token.operand?, hk]; rfl)⟩
    | register | int32 | int64 | labelUse | char => exact .inl (hoperand (by rw [Token.operand?, hk]; rfl))

/-- Tokens are refused at one of them, those before it being accepted. -/
theorem offerAll_eq_error {d : Draft} {ts : List Token} {cause : Cause} (h : offerAll d ts = .error cause) :
    ∃ before t after d', ts = before ++ t :: after ∧ offerAll d before = .ok d' ∧ d'.offer t = .error cause := by
  induction ts generalizing d with
  | nil => cases h
  | cons t ts ih =>
    rw [offerAll] at h
    cases hoffer : d.offer t with
    | error c =>
      rw [hoffer] at h
      obtain rfl := Except.error.inj h
      exact ⟨[], t, ts, d, rfl, rfl, hoffer⟩
    | ok next =>
      rw [hoffer] at h
      obtain ⟨before, u, after, d', rfl, hbefore, hrefused⟩ := ih h
      refine ⟨t :: before, u, after, d', rfl, ?_, hrefused⟩
      rw [offerAll, hoffer]
      exact hbefore

end Draft

/-! ## Lines of text -/

/-- The lexemes of a text have the given tokens. -/
inductive Lexes (scope : Scope) (line : Int) : Bytes → List Token → Prop where
  | done {text : Bytes} (hn : Lexeme.next text = .ok none) : Lexes scope line text []
  | next {text rest : Bytes} {l : Lexeme} {t : Token} {ts : List Token}
      (hn : Lexeme.next text = .ok (some (l, rest))) (ht : l.token scope line = .ok t)
      (tail : Lexes scope line rest ts) : Lexes scope line text (t :: ts)

theorem Lexes.lexFrom_eq {scope : Scope} {line : Int} {text : Bytes} {ts : List Token}
    (h : Lexes scope line text ts) (d : Draft) : lexFrom scope line d text = d.offerAll ts := by
  induction h generalizing d with
  | done hn => rw [lexFrom_end hn, Draft.offerAll]
  | next hn ht _ ih =>
    rw [Assembly.lexFrom_eq, hn, Draft.offerAll]
    simp only [ht]
    cases d.offer _ with
    | error cause => rfl
    | ok next => exact ih next

/-- Reading a line of text offers the tokens of its lexemes. -/
theorem lexLine_eq_ofTokens {scope : Scope} {number : Nat} {text : Bytes} {ts : List Token}
    (h : Lexes scope number text ts) :
    lexLine scope number text = (Draft.ofTokens ts).mapError (Error.line number text) := by
  rw [lexLine, h.lexFrom_eq, Draft.ofTokens]
  cases Draft.offerAll {} ts with
  | error cause => rfl
  | ok d =>
    dsimp only
    cases d.finish with
    | error cause => rfl
    | ok tokens => rfl

/-! ## Acceptance -/

namespace Draft

theorem ofTokens_eq_ok_iff {ts result : List Token} (hts : ∀ t ∈ ts, t.HasValue ∧ t.kind.IsAssigned) :
    ofTokens ts = .ok result ↔ Phrases ts result := by
  constructor
  · intro h
    rw [ofTokens] at h
    cases hall : offerAll {} ts with
    | error cause =>
      rw [hall] at h
      cases h
    | ok d =>
      rw [hall] at h
      cases (offerAll_eq_ok_iff hts).mp hall with
      | @closed written hphrases =>
        obtain rfl : written = result := by simpa [finish] using h
        exact hphrases
      | awaiting hawaits =>
        cases hawaits
        simp [finish] at h
  · intro h
    rw [ofTokens, (Holds.closed h).offerAll]
    simp [finish]

/-- Tokens are refused at the first one with which no line can go on, or because operands are missing at the
end. -/
theorem ofTokens_eq_error_iff {ts : List Token} {cause : Cause}
    (hts : ∀ t ∈ ts, t.HasValue ∧ t.kind.IsAssigned) :
    ofTokens ts = .error cause ↔
      (∃ before t after, ts = before ++ t :: after ∧ Begins before ∧ ¬ Begins (before ++ [t]) ∧
        (cause = .operandKind ∧ Mistaken before t ∨ cause = .operandCount ∧ ¬ Mistaken before t)) ∨
      cause = .operandCount ∧ ∃ written slots, Awaits ts written slots := by
  constructor
  · intro h
    rw [ofTokens] at h
    cases hall : offerAll {} ts with
    | error c =>
      rw [hall] at h
      obtain rfl := Except.error.inj h
      obtain ⟨before, t, after, d, rfl, hbefore, hrefused⟩ := offerAll_eq_error hall
      obtain ⟨hvalid, hrest⟩ := List.forall_mem_append.mp hts
      have ht := hrest t List.mem_cons_self
      have hholds := (offerAll_eq_ok_iff hvalid).mp hbefore
      refine .inl ⟨before, t, after, rfl, hholds.begins, fun hbegins => ?_, cause_of_offer hholds ht.2 hrefused⟩
      -- what a line can begin with is accepted, but this token was not
      obtain ⟨d', hd'⟩ := offerAll_of_begins hbegins
      rw [offerAll_append, hbefore, Except.bind, offerAll, hrefused] at hd'
      cases hd'
    | ok d =>
      rw [hall] at h
      cases (offerAll_eq_ok_iff hts).mp hall with
      | closed => simp [finish] at h
      | @awaiting written slots hawaits =>
        refine .inr ⟨?_, written, slots, hawaits⟩
        have hfinish : (of written.reverse slots).finish = .error cause := h
        rw [finish] at hfinish
        split at hfinish
        · cases hfinish
        · exact (Except.error.inj hfinish).symm
  · rintro (⟨before, t, after, rfl, hbegins, hnot, hcause⟩ | ⟨rfl, written, slots, hawaits⟩)
    · obtain ⟨hvalid, hrest⟩ := List.forall_mem_append.mp hts
      obtain ⟨hv, ha⟩ := hrest t List.mem_cons_self
      obtain ⟨d, hd⟩ := offerAll_of_begins hbegins
      have hholds := (offerAll_eq_ok_iff hvalid).mp hd
      cases hoffer : d.offer t with
      | ok d' => exact absurd (holds_of_offer hholds hv ha hoffer).begins hnot
      | error c =>
        -- the cause told by the draft is the one that was given, since only one of the two conditions holds
        have hsame : c = cause := by
          rcases cause_of_offer hholds ha hoffer with ⟨rfl, hm⟩ | ⟨rfl, hm⟩
          · rcases hcause with ⟨rfl, -⟩ | ⟨-, hm'⟩
            · rfl
            · exact absurd hm hm'
          · rcases hcause with ⟨-, hm'⟩ | ⟨rfl, -⟩
            · exact absurd hm' hm
            · rfl
        rw [ofTokens, offerAll_append, hd, Except.bind, offerAll, hoffer, hsame]
    · rw [ofTokens, offerAll_awaits hawaits]
      cases hawaits
      simp [finish]

/-- The lines that are accepted are the sequences of phrases, and they are read as these are. Any other line is
refused at the first token with which no line can go on: for its kind if an operand is missing there and the
token is a string or an operand of another kind, for the number of operands otherwise, also at the end of the
line. This is how the tokens of a line of text are read. -/
theorem ofTokens_iff_phrases {ts : List Token} (hts : ∀ t ∈ ts, t.HasValue ∧ t.kind.IsAssigned) :
    (∀ result, ofTokens ts = .ok result ↔ Phrases ts result) ∧
      (∀ cause, ofTokens ts = .error cause ↔
        (∃ before t after, ts = before ++ t :: after ∧ Begins before ∧ ¬ Begins (before ++ [t]) ∧
          (cause = .operandKind ∧ Mistaken before t ∨ cause = .operandCount ∧ ¬ Mistaken before t)) ∨
        cause = .operandCount ∧ ∃ written slots, Awaits ts written slots) ∧
      ∀ (scope : Scope) (number : Nat) (text : Bytes), Lexes scope number text ts →
        lexLine scope number text = (ofTokens ts).mapError (.line number text) :=
  ⟨fun _ => ofTokens_eq_ok_iff hts, fun _ => ofTokens_eq_error_iff hts, fun _ _ _ => lexLine_eq_ofTokens⟩

/-- A label and a host call by register are a line; a push of a string is refused at the string. -/
theorem ofTokens_iff_phrases_host_call :
    Phrases [⟨.labelDefinition, bytes "a", 1⟩, ⟨.instruction, bytes "sys", 1⟩, ⟨.register, bytes "3", 1⟩]
        [⟨.labelDefinition, bytes "a", 1⟩, ⟨.instruction, bytes "call", 1⟩, ⟨.register, bytes "3", 1⟩] ∧
      ∃ before t after, [⟨.instruction, bytes "push", 1⟩, ⟨.string, bytes "b", 1⟩] = before ++ t :: after ∧
        Begins before ∧ ¬ Begins (before ++ [t]) ∧ Mistaken before t := by
  have hcall : ∀ t ∈ ([⟨.labelDefinition, bytes "a", 1⟩, ⟨.instruction, bytes "sys", 1⟩,
      ⟨.register, bytes "3", 1⟩] : List Token), t.HasValue ∧ t.kind.IsAssigned := by
    simp only [List.forall_mem_cons, List.not_mem_nil, false_imp_iff, implies_true, and_true]
    have hregister : Token.register ⟨.register, bytes "3", 1⟩ = .ok 3 := by decide +kernel
    exact ⟨⟨trivial, by simp [Kind.IsAssigned]⟩, ⟨rfl, by simp [Kind.IsAssigned]⟩,
      ⟨⟨3, hregister⟩, by simp [Kind.IsAssigned]⟩⟩
  have hpush : ∀ t ∈ ([⟨.instruction, bytes "push", 1⟩, ⟨.string, bytes "b", 1⟩] : List Token),
      t.HasValue ∧ t.kind.IsAssigned := by
    simp only [List.forall_mem_cons, List.not_mem_nil, false_imp_iff, implies_true, and_true]
    have hstring : (Escape.decode? (bytes "b")).isSome := by decide +kernel
    exact ⟨⟨rfl, by simp [Kind.IsAssigned]⟩, ⟨hstring, by simp [Kind.IsAssigned]⟩⟩
  refine ⟨((ofTokens_iff_phrases hcall).1 _).mp (by decide +kernel), ?_⟩
  rcases ((ofTokens_iff_phrases hpush).2.1 .operandKind).mp (by decide +kernel) with
    ⟨before, t, after, hsplit, hbegins, hnot, ⟨-, hmistaken⟩ | ⟨hcause, -⟩⟩ | ⟨hcause, -⟩
  · exact ⟨before, t, after, hsplit, hbegins, hnot, hmistaken⟩
  · cases hcause
  · cases hcause

end Draft

end WordMachine.Assembly
