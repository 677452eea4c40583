import Mathlib
import WordMachine.Assembly.Assembler

/-!
# `Proofs.Assembly.Items` — the tokens of a text as items

Whatever the lexer accepts is a sequence of items: label definitions, strings, and instructions with
exactly the operands they call for. Each item lies on one line, and each of its tokens has a value.

Contents:
* `Item`, `Item.tokens`, `Item.Complete`: items and the tokens they consist of;
* `Draft.Reads`, `Draft.reads_of_offer`, `Draft.suffix_of_offer`: what a draft holds, and what one more token changes;
* `TextReads`, `reads_of_lexLines`: the tokens of whole texts.
-/

namespace WordMachine

/-! ## Mnemonics -/

@[simp] theorem Operation.ofMnemonic?_mnemonic (op : Operation) :
    Operation.ofMnemonic? op.mnemonic = some op := by
  cases op <;> rfl

theorem Operation.mnemonic_of_ofMnemonic? {w : Bytes} {op : Operation}
    (h : Operation.ofMnemonic? w = some op) : w = op.mnemonic := by
  have hfound := List.find?_some h
  exact (beq_iff_eq.mp hfound).symm

namespace Assembly

/-- The text of the token stands for a value of its kind. -/
def Token.HasValue (t : Token) : Prop :=
  match t.kind with
  | .instruction => (Operation.ofMnemonic? t.text).isSome
  | .register => ∃ r, t.register = .ok r
  | .int32 | .int64 | .char => ∃ v, t.value = .ok v
  | .string => (Escape.decode? t.text).isSome
  | _ => True

/-! ## Items -/

/-- A piece of assembly that is placed as a whole. -/
inductive Item where
  | label (name : Bytes) (line : Int)
  /-- String data, as raw literal text. -/
  | string (raw : Bytes) (line : Int)
  | instruction (op : Operation) (operands : List Token) (line : Int)
  deriving DecidableEq, Repr

namespace Item

/-- The line an item stands on. -/
def line : Item → Int
  | .label _ line | .string _ line | .instruction _ _ line => line

/-- The tokens an item consists of. -/
def tokens : Item → List Token
  | .label name line => [⟨.labelDefinition, name, line⟩]
  | .string raw line => [⟨.string, raw, line⟩]
  | .instruction op operands line => ⟨.instruction, op.mnemonic, line⟩ :: operands

/-- An item has all its operands, each of the kind of its slot, and every token has a value. -/
def Complete (i : Item) : Prop :=
  (∀ t ∈ i.tokens, t.HasValue ∧ t.line = i.line) ∧
    match i with
    | .instruction op operands _ => operands.map Token.operand? = op.operands.map some
    | _ => True

end Item

/-! ## Drafts -/

/-- A draft holds the tokens of complete items of a line, and then those of an instruction that waits
for operands in the open slots. -/
inductive Draft.Reads (line : Int) : Draft → List Item → Prop where
  | closed {ts : List Token} {items : List Item}
      (complete : ∀ i ∈ items, i.Complete ∧ i.line = line)
      (tokens : ts.reverse = items.flatMap Item.tokens) : Reads line (.of ts []) items
  | awaiting {ts : List Token} {items : List Item} {op : Operation} {operands : List Token}
      {slot : Operand} {slots : List Operand}
      (complete : ∀ i ∈ items, i.Complete ∧ i.line = line)
      (filled : operands.map Token.operand? ++ (slot :: slots).map some = op.operands.map some)
      (values : ∀ t ∈ operands, t.HasValue ∧ t.line = line)
      (tokens : ts = operands.reverse ++ ⟨.instruction, op.mnemonic, line⟩ ::
        (items.flatMap Item.tokens).reverse) : Reads line (.of ts (slot :: slots)) items

namespace Draft

theorem reads_empty (line : Int) : Draft.Reads line {} [] :=
  .closed (by simp) rfl

/-- A draft that holds an instruction with some of its operands, whichever slots are left. -/
theorem reads_instruction {line : Int} {items : List Item} (op : Operation) (operands : List Token)
    (slots : List Operand) (complete : ∀ i ∈ items, i.Complete ∧ i.line = line)
    (filled : operands.map Token.operand? ++ slots.map some = op.operands.map some)
    (values : ∀ t ∈ operands, t.HasValue ∧ t.line = line) :
    ∃ items', Draft.Reads line (.of (operands.reverse ++ ⟨.instruction, op.mnemonic, line⟩ ::
      (items.flatMap Item.tokens).reverse) slots) items' := by
  cases slots with
  | cons slot slots => exact ⟨items, .awaiting complete filled values rfl⟩
  | nil =>
    have hitem : Item.Complete (.instruction op operands line) := by
      refine ⟨?_, by simpa using filled⟩
      intro t ht
      rcases List.mem_cons.mp ht with rfl | ht
      · exact ⟨by simp [Token.HasValue], rfl⟩
      · exact values t ht
    refine ⟨items ++ [Item.instruction op operands line], .closed ?_ ?_⟩
    · intro i hi
      rcases List.mem_append.mp hi with hi | hi
      · exact complete i hi
      · rw [List.mem_singleton.mp hi]; exact ⟨hitem, rfl⟩
    · simp [Item.tokens]

/-- A token that is an item by itself closes that item. -/
theorem reads_single {line : Int} {ts : List Token} {items : List Item} {t : Token} {i : Item}
    (complete : ∀ i ∈ items, i.Complete ∧ i.line = line)
    (tokens : ts.reverse = items.flatMap Item.tokens) (hi : i.Complete) (hline : i.line = line)
    (ht : i.tokens = [t]) : Draft.Reads line (.of (t :: ts) []) (items ++ [i]) := by
  refine .closed ?_ (by simp [tokens, ht])
  intro j hj
  rcases List.mem_append.mp hj with hj | hj
  · exact complete j hj
  · rw [List.mem_singleton.mp hj]; exact ⟨hi, hline⟩

/-- Only `sys` changes its form, and only for a register. -/
theorem alternate?_eq_some {d changed : Draft} {kind : Operand}
    (h : d.alternate? kind = some changed) :
    ∃ last earlier, d.tokens = last :: earlier ∧ last.kind = .instruction ∧
      last.text = Operation.sys.mnemonic ∧ kind = .register ∧
      changed = .of ({ last with text := Operation.call.mnemonic } :: earlier) [.register] := by
  unfold alternate? at h
  split at h
  · cases h
  next last earlier htokens =>
    split at h
    next hkind =>
      split at h
      · cases h
      next alt halt =>
        split at h
        next hhead =>
          obtain ⟨op, hop, hopalt⟩ := Option.bind_eq_some_iff.mp halt
          cases op <;> simp [Operation.alternate?] at hopalt
          subst hopalt
          refine ⟨last, earlier, htokens, hkind, Operation.mnemonic_of_ofMnemonic? hop, ?_, ?_⟩
          · simpa [Operation.operands] using hhead.symm
          · simpa [Operation.operands] using h.symm
        · cases h
    · cases h

/-- An operand that fits the first open slot fills it; one that makes `sys` a `call` closes that
instruction. -/
theorem reads_of_fill {line : Int} {d d' : Draft} {items : List Item} {t : Token}
    (hr : Draft.Reads line d items) (hv : t.HasValue) (hl : t.line = line)
    (h : d.fill t t.operand? = .ok d') : ∃ items', Draft.Reads line d' items' := by
  cases hr with
  | closed complete tokens => simp [fill] at h
  | @awaiting ts items op operands slot slots complete filled values tokens =>
    simp only [fill, slots_of, accept_of] at h
    split at h
    next hslot =>
      -- the operand goes behind those already there
      have hfilled : (operands ++ [t]).map Token.operand? ++ slots.map some = op.operands.map some := by
        rw [← filled]; simp [hslot]
      have hvalues : ∀ u ∈ operands ++ [t], u.HasValue ∧ u.line = line := by
        intro u hu
        rcases List.mem_append.mp hu with hu | hu
        · exact values u hu
        · rw [List.mem_singleton.mp hu]; exact ⟨hv, hl⟩
      obtain ⟨items', hitems'⟩ := reads_instruction op _ slots complete hfilled hvalues
      cases h
      refine ⟨items', ?_⟩
      rw [tokens]
      simpa using hitems'
    next hslot =>
      split at h
      next changed hchanged =>
        obtain ⟨kind, hkind, halt⟩ := Option.bind_eq_some_iff.mp hchanged
        obtain ⟨last, earlier, hlast, hinstr, _, rfl, rfl⟩ := alternate?_eq_some halt
        rw [tokens_of] at hlast
        -- the latest token is an instruction, so no operand has come yet
        have hnone : operands = [] := by
          rcases List.eq_nil_or_concat operands with hnil | ⟨init, u, hcons⟩
          · exact hnil
          · subst hcons
            rw [tokens] at hlast
            simp only [List.concat_eq_append, List.reverse_append, List.reverse_cons, List.reverse_nil,
              List.nil_append, List.cons_append, List.cons.injEq] at hlast
            have hu : some (Token.operand? u) ∈ (op.operands.map some).map some := by
              rw [← filled]; simp
            rw [hlast.1] at hu
            simp [Token.operand?, hinstr, Kind.operand?] at hu
        subst hnone
        rw [tokens] at hlast
        simp only [List.reverse_nil, List.nil_append, List.cons.injEq] at hlast
        obtain ⟨rfl, rfl⟩ := hlast
        cases h
        have hcall := reads_instruction .call [t] [] complete (by simp [Operation.operands, hkind])
          (by simp [hv, hl])
        simpa using hcall
      · cases h

/-- One more token accepted leaves a draft of complete items and at most one instruction that waits. -/
theorem reads_of_offer {line : Int} {d d' : Draft} {items : List Item} {t : Token}
    (hr : Draft.Reads line d items) (hv : t.HasValue) (hl : t.line = line) (h : d.offer t = .ok d') :
    ∃ items', Draft.Reads line d' items' := by
  obtain ⟨kind, text, tline⟩ := t
  simp only at hl
  subst hl
  unfold offer at h
  split at h
  next hk =>
    simp only at hk; subst hk
    split at h
    next hempty =>
      cases hr with
      | awaiting => simp at hempty
      | closed complete tokens =>
        obtain ⟨op, hop⟩ := Option.isSome_iff_exists.mp (show (Operation.ofMnemonic? text).isSome from hv)
        have hstart := reads_instruction op [] op.operands complete rfl (by simp)
        cases h
        rw [Operation.mnemonic_of_ofMnemonic? hop]
        rw [← tokens] at hstart
        simpa [slotsOf] using hstart
    · cases h
  next hk =>
    simp only at hk; subst hk
    split at h
    next hempty =>
      cases hr with
      | awaiting => simp at hempty
      | closed complete tokens =>
        cases h
        exact ⟨_, reads_single (i := .label text tline) complete tokens
          (by simp [Item.Complete, Item.tokens, Item.line, Token.HasValue]) rfl rfl⟩
    · cases h
  next hk =>
    simp only at hk; subst hk
    split at h
    next hempty =>
      cases hr with
      | awaiting => simp at hempty
      | closed complete tokens =>
        cases h
        refine ⟨_, reads_single (i := .string text tline) complete tokens ⟨?_, trivial⟩ rfl rfl⟩
        intro u hu
        rw [List.mem_singleton.mp hu]
        exact ⟨hv, rfl⟩
    · cases h
  next => exact reads_of_fill hr hv rfl h

/-- An operand may change the form of the instruction before it, and nothing further back. -/
theorem suffix_of_fill {d d' : Draft} {t u : Token} {ts : List Token} {kind : Option Operand}
    (hkind : t.kind ≠ .instruction) (hd : t :: ts <:+ d.tokens) (h : d.fill u kind = .ok d') :
    t :: ts <:+ d'.tokens := by
  unfold fill at h
  split at h
  · cases h
  · split at h
    · cases h
      exact hd.trans (List.suffix_cons u d.tokens)
    · split at h
      next changed hchanged =>
        cases h
        obtain ⟨k, -, halternate⟩ := Option.bind_eq_some_iff.mp hchanged
        obtain ⟨last, earlier, hlast, hinstruction, -, -, rfl⟩ := alternate?_eq_some halternate
        rw [hlast] at hd
        rcases List.suffix_cons_iff.mp hd with heq | hearlier
        · obtain ⟨rfl, -⟩ := List.cons.inj heq
          exact absurd hinstruction hkind
        · exact (hearlier.trans (List.suffix_cons _ _)).trans (List.suffix_cons _ _)
      · cases h

/-- The tokens of a draft up to one that is no instruction stay as they are. -/
theorem suffix_of_offer {d d' : Draft} {t u : Token} {ts : List Token} (hkind : t.kind ≠ .instruction)
    (hd : t :: ts <:+ d.tokens) (h : d.offer u = .ok d') : t :: ts <:+ d'.tokens := by
  -- what is no operand is put in front of the tokens, or refused
  have hput {next : Draft} {cause : Cause} (hnext : next.tokens = u :: d.tokens)
      (hi : (if d.budget = 0 then .ok next else .error cause) = Except.ok d') : t :: ts <:+ d'.tokens := by
    split at hi
    · obtain rfl := Except.ok.inj hi
      rw [hnext]
      exact hd.trans (List.suffix_cons u d.tokens)
    · cases hi
  unfold offer at h
  split at h
  · exact hput rfl h
  · exact hput rfl h
  · exact hput rfl h
  · exact suffix_of_fill hkind hd h

end Draft

/-! ## Values of tokens -/

theorem Lexeme.decode?_of_quoted {quote : UInt8} {cause : Cause} {text raw after : Bytes}
    (h : Lexeme.quoted quote cause text = .ok (raw, after)) : (Escape.decode? raw).isSome := by
  fun_induction Lexeme.quoted quote cause text generalizing raw after with
  | case1 => cases h
  | case2 => cases h
  | case3 letter tail hletter raw' after' hq ih =>
    cases h
    obtain ⟨b, hb⟩ := Option.isSome_iff_exists.mp hletter
    simp [Escape.decode?, hb, ih hq]
  | case4 => cases h
  | case5 => cases h
  | case6 => cases h; simp [Escape.decode?]
  | case7 c rest hc hquote raw' after' hq ih =>
    cases h
    unfold Escape.decode?
    rw [if_neg hc, Option.isSome_map]
    exact ih hq
  | case8 => cases h

theorem Lexeme.afterMark_ne_string {width : Width} {text raw after : Bytes} :
    Lexeme.afterMark width text ≠ .ok (.string raw, after) := by
  intro h
  unfold Lexeme.afterMark at h
  split at h
  · split at h
    · split at h <;> cases h
    · cases h
  · cases h

theorem Lexeme.label_ne_string {text raw after : Bytes} : Lexeme.label text ≠ .ok (.string raw, after) := by
  intro h
  unfold Lexeme.label at h
  simp only at h
  split at h
  · cases h
  · split at h
    · split at h <;> cases h
    · cases h

theorem Lexeme.bare_ne_string {a : UInt8} {rest raw after : Bytes} :
    Lexeme.bare a rest ≠ .ok (.string raw, after) := by
  intro h
  unfold Lexeme.bare at h
  split at h
  · simp only [Lexeme.registerDigits] at h
    split at h <;> cases h
  · split at h
    · cases h
    · simp only at h
      split at h
      · split at h
        · split at h
          · exact afterMark_ne_string h
          · cases h
        · cases h
      · cases h

/-- Only a quote starts a string. -/
theorem Lexeme.quote_of_first {c : UInt8} {rest raw after : Bytes}
    (h : Lexeme.first c rest = .ok (.string raw, after)) :
    Lexeme.quoted Ascii.quote .stringUnterminated rest = .ok (raw, after) := by
  unfold Lexeme.first at h
  split at h
  · split at h
    next hq => cases h; exact hq
    · cases h
  · split at h
    · split at h <;> cases h
    · split at h
      · exact absurd h label_ne_string
      · split at h
        · exact absurd h afterMark_ne_string
        · exact absurd h bare_ne_string

/-- A string is read only if its escapes are known. -/
theorem Lexeme.decode?_of_next {text raw after : Bytes}
    (h : Lexeme.next text = .ok (some (.string raw, after))) : (Escape.decode? raw).isSome := by
  induction text with
  | nil => simp [Lexeme.next] at h
  | cons c rest ih =>
    rw [Lexeme.next] at h
    split at h
    · exact ih h
    · split at h
      · simp at h
      · split at h
        next hf =>
          cases h
          exact decode?_of_quoted (quote_of_first hf)
        · cases h

/-- The token of a lexeme lies on the line given and has a value. -/
theorem Lexeme.hasValue_of_token {scope : Scope} {line : Int} {text after : Bytes} {l : Lexeme}
    {t : Token} (hn : Lexeme.next text = .ok (some (l, after))) (h : l.token scope line = .ok t) :
    t.HasValue ∧ t.line = line := by
  have hvalued {u : Token} (hu : valued u = .ok t) : (∃ v, t.value = .ok v) ∧ t = u := by
    unfold valued at hu
    split at hu
    next v hv => cases hu; exact ⟨⟨v, hv⟩, rfl⟩
    · cases hu
  have hnumber {width : Width} {literal : Bytes} (hu : valued ⟨width.kind, literal, line⟩ = .ok t) :
      t.HasValue ∧ t.line = line := by
    obtain ⟨hv, rfl⟩ := hvalued hu
    cases width <;> exact ⟨hv, rfl⟩
  unfold Lexeme.token at h
  cases l with
  | word w =>
    dsimp only at h
    split at h
    next hw => cases h; exact ⟨hw, rfl⟩
    · cases h
  | register digits =>
    dsimp only at h
    split at h
    next r hr => cases h; exact ⟨⟨r, hr⟩, rfl⟩
    · cases h
  | labelDefinition name => cases h; exact ⟨trivial, rfl⟩
  | labelUse name => cases h; exact ⟨trivial, rfl⟩
  | number width text => exact hnumber h
  | expression width text =>
    dsimp only at h
    split at h
    · exact hnumber h
    · cases h
  | string raw => cases h; exact ⟨decode?_of_next hn, rfl⟩
  | char raw =>
    obtain ⟨hv, rfl⟩ := hvalued h
    exact ⟨hv, rfl⟩

/-! ## Lines and texts -/

/-- Offering the tokens of a text keeps the draft readable. -/
theorem reads_of_lexFrom {scope : Scope} {line : Int} {d d' : Draft} {text : Bytes}
    {items : List Item} (hr : Draft.Reads line d items)
    (h : lexFrom scope line d text = .ok d') : ∃ items', Draft.Reads line d' items' := by
  fun_induction lexFrom scope line d text generalizing items with
  | case1 => cases h
  | case2 => cases h; exact ⟨items, hr⟩
  | case3 => cases h
  | case4 => cases h
  | case5 d text lexeme rest hn token ht next ho _ ih =>
    obtain ⟨hv, hl⟩ := Lexeme.hasValue_of_token hn ht
    obtain ⟨items', hr'⟩ := Draft.reads_of_offer hr hv hl ho
    exact ih hr' h

theorem suffix_of_lexFrom {scope : Scope} {line : Int} {d d' : Draft} {text : Bytes} {t : Token}
    {ts : List Token} (hkind : t.kind ≠ .instruction) (hd : t :: ts <:+ d.tokens)
    (h : lexFrom scope line d text = .ok d') : t :: ts <:+ d'.tokens := by
  fun_induction lexFrom scope line d text with
  | case1 => cases h
  | case2 => cases h; exact hd
  | case3 => cases h
  | case4 => cases h
  | case5 d text lexeme rest hn token ht next ho _ ih => exact ih (Draft.suffix_of_offer hkind hd ho) h

/-- `items` are what the line with a number consists of. -/
structure LineReads (scope : Scope) (number : Nat) (text : Bytes) (items : List Item) : Prop where
  lexed : lexLine (scope.atNumber number) number text = .ok (items.flatMap Item.tokens)
  complete : ∀ i ∈ items, i.Complete
  line_eq : ∀ i ∈ items, i.line = number

/-- `items` are what lines, numbered from a number on, consist of. -/
inductive TextReads (scope : Scope) : Nat → List Bytes → List Item → Prop where
  | nil {number : Nat} : TextReads scope number [] []
  | cons {number : Nat} {line : Bytes} {lines : List Bytes} {items more : List Item}
      (head : LineReads scope number line items) (tail : TextReads scope (number + 1) lines more) :
      TextReads scope number (line :: lines) (items ++ more)

theorem TextReads.complete {scope : Scope} {number : Nat} {lines : List Bytes} {items : List Item}
    (h : TextReads scope number lines items) : ∀ i ∈ items, i.Complete := by
  induction h with
  | nil => simp
  | cons head tail ih =>
    intro i hi
    rcases List.mem_append.mp hi with hi | hi
    · exact head.complete i hi
    · exact ih i hi

theorem reads_of_lexLine {scope : Scope} {number : Nat} {text : Bytes} {ts : List Token}
    (h : lexLine (scope.atNumber number) number text = .ok ts) :
    ∃ items, LineReads scope number text items ∧ ts = items.flatMap Item.tokens := by
  have hlex := h
  unfold lexLine at h
  split at h
  · cases h
  next draft hdraft =>
    split at h
    · cases h
    next tokens hfinish =>
      cases h
      obtain ⟨items, hr⟩ := reads_of_lexFrom (Draft.reads_empty number) hdraft
      cases hr with
      | awaiting => simp [Draft.finish] at hfinish
      | closed complete tokens =>
        have hts : ts = items.flatMap Item.tokens := by
          rw [← tokens]; simpa [Draft.finish] using hfinish.symm
        refine ⟨items, ⟨?_, fun i hi => (complete i hi).1, fun i hi => (complete i hi).2⟩, hts⟩
        rw [hlex, hts]

/-- The tokens of lines are those of complete items. -/
theorem reads_of_lexLines {scope : Scope} {number : Nat} {lines : List Bytes} {ts : List Token}
    (h : lexLines scope number lines = .ok ts) :
    ∃ items, TextReads scope number lines items ∧ ts = items.flatMap Item.tokens := by
  induction lines generalizing number ts with
  | nil =>
    cases h
    exact ⟨[], .nil, rfl⟩
  | cons line rest ih =>
    simp only [lexLines] at h
    split at h
    · cases h
    next tokens hline =>
      split at h
      · cases h
      next more hrest =>
        cases h
        obtain ⟨items, hitems, rfl⟩ := reads_of_lexLine hline
        obtain ⟨rest', hrest', rfl⟩ := ih hrest
        exact ⟨items ++ rest', .cons hitems hrest', by simp⟩

end Assembly

end WordMachine
