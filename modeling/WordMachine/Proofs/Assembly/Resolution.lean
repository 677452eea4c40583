import Mathlib
import WordMachine.Proofs.Assembly.Denotation

/-!
# `Proofs.Assembly.Resolution` — which texts assemble

Every token that comes from a text can be lowered, so only labels stand between a text that lexes and its
program: a name that is defined twice, or one that is used and not defined. Definitions are looked at first.

Contents:
* `definedNames`, `definedNames_items`, `find?_items`: definitions and uses, among tokens and among items;
* `Repeats`, `Lacks`, `Resolves`: the three outcomes, told from the tokens alone;
* `Repeats.unique`, `Lacks.unique`: an outcome names one token only;
* `outcome_items`, `assemble_lexed`.
-/

namespace WordMachine.Assembly

/-! ## Definitions and uses -/

/-- The names that tokens define, in order. -/
def definedNames (ts : List Token) : List Bytes := (ts.filter (·.kind = .labelDefinition)).map Token.text

@[simp] theorem definedNames_append (xs ys : List Token) :
    definedNames (xs ++ ys) = definedNames xs ++ definedNames ys := by
  simp [definedNames]

@[simp] theorem definedNames_definition (name : Bytes) (line : Int) (ts : List Token) :
    definedNames (⟨.labelDefinition, name, line⟩ :: ts) = name :: definedNames ts := by
  simp [definedNames]

/-- An operand defines no label. -/
theorem Item.Complete.definedNames_operands {op : Operation} {operands : List Token} {line : Int}
    (hc : (Item.instruction op operands line).Complete) : definedNames operands = [] := by
  have hkinds : operands.map Token.operand? = op.operands.map some := hc.2
  rw [definedNames, List.map_eq_nil_iff, List.filter_eq_nil_iff]
  intro t ht hk
  have hmem : t.operand? ∈ op.operands.map some := by
    rw [← hkinds]
    exact List.mem_map_of_mem ht
  rw [Token.operand?, of_decide_eq_true hk] at hmem
  obtain ⟨kind, -, hnone⟩ := List.mem_map.mp hmem
  cases hnone

/-- The names that one item defines. -/
theorem definedNames_item {i : Item} (hc : i.Complete) (start : Nat) :
    definedNames i.tokens = (definitions start [i]).map (·.1) := by
  cases i with
  | label name line => simp [Item.tokens, definitions, definedNames]
  | string raw line => simp [Item.tokens, definitions, definedNames]
  | instruction op operands line =>
    have hnone := hc.definedNames_operands
    simp only [definedNames, List.map_eq_nil_iff] at hnone
    simp [Item.tokens, definitions, definedNames, hnone]

theorem definedNames_items {items : List Item} (hc : ∀ i ∈ items, i.Complete) :
    definedNames (items.flatMap Item.tokens) = names items := by
  have hall : ∀ start, definedNames (items.flatMap Item.tokens) = (definitions start items).map (·.1) := by
    induction items with
    | nil => exact fun _ => rfl
    | cons i rest ih =>
      intro start
      obtain ⟨hfirst, hrest⟩ := List.forall_mem_cons.mp hc
      rw [List.flatMap_cons, definedNames_append, definedNames_item hfirst start, ih hrest (start + extent [i]),
        ← List.map_append, ← definitions_append, List.singleton_append]
  exact hall 0

/-- The label operands of an item are its tokens that use labels. -/
theorem Item.uses_eq (i : Item) :
    i.uses = (i.tokens.filter (·.kind = .labelUse)).map fun t => (t.text, t.line) := by
  cases i <;> simp [Item.uses, Item.tokens]

/-- The first label operand of a kind among items is the first such token. -/
theorem find?_items (items : List Item) (p : Bytes → Bool) :
    (items.flatMap Item.uses).find? (fun u => p u.1) =
      ((items.flatMap Item.tokens).find? fun t => decide (t.kind = .labelUse) && p t.text).map
        fun t => (t.text, t.line) := by
  have huses : items.flatMap Item.uses =
      ((items.flatMap Item.tokens).filter (·.kind = .labelUse)).map fun t => (t.text, t.line) := by
    induction items with
    | nil => rfl
    | cons i rest ih => simp only [List.flatMap_cons, List.filter_append, List.map_append, ih, Item.uses_eq i]
  rw [huses, List.find?_map, List.find?_filter]
  simp only [Bool.decide_and, Bool.decide_eq_true, Function.comp_apply]

/-! ## Outcomes -/

/-- A name is defined on a line although it is defined before; no definition before that one repeats a name. -/
def Repeats (ts : List Token) (name : Bytes) (line : Int) : Prop :=
  ∃ before after, ts = before ++ ⟨.labelDefinition, name, line⟩ :: after ∧ name ∈ definedNames before ∧
    (definedNames before).Nodup

/-- No name is defined twice, and a name is used on a line that is not defined; all names used before that one
are. -/
def Lacks (ts : List Token) (name : Bytes) (line : Int) : Prop :=
  (definedNames ts).Nodup ∧ ∃ before after, ts = before ++ ⟨.labelUse, name, line⟩ :: after ∧
    name ∉ definedNames ts ∧ ∀ u ∈ before, u.kind = .labelUse → u.text ∈ definedNames ts

/-- No name is defined twice, and all that are used are defined. -/
def Resolves (ts : List Token) : Prop :=
  (definedNames ts).Nodup ∧ ∀ u ∈ ts, u.kind = .labelUse → u.text ∈ definedNames ts

variable {ts : List Token} {name name' : Bytes} {line line' : Int}

theorem Repeats.not_nodup (h : Repeats ts name line) : ¬(definedNames ts).Nodup := by
  obtain ⟨before, after, rfl, hmem, -⟩ := h
  rw [definedNames_append, definedNames_definition]
  intro hnodup
  exact (List.nodup_append.mp hnodup).2.2 name hmem name List.mem_cons_self rfl

/-- Of two tokens of one list, one comes first unless they are the same. -/
theorem eq_or_before {α : Type} {before before' after after' : List α} {x x' : α}
    (h : before ++ x :: after = before' ++ x' :: after') :
    x = x' ∨ (∃ mid, before' = before ++ x :: mid) ∨ ∃ mid, before = before' ++ x' :: mid := by
  rcases List.append_eq_append_iff.mp h with ⟨mid, rfl, hmid⟩ | ⟨mid, rfl, hmid⟩
  · cases mid with
    | nil => exact Or.inl (List.cons.inj hmid).1
    | cons y mid =>
      obtain ⟨rfl, -⟩ := List.cons.inj hmid
      exact Or.inr (Or.inl ⟨mid, rfl⟩)
  · cases mid with
    | nil => exact Or.inl (List.cons.inj hmid).1.symm
    | cons y mid =>
      obtain ⟨rfl, -⟩ := List.cons.inj hmid
      exact Or.inr (Or.inr ⟨mid, rfl⟩)

/-- Only one definition is the first that repeats a name. -/
theorem Repeats.unique (h : Repeats ts name line) (h' : Repeats ts name' line') : name = name' ∧ line = line' := by
  obtain ⟨before, after, rfl, hmem, hnodup⟩ := h
  obtain ⟨before', after', heq, hmem', hnodup'⟩ := h'
  rcases eq_or_before heq with hsame | ⟨mid, rfl⟩ | ⟨mid, rfl⟩
  · cases hsame
    exact ⟨rfl, rfl⟩
  · -- the first of the two would repeat a name before the second
    have hrepeats : Repeats (before ++ ⟨.labelDefinition, name, line⟩ :: mid) name line :=
      ⟨before, mid, rfl, hmem, hnodup⟩
    exact absurd hnodup' hrepeats.not_nodup
  · have hrepeats : Repeats (before' ++ ⟨.labelDefinition, name', line'⟩ :: mid) name' line' :=
      ⟨before', mid, rfl, hmem', hnodup'⟩
    exact absurd hnodup hrepeats.not_nodup

/-- Only one use is the first without a definition. -/
theorem Lacks.unique (h : Lacks ts name line) (h' : Lacks ts name' line') : name = name' ∧ line = line' := by
  obtain ⟨-, before, after, heq, hnot, hbefore⟩ := h
  obtain ⟨-, before', after', heq', hnot', hbefore'⟩ := h'
  rcases eq_or_before (heq.symm.trans heq') with hsame | ⟨mid, rfl⟩ | ⟨mid, rfl⟩
  · cases hsame
    exact ⟨rfl, rfl⟩
  · exact absurd (hbefore' ⟨.labelUse, name, line⟩ (by simp) rfl) hnot
  · exact absurd (hbefore ⟨.labelUse, name', line'⟩ (by simp) rfl) hnot'

theorem Lacks.not_resolves (h : Lacks ts name line) : ¬Resolves ts := by
  rintro ⟨-, hall⟩
  obtain ⟨-, before, after, heq, hnot, -⟩ := h
  exact hnot (hall ⟨.labelUse, name, line⟩ (by simp [heq]) rfl)

/-! ## Assembling -/

/-- The search for a repeated name finds the first definition that repeats one, given names defined before. -/
theorem repeats_of_duplicate? {items : List Item} {before : List Token} (hc : ∀ i ∈ items, i.Complete)
    (hbefore : (definedNames before).Nodup) {seen : List Bytes}
    (hseen : ∀ w, w ∈ seen ↔ w ∈ definedNames before) :
    match duplicate? seen items with
    | some (name, line) => Repeats (before ++ items.flatMap Item.tokens) name line
    | none => (definedNames (before ++ items.flatMap Item.tokens)).Nodup := by
  induction items generalizing before seen with
  | nil => simpa [duplicate?] using hbefore
  | cons i rest ih =>
    obtain ⟨hfirst, hrest⟩ := List.forall_mem_cons.mp hc
    have hassoc : before ++ (i :: rest).flatMap Item.tokens = (before ++ i.tokens) ++ rest.flatMap Item.tokens := by
      rw [List.flatMap_cons, List.append_assoc]
    -- an item without a definition leaves the names as they are
    have hskip (hnone : definedNames i.tokens = []) (hdup : duplicate? seen (i :: rest) = duplicate? seen rest) :
        match duplicate? seen (i :: rest) with
        | some (name, line) => Repeats (before ++ (i :: rest).flatMap Item.tokens) name line
        | none => (definedNames (before ++ (i :: rest).flatMap Item.tokens)).Nodup := by
      have hsame : definedNames (before ++ i.tokens) = definedNames before := by
        rw [definedNames_append, hnone, List.append_nil]
      rw [hdup, hassoc]
      exact ih hrest (hsame ▸ hbefore) (hsame ▸ hseen)
    cases i with
    | label name line =>
      by_cases hmem : name ∈ seen
      · simp only [duplicate?, if_pos (List.contains_iff_mem.mpr hmem)]
        exact ⟨before, rest.flatMap Item.tokens, rfl, (hseen name).mp hmem, hbefore⟩
      · simp only [duplicate?, if_neg (mt List.contains_iff_mem.mp hmem)]
        have hnames : definedNames (before ++ (Item.label name line).tokens) = definedNames before ++ [name] := by
          simp [Item.tokens, definedNames]
        rw [hassoc]
        refine ih hrest ?_ ?_
        · rw [hnames]
          refine List.nodup_append.mpr ⟨hbefore, List.nodup_singleton name, ?_⟩
          rintro w hw u hu rfl
          exact hmem ((hseen name).mpr (List.mem_singleton.mp hu ▸ hw))
        · intro w
          rw [hnames, List.mem_cons, hseen, List.mem_append, List.mem_singleton, or_comm]
    | string raw line => exact hskip (by simp [Item.tokens, definedNames]) rfl
    | instruction op operands line =>
      refine hskip ?_ rfl
      rw [definedNames_item hfirst 0]
      rfl

/-- The search for a name without a definition finds the first use of one. -/
theorem lacks_of_undefined? {items : List Item} (hc : ∀ i ∈ items, i.Complete)
    (hnodup : (definedNames (items.flatMap Item.tokens)).Nodup) :
    match undefined? items with
    | some (name, line) => Lacks (items.flatMap Item.tokens) name line
    | none => Resolves (items.flatMap Item.tokens) := by
  rw [undefined?, ← definedNames_items hc,
    find?_items items fun w => !(definedNames (items.flatMap Item.tokens)).contains w]
  cases hfind : (items.flatMap Item.tokens).find? fun t => decide (t.kind = .labelUse) &&
      !(definedNames (items.flatMap Item.tokens)).contains t.text with
  | none =>
    refine ⟨hnodup, fun u hu hk => ?_⟩
    have hnot := List.find?_eq_none.mp hfind u hu
    simpa [hk] using hnot
  | some t =>
    obtain ⟨ht, before, after, heq, hbefore⟩ := List.find?_eq_some_iff_append.mp hfind
    rw [Bool.and_eq_true, decide_eq_true_eq, Bool.not_eq_true', ← Bool.not_eq_true, List.contains_iff_mem] at ht
    obtain ⟨kind, text, line⟩ := t
    obtain ⟨rfl, hnot⟩ := ht
    refine ⟨hnodup, before, after, heq, hnot, fun u hu hk => ?_⟩
    have hdefined := hbefore u hu
    simpa [hk] using hdefined

/-- Complete items have one of the three outcomes. -/
theorem outcome_items {items : List Item} (hc : ∀ i ∈ items, i.Complete) (hts : ts = items.flatMap Item.tokens) :
    (∃ name line, Repeats ts name line ∧ assemble ts = .error (.label line (.duplicate name))) ∨
      (∃ name line, Lacks ts name line ∧ assemble ts = .error (.label line (.missing name))) ∨
      (Resolves ts ∧ ∃ p, assemble ts = .ok p) := by
  subst hts
  have hassemble := assemble_items hc
  have hduplicate := @repeats_of_duplicate? items [] hc List.nodup_nil [] (by simp [definedNames])
  cases hdup : duplicate? [] items with
  | some u =>
    rw [hdup] at hassemble hduplicate
    exact Or.inl ⟨u.1, u.2, hduplicate, hassemble⟩
  | none =>
    rw [hdup] at hassemble hduplicate
    have hundefined := lacks_of_undefined? hc hduplicate
    cases hund : undefined? items with
    | some u =>
      rw [hund] at hassemble hundefined
      exact Or.inr (Or.inl ⟨u.1, u.2, hundefined, hassemble⟩)
    | none =>
      rw [hund] at hassemble hundefined
      obtain ⟨p, hp, -⟩ := hassemble
      exact Or.inr (Or.inr ⟨hundefined, p, hp⟩)

section Items

variable {items : List Item}

theorem assemble_eq_duplicate_iff (hc : ∀ i ∈ items, i.Complete) (hts : ts = items.flatMap Item.tokens) :
    assemble ts = .error (.label line (.duplicate name)) ↔ Repeats ts name line := by
  rcases outcome_items hc hts with
    ⟨name', line', hrep, hasm⟩ | ⟨name', line', hlack, hasm⟩ | ⟨hres, p, hasm⟩
  · rw [hasm]
    constructor
    · rintro ⟨⟩
      exact hrep
    · intro h
      obtain ⟨rfl, rfl⟩ := hrep.unique h
      rfl
  · rw [hasm]
    constructor
    · rintro ⟨⟩
    · intro h
      exact absurd hlack.1 h.not_nodup
  · rw [hasm]
    constructor
    · rintro ⟨⟩
    · intro h
      exact absurd hres.1 h.not_nodup

theorem assemble_eq_missing_iff (hc : ∀ i ∈ items, i.Complete) (hts : ts = items.flatMap Item.tokens) :
    assemble ts = .error (.label line (.missing name)) ↔ Lacks ts name line := by
  rcases outcome_items hc hts with
    ⟨name', line', hrep, hasm⟩ | ⟨name', line', hlack, hasm⟩ | ⟨hres, p, hasm⟩
  · rw [hasm]
    constructor
    · rintro ⟨⟩
    · intro h
      exact absurd h.1 hrep.not_nodup
  · rw [hasm]
    constructor
    · rintro ⟨⟩
      exact hlack
    · intro h
      obtain ⟨rfl, rfl⟩ := hlack.unique h
      rfl
  · rw [hasm]
    constructor
    · rintro ⟨⟩
    · intro h
      exact absurd hres h.not_resolves

theorem assemble_eq_ok_iff (hc : ∀ i ∈ items, i.Complete) (hts : ts = items.flatMap Item.tokens) :
    (∃ p, assemble ts = .ok p) ↔ Resolves ts := by
  rcases outcome_items hc hts with
    ⟨name', line', hrep, hasm⟩ | ⟨name', line', hlack, hasm⟩ | ⟨hres, p, hasm⟩
  · rw [hasm]
    constructor
    · rintro ⟨p, ⟨⟩⟩
    · intro h
      exact absurd h.1 hrep.not_nodup
  · rw [hasm]
    constructor
    · rintro ⟨p, ⟨⟩⟩
    · intro h
      exact absurd h hlack.not_resolves
  · exact ⟨fun _ => hres, fun _ => ⟨p, hasm⟩⟩

end Items

/-- The tokens of a text are those of complete items. -/
theorem items_of_lex {a : Assembler} {text : Bytes} {lexed : Assembler.Lexed} (h : (a.lex text).1 = .ok lexed) :
    ∃ items : List Item, (∀ i ∈ items, i.Complete) ∧ lexed.tokens = items.flatMap Item.tokens := by
  have htokenize : a.tokenize ⟨a.equates?.getD a.initialEquates, a.interpreter⟩ text = .ok lexed := h
  unfold Assembler.tokenize at htokenize
  split at htokenize
  · cases htokenize
  · dsimp only at htokenize
    split at htokenize
    · cases htokenize
    next hlines =>
      cases htokenize
      obtain ⟨items, hreads, hts⟩ := reads_of_lexLines hlines
      exact ⟨items, hreads.complete, hts⟩

/-- The tokens of a text all have values, and assembling them fails for labels only: at the first definition
that repeats a name if a name is defined twice, else at the first use of a name that is not defined if there is
one. If there is neither, there is a program. -/
theorem assemble_lexed {a : Assembler} {text : Bytes} {lexed : Assembler.Lexed} (h : (a.lex text).1 = .ok lexed) :
    (∀ t ∈ lexed.tokens, t.HasValue) ∧
    (∀ e, assemble lexed.tokens = .error e → ∃ line cause, e = .label line cause) ∧
    (∀ name line, assemble lexed.tokens = .error (.label line (.duplicate name)) ↔
      ∃ before after, lexed.tokens = before ++ ⟨.labelDefinition, name, line⟩ :: after ∧
        name ∈ definedNames before ∧ (definedNames before).Nodup) ∧
    ((∃ name line, assemble lexed.tokens = .error (.label line (.duplicate name))) ↔
      ¬(definedNames lexed.tokens).Nodup) ∧
    (∀ name line, assemble lexed.tokens = .error (.label line (.missing name)) ↔
      (definedNames lexed.tokens).Nodup ∧ ∃ before after,
        lexed.tokens = before ++ ⟨.labelUse, name, line⟩ :: after ∧ name ∉ definedNames lexed.tokens ∧
          ∀ u ∈ before, u.kind = .labelUse → u.text ∈ definedNames lexed.tokens) ∧
    ((∃ p, assemble lexed.tokens = .ok p) ↔
      (definedNames lexed.tokens).Nodup ∧
        ∀ u ∈ lexed.tokens, u.kind = .labelUse → u.text ∈ definedNames lexed.tokens) := by
  obtain ⟨items, hc, hts⟩ := items_of_lex h
  have houtcome := outcome_items hc hts
  refine ⟨?_, ?_, fun _ _ => assemble_eq_duplicate_iff hc hts, ?_, fun _ _ => assemble_eq_missing_iff hc hts,
    assemble_eq_ok_iff hc hts⟩
  · intro t ht
    rw [hts] at ht
    obtain ⟨i, hi, ht⟩ := List.mem_flatMap.mp ht
    exact ((hc i hi).1 t ht).1
  · intro e he
    rcases houtcome with ⟨name, line, -, hasm⟩ | ⟨name, line, -, hasm⟩ | ⟨-, p, hasm⟩
    · rw [hasm] at he
      cases he
      exact ⟨line, _, rfl⟩
    · rw [hasm] at he
      cases he
      exact ⟨line, _, rfl⟩
    · rw [hasm] at he
      cases he
  · constructor
    · rintro ⟨name, line, hasm⟩
      exact ((assemble_eq_duplicate_iff hc hts).mp hasm).not_nodup
    · intro hdup
      rcases houtcome with ⟨name, line, -, hasm⟩ | ⟨name, line, hlack, -⟩ | ⟨hres, -⟩
      · exact ⟨name, line, hasm⟩
      · exact absurd hlack.1 hdup
      · exact absurd hres.1 hdup

/-- A text that uses a name without a definition before it defines another name twice. -/
theorem assemble_lexed_repeated :
    ∃ lexed, (({} : Assembler).lex (bytes "jmp .b\n.a: halt\n.a: ret")).1 = .ok lexed ∧
      ⟨.labelUse, bytes "b", 1⟩ ∈ lexed.tokens ∧ bytes "b" ∉ definedNames lexed.tokens ∧
      assemble lexed.tokens = .error (.label 3 (.duplicate (bytes "a"))) := by
  have hlex : (({} : Assembler).lex (bytes "jmp .b\n.a: halt\n.a: ret")).1.toOption =
      some ⟨[⟨.instruction, bytes "jmp", 1⟩, ⟨.labelUse, bytes "b", 1⟩,
        ⟨.labelDefinition, bytes "a", 2⟩, ⟨.instruction, bytes "halt", 2⟩,
        ⟨.labelDefinition, bytes "a", 3⟩, ⟨.instruction, bytes "ret", 3⟩], 3⟩ := by
    decide +kernel
  cases h : (({} : Assembler).lex (bytes "jmp .b\n.a: halt\n.a: ret")).1 with
  | error e =>
    rw [h] at hlex
    cases hlex
  | ok lexed =>
    rw [h] at hlex
    obtain rfl := Option.some.inj hlex
    obtain ⟨-, -, hduplicate, -⟩ := assemble_lexed h
    exact ⟨_, rfl, by decide, by decide, (hduplicate _ _).mpr ⟨[⟨.instruction, bytes "jmp", 1⟩,
      ⟨.labelUse, bytes "b", 1⟩, ⟨.labelDefinition, bytes "a", 2⟩, ⟨.instruction, bytes "halt", 2⟩],
      [⟨.instruction, bytes "ret", 3⟩], rfl, by decide, by decide⟩⟩

end WordMachine.Assembly
