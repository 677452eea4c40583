import Mathlib
import WordMachine.Proofs.Assembly.Lowering

/-!
# `Proofs.Assembly.Denotation` — assembled programs in one pass

Filling the holes after lowering gives the same image as writing every item down at once with the final
offsets of the labels: both passes together are one denotation of the items.

Contents:
* `Relocatable.fill_items`: resolving fails at the first label without a place, and writes the offsets of
  all labels otherwise;
* `Program.Denotes`, `assemble_items`: what assembling complete items gives;
* `parse_denotes`: every text that is accepted assembles to the denotation of its items.
-/

namespace WordMachine.Assembly

/-! ## Patching -/

theorem Relocatable.toList_patch {image : Image} (before old new after : Bytes)
    (h : image.toList = before ++ old ++ after) (hlen : old.length = new.length) :
    (patch image before.length new).toList = before ++ new ++ after := by
  induction new generalizing image before old with
  | nil =>
    obtain rfl := List.length_eq_zero_iff.mp hlen
    simpa [patch] using h
  | cons b rest ih =>
    cases old with
    | nil => simp at hlen
    | cons c old =>
      have hset : (image.setIfInBounds before.length b).toList = (before ++ [b]) ++ old ++ after := by
        rw [Array.toList_setIfInBounds, h]
        simp
      have hrest := ih (before ++ [b]) old hset (by simpa using hlen)
      rw [patch]
      simpa using hrest

/-! ## Items with labels -/

theorem Item.fields_registers {registers : List Token}
    (h : ∀ t ∈ registers, t.kind = .register) (hv : ∀ t ∈ registers, t.HasValue) :
    ∃ values, values.length = registers.length ∧ ∀ offset, fields offset registers = some (values, []) := by
  induction registers with
  | nil => exact ⟨[], rfl, fun _ => rfl⟩
  | cons t rest ih =>
    obtain ⟨values, hlength, hvalues⟩ := ih (fun u hu => h u (List.mem_cons_of_mem t hu))
      (fun u hu => hv u (List.mem_cons_of_mem t hu))
    have hkind := h t List.mem_cons_self
    have hval := hv t List.mem_cons_self
    rw [Token.HasValue, hkind] at hval
    obtain ⟨r, hr⟩ := hval
    exact ⟨r :: values, by simp [hlength], fun offset => by simp [fields, hvalues, hkind, hr, Except.toOption]⟩

/-- The bytes of an item depend on no label, or on one that stands at its end. -/
theorem Item.Complete.bytes?_cases {i : Item} (hc : i.Complete) :
    (i.uses = [] ∧ ∀ offset, i.bytes? offset = i.bytes? (fun _ => some 0)) ∨
    ∃ name line head, i.uses = [(name, line)] ∧ head.length = 2 ∧
      ∀ offset, i.bytes? offset = (offset name).map fun o => head ++ littleEndian 4 o.toNat := by
  cases i with
  | label name line => exact Or.inl ⟨rfl, fun _ => rfl⟩
  | string raw line => exact Or.inl ⟨rfl, fun _ => rfl⟩
  | instruction op operands line =>
    obtain ⟨registers, immediates, rfl, hregisters, huses, himmediates, hvalue⟩ := hc.split
    obtain ⟨values, -, hvalues⟩ := fields_registers (kind_of_replicate hregisters) hvalue
    rcases himmediates with ⟨-, rfl⟩ | ⟨kind, t, himm, hkind, rfl, ht, htk, htv⟩
    · refine Or.inl ⟨by simp [uses, huses], fun offset => ?_⟩
      simp [bytes?, instruction?, hvalues]
    · have hfields : ∀ offset, fields offset (registers ++ [t]) =
          (immediate? offset t).map fun v => (values, [v]) := by
        intro offset
        rw [fields_append, hvalues]
        cases him : immediate? offset t <;> simp [fields, htk, him]
      by_cases hlabel : t.kind = .labelUse
      · obtain rfl : kind = .imm32 := by
          rw [Token.operand?, hlabel] at ht
          exact (Option.some.inj ht).symm
        refine Or.inr ⟨t.text, t.line, [op.code, Instruction.descriptor
          ⟨.of op, ((values[0]?.getD 0).val : Nat), ((values[1]?.getD 0).val : Nat), 0⟩],
          by simp [uses, huses, hlabel], rfl, ?_⟩
        intro offset
        simp only [bytes?, instruction?, hfields, immediate?, hlabel, if_true, Option.map_map]
        congr 1
        funext o
        simp [Instruction.encode, Instruction.descriptor, himm, Operand.cost]
      · refine Or.inl ⟨by simp [uses, huses, hlabel], fun offset => ?_⟩
        simp [bytes?, instruction?, hfields, immediate?, hlabel]

/-! ## Resolving -/

/-- The first label operand among items that has no offset, with its line. -/
def missing? (labels : Labels) (items : List Item) : Option (Bytes × Int) :=
  (items.flatMap Item.uses).find? fun u => labels[u.1]?.isNone

/-- Filling the holes of items stops at the first label that has no offset, and gives the bytes of the
items with all offsets if there is none. -/
theorem Relocatable.fill_items (labels : Labels) (image : Image) (before : Bytes) {items : List Item}
    {bs : Bytes} (hc : ∀ i ∈ items, i.Complete) (hbs : bytes? (fun _ => some 0) items = some bs)
    (himage : image.toList = before ++ bs) :
    match missing? labels items with
    | some (name, line) => fill labels image (holes before.length items) = .error (.label line (.missing name))
    | none => ∃ filled final, fill labels image (holes before.length items) = .ok filled ∧
        bytes? (fun name => labels[name]?) items = some final ∧ filled.toList = before ++ final := by
  induction items generalizing image before bs with
  | nil =>
    cases hbs
    exact ⟨image, [], rfl, rfl, himage⟩
  | cons i rest ih =>
    obtain ⟨first, hfirst, hmap⟩ := Option.bind_eq_some_iff.mp hbs
    obtain ⟨more, hmore, rfl⟩ := Option.map_eq_some_iff.mp hmap
    have hcrest : ∀ j ∈ rest, j.Complete := fun j hj => hc j (List.mem_cons_of_mem i hj)
    -- whatever replaces the bytes of the first item, the rest starts behind them
    have hrest {image' : Image} {first' : Bytes} (hlen : first'.length = i.size)
        (himage' : image'.toList = (before ++ first') ++ more) := by
      have hnext := ih image' (before ++ first') hcrest hmore himage'
      rwa [List.length_append, hlen] at hnext
    rcases (hc i List.mem_cons_self).bytes?_cases with
      ⟨huses, hconst⟩ | ⟨name, line, head, huses, hhead, hbytes⟩
    · have hnext := hrest (Item.length_of_bytes? hfirst) (by rw [himage, List.append_assoc])
      have hmissing : missing? labels (i :: rest) = missing? labels rest := by simp [missing?, huses]
      have hholes : holes before.length (i :: rest) = holes (before.length + i.size) rest := by
        simp [holes, huses]
      rw [hmissing, hholes]
      cases hfind : missing? labels rest with
      | some u => rwa [hfind] at hnext
      | none =>
        rw [hfind] at hnext
        obtain ⟨filled, final, hfill, hfinal, htoList⟩ := hnext
        refine ⟨filled, first ++ final, hfill, ?_, by rw [htoList, List.append_assoc]⟩
        rw [bytes?, hconst, hfirst, hfinal]; rfl
    · have hzero : first = head ++ [0, 0, 0, 0] := by
        rw [hbytes] at hfirst
        exact (Option.some.inj hfirst).symm
      cases hlabel : labels[name]? with
      | none => simp [missing?, huses, hlabel, holes, fill]
      | some o =>
        have hpatched := toList_patch (before ++ head) [0, 0, 0, 0] (littleEndian 4 o.toNat) more
          (show image.toList = _ by rw [himage, hzero]; simp) (by rw [length_littleEndian]; rfl)
        have hlen : (head ++ littleEndian 4 o.toNat).length = i.size := by
          rw [← Item.length_of_bytes? hfirst, hzero]
          simp [length_littleEndian]
        have hnext := hrest hlen (by rw [hpatched]; simp)
        have hmissing : missing? labels (i :: rest) = missing? labels rest := by
          simp [missing?, huses, hlabel]
        have hfill : fill labels image (holes before.length (i :: rest)) =
            fill labels (patch image (before ++ head).length (littleEndian 4 o.toNat))
              (holes (before.length + i.size) rest) := by
          simp [holes, huses, fill, hlabel, hhead]
        rw [hmissing, hfill]
        cases hfind : missing? labels rest with
        | some u => rwa [hfind] at hnext
        | none =>
          rw [hfind] at hnext
          obtain ⟨filled, final, hfilled, hfinal, htoList⟩ := hnext
          refine ⟨filled, (head ++ littleEndian 4 o.toNat) ++ final, hfilled, ?_, by rw [htoList]; simp⟩
          rw [bytes?, hbytes, hlabel, hfinal]; rfl

/-! ## Assembling -/

theorem mem_definitions {start n : Nat} {items : List Item} {name : Bytes} :
    (name, n) ∈ definitions start items ↔
      ∃ before line after, items = before ++ .label name line :: after ∧ n = start + extent before := by
  constructor
  · intro h
    induction items generalizing start with
    | nil => simp [definitions] at h
    | cons i rest ih =>
      have hrest (h : (name, n) ∈ definitions (start + i.size) rest) :
          ∃ before line after, i :: rest = before ++ .label name line :: after ∧
            n = start + extent before := by
        obtain ⟨before, line, after, rfl, rfl⟩ := ih h
        exact ⟨i :: before, line, after, rfl, by simp only [extent]; omega⟩
      cases i with
      | label name' line =>
        rcases List.mem_cons.mp h with heq | h
        · obtain ⟨rfl, rfl⟩ := Prod.mk.inj heq
          exact ⟨[], line, rest, rfl, by simp [extent]⟩
        · exact hrest h
      | string raw line => exact hrest h
      | instruction op operands line => exact hrest h
  · rintro ⟨before, line, after, rfl, rfl⟩
    rw [definitions_append]
    simp [definitions]

/-- The names that items define. -/
def names (items : List Item) : List Bytes := (definitions 0 items).map (·.1)

/-- Items whose labels have different names are no duplicates. -/
theorem duplicate?_eq_none {items : List Item} {seen : List Bytes} {start : Nat}
    (hnodup : ((definitions start items).map (·.1)).Nodup)
    (hseen : ∀ name ∈ (definitions start items).map (·.1), name ∉ seen) :
    duplicate? seen items = none := by
  induction items generalizing seen start with
  | nil => rfl
  | cons i rest ih =>
    cases i with
    | label name line =>
      obtain ⟨hnot, hrest⟩ := List.nodup_cons.mp hnodup
      rw [duplicate?, if_neg (mt List.contains_iff_mem.mp (hseen name List.mem_cons_self))]
      refine ih hrest fun other hother => ?_
      rw [List.mem_cons, not_or]
      exact ⟨fun heq => hnot (heq ▸ hother), hseen other (List.mem_cons_of_mem _ hother)⟩
    | string raw line => exact ih hnodup hseen
    | instruction op operands line => exact ih hnodup hseen

/-- The first label operand among items that no item defines, with its line. -/
def undefined? (items : List Item) : Option (Bytes × Int) :=
  (items.flatMap Item.uses).find? fun u => !(names items).contains u.1

/-- A program is what items say: their bytes under its own labels, a label for each definition at the
place where it stands, and a line entry for each instruction. -/
structure Program.Denotes (p : Program) (items : List Item) : Prop where
  image : bytes? (fun name => p.labels[name]?) items = some p.image.toList
  labels : ∀ name o, p.labels[name]? = some o ↔ ∃ n, (name, n) ∈ definitions 0 items ∧ o = n.toUInt32
  lines : p.lines = entries 0 items

theorem Program.Denotes.size {p : Program} {items : List Item} (h : p.Denotes items) :
    p.image.size = extent items := by
  rw [← Array.length_toList]
  exact length_of_bytes? h.image

/-- Assembling complete items fails at the first label that is defined again, else at the first label
operand that is not defined, and gives their denotation otherwise. -/
theorem assemble_items {items : List Item} (hc : ∀ i ∈ items, i.Complete) :
    match duplicate? [] items, undefined? items with
    | some (name, line), _ =>
        assemble (items.flatMap Item.tokens) = .error (.label line (.duplicate name))
    | none, some (name, line) =>
        assemble (items.flatMap Item.tokens) = .error (.label line (.missing name))
    | none, none => ∃ p, assemble (items.flatMap Item.tokens) = .ok p ∧ p.Denotes items := by
  have hlower := lower_items hc
  cases hdup : duplicate? [] items with
  | some u =>
    rw [hdup] at hlower
    simp only [assemble, hlower]
  | none =>
    rw [hdup] at hlower
    obtain ⟨r, hr, hlays⟩ := hlower
    have hfill := Relocatable.fill_items r.labels r.image [] hc hlays.image rfl
    -- the names that lowering has noted are those that the items define
    have hmissing : missing? r.labels items = undefined? items := by
      unfold missing? undefined?
      congr 1
      funext u
      rw [Bool.eq_iff_iff, Bool.not_eq_true', ← Bool.not_eq_true, List.contains_iff_mem, Option.isNone_iff_eq_none,
        names, ← hlays.mem_labels, ← Std.TreeMap.isSome_getElem?_iff_mem, Option.not_isSome_iff_eq_none]
    rw [hmissing, List.length_nil, ← hlays.relocations] at hfill
    cases hund : undefined? items with
    | some u =>
      rw [hund] at hfill
      simp only [assemble, hr, Relocatable.resolve, hfill]
    | none =>
      rw [hund] at hfill
      obtain ⟨filled, final, hfilled, hfinal, htoList⟩ := hfill
      refine ⟨⟨filled, r.labels, r.lines.toList⟩, by simp only [assemble, hr, Relocatable.resolve, hfilled],
        ?_, hlays.labels, hlays.lines⟩
      rw [hfinal, htoList, List.nil_append]

/-- What is assembled from complete items is their denotation. -/
theorem denotes_of_assemble {items : List Item} {p : Program} (hc : ∀ i ∈ items, i.Complete)
    (h : assemble (items.flatMap Item.tokens) = .ok p) : p.Denotes items := by
  have hassemble := assemble_items hc
  rw [h] at hassemble
  split at hassemble
  · cases hassemble
  · cases hassemble
  · obtain ⟨q, hq, hdenotes⟩ := hassemble
    cases hq
    exact hdenotes

theorem Item.tokens_ne_nil (i : Item) : i.tokens ≠ [] := by
  cases i <;> exact List.cons_ne_nil _ _

/-- Complete items are read off their tokens from the front on: where the tokens of some items come first, those
items do. -/
theorem append_of_tokens {xs ys : List Item} {more : List Token} (hx : ∀ i ∈ xs, i.Complete)
    (hy : ∀ i ∈ ys, i.Complete) (h : xs.flatMap Item.tokens ++ more = ys.flatMap Item.tokens) :
    ∃ zs, ys = xs ++ zs := by
  induction xs generalizing ys with
  | nil => exact ⟨ys, rfl⟩
  | cons i xs ih =>
    cases ys with
    | nil => simp [i.tokens_ne_nil] at h
    | cons j ys =>
      have hrest := @ih ys (fun k hk => hx k (List.mem_cons_of_mem i hk))
        (fun k hk => hy k (List.mem_cons_of_mem j hk))
      have htail (hij : i = j) (htokens : xs.flatMap Item.tokens ++ more = ys.flatMap Item.tokens) :
          ∃ zs, j :: ys = i :: xs ++ zs := by
        obtain ⟨zs, rfl⟩ := hrest htokens
        exact ⟨zs, by rw [hij]; rfl⟩
      cases i <;> cases j <;> simp [Item.tokens] at h
      case label.label => exact htail (by rw [h.1.1, h.1.2]) h.2
      case string.string => exact htail (by rw [h.1.1, h.1.2]) h.2
      case instruction.instruction op xops line op' yops line' =>
        obtain ⟨⟨hop, rfl⟩, htokens⟩ := h
        obtain rfl : op = op' := by
          have hsome := congrArg Operation.ofMnemonic? hop
          simpa using hsome
        -- both have the operands the operation calls for, so the rest starts at the same place
        have hlen : xops.length = yops.length := by
          have hxk := congrArg List.length (hx _ List.mem_cons_self).2
          have hyk := congrArg List.length (hy _ List.mem_cons_self).2
          simp only [List.length_map] at hxk hyk
          rw [hxk, hyk]
        obtain ⟨rfl, hmore⟩ := List.append_inj htokens hlen
        exact htail rfl hmore

/-- Complete items are the only ones with their tokens. -/
theorem tokens_injective {xs ys : List Item} (hx : ∀ i ∈ xs, i.Complete) (hy : ∀ i ∈ ys, i.Complete)
    (h : xs.flatMap Item.tokens = ys.flatMap Item.tokens) : xs = ys := by
  obtain ⟨zs, rfl⟩ := append_of_tokens hx hy (by rw [List.append_nil, h])
  cases zs with
  | nil => rw [List.append_nil]
  | cons i zs => simp [i.tokens_ne_nil] at h

/-! ## Whole texts -/

/-- Every text that is accepted consists of complete items, in one way only, and its program is read off
them in one pass: the bytes of the items one after the other, where a label stands for the number of
bytes before its definition, and one line entry for each instruction. -/
theorem parse_denotes {a : Assembler} {text : Bytes} {p : Program} (h : (a.parse text).1 = .ok p)
    (hsize : p.image.size < UInt32.size) :
    ∃ source lexed items, a.expand text = .ok source ∧ (a.reset.lex text).1 = .ok lexed ∧
      TextReads a.initialScope 1 (Bytes.lines source) items ∧
      lexed.tokens = items.flatMap Item.tokens ∧
      (∀ items', (∀ i ∈ items', i.Complete) → lexed.tokens = items'.flatMap Item.tokens → items' = items) ∧
      bytes? (fun name => p.labels[name]?) items = some p.image.toList ∧
      (∀ name offset, p.labels[name]? = some offset ↔
        ∃ before line after, items = before ++ .label name line :: after ∧ offset.toNat = extent before) ∧
      p.lines = entries 0 items := by
  have hlex : (a.reset.lex text).1 = a.tokenize a.initialScope text := rfl
  cases hexpand : a.expand text with
  | error e =>
    simp [Assembler.parse, hlex, Assembler.tokenize, hexpand] at h
  | ok source =>
    cases hlines : lexLines a.initialScope 1 (Bytes.lines source) with
    | error e => simp [Assembler.parse, hlex, Assembler.tokenize, hexpand, hlines] at h
    | ok ts =>
      have hlexed : (a.reset.lex text).1 = .ok ⟨ts, (Bytes.lines source).length⟩ := by
        simp [hlex, Assembler.tokenize, hexpand, hlines]
      have hassemble : assemble ts = .ok p := by
        simpa [Assembler.parse, hlexed] using h
      obtain ⟨items, hreads, rfl⟩ := reads_of_lexLines hlines
      have hdenotes := denotes_of_assemble hreads.complete hassemble
      refine ⟨source, _, items, rfl, hlexed, hreads, rfl, ?_, hdenotes.image, ?_, hdenotes.lines⟩
      · intro items' hc' heq
        exact (tokens_injective hreads.complete hc' heq).symm
      · intro name offset
        rw [hdenotes.labels]
        constructor
        · rintro ⟨n, hn, rfl⟩
          obtain ⟨before, line, after, rfl, rfl⟩ := mem_definitions.mp hn
          refine ⟨before, line, after, rfl, ?_⟩
          -- no label lies behind the end of the image, so its offset fits 32 bits
          have hle : extent before ≤ p.image.size := by
            rw [hdenotes.size, extent_append]; omega
          simp only [Nat.zero_add, Nat.toUInt32_eq, UInt32.toNat_ofNat']
          exact Nat.mod_eq_of_lt (by simp only [UInt32.size] at hsize; omega)
        · rintro ⟨before, line, after, rfl, hoffset⟩
          refine ⟨extent before, mem_definitions.mpr ⟨before, line, after, rfl, by omega⟩, ?_⟩
          rw [← hoffset]
          simp

/-- An assembler whose interpreter knows one program. -/
def countingAssembler : Assembler where
  interpreter := ⟨fun _ program _ => if program = bytes "rc=(len(range(5)))\n" then some 5 else none⟩

/-- A program that uses a label before and one after its definition, with data between the code and an operand
that is left to the interpreter. -/
theorem parse_denotes_around_data :
    ∃ p, (countingAssembler.parse
        (bytes "jmp .b\n.a: \"hi\"\n.b: sys r3\nadr r1, .a\nsys U$(len(range(5)))\nhalt")).1 = .ok p ∧
      p.image.toList =
        [0x19, 0, 9, 0, 0, 0, 0x68, 0x69, 0, 0x31, 3, 0x23, 1, 6, 0, 0, 0, 0x20, 0, 5, 0, 0, 0, 0x22, 0] ∧
      ∃ items, bytes? (fun name => p.labels[name]?) items = some p.image.toList ∧
        p.lines = entries 0 items := by
  have himage : (countingAssembler.parse
      (bytes "jmp .b\n.a: \"hi\"\n.b: sys r3\nadr r1, .a\nsys U$(len(range(5)))\nhalt")).1.toOption.map
        (fun p => p.image.toList) =
      some [0x19, 0, 9, 0, 0, 0, 0x68, 0x69, 0, 0x31, 3, 0x23, 1, 6, 0, 0, 0, 0x20, 0, 5, 0, 0, 0, 0x22, 0] := by
    decide +kernel
  obtain ⟨p, hsome, hlist⟩ := Option.map_eq_some_iff.mp himage
  cases hp : (countingAssembler.parse
      (bytes "jmp .b\n.a: \"hi\"\n.b: sys r3\nadr r1, .a\nsys U$(len(range(5)))\nhalt")).1 with
  | error e =>
    rw [hp] at hsome
    cases hsome
  | ok program =>
    rw [hp] at hsome
    obtain rfl : program = p := Option.some.inj hsome
    have hsize : program.image.size < UInt32.size := by
      rw [← Array.length_toList, hlist]
      decide
    obtain ⟨_, _, items, _, _, _, _, _, hbytes, _, hlines⟩ := parse_denotes hp hsize
    exact ⟨program, rfl, hlist, items, hbytes, hlines⟩

end WordMachine.Assembly
