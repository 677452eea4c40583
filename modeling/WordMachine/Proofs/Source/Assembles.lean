import Mathlib
import WordMachine.Proofs.Source.Layout

/-!
# `Proofs.Source.Assembles` — generated text assembles

All lines of a program are well formed, its labels have different names, and every label it uses is
defined. So the only thing the assembler can refuse is a memory address of more than 32 bits.

Contents:
* `Trailing`, `Compiled.Origin`, `Compiled.Arranged.origin`: the lines that a program has;
* `Compiled.Arranged.wellFormed`, `nodup_labels`, `mem_labels_of_mem_targets`;
* `names_itemsFrom`, `Compiled.Arranged.parse_fits`, `Compiled.Arranged.parse_unfit`;
* `compile_assembles`: which compiled texts assemble, and how the others fail.
-/

namespace WordMachine

open Assembly (Item Assembler)

namespace Source

/-- The labels that the items of lines define are those of the lines. -/
theorem names_itemsFrom (start number : Nat) (ls : List Line) :
    (Assembly.definitions start (itemsFrom number ls)).map (·.1) = (labels ls).map Label.name := by
  induction ls generalizing start number with
  | nil => rfl
  | cons l rest ih =>
    cases l with
    | comment text => exact ih start (number + 1)
    | blank => exact ih start (number + 1)
    | label l => exact congrArg (l.name :: ·) (ih start (number + 1))
    | code op args => exact ih _ (number + 1)
    | data l raw => exact congrArg (l.name :: ·) (ih _ (number + 1))

/-- The labels that the items of lines use are the targets of the lines. -/
theorem uses_itemsFrom {number : Nat} {ls : List Line} {u : Bytes × Int}
    (h : u ∈ (itemsFrom number ls).flatMap Item.uses) : ∃ l ∈ ls.flatMap Line.targets, u.1 = l.name := by
  induction ls generalizing number with
  | nil => simp [itemsFrom] at h
  | cons l rest ih =>
    rw [itemsFrom, List.flatMap_append] at h
    rw [List.flatMap_cons]
    rcases List.mem_append.mp h with h | h
    · cases l with
      | code op args =>
        simp only [Line.items, List.flatMap_singleton, Item.uses, List.mem_map, List.mem_filter] at h
        obtain ⟨t, ⟨⟨a, ha, rfl⟩, hkind⟩, rfl⟩ := h
        cases a with
        | label target =>
          refine ⟨target, List.mem_append_left _ ?_, rfl⟩
          exact List.mem_filterMap.mpr ⟨_, ha, rfl⟩
        | truth value => cases value <;> simp [Argument.token] at hkind
        | _ => simp [Argument.token] at hkind
      | _ => simp [Line.items, Item.uses] at h
    · obtain ⟨target, htarget, heq⟩ := ih h
      exact ⟨target, List.mem_append_right _ htarget, heq⟩

/-! ## Labels of programs -/

theorem Method.labels_lines (m : Method) : labels m.lines = .method m.name :: labels m.body := by
  have hret : labels [.code .ret []] = [] := rfl
  rw [lines, labels_append, labels_append, hret, List.append_nil]
  rfl

theorem labels_flatMap (ms : List Method) :
    labels (ms.flatMap Method.lines) = ms.flatMap fun m => .method m.name :: labels m.body := by
  rw [labels, List.filterMap_flatMap]
  exact List.flatMap_congr fun m _ => m.labels_lines

/-- The labels of the string data. -/
def dataLabels (literals : List Bytes) (strings : List (Bytes × Bytes)) : List Label :=
  (List.range literals.length).map .literal ++ strings.map fun e => .constant e.1

/-- The parts of the trailer. -/
theorem trailer_eq (literals : List Bytes) (strings : List (Bytes × Bytes)) :
    trailer literals strings = [Line.blank] ++ (literals.zipIdx.map fun e => Line.data (.literal e.2) e.1) ++
      strings.map (fun e => Line.data (.constant e.1) e.2) ++
      [Line.label .finish, .code .jsr [.label (.method (bytes "main"))], .code .halt []] := rfl

theorem labels_trailer (literals : List Bytes) (strings : List (Bytes × Bytes)) :
    labels (trailer literals strings) = dataLabels literals strings ++ [Label.finish] := by
  have hliterals : labels (literals.zipIdx.map fun e => .data (.literal e.2) e.1) =
      (List.range literals.length).map .literal := by
    rw [labels, List.filterMap_map, List.range_eq_range', ← List.zipIdx_map_snd 0 literals, List.map_map,
      ← List.filterMap_eq_map]
    rfl
  have hstrings : labels (strings.map fun e => .data (.constant e.1) e.2) =
      strings.map fun e => .constant e.1 := by
    rw [labels, List.filterMap_map, ← List.filterMap_eq_map]
    rfl
  rw [trailer_eq, labels_append, labels_append, labels_append, hliterals, hstrings, dataLabels]
  rfl

/-- The lines behind the methods: string data, the call of `main` and the last `halt`. -/
inductive Trailing (literals : List Bytes) (strings : List (Bytes × Bytes)) : Line → Prop where
  | blank : Trailing literals strings .blank
  | literal (n : Nat) {raw : Bytes} (hraw : raw ∈ literals) : Trailing literals strings (.data (.literal n) raw)
  | constant {e : Bytes × Bytes} (he : e ∈ strings) : Trailing literals strings (.data (.constant e.1) e.2)
  | finish : Trailing literals strings (.label .finish)
  | main : Trailing literals strings (.code .jsr [.label (.method (bytes "main"))])
  | halt : Trailing literals strings (.code .halt [])

theorem trailing_of_mem {literals : List Bytes} {strings : List (Bytes × Bytes)} {line : Line}
    (h : line ∈ trailer literals strings) : Trailing literals strings line := by
  simp only [trailer, List.cons_append, List.mem_cons, List.mem_append, List.mem_map, Prod.exists,
    List.not_mem_nil, or_false] at h
  rcases h with rfl | (⟨raw, n, hmem, rfl⟩ | ⟨name, raw, hmem, rfl⟩) | rfl | rfl | rfl
  · exact .blank
  · exact .literal n ((List.mem_zipIdx hmem).2.2 ▸ List.getElem_mem _)
  · exact .constant (e := (name, raw)) hmem
  · exact .finish
  · exact .main
  · exact .halt

/-- Where a line of a program comes from. -/
inductive Compiled.Origin (c : Compiled) (ms : List Method) : Line → Prop where
  | comment : Origin c ms (.comment (bytes "generated by the vml compiler"))
  | blank : Origin c ms .blank
  | start : Origin c ms (.label .start)
  | jump : Origin c ms (.code .jmp [.label .finish])
  | method {m : Method} (hm : m ∈ ms) : Origin c ms (.label (.method m.name))
  | body {m : Method} {line : Line} (hm : m ∈ ms) (hline : line ∈ m.body) : Origin c ms line
  | ret : Origin c ms (.code .ret [])
  | trailing {line : Line} (h : Trailing c.literals c.declarations.strings.reverse line) : Origin c ms line

namespace Compiled.Arranged

variable {c : Compiled} {ms : List Method}

theorem origin (h : c.Arranged ms) {line : Line} (hline : line ∈ c.lines) : c.Origin ms line := by
  rw [h.lines, List.mem_append, List.mem_append] at hline
  rcases hline with (hheader | hmethod) | htrailer
  · simp only [header, List.mem_cons, List.not_mem_nil, or_false] at hheader
    rcases hheader with rfl | rfl | rfl | rfl
    · exact .comment
    · exact .blank
    · exact .start
    · exact .jump
  · obtain ⟨m, hm, hline⟩ := List.mem_flatMap.mp hmethod
    rw [Method.lines, List.mem_append, List.mem_append] at hline
    rcases hline with (hhead | hbody) | hret
    · simp only [Method.head, List.mem_cons, List.not_mem_nil, or_false] at hhead
      rcases hhead with rfl | rfl
      · exact .blank
      · exact .method hm
    · exact .body hm hbody
    · obtain rfl := List.mem_singleton.mp hret
      exact .ret
  · exact .trailing (trailing_of_mem htrailer)

theorem labels_eq (h : c.Arranged ms) :
    labels c.lines = .start :: labels (ms.flatMap Method.lines) ++
      dataLabels c.literals c.declarations.strings.reverse ++ [Label.finish] := by
  rw [h.lines, labels_append, labels_append, labels_trailer, ← List.append_assoc]
  rfl

/-- The labels of a body stand inside methods. -/
theorem isLocal_of_mem_body (h : c.Arranged ms) {m : Method} (hm : m ∈ ms) {l : Label} (hl : l ∈ labels m.body) :
    l.isLocal = true := by
  obtain ⟨line, hline, heq⟩ := List.mem_filterMap.mp hl
  have hinner := h.inner m hm line hline
  cases line with
  | label k =>
    cases heq
    exact hinner
  | data k raw => exact hinner.elim
  | _ => cases heq

theorem mem_labels_method (h : c.Arranged ms) {w : Bytes} (hw : w ∈ c.declarations.methods) :
    .method w ∈ labels (ms.flatMap Method.lines) := by
  have hname : w ∈ ms.map Method.name := by
    rw [h.names]
    exact List.mem_reverse.mpr hw
  obtain ⟨m, hm, rfl⟩ := List.mem_map.mp hname
  rw [labels_flatMap]
  exact List.mem_flatMap.mpr ⟨m, hm, List.mem_cons_self⟩

/-- Every line of a program can be written and read back. -/
theorem wellFormed (h : c.Arranged ms) : ∀ line ∈ c.lines, line.WellFormed := by
  have hnamed {l : Label} (hl : l.Proper) : l.Named := Label.named_of_proper hl
  intro line hline
  cases h.origin hline with
  | comment => exact Bytes.isLine_of_isInner (List.all_eq_true.mp rfl)
  | blank => trivial
  | start => exact hnamed trivial
  | jump => exact ⟨by simpa [Argument.WellFormed] using @hnamed .finish trivial, rfl⟩
  | @method m hm =>
    have hname : m.name ∈ c.declarations.methods := by
      rw [← List.mem_reverse, ← h.names]
      exact List.mem_map_of_mem hm
    exact @hnamed (.method m.name) (h.sound.methods _ hname)
  | body hm hbody => exact (h.inner _ hm line hbody).wellFormed h.sound
  | ret => exact ⟨List.forall_mem_nil _, rfl⟩
  | trailing htrailing =>
    cases htrailing with
    | blank => trivial
    | literal n hraw => exact ⟨hnamed trivial, h.raw _ hraw⟩
    | @constant e he =>
      have hstring := h.sound.strings.mp (List.mem_reverse.mp he)
      exact ⟨@hnamed (.constant e.1) (h.sound.constants hstring), h.sound.raw hstring⟩
    | finish => exact hnamed trivial
    | main =>
      refine ⟨?_, rfl⟩
      simpa [Argument.WellFormed] using @hnamed (.method (bytes "main")) (h.sound.methods _ h.main)
    | halt => exact ⟨List.forall_mem_nil _, rfl⟩

/-- Every label that a method body names is defined. -/
theorem mem_labels_of_mem_body (h : c.Arranged ms) {m : Method} (hm : m ∈ ms) {l : Label}
    (hl : l ∈ m.body.flatMap Line.targets) : l ∈ labels c.lines := by
  -- a label inside of a method is defined in the same method
  have hlocal (hl' : l.isLocal = true) : l ∈ labels c.lines := by
    have hmem := h.closed m hm (List.mem_filter.mpr ⟨hl, hl'⟩)
    rw [h.labels_eq, labels_flatMap]
    refine List.mem_append_left _ (List.mem_append_left _ (List.mem_cons_of_mem _ ?_))
    exact List.mem_flatMap.mpr ⟨m, hm, List.mem_cons_of_mem _ hmem⟩
  obtain ⟨line, hline, htarget⟩ := List.mem_flatMap.mp hl
  have hinner := h.inner m hm line hline
  cases line with
  | code op args =>
    obtain ⟨a, ha, heq⟩ := List.mem_filterMap.mp htarget
    have harg := hinner.2.2 a ha
    cases a with
    | label k =>
      obtain rfl : k = l := Option.some.inj heq
      cases k with
      | method w =>
        rw [h.labels_eq]
        exact List.mem_append_left _ (List.mem_append_left _ (List.mem_cons_of_mem _ (h.mem_labels_method harg.2)))
      | literal n =>
        rw [h.labels_eq]
        simp [dataLabels, harg.2]
      | constant w =>
        obtain ⟨e, he, rfl⟩ := List.mem_map.mp harg.2
        rw [h.labels_eq]
        simp only [dataLabels, List.mem_append, List.mem_map, List.mem_reverse]
        exact Or.inl (Or.inr (Or.inr ⟨e, he, rfl⟩))
      | start => exact harg.elim
      | finish => exact harg.elim
      | holds n => exact hlocal rfl
      | join n => exact hlocal rfl
      | loop n => exact hlocal rfl
      | blockEnd n => exact hlocal rfl
    | _ => cases heq
  | _ => cases htarget

/-- Every label that a line of the program names is defined. -/
theorem mem_labels_of_mem_targets (h : c.Arranged ms) {l : Label} (hl : l ∈ c.lines.flatMap Line.targets) :
    l ∈ labels c.lines := by
  obtain ⟨line, hline, htarget⟩ := List.mem_flatMap.mp hl
  cases h.origin hline with
  | comment | blank | start | method | ret => cases htarget
  | jump =>
    obtain rfl := List.mem_singleton.mp htarget
    rw [h.labels_eq]
    simp
  | body hm hbody => exact h.mem_labels_of_mem_body hm (List.mem_flatMap.mpr ⟨line, hbody, htarget⟩)
  | trailing htrailing =>
    cases htrailing with
    | blank | literal | constant | finish | halt => cases htarget
    | main =>
      obtain rfl := List.mem_singleton.mp htarget
      rw [h.labels_eq]
      exact List.mem_append_left _ (List.mem_append_left _ (List.mem_cons_of_mem _ (h.mem_labels_method h.main)))

/-- The labels outside of bodies, in order. -/
theorem filter_labels_flatMap (h : c.Arranged ms) :
    (labels (ms.flatMap Method.lines)).filter (fun l => !l.isLocal) = ms.map fun m => .method m.name := by
  rw [labels_flatMap, List.filter_flatMap, ← List.flatMap_singleton' (ms.map _), List.flatMap_map]
  refine List.flatMap_congr fun m hm => ?_
  have hbody : (labels m.body).filter (fun l => !l.isLocal) = [] := by
    refine List.filter_eq_nil_iff.mpr fun l hl => ?_
    simp [h.isLocal_of_mem_body hm hl]
  rw [List.filter_cons_of_pos rfl, hbody]

theorem isLocal_of_mem_dataLabels {literals : List Bytes} {strings : List (Bytes × Bytes)} {l : Label}
    (h : l ∈ dataLabels literals strings) : l.isLocal = false := by
  simp only [dataLabels, List.mem_append, List.mem_map] at h
  rcases h with ⟨n, -, rfl⟩ | ⟨e, -, rfl⟩ <;> rfl

theorem nodup_dataLabels {literals : List Bytes} {strings : List (Bytes × Bytes)}
    (h : (strings.map (·.1)).Nodup) : (dataLabels literals strings).Nodup := by
  refine List.nodup_append.mpr ⟨?_, ?_, ?_⟩
  · exact List.nodup_range.map fun m n heq => Label.literal.inj heq
  · have hmap := h.map fun m n heq => Label.constant.inj heq
    rwa [List.map_map] at hmap
  · rintro l hl k hk rfl
    obtain ⟨n, -, rfl⟩ := List.mem_map.mp hl
    obtain ⟨e, -, heq⟩ := List.mem_map.mp hk
    cases heq

/-- The labels inside of bodies. -/
theorem filter_isLocal_labels (h : c.Arranged ms) :
    (labels c.lines).filter Label.isLocal = Generator.localLabels (ms.flatMap Method.lines) := by
  have hnone : (dataLabels c.literals c.declarations.strings.reverse).filter Label.isLocal = [] :=
    List.filter_eq_nil_iff.mpr fun l hl => by simp [isLocal_of_mem_dataLabels hl]
  rw [h.labels_eq, List.filter_append, List.filter_append, hnone, List.filter_cons_of_neg (by decide),
    List.append_nil]
  exact List.append_nil _

/-- The labels outside of bodies. -/
theorem filter_not_isLocal_labels (h : c.Arranged ms) :
    (labels c.lines).filter (fun l => !l.isLocal) = .start ::
      (ms.map (fun m => Label.method m.name) ++ dataLabels c.literals c.declarations.strings.reverse ++
        [Label.finish]) := by
  have hall : (dataLabels c.literals c.declarations.strings.reverse).filter (fun l => !l.isLocal) =
      dataLabels c.literals c.declarations.strings.reverse :=
    List.filter_eq_self.mpr fun l hl => by simp [isLocal_of_mem_dataLabels hl]
  rw [h.labels_eq, List.filter_append, List.filter_append, hall, List.filter_cons_of_pos (by decide),
    h.filter_labels_flatMap]
  rfl

theorem nodup_labels_outside (h : c.Arranged ms) : ((labels c.lines).filter (fun l => !l.isLocal)).Nodup := by
  have hdata : (dataLabels c.literals c.declarations.strings.reverse).Nodup := by
    refine nodup_dataLabels ?_
    rw [List.map_reverse]
    exact List.nodup_reverse.mpr h.sound.nodup_strings
  have hmethods : (ms.map fun m => Label.method m.name).Nodup := by
    have hnames : (ms.map Method.name).Nodup := by
      rw [h.names]
      exact List.nodup_reverse.mpr h.sound.nodup_methods
    have hmap := hnames.map fun m n heq => Label.method.inj heq
    rwa [List.map_map] at hmap
  have hmember {l : Label} (hl : l ∈ dataLabels c.literals c.declarations.strings.reverse) :
      l ≠ .start ∧ l ≠ .finish ∧ ∀ w, l ≠ .method w := by
    simp only [dataLabels, List.mem_append, List.mem_map] at hl
    rcases hl with ⟨n, -, rfl⟩ | ⟨e, -, rfl⟩ <;> exact ⟨nofun, nofun, nofun⟩
  rw [h.filter_not_isLocal_labels]
  -- one kind of label at a time: each kind is apart from those after it
  refine List.nodup_cons.mpr
    ⟨?_, List.nodup_append.mpr ⟨List.nodup_append.mpr ⟨hmethods, hdata, ?_⟩, ?_, ?_⟩⟩
  · intro hmem
    simp only [List.mem_append, List.mem_map, List.mem_singleton] at hmem
    rcases hmem with (⟨m, -, heq⟩ | hmem) | heq
    · cases heq
    · exact (hmember hmem).1 rfl
    · cases heq
  · rintro l hl k hk rfl
    obtain ⟨m, -, rfl⟩ := List.mem_map.mp hl
    exact (hmember hk).2.2 m.name rfl
  · exact List.nodup_singleton _
  · rintro l hl k hk rfl
    obtain rfl := List.mem_singleton.mp hk
    rcases List.mem_append.mp hl with hl | hl
    · obtain ⟨m, -, heq⟩ := List.mem_map.mp hl
      cases heq
    · exact (hmember hl).2.1 rfl

/-- No label is defined twice. -/
theorem nodup_labels (h : c.Arranged ms) : (labels c.lines).Nodup := by
  rw [← (List.filter_append_perm Label.isLocal (labels c.lines)).nodup_iff]
  refine List.nodup_append.mpr ⟨?_, h.nodup_labels_outside, ?_⟩
  · rw [h.filter_isLocal_labels]
    exact h.nodup
  · rintro l hl k hk rfl
    have hlocal := (List.mem_filter.mp hl).2
    have hother := (List.mem_filter.mp hk).2
    simp [hlocal] at hother

/-- The labels of a program can be told apart by their names. -/
theorem proper_of_mem_labels (h : c.Arranged ms) {l : Label} (hl : l ∈ labels c.lines) : l.Proper := by
  rw [h.labels_eq, labels_flatMap] at hl
  simp only [List.cons_append, List.mem_cons, List.mem_append, List.mem_flatMap, dataLabels, List.mem_map,
    List.not_mem_nil, or_false] at hl
  rcases hl with rfl | (⟨m, hm, rfl | hl⟩ | ⟨n, -, rfl⟩ | ⟨e, he, rfl⟩) | rfl
  · trivial
  · refine h.sound.methods m.name ?_
    rw [← List.mem_reverse, ← h.names]
    exact List.mem_map_of_mem hm
  · have hlocal := h.isLocal_of_mem_body hm hl
    cases l <;> trivial
  · trivial
  · exact h.sound.constants (h.sound.strings.mp (List.mem_reverse.mp he))
  · trivial

theorem nodup_names (h : c.Arranged ms) : ((labels c.lines).map Label.name).Nodup := by
  refine h.nodup_labels.map_on fun l hl k hk heq => ?_
  exact Label.name_injective (h.proper_of_mem_labels hl) (h.proper_of_mem_labels hk) heq

/-- A program whose lines all fit assembles to what its items say. -/
theorem parse_fits (h : c.Arranged ms) (hf : ∀ l ∈ c.lines, l.fits = true) {a : Assembler}
    (ha : a.library? = none) : ∃ p, (a.parse c.text).1 = .ok p ∧ p.Denotes (itemsFrom 1 c.lines) := by
  have hcomplete := complete_itemsFrom h.wellFormed hf 1
  have hnames : (Assembly.definitions 0 (itemsFrom 1 c.lines)).map (·.1) = (labels c.lines).map Label.name :=
    names_itemsFrom 0 1 c.lines
  have hduplicate : Assembly.duplicate? [] (itemsFrom 1 c.lines) = none :=
    @Assembly.duplicate?_eq_none _ [] 0 (by rw [hnames]; exact h.nodup_names) fun _ _ => List.not_mem_nil
  have hundefined : Assembly.undefined? (itemsFrom 1 c.lines) = none := by
    refine List.find?_eq_none.mpr fun u hu => ?_
    obtain ⟨l, hl, heq⟩ := uses_itemsFrom hu
    have hmem : u.1 ∈ Assembly.names (itemsFrom 1 c.lines) := by
      rw [Assembly.names, hnames, heq]
      exact List.mem_map_of_mem (h.mem_labels_of_mem_targets hl)
    simp [hmem]
  have hassemble := Assembly.assemble_items hcomplete
  rw [hduplicate, hundefined] at hassemble
  rw [text, parse_render_fits h.wellFormed hf ha]
  exact hassemble

/-- A program of which some line does not fit is refused for a number. -/
theorem parse_unfit (h : c.Arranged ms) (hf : ¬∀ l ∈ c.lines, l.fits = true) {a : Assembler}
    (ha : a.library? = none) : ∃ n line, (a.parse c.text).1 = .error (.line n line .numberInvalid) := by
  push Not at hf
  obtain ⟨bad, hbad, hunfit⟩ := hf
  exact parse_render_unfit h.wellFormed hbad (by simpa using hunfit) ha

/-- What is assembled fits, and is what the items of the lines say. -/
theorem denotes_of_parse (h : c.Arranged ms) {a : Assembler} (ha : a.library? = none) {p : Assembly.Program}
    (hp : (a.parse c.text).1 = .ok p) : (∀ l ∈ c.lines, l.fits = true) ∧ p.Denotes (itemsFrom 1 c.lines) := by
  by_cases hf : ∀ l ∈ c.lines, l.fits = true
  · obtain ⟨p', hp', hdenotes⟩ := h.parse_fits hf ha
    rw [hp] at hp'
    cases hp'
    exact ⟨hf, hdenotes⟩
  · obtain ⟨n, line, herror⟩ := h.parse_unfit hf ha
    rw [hp] at herror
    cases herror

end Compiled.Arranged

/-! ## Compiled texts -/

theorem eq_ok_of_toOption {ε α : Type} {e : Except ε α} {a : α} (h : e.toOption = some a) : e = .ok a := by
  cases e with
  | error _ => cases h
  | ok b => exact congrArg Except.ok (Option.some.inj h)

/-- The text that is lexed: the source with its include lines replaced, if there is a library for
them. -/
def Expands (library? : Option Library) (text source : Bytes) : Prop :=
  match library? with
  | none => source = text
  | some library => library.expand text = .ok source

theorem compile_eq {library? : Option Library} {text source : Bytes} {ts : List Token}
    (hexpands : Expands library? text source) (hlex : lex source = .ok ts) : compile library? text = generate ts := by
  unfold compile
  cases library? with
  | none =>
    obtain rfl : source = text := hexpands
    simp only [hlex]
  | some library => simp only [show library.expand text = .ok source from hexpands, hlex]

theorem of_compile {library? : Option Library} {text : Bytes} {c : Compiled}
    (h : compile library? text = .ok c) :
    ∃ source ts, Expands library? text source ∧ lex source = .ok ts ∧ generate ts = .ok c := by
  unfold compile at h
  cases library? with
  | none =>
    dsimp only at h
    split at h
    · cases h
    next ts hlex => exact ⟨text, ts, rfl, hlex, h⟩
  | some library =>
    cases hexpand : library.expand text with
    | error e =>
      simp only [hexpand] at h
      cases h
    | ok source =>
      simp only [hexpand] at h
      split at h
      · cases h
      next ts hlex => exact ⟨source, ts, hexpand, hlex, h⟩

/-- The lines of a program fit if and only if no word of a method body names memory above 32 bits. -/
theorem fits_of_generate {ts : List Token} {c : Compiled} (hts : ∀ t ∈ ts, t.Sound)
    (h : generate ts = .ok c) :
    (∀ l ∈ c.lines, l.fits = true) ↔ ∀ t ∈ bodyTokens ts, t.Addressed c.declarations := by
  obtain ⟨g, hd, hw, -, -, hlines⟩ := writes_of_generate hts h
  have hfits := Generator.fits_of_writes (sound_of_declare hts hd).1 hw
  have hheader : ∀ l ∈ header, l.fits = true := by decide
  have htrailer : ∀ l ∈ trailer c.literals c.declarations.strings.reverse, l.fits = true := by
    intro l hl
    cases trailing_of_mem hl with
    | _ => rfl
  calc (∀ l ∈ c.lines, l.fits = true)
      ↔ ∀ l ∈ g.lines, l.fits = true := by
        rw [hlines, List.forall_mem_append, List.forall_mem_append]
        simp only [List.mem_reverse]
        exact ⟨fun hall => hall.1.2, fun hall => ⟨⟨hheader, hall⟩, htrailer⟩⟩
    _ ↔ ∀ t ∈ bodyTokens ts, t.Addressed c.declarations := by
        rw [hfits]
        exact ⟨fun hall => hall.2, fun hall => ⟨nofun, hall⟩⟩

/-- Compiled text assembles if and only if every memory constant that a method body names has an address
below `2 ^ 32`, and is refused for a number otherwise. All its labels are defined, and none of them
twice. -/
theorem compile_assembles {library? : Option Library} {text : Bytes} {c : Compiled}
    (h : compile library? text = .ok c) {a : Assembler} (ha : a.library? = none) :
    ∃ source ts, Expands library? text source ∧ lex source = .ok ts ∧ declare ts = .ok c.declarations ∧
      ((∃ p, (a.parse c.text).1 = .ok p) ↔
        ∀ t ∈ bodyTokens ts, t.kind = .word → ∀ address size,
          c.declarations.constants[t.text]? = some (.memory address size) → address.toNat < UInt32.size) ∧
      (∀ e, (a.parse c.text).1 = .error e → ∃ n line, e = .line n line .numberInvalid) ∧
      ((labels c.lines).map Label.name).Nodup ∧
      ∀ l ∈ c.lines.flatMap Line.targets, l.name ∈ (labels c.lines).map Label.name := by
  obtain ⟨source, ts, hexpands, hlex, hgenerate⟩ := of_compile h
  have hsound := sound_of_lex hlex
  obtain ⟨ms, harranged⟩ := Compiled.arranged_of_generate hsound hgenerate
  obtain ⟨g, hdeclare, -⟩ := writes_of_generate hsound hgenerate
  have hfits := fits_of_generate hsound hgenerate
  refine ⟨source, ts, hexpands, hlex, hdeclare, ⟨fun ⟨p, hp⟩ => ?_, fun haddressed => ?_⟩, fun e he => ?_,
    harranged.nodup_names, fun l hl => List.mem_map_of_mem (harranged.mem_labels_of_mem_targets hl)⟩
  · exact hfits.mp (harranged.denotes_of_parse ha hp).1
  · obtain ⟨p, hp, -⟩ := harranged.parse_fits (hfits.mpr haddressed) ha
    exact ⟨p, hp⟩
  · by_cases hall : ∀ l ∈ c.lines, l.fits = true
    · obtain ⟨p, hp, -⟩ := harranged.parse_fits hall ha
      rw [hp] at he
      cases he
    · obtain ⟨n, line, herror⟩ := harranged.parse_unfit hall ha
      rw [herror] at he
      exact ⟨n, line, (Except.error.inj he).symm⟩

/-- Memory behind four gigabytes cannot be named. -/
theorem compile_assembles_far_memory :
    ∃ c, compile none (bytes "memory 4294967296 const large\nmemory 1 const far\nmethod main \x7b far drop \x7d") =
        .ok c ∧
      ∃ n line, (({} : Assembler).parse c.text).1 = .error (.line n line .numberInvalid) := by
  have hrefused : (compile none
      (bytes "memory 4294967296 const large\nmemory 1 const far\nmethod main \x7b far drop \x7d")).toOption.map
        (fun c => (({} : Assembler).parse c.text).1.toOption.isSome) = some false := by
    decide +kernel
  obtain ⟨c, hsome, hparse⟩ := Option.map_eq_some_iff.mp hrefused
  have hcompile := eq_ok_of_toOption hsome
  refine ⟨c, hcompile, ?_⟩
  obtain ⟨source, ts, -, -, -, -, herror, -⟩ :=
    compile_assembles hcompile (show ({} : Assembler).library? = none from rfl)
  cases hresult : (({} : Assembler).parse c.text).1 with
  | ok p => simp [hresult, Except.toOption] at hparse
  | error e =>
    obtain ⟨n, line, rfl⟩ := herror e hresult
    exact ⟨n, line, rfl⟩

end Source

end WordMachine
