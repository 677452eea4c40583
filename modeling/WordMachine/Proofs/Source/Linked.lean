import Mathlib
import WordMachine.Proofs.Machine.Decode
import WordMachine.Proofs.Source.Assembles

/-!
# `Proofs.Source.Linked` — a listing in an image

Once a listing is assembled, each of its lines has a place: the number of bytes of the lines before it.
Instructions are decoded at their places, labels are places, and string data stands at its label.

Contents:
* `span`: the number of bytes of lines;
* `instruction`: the instruction of a line under given places of labels;
* `Linked`: image and places agree with a listing; `Linked.tick_eq`: a machine performs the line it is at;
* `Compiled.Arranged.linked`: assembling a compiled text links its lines.
-/

namespace WordMachine.Source

open Assembly (Item)

/-! ## Places -/

/-- The number of bytes a line stands for. -/
def Line.size : Line → Nat
  | .code op _ => (Opcode.of op).width
  | .data _ raw => ((Escape.decode? raw).getD []).length + 1
  | _ => 0

/-- The number of bytes lines stand for. -/
def span (ls : List Line) : Nat := (ls.map Line.size).sum

@[simp] theorem span_nil : span [] = 0 := rfl

@[simp] theorem span_cons (l : Line) (ls : List Line) : span (l :: ls) = l.size + span ls := rfl

@[simp] theorem span_append (xs ys : List Line) : span (xs ++ ys) = span xs + span ys := by
  simp [span]

theorem extent_itemsFrom (number : Nat) (ls : List Line) : Assembly.extent (itemsFrom number ls) = span ls := by
  induction ls generalizing number with
  | nil => rfl
  | cons l rest ih =>
    rw [itemsFrom, Assembly.extent_append, ih, span_cons]
    cases l with
    | data l raw => simp [Line.items, Assembly.extent, Item.size, Line.size]
    | _ => rfl

theorem itemsFrom_append (number : Nat) (xs ys : List Line) :
    itemsFrom number (xs ++ ys) = itemsFrom number xs ++ itemsFrom (number + xs.length) ys := by
  induction xs generalizing number with
  | nil => rfl
  | cons l rest ih =>
    simp only [List.cons_append, itemsFrom, ih, List.append_assoc, List.length_cons]
    rw [Nat.add_assoc, Nat.add_comm 1]

/-! ## Instructions -/

/-- The number of a register argument. -/
def Argument.register? : Argument → Option Nat
  | .register n => some n
  | _ => none

/-- The value of any other argument, given the places of labels. -/
def Argument.value? (place : Label → UInt64) : Argument → Option UInt64
  | .register _ => none
  | .word value | .short value => some value
  | .truth value => some (if value then 1 else 0)
  | .label l => some (place l)

/-- The instruction of an operation with arguments. -/
def instruction (place : Label → UInt64) (op : Operation) (args : List Argument) : Instruction :=
  ⟨.of op, ((args.filterMap Argument.register?)[0]?.getD 0 : Nat),
    ((args.filterMap Argument.register?)[1]?.getD 0 : Nat),
    (args.filterMap (Argument.value? place))[0]?.getD 0⟩

/-- The fields of written arguments are the registers and values of the arguments. -/
theorem fields_arguments {offset : Bytes → Option UInt32} {args : List Argument} {number : Int}
    {f : List Register × List UInt64} (hw : ∀ a ∈ args, a.WellFormed) (hf : ∀ a ∈ args, a.fits = true)
    (h : Item.fields offset (args.map (Argument.token number)) = some f) :
    f.1.map Fin.val = args.filterMap Argument.register? ∧
      f.2 = args.filterMap (Argument.value? fun l => ((offset l.name).getD 0).toUInt64) := by
  induction args generalizing f with
  | nil =>
    cases h
    exact ⟨rfl, rfl⟩
  | cons a args ih =>
    rw [List.map_cons, Item.fields] at h
    obtain ⟨g, hg, h⟩ := Option.bind_eq_some_iff.mp h
    obtain ⟨hregisters, hvalues⟩ := ih (fun b hb => hw b (List.mem_cons_of_mem a hb))
      (fun b hb => hf b (List.mem_cons_of_mem a hb)) hg
    -- an argument that is no register and no label stands for its own value
    have hvalued {v : UInt64} (hv : (a.token number).value = .ok v) (hk : (a.token number).kind ≠ .register)
        (hl : (a.token number).kind ≠ .labelUse) : f = (g.1, v :: g.2) := by
      rw [if_neg hk, Item.immediate?, if_neg hl, hv] at h
      exact (Option.some.inj h).symm
    cases a with
    | register n =>
      have hn : n < 16 := hw _ List.mem_cons_self
      have hreg := Assembly.register_decimal hn number
      rw [if_pos (show ((Argument.register n).token number).kind = .register from rfl)] at h
      obtain ⟨r, hr, rfl⟩ := Option.map_eq_some_iff.mp h
      obtain rfl : ⟨n, hn⟩ = r := by
        rw [show (Argument.register n).token number = ⟨.register, Numeral.decimal n, number⟩ from rfl, hreg] at hr
        exact Option.some.inj hr
      exact ⟨congrArg (n :: ·) hregisters, hvalues⟩
    | word value =>
      rw [hvalued (Argument.value_word value number) (by rintro ⟨⟩) (by rintro ⟨⟩)]
      exact ⟨hregisters, congrArg (value :: ·) hvalues⟩
    | truth value =>
      rw [hvalued (Argument.value_truth value number) (by cases value <;> rintro ⟨⟩)
        (by cases value <;> rintro ⟨⟩)]
      exact ⟨hregisters, congrArg ((if value then 1 else 0) :: ·) hvalues⟩
    | short value =>
      have hlt : value.toNat < UInt32.size := by simpa [Argument.fits] using hf _ List.mem_cons_self
      have hv := Argument.value_short value number
      rw [if_pos hlt] at hv
      rw [hvalued hv (by rintro ⟨⟩) (by rintro ⟨⟩)]
      exact ⟨hregisters, congrArg (value :: ·) hvalues⟩
    | label l =>
      rw [if_neg (by rintro ⟨⟩), Item.immediate?,
        if_pos (show ((Argument.label l).token number).kind = .labelUse from rfl)] at h
      obtain ⟨v, hv, rfl⟩ := Option.map_eq_some_iff.mp h
      obtain ⟨o, ho, rfl⟩ := Option.map_eq_some_iff.mp hv
      have hplace : ((offset l.name).getD 0).toUInt64 = o.toUInt64 := by
        rw [show offset l.name = some o from ho]
        rfl
      refine ⟨hregisters, ?_⟩
      show o.toUInt64 :: g.2 = ((offset l.name).getD 0).toUInt64 :: _
      rw [hplace, hvalues]

theorem instruction?_arguments {offset : Bytes → Option UInt32} {op : Operation} {args : List Argument}
    {number : Int} {i : Instruction} (hw : ∀ a ∈ args, a.WellFormed) (hf : ∀ a ∈ args, a.fits = true)
    (h : Item.instruction? offset op (args.map (Argument.token number)) = some i) :
    i = instruction (fun l => ((offset l.name).getD 0).toUInt64) op args := by
  obtain ⟨f, hfields, rfl⟩ := Option.map_eq_some_iff.mp h
  obtain ⟨hregisters, hvalues⟩ := fields_arguments hw hf hfields
  have hreg (k : Nat) : ((f.1[k]?.getD 0).val : Nat) = (args.filterMap Argument.register?)[k]?.getD 0 := by
    rw [← hregisters, List.getElem?_map]
    cases f.1[k]? <;> rfl
  rw [Register.ofInt_zero, instruction, hreg 0, hreg 1, hvalues]

/-! ## Linked listings -/

/-- An image holds a listing: instructions are decoded at their places, labels are places, and data
stands at its place with a zero byte after it. -/
structure Linked (image : Image) (place : Label → UInt64) (ls : List Line) : Prop where
  size : image.size = span ls
  small : image.size < UInt32.size
  code {before after : List Line} {op : Operation} {args : List Argument}
    (h : ls = before ++ .code op args :: after) :
    image.decode (span before) = .ok (instruction place op args)
  label {before after : List Line} {line : Line} {l : Label} (h : ls = before ++ line :: after)
    (hl : line.label? = some l) : (place l).toNat = span before
  data {before after : List Line} {l : Label} {raw : Bytes} (h : ls = before ++ .data l raw :: after) :
    ∃ text rest, Escape.decode? raw = some text ∧ image.toList.drop (span before) = text ++ 0 :: rest

/-! ## Execution -/

/-- The register in a slot of an instruction. -/
def registerAt (args : List Argument) (k : Nat) : Register :=
  Register.ofInt (((args.filterMap Argument.register?)[k]?.getD 0 : Nat) : Int)

/-- The immediate of an instruction. -/
def immediate (place : Label → UInt64) (args : List Argument) : UInt64 :=
  (args.filterMap (Argument.value? place))[0]?.getD 0

namespace Linked

variable {image : Image} {place : Label → UInt64} {ls before after : List Line} {op : Operation}
  {args : List Argument}

theorem span_lt (hl : Linked image place ls) (h : ls = before ++ .code op args :: after) :
    span before + (Opcode.of op).width ≤ image.size := by
  rw [hl.size, h, span_append, span_cons]
  simp only [Line.size]
  omega

/-- The place of a label, as a place to go on at. -/
theorem toInt_label {line : Line} {l : Label} (hl : Linked image place ls) (h : ls = before ++ line :: after)
    (hlabel : line.label? = some l) : (place l).toInt64.toInt = span before := by
  have hplace := hl.label h hlabel
  have hle : span before ≤ image.size := by
    rw [hl.size, h, span_append]
    exact Nat.le_add_right _ _
  rw [Machine.toInt_place (by rw [hplace]; exact Nat.lt_of_le_of_lt hle hl.small), hplace]

/-- The place after an instruction, as a place to return to. -/
theorem toNat_return (hl : Linked image place ls) (h : ls = before ++ .code op args :: after) :
    (UInt32.ofInt (span (before ++ [Line.code op args]) : Nat)).toNat = span (before ++ [Line.code op args]) := by
  refine Machine.toNat_ofInt (Nat.lt_of_le_of_lt ?_ hl.small)
  rw [span_append]
  exact hl.span_lt h

/-- A machine at a line of code performs it. -/
theorem tick_eq (hl : Linked image place ls) (h : ls = before ++ .code op args :: after) {s : Machine}
    (himage : s.image = image) (hhalt : Flag.isSet s.flags Flag.halt = false) (hpc : s.pc = span before) :
    s.tick = match s.perform op (registerAt args 0) (registerAt args 1) (immediate place args)
        (span (before ++ [Line.code op args])) with
      | (s', none) => ({ s' with ticks := s'.ticks + 1 }, .ran)
      | (s', some fault) => (s', .trapped ⟨s.pc, .of op, fault⟩) := by
  have hle := hl.span_lt h
  have hsmall := hl.small
  have hwidth : 2 ≤ (Opcode.of op).width := by
    rw [Opcode.width]
    omega
  have hnot : s.isHalted = false := by
    rw [Machine.isHalted, hhalt, himage, hpc]
    simp only [Bool.false_or, decide_eq_false_iff_not, not_le, Nat.cast_lt]
    omega
  have hfetch : s.fetch = .ok (instruction place op args) := by
    rw [Machine.fetch, himage, hpc]
    exact hl.code h
  have hnext : Machine.placeAfter s.pc (Opcode.of op).width = span (before ++ [Line.code op args]) := by
    rw [hpc, Machine.placeAfter_eq (by omega), span_append]
    rfl
  have hexecute : s.execute (instruction place op args) =
      s.perform op (registerAt args 0) (registerAt args 1) (immediate place args)
        (span (before ++ [Line.code op args])) := by
    rw [Machine.execute, show (instruction place op args).opcode = .of op from rfl, Opcode.operation?_of, hnext]
    rfl
  rw [Machine.tick, hnot, hfetch]
  simp only [Bool.false_eq_true, if_false, hexecute]
  rfl

end Linked

/-- The place that an assembled program gives to a label. -/
def place (p : Assembly.Program) (l : Label) : UInt64 := ((p.labels[l.name]?).getD 0).toUInt64

namespace Compiled.Arranged

variable {c : Compiled} {ms : List Method} {p : Assembly.Program}

/-- Assembled labels are places. -/
theorem place_eq (hp : p.Denotes (itemsFrom 1 c.lines)) (hsmall : p.image.size < UInt32.size)
    {before after : List Line} {line : Line} {l : Label} (h : c.lines = before ++ line :: after)
    (hl : line.label? = some l) : (place p l).toNat = span before := by
  have hmem : (l.name, span before) ∈ Assembly.definitions 0 (itemsFrom 1 c.lines) := by
    rw [h, itemsFrom_append, Assembly.definitions_append, extent_itemsFrom, Nat.zero_add]
    refine List.mem_append_right _ ?_
    cases line with
    | label k =>
      cases hl
      exact List.mem_cons_self
    | data k raw =>
      cases hl
      exact List.mem_cons_self
    | _ => cases hl
  have hlt : span before < UInt32.size := by
    have hspan := hp.size
    rw [extent_itemsFrom, h, span_append] at hspan
    omega
  have hlabel := (hp.labels l.name (span before).toUInt32).mpr ⟨_, hmem, rfl⟩
  rw [place, hlabel, Option.getD_some, UInt32.toNat_toUInt64, Nat.toUInt32_eq, UInt32.toNat_ofNat_of_lt' hlt]

theorem decode_line (harranged : c.Arranged ms) (hf : ∀ l ∈ c.lines, l.fits = true)
    (hp : p.Denotes (itemsFrom 1 c.lines)) {before after : List Line} {op : Operation} {args : List Argument}
    (h : c.lines = before ++ .code op args :: after) :
    p.image.decode (span before) = .ok (instruction (place p) op args) := by
  have hmem : Line.code op args ∈ c.lines := by simp [h]
  have hw := harranged.wellFormed _ hmem
  have hfits := hf _ hmem
  have hcomplete : (Item.instruction op (args.map (Argument.token (1 + before.length : Nat)))
      (1 + before.length : Nat)).Complete := Line.complete_items hw hfits (1 + before.length) _ List.mem_cons_self
  have hitems : itemsFrom 1 c.lines = itemsFrom 1 before ++ .instruction op
      (args.map (Argument.token (1 + before.length : Nat))) (1 + before.length : Nat) ::
        itemsFrom (1 + before.length + 1) after := by
    rw [h, itemsFrom_append]
    rfl
  rw [hitems] at hp
  obtain ⟨i, hi, hdecode⟩ := Item.decode_item hcomplete hp
  rw [extent_itemsFrom] at hdecode
  rw [hdecode, instruction?_arguments hw.1 (List.all_eq_true.mp hfits) hi]
  rfl

theorem data_line (harranged : c.Arranged ms) (hp : p.Denotes (itemsFrom 1 c.lines))
    {before after : List Line} {l : Label} {raw : Bytes} (h : c.lines = before ++ .data l raw :: after) :
    ∃ text rest, Escape.decode? raw = some text ∧ p.image.toList.drop (span before) = text ++ 0 :: rest := by
  have hw := harranged.wellFormed (.data l raw) (by simp [h])
  obtain ⟨text, htext⟩ := Option.isSome_iff_exists.mp hw.2.decoded
  have himage := hp.image
  rw [h, itemsFrom_append, Assembly.bytes?_append] at himage
  obtain ⟨xs, hxs, himage⟩ := Option.bind_eq_some_iff.mp himage
  obtain ⟨rest, hrest, himage⟩ := Option.map_eq_some_iff.mp himage
  have hlength : xs.length = span before := by
    rw [Assembly.length_of_bytes? hxs, extent_itemsFrom]
  have hstring : ∃ ys, rest = text ++ 0 :: ys := by
    simp only [itemsFrom, Line.items, List.cons_append, List.nil_append, Assembly.bytes?, Item.bytes?, htext,
      Option.map_some, Option.bind_some] at hrest
    cases hys : Assembly.bytes? (fun name => p.labels[name]?) (itemsFrom (1 + before.length + 1) after) with
    | none => simp [hys] at hrest
    | some ys => exact ⟨ys, by simpa [hys] using hrest.symm⟩
  obtain ⟨ys, rfl⟩ := hstring
  exact ⟨text, ys, htext, by rw [← himage, ← hlength, List.drop_left]⟩

/-- Assembling a compiled text links its lines. -/
theorem linked (h : c.Arranged ms) {a : Assembly.Assembler} (ha : a.library? = none)
    (hp : (a.parse c.text).1 = .ok p) (hsmall : p.image.size < UInt32.size) :
    Linked p.image (place p) c.lines := by
  obtain ⟨hf, hdenotes⟩ := h.denotes_of_parse ha hp
  exact {
    size := by rw [hdenotes.size, extent_itemsFrom]
    small := hsmall
    code := h.decode_line hf hdenotes
    label := place_eq hdenotes hsmall
    data := h.data_line hdenotes }

/-- Every line of code has an entry in the line table, at its place. -/
theorem mem_lines_of_code (hp : p.Denotes (itemsFrom 1 c.lines)) {before after : List Line} {op : Operation}
    {args : List Argument} (h : c.lines = before ++ .code op args :: after) :
    ∃ e ∈ p.lines, e.offset = span before := by
  rw [hp.lines, h, itemsFrom_append, Assembly.entries_append, extent_itemsFrom, Nat.zero_add]
  exact ⟨_, List.mem_append_right _ List.mem_cons_self, rfl⟩

end Compiled.Arranged

end WordMachine.Source
