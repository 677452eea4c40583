import Mathlib
import WordMachine.CommandLine.Job
import WordMachine.Proofs.Printing

/-!
# `Proofs.Machine.Sweep` — images as instructions and single bytes

Two sweeps go over an image from its start. One stops at the first place that does not decode; the other lists the
byte there and goes on behind it. Entries that follow one another from the start of an image to its end, each
saying what stands at its place, can be chosen in one way only, so it does not matter which sweep found them.

Contents:
* `Image.Entry.place`, `width`, `Reads`, `shifted`, and `Image.Spans`: entries that follow one another;
* `Image.rest`, `Image.end_of_decode`, `Image.decode_rest`: what is decoded depends on the bytes that follow only;
* `Image.Spans.eq_of_reads`: there is one way to list an image;
* `Image.spans_listingFrom`, `Image.spans_disassembleFrom`, `Image.listing_of_undecoded`: what the sweeps find;
* `Image.Entry.isLine_entryLine`, `Image.lines_disassembly`: a listing is printed entry by entry, one to a line;
* `Image.listing_extends_disassemble`.
-/

namespace WordMachine

namespace Image

/-! ## Entries -/

namespace Entry

/-- Where an entry starts. -/
def place : Entry → Nat
  | .code pc _ => pc
  | .data pc _ => pc

/-- How many bytes an entry covers: those of its instruction, or the one that starts none. -/
def width : Entry → Nat
  | .code _ i => i.opcode.width
  | .data _ _ => 1

/-- An entry says what stands at its place: the instruction that is decoded there or, if none is, the byte. -/
def Reads (image : Image) : Entry → Prop
  | .code pc i => image.decode pc = .ok i
  | .data pc byte => image[pc]? = some byte ∧ ∃ fault, image.decode pc = .error fault

/-- The entry a number of bytes further on. -/
def shifted (offset : Nat) : Entry → Entry
  | .code pc i => .code (pc + offset) i
  | .data pc byte => .data (pc + offset) byte

/-- The entry of a disassembled instruction. -/
def ofPair (e : Nat × Instruction) : Entry := .code e.1 e.2

end Entry

/-- Entries follow one another from a place to another one, without a gap and without an overlap. -/
def Spans : Nat → List Entry → Nat → Prop
  | start, [], stop => start = stop
  | start, e :: es, stop => e.place = start ∧ Spans (start + e.width) es stop

variable {image : Image} {start middle stop : Nat} {es es' : List Entry}

theorem Spans.append (h : Spans start es middle) (h' : Spans middle es' stop) : Spans start (es ++ es') stop := by
  induction es generalizing start with
  | nil =>
    obtain rfl : start = middle := h
    exact h'
  | cons e es ih =>
    obtain ⟨hplace, hrest⟩ := h
    exact ⟨hplace, ih hrest⟩

theorem Spans.shifted (h : Spans start es stop) (offset : Nat) :
    Spans (start + offset) (es.map (Entry.shifted offset)) (stop + offset) := by
  induction es generalizing start with
  | nil =>
    obtain rfl : start = stop := h
    rfl
  | cons e es ih =>
    obtain ⟨hplace, hrest⟩ := h
    have hplace' : (e.shifted offset).place = e.place + offset := by cases e <;> rfl
    have hwidth : (e.shifted offset).width = e.width := by cases e <;> rfl
    constructor
    · rw [hplace', hplace]
    · rw [hwidth, Nat.add_right_comm]
      exact ih hrest

/-! ## Decoding -/

/-- A decoded instruction takes two bytes or more, and ends within the image. -/
theorem end_of_decode {pc : Nat} {i : Instruction} (h : image.decode pc = .ok i) :
    2 ≤ i.opcode.width ∧ pc + i.opcode.width ≤ image.size := by
  obtain ⟨before, op, desc, operand, after, himage, hpc, hoperand, rfl⟩ := of_decode h
  obtain rfl : pc = before.length := by exact_mod_cast hpc
  have hsize : image.size = (before ++ (op.code :: desc :: operand) ++ after).length := by
    rw [← himage, Array.length_toList]
  rw [width_ofBytes hoperand, hsize]
  simp only [List.length_append, List.length_cons]
  omega

/-- The bytes from a place on. -/
def rest (image : Image) (offset : Nat) : Image := image.extract offset

theorem toList_rest (image : Image) (offset : Nat) : (image.rest offset).toList = image.toList.drop offset := by
  rw [rest, Array.toList_extract, List.extract_eq_take_drop, List.take_of_length_le]
  rw [List.length_drop, Array.length_toList]

theorem size_rest (image : Image) (offset : Nat) : (image.rest offset).size = image.size - offset := by
  rw [← Array.length_toList, toList_rest, List.length_drop, Array.length_toList]

theorem getElem?_rest (image : Image) (offset pc : Nat) : (image.rest offset)[pc]? = image[pc + offset]? := by
  rw [← Array.getElem?_toList, toList_rest, List.getElem?_drop, Array.getElem?_toList, Nat.add_comm]

/-- An instruction decodes from the bytes behind a place as it does in the whole image. -/
theorem decode_rest {offset : Nat} (hoffset : offset ≤ image.size) (pc : Nat) (i : Instruction) :
    (image.rest offset).decode pc = .ok i ↔ image.decode (pc + offset : Nat) = .ok i := by
  constructor
  · intro h
    obtain ⟨before, op, desc, operand, after, hbytes, hpc, hoperand, rfl⟩ := of_decode h
    have himage : image.toList = (image.toList.take offset ++ before) ++ (op.code :: desc :: operand) ++ after := by
      rw [List.append_assoc, List.append_assoc, ← List.append_assoc before, ← hbytes, toList_rest,
        List.take_append_drop]
    have hlength : (image.toList.take offset ++ before).length = pc + offset := by
      rw [List.length_append, List.length_take, Array.length_toList]
      omega
    rw [← hlength]
    exact decode_bytes himage hoperand
  · intro h
    obtain ⟨before, op, desc, operand, after, himage, hpc, hoperand, rfl⟩ := of_decode h
    have hle : offset ≤ before.length := by omega
    have hbytes : (image.rest offset).toList = before.drop offset ++ (op.code :: desc :: operand) ++ after := by
      rw [toList_rest, himage, List.append_assoc, List.drop_append_of_le_length hle, List.append_assoc]
    have hlength : pc = (before.drop offset).length := by
      rw [List.length_drop]
      omega
    rw [hlength]
    exact decode_bytes hbytes hoperand

theorem Entry.Reads.end_le {e : Entry} (h : e.Reads image) : 0 < e.width ∧ e.place + e.width ≤ image.size := by
  cases e with
  | code pc i =>
    have hend := end_of_decode h
    exact ⟨by simp only [Entry.width]; omega, hend.2⟩
  | data pc byte =>
    obtain ⟨hbyte, -⟩ := h
    have hlt : pc < image.size := (Array.getElem?_eq_some_iff.mp hbyte).1
    exact ⟨Nat.one_pos, hlt⟩

/-- An entry of the bytes behind a place says the same of the whole image, further on. -/
theorem Entry.Reads.shifted {e : Entry} {offset : Nat} (hoffset : offset ≤ image.size)
    (h : e.Reads (image.rest offset)) : (e.shifted offset).Reads image := by
  cases e with
  | code pc i => exact (decode_rest hoffset pc i).mp h
  | data pc byte =>
    obtain ⟨hbyte, fault, hfault⟩ := h
    constructor
    · rw [← getElem?_rest]
      exact hbyte
    · cases hdecode : image.decode (pc + offset : Nat) with
      | error fault => exact ⟨fault, rfl⟩
      | ok i =>
        rw [(decode_rest hoffset pc i).mpr hdecode] at hfault
        cases hfault

/-- Entries at one place that say what stands there are the same. -/
theorem Entry.Reads.eq {e e' : Entry} (h : e.Reads image) (h' : e'.Reads image) (hplace : e.place = e'.place) :
    e = e' := by
  cases e with
  | code pc i =>
    cases e' with
    | code pc' i' =>
      obtain rfl : pc = pc' := hplace
      obtain rfl := Except.ok.inj (Eq.trans (Eq.symm h) h')
      rfl
    | data pc' byte =>
      obtain rfl : pc = pc' := hplace
      obtain ⟨-, fault, hfault⟩ := h'
      cases Eq.trans (Eq.symm h) hfault
  | data pc byte =>
    obtain ⟨hbyte, fault, hfault⟩ := h
    cases e' with
    | code pc' i' =>
      obtain rfl : pc = pc' := hplace
      cases Eq.trans (Eq.symm hfault) h'
    | data pc' byte' =>
      obtain rfl : pc = pc' := hplace
      obtain rfl := Option.some.inj (hbyte.symm.trans h'.1)
      rfl

/-- Two ways to list the bytes from a place to the end are the same. -/
theorem Spans.eq_of_reads (h : Spans start es image.size) (hreads : ∀ e ∈ es, e.Reads image)
    (h' : Spans start es' image.size) (hreads' : ∀ e ∈ es', e.Reads image) : es = es' := by
  induction es generalizing start es' with
  | nil =>
    obtain rfl : start = image.size := h
    cases es' with
    | nil => rfl
    | cons e' es' =>
      -- an entry at the end would cover a byte that is not there
      have hend := (hreads' e' List.mem_cons_self).end_le
      have hplace := h'.1
      omega
  | cons e es ih =>
    cases es' with
    | nil =>
      obtain rfl : start = image.size := h'
      have hend := (hreads e List.mem_cons_self).end_le
      have hplace := h.1
      omega
    | cons e' es' =>
      obtain rfl := (hreads e List.mem_cons_self).eq (hreads' e' List.mem_cons_self) (h.1.trans h'.1.symm)
      congr 1
      exact ih h.2 (fun e he => hreads e (List.mem_cons_of_mem _ he)) h'.2
        (fun e he => hreads' e (List.mem_cons_of_mem _ he))

/-! ## The sweeps -/

/-- The listing goes to the end: each of its steps takes a byte at least, so the fuel lasts. -/
theorem spans_listingFrom {fuel pc : Nat} (hfuel : image.size ≤ pc + fuel) (hpc : pc ≤ image.size) :
    Spans pc (image.listingFrom fuel pc) image.size ∧ ∀ e ∈ image.listingFrom fuel pc, e.Reads image := by
  induction fuel generalizing pc with
  | zero =>
    have heq : pc = image.size := by omega
    exact ⟨heq, List.forall_mem_nil _⟩
  | succ fuel ih =>
    rw [listingFrom]
    cases hbyte : image[pc]? with
    | none =>
      have heq : pc = image.size := Nat.le_antisymm hpc (Array.getElem?_eq_none_iff.mp hbyte)
      exact ⟨heq, List.forall_mem_nil _⟩
    | some byte =>
      have hlt : pc < image.size := (Array.getElem?_eq_some_iff.mp hbyte).1
      cases hdecode : image.decode pc with
      | ok i =>
        have hend := end_of_decode hdecode
        obtain ⟨hspans, hreads⟩ := @ih (pc + i.opcode.width) (by omega) hend.2
        exact ⟨⟨rfl, hspans⟩, List.forall_mem_cons.mpr ⟨hdecode, hreads⟩⟩
      | error fault =>
        obtain ⟨hspans, hreads⟩ := @ih (pc + 1) (by omega) hlt
        exact ⟨⟨rfl, hspans⟩, List.forall_mem_cons.mpr ⟨⟨hbyte, fault, hdecode⟩, hreads⟩⟩

/-- What is disassembled goes up to a place: the end, or the first place that does not decode. -/
theorem spans_disassembleFrom {fuel pc : Nat} (hfuel : image.size ≤ pc + fuel) (hpc : pc ≤ image.size) :
    ∃ stop, Spans pc ((image.disassembleFrom fuel pc).1.map Entry.ofPair) stop ∧
      (∀ e ∈ (image.disassembleFrom fuel pc).1.map Entry.ofPair, e.Reads image) ∧
      ((image.disassembleFrom fuel pc).2 = none → stop = image.size) ∧
      ∀ fault, (image.disassembleFrom fuel pc).2 = some fault →
        stop < image.size ∧ image.decode stop = .error fault := by
  induction fuel generalizing pc with
  | zero =>
    have heq : pc = image.size := by omega
    exact ⟨pc, rfl, List.forall_mem_nil _, fun _ => heq, fun _ h => by cases h⟩
  | succ fuel ih =>
    rw [disassembleFrom]
    by_cases hend : image.size ≤ pc
    · rw [if_pos hend]
      exact ⟨pc, rfl, List.forall_mem_nil _, fun _ => Nat.le_antisymm hpc hend, fun _ h => by cases h⟩
    · rw [if_neg hend]
      cases hdecode : image.decode pc with
      | error fault =>
        refine ⟨pc, rfl, List.forall_mem_nil _, fun h => (by cases h), ?_⟩
        intro fault' hfault
        obtain rfl := Option.some.inj hfault
        exact ⟨Nat.not_le.mp hend, hdecode⟩
      | ok i =>
        have hwidth := end_of_decode hdecode
        obtain ⟨stop, hspans, hreads, hnone, hsome⟩ := @ih (pc + i.opcode.width) (by omega) hwidth.2
        exact ⟨stop, ⟨rfl, hspans⟩, List.forall_mem_cons.mpr ⟨hdecode, hreads⟩, hnone, hsome⟩

/-! ## Listings -/

theorem eq_listing_iff (image : Image) (es : List Entry) :
    es = image.listing ↔ Spans 0 es image.size ∧ ∀ e ∈ es, e.Reads image := by
  have hlisting := @spans_listingFrom image image.size 0 (by omega) (Nat.zero_le _)
  constructor
  · rintro rfl
    exact hlisting
  · rintro ⟨hspans, hreads⟩
    exact hspans.eq_of_reads hreads hlisting.1 hlisting.2

/-- Behind a byte that starts no instruction the listing goes on as that of the bytes behind it. -/
theorem listing_of_undecoded {es : List Entry} {stop : Nat} {byte : UInt8} {fault : Fault}
    (hspans : Spans 0 es stop) (hreads : ∀ e ∈ es, e.Reads image) (hbyte : image[stop]? = some byte)
    (hfault : image.decode stop = .error fault) :
    image.listing = es ++ .data stop byte :: (image.rest (stop + 1)).listing.map (Entry.shifted (stop + 1)) := by
  have hlt : stop < image.size := (Array.getElem?_eq_some_iff.mp hbyte).1
  obtain ⟨hspansRest, hreadsRest⟩ := (eq_listing_iff (image.rest (stop + 1)) _).mp rfl
  symm
  rw [eq_listing_iff]
  constructor
  · -- the bytes behind the data byte end where the image ends
    have hmoved := hspansRest.shifted (stop + 1)
    rw [size_rest, Nat.sub_add_cancel hlt, Nat.zero_add] at hmoved
    exact hspans.append ⟨rfl, hmoved⟩
  · intro e he
    rcases List.mem_append.mp he with he | he
    · exact hreads e he
    · rcases List.mem_cons.mp he with rfl | he
      · exact ⟨hbyte, fault, hfault⟩
      · obtain ⟨e', he', rfl⟩ := List.mem_map.mp he
        exact (hreadsRest e' he').shifted hlt

/-! ## Lines -/

theorem isInner_padded_hex (width n : Nat) :
    ∀ c ∈ Numeral.padded width (Numeral.hex n), Bytes.isInner c = true := by
  refine List.forall_mem_append.mpr ⟨fun c hc => ?_, fun c hc => ?_⟩
  · obtain rfl := List.eq_of_mem_replicate hc
    decide
  · exact Bytes.isInner_of_isIdent (Numeral.isIdent_of_mem_hex hc)

/-- The text of an entry stays on its line. -/
theorem Entry.isLine_entryLine {e : Entry} (h : e.Reads image) : Bytes.IsLine (CommandLine.entryLine e) := by
  apply Bytes.isLine_of_isInner
  cases e with
  | code pc i =>
    obtain ⟨_, op, _, _, _, -, -, hoperand, rfl⟩ := of_decode h
    have hmark : ∀ c ∈ bytes ": ", Bytes.isInner c = true := List.all_eq_true.mp rfl
    have hplace := List.forall_mem_append.mpr ⟨isInner_padded_hex 8 pc, hmark⟩
    exact List.forall_mem_append.mpr ⟨hplace, (Instruction.sized_ofBytes hoperand).isInner_text⟩
  | data pc byte =>
    have hmark : ∀ c ∈ bytes ": ; 0x", Bytes.isInner c = true := List.all_eq_true.mp rfl
    have hplace := List.forall_mem_append.mpr ⟨isInner_padded_hex 8 pc, hmark⟩
    have hbyte := List.forall_mem_append.mpr ⟨hplace, isInner_padded_hex 2 byte.toNat⟩
    refine List.forall_mem_append.mpr ⟨hbyte, ?_⟩
    split
    · have hquote : ∀ c ∈ bytes " '", Bytes.isInner c = true := List.all_eq_true.mp rfl
      have hletter := List.forall_mem_append.mpr ⟨hquote, Escape.isInner_encode [byte]⟩
      exact List.forall_mem_append.mpr ⟨hletter, List.all_eq_true.mp rfl⟩
    · exact List.forall_mem_nil _

/-- The lines of a printed listing are those of its entries. -/
theorem lines_disassembly (image : Image) :
    Bytes.lines (CommandLine.disassembly image) = image.listing.map CommandLine.entryLine := by
  have hreads := ((eq_listing_iff image image.listing).mp rfl).2
  have hlines : ∀ line ∈ image.listing.map CommandLine.entryLine, Bytes.IsLine line := by
    intro line hline
    obtain ⟨e, he, rfl⟩ := List.mem_map.mp hline
    exact Entry.isLine_entryLine (hreads e he)
  have hrender := Bytes.lines_render hlines
  rwa [List.flatMap_map] at hrender

/-- The listing of an image ends at its end, and it is the one way to say what stands in the image, entry after
entry. It starts with the instructions that are disassembled. Where disassembling stops with a fault, the byte
there is an entry, and the entries behind it are those of the bytes behind it, moved on by their place. What is
printed are the lines of its entries, one after the other. -/
theorem listing_extends_disassemble (image : Image) :
    (∀ es, es = image.listing ↔ Spans 0 es image.size ∧ ∀ e ∈ es, e.Reads image) ∧
    ∃ stop, Spans 0 (image.disassemble.1.map Entry.ofPair) stop ∧
      (image.disassemble.2 = none → stop = image.size ∧ image.listing = image.disassemble.1.map Entry.ofPair) ∧
      (∀ fault, image.disassemble.2 = some fault →
        image.decode stop = .error fault ∧ ∃ byte, image[stop]? = some byte ∧
          image.listing = image.disassemble.1.map Entry.ofPair ++
            .data stop byte :: (image.rest (stop + 1)).listing.map (Entry.shifted (stop + 1))) ∧
      CommandLine.disassembly image = image.listing.flatMap (fun e => CommandLine.entryLine e ++ bytes "\n") ∧
      Bytes.lines (CommandLine.disassembly image) = image.listing.map CommandLine.entryLine ∧
      (image.disassemble.1.flatMap fun e =>
        CommandLine.placeText e.1 ++ bytes ": " ++ e.2.text ++ bytes "\n") <+: CommandLine.disassembly image := by
  obtain ⟨stop, hspans, hreads, hnone, hsome⟩ :=
    @spans_disassembleFrom image image.size 0 (by omega) (Nat.zero_le _)
  have hwhole : image.disassemble.2 = none →
      stop = image.size ∧ image.listing = image.disassemble.1.map Entry.ofPair := by
    intro hstop
    obtain rfl := hnone hstop
    exact ⟨rfl, ((eq_listing_iff image _).mpr ⟨hspans, hreads⟩).symm⟩
  have hbroken : ∀ fault, image.disassemble.2 = some fault →
      image.decode stop = .error fault ∧ ∃ byte, image[stop]? = some byte ∧
        image.listing = image.disassemble.1.map Entry.ofPair ++
          .data stop byte :: (image.rest (stop + 1)).listing.map (Entry.shifted (stop + 1)) := by
    intro fault hstop
    obtain ⟨hlt, hfault⟩ := hsome fault hstop
    obtain ⟨byte, hbyte⟩ : ∃ byte, image[stop]? = some byte := ⟨_, Array.getElem?_eq_getElem hlt⟩
    exact ⟨hfault, byte, hbyte, listing_of_undecoded hspans hreads hbyte hfault⟩
  refine ⟨eq_listing_iff image, stop, hspans, hwhole, hbroken, rfl, image.lines_disassembly, ?_⟩
  -- in both cases the instructions are the first entries, and so are their texts
  have hprefix : image.disassemble.1.map Entry.ofPair <+: image.listing := by
    cases hstop : image.disassemble.2 with
    | none =>
      rw [(hwhole hstop).2]
    | some fault =>
      obtain ⟨-, byte, -, hlisting⟩ := hbroken fault hstop
      rw [hlisting]
      exact List.prefix_append _ _
  obtain ⟨others, hothers⟩ := hprefix
  refine ⟨others.flatMap fun e => CommandLine.entryLine e ++ bytes "\n", ?_⟩
  rw [CommandLine.disassembly, ← hothers, List.flatMap_append, List.flatMap_map]
  rfl

/-- A byte that is no opcode stands between two instructions, and the first byte of a third one at the end. -/
theorem listing_extends_disassemble_resumes :
    disassemble #[0x22, 0x00, 0xff, 0x06, 0x01, 0x00] =
        ([(0, ⟨.of .halt, 0, 0, 0⟩)], some (.unknownOpcode 0xff)) ∧
      listing #[0x06, 0x01, 0x00] = [.code 0 ⟨.of .push, 1, 0, 0⟩, .data 2 0x00] ∧
      listing #[0x22, 0x00, 0xff, 0x06, 0x01, 0x00] =
        .code 0 ⟨.of .halt, 0, 0, 0⟩ :: .data 2 0xff ::
          (listing #[0x06, 0x01, 0x00]).map (Entry.shifted 3) := by
  have hdisassemble : disassemble #[0x22, 0x00, 0xff, 0x06, 0x01, 0x00] =
      ([(0, ⟨.of .halt, 0, 0, 0⟩)], some (.unknownOpcode 0xff)) := by
    decide +kernel
  obtain ⟨-, stop, hspans, -, hbroken, -, -, -⟩ := listing_extends_disassemble #[0x22, 0x00, 0xff, 0x06, 0x01, 0x00]
  rw [hdisassemble] at hspans hbroken
  obtain ⟨-, rfl⟩ := hspans
  obtain ⟨-, byte, hbyte, hlisting⟩ := hbroken _ rfl
  obtain rfl : 0xff = byte := Option.some.inj hbyte
  exact ⟨hdisassemble, by decide +kernel, hlisting⟩

end Image

end WordMachine
