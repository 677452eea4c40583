import Mathlib
import WordMachine.Proofs.Machine.Effect

/-!
# `Proofs.Machine.Strings` — strings in the image and in memory

A string is the bytes from a place up to the first zero byte. It is found again wherever its bytes and the zero
byte are put, whatever surrounds them, so two strings of the image compare in memory as they do in the image.

Contents:
* `HeldAt`, `StringAt`, `regionString_eq_ok_iff`: what a string is, without looking for its end;
* `Image.HasString`, `Memory.HasString`: strings at an address;
* `Memory.hasString_put`, `Memory.HasString.put`: strings that were put, and strings apart from what is put;
* `Machine.writeMemory_eq`: when bytes can be written;
* `Machine.Applies`, `Machine.Applies.of_copied`, `Machine.Applies.compared`: instructions on two registers;
* `Machine.copies_compare_alike`.
-/

namespace WordMachine

/-! ## Strings at a place -/

/-- Bytes stand at a place. -/
def HeldAt (byteAt : Nat → UInt8) (place : Nat) (data : Bytes) : Prop :=
  ∀ i b, data[i]? = some b → byteAt (place + i) = b

/-- A string stands at a place: its bytes, none of them zero, and a zero byte after them, all of it below a
limit. -/
structure StringAt (byteAt : Nat → UInt8) (limit place : Nat) (text : Bytes) : Prop where
  held : HeldAt byteAt place (text ++ [0])
  nonzero : 0 ∉ text
  fits : place + text.length < limit

variable {byteAt : Nat → UInt8} {limit place : Nat} {text : Bytes} {c : UInt8}

theorem heldAt_cons {data : Bytes} :
    HeldAt byteAt place (c :: data) ↔ byteAt place = c ∧ HeldAt byteAt (place + 1) data := by
  constructor
  · intro h
    refine ⟨h 0 c rfl, fun i b hb => ?_⟩
    rw [Nat.add_assoc, Nat.add_comm 1 i]
    exact h (i + 1) b hb
  · rintro ⟨hfirst, hrest⟩ i b hb
    cases i with
    | zero =>
      obtain rfl := Option.some.inj hb
      exact hfirst
    | succ i =>
      rw [Nat.add_comm i 1, ← Nat.add_assoc]
      exact hrest i b hb

theorem stringAt_nil : StringAt byteAt limit place [] ↔ byteAt place = 0 ∧ place < limit := by
  constructor
  · intro h
    exact ⟨(heldAt_cons.mp h.held).1, h.fits⟩
  · rintro ⟨hzero, hlt⟩
    refine ⟨heldAt_cons.mpr ⟨hzero, fun i b hb => ?_⟩, List.not_mem_nil, hlt⟩
    cases hb

theorem stringAt_cons :
    StringAt byteAt limit place (c :: text) ↔
      byteAt place = c ∧ c ≠ 0 ∧ StringAt byteAt limit (place + 1) text := by
  constructor
  · intro h
    obtain ⟨hfirst, hrest⟩ := heldAt_cons.mp h.held
    have hfits := h.fits
    rw [List.length_cons] at hfits
    have hzero := h.nonzero
    rw [List.mem_cons, not_or] at hzero
    exact ⟨hfirst, Ne.symm hzero.1, hrest, hzero.2, by omega⟩
  · rintro ⟨hfirst, hne, hrest⟩
    have hfits := hrest.fits
    refine ⟨heldAt_cons.mpr ⟨hfirst, hrest.held⟩, ?_, ?_⟩
    · rw [List.mem_cons, not_or]
      exact ⟨Ne.symm hne, hrest.nonzero⟩
    · rw [List.length_cons]
      omega

/-- The bytes up to a zero byte are the string that stands there. -/
theorem zeroTerminated_eq_some_iff {count : Nat} :
    zeroTerminated byteAt count place = some text ↔ StringAt byteAt (place + count) place text := by
  induction count generalizing place text with
  | zero =>
    constructor
    · intro h
      cases h
    · intro h
      exact absurd h.fits (by omega)
  | succ count ih =>
    have hlimit : place + (count + 1) = place + 1 + count := by omega
    rw [zeroTerminated]
    -- the string is empty if and only if a zero byte is here
    by_cases hzero : byteAt place = 0
    · rw [if_pos hzero]
      cases text with
      | nil => exact iff_of_true rfl (stringAt_nil.mpr ⟨hzero, by omega⟩)
      | cons c text =>
        refine iff_of_false (fun h => (by cases h)) fun h => ?_
        obtain ⟨hfirst, hne, -⟩ := stringAt_cons.mp h
        exact hne (hfirst.symm.trans hzero)
    · rw [if_neg hzero]
      cases text with
      | nil =>
        refine iff_of_false (fun h => ?_) fun h => hzero (stringAt_nil.mp h).1
        obtain ⟨rest, -, hrest⟩ := Option.map_eq_some_iff.mp h
        cases hrest
      | cons c text =>
        rw [Option.map_eq_some_iff, stringAt_cons, hlimit, ← ih]
        constructor
        · rintro ⟨rest, hrest, heq⟩
          obtain ⟨rfl, rfl⟩ := List.cons.inj heq
          exact ⟨rfl, hzero, hrest⟩
        · rintro ⟨rfl, -, hrest⟩
          exact ⟨text, hrest, rfl⟩

/-- A string is found at an address if and only if it stands there. -/
theorem regionString_eq_ok_iff {region : Region} {address : UInt64} :
    regionString region limit byteAt address = .ok text ↔ StringAt byteAt limit address.toNat text := by
  rw [regionString, checkAccess_eq]
  by_cases hlt : address.toNat < limit
  · have hlimit : address.toNat + (limit - address.toNat) = limit := by omega
    have hiff := @zeroTerminated_eq_some_iff byteAt address.toNat text (limit - address.toNat)
    rw [hlimit] at hiff
    rw [if_pos ⟨by decide, by omega⟩, ← hiff]
    dsimp only
    cases zeroTerminated byteAt (limit - address.toNat) address.toNat with
    | none => exact iff_of_false (fun h => (by cases h)) fun h => (by cases h)
    | some found => rw [Except.ok.injEq, Option.some.injEq]
  · rw [if_neg (by omega)]
    refine iff_of_false (fun h => (by cases h)) fun h => ?_
    have hfits := h.fits
    omega

/-- A string stands at an address of an image. -/
def Image.HasString (image : Image) (address : UInt64) (text : Bytes) : Prop :=
  StringAt (fun place => image[place]?.getD 0) image.size address.toNat text

theorem Image.string_eq_ok_iff {image : Image} {address : UInt64} :
    image.string address = .ok text ↔ image.HasString address text := regionString_eq_ok_iff

namespace Memory

variable {m : Memory} {address : UInt64}

/-- A string stands at an address of memory. -/
def HasString (m : Memory) (address : UInt64) (text : Bytes) : Prop := StringAt m.byte m.limit address.toNat text

theorem string_eq_ok_iff : m.string address = .ok text ↔ m.HasString address text := regionString_eq_ok_iff

/-! ## Bytes that are put -/

/-- Bytes stand where they were put. -/
theorem heldAt_put (m : Memory) (place : Nat) (data : Bytes) : HeldAt (m.put place data).byte place data := by
  intro i b hb
  rw [byte_put, if_pos (Nat.le_add_right place i), Nat.add_sub_cancel_left, hb, Option.getD_some]

/-- Places before and behind the bytes that are put keep theirs. -/
theorem byte_put_of_apart {data : Bytes} {other : Nat} (h : other < place ∨ place + data.length ≤ other) :
    (m.put place data).byte other = m.byte other := by
  rw [byte_put]
  by_cases hle : place ≤ other
  · rw [if_pos hle, List.getElem?_eq_none (by omega), Option.getD_none]
  · rw [if_neg hle]

theorem heldAt_put_of_apart {data data' : Bytes} {other : Nat} (h : HeldAt m.byte other data)
    (hapart : other + data.length ≤ place ∨ place + data'.length ≤ other) :
    HeldAt (m.put place data').byte other data := by
  intro i b hb
  have hlt : i < data.length := (List.getElem?_eq_some_iff.mp hb).1
  rw [byte_put_of_apart (by omega)]
  exact h i b hb

/-- A string is found where it was put with a zero byte. -/
theorem hasString_put (hnonzero : 0 ∉ text) (hfits : address.toNat + text.length < m.limit) :
    (m.put address.toNat (text ++ [0])).HasString address text := by
  refine ⟨heldAt_put _ _ _, hnonzero, ?_⟩
  rw [limit_put]
  exact hfits

/-- A string stays where it is while bytes are put apart from it and its zero byte. -/
theorem HasString.put {data : Bytes} (h : m.HasString address text)
    (hapart : address.toNat + text.length + 1 ≤ place ∨ place + data.length ≤ address.toNat) :
    (m.put place data).HasString address text := by
  refine ⟨heldAt_put_of_apart h.held ?_, h.nonzero, ?_⟩
  · rw [List.length_append, List.length_singleton]
    omega
  · rw [limit_put]
    exact h.fits

end Memory

/-! ## Instructions on two registers -/

namespace Machine

variable {m m' : Machine} {i : Instruction} {a b : UInt64}

/-- Bytes can be written if they do not end behind the end of memory. -/
theorem writeMemory_eq (m : Machine) (address : UInt64) (data : Bytes) :
    m.writeMemory address data =
      if address.toNat + data.length ≤ m.memory.limit then
        ({ m with memory := m.memory.put address.toNat data }, none)
      else (m, some (.access ⟨.memory, address, data.length, m.memory.limit⟩)) := by
  rw [writeMemory, Memory.write, checkAccess_eq]
  by_cases hfits : address.toNat + data.length ≤ m.memory.limit
  · rw [if_pos hfits, if_pos ⟨Int.natCast_nonneg _, by exact_mod_cast hfits⟩]
  · rw [if_neg hfits, if_neg fun h => hfits (by exact_mod_cast h.2)]

/-- An instruction performs an operation on the values of its two registers. -/
structure Applies (m : Machine) (i : Instruction) (op : Operation) (a b : UInt64) : Prop where
  opcode : i.opcode = .of op
  first : m.reg (Register.ofInt i.dst) = a
  second : m.reg (Register.ofInt i.src) = b

theorem Applies.execute_eq {op : Operation} (h : m.Applies i op a b) :
    m.execute i = m.perform op (Register.ofInt i.dst) (Register.ofInt i.src) i.imm
      (placeAfter m.pc i.opcode.width) := by
  simp only [execute, h.opcode, Opcode.operation?_of]

/-- A copy that succeeds has put a string of the image, with its zero byte, into memory. -/
theorem Applies.of_copied (h : m.Applies i .bufc a b) (hran : m.execute i = (m', none)) :
    ∃ text, m.image.HasString a text ∧ b.toNat + text.length < m.memory.limit ∧
      m'.image = m.image ∧ m'.memory = m.memory.put b.toNat (text ++ [0]) := by
  rw [h.execute_eq] at hran
  simp only [perform, h.first, h.second] at hran
  obtain ⟨m₁, hcopy, rfl⟩ := of_andThen hran
  unfold copyString at hcopy
  split at hcopy
  · cases hcopy
  next text htext =>
    rw [writeMemory_eq] at hcopy
    split at hcopy
    next hfits =>
      obtain rfl := congrArg Prod.fst hcopy
      rw [List.length_append, List.length_singleton] at hfits
      exact ⟨text, Image.string_eq_ok_iff.mp htext, hfits, rfl, rfl⟩
    · cases hcopy

/-- Comparing two strings succeeds where both are found, and sets the flags by whether they are equal. -/
theorem Applies.compared {op : Operation} {string : UInt64 → Except Fault Bytes} {s t : Bytes}
    (h : m.Applies i op a b)
    (hop : ∀ (dst src : Register) (imm : UInt64) (next : Int), m.perform op dst src imm next =
      andThen (m.compareStrings string (m.reg dst) (m.reg src)) next)
    (hs : string a = .ok s) (ht : string b = .ok t) :
    (m.execute i).2 = none ∧
      (m.execute i).1.flags = Flag.compared m.flags (if s = t then some .eq else none) := by
  rw [h.execute_eq, hop, h.first, h.second]
  simp only [compareStrings, hs, ht]
  exact ⟨rfl, rfl⟩

/-! ## Copies -/

/-- Two strings of the image are copied to memory, one after the other; what happens in between may change
anything but the image and memory. If the copies do not overlap, they compare in memory as the strings do in the
image: from the same flags both comparisons succeed and leave the same flags, which tell whether the strings are
equal and keep the halt flag. -/
theorem copies_compare_alike {m₁ m₁' m₂ m₂' : Machine} {i₁ i₂ : Instruction} {a b p q : UInt64}
    (hi₁ : m₁.Applies i₁ .bufc a p) (h₁ : m₁.execute i₁ = (m₁', none)) (himage : m₂.image = m₁'.image)
    (hmemory : m₂.memory = m₁'.memory) (hi₂ : m₂.Applies i₂ .bufc b q)
    (h₂ : m₂.execute i₂ = (m₂', none)) :
    ∃ s t, m₁.image.HasString a s ∧ m₁.image.HasString b t ∧
      (p.toNat + s.length + 1 ≤ q.toNat ∨ q.toNat + t.length + 1 ≤ p.toNat →
        ∀ (m₃ m₄ : Machine) (i₃ i₄ : Instruction), m₃.memory = m₂'.memory → m₄.image = m₁.image →
          m₄.flags = m₃.flags → m₃.Applies i₃ .bseq p q → m₄.Applies i₄ .lseq a b →
          (m₃.execute i₃).2 = none ∧ (m₄.execute i₄).2 = none ∧
          (m₃.execute i₃).1.flags = (m₄.execute i₄).1.flags ∧
          (Flag.isSet (m₃.execute i₃).1.flags Flag.equal = true ↔ s = t) ∧
          Flag.isSet (m₃.execute i₃).1.flags Flag.less = false ∧
          Flag.isSet (m₃.execute i₃).1.flags Flag.greater = false ∧
          Flag.isSet (m₃.execute i₃).1.flags Flag.halt = Flag.isSet m₃.flags Flag.halt) := by
  obtain ⟨s, hs, hfits₁, himage₁, hmemory₁⟩ := hi₁.of_copied h₁
  obtain ⟨t, ht, hfits₂, -, hmemory₂⟩ := hi₂.of_copied h₂
  rw [himage, himage₁] at ht
  refine ⟨s, t, hs, ht, ?_⟩
  intro hapart m₃ m₄ i₃ i₄ hm₃ hm₄ hflags hi₃ hi₄
  have hbytes : m₃.memory = (m₁.memory.put p.toNat (s ++ [0])).put q.toNat (t ++ [0]) := by
    rw [hm₃, hmemory₂, hmemory, hmemory₁]
  have hs₃ : m₃.memory.HasString p s := by
    rw [hbytes]
    -- the second copy leaves the first one alone
    apply (Memory.hasString_put hs.nonzero hfits₁).put
    rw [List.length_append, List.length_singleton]
    omega
  have ht₃ : m₃.memory.HasString q t := by
    rw [hmemory, hmemory₁] at hfits₂
    rw [hbytes]
    exact Memory.hasString_put ht.nonzero hfits₂
  have hs₄ : m₄.image.HasString a s := by
    rw [hm₄]
    exact hs
  have ht₄ : m₄.image.HasString b t := by
    rw [hm₄]
    exact ht
  obtain ⟨hran₃, hflags₃⟩ := hi₃.compared (fun _ _ _ _ => rfl) (Memory.string_eq_ok_iff.mpr hs₃)
    (Memory.string_eq_ok_iff.mpr ht₃)
  obtain ⟨hran₄, hflags₄⟩ := hi₄.compared (fun _ _ _ _ => rfl) (Image.string_eq_ok_iff.mpr hs₄)
    (Image.string_eq_ok_iff.mpr ht₄)
  rw [hflags₃, hflags₄, hflags, Flag.equal_compared, Flag.less_compared, Flag.greater_compared, halt_compared]
  refine ⟨hran₃, hran₄, rfl, ?_⟩
  by_cases heq : s = t
  · rw [if_pos heq]
    exact ⟨iff_of_true rfl heq, rfl, rfl, rfl⟩
  · rw [if_neg heq]
    exact ⟨iff_of_false (by decide) heq, rfl, rfl, rfl⟩

/-- A machine whose image holds a string and, within it, another one; its memory has room for both. -/
def beforeCopies : Machine :=
  let loaded := (create 5 8 8 {} (.store ∅)).load #[0x61, 0x61, 0x00]
  { (loaded.setReg (Register.ofInt 1) 1).setReg (Register.ofInt 3) 3 with flags := 0x84 }

/-- The strings `aa` and `a`, the second of which is the end of the first, fill memory up to its last byte. -/
theorem copies_compare_alike_within :
    let first := beforeCopies.execute ⟨.of .bufc, 0, 0, 0⟩
    let second := first.1.execute ⟨.of .bufc, 1, 3, 0⟩
    first.2 = none ∧ second.2 = none ∧ (second.1.execute ⟨.of .bseq, 0, 3, 0⟩).2 = none ∧
      (second.1.execute ⟨.of .bseq, 0, 3, 0⟩).1.flags = (second.1.execute ⟨.of .lseq, 0, 1, 0⟩).1.flags ∧
      Flag.isSet (second.1.execute ⟨.of .bseq, 0, 3, 0⟩).1.flags Flag.equal = false ∧
      Flag.isSet (second.1.execute ⟨.of .bseq, 0, 3, 0⟩).1.flags Flag.halt = true := by
  intro first second
  have hfirst : first.2 = none := by decide +kernel
  have hsecond : second.2 = none := by decide +kernel
  have hflags : Flag.isSet second.1.flags Flag.halt = true := by decide +kernel
  have hlong : beforeCopies.image.string 0 = .ok [0x61, 0x61] := by decide +kernel
  have hshort : beforeCopies.image.string 1 = .ok [0x61] := by decide +kernel
  obtain ⟨s, t, hs, ht, halike⟩ :=
    @copies_compare_alike beforeCopies first.1 first.1 second.1
      ⟨.of .bufc, 0, 0, 0⟩ ⟨.of .bufc, 1, 3, 0⟩ 0 1 0 3
      ⟨rfl, by decide +kernel, by decide +kernel⟩ (Prod.ext rfl hfirst) rfl rfl
      ⟨rfl, by decide +kernel, by decide +kernel⟩ (Prod.ext rfl hsecond)
  obtain rfl := Except.ok.inj (hlong.symm.trans (Image.string_eq_ok_iff.mpr hs))
  obtain rfl := Except.ok.inj (hshort.symm.trans (Image.string_eq_ok_iff.mpr ht))
  obtain ⟨hran, -, hsame, hequal, -, -, hhalt⟩ := halike (.inl (by decide)) second.1 second.1
    ⟨.of .bseq, 0, 3, 0⟩ ⟨.of .lseq, 0, 1, 0⟩ rfl rfl rfl ⟨rfl, by decide +kernel, by decide +kernel⟩
    ⟨rfl, by decide +kernel, by decide +kernel⟩
  refine ⟨hfirst, hsecond, hran, hsame, ?_, hhalt.trans hflags⟩
  rw [Bool.eq_false_iff]
  exact fun h => absurd (hequal.mp h) (by decide)

end Machine

end WordMachine
