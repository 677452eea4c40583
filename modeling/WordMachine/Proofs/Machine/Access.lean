import Mathlib
import WordMachine.Machine.Step
import WordMachine.Proofs.Machine.Memory

/-!
# `Proofs.Machine.Access` — numbers in memory

Memory is a row of bytes and nothing else. A number of any size is stored as its bytes, the least significant
first, and what is loaded is the sum of the bytes that stand there, whichever stores have put them there. An
access that would go beyond the last byte is refused, also where its end is beyond `2 ^ 64`.

Contents:
* `wordByte`, `numberAt`, `overlaid`: the bytes of a word, the number that bytes stand for, and the bytes after a
  word was stored;
* `numberAt_congr`, `numberAt_overlaid`: what a number depends on;
* `Memory.checkAccess_natCast`, `Memory.load_eq`, `Memory.store_eq`, `Memory.byte_stored`: accesses byte by byte;
* `Memory.gather`, `Memory.scatter`, `Memory.load_eq_word`, `Memory.store_eq_word`: accesses in words of 64 bits;
* `Memory.access_exact`.
-/

namespace WordMachine

/-! ## Bytes and numbers -/

/-- The byte of a word with an index, counted from the least significant one. A word has eight bytes; those
behind them are zero. -/
def wordByte (value : UInt64) (i : Nat) : UInt8 :=
  if i < 8 then (value >>> (8 * i).toUInt64).toUInt8 else 0

/-- The number that the bytes from a place on stand for, the least significant one first. -/
def numberAt (byteAt : Nat → UInt8) (place count : Nat) : Nat :=
  ∑ i ∈ Finset.range count, (byteAt (place + i)).toNat * 256 ^ i

/-- Bytes over some of which, from a place on, the bytes of a word are laid. -/
def overlaid (byteAt : Nat → UInt8) (place count : Nat) (value : UInt64) (i : Nat) : UInt8 :=
  if place ≤ i ∧ i < place + count then wordByte value (i - place) else byteAt i

theorem wordByte_eq (value : UInt64) (i : Nat) : wordByte value i = (value.toNat / 256 ^ i).toUInt8 := by
  have hpow : 256 ^ i = 2 ^ (8 * i) := by
    rw [Nat.pow_mul]
  apply UInt8.toNat_inj.mp
  rw [wordByte, hpow]
  by_cases hi : i < 8
  · have hshift : (8 * i).toUInt64.toNat % 64 = 8 * i := by
      have hsmall : 8 * i < UInt64.size := Nat.lt_trans (show 8 * i < 64 by omega) (by decide)
      rw [Nat.toUInt64_eq, UInt64.toNat_ofNat_of_lt' hsmall]
      omega
    rw [if_pos hi, UInt64.toNat_toUInt8, UInt64.toNat_shiftRight, hshift, Nat.shiftRight_eq_div_pow]
    simp
  · have hsmall : value.toNat < 2 ^ (8 * i) :=
      Nat.lt_of_lt_of_le value.toNat_lt (Nat.pow_le_pow_right (by decide) (by omega))
    rw [if_neg hi, Nat.div_eq_of_lt hsmall]
    rfl

/-- A number depends on its own bytes only. -/
theorem numberAt_congr {byteAt byteAt' : Nat → UInt8} {place count : Nat}
    (h : ∀ i < count, byteAt (place + i) = byteAt' (place + i)) :
    numberAt byteAt place count = numberAt byteAt' place count := by
  refine Finset.sum_congr rfl fun i hi => ?_
  rw [h i (Finset.mem_range.mp hi)]

theorem sum_bytes_eq_mod (n count : Nat) :
    ∑ i ∈ Finset.range count, n / 256 ^ i % 256 * 256 ^ i = n % 256 ^ count := by
  induction count with
  | zero => simp [Nat.mod_one]
  | succ count ih => rw [Finset.sum_range_succ, ih, Nat.mod_pow_succ, Nat.mul_comm (256 ^ count)]

/-- The bytes of a word stand for its low bits. -/
theorem numberAt_overlaid (byteAt : Nat → UInt8) (place count : Nat) (value : UInt64) :
    numberAt (overlaid byteAt place count value) place count = value.toNat % 2 ^ (8 * count) := by
  have hbytes : numberAt (overlaid byteAt place count value) place count =
      ∑ i ∈ Finset.range count, value.toNat / 256 ^ i % 256 * 256 ^ i := by
    refine Finset.sum_congr rfl fun i hi => ?_
    have hlt : i < count := Finset.mem_range.mp hi
    rw [overlaid, if_pos ⟨Nat.le_add_right place i, by omega⟩, Nat.add_sub_cancel_left, wordByte_eq]
    simp
  rw [hbytes, sum_bytes_eq_mod, Nat.pow_mul]

/-- A byte that is or-ed into the room a shift has made is added. -/
theorem toNat_shift_or (value : UInt64) (b : UInt8) :
    (value <<< 8 ||| b.toUInt64).toNat = (value.toNat * 256 + b.toNat) % 2 ^ 64 := by
  have hb : b.toNat < 2 ^ 8 := b.toNat_lt
  have hshift : (8 : UInt64).toNat % 64 = 8 := rfl
  have hmod : value.toNat * 2 ^ 8 % 2 ^ 64 = 2 ^ 8 * (value.toNat % 2 ^ 56) := by omega
  rw [UInt64.toNat_or, UInt64.toNat_shiftLeft, UInt8.toNat_toUInt64, hshift, Nat.shiftLeft_eq, hmod,
    ← Nat.two_pow_add_eq_or_of_lt hb]
  omega

namespace Memory

variable {m : Memory}

/-! ## Loads and stores -/

theorem ofLittleEndian_read_eq (m : Memory) (place count : Nat) :
    ofLittleEndian (m.read place count) = numberAt m.byte place count := by
  rw [ofLittleEndian_read]
  rfl

theorem checkAccess_natCast (hsize : 0 ≤ m.size) (address : UInt64) (n : Nat) :
    checkAccess .memory m.limit address n =
      if (address.toNat : Int) + n ≤ m.size then .ok ()
      else .error (.access ⟨.memory, address, n, m.size.toNat⟩) := by
  have hlimit : (m.limit : Int) = m.size := Int.toNat_of_nonneg hsize
  rw [checkAccess_eq, hlimit]
  by_cases hfits : (address.toNat : Int) + n ≤ m.size
  · rw [if_pos ⟨Int.natCast_nonneg n, hfits⟩, if_pos hfits]
  · rw [if_neg (fun h => hfits h.2), if_neg hfits]
    rfl

theorem load_eq (hsize : 0 ≤ m.size) (address : UInt64) (n : Nat) :
    m.load address n =
      if (address.toNat : Int) + n ≤ m.size then .ok (numberAt m.byte address.toNat n).toUInt64
      else .error (.access ⟨.memory, address, n, m.size.toNat⟩) := by
  rw [load, checkAccess_natCast hsize, Int.toNat_natCast, ofLittleEndian_read_eq]
  by_cases hfits : (address.toNat : Int) + n ≤ m.size
  · rw [if_pos hfits, if_pos hfits]
  · rw [if_neg hfits, if_neg hfits]

theorem store_eq (hsize : 0 ≤ m.size) (address : UInt64) (n : Nat) (value : UInt64) :
    m.store address n value =
      if (address.toNat : Int) + n ≤ m.size then .ok (m.put address.toNat (littleEndian n value.toNat))
      else .error (.access ⟨.memory, address, n, m.size.toNat⟩) := by
  rw [store, checkAccess_natCast hsize, Int.toNat_natCast]
  by_cases hfits : (address.toNat : Int) + n ≤ m.size
  · rw [if_pos hfits, if_pos hfits]
  · rw [if_neg hfits, if_neg hfits]

/-- The bytes after a word was stored. -/
theorem byte_stored (m : Memory) (place n : Nat) (value : UInt64) :
    (m.put place (littleEndian n value.toNat)).byte = overlaid m.byte place n value := by
  funext i
  rw [byte_put, overlaid, littleEndian_eq]
  by_cases hle : place ≤ i
  · by_cases hlt : i < place + n
    · have hindex : i - place < n := by omega
      rw [if_pos hle, if_pos ⟨hle, hlt⟩, List.getElem?_map, List.getElem?_range hindex, wordByte_eq]
      rfl
    · have hindex : n ≤ i - place := by omega
      rw [if_pos hle, if_neg (fun h => hlt h.2), List.getElem?_eq_none (by simpa using hindex)]
      rfl
  · rw [if_neg hle, if_neg (fun h => hle h.1)]

/-! ## Words of 64 bits -/

/-- Gather a value from its bytes, the last one first. -/
def gather (m : Memory) (address : UInt64) : Nat → UInt64 → UInt64
  | 0, value => value
  | n + 1, value => m.gather address n (value <<< 8 ||| (m.byte (address + n.toUInt64).toNat).toUInt64)

/-- Lay the bytes of a value down from an index on, the lowest one first. -/
def scatter (m : Memory) (address : UInt64) (n : Nat) : Nat → UInt64 → Memory
  | 0, _ => m
  | count + 1, value =>
      scatter { m with cells := m.cells.insert (address + n.toUInt64).toNat value.toUInt8 } address (n + 1) count
        (value >>> 8)

theorem toNat_add_toUInt64 {address : UInt64} {n : Nat} (h : address.toNat + n < 2 ^ 64) :
    (address + n.toUInt64).toNat = address.toNat + n := by
  have hn : n.toUInt64.toNat = n := UInt64.toNat_ofNat_of_lt' (Nat.lt_of_le_of_lt (Nat.le_add_left n _) h)
  rw [UInt64.toNat_add, hn, Nat.mod_eq_of_lt h]

/-- Below `2 ^ 64`, the bytes that are gathered stand for their number, behind the value so far. -/
theorem gather_eq (m : Memory) {address : UInt64} {n : Nat} (h : address.toNat + n < 2 ^ 64) (value : UInt64) :
    m.gather address n value = (value.toNat * 256 ^ n + numberAt m.byte address.toNat n).toUInt64 := by
  induction n generalizing value with
  | zero =>
    apply UInt64.toNat_inj.mp
    rw [gather, numberAt, Finset.range_zero, Finset.sum_empty, pow_zero, Nat.mul_one, Nat.add_zero]
    exact (UInt64.toNat_ofNat_of_lt' value.toNat_lt).symm
  | succ n ih =>
    rw [gather, ih (by omega), toNat_add_toUInt64 (by omega), toNat_shift_or, numberAt, numberAt,
      Finset.sum_range_succ]
    generalize (m.byte (address.toNat + n)).toNat = b
    generalize ∑ i ∈ Finset.range n, (m.byte (address.toNat + i)).toNat * 256 ^ i = low
    apply UInt64.toNat_inj.mp
    rw [Nat.toUInt64_eq, Nat.toUInt64_eq, UInt64.toNat_ofNat', UInt64.toNat_ofNat', Nat.add_mod, Nat.mul_mod,
      Nat.mod_mod, ← Nat.mul_mod, ← Nat.add_mod]
    congr 1
    ring

theorem scatter_eq (m : Memory) {address : UInt64} {n count : Nat} (h : address.toNat + n + count ≤ 2 ^ 64)
    (value : UInt64) :
    m.scatter address n count value = m.put (address.toNat + n) (littleEndian count value.toNat) := by
  induction count generalizing m n value with
  | zero => rfl
  | succ count ih =>
    have hshift : (value >>> 8).toNat = value.toNat / 256 := by
      rw [UInt64.toNat_shiftRight]
      exact Nat.shiftRight_eq_div_pow _ _
    have hlow : value.toUInt8 = (value.toNat % 256).toUInt8 := by
      apply UInt8.toNat_inj.mp
      rw [UInt64.toNat_toUInt8, Nat.toUInt8_eq, UInt8.toNat_ofNat']
      omega
    rw [scatter, ih _ (by omega), hshift, toNat_add_toUInt64 (by omega), littleEndian, put, hlow]
    rfl

/-- In a memory below `2 ^ 63` bytes, a load is what words of 64 bits compute, byte by byte. -/
theorem load_eq_word (hlimit : m.limit < 2 ^ 63) (address : UInt64) (size : Int64) :
    m.load address size.toInt =
      if fitsWord m.limit.toUInt64 address size then .ok (m.gather address size.toInt.toNat 0)
      else .error (.access ⟨.memory, address, size.toInt, m.limit⟩) := by
  rw [load, checkAccess_eq_word .memory hlimit]
  by_cases hfits : fitsWord m.limit.toUInt64 address size = true
  · obtain ⟨hpos, hend⟩ := (fitsWord_iff hlimit address size).mp hfits
    rw [if_pos hfits, if_pos hfits, ofLittleEndian_read_eq, gather_eq m (by omega)]
    simp
  · rw [if_neg hfits, if_neg hfits]

/-- In a memory below `2 ^ 63` bytes, a store is what words of 64 bits compute, byte by byte. -/
theorem store_eq_word (hlimit : m.limit < 2 ^ 63) (address : UInt64) (size : Int64) (value : UInt64) :
    m.store address size.toInt value =
      if fitsWord m.limit.toUInt64 address size then .ok (m.scatter address 0 size.toInt.toNat value)
      else .error (.access ⟨.memory, address, size.toInt, m.limit⟩) := by
  rw [store, checkAccess_eq_word .memory hlimit]
  by_cases hfits : fitsWord m.limit.toUInt64 address size = true
  · obtain ⟨hpos, hend⟩ := (fitsWord_iff hlimit address size).mp hfits
    rw [if_pos hfits, if_pos hfits, scatter_eq m (by omega)]
    rfl
  · rw [if_neg hfits, if_neg hfits]

/-! ## Accesses -/

/-- An access fits if and only if its end is not beyond the end of memory, as integers without bounds. A store
that fits changes the bytes of its range to those of the value and no others; a load is the sum of its bytes. So
a load of the same range finds the value, one of a range apart what was there before, and any other the
mixture. An access that does not fit is refused for its address, its size and the size of memory, and memory
stays as it was. -/
theorem access_exact (hsize : 0 ≤ m.size) (address : UInt64) (n : Nat) :
    ((address.toNat : Int) + n ≤ m.size →
      m.load address n = .ok (numberAt m.byte address.toNat n).toUInt64 ∧
      ∀ value, ∃ m', m.store address n value = .ok m' ∧ m'.size = m.size ∧
        (∀ i < n, m'.byte (address.toNat + i) = wordByte value i) ∧
        (∀ place, place < address.toNat ∨ address.toNat + n ≤ place → m'.byte place = m.byte place) ∧
        m'.load address n = .ok (value.toNat % 2 ^ (8 * n)).toUInt64 ∧
        (∀ (other : UInt64) (k : Nat), other.toNat + k ≤ address.toNat ∨ address.toNat + n ≤ other.toNat →
          m'.load other k = m.load other k) ∧
        ∀ (other : UInt64) (k : Nat), (other.toNat : Int) + k ≤ m.size →
          m'.load other k =
            .ok (numberAt (overlaid m.byte address.toNat n value) other.toNat k).toUInt64) ∧
    (m.size < (address.toNat : Int) + n →
      m.load address n = .error (.access ⟨.memory, address, n, m.size.toNat⟩) ∧
      ∀ value, m.store address n value = .error (.access ⟨.memory, address, n, m.size.toNat⟩) ∧
        ∀ s : Machine, s.memory = m →
          s.storeAt address n value = (s, some (.access ⟨.memory, address, n, m.size.toNat⟩)) ∧
          ∀ r, (s.loadInto r address n).1.memory = m) := by
  constructor
  · intro hfits
    refine ⟨by rw [load_eq hsize, if_pos hfits], fun value => ?_⟩
    -- the bytes after the store are `overlaid`, and the rest is read off that
    have hbyte := m.byte_stored address.toNat n value
    have hsize' : (m.put address.toNat (littleEndian n value.toNat)).size = m.size := m.size_put _ _
    generalize hput : m.put address.toNat (littleEndian n value.toNat) = m' at hbyte hsize'
    have hpos : 0 ≤ m'.size := by rw [hsize']; exact hsize
    refine ⟨m', by rw [store_eq hsize, if_pos hfits, hput], hsize', ?_, ?_, ?_, ?_, ?_⟩
    · intro i hi
      rw [hbyte, overlaid, if_pos ⟨Nat.le_add_right _ i, by omega⟩, Nat.add_sub_cancel_left]
    · intro place hplace
      rw [hbyte, overlaid, if_neg (by omega)]
    · rw [load_eq hpos, hsize', if_pos hfits, hbyte, numberAt_overlaid]
    · intro other k hapart
      have hsame : numberAt m'.byte other.toNat k = numberAt m.byte other.toNat k := by
        refine numberAt_congr fun i hi => ?_
        rw [hbyte, overlaid, if_neg (by omega)]
      rw [load_eq hpos, load_eq hsize, hsize', hsame]
    · intro other k hother
      rw [load_eq hpos, hsize', if_pos hother, hbyte]
  · intro hbeyond
    have hfits : ¬(address.toNat : Int) + n ≤ m.size := by omega
    have hload : m.load address n = .error (.access ⟨.memory, address, n, m.size.toNat⟩) := by
      rw [load_eq hsize, if_neg hfits]
    refine ⟨hload, fun value => ?_⟩
    have hstore : m.store address n value = .error (.access ⟨.memory, address, n, m.size.toNat⟩) := by
      rw [store_eq hsize, if_neg hfits]
    refine ⟨hstore, fun s hs => ⟨?_, fun r => ?_⟩⟩
    · rw [Machine.storeAt, hs, hstore]
    · rw [Machine.loadInto, hs, hload]
      exact hs

/-- A word stored behind and over other bytes, a load across its start, and an access whose end is beyond
`2 ^ 64`. -/
theorem access_exact_overlap :
    let m := (⟨12, ∅⟩ : Memory).put 0 [1, 2, 3, 4, 5, 6]
    (∃ m', m.store 4 8 0x1122334455667788 = .ok m' ∧ m'.load 4 8 = .ok 0x1122334455667788 ∧
      m'.load 2 4 = .ok 0x77880403 ∧ m'.load 0 4 = m.load 0 4) ∧
      m.load 0xfffffffffffffffc 8 = .error (.access ⟨.memory, 0xfffffffffffffffc, 8, 12⟩) := by
  intro m
  have hsize : 0 ≤ m.size := by decide
  obtain ⟨m', hstore, -, -, -, hsame, hapart, hmixed⟩ :=
    ((access_exact hsize 4 8).1 (by decide)).2 0x1122334455667788
  refine ⟨⟨m', hstore, ?_, ?_, hapart 0 4 (.inl (by decide))⟩, ?_⟩
  · exact hsame.trans (by decide +kernel)
  · exact (hmixed 2 4 (by decide)).trans (by decide +kernel)
  · exact ((access_exact hsize 0xfffffffffffffffc 8).2 (by decide)).1

end Memory

end WordMachine
