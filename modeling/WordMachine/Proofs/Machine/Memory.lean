import Mathlib
import WordMachine.Machine.Memory

/-!
# `Proofs.Machine.Memory` — bytes, numbers and strings in memory

Memory and image are seen byte by byte: what a block of bytes changes, the number that bytes stand for, and
the string that starts at a place.

Contents:
* `checkAccess_eq`: the bounds of an access as a sum of unbounded integers;
* `fitsWord`, `checkAccess_eq_word`: the same bounds in words of 64 bits;
* `littleEndian_eq`, `Memory.ofLittleEndian_read`: numbers as sums of bytes;
* `Memory.byte_put`, `Memory.store_eq_write`: the bytes after a block or a number was put;
* `zeroTerminated_eq`, `Image.string_eq`: strings up to the first zero byte.
-/

namespace WordMachine

/-! ## Bounds -/

/-- An access fits if and only if its end, computed without any wrap-around, is not beyond the limit: what is left
behind an address within the limit is a difference of naturals that does not stop at zero. -/
theorem checkAccess_eq (region : Region) (limit : Nat) (address : UInt64) (size : Int) :
    checkAccess region limit address size =
      if 0 ≤ size ∧ (address.toNat : Int) + size ≤ limit then .ok ()
      else .error (.access ⟨region, address, size, limit⟩) := by
  have hiff : (address.toNat ≤ limit ∧ 0 ≤ size ∧ size ≤ (limit - address.toNat : Nat)) ↔
      0 ≤ size ∧ (address.toNat : Int) + size ≤ limit := by
    omega
  rw [checkAccess]
  by_cases hfits : 0 ≤ size ∧ (address.toNat : Int) + size ≤ limit
  · rw [if_pos (hiff.mpr hfits), if_pos hfits]
  · rw [if_neg (fun h => hfits (hiff.mp h)), if_neg hfits]

/-- Whether an access fits, in words of 64 bits that wrap around; a negative size is a large word. -/
def fitsWord (limit address : UInt64) (size : Int64) : Bool :=
  !(decide (limit < address) || decide (limit - address < size.toUInt64))

/-- Below a limit of `2 ^ 63`, words tell what fits: nothing wraps around but a negative size. -/
theorem fitsWord_iff {limit : Nat} (hlimit : limit < 2 ^ 63) (address : UInt64) (size : Int64) :
    fitsWord limit.toUInt64 address size = true ↔
      0 ≤ size.toInt ∧ (address.toNat : Int) + size.toInt ≤ limit := by
  have hsize : size.toInt = if 2 * size.toUInt64.toNat < 2 ^ 64 then (size.toUInt64.toNat : Int)
      else size.toUInt64.toNat - (2 ^ 64 : Nat) := BitVec.toInt_eq_toNat_cond _
  have hword : limit.toUInt64.toNat = limit := UInt64.toNat_ofNat_of_lt' (Nat.lt_trans hlimit (by decide))
  have hlt : size.toUInt64.toNat < 2 ^ 64 := size.toUInt64.toNat_lt
  rw [fitsWord, Bool.not_eq_true', Bool.or_eq_false_iff, decide_eq_false_iff_not, decide_eq_false_iff_not,
    UInt64.lt_iff_toNat_lt, UInt64.lt_iff_toNat_lt, hword]
  by_cases hle : address.toNat ≤ limit
  · -- what is left behind the address is the same in words as in numbers
    have hleft : (limit.toUInt64 - address).toNat = limit - address.toNat := by
      rw [UInt64.toNat_sub_of_le _ _ (UInt64.le_iff_toNat_le.mpr (by rw [hword]; exact hle)), hword]
    rw [hleft, hsize]
    by_cases hpos : 2 * size.toUInt64.toNat < 2 ^ 64
    · rw [if_pos hpos]
      omega
    · rw [if_neg hpos]
      omega
  · constructor
    · rintro ⟨hnot, -⟩
      omega
    · rintro ⟨hpos, hfits⟩
      omega

/-- The same bounds are found in words, so no access fits by wrapping around. -/
theorem checkAccess_eq_word (region : Region) {limit : Nat} (hlimit : limit < 2 ^ 63) (address : UInt64)
    (size : Int64) : checkAccess region limit address size.toInt =
      if fitsWord limit.toUInt64 address size then .ok ()
      else .error (.access ⟨region, address, size.toInt, limit⟩) := by
  rw [checkAccess_eq]
  by_cases hfits : 0 ≤ size.toInt ∧ (address.toNat : Int) + size.toInt ≤ limit
  · rw [if_pos hfits, if_pos ((fitsWord_iff hlimit address size).mpr hfits)]
  · rw [if_neg hfits, if_neg (fun h => hfits ((fitsWord_iff hlimit address size).mp h))]

/-! ## Numbers -/

theorem littleEndian_eq (count n : Nat) :
    littleEndian count n = (List.range count).map fun i => (n / 256 ^ i).toUInt8 := by
  induction count generalizing n with
  | zero => rfl
  | succ count ih =>
    have hfirst : (n % 256).toUInt8 = (n / 256 ^ 0).toUInt8 := by
      rw [pow_zero, Nat.div_one]
      exact UInt8.ofNat_mod_size
    rw [littleEndian, ih, List.range_succ_eq_map, List.map_cons, List.map_map, hfirst]
    congr 1
    refine List.map_congr_left fun i _ => ?_
    rw [Function.comp_apply, Nat.div_div_eq_div_mul, Nat.pow_succ']

namespace Memory

theorem ofLittleEndian_read (m : Memory) (place count : Nat) :
    ofLittleEndian (m.read place count) =
      ((List.range count).map fun i => (m.byte (place + i)).toNat * 256 ^ i).sum := by
  induction count generalizing place with
  | zero => rfl
  | succ count ih =>
    have hrest : ((List.range count).map fun i => (m.byte (place + (i + 1))).toNat * 256 ^ (i + 1)).sum =
        256 * ((List.range count).map fun i => (m.byte (place + 1 + i)).toNat * 256 ^ i).sum := by
      rw [← List.sum_map_mul_left]
      refine congrArg List.sum (List.map_congr_left fun i _ => ?_)
      rw [Nat.add_assoc place 1 i, Nat.add_comm 1 i, pow_succ]
      ring
    rw [read, ofLittleEndian, ih, List.range_succ_eq_map, List.map_cons, List.sum_cons, List.map_map]
    show _ = _ + ((List.range count).map fun i => (m.byte (place + (i + 1))).toNat * 256 ^ (i + 1)).sum
    rw [hrest, pow_zero, Nat.mul_one, Nat.add_zero place]

/-! ## Blocks of bytes -/

theorem byte_insert (m : Memory) (place : Nat) (b : UInt8) (i : Nat) :
    ({ m with cells := m.cells.insert place b } : Memory).byte i = if i = place then b else m.byte i := by
  rw [byte, Std.TreeMap.getD_insert, byte]
  by_cases h : i = place
  · subst h
    simp
  · have hne : compare place i ≠ .eq := fun heq => h (Nat.compare_eq_eq.mp heq).symm
    rw [if_neg hne, if_neg h]

theorem size_put (m : Memory) (place : Nat) (data : Bytes) : (m.put place data).size = m.size := by
  induction data generalizing m place with
  | nil => rfl
  | cons b rest ih => rw [put, ih]

theorem limit_put (m : Memory) (place : Nat) (data : Bytes) : (m.put place data).limit = m.limit := by
  rw [limit, size_put, limit]

theorem size_of_write {m m' : Memory} {address : UInt64} {data : Bytes} (h : m.write address data = .ok m') :
    m'.size = m.size := by
  unfold write at h
  split at h
  · cases h
  · cases h
    exact size_put _ _ _

theorem size_of_store {m m' : Memory} {address value : UInt64} {size : Int}
    (h : m.store address size value = .ok m') : m'.size = m.size := by
  unfold store at h
  split at h
  · cases h
  · cases h
    exact size_put _ _ _

/-- The bytes after a block was put at a place. -/
theorem byte_put (m : Memory) (place : Nat) (data : Bytes) (i : Nat) :
    (m.put place data).byte i = if place ≤ i then data[i - place]?.getD (m.byte i) else m.byte i := by
  induction data generalizing m place with
  | nil => simp [put]
  | cons b rest ih =>
    rw [put, ih, byte_insert]
    rcases Nat.lt_trichotomy i place with hlt | rfl | hgt
    · rw [if_neg (by omega), if_neg (by omega), if_neg (by omega)]
    · rw [if_neg (by omega), if_pos rfl, if_pos (Nat.le_refl i), Nat.sub_self]
      rfl
    · have hsub : i - place = i - (place + 1) + 1 := by omega
      rw [if_pos (by omega), if_neg (by omega), if_pos (by omega), hsub, List.getElem?_cons_succ]

/-- Storing a number puts its bytes. -/
theorem store_eq_write (m : Memory) (address : UInt64) (size : Nat) (value : UInt64) :
    m.store address size value = m.write address (littleEndian size value.toNat) := by
  have hlength : (littleEndian size value.toNat).length = size := by
    rw [littleEndian_eq, List.length_map, List.length_range]
  rw [store, write, hlength, Int.toNat_natCast]

end Memory

/-! ## Strings -/

theorem zeroTerminated_eq {byteAt : Nat → UInt8} {rest : Bytes} {place : Nat}
    (h : ∀ i < rest.length, byteAt (place + i) = rest[i]?.getD 0) :
    zeroTerminated byteAt rest.length place =
      if 0 ∈ rest then some (rest.takeWhile (· != 0)) else none := by
  induction rest generalizing place with
  | nil => rfl
  | cons b rest ih =>
    have hfirst : byteAt place = b := h 0 (Nat.zero_lt_succ _)
    have hrest : ∀ i < rest.length, byteAt (place + 1 + i) = rest[i]?.getD 0 := by
      intro i hi
      have hnext := h (i + 1) (Nat.succ_lt_succ hi)
      rw [List.getElem?_cons_succ] at hnext
      rw [← hnext]
      congr 1
      omega
    rw [List.length_cons, zeroTerminated, hfirst, ih hrest]
    by_cases hb : b = 0
    · subst hb
      simp
    · have hmem : 0 ∈ b :: rest ↔ 0 ∈ rest := by simp [Ne.symm hb]
      rw [if_neg hb, List.takeWhile_cons_of_pos (by simpa using hb)]
      by_cases hzero : 0 ∈ rest
      · rw [if_pos hzero, if_pos (hmem.mpr hzero), Option.map_some]
      · rw [if_neg hzero, if_neg (fun h => hzero (hmem.mp h)), Option.map_none]

/-- The string at an address of an image ends before the first zero byte. -/
theorem Image.string_eq (image : Image) (address : UInt64) :
    image.string address =
      if 0 ∈ image.toList.drop address.toNat then .ok ((image.toList.drop address.toNat).takeWhile (· != 0))
      else .error (.access ⟨.image, address, (image.toList.drop address.toNat).length + 1, image.size⟩) := by
  have hlength : (image.toList.drop address.toNat).length = image.size - address.toNat := by
    rw [List.length_drop, Array.length_toList]
  have hstring := @zeroTerminated_eq (fun place => image[place]?.getD 0) (image.toList.drop address.toNat)
    address.toNat (fun i _ => by rw [List.getElem?_drop, Array.getElem?_toList])
  rw [hlength] at hstring
  rw [Image.string, regionString, checkAccess_eq, hlength]
  by_cases hle : address.toNat + 1 ≤ image.size
  · rw [if_pos ⟨by decide, by exact_mod_cast hle⟩]
    dsimp only
    rw [hstring]
    by_cases hzero : 0 ∈ image.toList.drop address.toNat
    · rw [if_pos hzero, if_pos hzero]
    · rw [if_neg hzero, if_neg hzero]
      dsimp only
      rw [Nat.cast_sub (by omega)]
  · have hnil : image.toList.drop address.toNat = [] := List.drop_eq_nil_of_le (by simpa using by omega)
    have hzero : image.size - address.toNat = 0 := by omega
    rw [if_neg (fun h => hle (by exact_mod_cast h.2)), hnil, hzero, if_neg (List.not_mem_nil)]
    rfl

end WordMachine
