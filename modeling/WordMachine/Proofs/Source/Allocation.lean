import Mathlib
import WordMachine.Proofs.Assembly.Resolution
import WordMachine.Proofs.Source.Assembles

/-!
# `Proofs.Source.Allocation` — where memory is set aside

A `memory` definition takes the next bytes: the address of each one is the sum of the sizes before it, kept
as a word of 64 bits. As long as the sum fits a word the ranges lie one after another. Once it does not, the
next memory that is not empty starts again at a low address, within a range that is taken already.

Contents:
* `Allocation`, `allocations`, `total`: the memory that sentences set aside;
* `Declarations.Reads.memory_iff`: the addresses that declaring finds;
* `exists_covering`, `exists_overlap`, `disjoint_of_fits`: sums of sizes with and without a carry;
* `Declarations.Apart`, `memory_apart_iff`.
-/

namespace WordMachine.Source

/-! ## Allocations -/

/-- Memory that is set aside under a name. -/
structure Allocation where
  name : Bytes
  size : UInt64
  deriving DecidableEq, Repr

/-- The memory that a sentence sets aside. -/
def Sentence.allocation? : Sentence → Option Allocation
  | .definition keyword size _ name =>
      if keyword.text = bytes "memory" then some ⟨name.text, size.value⟩ else none
  | _ => none

/-- The memory that sentences set aside, in order. -/
def allocations (ss : List Sentence) : List Allocation := ss.filterMap Sentence.allocation?

/-- The number of bytes set aside, however large. -/
def total (xs : List Allocation) : Nat := (xs.map (·.size.toNat)).sum

/-- The addresses of memory with a first address and a size. -/
def range (address : Nat) (size : UInt64) : Set Nat := Set.Ico address (address + size.toNat)

/-- Memory with different names has no address in common. -/
def Declarations.Apart (d : Declarations) : Prop :=
  ∀ (n n' : Bytes) (address address' size size' : UInt64), n ≠ n' →
    d.constants[n]? = some (.memory address size) → d.constants[n']? = some (.memory address' size') →
    Disjoint (range address.toNat size) (range address'.toNat size')

@[simp] theorem total_nil : total [] = 0 := rfl

@[simp] theorem total_cons (a : Allocation) (xs : List Allocation) : total (a :: xs) = a.size.toNat + total xs := rfl

@[simp] theorem total_append (xs ys : List Allocation) : total (xs ++ ys) = total xs + total ys := by
  simp [total]

theorem allocations_memory {keyword size const name : Token} (h : keyword.text = bytes "memory")
    (ss : List Sentence) :
    allocations (.definition keyword size const name :: ss) = ⟨name.text, size.value⟩ :: allocations ss := by
  rw [allocations, List.filterMap_cons_some]
  · rfl
  · simp [Sentence.allocation?, h]

theorem allocations_value {keyword value const name : Token} (h : keyword.text ≠ bytes "memory")
    (ss : List Sentence) : allocations (.definition keyword value const name :: ss) = allocations ss := by
  rw [allocations, List.filterMap_cons_none]
  · rfl
  · simp [Sentence.allocation?, h]

/-! ## Addresses -/

namespace Declarations

variable {d d' : Declarations} {ss : List Sentence}

/-- The constants that hold memory are those known before and those that the sentences set aside, each
where the sentences before it end. -/
theorem Reads.memory_iff (h : d.Reads ss d') {n : Bytes} {address size : UInt64} :
    d'.constants[n]? = some (.memory address size) ↔
      d.constants[n]? = some (.memory address size) ∨
        ∃ before after, allocations ss = before ++ ⟨n, size⟩ :: after ∧
          address.toNat = (d.memory.toNat + total before) % 2 ^ 64 := by
  induction h with
  | nil => simp [allocations]
  | method step _ ih =>
    obtain ⟨-, -, -, rfl⟩ := of_addMethod step
    exact ih
  | @value d next d' keyword value const name ss sound keyword_ne step _ ih =>
    obtain ⟨c, hc, -, -, hfree, rfl⟩ := of_addLet step
    rw [ih, allocations_value keyword_ne, getElem?_insert]
    -- a value is no memory, so the new name holds none
    have hne : c ≠ .memory address size := by
      rintro rfl
      rcases Constant.ofToken?_cases sound hc with ⟨-, h⟩ | ⟨-, h⟩ | ⟨-, h⟩
      · cases h
      · cases h
      · cases h
    have hother : d.constants[n]? = some (.memory address size) → name.text ≠ n := by
      rintro hn rfl
      rw [hfree] at hn
      cases hn
    refine or_congr_left ⟨?_, fun hn => Or.inr ⟨hother hn, hn⟩⟩
    rintro (⟨-, heq⟩ | ⟨-, hn⟩)
    · exact absurd heq hne
    · exact hn
  | @memory d next d' keyword size' const name ss sound keyword_eq step _ ih =>
    obtain ⟨-, -, -, hfree, rfl⟩ := of_addMemory step
    rw [ih, allocations_memory keyword_eq, getElem?_insert]
    have hnext (k : Nat) : ((d.memory + size'.value).toNat + k) % 2 ^ 64 =
        (d.memory.toNat + (size'.value.toNat + k)) % 2 ^ 64 := by
      rw [UInt64.toNat_add]
      omega
    constructor
    · rintro ((⟨rfl, heq⟩ | ⟨-, hn⟩) | ⟨before, after, hsplit, haddress⟩)
      · cases heq
        refine Or.inr ⟨[], allocations ss, rfl, ?_⟩
        exact (Nat.mod_eq_of_lt d.memory.toNat_lt).symm
      · exact Or.inl hn
      · refine Or.inr ⟨⟨name.text, size'.value⟩ :: before, after, by rw [hsplit]; rfl, ?_⟩
        rw [haddress, hnext, total_cons]
    · rintro (hn | ⟨before, after, hsplit, haddress⟩)
      · refine Or.inl (Or.inr ⟨?_, hn⟩)
        rintro rfl
        rw [hfree] at hn
        cases hn
      · cases before with
        | nil =>
          cases hsplit
          refine Or.inl (Or.inl ⟨rfl, ?_⟩)
          rw [total_nil, Nat.add_zero, Nat.mod_eq_of_lt d.memory.toNat_lt] at haddress
          rw [UInt64.toNat_inj.mp haddress]
        | cons a before =>
          obtain ⟨rfl, hrest⟩ := List.cons.inj hsplit
          refine Or.inr ⟨before, after, hrest, ?_⟩
          rw [haddress, hnext, total_cons]
  | statement _ ih => exact ih

/-- No name is given to memory twice. -/
theorem Reads.nodup_allocations (h : d.Reads ss d') :
    ((allocations ss).map Allocation.name).Nodup ∧ ∀ a ∈ allocations ss, d.constants[a.name]? = none := by
  induction h with
  | nil => simp [allocations]
  | method step _ ih =>
    obtain ⟨-, -, -, rfl⟩ := of_addMethod step
    exact ih
  | value _ keyword_ne step _ ih =>
    obtain ⟨c, -, -, -, hfree, rfl⟩ := of_addLet step
    rw [allocations_value keyword_ne]
    refine ⟨ih.1, fun a ha => ?_⟩
    have hnone := ih.2 a ha
    simp only [Std.TreeMap.getElem?_insert] at hnone
    split at hnone
    · cases hnone
    · exact hnone
  | @memory d next d' keyword size' const name ss _ keyword_eq step _ ih =>
    obtain ⟨-, -, -, hfree, rfl⟩ := of_addMemory step
    rw [allocations_memory keyword_eq, List.map_cons, List.nodup_cons, List.forall_mem_cons]
    have hnone (a : Allocation) (ha : a ∈ allocations ss) : name.text ≠ a.name ∧ d.constants[a.name]? = none := by
      have hnone := ih.2 a ha
      simp only [Std.TreeMap.getElem?_insert] at hnone
      split at hnone
      · cases hnone
      next hne => exact ⟨by simpa using hne, hnone⟩
    refine ⟨⟨fun hmem => ?_, ih.1⟩, hfree, fun a ha => (hnone a ha).2⟩
    obtain ⟨a, ha, heq⟩ := List.mem_map.mp hmem
    exact (hnone a ha).1 heq.symm
  | statement _ ih => exact ih

end Declarations

/-! ## Sums of sizes -/

/-- A number below the sum of the sizes lies in the part of one allocation. -/
theorem exists_covering {xs : List Allocation} {k : Nat} (h : k < total xs) :
    ∃ (before : List Allocation) (a : Allocation) (after : List Allocation), xs = before ++ a :: after ∧
      total before ≤ k ∧ k < total before + a.size.toNat := by
  induction xs generalizing k with
  | nil => exact absurd h (Nat.not_lt_zero k)
  | cons a xs ih =>
    by_cases hk : k < a.size.toNat
    · exact ⟨[], a, xs, rfl, Nat.zero_le k, by simpa using hk⟩
    · rw [total_cons] at h
      obtain ⟨before, b, after, rfl, hle, hlt⟩ := ih (show k - a.size.toNat < total xs by omega)
      refine ⟨a :: before, b, after, rfl, ?_, ?_⟩
      · rw [total_cons]
        omega
      · rw [total_cons]
        omega

/-- Memory that is set aside after the sum no longer fits a word overlaps memory set aside before. -/
theorem exists_overlap {before : List Allocation} {b : Allocation} (after : List Allocation) (hb : 0 < b.size)
    (hlarge : 2 ^ 64 ≤ total before) :
    ∃ (xs : List Allocation) (a : Allocation) (ys : List Allocation) (c : Allocation) (zs : List Allocation),
      before ++ b :: after = xs ++ a :: (ys ++ c :: zs) ∧
      ¬Disjoint (range (total xs % 2 ^ 64) a.size) (range (total (xs ++ a :: ys) % 2 ^ 64) c.size) := by
  -- the sum passes the end at `w`, and `c` is the next memory that is not empty
  obtain ⟨low, w, mid, rfl, hlow, hcarry⟩ := exists_covering (show 2 ^ 64 - 1 < total before by omega)
  have hpositive : 0 < total (mid ++ [b]) := by
    have hsize : 0 < b.size.toNat := hb
    simp only [total_append, total_cons]
    omega
  obtain ⟨empty, c, rest, hmid, hempty, hc⟩ := exists_covering hpositive
  have hw := w.size.toNat_lt
  -- so `c` starts below the place where `w` started
  have hstart : total (low ++ w :: empty) % 2 ^ 64 = total low + w.size.toNat - 2 ^ 64 := by
    rw [total_append, total_cons]
    omega
  obtain ⟨xs, a, ys, rfl, hle, hlt⟩ :=
    exists_covering (show total low + w.size.toNat - 2 ^ 64 < total low by omega)
  refine ⟨xs, a, ys ++ w :: empty, c, rest ++ after, ?_, ?_⟩
  · have hsplit : mid ++ b :: after = empty ++ c :: (rest ++ after) := by
      rw [List.append_cons, hmid]
      simp
    simp [hsplit]
  · rw [← List.cons_append, ← List.append_assoc, hstart, Set.not_disjoint_iff]
    refine ⟨_, ⟨?_, ?_⟩, Nat.le_refl _, ?_⟩
    · rw [Nat.mod_eq_of_lt (by omega)]
      exact hle
    · rw [Nat.mod_eq_of_lt (by omega)]
      exact hlt
    · omega

/-- Memory that starts below the largest word lies after all memory set aside before it. -/
theorem disjoint_of_fits {xs ys : List Allocation} {a b : Allocation}
    (hb : 0 < b.size → total (xs ++ a :: ys) < 2 ^ 64) :
    Disjoint (range (total xs % 2 ^ 64) a.size) (range (total (xs ++ a :: ys) % 2 ^ 64) b.size) := by
  refine Set.disjoint_left.mpr fun k hk hk' => ?_
  have hpositive : 0 < b.size := by
    rw [UInt64.lt_iff_toNat_lt]
    have := hk'.1
    have := hk'.2
    simp only [UInt64.toNat_zero]
    omega
  have hfits := hb hpositive
  have hend := hk.2
  have hstart := hk'.1
  rw [Nat.mod_eq_of_lt hfits] at hstart
  rw [total_append, total_cons] at hfits hstart
  rw [Nat.mod_eq_of_lt (by omega)] at hend
  omega

/-! ## Whole programs -/

/-- Memory is set aside in the order of its definitions, and names are kept apart if and only if the sum of
the sizes before each memory that is not empty fits a word of 64 bits. -/
theorem memory_apart_iff {library? : Option Library} {text : Bytes} {c : Compiled}
    (h : compile library? text = .ok c) :
    ∃ source ts, Expands library? text source ∧ lex source = .ok ts ∧
      (∀ n address size, c.declarations.constants[n]? = some (.memory address size) ↔
        ∃ before after, allocations (sentences ts) = before ++ ⟨n, size⟩ :: after ∧
          address.toNat = total before % 2 ^ 64) ∧
      (c.declarations.Apart ↔
        ∀ before a after, allocations (sentences ts) = before ++ a :: after → 0 < a.size →
          total before < 2 ^ 64) := by
  obtain ⟨source, ts, hexpands, hlex, hgenerate⟩ := of_compile h
  have hsound := sound_of_lex hlex
  obtain ⟨g, hdeclare, hwrites, -⟩ := writes_of_generate hsound hgenerate
  have hreads := reads_of_declare hsound hwrites.proper hdeclare
  have hmemory (n : Bytes) (address size : UInt64) :
      c.declarations.constants[n]? = some (.memory address size) ↔
        ∃ before after, allocations (sentences ts) = before ++ ⟨n, size⟩ :: after ∧
          address.toNat = total before % 2 ^ 64 := by
    rw [hreads.memory_iff]
    simp
  refine ⟨source, ts, hexpands, hlex, hmemory, ?_, ?_⟩
  · -- a sum that does not fit wraps around, and two of the ranges meet
    intro hapart before b after hsplit hb
    by_contra hlarge
    obtain ⟨xs, a, ys, c', zs, heq, hoverlap⟩ := exists_overlap after hb (Nat.le_of_not_lt hlarge)
    rw [heq] at hsplit
    have hname : a.name ≠ c'.name := by
      have hnodup := hreads.nodup_allocations.1
      rw [hsplit] at hnodup
      simp only [List.map_append, List.map_cons, List.nodup_append, List.nodup_cons] at hnodup
      intro heq'
      exact hnodup.2.1.1 (by simp [heq'])
    have hfirst := (hmemory a.name (UInt64.ofNat (total xs)) a.size).mpr ⟨xs, _, hsplit, UInt64.toNat_ofNat'⟩
    have hsecond := (hmemory c'.name (UInt64.ofNat (total (xs ++ a :: ys))) c'.size).mpr
      ⟨xs ++ a :: ys, zs, by rw [hsplit]; simp, UInt64.toNat_ofNat'⟩
    have hdisjoint := hapart _ _ _ _ _ _ hname hfirst hsecond
    rw [UInt64.toNat_ofNat', UInt64.toNat_ofNat'] at hdisjoint
    exact hoverlap hdisjoint
  · -- of two memories one comes first, and its range ends before the other starts
    intro hfits n n' address address' size size' hne hn hn'
    obtain ⟨before, after, hsplit, haddress⟩ := (hmemory n address size).mp hn
    obtain ⟨before', after', hsplit', haddress'⟩ := (hmemory n' address' size').mp hn'
    rw [haddress, haddress']
    rcases Assembly.eq_or_before (hsplit.symm.trans hsplit') with heq | ⟨mid, rfl⟩ | ⟨mid, rfl⟩
    · cases heq
      exact absurd rfl hne
    · exact disjoint_of_fits (b := ⟨n', size'⟩) (hfits _ _ _ hsplit')
    · exact (disjoint_of_fits (b := ⟨n, size⟩) (hfits _ _ _ hsplit)).symm

/-- Sizes that add up to the largest sum, with empty memory at its end. -/
theorem memory_apart_iff_full :
    ∃ c, compile none
        (bytes "memory -16 const a memory 16 const b memory 0 const c method main \x7b \x7d") = .ok c ∧
      c.declarations.Apart := by
  have hlexed : (lex (bytes "memory -16 const a memory 16 const b memory 0 const c method main \x7b \x7d")).toOption.map
      (fun ts => allocations (sentences ts)) =
        some [⟨bytes "a", 18446744073709551600⟩, ⟨bytes "b", 16⟩, ⟨bytes "c", 0⟩] := by
    decide +kernel
  have hcompiled : (compile none
      (bytes "memory -16 const a memory 16 const b memory 0 const c method main \x7b \x7d")).toOption.isSome =
        true := by
    decide +kernel
  obtain ⟨c, hcompile⟩ := Option.isSome_iff_exists.mp hcompiled
  replace hcompile := eq_ok_of_toOption hcompile
  obtain ⟨source, ts, rfl, hlex, -, hapart⟩ := memory_apart_iff hcompile
  rw [hlex] at hlexed
  have hallocations : allocations (sentences ts) = _ := Option.some.inj hlexed
  refine ⟨c, hcompile, hapart.mpr ?_⟩
  intro before a after hsplit hpositive
  rw [hallocations] at hsplit
  rcases before with _ | ⟨x, _ | ⟨y, _ | ⟨z, before⟩⟩⟩
  · decide
  · cases hsplit
    decide
  · cases hsplit
    exact absurd hpositive (by decide)
  · simp at hsplit

/-- A negative size moves the next memory back into memory that is taken. -/
theorem not_forall_apart :
    ¬∀ (library? : Option Library) (text : Bytes) (c : Compiled), compile library? text = .ok c →
      c.declarations.Apart := by
  intro hall
  have hfound : ((compile none
      (bytes "memory 16 const a memory -8 const b memory 8 const c method main \x7b \x7d")).toOption.map fun c =>
        (c.declarations.constants[bytes "a"]?, c.declarations.constants[bytes "c"]?)) =
        some (some (.memory 0 16), some (.memory 8 8)) := by
    decide +kernel
  obtain ⟨c, hcompile, hfound⟩ := Option.map_eq_some_iff.mp hfound
  obtain ⟨hfirst, hsecond⟩ := Prod.mk.inj hfound
  have hdisjoint := hall none _ c (eq_ok_of_toOption hcompile) _ _ _ _ _ _ (by decide) hfirst hsecond
  have hmem : 8 ∈ range (0 : UInt64).toNat 16 := ⟨by decide, by decide⟩
  exact Set.disjoint_left.mp hdisjoint hmem ⟨by decide, by decide⟩

end WordMachine.Source
