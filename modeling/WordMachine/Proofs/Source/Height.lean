import Mathlib
import WordMachine.Proofs.Source.Control
import WordMachine.Proofs.Source.Structure

/-!
# `Proofs.Source.Height` — how many operands there are at a place

The pushes and pops of a region of code tell how many operands there are at each of its places, above those
that were there when the region was entered at its start. That holds in every run if no call of the host or
of a method is in the region, and if each branch into it comes from within it, from a place of the same
height: whichever way a machine comes to a place of the region, it has at least that many operands.

Contents:
* `Operation.adjust`, `Machine.perform_height`: what an operation does to the number of operands;
* `height`: the number of operands after lines; `height_of_span_eq_zero`;
* `prefix_of_span`, `eq_of_span`: a place tells the instruction at it;
* `Guarded`: a region entered at its start only; `Guarded.height_next`, `Guarded.height_label`;
* `Deep`, `Deep.tick`, `deep_of_reaches`: the number of operands along a run;
* `pop_ne_stackEmpty`.
-/

namespace WordMachine

/-! ## Operations -/

/-- What an operation does to the number of operands, calls of the host apart. -/
def Operation.adjust : Operation → Nat → Nat
  | .push, n => n + 1
  | .pop, n => n - 1
  | _, n => n

/-- The operations that call the host, which may pop any number of operands. -/
def Operation.isHost : Operation → Bool
  | .sys | .call => true
  | _ => false

theorem Operation.adjust_mono (op : Operation) {n k : Nat} (h : n ≤ k) : op.adjust n ≤ op.adjust k := by
  cases op with
  | push => exact Nat.succ_le_succ h
  | pop => exact Nat.sub_le_sub_right h 1
  | _ => exact h

theorem Operation.adjust_of_isBranch {op : Operation} (h : op.isBranch = true) (n : Nat) : op.adjust n = n := by
  cases op with
  | push | pop => cases h
  | _ => rfl

theorem Operation.quiet_of_registers {op : Operation} (h : op.operands = [.register, .register]) :
    (∀ n, op.adjust n = n) ∧ op.isHost = false ∧ op ≠ .jsr ∧ op ≠ .pop := by
  cases op with
  | push | pop | sys | call | jsr => cases h
  | _ => exact ⟨fun _ => rfl, rfl, by rintro ⟨⟩, by rintro ⟨⟩⟩

theorem Operation.quiet_of_isBranch {op : Operation} (h : op.isBranch = true) :
    op.isHost = false ∧ op ≠ .jsr ∧ op ≠ .pop := by
  cases op with
  | push | pop | sys | call | jsr => cases h
  | _ => exact ⟨rfl, by rintro ⟨⟩, by rintro ⟨⟩⟩

namespace Machine

variable {m : Machine}

theorem operands_andThen (r : Machine × Option Fault) (next : Int) :
    (andThen r next).1.operands = r.1.operands := by
  obtain ⟨m, fault?⟩ := r
  cases fault? <;> rfl

theorem operands_loadInto (r : Register) (address : UInt64) (size : Int) :
    (m.loadInto r address size).1.operands = m.operands := by
  unfold loadInto
  split <;> rfl

theorem operands_storeAt (address : UInt64) (size : Int) (value : UInt64) :
    (m.storeAt address size value).1.operands = m.operands := by
  unfold storeAt
  split <;> rfl

theorem operands_compareStrings (string : UInt64 → Except Fault Bytes) (a b : UInt64) :
    (m.compareStrings string a b).1.operands = m.operands := by
  unfold compareStrings
  split
  · rfl
  · split <;> rfl

theorem operands_copyString (source target : UInt64) : (m.copyString source target).1.operands = m.operands := by
  unfold copyString
  split
  · rfl
  · unfold writeMemory
    split <;> rfl

/-- An operation adjusts the number of operands if it succeeds, and leaves it if it does not. -/
theorem perform_height {op : Operation} (hop : op.isHost = false) (dst src : Register) (imm : UInt64) (next : Int) :
    ((m.perform op dst src imm next).2 = none →
      op.adjust m.operands.items.length ≤ (m.perform op dst src imm next).1.operands.items.length) ∧
    ((m.perform op dst src imm next).2 ≠ none → (m.perform op dst src imm next).1.operands = m.operands) := by
  -- only `push` and `pop` use the stack of operands
  have hsame (h : (m.perform op dst src imm next).1.operands = m.operands) (hid : ∀ n, op.adjust n = n) :
      ((m.perform op dst src imm next).2 = none →
        op.adjust m.operands.items.length ≤ (m.perform op dst src imm next).1.operands.items.length) ∧
      ((m.perform op dst src imm next).2 ≠ none → (m.perform op dst src imm next).1.operands = m.operands) := by
    rw [h, hid]
    exact ⟨fun _ => Nat.le_refl _, fun _ => rfl⟩
  cases op with
  | push =>
    simp only [perform]
    split
    · exact ⟨fun h => (Option.some_ne_none _ h).elim, fun _ => rfl⟩
    next operands hpush =>
      refine ⟨fun _ => ?_, fun h => absurd rfl h⟩
      obtain ⟨-, hitems, -⟩ := Stack.of_push hpush
      show m.operands.items.length + 1 ≤ operands.items.length
      rw [hitems, List.length_cons]
  | pop =>
    simp only [perform]
    split
    · exact ⟨fun h => (Option.some_ne_none _ h).elim, fun _ => rfl⟩
    next value operands hpop =>
      refine ⟨fun _ => ?_, fun h => absurd rfl h⟩
      obtain ⟨hitems, -⟩ := Stack.of_pop hpop
      show m.operands.items.length - 1 ≤ operands.items.length
      rw [hitems, List.length_cons, Nat.add_sub_cancel]
  | sys | call => cases hop
  | ldr | indl | lei | lst | ltt | lsf =>
    refine hsame ?_ fun _ => rfl
    exact (operands_andThen _ _).trans (operands_loadInto _ _ _)
  | str | inds | sei | sst | stt | ssf =>
    refine hsame ?_ fun _ => rfl
    exact (operands_andThen _ _).trans (operands_storeAt _ _ _)
  | bufc =>
    refine hsame ?_ fun _ => rfl
    exact (operands_andThen _ _).trans (operands_copyString _ _)
  | bseq | lseq =>
    refine hsame ?_ fun _ => rfl
    exact (operands_andThen _ _).trans (operands_compareStrings _ _ _)
  | idiv =>
    refine hsame ?_ fun _ => rfl
    simp only [perform]
    split <;> rfl
  | jsr =>
    refine hsame ?_ fun _ => rfl
    simp only [perform, jumpSubroutine]
    split <;> rfl
  | ret =>
    refine hsame ?_ fun _ => rfl
    simp only [perform, returnSubroutine]
    split <;> rfl
  | _ => exact hsame rfl fun _ => rfl

end Machine

namespace Source

/-! ## Heights -/

/-- What a line does to the number of operands. -/
def Line.adjust : Line → Nat → Nat
  | .code op _, n => op.adjust n
  | _, n => n

/-- The number of operands after lines, given the number before them. -/
def height (n : Nat) (ls : List Line) : Nat := ls.foldl (fun n l => l.adjust n) n

@[simp] theorem height_nil (n : Nat) : height n [] = n := rfl

@[simp] theorem height_cons (n : Nat) (l : Line) (ls : List Line) : height n (l :: ls) = height (l.adjust n) ls := rfl

@[simp] theorem height_append (n : Nat) (xs ys : List Line) : height n (xs ++ ys) = height (height n xs) ys :=
  List.foldl_append

theorem Line.size_code_pos (op : Operation) (args : List Argument) : 0 < (Line.code op args).size := by
  rw [Line.size, Opcode.width]
  omega

/-- Lines without code change nothing. -/
theorem height_of_span_eq_zero {ls : List Line} (h : span ls = 0) (n : Nat) : height n ls = n := by
  induction ls generalizing n with
  | nil => rfl
  | cons l ls ih =>
    rw [span_cons] at h
    rw [height_cons, ih (by omega)]
    cases l with
    | code op args =>
      have hpos := Line.size_code_pos op args
      omega
    | _ => rfl

/-! ## Places and lines -/

section

variable {ls xs ys before after before' after' : List Line} {op op' : Operation} {args args' : List Argument}

/-- What ends at the place of an instruction ends there in the listing, up to lines without code. -/
theorem prefix_of_span (h : ls = xs ++ ys) (h' : ls = before ++ .code op args :: after)
    (hspan : span xs = span before) : ∃ mid, before = xs ++ mid ∧ span mid = 0 := by
  rcases List.append_eq_append_iff.mp (h.symm.trans h') with ⟨mid, hbefore, -⟩ | ⟨mid, hxs, hcode⟩
  · refine ⟨mid, hbefore, ?_⟩
    rw [hbefore, span_append] at hspan
    omega
  · cases mid with
    | nil => exact ⟨[], by simpa using hxs.symm, rfl⟩
    | cons l mid =>
      obtain ⟨rfl, -⟩ := List.cons.inj hcode
      have hpos := Line.size_code_pos op args
      rw [hxs, span_append, span_cons] at hspan
      omega

/-- Two instructions at one place are the same. -/
theorem eq_of_span (h : ls = before ++ .code op args :: after) (h' : ls = before' ++ .code op' args' :: after')
    (hspan : span before = span before') : before = before' ∧ op = op' ∧ args = args' := by
  obtain ⟨mid, rfl, hmid⟩ := prefix_of_span h h' hspan
  rw [h, List.append_assoc] at h'
  have hrest := List.append_cancel_left h'
  cases mid with
  | nil =>
    obtain ⟨rfl, rfl⟩ := Line.code.inj (List.cons.inj hrest).1
    exact ⟨by simp, rfl, rfl⟩
  | cons l mid =>
    obtain ⟨rfl, -⟩ := List.cons.inj hrest
    have hpos := Line.size_code_pos op args
    rw [span_cons] at hmid
    omega

end

/-! ## Regions -/

/-- A region of a listing, after the lines before it, that calls neither the host nor a method, and whose labels
are named only from places of the same height within it. -/
structure Guarded (ls before region : List Line) : Prop where
  lines : ∃ after, ls = before ++ region ++ after
  plain {us vs : List Line} {op : Operation} {args : List Argument} :
    region = us ++ .code op args :: vs → op.isHost = false ∧ op ≠ .jsr
  targets {done rest xs ys : List Line} {op : Operation} {args : List Argument} {line : Line} {l : Label} :
    ls = done ++ .code op args :: rest → .label l ∈ args → region = xs ++ line :: ys → line.label? = some l →
      ∃ us vs, region = us ++ .code op args :: vs ∧ done = before ++ us ∧ height 0 us = height 0 xs

namespace Guarded

variable {ls before region done rest xs ys : List Line} {op op' : Operation} {args args' : List Argument}

/-- The listing around an instruction of a region. -/
theorem split (h : Guarded ls before region) (hregion : region = done ++ .code op args :: rest) :
    ∃ after, ls = (before ++ done) ++ .code op args :: after := by
  obtain ⟨after, hls⟩ := h.lines
  refine ⟨rest ++ after, ?_⟩
  rw [hls, hregion]
  simp

/-- A place of a region after another instruction: the start of the region, or that instruction is in it. -/
theorem height_next (h : Guarded ls before region) (hls : ls = xs ++ .code op args :: ys)
    (hregion : region = done ++ .code op' args' :: rest)
    (hspan : span (xs ++ [Line.code op args]) = span (before ++ done)) :
    height 0 done = 0 ∨ ∃ us vs, region = us ++ .code op args :: vs ∧ xs = before ++ us ∧
      height 0 done = op.adjust (height 0 us) := by
  obtain ⟨after, hsplit⟩ := h.split hregion
  obtain ⟨mid, hmid, hzero⟩ := prefix_of_span (hls.trans (List.append_cons _ _ _)) hsplit hspan
  rw [← List.append_cons] at hmid
  rcases split_of_append_eq hmid with ⟨mid', -, rfl⟩ | ⟨us, rfl, rfl⟩
  · left
    rw [span_append] at hzero
    exact height_of_span_eq_zero (by omega) 0
  · refine Or.inr ⟨us, mid ++ .code op' args' :: rest, by rw [hregion]; simp, rfl, ?_⟩
    rw [height_append, height_cons, height_of_span_eq_zero hzero]
    rfl

/-- A place of a region where a label stands that an instruction names: the start of the region, or that
instruction is in it, at the same height. -/
theorem height_label (h : Guarded ls before region) (hls : ls = xs ++ .code op args :: ys) {l : Label}
    (hl : .label l ∈ args) {line : Line} {xs' ys' : List Line} (hline : ls = xs' ++ line :: ys')
    (hlabel : line.label? = some l) (hregion : region = done ++ .code op' args' :: rest)
    (hspan : span xs' = span (before ++ done)) :
    height 0 done = 0 ∨ ∃ us vs, region = us ++ .code op args :: vs ∧ xs = before ++ us ∧
      height 0 done = height 0 us := by
  obtain ⟨after, hsplit⟩ := h.split hregion
  obtain ⟨mid, hmid, hzero⟩ := prefix_of_span hline hsplit hspan
  cases mid with
  | nil =>
    -- the instruction at the place would be the line with the label
    rw [List.append_nil] at hmid
    rw [hline, hmid] at hsplit
    obtain ⟨rfl, -⟩ := List.cons.inj (List.append_cancel_left hsplit)
    cases hlabel
  | cons line' mid =>
    obtain rfl : line' = line := by
      rw [hline, hmid, List.append_assoc] at hsplit
      exact (List.cons.inj (List.append_cancel_left hsplit)).1.symm
    rcases split_of_append_eq hmid with ⟨mid', -, rfl⟩ | ⟨us, rfl, rfl⟩
    · left
      rw [span_cons, span_append] at hzero
      exact height_of_span_eq_zero (by omega) 0
    · have hregion' : region = us ++ line' :: (mid ++ .code op' args' :: rest) := by
        rw [hregion]
        simp
      obtain ⟨us', vs', hcode, hxs, hheight⟩ := h.targets hls hl hregion' hlabel
      refine Or.inr ⟨us', vs', hcode, hxs, ?_⟩
      rw [height_append, height_of_span_eq_zero hzero, hheight]

end Guarded

/-! ## Runs -/

/-- A branch and a call have one operand, a label that the program defines. -/
theorem Compiled.Arranged.label_of_target {c : Compiled} {ms : List Method} (h : c.Arranged ms) {op : Operation}
    {args : List Argument} (hmem : .code op args ∈ c.lines) (hop : op.isBranch = true ∨ op = .jsr) :
    ∃ l, args = [.label l] ∧ l ∈ labels c.lines := by
  have hlabel : ∃ l, args = [.label l] := by
    have hoperands : op.operands = [.imm32] ∧ op ≠ .adr := by
      rcases hop with hbranch | rfl
      · exact ⟨Operation.operands_of_isBranch hbranch, by rintro rfl; cases hbranch⟩
      · exact ⟨rfl, by rintro ⟨⟩⟩
    cases h.origin hmem with
    | jump => exact ⟨_, rfl⟩
    | body hm hbody =>
      obtain ⟨l, rfl, -⟩ := h.args_of_target hm (List.mem_append_left _ hbody) hoperands.1 hoperands.2
      exact ⟨l, rfl⟩
    | ret => cases hoperands.1
    | trailing htrailing =>
      cases htrailing with
      | main => exact ⟨_, rfl⟩
      | halt => cases hoperands.1
  obtain ⟨l, rfl⟩ := hlabel
  refine ⟨l, rfl, h.mem_labels_of_mem_targets ?_⟩
  exact List.mem_flatMap.mpr ⟨_, hmem, List.mem_cons_self⟩

/-- A machine has the operands that its place in a region tells, and its return places come after calls. -/
structure Deep (ls before region : List Line) (s : Machine) : Prop where
  depth {done rest : List Line} {op : Operation} {args : List Argument} :
    region = done ++ .code op args :: rest → s.pc = span (before ++ done) →
      height 0 done ≤ s.operands.items.length
  returns {r : UInt32} : r ∈ s.returns.items → ∃ xs args ys, ls = xs ++ .code .jsr args :: ys ∧
    r.toNat = span (xs ++ [.code .jsr args])

section

variable {c : Compiled} {ms : List Method} {image : Image} {place : Label → UInt64} {k k' : Label} {s : Machine}
  {before region : List Line}

theorem deep_load (m : Machine) : Deep c.lines before region (m.load image) where
  depth := by
    intro done rest op args _ hpc
    -- the first place of the image is at or before the start of the region
    have hzero : span (before ++ done) = 0 := (Int.natCast_inj.mp hpc).symm
    rw [span_append] at hzero
    rw [height_of_span_eq_zero (by omega)]
    exact Nat.zero_le _
  returns := by
    intro r hr
    cases hr

/-- Where an operation of a running machine leads, the machine has the operands it should have: `len` are those
before the operation, `len'` those after it. -/
theorem Deep.depth_of_flows (h : c.Arranged ms) (hl : Linked image place c.lines)
    (hguarded : Guarded c.lines before region) (hdeep : Deep c.lines before region s)
    {xs ys : List Line} {op : Operation} {args : List Argument} (hlines : c.lines = xs ++ .code op args :: ys)
    (hpc : s.pc = span xs) {pc : Int} {returns : List UInt32} {len' : Nat}
    (hflows : Machine.Flows (span (xs ++ [Line.code op args])) (immediate place args).toInt64.toInt op
      s.returns.items pc returns)
    (hlen : op.isHost = false → op.adjust s.operands.items.length ≤ len')
    {done rest : List Line} {op' : Operation} {args' : List Argument}
    (hregion : region = done ++ .code op' args' :: rest) (hplace : pc = span (before ++ done)) :
    height 0 done ≤ len' := by
  have hmem : .code op args ∈ c.lines := by simp [hlines]
  -- the machine came from an instruction of the region, at the same height
  have hinside {us vs : List Line} (hus : region = us ++ .code op args :: vs) (hxs : xs = before ++ us)
      (hheight : height 0 done = op.adjust (height 0 us)) : height 0 done ≤ len' := by
    have hle := hdeep.depth hus (by rw [hpc, hxs])
    rw [hheight]
    exact Nat.le_trans (op.adjust_mono hle) (hlen (hguarded.plain hus).1)
  have hnext (hspan : span (xs ++ [Line.code op args]) = span (before ++ done)) : height 0 done ≤ len' := by
    rcases hguarded.height_next hlines hregion hspan with hzero | ⟨us, vs, hus, hxs, hheight⟩
    · rw [hzero]
      exact Nat.zero_le len'
    · exact hinside hus hxs hheight
  have htarget (hop : op.isBranch = true ∨ op = .jsr)
      (hpc' : (immediate place args).toInt64.toInt = span (before ++ done)) :
      height 0 done = 0 ∨ ∃ us vs, region = us ++ .code op args :: vs ∧ xs = before ++ us ∧
        height 0 done = height 0 us := by
    obtain ⟨l, rfl, hdefined⟩ := h.label_of_target hmem hop
    obtain ⟨line, hline, hlabel⟩ := List.mem_filterMap.mp hdefined
    obtain ⟨xs', ys', hsplit⟩ := List.append_of_mem hline
    have hspan : span xs' = span (before ++ done) := by
      have hplace := (hl.toInt_label hsplit hlabel).symm.trans hpc'
      exact Int.natCast_inj.mp hplace
    exact hguarded.height_label hlines List.mem_cons_self hsplit hlabel hregion hspan
  generalize hstack : s.returns.items = stack at hflows
  cases hflows with
  | goesOn hop => exact hnext (Int.natCast_inj.mp hplace)
  | falls hop hjmp => exact hnext (Int.natCast_inj.mp hplace)
  | taken hop =>
    rcases htarget (Or.inl hop) hplace with hzero | ⟨us, vs, hus, hxs, hheight⟩
    · rw [hzero]
      exact Nat.zero_le len'
    · exact hinside hus hxs (by rw [hheight, Operation.adjust_of_isBranch hop])
  | calls =>
    rcases htarget (Or.inr rfl) hplace with hzero | ⟨us, vs, hus, -, -⟩
    · rw [hzero]
      exact Nat.zero_le len'
    · exact absurd rfl (hguarded.plain hus).2
  | returns =>
    obtain ⟨xs', args'', ys', hcall, hreturn⟩ :=
      hdeep.returns (hstack ▸ List.mem_cons_self)
    have hspan : span (xs' ++ [Line.code .jsr args'']) = span (before ++ done) :=
      hreturn.symm.trans (Int.natCast_inj.mp hplace)
    rcases hguarded.height_next hcall hregion hspan with hzero | ⟨us, vs, hus, -, -⟩
    · rw [hzero]
      exact Nat.zero_le len'
    · exact absurd rfl (hguarded.plain hus).2

/-- Whatever an operation of a running machine does, the machine returns to places after calls. -/
theorem Deep.returns_of_flows (hl : Linked image place c.lines) (hdeep : Deep c.lines before region s)
    {xs ys : List Line} {op : Operation} {args : List Argument} (hlines : c.lines = xs ++ .code op args :: ys)
    {target pc : Int} {returns : List UInt32}
    (hflows : Machine.Flows (span (xs ++ [Line.code op args])) target op s.returns.items pc returns) {r : UInt32}
    (hr : r ∈ returns) :
    ∃ xs args ys, c.lines = xs ++ .code .jsr args :: ys ∧ r.toNat = span (xs ++ [Line.code .jsr args]) := by
  generalize hstack : s.returns.items = stack at hflows
  cases hflows with
  | goesOn | falls | taken => exact hdeep.returns (hstack ▸ hr)
  | calls =>
    rcases List.mem_cons.mp hr with rfl | hr
    · exact ⟨xs, args, ys, hlines, hl.toNat_return hlines⟩
    · exact hdeep.returns (hstack ▸ hr)
  | returns => exact hdeep.returns (hstack ▸ List.mem_cons_of_mem _ hr)

/-- A running machine keeps to the heights of a region. -/
theorem Deep.tick (h : c.Arranged ms) (hl : Linked image place c.lines) (hguarded : Guarded c.lines before region)
    (hs : Running c ms image k s) (hnext : Running c ms image k' s.tick.1)
    (hdeep : Deep c.lines before region s) : Deep c.lines before region s.tick.1 := by
  obtain ⟨xs, op, args, ys, hlines, hpc, -⟩ := h.leads hl hs.position
  have htick := hl.tick_eq hlines hs.image hs.halt hpc
  by_cases hop : op = .halt
  · -- a machine that has halted does not run
    subst hop
    have hhalted := hnext.halt
    rw [htick] at hhalted
    exact absurd ((Machine.isSet_halt s.flags).symm.trans hhalted) Bool.noConfusion
  · have hproceeds := @Machine.perform_proceeds s op hop (registerAt args 0) (registerAt args 1)
      (immediate place args) (span (xs ++ [Line.code op args]))
    have hheight (hhost : op.isHost = false) := @Machine.perform_height s op hhost (registerAt args 0)
      (registerAt args 1) (immediate place args) (span (xs ++ [Line.code op args]))
    generalize s.perform op (registerAt args 0) (registerAt args 1) (immediate place args)
      (span (xs ++ [Line.code op args])) = r at htick hproceeds hheight
    obtain ⟨s', fault?⟩ := r
    cases fault? with
    | none =>
      have hflows : Machine.Flows (span (xs ++ [Line.code op args])) (immediate place args).toInt64.toInt op
          s.returns.items s'.pc s'.returns.items := hproceeds.flows rfl
      rw [htick]
      refine ⟨fun hregion hplace => ?_, fun hr => hdeep.returns_of_flows hl hlines hflows hr⟩
      exact hdeep.depth_of_flows h hl hguarded hlines hpc hflows (fun hhost => (hheight hhost).1 rfl) hregion hplace
    | some f =>
      obtain ⟨hstays, hreturns⟩ := hproceeds.stays rfl
      rw [htick]
      refine ⟨fun {done rest op' args'} hregion hplace => ?_, fun {r} hr => ?_⟩
      · have hplace' : s.pc = span (before ++ done) := hstays.symm.trans hplace
        obtain ⟨after, hsplit⟩ := hguarded.split hregion
        obtain ⟨-, rfl, -⟩ := eq_of_span hlines hsplit (Int.natCast_inj.mp (hpc.symm.trans hplace'))
        have hsame := (hheight (hguarded.plain hregion).1).2 (by simp)
        show height 0 done ≤ s'.operands.items.length
        rw [show s'.operands = s.operands from hsame]
        exact hdeep.depth hregion hplace'
      · exact hdeep.returns (hreturns ▸ hr)

/-- A machine that runs keeps to the heights of a region, whatever led to it. -/
theorem deep_of_reaches (h : c.Arranged ms) (hl : Linked image place c.lines)
    (hguarded : Guarded c.lines before region) {changes : Prop} {m : Machine} (hs : (m.load image).Reaches changes s)
    (hrun : Running c ms image k s) : Deep c.lines before region s := by
  induction hs generalizing k with
  | here => exact deep_load m
  | @tick s hs ih =>
    rcases h.running_or_halted hl hs with ⟨k', hbefore⟩ | ⟨-, hhalted, -⟩
    · exact (ih hbefore).tick h hl hguarded hbefore hrun
    · rw [Machine.tick_of_halted hhalted] at hrun ⊢
      exact ih hrun
  | host _ console files _ ih =>
    have hdeep := ih ⟨hrun.image, hrun.halt, hrun.position⟩
    exact ⟨hdeep.depth, hdeep.returns⟩

/-- A `pop` at a place of a region where there are operands finds one. -/
theorem pop_ne_stackEmpty (h : c.Arranged ms) (hl : Linked image place c.lines)
    (hguarded : Guarded c.lines before region) {changes : Prop} {m : Machine} (hs : (m.load image).Reaches changes s)
    {done rest : List Line} {args : List Argument} (hregion : region = done ++ .code .pop args :: rest)
    (hheight : 0 < height 0 done) (hpc : s.pc = span (before ++ done)) {t : Trap} (ht : s.tick.2 = .trapped t) :
    t.fault ≠ .stackEmpty := by
  rcases h.running_or_halted hl hs with ⟨k, hrun⟩ | ⟨-, hhalted, -⟩
  · have hdepth := (deep_of_reaches h hl hguarded hs hrun).depth hregion hpc
    obtain ⟨after, hsplit⟩ := hguarded.split hregion
    have htick := hl.tick_eq hsplit hrun.image hrun.halt hpc
    cases hpop : s.operands.pop with
    | error f =>
      rw [Stack.items_of_pop_error hpop, List.length_nil] at hdepth
      omega
    | ok popped =>
      rw [htick] at ht
      simp only [Machine.perform, hpop, Machine.goOn] at ht
      cases ht
  · rw [Machine.tick_of_halted hhalted] at ht
    cases ht

end

end Source

end WordMachine
