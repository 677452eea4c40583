import Mathlib
import WordMachine.Proofs.Machine.Memory
import WordMachine.Proofs.Source.Linked
import WordMachine.Proofs.Source.Meaning

/-!
# `Proofs.Source.Blocks` — running blocks of generated code

A block of lines is run wherever it stands in a listing that an image holds. What a block does to the
registers, the flags, the operand stack and the bytes of memory does not depend on the place, so the
contracts of instructions compose to the contracts of words.

Contents:
* `Machine.Goes`: ticks that run, one after the other;
* `Core`, `Stands`: the part of a machine that straight code works on;
* `Runs`, `Fails`: contracts of blocks, and how they compose;
* `runs_set` to `fails_copy`: contracts of instructions;
* `goes_branch`, `goes_call`, `goes_return`; `runs_choice`: the branches that leave one or zero.
-/

namespace WordMachine

/-! ## Ticks that run -/

namespace Machine

/-- Ticks that run lead from one machine to another. -/
inductive Goes : Machine → Machine → Prop where
  | refl {s : Machine} : Goes s s
  | step {s s' s'' : Machine} (h : s.tick = (s', .ran)) (rest : Goes s' s'') : Goes s s''

theorem Goes.trans {s s' s'' : Machine} (h : Goes s s') (h' : Goes s' s'') : Goes s s'' := by
  induction h with
  | refl => exact h'
  | step htick _ ih => exact .step htick (ih h')

/-- A run goes on where ticks lead. -/
theorem Goes.run_eq {s s' : Machine} (h : Goes s s') : ∃ n, ∀ fuel, run (n + fuel) s = run fuel s' := by
  induction h with
  | refl => exact ⟨0, fun fuel => by rw [Nat.zero_add]⟩
  | @step s s' s'' htick _ ih =>
    obtain ⟨n, hn⟩ := ih
    refine ⟨n + 1, fun fuel => ?_⟩
    rw [Nat.add_right_comm, run, htick]
    exact hn fuel

end Machine

namespace Source

/-! ## Straight code -/

/-- The part of a machine that straight code works on. -/
structure Core where
  reg : Register → UInt64
  flags : UInt8
  state : State

/-- A machine that has not halted is at a place, with the given return places and core. -/
structure Stands (e : Setting) (returns : List UInt32) (here : Nat) (k : Core) (s : Machine) : Prop where
  image : s.image = e.image
  halt : Flag.isSet s.flags Flag.halt = false
  returns : s.returns.items = returns
  pc : s.pc = here
  reg (r : Register) : s.reg r = k.reg r
  flags : s.flags = k.flags
  stack : s.operands.items = k.state.stack
  depth : s.operands.limit = e.depth
  bounded : 0 < e.depth → k.state.stack.length ≤ e.depth
  byte (i : Nat) : s.memory.byte i = k.state.byte i
  limit : s.memory.limit = e.memory

/-- A machine is trapped by a fault after some ticks. -/
def Traps (s : Machine) (f : Fault) : Prop :=
  ∃ s' s'' t, s.Goes s' ∧ s'.tick = (s'', .trapped t) ∧ t.fault = f

section Contracts

variable (e : Setting) (returns : List UInt32) (place : Label → UInt64)

/-- Wherever a block stands, it takes one core to another. -/
def Runs (code : List Line) (k k' : Core) : Prop :=
  ∀ ⦃ls before after : List Line⦄, Linked e.image place ls → ls = before ++ code ++ after →
    ∀ ⦃s : Machine⦄, Stands e returns (span before) k s →
      ∃ s', s.Goes s' ∧ Stands e returns (span (before ++ code)) k' s'

/-- Wherever a block stands, it fails on a core. -/
def Fails (code : List Line) (k : Core) (f : Fault) : Prop :=
  ∀ ⦃ls before after : List Line⦄, Linked e.image place ls → ls = before ++ code ++ after →
    ∀ ⦃s : Machine⦄, Stands e returns (span before) k s → Traps s f

end Contracts

variable {e : Setting} {returns : List UInt32} {place : Label → UInt64} {l : Line} {code code' : List Line}
  {k k' k'' : Core} {f : Fault} {here next : Nat} {s : Machine}

theorem Traps.of_goes {s' : Machine} (h : s.Goes s') (ht : Traps s' f) : Traps s f := by
  obtain ⟨s₁, s₂, t, hgoes, htick, hf⟩ := ht
  exact ⟨s₁, s₂, t, h.trans hgoes, htick, hf⟩

/-- Two blocks one after the other, seen from each of them. -/
theorem eq_append_of_blocks {ls before after : List Line} (h : ls = before ++ (code ++ code') ++ after) :
    ls = before ++ code ++ (code' ++ after) ∧ ls = before ++ code ++ code' ++ after := by
  subst h
  simp only [List.append_assoc, and_self]

theorem Runs.append (h : Runs e returns place code k k') (h' : Runs e returns place code' k' k'') :
    Runs e returns place (code ++ code') k k'' := by
  intro ls before after hl hls s hs
  obtain ⟨hfirst, hsecond⟩ := eq_append_of_blocks hls
  obtain ⟨s', hgoes, hs'⟩ := h hl hfirst hs
  obtain ⟨s'', hgoes', hs''⟩ := h' hl hsecond hs'
  rw [List.append_assoc] at hs''
  exact ⟨s'', hgoes.trans hgoes', hs''⟩

theorem Runs.fails (h : Runs e returns place code k k') (h' : Fails e returns place code' k' f) :
    Fails e returns place (code ++ code') k f := by
  intro ls before after hl hls s hs
  obtain ⟨hfirst, hsecond⟩ := eq_append_of_blocks hls
  obtain ⟨s', hgoes, hs'⟩ := h hl hfirst hs
  exact (h' hl hsecond hs').of_goes hgoes

theorem Runs.line (h : Runs e returns place [l] k k') {ls before after : List Line}
    (hl : Linked e.image place ls) (hls : ls = before ++ l :: after) (hs : Stands e returns (span before) k s) :
    ∃ s', s.Goes s' ∧ Stands e returns (span (before ++ [l])) k' s' :=
  h hl (hls.trans (List.append_cons _ _ _)) hs

theorem Fails.append (h : Fails e returns place code k f) (code' : List Line) :
    Fails e returns place (code ++ code') k f := by
  intro ls before after hl hls s hs
  exact h hl (eq_append_of_blocks hls).1 hs

/-! ## Instructions -/

/-- A machine counts its ticks, which changes nothing else. -/
theorem Stands.counted (h : Stands e returns here k s) (n : Nat) :
    Stands e returns here k { s with ticks := n } :=
  ⟨h.image, h.halt, h.returns, h.pc, h.reg, h.flags, h.stack, h.depth, h.bounded, h.byte, h.limit⟩

/-- The contract of a line of code, from what its operation does. -/
theorem runs_of_perform {op : Operation} {args : List Argument}
    (h : ∀ {s : Machine} {here next : Nat}, Stands e returns here k s →
      ∃ s', s.perform op (registerAt args 0) (registerAt args 1) (immediate place args) next = (s', none) ∧
        Stands e returns next k' s') :
    Runs e returns place [.code op args] k k' := by
  intro ls before after hl hls s hs
  rw [List.append_assoc] at hls
  obtain ⟨s', hperform, hs'⟩ := h hs
  have htick := hl.tick_eq hls hs.image hs.halt hs.pc
  rw [hperform] at htick
  exact ⟨_, .step htick .refl, hs'.counted _⟩

theorem fails_of_perform {op : Operation} {args : List Argument}
    (h : ∀ {s : Machine} {here next : Nat}, Stands e returns here k s →
      ∃ s', s.perform op (registerAt args 0) (registerAt args 1) (immediate place args) next = (s', some f)) :
    Fails e returns place [.code op args] k f := by
  intro ls before after hl hls s hs
  rw [List.append_assoc] at hls
  obtain ⟨s', hperform⟩ := @h s (span before) (span (before ++ [Line.code op args])) hs
  have htick := hl.tick_eq hls hs.image hs.halt hs.pc
  rw [hperform] at htick
  exact ⟨s, s', _, .refl, htick, rfl⟩

theorem Stands.setReg (h : Stands e returns here k s) (r : Register) (v : UInt64) (next : Nat) :
    Stands e returns next { k with reg := Function.update k.reg r v } { s.setReg r v with pc := next } where
  image := h.image
  halt := h.halt
  returns := h.returns
  pc := rfl
  reg r' := by
    have hreg : s.reg = k.reg := funext h.reg
    rw [← hreg]
    exact s.reg_setReg r r' v
  flags := h.flags
  stack := h.stack
  depth := h.depth
  bounded := h.bounded
  byte := h.byte
  limit := h.limit

/-- Operations that only set a register. -/
theorem runs_set {op : Operation} {g : UInt64 → UInt64 → UInt64 → UInt64}
    (hop : ∀ (m : Machine) (dst src : Register) (imm : UInt64) (next : Int),
      m.perform op dst src imm next = (m.setReg dst (g (m.reg dst) (m.reg src) imm)).goOn next)
    (args : List Argument) :
    Runs e returns place [.code op args] k { k with
      reg := Function.update k.reg (registerAt args 0)
        (g (k.reg (registerAt args 0)) (k.reg (registerAt args 1)) (immediate place args)) } := by
  refine runs_of_perform fun {s _ next} hs => ⟨_, hop _ _ _ _ _, ?_⟩
  rw [hs.reg, hs.reg]
  exact hs.setReg _ _ next

theorem runs_pop (args : List Argument) {v : UInt64} {stack : List UInt64} (h : k.state.stack = v :: stack) :
    Runs e returns place [.code .pop args] k
      ⟨Function.update k.reg (registerAt args 0) v, k.flags, ⟨stack, k.state.byte⟩⟩ := by
  refine runs_of_perform fun {s _ next} hs => ?_
  obtain ⟨operands, hpop, hitems, hlimit⟩ := Stack.pop_of_cons (hs.stack.trans h)
  refine ⟨_, by simp only [Machine.perform, hpop]; rfl, ?_⟩
  have hset := hs.setReg (registerAt args 0) v next
  refine { hset with stack := hitems, depth := hlimit.trans hs.depth, bounded := fun hpos => ?_ }
  have hle := hs.bounded hpos
  rw [h, List.length_cons] at hle
  exact Nat.le_of_succ_le hle

theorem fails_pop (args : List Argument) (h : k.state.stack = []) :
    Fails e returns place [.code .pop args] k .stackEmpty := by
  refine fails_of_perform fun {s _ _} hs => ⟨s, ?_⟩
  simp only [Machine.perform, Stack.pop_of_nil (hs.stack.trans h)]

theorem runs_push (args : List Argument) (h : ¬(0 < e.depth ∧ e.depth ≤ k.state.stack.length)) :
    Runs e returns place [.code .push args] k
      { k with state := ⟨k.reg (registerAt args 0) :: k.state.stack, k.state.byte⟩ } := by
  refine runs_of_perform fun {s _ next} hs => ?_
  rw [← hs.depth, ← hs.stack] at h
  obtain ⟨operands, hpush, hitems, hlimit⟩ := Stack.push_of_room h (s.reg (registerAt args 0))
  refine ⟨_, by simp only [Machine.perform, hpush]; rfl, ?_⟩
  rw [hs.reg, hs.stack] at hitems
  rw [hs.depth, hs.stack] at h
  refine { hs with pc := rfl, stack := hitems, depth := hlimit.trans hs.depth, bounded := fun hpos => ?_ }
  rw [List.length_cons]
  omega

theorem fails_push (args : List Argument) (h : 0 < e.depth ∧ e.depth ≤ k.state.stack.length) :
    Fails e returns place [.code .push args] k .stackFull := by
  refine fails_of_perform fun {s _ _} hs => ⟨s, ?_⟩
  rw [← hs.depth, ← hs.stack] at h
  simp only [Machine.perform, Stack.push_of_full h]

/-- Operations that only compare registers. -/
theorem runs_compare {op : Operation} {g : UInt64 → UInt64 → Option Ordering}
    (hop : ∀ (m : Machine) (dst src : Register) (imm : UInt64) (next : Int), m.perform op dst src imm next =
      { m with flags := Flag.compared m.flags (g (m.reg dst) (m.reg src)) }.goOn next)
    (args : List Argument) :
    Runs e returns place [.code op args] k { k with
      flags := Flag.compared k.flags (g (k.reg (registerAt args 0)) (k.reg (registerAt args 1))) } := by
  refine runs_of_perform fun {s _ next} hs => ⟨_, hop _ _ _ _ _, ?_⟩
  rw [hs.reg, hs.reg, hs.flags]
  refine { hs with pc := rfl, flags := rfl, halt := ?_ }
  rw [← hs.flags]
  exact (Machine.halt_compared _ _).trans hs.halt

theorem runs_quotient (args : List Argument) (h : k.reg (registerAt args 1) ≠ 0) :
    Runs e returns place [.code .idiv args] k { k with
      reg := Function.update k.reg (registerAt args 0)
        (k.reg (registerAt args 0) / k.reg (registerAt args 1)) } := by
  refine runs_of_perform fun {s _ next} hs => ?_
  rw [← hs.reg] at h
  refine ⟨_, by simp only [Machine.perform, if_neg h]; rfl, ?_⟩
  rw [hs.reg, hs.reg]
  exact hs.setReg _ _ next

theorem fails_quotient (args : List Argument) (h : k.reg (registerAt args 1) = 0) :
    Fails e returns place [.code .idiv args] k .divideByZero := by
  refine fails_of_perform fun {s _ _} hs => ⟨s, ?_⟩
  rw [← hs.reg] at h
  simp only [Machine.perform, if_pos h]

/-! ## Memory and strings -/

theorem Stands.load (h : Stands e returns here k s) (size : Nat) (address : UInt64) :
    s.memory.load address size = e.load k.state size address := by
  rw [Memory.load, checkAccess_eq, h.limit, Setting.load]
  by_cases hle : address.toNat + size ≤ e.memory
  · rw [if_pos ⟨Int.natCast_nonneg size, by exact_mod_cast hle⟩, if_pos hle]
    dsimp only
    rw [Int.toNat_natCast, Memory.ofLittleEndian_read]
    simp only [h.byte]
  · rw [if_neg (fun hfits => hle (by exact_mod_cast hfits.2)), if_neg hle]

theorem Stands.string (h : Stands e returns here k s) (address : UInt64) :
    s.image.string address = e.string address := by
  rw [h.image, Image.string_eq]
  rfl

theorem Stands.write (h : Stands e returns here k s) {address : UInt64} {data : Bytes} {byte : Nat → UInt8}
    (hwrite : e.write k.state.byte address data = .ok byte) :
    ∃ memory, s.memory.write address data = .ok memory ∧ memory.limit = e.memory ∧
      ∀ i, memory.byte i = byte i := by
  unfold Setting.write at hwrite
  split at hwrite
  next hle =>
    cases hwrite
    refine ⟨s.memory.put address.toNat data, ?_, ?_, fun i => ?_⟩
    · rw [Memory.write, checkAccess_eq, h.limit, if_pos ⟨Int.natCast_nonneg _, by exact_mod_cast hle⟩]
    · rw [Memory.limit_put, h.limit]
    · rw [Memory.byte_put, h.byte]
  · cases hwrite

theorem Stands.write_error (h : Stands e returns here k s) {address : UInt64} {data : Bytes}
    (hwrite : e.write k.state.byte address data = .error f) : s.memory.write address data = .error f := by
  unfold Setting.write at hwrite
  split at hwrite
  · cases hwrite
  next hle =>
    cases hwrite
    rw [Memory.write, checkAccess_eq, h.limit, if_neg (fun hfits => hle (by exact_mod_cast hfits.2))]

/-- Operations that load a register. -/
theorem runs_load {op : Operation} {size : Nat}
    (hop : ∀ (m : Machine) (dst src : Register) (imm : UInt64) (next : Int),
      m.perform op dst src imm next = Machine.andThen (m.loadInto dst (m.reg src) size) next)
    (args : List Argument) {v : UInt64} (h : e.load k.state size (k.reg (registerAt args 1)) = .ok v) :
    Runs e returns place [.code op args] k
      { k with reg := Function.update k.reg (registerAt args 0) v } := by
  refine runs_of_perform fun {s _ next} hs => ⟨_, ?_, hs.setReg (registerAt args 0) v next⟩
  rw [hop, Machine.loadInto, hs.load, hs.reg, h]
  rfl

theorem fails_load {op : Operation} {size : Nat}
    (hop : ∀ (m : Machine) (dst src : Register) (imm : UInt64) (next : Int),
      m.perform op dst src imm next = Machine.andThen (m.loadInto dst (m.reg src) size) next)
    (args : List Argument) (h : e.load k.state size (k.reg (registerAt args 1)) = .error f) :
    Fails e returns place [.code op args] k f := by
  refine fails_of_perform fun {s _ _} hs => ⟨s.setReg (registerAt args 0) 0, ?_⟩
  rw [hop, Machine.loadInto, hs.load, hs.reg, h]
  rfl

/-- Operations that store a register. -/
theorem runs_store {op : Operation} {size : Nat}
    (hop : ∀ (m : Machine) (dst src : Register) (imm : UInt64) (next : Int),
      m.perform op dst src imm next = Machine.andThen (m.storeAt (m.reg src) size (m.reg dst)) next)
    (args : List Argument) {byte : Nat → UInt8}
    (h : e.write k.state.byte (k.reg (registerAt args 1))
      (Setting.lowBytes size (k.reg (registerAt args 0))) = .ok byte) :
    Runs e returns place [.code op args] k { k with state := ⟨k.state.stack, byte⟩ } := by
  refine runs_of_perform fun {s _ next} hs => ?_
  obtain ⟨memory, hwrite, hlimit, hbyte⟩ := hs.write h
  refine ⟨{ s with memory := memory, pc := next }, ?_, { hs with pc := rfl, byte := hbyte, limit := hlimit }⟩
  rw [hop, Machine.storeAt, Memory.store_eq_write, littleEndian_eq, hs.reg, hs.reg]
  rw [Setting.lowBytes] at hwrite
  rw [hwrite]
  rfl

theorem fails_store {op : Operation} {size : Nat}
    (hop : ∀ (m : Machine) (dst src : Register) (imm : UInt64) (next : Int),
      m.perform op dst src imm next = Machine.andThen (m.storeAt (m.reg src) size (m.reg dst)) next)
    (args : List Argument)
    (h : e.write k.state.byte (k.reg (registerAt args 1))
      (Setting.lowBytes size (k.reg (registerAt args 0))) = .error f) :
    Fails e returns place [.code op args] k f := by
  refine fails_of_perform fun {s _ _} hs => ⟨s, ?_⟩
  have hwrite := hs.write_error h
  rw [Setting.lowBytes] at hwrite
  rw [hop, Machine.storeAt, Memory.store_eq_write, littleEndian_eq, hs.reg, hs.reg, hwrite]
  rfl

theorem runs_copy (args : List Argument) {text : Bytes} {byte : Nat → UInt8}
    (htext : e.string (k.reg (registerAt args 0)) = .ok text)
    (h : e.write k.state.byte (k.reg (registerAt args 1)) (text ++ [0]) = .ok byte) :
    Runs e returns place [.code .bufc args] k { k with state := ⟨k.state.stack, byte⟩ } := by
  refine runs_of_perform fun {s _ next} hs => ?_
  obtain ⟨memory, hwrite, hlimit, hbyte⟩ := hs.write h
  refine ⟨{ s with memory := memory, pc := next }, ?_, { hs with pc := rfl, byte := hbyte, limit := hlimit }⟩
  simp only [Machine.perform, Machine.copyString, hs.string, hs.reg, htext, Machine.writeMemory, hwrite]
  rfl

theorem fails_copy (args : List Argument)
    (h : e.string (k.reg (registerAt args 0)) = .error f ∨
      ∃ text, e.string (k.reg (registerAt args 0)) = .ok text ∧
        e.write k.state.byte (k.reg (registerAt args 1)) (text ++ [0]) = .error f) :
    Fails e returns place [.code .bufc args] k f := by
  refine fails_of_perform fun {s _ _} hs => ⟨s, ?_⟩
  rcases h with htext | ⟨text, htext, hwrite⟩
  · simp only [Machine.perform, Machine.copyString, hs.string, hs.reg, htext]
    rfl
  · simp only [Machine.perform, Machine.copyString, hs.string, hs.reg, htext, Machine.writeMemory,
      hs.write_error hwrite]
    rfl

theorem runs_sameText (args : List Argument) {upper lower : Bytes}
    (hupper : e.string (k.reg (registerAt args 0)) = .ok upper)
    (hlower : e.string (k.reg (registerAt args 1)) = .ok lower) :
    Runs e returns place [.code .lseq args] k
      { k with flags := Flag.compared k.flags (if upper = lower then some .eq else none) } := by
  refine runs_of_perform fun {s _ next} hs => ?_
  have hhalt := (Machine.halt_compared s.flags (if upper = lower then some .eq else none)).trans hs.halt
  refine ⟨{ s with flags := Flag.compared s.flags (if upper = lower then some .eq else none), pc := next }, ?_,
    { hs with pc := rfl, halt := hhalt, flags := by rw [hs.flags] }⟩
  simp only [Machine.perform, Machine.compareStrings, hs.string, hs.reg, hupper, hlower]
  rfl

theorem fails_sameText (args : List Argument)
    (h : e.string (k.reg (registerAt args 0)) = .error f ∨
      ∃ upper, e.string (k.reg (registerAt args 0)) = .ok upper ∧ e.string (k.reg (registerAt args 1)) = .error f) :
    Fails e returns place [.code .lseq args] k f := by
  refine fails_of_perform fun {s _ _} hs => ⟨s, ?_⟩
  rcases h with hupper | ⟨upper, hupper, hlower⟩
  · simp only [Machine.perform, Machine.compareStrings, hs.string, hs.reg, hupper]
    rfl
  · simp only [Machine.perform, Machine.compareStrings, hs.string, hs.reg, hupper, hlower]
    rfl

/-! ## Branches and calls -/

theorem span_label (before : List Line) (l : Label) : span (before ++ [Line.label l]) = span before := by
  rw [span_append]
  rfl

/-- A branch goes on at its label if it is taken. -/
theorem goes_branch {op : Operation} (taken : UInt8 → Bool)
    (hop : ∀ (m : Machine) (dst src : Register) (imm : UInt64) (next : Int),
      m.perform op dst src imm next = m.goOn (if taken m.flags then imm.toInt64.toInt else next))
    {ls before after : List Line} {l : Label} (hl : Linked e.image place ls)
    (hls : ls = before ++ .code op [.label l] :: after) (hplace : (place l).toInt64.toInt = here)
    (hs : Stands e returns (span before) k s) :
    ∃ s', s.Goes s' ∧ Stands e returns
      (if taken k.flags then here else span (before ++ [Line.code op [.label l]])) k s' := by
  have htick := hl.tick_eq hls hs.image hs.halt hs.pc
  rw [hop, show immediate place [.label l] = place l from rfl, hplace, hs.flags] at htick
  refine ⟨_, .step htick .refl, ?_⟩
  refine { hs with pc := ?_ }
  show (if taken k.flags then (here : Int) else span (before ++ [Line.code op [.label l]])) = _
  split <;> rfl

/-- A call with no return place yet goes on at its label. -/
theorem goes_call {ls before after : List Line} {l : Label} (hl : Linked e.image place ls)
    (hls : ls = before ++ .code .jsr [.label l] :: after) (hplace : (place l).toInt64.toInt = here)
    (hs : Stands e [] (span before) k s) :
    ∃ s', s.Goes s' ∧ Stands e [UInt32.ofInt (span (before ++ [Line.code .jsr [.label l]]))] here k s' := by
  have hroom : ¬(0 < s.returns.limit ∧ s.returns.limit ≤ s.returns.items.length) := by
    rw [hs.returns]
    rintro ⟨hpos, hle⟩
    exact absurd hpos (Nat.not_lt.mpr hle)
  obtain ⟨returns, hpush, hitems, -⟩ :=
    Stack.push_of_room hroom (UInt32.ofInt (span (before ++ [Line.code .jsr [.label l]])))
  have htick := hl.tick_eq hls hs.image hs.halt hs.pc
  simp only [Machine.perform, Machine.jumpSubroutine, hpush, show immediate place [.label l] = place l from rfl,
    hplace] at htick
  refine ⟨_, .step htick .refl, { hs with pc := rfl, returns := ?_ }⟩
  rw [hs.returns] at hitems
  exact hitems

/-- A return goes on at the latest return place. -/
theorem goes_return {ls before after : List Line} {r : UInt32} (hl : Linked e.image place ls)
    (hls : ls = before ++ .code .ret [] :: after) (hs : Stands e (r :: returns) (span before) k s) :
    ∃ s', s.Goes s' ∧ Stands e returns r.toNat k s' := by
  obtain ⟨rest, hpop, hitems, -⟩ := Stack.pop_of_cons hs.returns
  have htick := hl.tick_eq hls hs.image hs.halt hs.pc
  simp only [Machine.perform, Machine.returnSubroutine, hpop] at htick
  exact ⟨_, .step htick .refl, { hs with pc := rfl, returns := hitems }⟩

/-- The lines that push one or zero, depending on a branch. -/
def choice (branch : Operation) (index : Nat) : List Line :=
  [.code branch [.label (.holds index)], .code .mov [.register 0, .truth false],
   .code .jmp [.label (.join index)], .label (.holds index), .code .mov [.register 0, .truth true],
   .label (.join index), .code .push [.register 0]]

theorem runs_choice {branch : Operation} {taken : UInt8 → Bool}
    (hop : ∀ (m : Machine) (dst src : Register) (imm : UInt64) (next : Int),
      m.perform branch dst src imm next = m.goOn (if taken m.flags then imm.toInt64.toInt else next))
    (index : Nat) (hroom : ¬(0 < e.depth ∧ e.depth ≤ k.state.stack.length)) :
    Runs e returns place (choice branch index) k
      ⟨Function.update k.reg 0 (Word.truth (taken k.flags)), k.flags,
        ⟨Word.truth (taken k.flags) :: k.state.stack, k.state.byte⟩⟩ := by
  intro ls before after hl hls s hs
  have hmov (b : Bool) {k : Core} : Runs e returns place [.code .mov [.register 0, .truth b]] k
      { k with reg := Function.update k.reg 0 (Word.truth b) } :=
    runs_set (g := fun _ _ imm => imm) (fun _ _ _ _ _ => rfl) _
  have hsplit (n : Nat) : ls = before ++ (choice branch index).take n ++ ((choice branch index).drop n ++ after) := by
    rw [List.append_assoc, ← List.append_assoc (List.take n _), List.take_append_drop, hls, List.append_assoc]
  rw [List.append_assoc] at hls
  obtain ⟨s₁, hgoes₁, hs₁⟩ := goes_branch taken hop hl hls (hl.toInt_label (hsplit 3) rfl) hs
  -- Both ways meet at the last label, with the result in the register.
  obtain ⟨s₂, hgoes₂, hs₂⟩ : ∃ s₂, s₁.Goes s₂ ∧
      Stands e returns (span (before ++ (choice branch index).take 5))
      { k with reg := Function.update k.reg 0 (Word.truth (taken k.flags)) } s₂ := by
    cases htaken : taken k.flags with
    | true =>
      rw [htaken, if_pos rfl, ← span_label _ (.holds index), List.append_assoc] at hs₁
      obtain ⟨s', hgoes, hs'⟩ := (hmov true).line hl (hsplit 4) hs₁
      rw [List.append_assoc] at hs'
      exact ⟨s', hgoes, hs'⟩
    | false =>
      rw [htaken, if_neg Bool.false_ne_true] at hs₁
      obtain ⟨s', hgoes, hs'⟩ := (hmov false).line hl (hsplit 1) hs₁
      rw [List.append_assoc] at hs'
      obtain ⟨s'', hgoes', hs''⟩ :=
        goes_branch (fun _ => true) (fun _ _ _ _ _ => rfl) hl (hsplit 2) (hl.toInt_label (hsplit 5) rfl) hs'
      exact ⟨s'', hgoes.trans hgoes', hs''⟩
  rw [← span_label _ (.join index), List.append_assoc] at hs₂
  obtain ⟨s₃, hgoes₃, hs₃⟩ :=
    (runs_push (k := ⟨Function.update k.reg 0 (Word.truth (taken k.flags)), k.flags, k.state⟩)
      [.register 0] hroom).line hl (hsplit 6) hs₂
  refine ⟨s₃, (hgoes₁.trans hgoes₂).trans hgoes₃, ?_⟩
  rw [List.append_assoc] at hs₃
  dsimp only at hs₃
  have hreg : Function.update k.reg 0 (Word.truth (taken k.flags)) (registerAt [.register 0] 0) =
      Word.truth (taken k.flags) := Function.update_self _ _ _
  rw [hreg] at hs₃
  exact hs₃

end Source

end WordMachine
