import Mathlib
import WordMachine.Proofs.Source.Linked

/-!
# `Proofs.Source.Control` — compiled programs execute instructions only

A machine that runs a compiled program is always at an instruction of it: at the jump of the header, in the
code of a method, at the call of `main`, or at the last `halt`. Within a method the return stack holds the
place of that `halt` at its bottom and places in methods above it, so a return never fails. What the host does
between ticks has no part in this.

Contents:
* `Within`: places of instructions in a method; `within_branch`, `within_method`: where branches and calls lead;
* `owner?`: the method or the string data that a place belongs to;
* `Position`, `Leads`, `leads`: where a running machine can be, and where it can go from there;
* `Running`, `Advances`, `advances`: what the next tick does;
* `running_or_halted`, `compiled_control`.
-/

namespace WordMachine.Source

/-! ## Places in methods -/

/-- The code of a method after its head. -/
def Method.code (m : Method) : List Line := m.body ++ [.code .ret []]

/-- The lines before the code of a method, given the methods before it. -/
def upTo (pre : List Method) (m : Method) : List Line := header ++ pre.flatMap Method.lines ++ m.head

/-- An instruction of a method stands at a place. -/
def Within (ms : List Method) (m : Method) (pc : Int) : Prop :=
  ∃ pre post done op args rest, ms = pre ++ m :: post ∧ m.code = done ++ .code op args :: rest ∧
    pc = span (upTo pre m ++ done)

namespace Compiled.Arranged

variable {c : Compiled} {ms pre post : List Method} {m : Method} {done rest : List Line}

/-- The lines around a line of a method. -/
theorem lines_eq (h : c.Arranged ms) (hms : ms = pre ++ m :: post) (hcode : m.code = done ++ rest) :
    c.lines = upTo pre m ++ done ++ (rest ++ (post.flatMap Method.lines ++
      trailer c.literals c.declarations.strings.reverse)) := by
  have hlines : m.lines = m.head ++ (done ++ rest) := by
    rw [← hcode, Method.code, Method.lines, List.append_assoc]
  rw [h.lines, hms, List.flatMap_append, List.flatMap_cons, hlines, upTo]
  simp only [List.append_assoc]

/-- Lines of code and labels make up the code of a method. -/
theorem code_cases (h : c.Arranged ms) (hm : m ∈ ms) {l : Line} (hl : l ∈ m.code) :
    (∃ k, l = .label k ∧ k ∈ labels m.body) ∨ ∃ op args, l = .code op args := by
  rcases List.mem_append.mp hl with hl | hl
  · have hinner := h.inner m hm l hl
    cases l with
    | label k => exact Or.inl ⟨k, rfl, List.mem_filterMap.mpr ⟨_, hl, rfl⟩⟩
    | code op args => exact Or.inr ⟨op, args, rfl⟩
    | _ => exact hinner.elim
  · obtain rfl := List.mem_singleton.mp hl
    exact Or.inr ⟨.ret, [], rfl⟩

/-- Only the last line of a method has no line after it. -/
theorem rest_ne_nil {l : Line} (hcode : m.code = done ++ l :: rest) (hl : l ≠ .code .ret []) : rest ≠ [] := by
  rintro rfl
  exact hl (List.cons.inj (List.append_inj' hcode rfl).2).1.symm

/-- A rest of a method's code starts with an instruction, perhaps after labels. -/
theorem within_of_rest (h : c.Arranged ms) (hms : ms = pre ++ m :: post) (hcode : m.code = done ++ rest)
    (hne : rest ≠ []) : Within ms m (span (upTo pre m ++ done)) := by
  have hm : m ∈ ms := by simp [hms]
  -- Labels take no space, so the place stays the same until the instruction comes.
  induction rest generalizing done with
  | nil => exact absurd rfl hne
  | cons l rest ih =>
    have hl : l ∈ m.code := by simp [hcode]
    rcases h.code_cases hm hl with ⟨k, rfl, -⟩ | ⟨op, args, rfl⟩
    · have hnext := ih (hcode.trans (List.append_cons _ _ _)) (rest_ne_nil hcode nofun)
      have hspan : span (upTo pre m ++ (done ++ [Line.label k])) = span (upTo pre m ++ done) := by
        simp [Line.size]
      rwa [hspan] at hnext
    · exact ⟨pre, post, done, op, args, rest, hms, hcode, rfl⟩

/-- The operand of a branch or call in a method is a label. -/
theorem args_of_target (h : c.Arranged ms) (hm : m ∈ ms) {op : Operation} {args : List Argument}
    (hl : .code op args ∈ m.code) (hop : op.operands = [.imm32]) (hadr : op ≠ .adr) :
    ∃ l, args = [.label l] ∧ .code op args ∈ m.body ∧ l.Target c.declarations c.literals.length op := by
  have hbody : .code op args ∈ m.body := by
    rcases List.mem_append.mp hl with hl | hl
    · exact hl
    · cases List.mem_singleton.mp hl
      cases hop
  obtain ⟨-, hkinds, hinner⟩ := h.inner m hm _ hbody
  rw [hop] at hkinds
  obtain ⟨a, rfl, ha⟩ := List.map_eq_singleton_iff.mp hkinds
  have harg := hinner a List.mem_cons_self
  cases a with
  | label l => exact ⟨l, rfl, hbody, harg⟩
  | short value => exact absurd harg hadr
  | _ => cases ha

end Compiled.Arranged

/-! ## Targets -/

namespace Compiled.Arranged

variable {c : Compiled} {ms pre post : List Method} {m : Method} {image : Image} {place : Label → UInt64}
  {op : Operation} {args : List Argument}

/-- A branch in a method leads to an instruction of the method. -/
theorem within_branch (h : c.Arranged ms) (hl : Linked image place c.lines) (hms : ms = pre ++ m :: post)
    (hmem : .code op args ∈ m.code) (hop : op.isBranch = true) :
    Within ms m (immediate place args).toInt64.toInt := by
  have hm : m ∈ ms := by simp [hms]
  obtain ⟨l, rfl, hbody, htarget⟩ := h.args_of_target hm hmem (Operation.operands_of_isBranch hop)
    (by rintro rfl; cases hop)
  have hlocal : l.isLocal = true := by
    cases l with
    | method | literal | constant => cases htarget.1 ▸ hop
    | start | finish => exact htarget.elim
    | _ => rfl
  have hlabel : l ∈ labels m.body :=
    h.closed m hm (List.mem_filter.mpr ⟨List.mem_flatMap.mpr ⟨_, hbody, List.mem_cons_self⟩, hlocal⟩)
  obtain ⟨line, hline, hdefines⟩ := List.mem_filterMap.mp hlabel
  obtain ⟨done, rest, hsplit⟩ := List.append_of_mem hline
  have hcode : m.code = done ++ (line :: rest ++ [Line.code .ret []]) := by
    rw [Method.code, hsplit, List.append_assoc]
  show Within ms m (place l).toInt64.toInt
  rw [hl.toInt_label (h.lines_eq hms hcode) hdefines]
  exact h.within_of_rest hms hcode (by simp)

/-- The label of a method leads to its code. -/
theorem toInt_method (h : c.Arranged ms) (hl : Linked image place c.lines) (hms : ms = pre ++ m :: post) :
    (place (.method m.name)).toInt64.toInt = span (upTo pre m) := by
  have hsplit : c.lines = (header ++ pre.flatMap Method.lines ++ [Line.blank]) ++ .label (.method m.name) ::
      (m.code ++ (post.flatMap Method.lines ++ trailer c.literals c.declarations.strings.reverse)) := by
    rw [h.lines_eq hms (List.nil_append m.code).symm, upTo, Method.head]
    simp
  rw [hl.toInt_label hsplit rfl, upTo, Method.head]
  simp [Line.size]

/-- The label of a method leads to an instruction of the method. -/
theorem within_method (h : c.Arranged ms) (hl : Linked image place c.lines) {w : Bytes}
    (hw : w ∈ c.declarations.methods) :
    ∃ m, m.name = w ∧ Within ms m (place (.method w)).toInt64.toInt := by
  rw [← List.mem_reverse, ← h.names] at hw
  obtain ⟨m, hm, rfl⟩ := List.mem_map.mp hw
  obtain ⟨pre, post, hms⟩ := List.append_of_mem hm
  have hwithin := h.within_of_rest hms (List.nil_append m.code).symm (by simp [Method.code])
  rw [List.append_nil, ← h.toInt_method hl hms] at hwithin
  exact ⟨m, rfl, hwithin⟩

end Compiled.Arranged

/-! ## Owners of places -/

/-- The owner of a place among lines, given the owner of the place before them. -/
def ownerFrom (current : Option Label) : List Line → Nat → Option Label
  | [], _ => none
  | l :: rest, place =>
      let current := (l.label?.filter fun k => !k.isLocal).or current
      if place < l.size then current else ownerFrom current rest (place - l.size)

/-- The owner of a place: the last label before it that is not inside a method, such as the name of a method
or of string data. There is none past the end. -/
def owner? (ls : List Line) (place : Nat) : Option Label := ownerFrom none ls place

/-- The labels of lines that own places. -/
def headings (ls : List Line) : List Label := (labels ls).filter fun k => !k.isLocal

@[simp] theorem headings_append (xs ys : List Line) : headings (xs ++ ys) = headings xs ++ headings ys := by
  simp [headings]

theorem headings_cons (l : Line) (ls : List Line) :
    headings (l :: ls) = (l.label?.filter fun k => !k.isLocal).toList ++ headings ls := by
  rw [headings, headings, labels, List.filterMap_cons]
  cases hl : l.label? with
  | none => rfl
  | some k => cases hk : k.isLocal <;> simp [hk, labels, Option.filter]

theorem ownerFrom_span {line : Line} (hline : 0 < line.size) (current : Option Label) (before after : List Line) :
    ownerFrom current (before ++ line :: after) (span before) =
      (headings (before ++ [line])).getLast?.or current := by
  induction before generalizing current with
  | nil =>
    rw [List.nil_append, List.nil_append, ownerFrom, span_nil, if_pos hline, headings_cons]
    cases line.label?.filter fun k => !k.isLocal <;> rfl
  | cons b before ih =>
    have hnot : ¬span (b :: before) < b.size := by
      rw [span_cons]
      omega
    have hsub : span (b :: before) - b.size = span before := by
      rw [span_cons, Nat.add_sub_cancel_left]
    rw [List.cons_append, List.cons_append, ownerFrom, if_neg hnot, hsub, ih, headings_cons]
    cases b.label?.filter fun k => !k.isLocal with
    | none => rfl
    | some k =>
      generalize headings (before ++ [line]) = rest
      show rest.getLast?.or (some k) = (k :: rest).getLast?.or current
      rw [List.getLast?_cons, Option.some_or]
      cases rest.getLast? <;> rfl

/-- No label owns the place after the last line. -/
theorem ownerFrom_end (current : Option Label) (ls : List Line) : ownerFrom current ls (span ls) = none := by
  induction ls generalizing current with
  | nil => rfl
  | cons l rest ih =>
    have hnot : ¬span (l :: rest) < l.size := by
      rw [span_cons]
      omega
    rw [ownerFrom, if_neg hnot, span_cons, Nat.add_sub_cancel_left, ih]

/-- The owner of an instruction is the last heading before it. -/
theorem owner?_code {ls before after : List Line} {op : Operation} {args : List Argument}
    (h : ls = before ++ .code op args :: after) : owner? ls (span before) = (headings before).getLast? := by
  have hsize : 0 < (Line.code op args).size := by
    rw [Line.size, Opcode.width]
    omega
  rw [owner?, h, ownerFrom_span hsize, headings_append, Option.or_none]
  exact congrArg List.getLast? (List.append_nil _)

namespace Compiled.Arranged

variable {c : Compiled} {ms pre post : List Method} {m : Method} {done rest : List Line}

/-- The last heading before an instruction of a method is the method. -/
theorem heading_within (h : c.Arranged ms) (hm : m ∈ ms) (hcode : m.code = done ++ rest) :
    (headings (upTo pre m ++ done)).getLast? = some (.method m.name) := by
  have hlocal : headings done = [] := by
    refine List.filter_eq_nil_iff.mpr fun k hk => ?_
    obtain ⟨l, hl, hdefines⟩ := List.mem_filterMap.mp hk
    rcases h.code_cases hm (show l ∈ m.code by simp [hcode, hl]) with ⟨k', rfl, hk'⟩ | ⟨op, args, rfl⟩
    · obtain rfl : k' = k := Option.some.inj hdefines
      simp [h.isLocal_of_mem_body hm hk']
    · cases hdefines
  have hhead : headings m.head = [.method m.name] := rfl
  rw [upTo, headings_append, headings_append, hlocal, hhead, List.append_nil, List.getLast?_concat]

end Compiled.Arranged

/-! ## Positions -/

/-- The call of `main`. -/
def callMain : Line := .code .jsr [.label (.method (bytes "main"))]

/-- The lines before the call of `main`. -/
def Compiled.front (c : Compiled) (ms : List Method) : List Line :=
  header ++ ms.flatMap Method.lines ++ (.blank :: (c.literals.zipIdx.map fun (raw, n) => .data (.literal n) raw)
    ++ c.declarations.strings.reverse.map fun (name, raw) => .data (.constant name) raw) ++ [.label .finish]

/-- Return places within methods: places in methods, and at the bottom the place after the call of
`main`. -/
def Returns (c : Compiled) (ms : List Method) (returns : List UInt32) : Prop :=
  ∃ inner, returns = inner ++ [UInt32.ofInt (span (c.front ms ++ [callMain]))] ∧
    ∀ r ∈ inner, ∃ m, Within ms m r.toNat

theorem Returns.ne_nil {c : Compiled} {ms : List Method} {returns : List UInt32} (h : Returns c ms returns) :
    returns ≠ [] := by
  obtain ⟨inner, rfl, -⟩ := h
  simp

/-- The places of a running program, with their owners and the return places. -/
inductive Position (c : Compiled) (ms : List Method) : Label → Int → List UInt32 → Prop where
  | entry : Position c ms .start 0 []
  | inside {m : Method} {place : Int} {returns : List UInt32} (hw : Within ms m place)
      (hr : Returns c ms returns) : Position c ms (.method m.name) place returns
  | call : Position c ms .finish (span (c.front ms)) []
  | halt : Position c ms .finish (span (c.front ms ++ [callMain])) []

theorem Position.returns_ne_nil {c : Compiled} {ms : List Method} {w : Bytes} {pc : Int} {returns : List UInt32}
    (h : Position c ms (.method w) pc returns) : returns ≠ [] := by
  cases h with
  | inside _ hr => exact hr.ne_nil

namespace Compiled.Arranged

variable {c : Compiled} {ms pre post : List Method} {m : Method} {done rest : List Line} {image : Image}
  {place : Label → UInt64} {op : Operation} {args : List Argument}

theorem front_lines (h : c.Arranged ms) : c.lines = c.front ms ++ [callMain, .code .halt []] := by
  rw [h.lines, front, trailer, callMain]
  simp only [List.append_assoc, List.cons_append, List.nil_append]

theorem header_lines (h : c.Arranged ms) : ∃ after, c.lines = [Line.comment (bytes "generated by the vml compiler"),
    .blank, .label .start] ++ Line.code .jmp [.label .finish] :: after := by
  refine ⟨ms.flatMap Method.lines ++ trailer c.literals c.declarations.strings.reverse, ?_⟩
  rw [h.lines, header, List.append_assoc]
  rfl

theorem heading_front : (headings (c.front ms)).getLast? = some .finish := by
  rw [front, headings_append]
  exact List.getLast?_concat

/-- The label at the end leads to the call of `main`. -/
theorem toInt_finish (h : c.Arranged ms) (hl : Linked image place c.lines) :
    (place .finish).toInt64.toInt = span (c.front ms) := by
  have hlines := h.front_lines
  rw [front, List.append_assoc] at hlines
  rw [hl.toInt_label hlines rfl, front, span_append _ [.label .finish]]
  rfl

/-- Methods do not halt. -/
theorem code_ne_halt (h : c.Arranged ms) (hm : m ∈ ms) : m.code ≠ done ++ .code .halt args :: rest := by
  intro hcode
  have hmem : .code .halt args ∈ m.code := by simp [hcode]
  rcases List.mem_append.mp hmem with hmem | hmem
  · exact (h.inner m hm _ hmem).1 rfl
  · cases List.mem_singleton.mp hmem

/-- The last two bytes of the image are the last instruction. -/
theorem size_eq (h : c.Arranged ms) (hl : Linked image place c.lines) :
    image.size = span (c.front ms ++ [callMain]) + 2 := by
  have hwidth : span [.code .halt []] = 2 := rfl
  rw [hl.size, h.front_lines, List.append_cons, span_append, hwidth]

/-- Within a method, the program flows to a position; without a call or a return it stays in the method. -/
theorem flows_inside (h : c.Arranged ms) (hl : Linked image place c.lines) (hms : ms = pre ++ m :: post)
    (hcode : m.code = done ++ .code op args :: rest) {returns returns' : List UInt32} {pc : Int}
    (hr : Returns c ms returns)
    (hflow : Machine.Flows (span (upTo pre m ++ done ++ [Line.code op args])) (immediate place args).toInt64.toInt op
      returns pc returns') :
    ∃ k, Position c ms k pc returns' ∧ (op ≠ .jsr → op ≠ .ret → k = .method m.name) := by
  have hm : m ∈ ms := by simp [hms]
  have hmem : .code op args ∈ m.code := by simp [hcode]
  -- After anything but the last line, the next place is in the method as well.
  have hnext (hop : op ≠ .ret) : Within ms m (span (upTo pre m ++ done ++ [Line.code op args])) := by
    have hrest : rest ≠ [] := rest_ne_nil hcode fun heq => hop (Line.code.inj heq).1
    rw [List.append_assoc]
    exact h.within_of_rest hms (hcode.trans (List.append_cons _ _ _)) hrest
  cases hflow with
  | goesOn hop => exact ⟨_, .inside (hnext (by rintro rfl; cases hop)) hr, fun _ _ => rfl⟩
  | falls hop _ => exact ⟨_, .inside (hnext (by rintro rfl; cases hop)) hr, fun _ _ => rfl⟩
  | taken hop => exact ⟨_, .inside (h.within_branch hl hms hmem hop) hr, fun _ _ => rfl⟩
  | calls =>
    obtain ⟨l, rfl, -, htarget⟩ := h.args_of_target hm hmem rfl nofun
    obtain ⟨w, rfl, hw⟩ : ∃ w, l = .method w ∧ w ∈ c.declarations.methods := by
      cases l with
      | method w => exact ⟨w, rfl, htarget.2⟩
      | literal | constant => cases htarget.1
      | start | finish => exact htarget.elim
      | _ => cases htarget
    obtain ⟨callee, -, hcallee⟩ := h.within_method hl hw
    obtain ⟨inner, hreturns, hinner⟩ := hr
    refine ⟨_, .inside hcallee ⟨_ :: inner, congrArg (_ :: ·) hreturns, ?_⟩, fun hjsr => absurd rfl hjsr⟩
    intro r hrmem
    rcases List.mem_cons.mp hrmem with rfl | hrmem
    · exact ⟨m, by rw [hl.toNat_return (h.lines_eq hms hcode)]; exact hnext nofun⟩
    · exact hinner r hrmem
  | returns =>
    obtain ⟨inner, hreturns, hinner⟩ := hr
    cases inner with
    | nil =>
      obtain ⟨rfl, rfl⟩ := List.cons.inj hreturns
      refine ⟨.finish, ?_, fun _ hret => absurd rfl hret⟩
      rw [callMain, hl.toNat_return h.front_lines]
      exact .halt
    | cons r inner =>
      obtain ⟨rfl, rfl⟩ := List.cons.inj hreturns
      obtain ⟨caller, hcaller⟩ := hinner _ List.mem_cons_self
      exact ⟨_, .inside hcaller ⟨inner, rfl, fun r hr => hinner r (List.mem_cons_of_mem _ hr)⟩,
        fun _ hret => absurd rfl hret⟩

end Compiled.Arranged

/-- A line of code at a position, and the positions it leads to. -/
structure Leads (c : Compiled) (ms : List Method) (place : Label → UInt64) (k : Label) (returns : List UInt32)
    (before : List Line) (op : Operation) (args : List Argument) : Prop where
  heading : (headings before).getLast? = some k
  backed (hop : op = .ret) : returns ≠ []
  last (hop : op = .halt) : before = c.front ms ++ [callMain] ∧ args = [] ∧ k = .finish
  flows (hop : op ≠ .halt) {pc : Int} {returns' : List UInt32}
    (h : Machine.Flows (span (before ++ [.code op args])) (immediate place args).toInt64.toInt op returns pc
      returns') :
    ∃ k', Position c ms k' pc returns' ∧ (∀ w, k = .method w → op ≠ .jsr → op ≠ .ret → k' = k)

namespace Compiled.Arranged

variable {c : Compiled} {ms : List Method} {image : Image} {place : Label → UInt64}

/-- At every position there is a line of code, and it leads to positions. -/
theorem leads (h : c.Arranged ms) (hl : Linked image place c.lines) {k : Label} {pc : Int} {returns : List UInt32}
    (hpos : Position c ms k pc returns) :
    ∃ before op args after, c.lines = before ++ .code op args :: after ∧ pc = span before ∧
      Leads c ms place k returns before op args := by
  cases hpos with
  | entry =>
    -- the first instruction jumps to the call of `main`
    obtain ⟨after, hlines⟩ := h.header_lines
    refine ⟨_, .jmp, [.label .finish], after, hlines, rfl, ⟨rfl, nofun, nofun, ?_⟩⟩
    intro _ pc returns' hflow
    cases hflow with
    | goesOn hop => cases hop
    | falls _ hjmp => exact absurd rfl hjmp
    | taken _ =>
      refine ⟨.finish, ?_, fun _ hw => nomatch hw⟩
      show Position c ms .finish (place .finish).toInt64.toInt []
      rw [h.toInt_finish hl]
      exact .call
  | @inside m _ _ hw hr =>
    obtain ⟨pre, post, done, op, args, rest, hms, hcode, hpc⟩ := hw
    have hm : m ∈ ms := by simp [hms]
    refine ⟨_, op, args, _, h.lines_eq hms hcode, hpc, ⟨h.heading_within hm hcode, fun _ => hr.ne_nil, ?_, ?_⟩⟩
    · rintro rfl
      exact absurd hcode (h.code_ne_halt hm)
    · intro _ pc returns' hflow
      obtain ⟨k, hk, hsame⟩ := h.flows_inside hl hms hcode hr hflow
      exact ⟨k, hk, fun _ _ => hsame⟩
  | call =>
    refine ⟨_, _, _, _, h.front_lines, rfl, ⟨heading_front, nofun, nofun, ?_⟩⟩
    intro _ pc returns' hflow
    cases hflow with
    | goesOn hop => cases hop
    | falls hop _ => cases hop
    | taken hop => cases hop
    | calls =>
      -- the place behind the call is at the bottom of the return places
      obtain ⟨m, -, hm⟩ := h.within_method hl h.main
      exact ⟨_, .inside hm ⟨[], rfl, nofun⟩, fun _ hw => nomatch hw⟩
  | halt =>
    have hheading : headings (c.front ms ++ [callMain]) = headings (c.front ms) := by
      rw [headings_append]
      exact List.append_nil _
    refine ⟨_, .halt, [], [], h.front_lines.trans (List.append_cons _ _ _), rfl,
      ⟨?_, nofun, fun _ => ⟨rfl, rfl, rfl⟩, fun hop => absurd rfl hop⟩⟩
    rw [hheading]
    exact heading_front

end Compiled.Arranged

/-! ## Runs -/

/-- A machine runs a program: it has not halted and is at a position. -/
structure Running (c : Compiled) (ms : List Method) (image : Image) (k : Label) (s : Machine) : Prop where
  image : s.image = image
  halt : Flag.isSet s.flags Flag.halt = false
  position : Position c ms k s.pc s.returns.items

theorem Running.withHost {c : Compiled} {ms : List Method} {image : Image} {k : Label} {s : Machine}
    (h : Running c ms image k s) (console : Console) (files : FileSystem) :
    Running c ms image k (s.withHost console files) :=
  ⟨h.image, h.halt, h.position⟩

/-- What the next tick of a running machine does. -/
inductive Advances (c : Compiled) (ms : List Method) (image : Image) (k : Label) (s : Machine) : Prop where
  | runs {op : Operation} {k' : Label} (h : s.tick.2 = .ran) (hop : ∀ i, s.fetch = .ok i → i.opcode = .of op)
      (hsame : ∀ w, k = .method w → op ≠ .jsr → op ≠ .ret → k' = k) (hnext : Running c ms image k' s.tick.1)
  | traps {t : Trap} (h : s.tick.2 = .trapped t) (hread : t.fault.isUnreadable = false)
      (hret : t.opcode ≠ .of .ret) (hnext : Running c ms image k s.tick.1)
  | halts (h : s.tick.2 = .ran) (hfetch : s.fetch = .ok ⟨.of .halt, 0, 0, 0⟩) (hpc : s.pc + 2 = image.size)
      (hk : k = .finish) (himage : s.tick.1.image = image) (hnext : Flag.isSet s.tick.1.flags Flag.halt = true)
      (hend : s.tick.1.pc = image.size)

namespace Compiled.Arranged

variable {c : Compiled} {ms : List Method} {image : Image} {place : Label → UInt64} {k : Label} {s : Machine}

/-- A running machine is at a line of code. -/
theorem line_of_running (h : c.Arranged ms) (hl : Linked image place c.lines) (hs : Running c ms image k s) :
    (∃ before op args after, c.lines = before ++ .code op args :: after ∧ s.pc = span before) ∧
      owner? c.lines s.pc.toNat = some k := by
  obtain ⟨before, op, args, after, hlines, hpc, hleads⟩ := h.leads hl hs.position
  refine ⟨⟨before, op, args, after, hlines, hpc⟩, ?_⟩
  rw [hpc, Int.toNat_natCast, owner?_code hlines, hleads.heading]

/-- A running machine goes on running, is trapped where it is, or performs the last `halt`. -/
theorem advances (h : c.Arranged ms) (hl : Linked image place c.lines) (hs : Running c ms image k s) :
    Advances c ms image k s := by
  obtain ⟨before, op, args, after, hlines, hpc, hleads⟩ := h.leads hl hs.position
  have hfetch : s.fetch = .ok (instruction place op args) := by
    rw [Machine.fetch, hs.image, hpc]
    exact hl.code hlines
  have htick := hl.tick_eq hlines hs.image hs.halt hpc
  -- the only `halt` is the last line, and the image ends behind it
  by_cases hop : op = .halt
  · obtain ⟨rfl, rfl, hk⟩ := hleads.last hop
    subst hop
    have hsize := h.size_eq hl
    have hend : span (c.front ms ++ [callMain] ++ [Line.code .halt []]) = image.size := by
      rw [span_append, hsize]
      rfl
    rw [hend] at htick
    refine .halts (congrArg Prod.snd htick) hfetch ?_ hk ?_ ?_ ?_
    · rw [hpc, hsize, Nat.cast_add, Nat.cast_ofNat]
    · rw [htick]
      exact hs.image
    · rw [htick]
      exact Machine.isSet_halt s.flags
    · rw [htick]
      rfl
  · have hproceeds := @Machine.perform_proceeds s op hop (registerAt args 0) (registerAt args 1)
      (immediate place args) (span (before ++ [Line.code op args]))
    generalize s.perform op (registerAt args 0) (registerAt args 1) (immediate place args)
      (span (before ++ [Line.code op args])) = r at htick hproceeds
    obtain ⟨s', fault?⟩ := r
    cases fault? with
    | none =>
      obtain ⟨k', hk', hsame⟩ := hleads.flows hop (hproceeds.flows rfl)
      refine .runs (by rw [htick]) (fun i hi => ?_) hsame ?_
      · rw [hfetch] at hi
        cases hi
        rfl
      · rw [htick]
        exact ⟨hproceeds.image.trans hs.image, hproceeds.halt.trans hs.halt, hk'⟩
    | some f =>
      -- a fault leaves the machine where it is
      obtain ⟨hstays, hreturns⟩ := hproceeds.stays rfl
      refine .traps (congrArg Prod.snd htick) (hproceeds.readable rfl) ?_ ?_
      · intro hret
        have hret : op = .ret := Opcode.of_injective hret
        exact hleads.backed hret (hproceeds.returnless rfl hret)
      · rw [htick]
        refine ⟨hproceeds.image.trans hs.image, hproceeds.halt.trans hs.halt, ?_⟩
        rw [hstays, hreturns]
        exact hs.position

theorem running_load (m : Machine) : Running c ms image .start (m.load image) where
  image := rfl
  halt := show Flag.isSet 0 Flag.halt = false by decide
  position := .entry

theorem not_halted_of_advances (h : Advances c ms image k s) : s.isHalted = false := by
  by_contra hnot
  have htick := Machine.tick_of_halted (Bool.not_eq_false _ ▸ hnot)
  cases h with
  | runs h | traps h | halts h =>
    rw [htick] at h
    cases h

/-- Without a call or a return, a machine stays in its method. -/
theorem owner_of_advances (h : c.Arranged ms) (hl : Linked image place c.lines) {w : Bytes} {i : Instruction}
    (hadvances : Advances c ms image (.method w) s) (hfetch : s.fetch = .ok i) (hjsr : i.opcode ≠ .of .jsr)
    (hret : i.opcode ≠ .of .ret) : owner? c.lines s.tick.1.pc.toNat = some (.method w) := by
  cases hadvances with
  | runs _ hop hsame hnext =>
    have hopcode := hop i hfetch
    obtain rfl := hsame w rfl (fun heq => hjsr (heq ▸ hopcode)) (fun heq => hret (heq ▸ hopcode))
    exact (h.line_of_running hl hnext).2
  | traps _ _ _ hnext => exact (h.line_of_running hl hnext).2
  | halts _ _ _ hk => cases hk

/-- After any number of ticks, a machine still runs or has performed the last `halt`, whatever the host does. -/
theorem running_or_halted (h : c.Arranged ms) (hl : Linked image place c.lines) {changes : Prop} {m : Machine}
    (hs : (m.load image).Reaches changes s) :
    (∃ k, Running c ms image k s) ∨
      ((m.load image).HaltsAs changes s ∧ s.isHalted = true ∧ s.pc = image.size) := by
  induction hs with
  | here => exact Or.inl ⟨.start, running_load m⟩
  | @tick s hs ih =>
    rcases ih with ⟨k, hrun⟩ | ⟨hhalts, hhalted, hpc⟩
    · cases h.advances hl hrun with
      | runs _ _ _ hnext => exact Or.inl ⟨_, hnext⟩
      | traps _ _ _ hnext => exact Or.inl ⟨_, hnext⟩
      | halts hran hfetch hlast _ _ hflag hend =>
        have hhalted : s.tick.1.isHalted = true := by
          rw [Machine.isHalted, hflag, Bool.true_or]
        refine Or.inr ⟨⟨s, s.tick.1, hs, hfetch, ?_, Prod.ext rfl hran, .here⟩, hhalted, hend⟩
        rw [hrun.image]
        exact hlast
    · rw [Machine.tick_of_halted hhalted]
      exact Or.inr ⟨hhalts, hhalted, hpc⟩
  | host hchanges console files _ ih =>
    rcases ih with ⟨k, hrun⟩ | ⟨⟨s', s'', hs', hfetch, hlast, hran, hreaches⟩, hhalted, hpc⟩
    · exact Or.inl ⟨k, hrun.withHost console files⟩
    · exact Or.inr ⟨⟨s', s'', hs', hfetch, hlast, hran, hreaches.host hchanges console files⟩, hhalted, hpc⟩

end Compiled.Arranged

/-- However long the image of a compiled text runs, the machine is at an instruction or has performed the
last `halt`. It is never trapped by bytes that are no instruction nor by a return, it has a return place
within every method, it never reaches string data, it leaves a method only by calls and returns, and only
that `halt` stops it. All this holds whether or not the host changes meanwhile. -/
theorem compiled_control {library? : Option Library} {text : Bytes} {c : Compiled} {a : Assembly.Assembler}
    {p : Assembly.Program} (hc : compile library? text = .ok c) (ha : a.library? = none)
    (hp : (a.parse c.text).1 = .ok p) (hsmall : p.image.size < UInt32.size) {changes : Prop} {m s : Machine}
    (hs : (m.load p.image).Reaches changes s) :
    ((∃ e ∈ p.lines, s.pc = e.offset) ∨ (m.load p.image).HaltsAs changes s) ∧
    (∀ t, s.tick.2 = .trapped t → t.fault.isUnreadable = false ∧ t.opcode ≠ .of .ret) ∧
    (∀ w, owner? c.lines s.pc.toNat = some (.method w) → s.returns.items ≠ []) ∧
    (∀ n, owner? c.lines s.pc.toNat ≠ some (.literal n)) ∧
    (∀ w, owner? c.lines s.pc.toNat ≠ some (.constant w)) ∧
    (∀ w i, owner? c.lines s.pc.toNat = some (.method w) → s.fetch = .ok i → i.opcode ≠ .of .jsr →
      i.opcode ≠ .of .ret → owner? c.lines s.tick.1.pc.toNat = some (.method w)) ∧
    (s.isHalted = true → (m.load p.image).HaltsAs changes s) := by
  obtain ⟨source, ts, -, hlex, hgenerate⟩ := of_compile hc
  obtain ⟨ms, harranged⟩ := Compiled.arranged_of_generate (sound_of_lex hlex) hgenerate
  have hl := harranged.linked ha hp hsmall
  obtain ⟨-, hdenotes⟩ := harranged.denotes_of_parse ha hp
  -- either the machine is at a line of code, or it is halted behind all lines
  rcases harranged.running_or_halted hl hs with ⟨k, hrun⟩ | ⟨hhalts, hhalted, hpc⟩
  · obtain ⟨⟨before, op, args, after, hlines, hpc⟩, howner⟩ := harranged.line_of_running hl hrun
    have hadvances := harranged.advances hl hrun
    have hposition := hrun.position
    obtain ⟨e, he, hoffset⟩ := Compiled.Arranged.mem_lines_of_code hdenotes hlines
    rw [howner]
    refine ⟨Or.inl ⟨e, he, by rw [hpc, hoffset]⟩, ?_, ?_, ?_, ?_, ?_, ?_⟩
    · intro t ht
      cases hadvances with
      | runs hran | halts hran =>
        rw [hran] at ht
        cases ht
      | traps htrap hread hret =>
        rw [htrap] at ht
        cases ht
        exact ⟨hread, hret⟩
    · rintro w ⟨⟩
      exact hposition.returns_ne_nil
    · rintro n ⟨⟩
      cases hposition
    · rintro w ⟨⟩
      cases hposition
    · rintro w i ⟨⟩
      exact harranged.owner_of_advances hl hadvances
    · intro hhalted
      rw [Compiled.Arranged.not_halted_of_advances hadvances] at hhalted
      cases hhalted
  · have hnone : owner? c.lines s.pc.toNat = none := by
      rw [hpc, Int.toNat_natCast, hl.size]
      exact ownerFrom_end none c.lines
    rw [Machine.tick_of_halted hhalted, hnone]
    exact ⟨Or.inr hhalts, nofun, nofun, nofun, nofun, nofun, fun _ => hhalts⟩

/-- In a method called from `main`, after other input was given. -/
theorem compiled_control_called :
    ∃ c p s, compile none (bytes "method f \x7b \"text\" return \x7d method main \x7b f drop \x7d") = .ok c ∧
      (({} : Assembly.Assembler).parse c.text).1 = .ok p ∧ p.image.size < UInt32.size ∧
      ((Machine.create 16 8 8 {} (.store ∅)).load p.image).Reaches True s ∧
      owner? c.lines s.pc.toNat = some (.method (bytes "f")) ∧ s.returns.items ≠ [] := by
  have hplace : ((compile none
      (bytes "method f \x7b \"text\" return \x7d method main \x7b f drop \x7d")).toOption.bind fun c =>
        (({} : Assembly.Assembler).parse c.text).1.toOption.map fun p =>
          let s := ((((Machine.create 16 8 8 {} (.store ∅)).load p.image).tick.1.withHost
            { input := some (.ofBytes (bytes "text") false) } (.directory [] {})).tick.1).tick.1
          decide (p.image.size < UInt32.size) && owner? c.lines s.pc.toNat == some (.method (bytes "f"))) =
        some true := by
    decide +kernel
  obtain ⟨c, hcompile, hplace⟩ := Option.bind_eq_some_iff.mp hplace
  obtain ⟨p, hparse, hplace⟩ := Option.map_eq_some_iff.mp hplace
  replace hcompile := eq_ok_of_toOption hcompile
  replace hparse := eq_ok_of_toOption hparse
  rw [Bool.and_eq_true, decide_eq_true_eq, beq_iff_eq] at hplace
  have hreaches := ((@Machine.Reaches.here True
    ((Machine.create 16 8 8 {} (.store ∅)).load p.image)).tick.host trivial
    { input := some (.ofBytes (bytes "text") false) } (.directory [] {})).tick.tick
  have hcontrol := compiled_control hcompile rfl hparse hplace.1 hreaches
  exact ⟨c, p, _, hcompile, hparse, hplace.1, hreaches, hplace.2, hcontrol.2.2.1 _ hplace.2⟩

end WordMachine.Source
