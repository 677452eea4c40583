import Mathlib
import WordMachine.Proofs.Machine.Strings

/-!
# `Proofs.Machine.StoredFiles` — files of a store from one host call to another

A host call copies a string from memory to a file, and another one copies a file back to memory. In a store, a
file is changed only by writing it under its name, so between the two calls anything may happen to the machine,
the memory that the string came from included.

Contents:
* `Host.walk_insert`, `Host.fetch_of_save`, `FileSystem.read_of_write`: what is written is read back, from the host
  as well;
* `FileSystem.Holds`: what a store holds under a name;
* `Machine.Denotes`: strings that name files;
* `Machine.writtenFile?`, `Machine.calledBy?`, `Machine.Stores`: the file that a call or an instruction may write;
* `Machine.stores_syscall`, `Machine.stores_perform`, `Machine.stores_execute`, `Machine.holds_tick`;
* `Machine.Spares`, `Machine.Spares.holds`, `Machine.holds_of_spares`: steps that do not write a file keep it;
* `Machine.syscall_fileWrite`, `Machine.syscall_fileRead`, `Machine.written_file_reads_back`.
-/

namespace WordMachine

/-! ## Files of the host -/

namespace Host

variable {h h' : Host} {absolute : Bool} {place parts ps : List Bytes} {path data : Bytes}

/-- A directory stays one when a file is filed. -/
theorem hasDirectory_insert (hdir : h.hasDirectory absolute ps = true) (name data : Bytes) :
    ({ h with files := h.files.insert name data } : Host).hasDirectory absolute ps = true := by
  simp only [hasDirectory, Bool.or_eq_true, List.any_eq_true, Std.TreeMap.mem_keys] at hdir ⊢
  rcases hdir with hknown | ⟨k, hk, hbelow⟩
  · exact Or.inl hknown
  · exact Or.inr ⟨k, Std.TreeMap.mem_insert.mpr (Or.inr hk), hbelow⟩

/-- A walk leads to the same place after a file was filed. -/
theorem walk_insert (hwalk : h.walk absolute place parts = .ok ps) (name data : Bytes) :
    ({ h with files := h.files.insert name data } : Host).walk absolute place parts = .ok ps := by
  induction parts generalizing place with
  | nil => exact hwalk
  | cons p rest ih =>
    by_cases hdir : h.hasDirectory absolute place.reverse = true
    · -- both walks go on from here by the same step
      have hdir' := hasDirectory_insert hdir name data
      cases place with
      | nil =>
        simp only [walk, hdir, hdir', Bool.not_true, Bool.false_eq_true, if_false] at hwalk ⊢
        split_ifs at hwalk ⊢
        all_goals exact ih hwalk
      | cons q above =>
        simp only [walk, hdir, hdir', Bool.not_true, Bool.false_eq_true, if_false] at hwalk ⊢
        split_ifs at hwalk ⊢
        all_goals exact ih hwalk
    · simp [walk, hdir] at hwalk

theorem resolve_insert (hresolve : h.resolve path parts = .ok ps) (name data : Bytes) :
    ({ h with files := h.files.insert name data } : Host).resolve path parts = .ok ps := by
  unfold resolve at hresolve ⊢
  split at hresolve
  · cases hresolve
  next hempty => rw [if_neg hempty, walk_insert hresolve]

/-- Only what is neither refused nor a directory is replaced. -/
theorem of_replace (hreplace : h.replace absolute ps data = .ok h') :
    h.refused[nameOf absolute ps]? = none ∧ h.hasDirectory absolute ps = false ∧
      h' = { h with files := h.files.insert (nameOf absolute ps) data } := by
  simp only [replace] at hreplace
  split at hreplace
  · cases hreplace
  next hrefused =>
    split at hreplace
    · cases hreplace
    next hdir => exact ⟨hrefused, Bool.eq_false_of_not_eq_true hdir, (Except.ok.inj hreplace).symm⟩

/-- A path under which data is saved is walked to its end, with no slash behind its last part. -/
theorem of_save (hsave : h.save path data = .ok h') (hpath : path ≠ nullDevice) :
    ∃ ps, h.resolve path (Path.parts path) = .ok ps ∧ h.replace (Path.isAbsolute path) ps data = .ok h' := by
  simp only [save, beq_iff_eq, if_neg hpath] at hsave
  split at hsave
  · cases hsave
  next ps hresolve =>
    split at hsave
    · cases hsave
    next hwhole =>
      have hsuffix : (Path.parts path).reverse.dropWhile List.isEmpty <:+ (Path.parts path).reverse :=
        List.dropWhile_suffix _
      have htrimmed : ((Path.parts path).reverse.dropWhile List.isEmpty).reverse = Path.parts path := by
        rw [hsuffix.eq_of_length_le (by simpa using Nat.le_of_not_lt hwhole), List.reverse_reverse]
      rw [htrimmed] at hresolve
      split at hsave
      · cases hsave
      next hreplace =>
        obtain rfl := Except.ok.inj hsave
        exact ⟨ps, hresolve, hreplace⟩

/-- A file that was saved is fetched, unless it was given to the null device. -/
theorem fetch_of_save (hsave : h.save path data = .ok h') (hpath : path ≠ nullDevice) :
    h'.fetch path = .ok data := by
  obtain ⟨ps, hresolve, hreplace⟩ := of_save hsave hpath
  obtain ⟨hrefused, -, rfl⟩ := of_replace hreplace
  have hagain := resolve_insert hresolve (nameOf (Path.isAbsolute path) ps) data
  simp only [fetch, beq_iff_eq, if_neg hpath, hagain, contents, hrefused, Std.TreeMap.getElem?_insert_self]

end Host

/-- What is written is read back, in a store and in a directory, except from the null device. -/
theorem FileSystem.read_of_write {fs fs' : FileSystem} {name data : Bytes} (h : fs.write name data = .ok fs')
    (hname : ∀ root host, fs = .directory root host → FileSystem.path root name ≠ Host.nullDevice) :
    fs'.read name = .ok data := by
  cases fs with
  | store files =>
    obtain rfl := Except.ok.inj h
    simp only [read, Std.TreeMap.getElem?_insert_self]
  | directory root host =>
    simp only [write] at h
    split at h
    next host' hsave =>
      obtain rfl := Except.ok.inj h
      simp only [read, Host.fetch_of_save hsave (hname root host rfl)]
    · cases h
  | failing failure => cases h

/-! ## Files of a store -/

namespace FileSystem

variable {fs fs' : FileSystem} {name other data data' : Bytes}

/-- A store holds a file. -/
def Holds (fs : FileSystem) (name data : Bytes) : Prop := ∃ files, fs = .store files ∧ files[name]? = some data

theorem Holds.read (h : fs.Holds name data) : fs.read name = .ok data := by
  obtain ⟨files, rfl, hdata⟩ := h
  simp only [FileSystem.read, hdata]

/-- A file that is written to a store is held by it, and each other file is what it was. -/
theorem holds_of_write {files : FileMap} (h : (store files).write name data = .ok fs') :
    fs'.Holds name data ∧ ∀ other, other ≠ name → fs'.read other = (store files).read other := by
  obtain rfl := Except.ok.inj h
  refine ⟨⟨_, rfl, Std.TreeMap.getElem?_insert_self⟩, fun other hne => ?_⟩
  have hcompare : compare name other ≠ .eq := by
    intro heq
    exact hne (Std.LawfulEqCmp.eq_of_compare heq).symm
  simp only [FileSystem.read, Std.TreeMap.getElem?_insert, if_neg hcompare]

/-- Writing another file keeps a file. -/
theorem Holds.write (h : fs.Holds name data) (hne : other ≠ name) (hwrite : fs.write other data' = .ok fs') :
    fs'.Holds name data := by
  obtain ⟨files, rfl, hdata⟩ := h
  obtain rfl := Except.ok.inj hwrite
  refine ⟨_, rfl, ?_⟩
  rw [Std.TreeMap.getElem?_insert, if_neg fun heq => hne (Std.LawfulEqCmp.eq_of_compare heq)]
  exact hdata

end FileSystem

namespace Machine

variable {m m' : Machine}

/-! ## Names -/

/-- An address names a file: a string of the image in context 0, and one of memory in context 1. -/
def Denotes (m : Machine) (context address : UInt64) (name : Bytes) : Prop :=
  context = 0 ∧ m.image.HasString address name ∨ context = 1 ∧ m.memory.HasString address name

theorem fileName_eq_ok_iff {number context address : UInt64} {name : Bytes} :
    m.fileName number context address = .ok name ↔ m.Denotes context address name := by
  unfold fileName Denotes
  split
  · rw [Image.string_eq_ok_iff]
    simp
  · rw [Memory.string_eq_ok_iff]
    simp
  next himage hmemory =>
    refine iff_of_false (fun h => (by cases h)) ?_
    rintro (⟨hcontext, -⟩ | ⟨hcontext, -⟩)
    · exact himage hcontext
    · exact hmemory hcontext

/-! ## What may be written -/

/-- The file that a host call writes if it succeeds. -/
def writtenFile? (m : Machine) (number : UInt64) : Option Bytes :=
  if Syscall.ofNumber? number = some .fileWrite then m.namedFile? number else none

/-- The number of the host call that an instruction makes. -/
def calledBy? (m : Machine) (i : Instruction) : Option UInt64 :=
  i.opcode.operation?.bind fun op => m.hostCall? op (Register.ofInt i.dst) i.imm

/-- The files after something was done: they are what they were or, if it succeeded, one of them was written, and
then only the one that it names. -/
inductive Stores (files : FileSystem) (name? : Option Bytes) (r : Machine × Option Fault) : Prop where
  | unchanged (h : r.1.files = files)
  | written {name data : Bytes} (hname : name? = some name) (hran : r.2 = none)
      (h : files.write name data = .ok r.1.files)

variable {files : FileSystem} {name? : Option Bytes}

theorem files_print (m : Machine) (text : Bytes) : (m.print text).1.files = m.files := by
  unfold print
  split <;> rfl

theorem files_writeMemory (m : Machine) (address : UInt64) (data : Bytes) :
    (m.writeMemory address data).1.files = m.files := by
  unfold writeMemory
  split <;> rfl

theorem files_fileRead (m : Machine) (name : Bytes) (buffer : UInt64) :
    (m.fileRead name buffer).1.files = m.files := by
  unfold fileRead
  split
  · rfl
  · exact files_writeMemory _ _ _

theorem stores_popping {k : Machine → UInt64 → Machine × Option Fault} (hm : m.files = files)
    (hk : ∀ value rest, m.operands.items = value :: rest.items →
      Stores files name? (k { m with operands := rest } value)) :
    Stores files name? (m.popping k) := by
  unfold popping
  split
  · exact .unchanged hm
  next value rest hpop => exact hk value rest (Stack.of_pop hpop).1

theorem stores_withFile {number : UInt64} {k : Machine → Bytes → UInt64 → Machine × Option Fault}
    (hk : ∀ rest name buffer, m.namedFile? number = some name →
      Stores m.files name? (k { m with operands := rest } name buffer)) :
    Stores m.files name? (m.withFile number k) := by
  refine stores_popping rfl fun nameAddress rest₁ hitems₁ => ?_
  refine stores_popping rfl fun buffer rest₂ hitems₂ => ?_
  refine stores_popping rfl fun context rest₃ hitems₃ => ?_
  have hitems : m.operands.items = nameAddress :: buffer :: context :: rest₃.items := by
    rw [hitems₁, hitems₂, hitems₃]
  dsimp only
  split
  · exact .unchanged rfl
  next name hname =>
    apply hk
    simp only [namedFile?, hitems]
    exact congrArg Except.toOption hname

/-- A host call writes no file, or the one that it names. -/
theorem stores_syscall (m : Machine) (number : UInt64) :
    Stores m.files (m.writtenFile? number) (m.syscall number) := by
  cases hcall : Syscall.ofNumber? number with
  | none =>
    simp only [syscall, hcall]
    exact .unchanged rfl
  | some call =>
    simp only [syscall, hcall]
    cases call with
    | printInt | printBin | printHex | printFloat | printSigned =>
      exact stores_popping rfl fun value rest _ => .unchanged (files_print _ _)
    | printStr | printBuf =>
      refine stores_popping rfl fun address rest _ => ?_
      dsimp only
      split
      · exact .unchanged rfl
      · exact .unchanged (files_print _ _)
    | readLine =>
      refine stores_popping rfl fun buffer rest _ => ?_
      dsimp only
      split
      · exact .unchanged rfl
      · exact .unchanged (files_writeMemory _ _ _)
    | fileRead => exact stores_withFile fun rest name buffer _ => .unchanged (files_fileRead _ _ _)
    | fileWrite =>
      refine stores_withFile fun rest name buffer hname => ?_
      unfold fileWrite
      split
      · exact .unchanged rfl
      · split
        · exact .unchanged rfl
        next files hwrite =>
          refine .written ?_ rfl hwrite
          rw [writtenFile?, if_pos hcall, hname]

theorem Stores.andThen {r : Machine × Option Fault} (h : Stores files name? r) (next : Int) :
    Stores files name? (andThen r next) := by
  obtain ⟨m₁, fault?⟩ := r
  cases fault? with
  | some fault => exact h
  | none =>
    cases h with
    | unchanged h => exact .unchanged h
    | written hname hran h => exact .written hname rfl h

/-- An operation writes no file, or the one that its host call names. -/
theorem stores_perform (m : Machine) (op : Operation) (dst src : Register) (imm : UInt64) (next : Int) :
    Stores m.files ((m.hostCall? op dst imm).bind m.writtenFile?) (m.perform op dst src imm next) := by
  cases op with
  | sys => exact (m.stores_syscall imm).andThen next
  | call => exact (m.stores_syscall (m.reg dst)).andThen next
  | ldr | indl | lei | lst | ltt | lsf =>
    refine Stores.andThen (.unchanged ?_) next
    unfold loadInto
    split <;> rfl
  | str | inds | sei | sst | stt | ssf =>
    refine Stores.andThen (.unchanged ?_) next
    unfold storeAt
    split <;> rfl
  | bufc =>
    refine Stores.andThen (.unchanged ?_) next
    unfold copyString
    split
    · rfl
    · exact files_writeMemory _ _ _
  | bseq | lseq =>
    refine Stores.andThen (.unchanged ?_) next
    unfold compareStrings
    split
    · rfl
    · split <;> rfl
  | push | pop | idiv =>
    simp only [perform]
    split <;> exact .unchanged rfl
  | jsr | ret =>
    simp only [perform, jumpSubroutine, returnSubroutine]
    split <;> exact .unchanged rfl
  | _ => exact .unchanged rfl

theorem stores_execute (m : Machine) (i : Instruction) :
    Stores m.files ((m.calledBy? i).bind m.writtenFile?) (m.execute i) := by
  unfold execute calledBy?
  cases i.opcode.operation? with
  | none => exact .unchanged rfl
  | some op => exact m.stores_perform op _ _ _ _

/-! ## Steps that do not write a file -/

/-- What the next instruction asks to be written is the file that its host call names. -/
theorem request?_of_fetch {i : Instruction} {name : Bytes} (hhalted : m.isHalted = false) (hfetch : m.fetch = .ok i)
    (h : (m.calledBy? i).bind m.writtenFile? = some name) : m.request? = some (.write name) := by
  obtain ⟨number, hcall, hwritten⟩ := Option.bind_eq_some_iff.mp h
  obtain ⟨op, hop, hhost⟩ := Option.bind_eq_some_iff.mp hcall
  have hnext : m.nextCall? = some number := by
    simp only [nextCall?, hfetch, hop]
    cases op with
    | sys | call => exact hhost
    | _ => cases hhost
  unfold writtenFile? at hwritten
  split at hwritten
  next hfile => simp only [request?, hhalted, Bool.false_eq_true, if_false, hnext, hfile, hwritten, Option.map_some]
  · cases hwritten

/-- The machine or its host does something other than to write the file of a name: it runs the next instruction or
another one, makes a host call, writes another file, or changes anything but files. A write that fails is not one. -/
inductive Spares (name : Bytes) (m : Machine) : Machine → Prop where
  | tick (h : m.tick.2 = .ran → m.request? ≠ some (.write name)) : Spares name m m.tick.1
  | executes (i : Instruction) (h : (m.execute i).2 = none → (m.calledBy? i).bind m.writtenFile? ≠ some name) :
      Spares name m (m.execute i).1
  | calls (number : UInt64) (h : (m.syscall number).2 = none → m.writtenFile? number ≠ some name) :
      Spares name m (m.syscall number).1
  | writes {other data : Bytes} {files : FileSystem} (hne : other ≠ name)
      (h : m.files.write other data = .ok files) : Spares name m { m with files := files }
  | changes {m' : Machine} (h : m'.files = m.files) : Spares name m m'

variable {name data : Bytes}

theorem Stores.holds {r : Machine × Option Fault} (h : Stores files name? r)
    (hname : r.2 = none → name? ≠ some name) (hfiles : files.Holds name data) : r.1.files.Holds name data := by
  cases h with
  | unchanged h =>
    rw [h]
    exact hfiles
  | @written other _ hother hran h =>
    refine hfiles.write ?_ h
    rintro rfl
    exact hname hran hother

/-- A tick does to files what the instruction at the program counter does. -/
theorem holds_tick (h : m.files.Holds name data) (hname : m.tick.2 = .ran → m.request? ≠ some (.write name)) :
    m.tick.1.files.Holds name data := by
  unfold tick at hname ⊢
  split
  · exact h
  next hhalted =>
    rw [if_neg hhalted] at hname
    cases hfetch : m.fetch with
    | error fault => exact h
    | ok i =>
      simp only [hfetch] at hname ⊢
      have hholds := @Stores.holds m.files _ name data _ (m.stores_execute i)
      generalize m.execute i = r at hname hholds ⊢
      obtain ⟨m', fault?⟩ := r
      cases fault? with
      | some fault => exact hholds (fun hnone => (by cases hnone)) h
      | none =>
        refine hholds (fun _ hwritten => hname rfl ?_) h
        exact request?_of_fetch (Bool.eq_false_iff.mpr hhalted) hfetch hwritten

theorem Spares.holds (h : Spares name m m') (hm : m.files.Holds name data) : m'.files.Holds name data := by
  cases h with
  | tick h => exact holds_tick hm h
  | executes i h => exact (m.stores_execute i).holds h hm
  | calls number h => exact (m.stores_syscall number).holds h hm
  | writes hne h => exact hm.write hne h
  | changes h =>
    rw [h]
    exact hm

/-- A file stays as it is until it is written. -/
theorem holds_of_spares (h : Relation.ReflTransGen (Spares name) m m') (hm : m.files.Holds name data) :
    m'.files.Holds name data := by
  induction h with
  | refl => exact hm
  | tail _ hstep ih => exact hstep.holds ih

/-! ## The two calls -/

/-- A call that takes its three operands goes on with the file that they name. -/
theorem withFile_eq {number nameAddress buffer context : UInt64} {rest : List UInt64}
    {k : Machine → Bytes → UInt64 → Machine × Option Fault}
    (hitems : m.operands.items = nameAddress :: buffer :: context :: rest)
    (hname : m.Denotes context nameAddress name) :
    ∃ operands, m.withFile number k = k { m with operands := operands } name buffer := by
  obtain ⟨rest₁, hpop₁, hitems₁, -⟩ := Stack.pop_of_cons hitems
  obtain ⟨rest₂, hpop₂, hitems₂, -⟩ := Stack.pop_of_cons hitems₁
  obtain ⟨rest₃, hpop₃, -, -⟩ := Stack.pop_of_cons hitems₂
  have hok : ({ m with operands := rest₃ } : Machine).fileName number context nameAddress = .ok name :=
    fileName_eq_ok_iff.mpr hname
  refine ⟨rest₃, ?_⟩
  simp only [withFile, popping, hpop₁, hpop₂, hpop₃, hok]

/-- The call that writes a file has found its name and a string, and has stored the string. -/
theorem syscall_fileWrite (h : m.syscall 9 = (m', none)) :
    ∃ nameAddress buffer context rest name s, m.operands.items = nameAddress :: buffer :: context :: rest ∧
      m.Denotes context nameAddress name ∧ m.memory.HasString buffer s ∧ m.files.write name s = .ok m'.files := by
  obtain ⟨nameAddress, buffer, context, rest, name, hitems, -, hname, h⟩ :=
    of_withFile (show m.withFile 9 fileWrite = (m', none) from h)
  unfold fileWrite at h
  split at h
  · cases h
  next s hs =>
    split at h
    · cases h
    next files hwrite =>
      obtain rfl := congrArg Prod.fst h
      exact ⟨nameAddress, buffer, context, rest.items, name, s, hitems, fileName_eq_ok_iff.mp hname,
        Memory.string_eq_ok_iff.mp hs, hwrite⟩

/-- The call that reads a file succeeds if the file and a zero byte fit behind the buffer, and puts them there. -/
theorem syscall_fileRead {nameAddress buffer context : UInt64} {rest : List UInt64}
    (hitems : m.operands.items = nameAddress :: buffer :: context :: rest)
    (hname : m.Denotes context nameAddress name) (hread : m.files.read name = .ok data) :
    ((m.syscall 8).2 = none ↔ buffer.toNat + data.length + 1 ≤ m.memory.limit) ∧
      ((m.syscall 8).2 = none → (m.syscall 8).1.memory = m.memory.put buffer.toNat (data ++ [0])) := by
  obtain ⟨operands, heq⟩ := @withFile_eq m name 8 nameAddress buffer context rest fileRead hitems hname
  have hsyscall : m.syscall 8 = ({ m with operands := operands } : Machine).writeMemory buffer (data ++ [0]) := by
    rw [show m.syscall 8 = m.withFile 8 fileRead from rfl, heq]
    simp only [fileRead, hread]
  have hlength : (data ++ [0]).length = data.length + 1 := List.length_append
  rw [hsyscall, writeMemory_eq, hlength, ← Nat.add_assoc]
  dsimp only
  by_cases hfits : buffer.toNat + data.length + 1 ≤ m.memory.limit
  · rw [if_pos hfits]
    exact ⟨iff_of_true rfl hfits, fun _ => rfl⟩
  · rw [if_neg hfits]
    exact ⟨iff_of_false (fun h => (by cases h)) hfits, fun h => (by cases h)⟩

/-- The call 9 that writes a file of a store succeeds only with a name and a string. Then the store holds the string
under the name and no other file is changed. Until the file is written again, it stays so whatever becomes of the
machine, and the call 8 that reads the file, by a name in the image or in memory, succeeds if and only if the string
and a zero byte fit behind the buffer. It puts them there, leaves all other memory as it was, and changes no file. -/
theorem written_file_reads_back {m m₁ : Machine} {files : FileMap} (hfiles : m.files = .store files)
    (hwrite : m.syscall 9 = (m₁, none)) :
    ∃ nameAddress buffer context rest name s,
      m.operands.items = nameAddress :: buffer :: context :: rest ∧ m.Denotes context nameAddress name ∧
      m.memory.HasString buffer s ∧ (∀ other, other ≠ name → m₁.files.read other = m.files.read other) ∧
      ∀ later, Relation.ReflTransGen (Spares name) m₁ later → later.files.read name = .ok s ∧
        ∀ (nameAddress b context : UInt64) (rest : List UInt64),
          later.operands.items = nameAddress :: b :: context :: rest → later.Denotes context nameAddress name →
            ((later.syscall 8).2 = none ↔ (b.toNat + s.length + 1 : Int) ≤ later.memory.size) ∧
            (later.syscall 8).1.files = later.files ∧
            ((later.syscall 8).2 = none →
              HeldAt (later.syscall 8).1.memory.byte b.toNat (s ++ [0]) ∧
              (later.syscall 8).1.memory.size = later.memory.size ∧
              ∀ place, place < b.toNat ∨ b.toNat + s.length + 1 ≤ place →
                (later.syscall 8).1.memory.byte place = later.memory.byte place) := by
  obtain ⟨nameAddress, buffer, context, rest, name, s, hitems, hname, hs, hstored⟩ := syscall_fileWrite hwrite
  rw [hfiles] at hstored
  obtain ⟨hholds, hothers⟩ := FileSystem.holds_of_write hstored
  rw [← hfiles] at hothers
  refine ⟨nameAddress, buffer, context, rest, name, s, hitems, hname, hs, hothers, ?_⟩
  intro later hlater
  have hread := (holds_of_spares hlater hholds).read
  refine ⟨hread, ?_⟩
  intro nameAddress b context rest hitems hname
  obtain ⟨hsucceeds, hmemory⟩ := syscall_fileRead hitems hname hread
  refine ⟨?_, ?_, fun hran => ?_⟩
  · rw [hsucceeds, Memory.limit]
    omega
  · -- only the call 9 writes files
    cases later.stores_syscall 8 with
    | unchanged h => exact h
    | written hwritten =>
      rw [writtenFile?, if_neg (by decide)] at hwritten
      cases hwritten
  · rw [hmemory hran]
    refine ⟨Memory.heldAt_put _ _ _, Memory.size_put _ _ _, fun place hplace => ?_⟩
    apply Memory.byte_put_of_apart
    rw [List.length_append, List.length_singleton]
    omega

/-- A machine that is to write the string `hi`, which stands at the start of its memory of eight bytes, to the file
that its image names. -/
def beforeWrite : Machine :=
  { (create 8 8 8 {} (.store ∅)).load #[0x6e, 0x00] with
    memory := (⟨8, ∅⟩ : Memory).put 0 (bytes "hi"), operands := ⟨[0, 0, 0], 3, 8, rfl⟩ }

/-- The machine after the write, with the name of the file where the string was, about to read the file. -/
def beforeRead (buffer : UInt64) : Machine :=
  { (beforeWrite.syscall 9).1 with
    memory := (beforeWrite.syscall 9).1.memory.put 0 [0x6e, 0x00, 0x21]
    operands := ⟨[0, buffer, 1], 3, 8, rfl⟩ }

/-- The string is read back to the last three bytes of memory, and not one byte further. -/
theorem written_file_reads_back_at_end :
    (beforeWrite.syscall 9).2 = none ∧ (beforeRead 5).files.read (bytes "n") = .ok (bytes "hi") ∧
      ((beforeRead 5).syscall 8).2 = none ∧ ((beforeRead 6).syscall 8).2 ≠ none ∧
      HeldAt ((beforeRead 5).syscall 8).1.memory.byte 5 (bytes "hi" ++ [0]) ∧
      ((beforeRead 5).syscall 8).1.memory.byte 2 = 0x21 := by
  have hwrite : (beforeWrite.syscall 9).2 = none := by decide +kernel
  have hfile : beforeWrite.image.string 0 = .ok (bytes "n") := by decide +kernel
  have hstring : beforeWrite.memory.string 0 = .ok (bytes "hi") := by decide +kernel
  obtain ⟨nameAddress, buffer, context, rest, name, s, hitems, hname, hs, -, hlater⟩ :=
    @written_file_reads_back beforeWrite (beforeWrite.syscall 9).1 ∅ rfl (Prod.ext rfl hwrite)
  obtain ⟨rfl, rfl, rfl, rfl⟩ : 0 = nameAddress ∧ 0 = buffer ∧ 0 = context ∧ [] = rest := by
    simpa [beforeWrite] using hitems
  obtain rfl := Except.ok.inj (hfile.symm.trans (@fileName_eq_ok_iff beforeWrite 9 0 0 name |>.mpr hname))
  obtain rfl := Except.ok.inj (hstring.symm.trans (Memory.string_eq_ok_iff.mpr hs))
  -- the string is overwritten by the name, which is then found in memory
  have hread (b : UInt64) := hlater (beforeRead b) (.single (.changes rfl))
  have hdenotes (b : UInt64) : (beforeRead b).Denotes 1 0 (bytes "n") := by
    refine .inr ⟨rfl, Memory.string_eq_ok_iff.mp ?_⟩
    show (beforeRead 0).memory.string 0 = _
    decide +kernel
  have hcalls (b : UInt64) := (hread b).2 0 b 1 [] rfl (hdenotes b)
  obtain ⟨hfits, -, hput⟩ := hcalls 5
  have hran : ((beforeRead 5).syscall 8).2 = none := hfits.mpr (by decide +kernel)
  obtain ⟨hheld, -, hothers⟩ := hput hran
  refine ⟨hwrite, (hread 5).1, hran, ?_, hheld, ?_⟩
  · rw [ne_eq, (hcalls 6).1]
    decide +kernel
  · rw [hothers 2 (.inl (by decide))]
    decide +kernel

end Machine

end WordMachine
