import Mathlib
import WordMachine.Include
import WordMachine.Proofs.Text

/-!
# `Proofs.Include` — inclusion loses nothing and repeats nothing

Files may include each other in any way, themselves included. A path that was seen stands for nothing, so the
paths still unseen bound how deep files include files, and what is spliced in are the files that the text
reaches, each of them once.

Contents:
* `Names`, `plain`, `fileLines`, `Proper`, `Reaches`: files and the files that they include;
* `Splices`, `Refuses`: splicing as a recursion without a bound, with the file that each line comes from;
* `unseen`, `splice_concludes`, `expand_concludes`: the recursion ends, and the bound is never used up;
* `Splices.nodup`, `named`, `reached`, `proper`, `perm`, `own`, `included_lines`: what is spliced in;
* `Refuses.improper`, `expand_lossless`: when all that is reached is proper, and what comes out then.
-/

namespace WordMachine.Library

/-! ## Files and what they include -/

/-- A directive among the lines names the path. -/
def Names (lines : List Bytes) (path : Bytes) : Prop := ∃ line ∈ lines, Directive.ofLine line = .file path

/-- The lines that are no directives. -/
def plain (lines : List Bytes) : List Bytes := lines.filter fun line => Directive.ofLine line = .other

/-- The lines of a file; a file that does not exist has none. -/
def fileLines (lib : Library) (path : Bytes) : List Bytes := Bytes.lines ((lib.lookup path).toOption.getD [])

/-- Every directive among the lines is well-formed and names a file that exists. -/
def Proper (lib : Library) (lines : List Bytes) : Prop :=
  ∀ line ∈ lines, Directive.ofLine line ≠ .other →
    ∃ path data, Directive.ofLine line = .file path ∧ lib.lookup path = .ok data

/-- Lines include a path, directly or through other files. -/
inductive Reaches (lib : Library) : List Bytes → Bytes → Prop where
  | direct {lines : List Bytes} {path : Bytes} (h : Names lines path) : Reaches lib lines path
  | through {lines : List Bytes} {path other : Bytes} (h : Names lines path)
      (rest : Reaches lib (lib.fileLines path) other) : Reaches lib lines other

variable {lib : Library} {origin : Option Bytes} {seen lines : List Bytes} {line path data : Bytes}

theorem fileLines_of_lookup (h : lib.lookup path = .ok data) : lib.fileLines path = Bytes.lines data := by
  rw [fileLines, h]
  rfl

theorem names_cons_of_names (h : Names lines path) : Names (line :: lines) path := by
  obtain ⟨l, hl, hfile⟩ := h
  exact ⟨l, List.mem_cons_of_mem line hl, hfile⟩

theorem names_head (h : Directive.ofLine line = .file path) : Names (line :: lines) path :=
  ⟨line, List.mem_cons_self, h⟩

theorem plain_cons_other (h : Directive.ofLine line = .other) : plain (line :: lines) = line :: plain lines := by
  rw [plain, List.filter_cons_of_pos (by simp [h]), plain]

theorem plain_cons_file (h : Directive.ofLine line = .file path) : plain (line :: lines) = plain lines := by
  rw [plain, List.filter_cons_of_neg (by simp [h]), plain]

theorem proper_cons_other (h : Directive.ofLine line = .other) (hlines : lib.Proper lines) :
    lib.Proper (line :: lines) :=
  List.forall_mem_cons.mpr ⟨fun hne => absurd h hne, hlines⟩

theorem proper_cons_file (h : Directive.ofLine line = .file path) (hfound : lib.lookup path = .ok data)
    (hlines : lib.Proper lines) : lib.Proper (line :: lines) :=
  List.forall_mem_cons.mpr ⟨fun _ => ⟨path, data, h, hfound⟩, hlines⟩

/-- What the rest of the lines reaches, all lines reach. -/
theorem Reaches.cons {other : Bytes} (h : lib.Reaches lines other) : lib.Reaches (line :: lines) other := by
  cases h with
  | direct h => exact .direct (names_cons_of_names h)
  | through h rest => exact .through (names_cons_of_names h) rest

/-- Paths that hold what lines name, and what the files at these paths name, hold all that the lines reach. -/
theorem Reaches.mem_of_closed {paths : List Bytes} (hlines : ∀ p, Names lines p → p ∈ paths)
    (hclosed : ∀ q ∈ paths, ∀ p, Names (lib.fileLines q) p → p ∈ paths) (h : lib.Reaches lines path) :
    path ∈ paths := by
  induction h with
  | direct h => exact hlines _ h
  | through h _ ih => exact ih (hclosed _ (hlines _ h))

/-! ## Splicing without a bound -/

/-- Splicing lines of a file, the root text being no file, after some paths were seen: the lines that come out,
each with its file, and the paths seen on the way, latest first. -/
inductive Splices (lib : Library) :
    Option Bytes → List Bytes → List Bytes → List (Option Bytes × Bytes) → List Bytes → Prop where
  | nil {origin : Option Bytes} {seen : List Bytes} : Splices lib origin seen [] [] []
  | other {origin : Option Bytes} {seen lines new : List Bytes} {line : Bytes} {out : List (Option Bytes × Bytes)}
      (directive : Directive.ofLine line = .other) (rest : Splices lib origin seen lines out new) :
      Splices lib origin seen (line :: lines) ((origin, line) :: out) new
  | again {origin : Option Bytes} {seen lines new : List Bytes} {line path : Bytes}
      {out : List (Option Bytes × Bytes)} (directive : Directive.ofLine line = .file path) (known : path ∈ seen)
      (rest : Splices lib origin seen lines out new) : Splices lib origin seen (line :: lines) out new
  | included {origin : Option Bytes} {seen lines new new' : List Bytes} {line path data : Bytes}
      {out out' : List (Option Bytes × Bytes)} (directive : Directive.ofLine line = .file path)
      (fresh : path ∉ seen) (found : lib.lookup path = .ok data)
      (inner : Splices lib (some path) (path :: seen) (Bytes.lines data) out new)
      (rest : Splices lib origin (new ++ path :: seen) lines out' new') :
      Splices lib origin seen (line :: lines) (out ++ out') (new' ++ (new ++ [path]))

/-- Splicing lines stops at a directive that is malformed or names no file, perhaps one of a file that a line
includes. Lines are numbered in their file. -/
inductive Refuses (lib : Library) : List Bytes → Nat → List Bytes → IncludeError → Prop where
  | malformed {seen lines : List Bytes} {number : Nat} {line path : Bytes}
      (directive : Directive.ofLine line = .malformed path) :
      Refuses lib seen number (line :: lines) ⟨number, line, .malformed⟩
  | missing {seen lines : List Bytes} {number : Nat} {line path : Bytes} {cause : PathError}
      (directive : Directive.ofLine line = .file path) (fresh : path ∉ seen)
      (absent : lib.lookup path = .error cause) :
      Refuses lib seen number (line :: lines) ⟨number, line, .path cause⟩
  | inner {seen lines : List Bytes} {number : Nat} {line path data : Bytes} {e : IncludeError}
      (directive : Directive.ofLine line = .file path) (fresh : path ∉ seen) (found : lib.lookup path = .ok data)
      (stop : Refuses lib (path :: seen) 1 (Bytes.lines data) e) : Refuses lib seen number (line :: lines) e
  | later {seen lines new : List Bytes} {number : Nat} {line : Bytes} {out : List (Option Bytes × Bytes)}
      {e : IncludeError} (first : Splices lib none seen [line] out new)
      (stop : Refuses lib (new ++ seen) (number + 1) lines e) : Refuses lib seen number (line :: lines) e

/-- The recursion ends with a result. -/
def Concludes (lib : Library) (origin : Option Bytes) (seen : List Bytes) (number : Nat) (lines : List Bytes)
    (result : Except IncludeError Spliced) : Prop :=
  (∃ out new, result = .ok ⟨out.map Prod.snd, new ++ seen⟩ ∧ lib.Splices origin seen lines out new) ∨
    ∃ e, result = .error e ∧ lib.Refuses seen number lines e

/-! ## The bound -/

/-- The paths that the files of a library name, also in directives that are malformed. -/
def named (lib : Library) : List Bytes :=
  lib.files.values.flatMap fun data => (Bytes.lines data).filterMap fun line => (Directive.ofLine line).path?

/-- The named paths that were not seen. -/
def unseen (lib : Library) (seen : List Bytes) : Finset Bytes := lib.named.toFinset \ seen.toFinset

theorem length_named_lt (lib : Library) : lib.named.length < lib.depth := by
  have hfold (contents : List Bytes) :
      (contents.flatMap fun data => (Bytes.lines data).filterMap fun line => (Directive.ofLine line).path?).length <
        contents.foldr (fun data n => (Bytes.lines data).length + 1 + n) 1 := by
    induction contents with
    | nil => exact Nat.zero_lt_one
    | cons data contents ih =>
      have hle := List.length_filterMap_le (fun line => (Directive.ofLine line).path?) (Bytes.lines data)
      rw [List.flatMap_cons, List.length_append, List.foldr_cons]
      omega
  exact hfold lib.files.values

theorem card_unseen_lt_depth (lib : Library) (seen : List Bytes) : (lib.unseen seen).card < lib.depth :=
  calc (lib.unseen seen).card
      ≤ lib.named.toFinset.card := Finset.card_le_card Finset.sdiff_subset
    _ ≤ lib.named.length := List.toFinset_card_le _
    _ < lib.depth := lib.length_named_lt

/-- Following a path that the library names leaves fewer paths unseen. -/
theorem card_unseen_lt {seen' : List Bytes} (hseen : seen ⊆ seen') (hfresh : path ∉ seen')
    (hnamed : path ∈ lib.named) : (lib.unseen (path :: seen')).card < (lib.unseen seen).card := by
  apply Finset.card_lt_card
  refine Finset.ssubset_iff_of_subset ?_ |>.mpr ⟨path, ?_, ?_⟩
  · intro p hp
    simp only [unseen, Finset.mem_sdiff, List.mem_toFinset, List.mem_cons, not_or] at hp ⊢
    exact ⟨hp.1, fun hmem => hp.2.2 (hseen hmem)⟩
  · simp only [unseen, Finset.mem_sdiff, List.mem_toFinset]
    exact ⟨hnamed, fun hmem => hfresh (hseen hmem)⟩
  · simp [unseen]

/-- What is looked up is a file of the library, or the device that holds no bytes. -/
theorem mem_values_of_lookup (h : lib.lookup path = .ok data) : data = [] ∨ data ∈ lib.files.values := by
  have hvalues (files : FileMap) {name : Bytes} (hname : files[name]? = some data) : data ∈ files.values := by
    have hfold : files.values = files.foldr (fun _ v rest => v :: rest) [] := rfl
    rw [hfold, Std.TreeMap.foldr_eq_foldr_toList, ← List.map_eq_foldr]
    exact List.mem_map_of_mem (Std.TreeMap.mem_toList_iff_getElem?_eq_some.mpr hname)
  cases lib with
  | store files =>
    unfold lookup at h
    dsimp only at h
    split at h
    · split at h
      next hname =>
        cases h
        exact .inr (hvalues files hname)
      · cases h
    · cases h
  | host host =>
    unfold lookup Host.fetch at h
    dsimp only at h
    split at h
    · exact .inl (Except.ok.inj h).symm
    · split at h
      · cases h
      · split at h
        · cases h
        next hcontents =>
          cases h
          unfold Host.contents at hcontents
          dsimp only at hcontents
          split at hcontents
          · cases hcontents
          next hname =>
            cases hcontents
            exact .inr (hvalues host.files hname)
          · cases hcontents

/-- A file of the library names paths that the library names. -/
theorem mem_named_of_lookup (h : lib.lookup path = .ok data) {p : Bytes} (hp : Names (Bytes.lines data) p) :
    p ∈ lib.named := by
  obtain ⟨line, hline, hfile⟩ := hp
  rcases mem_values_of_lookup h with rfl | hdata
  · cases hline
  · exact List.mem_flatMap.mpr ⟨data, hdata, List.mem_filterMap.mpr ⟨line, hline, by rw [hfile]; rfl⟩⟩

/-- Splicing lines ends if splicing the files that they name does. -/
theorem spliceLines_concludes {nested : List Bytes → Bytes → Except IncludeError Spliced} {number : Nat}
    (hnested : ∀ seen' path data, seen ⊆ seen' → path ∉ seen' → Names lines path →
      lib.lookup path = .ok data →
      lib.Concludes (some path) (path :: seen') 1 (Bytes.lines data) (nested (path :: seen') data)) :
    lib.Concludes origin seen number lines (lib.spliceLines nested seen number lines) := by
  induction lines generalizing seen number with
  | nil => exact .inl ⟨[], [], rfl, .nil⟩
  | cons line lines ih =>
    -- The paths seen only grow along the lines, so what is known of the files holds for the rest too.
    have hrest {seen' : List Bytes} (hsub : seen ⊆ seen') :
        lib.Concludes origin seen' (number + 1) lines (lib.spliceLines nested seen' (number + 1) lines) :=
      ih fun seen'' path data hsub' hfresh hnames =>
        hnested seen'' path data (List.Subset.trans hsub hsub') hfresh (names_cons_of_names hnames)
    rw [spliceLines]
    split
    next hother =>
      rcases hrest (List.Subset.refl seen) with ⟨out, new, hresult, h⟩ | ⟨e, hresult, h⟩
      · rw [hresult]
        exact .inl ⟨(origin, line) :: out, new, rfl, .other hother h⟩
      · rw [hresult]
        exact .inr ⟨e, rfl, .later (.other hother .nil) h⟩
    next hmalformed => exact .inr ⟨_, rfl, .malformed hmalformed⟩
    next path hfile =>
      split
      next hknown =>
        rcases hrest (List.Subset.refl seen) with ⟨out, new, hresult, h⟩ | ⟨e, hresult, h⟩
        · exact .inl ⟨out, new, hresult, .again hfile hknown h⟩
        · exact .inr ⟨e, hresult, .later (.again hfile hknown .nil) h⟩
      next hfresh =>
        split
        next cause habsent => exact .inr ⟨_, rfl, .missing hfile hfresh habsent⟩
        next data hfound =>
          rcases hnested seen path data (List.Subset.refl seen) hfresh (names_head hfile) hfound with
            ⟨out, new, hresult, hinner⟩ | ⟨e, hresult, hinner⟩
          · rw [hresult]
            have hsub : seen ⊆ new ++ path :: seen :=
              List.subset_append_of_subset_right new (List.subset_cons_self path seen)
            dsimp only
            rcases hrest hsub with ⟨out', new', hresult', h⟩ | ⟨e, hresult', h⟩
            · rw [hresult']
              exact .inl ⟨out ++ out', new' ++ (new ++ [path]), by simp, .included hfile hfresh hfound hinner h⟩
            · rw [hresult']
              have hfirst : lib.Splices none seen [line] (out ++ []) ([] ++ (new ++ [path])) :=
                .included hfile hfresh hfound hinner .nil
              exact .inr ⟨e, rfl, .later hfirst (by simpa using h)⟩
          · rw [hresult]
            exact .inr ⟨e, rfl, .inner hfile hfresh hfound hinner⟩

/-- Splicing a file of the library ends before the fuel is used up, if there is more of it than paths unseen. -/
theorem splice_concludes {fuel : Nat} (hnamed : ∀ p, Names (Bytes.lines data) p → p ∈ lib.named)
    (hfuel : (lib.unseen seen).card < fuel) :
    lib.Concludes origin seen 1 (Bytes.lines data) (lib.splice fuel seen data) := by
  induction fuel generalizing origin seen data with
  | zero => exact absurd hfuel (Nat.not_lt_zero _)
  | succ fuel ih =>
    apply spliceLines_concludes
    intro seen' path data' hsub hfresh hnames hfound
    -- A file that is followed takes one unit of fuel and leaves at least one path less unseen.
    have hless := card_unseen_lt hsub hfresh (hnamed path hnames)
    exact ih (fun p hp => mem_named_of_lookup hfound hp) (by omega)

/-- Splicing a text ends. The paths of the root text need not be named by a file, so the root takes one more
unit of fuel. -/
theorem expand_concludes (lib : Library) (text : Bytes) :
    lib.Concludes none [] 1 (Bytes.lines text) (lib.splice (lib.depth + 1) [] text) := by
  apply spliceLines_concludes
  intro seen' path data _ _ _ hfound
  exact splice_concludes (fun p hp => mem_named_of_lookup hfound hp) (lib.card_unseen_lt_depth _)

/-! ## What is spliced in -/

namespace Splices

variable {new : List Bytes} {out : List (Option Bytes × Bytes)}

/-- No path is seen twice. -/
theorem nodup (h : lib.Splices origin seen lines out new) : new.Nodup ∧ ∀ p ∈ new, p ∉ seen := by
  induction h with
  | nil => exact ⟨List.nodup_nil, List.forall_mem_nil _⟩
  | other _ _ ih => exact ih
  | again _ _ _ ih => exact ih
  | @included _ seen _ new new' _ path _ _ _ _ fresh _ _ _ ihinner ihrest =>
    obtain ⟨hinner, hinnerFresh⟩ := ihinner
    obtain ⟨hrest, hrestFresh⟩ := ihrest
    have hpath : (new ++ [path]).Nodup := by
      refine List.nodup_append.mpr ⟨hinner, List.nodup_singleton path, ?_⟩
      rintro p hp q hq rfl
      rw [List.mem_singleton] at hq
      exact hinnerFresh p hp (by rw [hq]; exact List.mem_cons_self)
    refine ⟨List.nodup_append.mpr ⟨hrest, hpath, ?_⟩, ?_⟩
    -- The rest of the lines starts with the file and all that it brought in as seen.
    · rintro p hp q hq rfl
      apply hrestFresh p hp
      rcases List.mem_append.mp hq with hq | hq
      · exact List.mem_append_left _ hq
      · rw [List.mem_singleton.mp hq]
        exact List.mem_append_right _ List.mem_cons_self
    · intro p hp hmem
      rcases List.mem_append.mp hp with hp | hp
      · exact hrestFresh p hp (List.mem_append_right _ (List.mem_cons_of_mem path hmem))
      · rcases List.mem_append.mp hp with hp | hp
        · exact hinnerFresh p hp (List.mem_cons_of_mem path hmem)
        · rw [List.mem_singleton.mp hp] at hmem
          exact fresh hmem

/-- What lines name is seen, and so is what the files spliced in name. -/
theorem named (h : lib.Splices origin seen lines out new) :
    (∀ p, Names lines p → p ∈ new ++ seen) ∧
      ∀ q ∈ new, ∀ p, Names (lib.fileLines q) p → p ∈ new ++ seen := by
  induction h with
  | nil =>
    refine ⟨?_, List.forall_mem_nil _⟩
    rintro p ⟨line, hline, -⟩
    cases hline
  | other directive _ ih =>
    refine ⟨?_, ih.2⟩
    rintro p ⟨l, hl, hfile⟩
    rcases List.mem_cons.mp hl with rfl | hl
    · rw [directive] at hfile
      cases hfile
    · exact ih.1 p ⟨l, hl, hfile⟩
  | again directive known _ ih =>
    refine ⟨?_, ih.2⟩
    rintro p ⟨l, hl, hfile⟩
    rcases List.mem_cons.mp hl with rfl | hl
    · rw [directive] at hfile
      cases hfile
      exact List.mem_append_right _ known
    · exact ih.1 p ⟨l, hl, hfile⟩
  | @included _ seen lines new new' line path data _ _ directive fresh found _ _ ihinner ihrest =>
    -- the file, what it brought in, and the lines behind the directive, in the order in which they were seen
    have hall : new' ++ (new ++ [path]) ++ seen = new' ++ (new ++ path :: seen) := by simp
    have hinner (p : Bytes) (hp : p ∈ new ++ path :: seen) : p ∈ new' ++ (new ++ path :: seen) :=
      List.mem_append_right _ hp
    rw [hall]
    refine ⟨?_, ?_⟩
    · rintro p ⟨l, hl, hfile⟩
      rcases List.mem_cons.mp hl with rfl | hl
      · rw [directive] at hfile
        cases hfile
        exact hinner path (List.mem_append_right _ List.mem_cons_self)
      · exact ihrest.1 p ⟨l, hl, hfile⟩
    · intro q hq p hp
      rcases List.mem_append.mp hq with hq | hq
      · exact ihrest.2 q hq p hp
      · rcases List.mem_append.mp hq with hq | hq
        · exact hinner p (ihinner.2 q hq p hp)
        · rw [List.mem_singleton.mp hq, fileLines_of_lookup found] at hp
          exact hinner p (ihinner.1 p hp)

/-- Only what lines reach is spliced in. -/
theorem reached (h : lib.Splices origin seen lines out new) : ∀ p ∈ new, lib.Reaches lines p := by
  induction h with
  | nil => exact List.forall_mem_nil _
  | other _ _ ih => exact fun p hp => (ih p hp).cons
  | again _ _ _ ih => exact fun p hp => (ih p hp).cons
  | included directive _ found _ _ ihinner ihrest =>
    intro p hp
    rcases List.mem_append.mp hp with hp | hp
    · exact (ihrest p hp).cons
    · rcases List.mem_append.mp hp with hp | hp
      · have hreaches := ihinner p hp
        rw [← fileLines_of_lookup found] at hreaches
        exact .through (names_head directive) hreaches
      · rw [List.mem_singleton.mp hp]
        exact .direct (names_head directive)

/-- All directives on the way are proper. Those that name a path seen before are, if that path exists. -/
theorem proper (h : lib.Splices origin seen lines out new)
    (hseen : ∀ p ∈ seen, ∃ data, lib.lookup p = .ok data) :
    lib.Proper lines ∧ ∀ p ∈ new, (∃ data, lib.lookup p = .ok data) ∧ lib.Proper (lib.fileLines p) := by
  induction h with
  | nil => exact ⟨List.forall_mem_nil _, List.forall_mem_nil _⟩
  | other directive _ ih =>
    obtain ⟨hlines, hnew⟩ := ih hseen
    exact ⟨proper_cons_other directive hlines, hnew⟩
  | again directive known _ ih =>
    obtain ⟨hlines, hnew⟩ := ih hseen
    obtain ⟨data, hdata⟩ := hseen _ known
    exact ⟨proper_cons_file directive hdata hlines, hnew⟩
  | included directive _ found _ _ ihinner ihrest =>
    have hcons := List.forall_mem_cons.mpr ⟨⟨_, found⟩, hseen⟩
    obtain ⟨hdata, hinner⟩ := ihinner hcons
    obtain ⟨hlines, hnew⟩ := ihrest (List.forall_mem_append.mpr ⟨fun p hp => (hinner p hp).1, hcons⟩)
    refine ⟨proper_cons_file directive found hlines, ?_⟩
    refine List.forall_mem_append.mpr ⟨hnew, List.forall_mem_append.mpr ⟨hinner, ?_⟩⟩
    refine List.forall_mem_singleton.mpr ⟨⟨_, found⟩, ?_⟩
    rwa [fileLines_of_lookup found]

/-- No line that comes out is a directive, and each comes from the lines or from a file spliced in. -/
theorem mem_out (h : lib.Splices origin seen lines out new) :
    ∀ l ∈ out, Directive.ofLine l.2 = .other ∧ (l.1 = origin ∨ ∃ p ∈ new, l.1 = some p) := by
  induction h with
  | nil => exact List.forall_mem_nil _
  | other directive _ ih => exact List.forall_mem_cons.mpr ⟨⟨directive, .inl rfl⟩, ih⟩
  | again _ _ _ ih => exact ih
  | @included _ _ _ new new' _ path _ _ _ _ _ _ _ _ ihinner ihrest =>
    refine List.forall_mem_append.mpr ⟨fun l hl => ?_, fun l hl => ?_⟩
    · obtain ⟨hother, hfrom⟩ := ihinner l hl
      refine ⟨hother, .inr ?_⟩
      rcases hfrom with hfrom | ⟨p, hp, hfrom⟩
      · exact ⟨path, by simp, hfrom⟩
      · exact ⟨p, by simp [hp], hfrom⟩
    · obtain ⟨hother, hfrom⟩ := ihrest l hl
      refine ⟨hother, hfrom.imp_right ?_⟩
      rintro ⟨p, hp, hfrom⟩
      exact ⟨p, List.mem_append_left _ hp, hfrom⟩

/-- What comes out are the plain lines and those of the files spliced in. -/
theorem perm (h : lib.Splices origin seen lines out new) :
    (out.map Prod.snd).Perm (plain lines ++ new.flatMap fun p => plain (lib.fileLines p)) := by
  induction h with
  | nil => exact .nil
  | other directive _ ih =>
    rw [List.map_cons, plain_cons_other directive]
    exact ih.cons _
  | again directive _ _ ih =>
    rw [plain_cons_file directive]
    exact ih
  | @included _ _ lines new new' _ path data out out' directive _ found _ _ ihinner ihrest =>
    have hfile : [path].flatMap (fun p => plain (lib.fileLines p)) = plain (Bytes.lines data) := by
      rw [List.flatMap_singleton, fileLines_of_lookup found]
    rw [plain_cons_file directive, List.map_append, List.flatMap_append, List.flatMap_append, hfile,
      ← List.append_assoc]
    -- the lines of the file come out first, and its path stands last among the paths seen
    calc _
      List.Perm _ _ := ihinner.append ihrest
      List.Perm _ _ := List.perm_append_comm
      List.Perm _ _ := List.perm_append_comm.append_left _

/-- The lines of a file, in the order in which they come out. -/
def linesOf (origin : Option Bytes) (out : List (Option Bytes × Bytes)) : List Bytes :=
  (out.filter fun l => l.1 = origin).map Prod.snd

theorem linesOf_append (out out' : List (Option Bytes × Bytes)) :
    linesOf origin (out ++ out') = linesOf origin out ++ linesOf origin out' := by
  rw [linesOf, List.filter_append, List.map_append, linesOf, linesOf]

theorem linesOf_eq_nil (h : ∀ l ∈ out, l.1 ≠ origin) : linesOf origin out = [] := by
  rw [linesOf, List.filter_eq_nil_iff.mpr (by simpa using h), List.map_nil]

/-- A file that was seen before and whose lines are not the ones spliced adds nothing. -/
theorem linesOf_seen (h : lib.Splices origin seen lines out new) (hseen : path ∈ seen)
    (hne : origin ≠ some path) : linesOf (some path) out = [] := by
  apply linesOf_eq_nil
  intro l hl hpath
  rcases (h.mem_out l hl).2 with hfrom | ⟨p, hp, hfrom⟩
  · exact hne (hfrom.symm.trans hpath)
  · rw [hfrom] at hpath
    cases hpath
    exact h.nodup.2 path hp hseen

/-- The plain lines come out in order, if their own file is no path still to be seen. -/
theorem own (h : lib.Splices origin seen lines out new) (hown : ∀ p, origin = some p → p ∈ seen) :
    linesOf origin out = plain lines := by
  induction h with
  | nil => rfl
  | other directive _ ih =>
    rw [plain_cons_other directive, ← ih hown, linesOf, List.filter_cons_of_pos (by simp), List.map_cons, linesOf]
  | again directive _ _ ih => rw [plain_cons_file directive, ih hown]
  | @included origin seen _ new _ _ path _ out _ directive fresh _ inner _ _ ihrest =>
    have hrest := ihrest fun p hp => List.mem_append_right _ (List.mem_cons_of_mem path (hown p hp))
    have hinner : linesOf origin out = [] := by
      apply linesOf_eq_nil
      rintro l hl rfl
      rcases (inner.mem_out l hl).2 with hfrom | ⟨p, hp, hfrom⟩
      · exact fresh (hown path hfrom)
      · exact inner.nodup.2 p hp (List.mem_cons_of_mem path (hown p hfrom))
    rw [linesOf_append, hinner, List.nil_append, hrest, plain_cons_file directive]

/-- The plain lines of each file spliced in come out in order, and only once. -/
theorem included_lines (h : lib.Splices origin seen lines out new) (hown : ∀ p, origin = some p → p ∈ seen) :
    ∀ p ∈ new, linesOf (some p) out = plain (lib.fileLines p) := by
  induction h with
  | nil => exact List.forall_mem_nil _
  | @other origin seen _ new line out _ rest ih =>
    intro p hp
    have hne : origin ≠ some p := fun horigin => rest.nodup.2 p hp (hown p horigin)
    rw [← ih hown p hp, linesOf, List.filter_cons_of_neg (by simpa using hne), linesOf]
  | again _ _ _ ih => exact ih hown
  | @included origin seen _ new new' _ path data out out' directive fresh found inner rest ihinner ihrest =>
    have hself : ∀ p, some path = some p → p ∈ path :: seen := by
      rintro p ⟨⟩
      exact List.mem_cons_self
    have hrest : ∀ p, origin = some p → p ∈ new ++ path :: seen :=
      fun p hp => List.mem_append_right _ (List.mem_cons_of_mem path (hown p hp))
    -- what the file sees, the later lines add nothing to
    have hlater {p : Bytes} (hp : p ∈ new ++ [path]) : linesOf (some p) out' = [] := by
      have hseen : p ∈ new ++ path :: seen := by
        rw [← List.singleton_append, ← List.append_assoc]
        exact List.mem_append_left _ hp
      refine rest.linesOf_seen hseen fun horigin => ?_
      rcases List.mem_append.mp hp with hp | hp
      · exact inner.nodup.2 p hp (List.mem_cons_of_mem path (hown p horigin))
      · rw [List.mem_singleton.mp hp] at horigin
        exact fresh (hown path horigin)
    intro p hp
    rw [linesOf_append]
    rcases List.mem_append.mp hp with hp | hp
    · have hinner : linesOf (some p) out = [] := by
        apply linesOf_eq_nil
        intro l hl hpath
        apply rest.nodup.2 p hp
        rcases (inner.mem_out l hl).2 with hfrom | ⟨q, hq, hfrom⟩
        · rw [hfrom] at hpath
          cases hpath
          exact List.mem_append_right _ List.mem_cons_self
        · rw [hfrom] at hpath
          cases hpath
          exact List.mem_append_left _ hq
      rw [hinner, List.nil_append, ihrest hrest p hp]
    · rw [hlater hp, List.append_nil]
      rcases List.mem_append.mp hp with hp | hp
      · exact ihinner hself p hp
      · rw [List.mem_singleton.mp hp, fileLines_of_lookup found, inner.own hself]

end Splices

/-- Where splicing stops, some directive that lines reach is not proper. -/
theorem Refuses.improper {number : Nat} {e : IncludeError} (h : lib.Refuses seen number lines e) :
    ¬ (lib.Proper lines ∧ ∀ p, lib.Reaches lines p → lib.Proper (lib.fileLines p)) := by
  induction h with
  | malformed directive =>
    rintro ⟨hlines, -⟩
    obtain ⟨path, data, hfile, -⟩ := hlines _ List.mem_cons_self (by simp [directive])
    rw [directive] at hfile
    cases hfile
  | missing directive _ absent =>
    rintro ⟨hlines, -⟩
    obtain ⟨path, data, hfile, hfound⟩ := hlines _ List.mem_cons_self (by simp [directive])
    rw [directive] at hfile
    cases hfile
    rw [absent] at hfound
    cases hfound
  | inner directive _ found _ ih =>
    rintro ⟨-, hreached⟩
    rw [← fileLines_of_lookup found] at ih
    apply ih
    exact ⟨hreached _ (.direct (names_head directive)),
      fun p hp => hreached p (.through (names_head directive) hp)⟩
  | later _ _ ih =>
    rintro ⟨hlines, hreached⟩
    exact ih ⟨(List.forall_mem_cons.mp hlines).2, fun p hp => hreached p hp.cons⟩

/-- Lines with a newline after each. -/
def joined (lines : List Bytes) : Bytes := lines.flatMap (· ++ [Ascii.newline])

theorem newline_notMem_of_mem_plain {text : Bytes} (h : line ∈ plain (Bytes.lines text)) :
    Ascii.newline ∉ line :=
  Bytes.newline_notMem_linesFrom List.not_mem_nil line (List.mem_filter.mp h).1

/-- What a whole text splices in are the paths that it reaches, and then all directives are proper. -/
theorem Splices.whole {new : List Bytes} {out : List (Option Bytes × Bytes)}
    (h : lib.Splices none [] lines out new) :
    (∀ p, p ∈ new ↔ lib.Reaches lines p) ∧ lib.Proper lines ∧
      ∀ p, lib.Reaches lines p → lib.Proper (lib.fileLines p) := by
  obtain ⟨hnamed, hclosed⟩ := h.named
  rw [List.append_nil] at hnamed hclosed
  have hmem (p : Bytes) : p ∈ new ↔ lib.Reaches lines p :=
    ⟨h.reached p, Reaches.mem_of_closed hnamed hclosed⟩
  obtain ⟨hlines, hnew⟩ := h.proper (List.forall_mem_nil _)
  exact ⟨hmem, hlines, fun p hp => (hnew p ((hmem p).mpr hp)).2⟩

/-- Including files ends, whatever files include each other. It succeeds if and only if every directive of the
text and of every file that it reaches is well-formed and names a file. Then no directive is left, the lines of
the text and of every file that it reaches are there once, and those of each file stay in order. -/
theorem expand_lossless (lib : Library) (text : Bytes) :
    ((∃ out paths, lib.Splices none [] (Bytes.lines text) out paths ∧
        lib.expand text = .ok (joined (out.map Prod.snd))) ∨
      ∃ e, lib.Refuses [] 1 (Bytes.lines text) e ∧ lib.expand text = .error e) ∧
    ((∃ result, lib.expand text = .ok result) ↔
      lib.Proper (Bytes.lines text) ∧
        ∀ p, lib.Reaches (Bytes.lines text) p → lib.Proper (lib.fileLines p)) ∧
    ∀ result, lib.expand text = .ok result →
      ∃ (out : List (Option Bytes × Bytes)) (paths : List Bytes),
        result = joined (out.map Prod.snd) ∧
        (∀ line ∈ out.map Prod.snd, Ascii.newline ∉ line ∧ Directive.ofLine line = .other) ∧
        paths.Nodup ∧ (∀ p, p ∈ paths ↔ lib.Reaches (Bytes.lines text) p) ∧
        (out.map Prod.snd).Perm (plain (Bytes.lines text) ++ paths.flatMap fun p => plain (lib.fileLines p)) ∧
        Splices.linesOf none out = plain (Bytes.lines text) ∧
        ∀ p ∈ paths, Splices.linesOf (some p) out = plain (lib.fileLines p) := by
  rcases lib.expand_concludes text with ⟨out, new, hresult, h⟩ | ⟨e, hresult, h⟩
  · have hexpand : lib.expand text = .ok (joined (out.map Prod.snd)) := by
      rw [expand, hresult]
      rfl
    obtain ⟨hmem, hproper⟩ := h.whole
    refine ⟨.inl ⟨out, new, h, hexpand⟩, ⟨fun _ => hproper, fun _ => ⟨_, hexpand⟩⟩, ?_⟩
    intro result hok
    rw [hexpand] at hok
    cases hok
    have hlines : ∀ line ∈ out.map Prod.snd, Ascii.newline ∉ line ∧ Directive.ofLine line = .other := by
      intro line hline
      constructor
      · rcases List.mem_append.mp (h.perm.mem_iff.mp hline) with hplain | hplain
        · exact newline_notMem_of_mem_plain hplain
        · obtain ⟨p, -, hplain⟩ := List.mem_flatMap.mp hplain
          exact newline_notMem_of_mem_plain hplain
      · obtain ⟨l, hl, rfl⟩ := List.mem_map.mp hline
        exact (h.mem_out l hl).1
    have hroot : ∀ p, none = some p → p ∈ ([] : List Bytes) := by
      rintro p ⟨⟩
    exact ⟨out, new, rfl, hlines, h.nodup.1, hmem, h.perm, h.own hroot, h.included_lines hroot⟩
  · have hexpand : lib.expand text = .error e := by
      rw [expand, hresult]
    refine ⟨.inr ⟨e, h, hexpand⟩, ⟨?_, fun hproper => absurd hproper h.improper⟩, ?_⟩
    · rintro ⟨result, hok⟩
      rw [hexpand] at hok
      cases hok
    · intro result hok
      rw [hexpand] at hok
      cases hok

/-- Two files that include each other and themselves, both included twice. -/
example :
    (expand (.store (Std.TreeMap.ofList
        [(bytes "a", bytes "one\ninclude \"b\"\ntwo"),
          (bytes "b", bytes "include \"a\"\ninclude \"b\"\nthree")] compare))
      (bytes "include \"b\"\ninclude \"a\"\nfour\ninclude \"b\"\n")).toOption =
      some (bytes "one\ntwo\nthree\nfour\n") := by
  decide +kernel

end WordMachine.Library
