import WordMachine.Machine.Files
import WordMachine.Text.Blank

/-!
# `Include` — files spliced into a text

A line `include "path"` stands for the contents of a file, which may include others in turn. Each path
is spliced in once; a later line with the same path stands for nothing.

Contents:
* `Directive`, `Directive.ofLine`: what a line asks for;
* `Library`: where included files come from;
* `IncludeError`: a directive that could not be followed, with its line;
* `Library.splice`, `Library.expand`.
-/

namespace WordMachine

/-! ## Directives -/

/-- What a line asks for. -/
inductive Directive where
  /-- The line includes nothing. -/
  | other
  /-- An include line of another form than `include "path"`, with the path as far as it could be
  read. -/
  | malformed (path : Bytes)
  | file (path : Bytes)
  deriving DecidableEq, Repr

namespace Directive

/-- The word that starts a directive. -/
def keyword : Bytes := bytes "include"

/-- Whether nothing but a comment follows. -/
def isTrailer (text : Bytes) : Bool :=
  text.isEmpty || Bytes.hasPrefix (bytes ";") text || Bytes.hasPrefix (bytes "//") text

/-- Read a line: the word `include`, a path in quotes that is not empty, and at most a comment. -/
def ofLine (line : Bytes) : Directive :=
  if Bytes.firstField line != keyword then .other
  else
    match Bytes.trim (Bytes.dropPrefix keyword (Bytes.trim line)) with
    | [] => .malformed []
    | c :: rest =>
        if c != Ascii.quote then .malformed []
        else
          match Bytes.cut? Ascii.quote rest with
          | none => .malformed []
          | some (path, trailer) =>
              if !path.isEmpty && isTrailer (Bytes.trim trailer) then .file path else .malformed path

/-- The path that a line names, if it is an include line of any form. -/
def path? : Directive → Option Bytes
  | .other => none
  | .malformed path | .file path => some path

end Directive

/-! ## Libraries -/

/-- Where included files come from. -/
inductive Library where
  /-- A store of files by name. -/
  | store (files : FileMap)
  /-- The working directory. -/
  | host (h : Host)

namespace Library

/-- Names a store can hold: a valid text of parts that are not empty, `.` or `..`, parted by slashes. -/
def isStoreName (name : Bytes) : Bool :=
  Bytes.isUtf8 name
    && (Path.parts name).all fun p => !(p.isEmpty || p == Path.here || p == Path.up)

/-- The contents of a file. -/
def lookup (lib : Library) (path : Bytes) : Except PathError Bytes :=
  match lib with
  | .store files =>
      if isStoreName path then
        match files[path]? with
        | some data => .ok data
        | none => .error ⟨path, .notStored⟩
      else .error ⟨path, .notStored⟩
  | .host h => h.fetch path

/-- The files of a library. -/
def files : Library → FileMap
  | .store files => files
  | .host h => h.files

/-- How deep files can include files not seen before: every file on the way but the first is named by a
line of another one, and each path is followed once. -/
def depth (lib : Library) : Nat :=
  lib.files.values.foldr (fun data n => (Bytes.lines data).length + 1 + n) 1

end Library

/-! ## Expansion -/

/-- Why a directive could not be followed. -/
inductive IncludeError.Cause where
  | malformed
  | path (e : PathError)
  deriving DecidableEq, Repr

/-- The wording of a cause. -/
def IncludeError.Cause.message : IncludeError.Cause → Bytes
  | .malformed => bytes "include must take the form: include \"<filename>\""
  | .path e => e.message

/-- A directive that could not be followed, with its line in the file that holds it. -/
structure IncludeError where
  line : Nat
  text : Bytes
  cause : IncludeError.Cause
  deriving DecidableEq, Repr

/-- The wording of an error located at a line and its text. -/
def located (loc : Locale) (line : Int) (text cause : Bytes) : Bytes :=
  bytes "line " ++ loc.integer line ++ bytes " '" ++ text ++ bytes "' " ++ cause

/-- The wording of an include error. -/
def IncludeError.message (loc : Locale) (e : IncludeError) : Bytes :=
  located loc e.line e.text e.cause.message

namespace Library

/-- Lines of a text, and the paths seen so far. -/
structure Spliced where
  lines : List Bytes
  seen : List Bytes
  deriving DecidableEq, Repr

/-- Replace each directive among lines by the lines of its file, which `nested` expands. The lines are
numbered from `number` on. -/
def spliceLines (lib : Library) (nested : List Bytes → Bytes → Except IncludeError Spliced) :
    List Bytes → Nat → List Bytes → Except IncludeError Spliced
  | seen, _, [] => .ok ⟨[], seen⟩
  | seen, number, line :: rest =>
      match Directive.ofLine line with
      | .other =>
          match spliceLines lib nested seen (number + 1) rest with
          | .ok after => .ok ⟨line :: after.lines, after.seen⟩
          | .error e => .error e
      | .malformed _ => .error ⟨number, line, .malformed⟩
      | .file path =>
          if path ∈ seen then spliceLines lib nested seen (number + 1) rest
          else
            match lib.lookup path with
            | .error e => .error ⟨number, line, .path e⟩
            | .ok data =>
                match nested (path :: seen) data with
                | .error e => .error e
                | .ok inner =>
                    match spliceLines lib nested inner.seen (number + 1) rest with
                    | .ok after => .ok ⟨inner.lines ++ after.lines, after.seen⟩
                    | .error e => .error e

/-- Replace the directives of a text. The fuel bounds how deep files include files. -/
def splice (lib : Library) : Nat → List Bytes → Bytes → Except IncludeError Spliced
  | 0, seen, _ => .ok ⟨[], seen⟩
  | fuel + 1, seen, text => lib.spliceLines (lib.splice fuel) seen 1 (Bytes.lines text)

/-- The text with every directive replaced by the contents of its file; each line ends with a
newline. -/
def expand (lib : Library) (text : Bytes) : Except IncludeError Bytes :=
  match lib.splice (lib.depth + 1) [] text with
  | .ok result => .ok (result.lines.flatMap (· ++ [Ascii.newline]))
  | .error e => .error e

end Library

end WordMachine
