import WordMachine.Fault
import WordMachine.Text.Table

/-!
# `Machine.Files` — the files a program can reach

A program reads and writes whole files: in a store that holds any name, or in a directory of the host, where a
name may also be a folder or be refused for a reason of the host.

Contents:
* `FileMap`: contents by name;
* `Path.clean`, `Path.join`: paths by their slashes alone;
* `Host`: the files of the host, with `fetch` and `save`;
* `FileSystem`, `FileSystem.read`, `FileSystem.write`.
-/

namespace WordMachine

/-- Contents of files by their names. -/
abbrev FileMap := Table

/-! ## Paths -/

namespace Path

/-- Whether a path starts at the root of the host. -/
def isAbsolute (path : Bytes) : Bool := path.head? == some Ascii.slash

/-- The parts between slashes. -/
def parts (path : Bytes) : List Bytes := path.splitOn Ascii.slash

/-- Join parts by slashes. -/
def ofParts (ps : List Bytes) : Bytes := List.intercalate [Ascii.slash] ps

/-- The part that stays in place. -/
def here : Bytes := bytes "."

/-- The part that goes up. -/
def up : Bytes := bytes ".."

/-- Drop empty parts and `.`, and let `..` undo the part before it. The first list holds the parts kept
so far, latest first. -/
def cleanParts (absolute : Bool) : List Bytes → List Bytes → List Bytes
  | kept, [] => kept.reverse
  | kept, p :: rest =>
      if p.isEmpty || p == here then cleanParts absolute kept rest
      else if p == up then
        match kept with
        | [] => cleanParts absolute (if absolute then [] else [up]) rest
        | k :: ks =>
            if k == up then cleanParts absolute (up :: k :: ks) rest else cleanParts absolute ks rest
      else cleanParts absolute (p :: kept) rest

/-- The shortest path with the same meaning by its parts alone. -/
def clean (path : Bytes) : Bytes :=
  let absolute := isAbsolute path
  let text := ofParts (cleanParts absolute [] (parts path))
  if absolute then Ascii.slash :: text else if text.isEmpty then here else text

/-- A path below a directory. -/
def join (root name : Bytes) : Bytes :=
  if name.isEmpty then clean root else clean (root ++ Ascii.slash :: name)

end Path

/-! ## The host -/

/-- What is known of the host: files by their clean paths, directories without known files, and the reasons
for which it refuses paths. Relative paths start at the working directory. A directory exists if it is listed
or a file lies below it. -/
structure Host where
  files : FileMap := ∅
  folders : List Bytes := []
  refused : Table := ∅

namespace Host

/-- The device that takes any bytes and holds none. -/
def nullDevice : Bytes := bytes "/dev/null"

/-- The name of a place, from the root or from the working directory. -/
def nameOf (absolute : Bool) (ps : List Bytes) : Bytes :=
  if absolute then Ascii.slash :: Path.ofParts ps else Path.ofParts ps

/-- Whether the parts name a directory. -/
def hasDirectory (h : Host) (absolute : Bool) (ps : List Bytes) : Bool :=
  let name := nameOf absolute ps
  let below := if ps.isEmpty then name else name ++ [Ascii.slash]
  (!absolute && ps.all (· == Path.up)) || h.folders.contains name
    || h.files.keys.any fun k => Bytes.hasPrefix below k

/-- What stands at parts that name no directory. -/
def barrier (h : Host) (absolute : Bool) (ps : List Bytes) : PathError.Reason :=
  if h.files.contains (nameOf absolute ps) then .notDirectory else .noEntry

/-- Walk a path part by part; every part but the last must lead to a directory. The first list holds
the parts so far, latest first. -/
def walk (h : Host) (absolute : Bool) : List Bytes → List Bytes → Except PathError.Reason (List Bytes)
  | place, [] => .ok place.reverse
  | place, p :: rest =>
      if !h.hasDirectory absolute place.reverse then .error (h.barrier absolute place.reverse)
      else if p.isEmpty || p == Path.here then h.walk absolute place rest
      else if p == Path.up then
        match place with
        | [] => h.walk absolute (if absolute then [] else [Path.up]) rest
        | q :: above =>
            if q == Path.up then h.walk absolute (Path.up :: q :: above) rest
            else h.walk absolute above rest
      else h.walk absolute (p :: place) rest

/-- Find the parts under which a path is filed, if all directories on the way are there. -/
def resolve (h : Host) (path : Bytes) (parts : List Bytes) : Except PathError.Reason (List Bytes) :=
  if path.isEmpty then .error .noEntry else h.walk (Path.isAbsolute path) [] parts

/-- The contents of what is filed under parts. -/
def contents (h : Host) (absolute : Bool) (ps : List Bytes) : Except PathError.Reason Bytes :=
  let name := nameOf absolute ps
  match h.refused[name]?, h.files[name]? with
  | some reason, _ => .error (.refused reason)
  | none, some data => .ok data
  | none, none => .error (if h.hasDirectory absolute ps then .isDirectory true else .noEntry)

/-- Read a file, or tell why the path has none. -/
def fetch (h : Host) (path : Bytes) : Except PathError Bytes :=
  if path == nullDevice then .ok []
  else
    match h.resolve path (Path.parts path) with
    | .error reason => .error ⟨path, reason⟩
    | .ok ps =>
        match h.contents (Path.isAbsolute path) ps with
        | .error reason => .error ⟨path, reason⟩
        | .ok data => .ok data

/-- File data under parts. -/
def replace (h : Host) (absolute : Bool) (ps : List Bytes) (data : Bytes) : Except PathError.Reason Host :=
  let name := nameOf absolute ps
  match h.refused[name]? with
  | some reason => .error (.refused reason)
  | none =>
      if h.hasDirectory absolute ps then .error (.isDirectory false)
      else .ok { h with files := h.files.insert name data }

/-- Replace a file, or tell why the path can have none. With a slash at its end, a path names a directory. -/
def save (h : Host) (path data : Bytes) : Except PathError Host :=
  if path == nullDevice then .ok h
  else
    let parts := Path.parts path
    let trimmed := (parts.reverse.dropWhile List.isEmpty).reverse
    match h.resolve path trimmed with
    | .error reason => .error ⟨path, reason⟩
    | .ok ps =>
        if trimmed.length < parts.length then .error ⟨path, .isDirectory false⟩
        else
          match h.replace (Path.isAbsolute path) ps data with
          | .error reason => .error ⟨path, reason⟩
          | .ok h => .ok h

/-- The directories on the way to a path. -/
def foldersOf (path : Bytes) : List Bytes :=
  (List.range path.length).filterMap fun i =>
    if path[i]? = some Ascii.slash then some (Path.clean (path.take (i + 1))) else none

/-- Take note that the directories on the way to a path exist. -/
def learnFolders (h : Host) (path : Bytes) : Host :=
  { h with folders := foldersOf path ++ h.folders }

/-- Take note of a file. -/
def learn (h : Host) (path data : Bytes) : Host :=
  { h.learnFolders path with files := h.files.insert (Path.clean path) data }

/-- Take note that a path is a directory. -/
def learnFolder (h : Host) (path : Bytes) : Host :=
  { h.learnFolders path with folders := Path.clean path :: (h.learnFolders path).folders }

/-- Take note that a path is refused. -/
def learnRefusal (h : Host) (path reason : Bytes) : Host :=
  { h.learnFolders path with refused := h.refused.insert (Path.clean path) reason }

/-- Files that another state of the host does not hold, or not with the same contents. -/
def changes (h before : Host) : List (Bytes × Bytes) :=
  h.files.toList.filter fun f => before.files[f.1]? != some f.2

end Host

/-! ## File systems -/

/-- What a running program sees of files. -/
inductive FileSystem where
  /-- A store that takes any name. -/
  | store (files : FileMap)
  /-- A directory of the host; relative names lie below it, and the empty root is the working
  directory. -/
  | directory (root : Bytes) (host : Host)
  /-- A file system that fails. -/
  | failing (failure : HostFailure)

namespace FileSystem

/-- The host path of a name below a root. -/
def path (root name : Bytes) : Bytes :=
  if root.isEmpty || Path.isAbsolute name then name else Path.join root name

/-- The contents of a file. -/
def read (fs : FileSystem) (name : Bytes) : Except HostFailure Bytes :=
  match fs with
  | .store files =>
      match files[name]? with
      | some data => .ok data
      | none => .error (.fileMissing none)
  | .directory root host =>
      match host.fetch (path root name) with
      | .ok data => .ok data
      | .error e => .error (if e.isMissing then .fileMissing (some e) else .path e)
  | .failing failure => .error failure

/-- Replace the contents of a file. -/
def write (fs : FileSystem) (name data : Bytes) : Except HostFailure FileSystem :=
  match fs with
  | .store files => .ok (.store (files.insert name data))
  | .directory root host =>
      match host.save (path root name) data with
      | .ok host => .ok (.directory root host)
      | .error e => .error (.path e)
  | .failing failure => .error failure

end FileSystem

end WordMachine
