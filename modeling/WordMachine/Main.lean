import WordMachine.Assembly.Expression.Eval
import WordMachine.CommandLine.Session
import WordMachine.Machine.Request
import WordMachine.Trace

/-!
# `Main` — the command line

The outer layer: it fetches the files that a job needs, lets the job do its work on what is known of the
host, and brings the results out.
-/

namespace WordMachine.CommandLine

/-! ## Files -/

/-- The text of a path; a path that is no valid text names no file. -/
def pathText? (path : Bytes) : Option String := String.fromUTF8? ⟨path.toArray⟩

/-- Write a file of the host. -/
def writeFile (path data : Bytes) : IO Unit := do
  let some name := pathText? path | return ()
  IO.FS.writeBinFile name ⟨data.toArray⟩

/-- Whether a path can be opened; of directories this tells whether they exist. -/
def opens (path : Bytes) : IO Bool := do
  let some name := pathText? path | return false
  let .ok _ ← (IO.FS.Handle.mk name .read).toBaseIO | return false
  return true

/-- The wording of a reason that only the host knows. -/
def reasonText : IO.Error → Bytes
  | .permissionDenied .. => bytes "permission denied"
  | e => bytes e.toString

/-- Learn what the host answers when a path is read. What can be opened and not read is a directory. -/
def learnFile (h : Host) (path : Bytes) : IO Host := do
  let some name := pathText? path | return h
  match ← (IO.FS.readBinFile name).toBaseIO with
  | .ok data => return h.learn path data.toList
  | .error (.noFileOrDirectory ..) => return h
  | .error e => if ← opens path then return h.learnFolder path else return h.learnRefusal path (reasonText e)

/-- Learn whether a file can be put at a path. -/
def learnPlace (h : Host) (path : Bytes) : IO Host := do
  let h ← learnFile h path
  match (Host.foldersOf path).getLast? with
  | none => return h
  | some folder => if ← opens folder then return h.learnFolders path else return h

/-- Learn the files that a text includes, and those that they include. -/
partial def learnIncludes (h : Host) (text : Bytes) : IO Host := do
  let mut host := h
  for line in Bytes.lines text do
    match Directive.ofLine line with
    | .file path =>
        if (host.fetch path).toOption.isNone then
          host ← learnFile host path
          match host.fetch path with
          | .ok data => host ← learnIncludes host data
          | .error _ => pure ()
    | _ => pure ()
  return host

/-! ## Output -/

/-- Write bytes to a stream. -/
def put (stream : IO.FS.Stream) (data : Bytes) : IO Unit := stream.write ⟨data.toArray⟩

/-- Bring out what an invocation printed, and give its exit status. -/
def deliver (o : Outcome) : IO UInt32 := do
  put (← IO.getStdout) o.stdout
  (← IO.getStdout).flush
  put (← IO.getStderr) o.stderr
  return o.exit.toUInt32

/-- Show journal entries at the debug level and above. -/
def showEntries (entries : List Journal.Entry) : IO Unit := do
  for e in entries do
    put (← IO.getStderr) (e.text ++ bytes "\n")

/-! ## Jobs -/

/-- Compile, assemble or disassemble. -/
def build (s : Session) (o : Options) : IO UInt32 := do
  let host ← learnFile {} o.input
  let host ← match host.fetch o.input with
    | .ok text => if o.disassemble.isEmpty then learnIncludes host text else pure host
    | .error _ => pure host
  let host ← learnPlace host o.output
  let host ← learnPlace host o.listing
  let outcome := { s with host := host }.perform o 0 []
  for (path, data) in outcome.session.host.changes host do
    writeFile path data
  deliver outcome

/-- Show the output that has reached the sink since `shown` bytes of it were shown. -/
def showOutput (m : Machine) (shown : Nat) : IO Nat := do
  let received := m.console.output.received
  if shown < received.size then
    (← IO.getStdout).write ⟨received.extract shown received.size⟩
    (← IO.getStdout).flush
  return received.size

/-- Give a machine bytes of input until it has a line or the input ends. -/
partial def feed (m : Machine) : IO Machine := do
  match m.console.input with
  | none => return m
  | some input =>
      if (m.console.buffer ++ input.remaining).contains Ascii.newline then return m
      else
        let data ← (← IO.getStdin).read 4096
        if data.isEmpty then return m
        else
          let input := { input with chunks := input.chunks ++ [data.toList] }
          feed { m with console := { m.console with input := some input } }

/-- Change what a machine knows of the host. -/
def onHost (m : Machine) (f : Host → IO Host) : IO Machine := do
  match m.files with
  | .directory root host => return { m with files := .directory root (← f host) }
  | .store _ | .failing _ => return m

/-- Prepare a machine for what it asks of the host. -/
def serve (m : Machine) : Option Request → IO Machine
  | none => return m
  | some .line => feed m
  | some (.read name) => onHost m fun h => learnFile h name
  | some (.write name) => onHost m fun h => learnPlace h name

/-- Write the file that a machine has just written. -/
def keepFile (m : Machine) : Option Request → IO Unit
  | some (.write name) =>
      match m.files.read name with
      | .ok data => writeFile name data
      | .error _ => return ()
  | _ => return ()

/-- Tick until the program halts or fails. -/
partial def runFrom (verbose : Bool) (e : Emulator) (shown : Nat) :
    IO (Emulator × Nat × Emulator.Tick) := do
  let request := e.machine.request?
  let mut e := e
  let mut shown := shown
  if request == some .line then
    e := e.close.1
    shown ← showOutput e.machine shown
  e := { e with machine := ← serve e.machine request }
  if verbose then showEntries (e.machine.tickEntries .english true)
  let (next, result) := e.tick
  match result with
  | .ran =>
      keepFile next.machine request
      runFrom verbose next (← showOutput next.machine shown)
  | result => return (next, shown, result)

/-- Run an image. -/
def execute (s : Session) (o : Options) : IO UInt32 := do
  match (← learnFile {} o.input).fetch o.input with
  | .error e => deliver (s.fail o o.report [] (.path e))
  | .ok image =>
      let console : Console :=
        { input := some ⟨[], false⟩, output := .buffered {} [] none }
      let e := ((Options.emulator console (.directory [] {})).load image.toArray).reset
      let (e, shown, result) ← runFrom o.verbose e 0
      let (e, failure) := e.close
      let _ ← showOutput e.machine shown
      match result, failure with
      | .failed error, _ => deliver (s.fail o o.report [] (.runtime error))
      | _, some failure => deliver (s.fail o o.report [] (.host failure))
      | _, none => return 0

/-- Run the command line on its arguments. -/
def start (args : List Bytes) : IO UInt32 := do
  let s : Session := { interpreter := Assembly.Expression.interpreter }
  match Options.parse args with
  | .error e => deliver (s.refuse e)
  | .ok o =>
      match s.speak o with
      | .error e => deliver (s.refuse (.language e))
      | .ok s => if o.run.isEmpty then build s o else execute s o

end WordMachine.CommandLine

def main (args : List String) : IO UInt32 :=
  WordMachine.CommandLine.start (args.map WordMachine.bytes)
