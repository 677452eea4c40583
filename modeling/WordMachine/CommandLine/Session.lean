import WordMachine.CommandLine.Job

/-!
# `CommandLine.Session` — invocations one after the other

The language of messages, the files of the host and the interpreter of operand expressions stay from one
invocation to the next.

Contents: `Session`, `Outcome`, `Session.invoke`.
-/

namespace WordMachine.CommandLine

/-- What stays between invocations. -/
structure Session where
  locale : Locale := .english
  host : Host := {}
  interpreter : Assembly.Interpreter := .refusing

/-- The result of an invocation. -/
structure Outcome where
  exit : Nat
  stdout : Bytes := []
  stderr : Bytes := []
  session : Session

namespace Session

/-- Refuse the arguments. A refused flag is told before the usage as well. -/
def refuse (s : Session) (e : UsageError) : Outcome :=
  let told := bytes "vml: " ++ e.message ++ bytes "\n"
  match e with
  | .help => { exit := 0, stderr := usage, session := s }
  | .flag f => { exit := 2, stderr := f.message ++ bytes "\n" ++ usage ++ told, session := s }
  | _ => { exit := 2, stderr := usage ++ told, session := s }

/-- Tell why a job failed; if its input is missing, the usage follows. -/
def fail (s : Session) (o : Options) (report : Report) (stdout : Bytes) (failure : Failure) :
    Outcome :=
  let about := (failure.pathError?.map fun e => e.path == o.input).getD false
  { exit := 1
    stdout := stdout
    stderr := report.render s.locale (failure.diagnostic s.locale) ++ if about then usage else []
    session := s }

/-- Save files one after the other, until one cannot be saved. -/
def save (h : Host) : List (Bytes × Bytes) → Host × Option PathError
  | [] => (h, none)
  | (path, data) :: rest =>
      match h.save path data with
      | .ok h => save h rest
      | .error e => (h, some e)

/-- Do the work of a job. -/
def finish (s : Session) (o : Options) (work : Work) : Outcome :=
  let (host, refused) := save s.host work.saves
  let s := { s with host := host }
  match refused, work.ending with
  | some e, _ => s.fail o work.report [] (.path e)
  | none, .error failure => s.fail o work.report [] failure
  | none, .ok text => { exit := 0, stdout := text, session := s }

/-- The host after a run. -/
def hostOf (s : Session) (m : Machine) : Host :=
  match m.files with
  | .directory _ host => host
  | .store _ | .failing _ => s.host

/-- Run an image. -/
def execute (s : Session) (o : Options) (fuel : Nat) (stdin : Bytes) (image : Bytes) : Outcome :=
  let console : Console := { input := some (.ofBytes stdin false), output := .buffered {} [] none }
  let e := ((Options.emulator console (.directory [] s.host)).load image.toArray).reset
  let (e, result) := e.run fuel
  let s := { s with host := s.hostOf e.machine }
  let stdout := e.machine.console.output.received.toList
  match result with
  | .failed error => s.fail o o.report stdout (.runtime error)
  | .undelivered failure => s.fail o o.report stdout (.host failure)
  | .done | .outOfFuel => { exit := 0, stdout := stdout, session := s }

/-- Do the job that the options name. -/
def perform (s : Session) (o : Options) (fuel : Nat) (stdin : Bytes) : Outcome :=
  match s.host.fetch o.input with
  | .error e => s.fail o o.report [] (.path e)
  | .ok data =>
      if !o.run.isEmpty then s.execute o fuel stdin data
      else s.finish o (o.work s.locale s.interpreter (.host s.host) data)

/-- Choose the language of messages, if one is named. -/
def speak (s : Session) (o : Options) : Except TagError Session :=
  if o.language.isEmpty then .ok s
  else
    match Locale.ofTag o.language with
    | .ok locale => .ok { s with locale := locale }
    | .error e => .error e

/-- Run the command line. The fuel bounds how many instructions a program executes. -/
def invoke (s : Session) (fuel : Nat) (args : List Bytes) (stdin : Bytes) : Outcome :=
  match Options.parse args with
  | .error e => s.refuse e
  | .ok o =>
      match s.speak o with
      | .error e => s.refuse (.language e)
      | .ok s => s.perform o fuel stdin

end Session

end WordMachine.CommandLine
