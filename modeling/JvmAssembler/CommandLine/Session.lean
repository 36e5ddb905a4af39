import JvmAssembler.CommandLine.Report
import JvmAssembler.Text.Lines

/-! A session runs the command line on a disk: it does what the report says, until the disk refuses.
-/

namespace JvmAssembler.CommandLine

structure Session where
  disk : Disk
  /-- What has been printed. -/
  output : String := ""
  /-- What has been logged. -/
  log : String := ""
  /-- Has anything failed? -/
  failed : Bool := false

namespace Session

/-- The exit code: one if anything failed. -/
def exitCode (s : Session) : Nat := if s.failed then 1 else 0

/-- The lines of the log. -/
def logLines (s : Session) : List String := (Text.lines s.log).map String.ofList

/-- Adds a message to the log. -/
def fail (s : Session) (message : String) : Session :=
  { s with log := s.log ++ message ++ "\n", failed := true }

/-- Does one thing. -/
def step (s : Session) : Action → Except DiskError Session
  | .print text => .ok { s with output := s.output ++ text }
  | .complain message => .ok (s.fail (Action.logged message))
  | .write directory name bytes => do
    let disk ← s.disk.createDirectory directory
    return { s with disk := ← disk.writeFile directory name bytes }
  | .stop e => .error e

/-- Does one thing after the other. A refusal ends the session. -/
def perform (s : Session) : List Action → Session
  | [] => s
  | action :: rest =>
    match s.step action with
    | .ok s => s.perform rest
    | .error e => s.fail s!"Error: {e.message}"

end Session

/-- Runs the command line on a disk. -/
def runOn (d : Disk) (o : Options) : Session :=
  Session.perform { disk := d } (report o (findListings d o.input)).toList

end JvmAssembler.CommandLine
