import PerfectMatching.CommandLine.Run
import Std.Time.DateTime.Timestamp

/-!
# The program

Reads the arguments and the texts, runs, and writes the results to the standard output and the log to the standard error
and, if asked to, into a file of its own under `logs`.
-/

namespace PerfectMatching.CommandLine

/-- How the program is called. -/
def usage : String :=
  "usage: [--kind lawler|exhaustive] [--min] [--json] [--one-based] [--certify] [--log-file] [path ...]"

/-- The seconds since the beginning of 1970. -/
def secondsNow : IO Int := do
  let now ← Std.Time.Timestamp.now
  pure now.toSecondsSinceUnixEpoch.val

/-- The time of day of a number of seconds, in two digits each. -/
def clock (seconds : Int) : String :=
  let pad (n : Int) : String := (if n < 10 then "0" else "") ++ toString n
  pad (seconds / 3600 % 24) ++ ":" ++ pad (seconds / 60 % 60) ++ ":" ++ pad (seconds % 60)

/-- The text that bytes encode. -/
def decode (bytes : ByteArray) : Reading :=
  match String.fromUTF8? bytes with
  | some text => .ok text
  | none => .error .notText

/-- The reason for which the system refuses a path. -/
def diskFailure : IO.Error → DiskFailure
  | .noFileOrDirectory .. => .missing
  | .alreadyExists .. => .occupied
  | .permissionDenied .. => .denied
  | .inappropriateType _ 21 _ => .folder
  | .inappropriateType .. => .notFolder
  | .invalidArgument .. => .nameTooLong
  | e => .other (toString e)

/-- Reads a file. -/
def readFile (path : String) : IO Reading := do
  try
    pure (decode (← IO.FS.readBinFile path))
  catch e => pure (.error (diskFailure e))

/-- Makes the folder for log files, unless there is one. -/
def makeLogFolder : IO (Except DiskFailure Unit) := do
  try
    IO.FS.createDirAll logFolder
    pure (.ok ())
  catch e => pure (.error (diskFailure e))

/-- Reads the texts and solves the problems. -/
def solveAll (o : Options) : IO Report := do
  let input ← if o.paths.contains "-" then decode <$> (← IO.getStdin).readBinToEnd else pure (.ok "")
  let files ← (o.paths.filter (· != "-")).mapM fun path => do pure (path, ← readFile path)
  pure (o.run input fun path => (files.lookup path).getD (.error .missing))

/-- Runs with options. -/
def perform (o : Options) : IO UInt32 := do
  let start ← secondsNow
  let report ← match ← if o.has .logFile then makeLogFolder else pure (.ok ()) with
    | .error cause => pure (Report.refused cause)
    | .ok () => solveAll o
  let stamp (line : String) : String := clock start ++ " " ++ line ++ "\n"
  if let some lines := o.logLines? report then
    IO.FS.writeFile s!"{logFolder}/{start}.log" (String.join (lines.map stamp))
  IO.print report.output
  IO.eprint (String.join ((report.logFrom .info).map stamp) ++ String.join (report.ending.lines.map (· ++ "\n")))
  pure report.code.toUInt32

end PerfectMatching.CommandLine

/-- The program. -/
def main (arguments : List String) : IO UInt32 := do
  match PerfectMatching.CommandLine.Options.ofArguments? arguments with
  | some o => PerfectMatching.CommandLine.perform o
  | none =>
    IO.eprintln PerfectMatching.CommandLine.usage
    pure 2
