import PerfectMatching.Assignment.Json
import PerfectMatching.CommandLine.Disk
import PerfectMatching.CommandLine.Options
import PerfectMatching.Json.Standard

/-!
# Runs of the command line

A run solves the problem at each path with a matcher of its own, so that no problem has anything to do with another. The
results are put out in the order of the paths; a problem that fails puts out nothing, is reported, and makes the run fail.
-/

namespace PerfectMatching.CommandLine

/-- A line of the log. -/
structure Record where
  level : Level
  message : String
  deriving DecidableEq

/-- The text of a line of the log. -/
def Record.line (r : Record) : String := "[" ++ r.level.name ++ "] " ++ r.message

/-- An event as a line of the log. -/
def Record.ofEvent (e : Event Float) : Record := ⟨e.level, e.message⟩

/-- What a single problem leads to: its result or what went wrong, and the lines it adds to the log on the way. -/
structure Attempt where
  outcome : Except String String
  records : List Record

namespace Options

/-- A result in the form that the options ask for. -/
def resultText (o : Options) (a : Assignment Float) : String :=
  if o.has .json then a.json Json.standard else a.lines (if o.has .oneBased then 1 else 0)

/-- The line of the log that announces a result. -/
def announcement (o : Options) (path : String) (n : Nat) (a : Assignment Float) : Record :=
  ⟨.info, s!"{path}: {n}x{n} " ++ o.method.name ++ " " ++ o.goal.name ++ " matching, weight " ++
    Layout.plain.text a.weight⟩

/-- The check of a result that the options ask for. -/
def check {n : Nat} (o : Options) (e : Solver Float n) : Except Inconsistency Unit :=
  if o.has .certify then e.certify?.getD (.ok ()) else .ok ()

/-- Solves the problem that has been read from a path. -/
def attempt (o : Options) (path : String) (reading : Reading) : Attempt :=
  match reading with
  | .error failure => ⟨.error ("read " ++ (if path = "-" then "stdin" else path) ++ ": " ++ failure.message), []⟩
  | .ok text =>
    match Weights.ofText text with
    | .error e => ⟨.error ("parse " ++ path ++ ": " ++ e.message), []⟩
    | .ok w =>
      let r := (Solver.new o.method w.n).solve o.goal w
      let records := r.events.map Record.ofEvent
      match r.outcome with
      | .error e => ⟨.error ("solve " ++ path ++ ": " ++ e.message), records⟩
      | .ok () =>
        match o.check r.matcher with
        | .error cause =>
          ⟨.error ("certify " ++ path ++ ": " ++ (Failure.inconsistent cause).message), records⟩
        | .ok () =>
          let a := r.matcher.assignment
          ⟨.ok (o.resultText a), records ++ [o.announcement path w.n a]⟩

end Options

/-- How a run ends. -/
inductive Ending where
  /-- All problems have been tried, and so many of them have failed. -/
  | tried (failures problems : Nat)
  /-- The folder for the log file cannot be made, and nothing has been tried. -/
  | noLogFolder (cause : DiskFailure)
  deriving DecidableEq

/-- A run fails if a problem has failed or nothing has been tried. -/
def Ending.code : Ending → Nat
  | .tried failures _ => if failures = 0 then 0 else 1
  | .noLogFolder _ => 1

/-- The lines that close a run that fails. -/
def Ending.lines : Ending → List String
  | .tried failures problems => if failures = 0 then [] else [s!"Error: {failures} of {problems} problems failed"]
  | .noLogFolder cause => ["Error: create logs directory", "", "Caused by:", "    " ++ cause.message]

/-- What a run leads to. -/
structure Report where
  /-- What is put out. -/
  output : String
  /-- The log. -/
  records : List Record
  ending : Ending

namespace Report

/-- A run that has no folder for its log file does nothing. -/
def refused (cause : DiskFailure) : Report := ⟨"", [], .noLogFolder cause⟩

/-- The exit code. -/
def code (r : Report) : Nat := r.ending.code

/-- The log from a level on. -/
def logFrom (r : Report) (level : Level) : List String :=
  (r.records.filter fun record => level.rank ≤ record.level.rank).map Record.line

/-- The lines for the terminal. -/
def terminal (r : Report) : List String := r.logFrom .info ++ r.ending.lines

end Report

/-- The text of each path: the standard input for the first single dash, nothing for any other, and a file for the
rest. -/
def readings (input : Reading) (read : String → Reading) : List String → List (String × Reading)
  | [] => []
  | path :: rest =>
    if path = "-" then (path, input) :: readings (.ok "") read rest else (path, read path) :: readings input read rest

/-- What one attempt adds to the output; its path stands above it if there are several. -/
def block (several : Bool) (path : String) (a : Attempt) : String :=
  match a.outcome with
  | .ok text => (if several then "# " ++ path ++ "\n" else "") ++ text ++ "\n"
  | .error _ => ""

/-- The line of the log for an attempt that failed. -/
def failureRecords (a : Attempt) : List Record :=
  match a.outcome with
  | .ok _ => []
  | .error message => [⟨.error, message⟩]

/-- Solves the problems at all paths. -/
def Options.run (o : Options) (input : Reading) (read : String → Reading) : Report :=
  let attempts := (readings input read o.paths).map fun (path, reading) => (path, o.attempt path reading)
  { output := String.join (attempts.map fun (path, a) => block (1 < o.paths.length) path a)
    records := attempts.flatMap (fun (_, a) => a.records) ++ attempts.flatMap fun (_, a) => failureRecords a
    ending := .tried (attempts.countP fun (_, a) => !a.outcome.isOk) o.paths.length }

/-- Solves the problem at a single path with the same options. -/
def Options.runAlone (o : Options) (input : Reading) (read : String → Reading) (path : String) : Report :=
  ({ o with paths := [path] } : Options).run input read

/-- The name of the folder for log files. -/
def logFolder : String := "logs"

/-- Solves the problems at all paths of a disk. A run with a log file makes the folder for it first. -/
def Options.runOn (o : Options) (disk : Disk) (input : Reading) : Report :=
  if o.has .logFile then
    match disk.addFolder logFolder with
    | .error cause => .refused cause
    | .ok disk => o.run input disk.read
  else o.run input disk.read

/-- The lines for the log file, if there is one. -/
def Options.logLines? (o : Options) (r : Report) : Option (List String) :=
  match o.has .logFile, r.ending with
  | true, .tried .. => some (r.logFrom .debug)
  | _, _ => none

end PerfectMatching.CommandLine
