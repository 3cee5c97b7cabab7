import PerfectMatching.Solver

/-!
# Options of the command line

The arguments are options, the name of a matcher among them, and paths. Options and paths may come in any order, and after
`--` everything is a path. Nothing may be given twice except paths, and a single dash is a path: the standard input, which
is also read when no path is given.
-/

namespace PerfectMatching.CommandLine

/-- An option without a value. -/
inductive Flag where
  /-- Least total weight instead of greatest. -/
  | min
  /-- Results as JSON. -/
  | json
  /-- Nodes numbered from one on in plain results. -/
  | oneBased
  /-- Every result is checked by its dual variables. -/
  | certify
  /-- A log file is written as well. -/
  | logFile
  deriving DecidableEq, Repr

/-- The flag with a name. -/
def Flag.ofName? : String → Option Flag
  | "--min" => some .min
  | "--json" => some .json
  | "--one-based" => some .oneBased
  | "--certify" => some .certify
  | "--log-file" => some .logFile
  | _ => none

/-- The arguments that have been given. -/
structure Options where
  paths : List String
  method? : Option Method
  flags : List Flag
  deriving DecidableEq

namespace Options

/-- A flag has been given. -/
def has (o : Options) (f : Flag) : Bool := o.flags.contains f

/-- The method of matcher to use. -/
def method (o : Options) : Method := o.method?.getD .default

/-- The direction of optimization. -/
def goal (o : Options) : Goal := if o.has .min then .min else .max

/-- Adds a path. -/
def addPath (o : Options) (path : String) : Options := { o with paths := o.paths ++ [path] }

/-- Sets the method of matcher; none if it has been set before or there is no method of this name. -/
def setMethod? (o : Options) (name : String) : Option Options :=
  match o.method?, (Method.ofName name : Except (Failure Float) Method) with
  | none, .ok method => some { o with method? := some method }
  | _, _ => none

/-- Adds the flag of this name; none if it has been given before or there is no flag of this name. -/
def addFlag? (o : Options) (name : String) : Option Options :=
  match Flag.ofName? name with
  | some f => if o.has f then none else some { o with flags := o.flags ++ [f] }
  | none => none

/-- Starts with a dash and is not a single dash. -/
def isOption (argument : String) : Bool := argument.startsWith "-" && argument != "-"

/-- Reads arguments after those that have been read; none if they are not well-formed. -/
def read? (o : Options) : List String → Option Options
  | [] => some o
  | argument :: rest =>
    if !isOption argument then (o.addPath argument).read? rest
    else if argument = "--" then some { o with paths := o.paths ++ rest }
    else if argument = "--kind" then
      match rest with
      | [] => none
      | name :: rest => if isOption name then none else (o.setMethod? name).bind (·.read? rest)
    else
      match argument.dropPrefix? "--kind=" with
      | some name => (o.setMethod? name.toString).bind (·.read? rest)
      | none => (o.addFlag? argument).bind (·.read? rest)

/-- Reads all arguments; without a path the standard input is read. -/
def ofArguments? (arguments : List String) : Option Options :=
  (Options.read? ⟨[], none, []⟩ arguments).map fun o => if o.paths.isEmpty then o.addPath "-" else o

end Options

end PerfectMatching.CommandLine
