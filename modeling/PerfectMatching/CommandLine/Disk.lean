/-!
# Disks

A run reads each of its paths once. What reading a path leads to is data: a text, or the reason why there is none. A `Disk`
holds files and folders in memory and answers as a disk would. A path is followed from folder to folder, from the root if
it starts with a slash and from the folder of the run if not, and the first step that fails says why the path does.
-/

namespace PerfectMatching.CommandLine

/-- Why a disk cannot do what it is asked for. -/
inductive DiskFailure where
  /-- There is nothing at this path. -/
  | missing
  /-- There is a file where a folder is to be made. -/
  | occupied
  /-- The path leads through something that is no folder. -/
  | notFolder
  /-- The path leads to a folder. -/
  | folder
  /-- The path, or a name on it, has too many bytes. -/
  | nameTooLong
  /-- Reading is not permitted. -/
  | denied
  /-- What is there is no text in UTF-8. -/
  | notText
  /-- Any other reason, in its own words. -/
  | other (text : String)
  deriving DecidableEq

/-- The wording of a reason. -/
def DiskFailure.message : DiskFailure → String
  | .missing => "No such file or directory (os error 2)"
  | .occupied => "File exists (os error 17)"
  | .notFolder => "Not a directory (os error 20)"
  | .folder => "Is a directory (os error 21)"
  | .nameTooLong => "File name too long (os error 36)"
  | .denied => "Permission denied (os error 13)"
  | .notText => "stream did not contain valid UTF-8"
  | .other text => text

/-- What reading a path leads to. -/
abbrev Reading := Except DiskFailure String

/-- Files and folders under the names that lead to them from the root. -/
structure Disk where
  /-- The folder of the run. -/
  home : List String
  /-- The files and their texts, the one written last first. -/
  files : List (List String × String)
  /-- Folders that may hold no file. -/
  folders : List (List String)

namespace Disk

/-- The most bytes a name may have. -/
def nameLimit : Nat := 255

/-- The most bytes a path may have. -/
def pathLimit : Nat := 4095

/-- The names on a path. A slash at its end asks for a folder, and so does the name of a folder in itself. -/
def steps (path : String) : List String :=
  (path.splitOn "/").filter (· != "") ++ (if path.endsWith "/" then ["."] else [])

/-- The file at the end of these names, if there is one. -/
def file? (d : Disk) (names : List String) : Option String := d.files.lookup names

/-- There is a folder at the end of these names: one of the list, or one on the way to a folder or a file. -/
def isFolder (d : Disk) (names : List String) : Bool :=
  names.isPrefixOf d.home || d.folders.any names.isPrefixOf || d.files.any fun file => names.isPrefixOf file.1.dropLast

/-- What the names lead to from a folder: a file with its text, or a folder. -/
def follow (d : Disk) (here : List String) : List String → Except DiskFailure (Option String)
  | [] => .ok none
  | name :: rest =>
    if name = "." then d.follow here rest
    else if name = ".." then d.follow here.dropLast rest
    else if nameLimit < name.utf8ByteSize then .error .nameTooLong
    else
      match d.file? (here ++ [name]) with
      | some text => if rest.isEmpty then .ok (some text) else .error .notFolder
      | none => if d.isFolder (here ++ [name]) then d.follow (here ++ [name]) rest else .error .missing

/-- Reads a path. -/
def read (d : Disk) (path : String) : Reading :=
  if path.isEmpty then .error .missing
  else if pathLimit < path.utf8ByteSize then .error .nameTooLong
  else
    match d.follow (if path.startsWith "/" then [] else d.home) (steps path) with
    | .error cause => .error cause
    | .ok none => .error .folder
    | .ok (some text) => .ok text

/-- Makes a folder in the folder of the run, unless there is a file of this name. -/
def addFolder (d : Disk) (name : String) : Except DiskFailure Disk :=
  if (d.file? (d.home ++ [name])).isSome then .error .occupied
  else .ok { d with folders := (d.home ++ [name]) :: d.folders }

/-- The place that a path leads to, as long as every name on the way is that of a folder. -/
def place (d : Disk) (path : String) : List String :=
  let enter (here : List String) (name : String) : List String :=
    if name = "." then here else if name = ".." then here.dropLast else here ++ [name]
  (steps path).foldl enter (if path.startsWith "/" then [] else d.home)

/-- Writes a file, over the one that is at its place, if there is one. -/
def write (d : Disk) (path text : String) : Disk := { d with files := (d.place path, text) :: d.files }

/-- The folders that every disk has at its root. -/
def rootFolders : List String :=
  ["bin", "boot", "dev", "etc", "home", "lib", "lib64", "media", "mnt", "opt", "proc", "root", "run", "sbin", "srv", "sys",
    "tmp", "usr", "var"]

/-- A disk without any files but the devices: the standard input can be read under its name, and the null device is empty. -/
def blank (input : String) : Disk where
  home := ["tmp", "run"]
  files := [(["dev", "null"], ""), (["dev", "stdin"], input)]
  folders := rootFolders.map ([·])

/-- A disk on which these files have been written in order, their paths starting from the folder of the run. -/
def ofFiles (input : String) (files : List (String × String)) : Disk :=
  files.foldl (fun d (path, text) => d.write path text) (blank input)

end Disk

end PerfectMatching.CommandLine
