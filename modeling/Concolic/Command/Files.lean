namespace Concolic.Command

inductive FileError
  | missing
  | notDirectory
  | isDirectory
  | other (reason : String)
  deriving DecidableEq

namespace FileError

def reason : FileError → String
  | missing => "no such file or directory"
  | notDirectory => "not a directory"
  | isDirectory => "is a directory"
  | other r => r

/-- What is said of a path. A directory can be opened but not read. -/
def message (e : FileError) (path : String) : String :=
  (if e = isDirectory then "read " else "open ") ++ path ++ ": " ++ e.reason

end FileError

abbrev Files := String → Except FileError String

namespace Files

/-- The steps of a path below the current directory; `..` takes back the last one. -/
def steps (path : String) : List String :=
  ((path.splitOn "/").foldl (fun taken step =>
    if step = "" || step = "." then taken
    else if step = ".." then taken.tail
    else step :: taken) []).reverse

def ofList (files : List (String × String)) : Files := fun path =>
  let wanted := steps path
  let named := files.map fun f => (steps f.1, f.2)
  if path = "" || path.startsWith "/" then .error .missing
  else
    match named.lookup wanted with
    | some text => if path.endsWith "/" then .error .notDirectory else .ok text
    | none =>
      if wanted.isEmpty || named.any (fun f => wanted.isPrefixOf f.1) then .error .isDirectory
      else if named.any (fun f => f.1.isPrefixOf wanted) then .error .notDirectory
      else .error .missing

end Files

end Concolic.Command
