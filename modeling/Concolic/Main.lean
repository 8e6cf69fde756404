import Concolic.Command.Basic

namespace Concolic.Command

def readFile (path : String) : IO (Except FileError String) := do
  try
    return .ok (← IO.FS.readFile path)
  catch
    | .noFileOrDirectory .. => return .error .missing
    | .inappropriateType .. => return .error .isDirectory
    | e => return .error (.other (toString e))

def readFiles (paths : List String) : IO Files := do
  let texts ← paths.mapM fun path => return (path, ← readFile path)
  return fun path => (texts.lookup path).getD (.error .missing)

def writeLog (level : LogLevel) (elapsed start : Nat) (x : Exploration) : IO Unit := do
  for entry in x.log.toList.drop start do
    if level.isLogged entry.level then
      IO.eprintln ("time=" ++ Duration.text elapsed ++ " " ++ entry.text)

partial def advanceTimed (job : Job) (began : Nat) (x : Exploration) : IO Exploration := do
  let elapsed := (← IO.monoNanosNow) - began
  let limit := job.start.remaining
  let x := { x with remaining := limit.map (· - elapsed) }
  let (more, y, _) := job.explorer.advance BitVector.solver x ()
  writeLog job.config.level elapsed x.log.size y
  if more then advanceTimed job began y else return y

def explore (job : Job) : IO Report := do
  let began ← IO.monoNanosNow
  let x := job.start.begin job.explorer job.input
  writeLog job.config.level 0 0 x
  let x ← advanceTimed job began x
  let elapsed := (← IO.monoNanosNow) - began
  let (report, y) := x.finish elapsed
  writeLog job.config.level elapsed x.log.size y
  return report

def write (o : Outcome) (isReport : Bool) : IO UInt32 := do
  try
    (← IO.getStdout).putStr o.stdout
    (← IO.getStdout).flush
    IO.eprint o.stderr
    return o.exit.toUInt32
  catch e =>
    if isReport then
      let failed := Outcome.unwritten (toString e)
      IO.eprint failed.stderr
      return failed.exit.toUInt32
    else return o.exit.toUInt32

end Concolic.Command

open Concolic in
def main (args : List String) : IO UInt32 := do
  match Command.plan (← Command.readFiles (Command.paths args)) args with
  | .error o => Command.write o false
  | .ok job => Command.write (.ofReport (← Command.explore job)) true
