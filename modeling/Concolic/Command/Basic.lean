import Concolic.Command.Files
import Concolic.Command.Flags
import Concolic.Command.Outcome
import Concolic.Command.ReportText
import Concolic.Config.Document
import Concolic.Exploration.Loop
import Concolic.Library.Standard
import Concolic.Machine.Assembly
import Concolic.Solver.BitVector

namespace Concolic.Command

structure Job where
  config : Config
  settings : Settings
  program : Machine.Program
  input : Input

namespace Job

def explorer (j : Job) : Explorer :=
  let setup : Machine.Setup := { program := j.program, library := .standard }
  { subject := setup.subject, settings := j.settings }

def start (j : Job) : Exploration := j.explorer.start false [] true

def report (j : Job) : Report := (j.explorer.explore BitVector.solver j.input j.start ()).1

end Job

namespace Outcome

def ofReport (r : Report) : Outcome :=
  { exit := if 0 < r.faulted then 2 else 0, stdout := r.text }

def unwritten (reason : String) : Outcome :=
  .failure ("yaml: write error: write /dev/stdout: " ++ reason)

end Outcome

def loadConfig (files : Files) (path : String) : Except String Config := do
  let text ← (files path).mapError fun e =>
    if e = .isDirectory then path ++ ": decode config: yaml: input error: " ++ e.message path
    else e.message path
  let config ← (Config.parse text).mapError fun e => path ++ ": " ++ e.message (·.message)
  let config := config.withDefaults
  config.check.mapError fun e => path ++ ": " ++ e.message
  return config

def loadProgram (files : Files) (path : String) : Except String Machine.Program := do
  let text ← (files path).mapError fun e =>
    if e = .isDirectory then path ++ ": " ++ e.message path else e.message path
  (Machine.Program.parse text).mapError fun e => path ++ ": " ++ e.message

namespace Flags

def config (f : Flags) (files : Files) : Except String Config := do
  let config ← if f.configFile = "" then pure .default else loadConfig files f.configFile
  let config := f.entries.foldl (fun c (name, e) => c.set name e) config
  return if f.verbose then { config with logLevel := "debug" } else config

def job (f : Flags) (files : Files) : Except String Job := do
  match f.arguments with
  | [] => throw "program required"
  | [path] =>
    let config ← f.config files
    let settings ← config.settings.mapError (·.message)
    let program ← loadProgram files path
    if SolverName.ofName? config.solver = some .z3 then
      throw "z3 support not compiled in, rebuild with -tags z3"
    return { config, settings, program, input := f.input }
  | _ => throw "too many programs specified"

end Flags

def paths : List String → List String
  | "explore" :: args =>
    match Flags.parse args with
    | .ok f => f.configFile :: f.arguments
    | .error _ => []
  | _ => []

def FlagError.outcome (e : FlagError) : Outcome :=
  if e = .help then { exit := 1, stderr := exploreUsage }
  else
    { exit := 1, stderr := e.message ++ "\n" ++ exploreUsage ++ e.message ++ "\n" }

def plan (files : Files) : List String → Except Outcome Job
  | [] | "" :: _ | "-h" :: _ | "--help" :: _ | "help" :: _ =>
    .error { exit := 1, stderr := usage }
  | "version" :: _ => .error .version
  | "explore" :: args => do
    let flags ← (Flags.parse args).mapError FlagError.outcome
    (flags.job files).mapError .failure
  | name :: _ => .error (.failure ("diver " ++ name ++ ": unknown command"))

end Concolic.Command
