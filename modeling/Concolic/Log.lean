namespace Concolic

inductive LogLevel
  | panic | fatal | error | warning | info | debug | trace
  deriving DecidableEq

namespace LogLevel

def name : LogLevel → String
  | panic => "panic"
  | fatal => "fatal"
  | error => "error"
  | warning => "warning"
  | info => "info"
  | debug => "debug"
  | trace => "trace"

def rank : LogLevel → Nat
  | panic => 0
  | fatal => 1
  | error => 2
  | warning => 3
  | info => 4
  | debug => 5
  | trace => 6

def isLogged (limit level : LogLevel) : Bool := level.rank ≤ limit.rank

def ofName? (s : String) : Option LogLevel :=
  match String.ofList (s.toList.map Char.toLower) with
  | "panic" => some panic
  | "fatal" => some fatal
  | "error" => some error
  | "warn" | "warning" => some warning
  | "info" => some info
  | "debug" => some debug
  | "trace" => some trace
  | _ => none

end LogLevel

structure LogEntry where
  level : LogLevel
  message : String
  fields : List (String × String) := []
  deriving DecidableEq

namespace LogEntry

def text (e : LogEntry) : String :=
  e.level.name ++ " " ++ e.message
    ++ String.join (e.fields.map fun f => " " ++ f.1 ++ "=" ++ f.2)

end LogEntry

end Concolic
