import Concolic.Config.Basic
import Concolic.Input

/-!
The flags of a command: `-name value`, `-name=value`, or `-name` alone for a switch, all with one or
two hyphens. Flags end at the first other argument or after `--`.
-/

namespace Concolic.Command

structure Flags where
  configFile : String := ""
  verbose : Bool := false
  input : Input := ∅
  entries : List (String × Config.Entry) := []
  arguments : List String := []

inductive FlagError
  | badSyntax (argument : String)
  | undefined (name : String)
  | missingValue (name : String)
  | invalidSwitch (value name : String)
  | invalidValue (value name reason : String)
  | help
  deriving DecidableEq

def FlagError.message : FlagError → String
  | badSyntax s => "bad flag syntax: " ++ s
  | undefined n => "flag provided but not defined: -" ++ n
  | missingValue n => "flag needs an argument: -" ++ n
  | invalidSwitch v n => "invalid boolean value " ++ Text.quote v ++ " for -" ++ n ++ ": parse error"
  | invalidValue v n reason =>
    "invalid value " ++ Text.quote v ++ " for flag -" ++ n ++ ": " ++ reason
  | help => "flag: help requested"

/-- A number of 64 bits, digit by digit: the first digit that is none, or that leads out of the
range, decides what is wrong. -/
def boundedDigits (base acc : Nat) : List Char → Except String Nat
  | [] => .ok acc
  | c :: cs =>
    if c = '_' then boundedDigits base acc cs
    else
      match Text.digitValue? c with
      | none => .error "parse error"
      | some d =>
        if base ≤ d then .error "parse error"
        else if twoPow 64 ≤ acc * base + d then .error "value out of range"
        else boundedDigits base (acc * base + d) cs

def readInteger (s : String) : Except String Int := do
  let (negative, body) := match s.toList with
    | '-' :: r => (true, r)
    | '+' :: r => (false, r)
    | r => (false, r)
  if body.isEmpty then throw "parse error"
  let (base, ds) := Text.splitBase body
  let n ← boundedDigits base 0 ds
  if body.contains '_' && !Text.underscoresOk body then throw "parse error"
  let i : Int := if negative then -(n : Int) else n
  if i < -(twoPow 63 : Int) || (twoPow 63 : Int) ≤ i then throw "value out of range"
  return i

def cut? (c : Char) (s : String) : Option (String × String) :=
  match s.toList.dropWhile (· ≠ c) with
  | [] => none
  | _ :: after => some (String.ofList (s.toList.takeWhile (· ≠ c)), String.ofList after)

def readInput (s : String) : Except String (String × Value) := do
  let expected := "expected name=kind:value: " ++ Text.quote s
  match cut? '=' s with
  | none => throw expected
  | some (name, rest) =>
    if name = "" then throw expected
    match cut? ':' rest with
    | none => throw expected
    | some (kindName, literal) =>
      match Kind.ofName? kindName with
      | none => throw (Kind.unknownMessage kindName)
      | some kind => return (name, ← (Value.read kind literal).mapError (·.message))

def readTime (s : String) : Except String Int :=
  (Duration.parse s).mapError fun _ => "parse error"

def readSwitch (s : String) : Except String Bool :=
  match Value.readBool? s with
  | some b => .ok b
  | none => .error "parse error"

namespace Flags

def replacing (f : Flags) (name : String) (e : Config.Entry) : Flags :=
  { f with entries := f.entries ++ [(name, e)] }

def isSwitch (name : String) : Bool := name = "v"

def set? (f : Flags) (name value : String) : Option (Except String Flags) :=
  match name with
  | "config" => some (.ok { f with configFile := value })
  | "v" => some ((readSwitch value).map fun b => { f with verbose := b })
  | "input" => some ((readInput value).map fun (n, v) => { f with input := f.input.insert n v })
  | "strategy" => some (.ok (f.replacing "strategy" (.text value)))
  | "workers" => some ((readInteger value).map fun n => f.replacing "workers" (.number n))
  | "max-runs" => some ((readInteger value).map fun n => f.replacing "max_runs" (.number n))
  | "max-time" =>
    some ((readTime value).map fun n => f.replacing "max_time" (.text (Duration.text n)))
  | "solver" => some (.ok (f.replacing "solver" (.text value)))
  | "solver-timeout" =>
    some ((readTime value).map fun n => f.replacing "solver_timeout" (.text (Duration.text n)))
  | "max-retries" =>
    some ((readInteger value).map fun n => f.replacing "max_retries" (.optional (some n)))
  | "default-policy" => some (.ok (f.replacing "default_policy" (.text value)))
  | "seed" => some ((readInteger value).map fun n => f.replacing "seed" (.long n))
  | "metrics-addr" => some (.ok (f.replacing "metrics_addr" (.text value)))
  | _ => none

def isDefined (name : String) : Bool := (({} : Flags).set? name "").isSome

def splitName (s : String) : String × Option String :=
  match cut? '=' s with
  | some (name, value) => (name, some value)
  | none => (s, none)

def assign (f : Flags) (name value : String) : Except FlagError Flags :=
  match f.set? name value with
  | none => .error (.undefined name)
  | some (.ok f) => .ok f
  | some (.error reason) =>
    .error (if isSwitch name then .invalidSwitch value name else .invalidValue value name reason)

def take (f : Flags) : List String → Except FlagError Flags
  | [] => .ok f
  | s :: rest =>
    match s.toList with
    | '-' :: c :: cs =>
      if c = '-' && cs.isEmpty then .ok { f with arguments := rest }
      else
        let body := if c = '-' then cs else c :: cs
        if body.head?.all fun c => c = '-' || c = '=' then .error (.badSyntax s)
        else
          let (name, value) := splitName (String.ofList body)
          if !isDefined name then
            .error (if name = "help" || name = "h" then .help else .undefined name)
          else
            match value, rest with
            | some v, rest => do (← f.assign name v).take rest
            | none, rest =>
              if isSwitch name then do (← f.assign name "true").take rest
              else
                match rest with
                | [] => .error (.missingValue name)
                | v :: rest => do (← f.assign name v).take rest
    | _ => .ok { f with arguments := s :: rest }

def parse (args : List String) : Except FlagError Flags := ({} : Flags).take args

end Flags

end Concolic.Command
