import Concolic.Frontier.Strategy

namespace Concolic

inductive DefaultPolicy
  | zero
  | seed
  | random
  deriving DecidableEq

namespace DefaultPolicy

def name : DefaultPolicy → String
  | zero => "zero"
  | seed => "seed"
  | random => "random"

def ofName? : String → Option DefaultPolicy
  | "zero" | "" => some zero
  | "seed" => some seed
  | "random" => some random
  | _ => none

def unknownMessage (name : String) : String :=
  "diver: unknown default policy: " ++ Text.quote name

def value [g : Generator] (policy : DefaultPolicy) (seed : Int64) (name : String) (kind : Kind) :
    Except Defect Value :=
  match policy with
  | zero | .seed => Value.zero kind
  | random => Value.ofBits kind (g.word (seed ^^^ (Text.hashText name).toInt64)).toNat

end DefaultPolicy

/-- Times are in nanoseconds; a time or a number of runs that is not positive is no limit. -/
structure Settings where
  plan : SearchPlan := .depthFirst
  workers : Int := 1
  maxRuns : Int := 0
  maxTime : Int := 0
  solverTimeout : Int := 5000000000
  maxRetries : Int := 1
  policy : DefaultPolicy := .zero
  seed : Int64 := 0
  deriving DecidableEq

namespace Settings

def workerCount (s : Settings) : Nat := max 1 s.workers.toNat

end Settings

end Concolic
