import Concolic.Exploration.Basic

namespace Concolic

namespace Explorer

def noSolverMessage : String := "diver: solver required"

def noSubjectMessage : String := "diver: program required"

def start (e : Explorer) (cancelled : Bool) (listeners : List (String × Listener))
    (heeds : Bool) : Exploration :=
  let x : Exploration :=
    { frontier := { maxRetries := e.settings.maxRetries }
      cancelled
      remaining := if 0 < e.settings.maxTime then some e.settings.maxTime.toNat else none }
  let x := listeners.foldl (fun x (topic, l) => x.subscribe topic l) x
  if heeds then x.subscribe Bus.stopTopic .controller else x

variable {σ : Type}

/-- The coordinator's next step: a free worker gets a point, or else the first busy worker answers.
Nothing is left to do if that changes nothing. -/
def advance (e : Explorer) (solver : Solver σ) (x : Exploration) (s : σ) :
    Bool × Exploration × σ :=
  match x.dispatch e with
  | (true, x) => (true, x, s)
  | (false, x) =>
    match x.inFlight with
    | [] => (false, x, s)
    | p :: _ =>
      let (answer, s) := p.ask solver (x.allowance e) s
      (true, x.settle e p answer 0, s)

def advanceFor (e : Explorer) (solver : Solver σ) : (fuel : Nat) → Exploration → σ → Exploration × σ
  | 0, x, s => (x, s)
  | fuel + 1, x, s =>
    match e.advance solver x s with
    | (true, x, s) => e.advanceFor solver fuel x s
    | (false, x, s) => (x, s)

/-- There are no more steps than this: each key is handed out at most once and once more for each
retry, and each time it is handed back. -/
def maxAdvances (e : Explorer) : Nat := 2 * (e.settings.maxRetries.toNat + 1) * twoPow 64

def exploreFor (e : Explorer) (solver : Solver σ) (fuel : Nat) (input : Input) (x : Exploration)
    (s : σ) : Report × Exploration :=
  let (x, _) := e.advanceFor solver fuel (x.begin e input) s
  let (r, x) := x.finish 0
  (r, x.dismiss)

def explore (e : Explorer) (solver : Solver σ) (input : Input) (x : Exploration) (s : σ) :
    Report × Exploration :=
  e.exploreFor solver (e.maxAdvances + 1) input x s

end Explorer

end Concolic
