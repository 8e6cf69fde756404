namespace Concolic.Command

structure Outcome where
  exit : Nat := 0
  stdout : String := ""
  stderr : String := ""
  deriving DecidableEq

namespace Outcome

def failure (message : String) : Outcome := { exit := 1, stderr := message ++ "\n" }

def version : Outcome := { stdout := "diver dev\n" }

end Outcome

def lines (l : List String) : String := String.join (l.map (· ++ "\n"))

def usage : String :=
  lines [
    "Diver is a concolic test generator for stack machine programs.",
    "",
    "Usage:",
    "",
    "\tdiver <command> [arguments]",
    "",
    "The commands are:",
    "",
    "\texplore     explore the paths of a program and report faults",
    "\tversion     print the version",
    "\thelp        this screen",
    ""]

def exploreUsage : String :=
  lines [
    "usage: diver explore [arguments] PROGRAM",
    "",
    "Explores the paths of an assembled program, negating one branch at a time,",
    "and prints a YAML report of the runs and the faults they found. Exits with",
    "status 2 if any run faulted.",
    "",
    "Arguments:",
    "",
    "\t-config PATH",
    "\t    YAML config file. Flags override its settings.",
    "\t-input NAME=KIND:VALUE",
    "\t    Seed input. May be repeated.",
    "\t-strategy NAME",
    "\t    Search strategy: dfs, bfs, random or a comma-separated mix.",
    "\t-workers N",
    "\t    Number of concurrent solve and run workers.",
    "\t-max-runs N",
    "\t    Stop after N runs.",
    "\t-max-time DURATION",
    "\t    Stop after DURATION.",
    "\t-solver NAME",
    "\t    Constraint solver: sat or z3.",
    "\t-solver-timeout DURATION",
    "\t    Timeout per solver call.",
    "\t-max-retries N",
    "\t    Retries for branch points the solver could not decide.",
    "\t-default-policy NAME",
    "\t    Value of inputs a derived input leaves unbound: zero, seed or random.",
    "\t-seed N",
    "\t    Seed for the random strategy and the random default policy.",
    "\t-metrics-addr ADDR",
    "\t    Serve Prometheus metrics at ADDR/metrics.",
    "\t-v",
    "\t    Enable debug logging.",
    ""]

end Concolic.Command
