import Concolic.Exploration.Report
import Concolic.Text.Duration
import Concolic.Text.Natural
import Concolic.Yaml.Layout

namespace Concolic

open Yaml (Block)

def optionalEntry (name text : String) : List (String × Block) :=
  if text = "" then [] else [(name, .text text)]

def FaultReport.block (f : FaultReport) : Block :=
  .mapping ([("run", .text f.run),
      ("input", .mapping (Text.Natural.sort (f.input.map fun (n, v) => (n, .text v))))]
    ++ optionalEntry "pos" f.pos ++ [("message", .text f.message)])

def numbers (l : List (String × Nat)) : List (String × Block) :=
  l.map fun (name, n) => (name, .number n)

namespace Report

def block (r : Report) : Block :=
  .mapping (numbers r.counts
    ++ (if r.faults.isEmpty then [] else [("faults", .sequence (r.faults.map FaultReport.block))])
    ++ [("frontier", .mapping (numbers r.frontier.fields)), ("stop_reason", .text r.reason.name)]
    ++ optionalEntry "stop_message" r.stop.message ++ optionalEntry "stop_trigger" r.stop.trigger
    ++ [("elapsed", .text (Duration.text r.elapsed))])

def text (r : Report) : String := r.block.document

end Report

end Concolic
