import Concolic.Bus.Record
import Concolic.Machine.Execution
import Concolic.Run.Basic

namespace Concolic

structure Conclusion where
  state : RunState
  ending : Option (Failure EarlyEnd) := none
  cancelled : Bool := false
  stop : Option Bus.Record := none

namespace Conclusion

def earlyEnd (c : Conclusion) : Option EarlyEnd := c.ending.map EarlyEnd.ofFailure

def isCalledOff (c : Conclusion) : Bool := c.earlyEnd.any (·.cause = .cancelled)

def final (c : Conclusion) : RunState := c.state.conclude c.earlyEnd

def record (c : Conclusion) (id parent : String) : Run :=
  { id, parent, input := c.final.declared, path := c.final.path.toList, status := c.final.status,
    reason := c.final.reason, ending := c.earlyEnd }

end Conclusion

/-- A program under test: it takes a run from its start to its end. -/
abbrev Subject := (cancelled : Bool) → RunState → Conclusion

namespace Machine

def StopRequest.record (r : StopRequest) : Bus.Record :=
  .ofList [("message", .text r.message), ("trigger", .text r.trigger), ("run", .text r.run)]

def Setup.subject (setup : Setup) : Subject := fun cancelled s =>
  let (c, ending) := run setup cancelled s
  { state := c.state, ending, cancelled := c.cancelled, stop := c.stop.map StopRequest.record }

end Machine

end Concolic
