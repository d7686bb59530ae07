import FrameMachine.Command.Run
import FrameMachine.Proofs.Command.Ending

/-!
# Observation

There is one story to tell of every run, whoever asks: each step is announced with the opcode that
it is going to execute, and its event follows. A log level and a trace select notices from that
story and do nothing else, so that two runs that are observed differently print the same and end
alike.
-/
namespace FrameMachine.Command

open Machine (after)

variable {args : Arguments} {policy : OpcodePolicy} {files : Files} {env : Environment}
  {m c : Machine Memory} {opcode : Option Opcode} {threshold : Log.Threshold} {n k : Nat}

def Observer.shows (o : Observer) : Notice → Bool
  | .step .. => o.trace
  | .event e => o.threshold.admits e.level

def Outcome.told (o : Outcome) : String := String.join (o.notices.toList.map (·.line ++ "\n"))

variable {env' : Environment}

end FrameMachine.Command
