import FrameMachine.Command.Run

/-!
# The command

Reads the command line, the environment and the program file, and prints what the
run has to say.
-/
namespace FrameMachine.Command

/-- Codes come with either sign. -/
def errorNumber (code : UInt32) : Nat := min code.toNat (0 - code).toNat

def faultOfError : IO.Error → ReadFault
  | .noFileOrDirectory .. => .notFound
  | .permissionDenied .. => ⟨"Permission denied", 13⟩
  | .inappropriateType _ code _ =>
    if errorNumber code = ReadFault.notADirectory.code then .notADirectory else .isADirectory
  | .invalidArgument _ code description =>
    if errorNumber code = ReadFault.nameTooLong.code then .nameTooLong
    else ⟨description, errorNumber code⟩
  | other => ⟨other.toString, 5⟩

def readProgram (path : String) : IO (Except ReadFault (List UInt8)) := do
  try
    let bytes ← IO.FS.readBinFile path
    return .ok bytes.toList
  catch e => return .error (faultOfError e)

def readEnvironment : IO Environment := do
  let log ← IO.getEnv Environment.logName
  let trace ← IO.getEnv Environment.traceName
  let strict ← IO.getEnv Environment.strictOpcodesName
  let permissive ← IO.getEnv Environment.permissiveOpcodesName
  return ⟨log, trace, strict, permissive⟩

def explain (_ : List String) : UsageFault → String
  | .helpWanted => "usage: framemachine [options] PROGRAM\n"
  | _ => "error: no valid command line\n"

end FrameMachine.Command

open FrameMachine.Command in
def main (words : List String) : IO UInt32 := do
  let image ← match Arguments.parse words with
    | .ok args => readProgram args.program
    | .error _ => pure (.ok [])
  let env ← readEnvironment
  let printout := respond explain words env fun _ => image
  (← IO.getStdout).putStr printout.stdout
  (← IO.getStderr).putStr printout.stderr
  return printout.exitCode
