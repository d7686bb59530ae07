import FrameMachine.Command.CommandLine
import FrameMachine.Log
import FrameMachine.Machine
import FrameMachine.Register
import FrameMachine.Snapshot.Basic
import FrameMachine.Store.Basic

/-!
# Running the command

A program image is loaded, run for a number of steps and looked at. The command ends with the first
failure; what it has printed by then stays printed. Notices about single steps go another way than
the output, and whether they are asked for changes neither the output nor the end. Four variables of
the environment count: a switch is on for three spellings and off for every other, and only the log
setting can be wrong. A file is seen by its path, as bytes or a reason why there are none; the paths
of a directory of plain files are followed name by name, and of other directories it only knows that
they are there.
-/
namespace FrameMachine

def OpcodePolicy.ofSwitches (strict permissive : Bool) : OpcodePolicy :=
  if strict && !permissive then .strict else .permissive

namespace Command

structure Environment where
  log : Option String
  trace : Option String
  strictOpcodes : Option String
  permissiveOpcodes : Option String
  deriving DecidableEq, Repr

namespace Environment

def logName : String := "STACK16_LOG"

def traceName : String := "STACK16_TRACE"

def strictOpcodesName : String := "STACK16_STRICT_OPCODES"

def permissiveOpcodesName : String := "STACK16_PERMISSIVE_OPCODES"

def isOn : Option String → Bool
  | some "1" | some "true" | some "True" => true
  | _ => false

def ofLookup (lookup : String → Option String) : Environment :=
  ⟨lookup logName, lookup traceName, lookup strictOpcodesName, lookup permissiveOpcodesName⟩

/-- Being permissive wins over being strict. -/
def policy (e : Environment) : OpcodePolicy :=
  .ofSwitches (isOn e.strictOpcodes) (isOn e.permissiveOpcodes)

def threshold (e : Environment) : Except Log.UnknownLevel Log.Threshold :=
  match e.log with
  | none => .ok .off
  | some text => Log.Threshold.parse text

end Environment

end Command

def Log.UnknownLevel.message : Log.UnknownLevel → String
  | ⟨text⟩ =>
    let source := Command.Environment.logName
    s!"invalid {source} level '{text}'"

end FrameMachine

namespace FrameMachine.Command

structure ReadFault where
  description : String
  code : Nat
  deriving DecidableEq, Repr

namespace ReadFault

def message : ReadFault → String
  | ⟨description, code⟩ => s!"{description} (os error {code})"

def notFound : ReadFault := ⟨"No such file or directory", 2⟩

def notADirectory : ReadFault := ⟨"Not a directory", 20⟩

def isADirectory : ReadFault := ⟨"Is a directory", 21⟩

def nameTooLong : ReadFault := ⟨"File name too long", 36⟩

end ReadFault

abbrev Files := String → Except ReadFault (List UInt8)

structure Directory where
  entries : List (String × List UInt8)

/-- Where the names of a path have led. -/
inductive Place where
  | here
  | elsewhere
  | file (bytes : List UInt8)
  deriving DecidableEq, Repr

namespace Directory

/-- Bytes in a single name. -/
def maxName : Nat := 255

/-- Bytes in a whole path. -/
def maxPath : Nat := 4095

/-- Nothing leads on from a file, not even the empty name after a slash. A name is
only measured where it is looked up. -/
def follow (d : Directory) (place : Place) (name : String) : Except ReadFault Place :=
  match place with
  | .file _ => .error .notADirectory
  | place =>
    if name = "" ∨ name = "." then .ok place
    else if name = ".." then .ok .elsewhere
    else if maxName < name.utf8ByteSize then .error .nameTooLong
    else if place = .elsewhere then .error .notFound
    else
      match d.entries.lookup name with
      | some bytes => .ok (.file bytes)
      | none => .error .notFound

def start (path : String) : Place := if path.toList.head? = some '/' then .elsewhere else .here

/-- The whole path is measured before its first name is followed. -/
def read (d : Directory) : Files := fun path =>
  if path = "" then .error .notFound
  else if maxPath < path.utf8ByteSize then .error .nameTooLong
  else
    match ((path.toList.splitOn '/').map String.ofList).foldlM d.follow (start path) with
    | .ok (.file bytes) => .ok bytes
    | .ok _ => .error .isADirectory
    | .error fault => .error fault

end Directory

inductive Failure where
  | logLevel (unknown : Log.UnknownLevel)
  | unreadable (path : String) (fault : ReadFault)
  | memoryTooSmall (size : Nat)
  | capacityOverflow
  | programTooLarge (fault : FrameMachine.Fault)
  | step (index : Nat) (registers : RegisterFile) (fault : FrameMachine.Fault)
  | window (fault : FrameMachine.Fault)
  deriving DecidableEq

def Failure.message : Failure → String
  | logLevel unknown => unknown.message
  | unreadable path fault =>
    let reason := fault.message
    s!"read program {path}: {reason}"
  | memoryTooSmall size => s!"memory must hold at least one word, got {size} bytes"
  | capacityOverflow => "capacity overflow"
  | programTooLarge fault =>
    let reason := fault.message
    s!"program does not fit in memory: {reason}"
  | step index registers fault =>
    let dump := registers.dump
    let reason := fault.message
    s!"step {index} failed\n{dump}: {reason}"
  | window fault => fault.message

namespace Failure

/-- Where no memory of the size can be had, the command does not end but breaks off. -/
def exitCode : Failure → UInt32
  | capacityOverflow => 101
  | _ => 1

/-- Of a crash the reason alone is kept. -/
def line : Failure → String
  | capacityOverflow => capacityOverflow.message
  | failure => "fatal: " ++ failure.message

end Failure

inductive Notice where
  | step (index : Nat) (ip : UInt16) (opcode : Option Opcode)
  | event (e : Event)
  deriving DecidableEq, Repr

def Notice.line : Notice → String
  | step index ip opcode =>
    let place := Numeral.upperHex 4 ip.toNat
    let mnemonic := (opcode.map Opcode.mnemonic).getD "??"
    s!"[step {index}] ip=0x{place} {mnemonic}"
  | event e =>
    let level := e.level.name
    let message := e.message
    s!"[{level}] {message}"

structure Observer where
  trace : Bool
  threshold : Log.Threshold
  deriving DecidableEq, Repr

namespace Observer

def nextOpcode? (m : Machine Memory) : Option Opcode :=
  match Store.readByte m.store (m.reg .ip).toUInt32 with
  | .ok byte => Opcode.ofByte? byte
  | .error _ => none

def before (o : Observer) (index : Nat) (m : Machine Memory) (notices : Array Notice) :
    Array Notice :=
  if o.trace then notices.push (.step index (m.reg .ip) (nextOpcode? m)) else notices

def after (o : Observer) (event : Option Event) (notices : Array Notice) : Array Notice :=
  match event with
  | some e => if o.threshold.admits e.level then notices.push (.event e) else notices
  | none => notices

end Observer

structure Progress where
  notices : Array Notice
  failure : Option Failure
  machine : Machine Memory

def stepOn (o : Observer) (index : Nat) (notices : Array Notice) :
    Nat → Machine Memory → Progress
  | 0, m => ⟨notices, none, m⟩
  | n + 1, m =>
    let notices := o.before index m notices
    match Machine.step m with
    | .ok event m => stepOn o (index + 1) (o.after event notices) n m
    | .error fault m => ⟨notices, some (.step index m.registers fault), m⟩

/-- The machine before its first step, which it takes at the start of the image. -/
def setUp (args : Arguments) (policy : OpcodePolicy) (files : Files) :
    Except Failure (Machine Memory) :=
  match files args.program with
  | .error fault => .error (.unreadable args.program fault)
  | .ok image =>
    if args.memorySize < 2 then .error (.memoryTooSmall args.memorySize.toNat)
    else
      match Memory.allocate? args.memorySize.toNat with
      | none => .error .capacityOverflow
      | some memory =>
        match memory.load args.loadAddress image with
        | .error fault => .error (.programTooLarge fault)
        | .ok memory => .ok ((Machine.initial memory policy).setReg .ip args.loadAddress.toUInt16)

/-- The dumps that are asked for, up to the first that fails. -/
def report (args : Arguments) (m : Machine Memory) : List String × Option Failure :=
  let registers := if args.dumpRegisters then [m.registers.dump] else []
  let snapshot := if args.json then [m.snapshot.pretty] else []
  match args.dumpMemory with
  | none => (registers ++ snapshot, none)
  | some addr =>
    match Store.window m.store addr args.dumpLength.toNat with
    | .ok window => (registers ++ window :: snapshot, none)
    | .error fault => (registers, some (.window fault))

structure Outcome where
  output : List String
  notices : Array Notice
  failure : Option Failure

namespace Outcome

def failed (failure : Failure) : Outcome := ⟨[], #[], some failure⟩

def exitCode (o : Outcome) : UInt32 :=
  match o.failure with
  | none => 0
  | some failure => failure.exitCode

def stdout (o : Outcome) : String := String.join (o.output.map (· ++ "\n"))

def stderr (o : Outcome) : String :=
  let notices := String.join (o.notices.toList.map (·.line ++ "\n"))
  match o.failure with
  | none => notices
  | some failure => notices ++ failure.line ++ "\n"

end Outcome

def policyOf (args : Arguments) (env : Environment) : OpcodePolicy :=
  if args.strictOpcodes then .strict else env.policy

def execute (args : Arguments) (env : Environment) (files : Files) : Outcome :=
  match env.threshold with
  | .error unknown => .failed (.logLevel unknown)
  | .ok threshold =>
    match setUp args (policyOf args env) files with
    | .error failure => .failed failure
    | .ok m =>
      match stepOn ⟨Environment.isOn env.trace, threshold⟩ 0 #[] args.steps.toNat m with
      | ⟨notices, some failure, _⟩ => ⟨[], notices, some failure⟩
      | ⟨notices, none, m⟩ =>
        let (output, failure) := report args m
        ⟨output, notices, failure⟩

structure Printout where
  exitCode : UInt32
  stdout : String
  stderr : String
  deriving DecidableEq, Repr

/-- Help that is asked for is no failure. -/
def UsageFault.printout (text : String) : UsageFault → Printout
  | .helpWanted => ⟨0, text, ""⟩
  | _ => ⟨2, "", text⟩

def Outcome.printout (o : Outcome) : Printout := ⟨o.exitCode, o.stdout, o.stderr⟩

/-- How the usage is explained, and what is wrong with the words, is left to `explain`. -/
def respond (explain : List String → UsageFault → String) (words : List String)
    (env : Environment) (files : Files) : Printout :=
  match Arguments.parse words with
  | .error fault => fault.printout (explain words fault)
  | .ok args => (execute args env files).printout

end FrameMachine.Command
