import FrameMachine.Text

/-!
# The command line

What the command is asked to do, the options that say so, and what a command line can be refused
for. A value option is written `--name value` or `--name=value`, a flag `--name`, and the program
stands anywhere among them; after `--` nothing is an option any more. The words are taken from left
to right into a draft of the arguments.
-/
namespace FrameMachine.Command

structure Arguments where
  program : String
  memorySize : UInt64
  loadAddress : UInt32
  steps : UInt64
  strictOpcodes : Bool
  dumpRegisters : Bool
  dumpMemory : Option UInt32
  dumpLength : UInt64
  json : Bool
  deriving DecidableEq, Repr

inductive Setting where
  | memorySize | loadAddress | steps | dumpMemory | dumpLength
  deriving DecidableEq, Repr

namespace Setting

def all : List Setting := [memorySize, loadAddress, steps, dumpMemory, dumpLength]

def name : Setting → String
  | memorySize => "memory-size"
  | loadAddress => "load-addr"
  | steps => "steps"
  | dumpMemory => "dump-mem"
  | dumpLength => "dump-len"

def read? (s : Setting) (text : String) : Option Nat :=
  match s with
  | loadAddress | dumpMemory => (Address.parse text).toOption.map UInt32.toNat
  | memorySize | steps | dumpLength => (Numeral.read 10 UInt64.size text.toList).toOption

end Setting

inductive Flag where
  | strictOpcodes | dumpRegisters | json
  deriving DecidableEq, Repr

namespace Flag

def all : List Flag := [strictOpcodes, dumpRegisters, json]

def name : Flag → String
  | strictOpcodes => "strict-opcodes"
  | dumpRegisters => "dump-regs"
  | json => "json"

end Flag

inductive UsageFault where
  | missingProgram
  | unknownArgument
  | refusedValue
  | missingValue
  | repeated
  | unwantedValue
  | helpWanted
  deriving DecidableEq, Repr

inductive Token where
  | terminator
  | long (name : List Char) (value : Option String)
  | short (letter : Char)
  | plain (text : String)
  deriving DecidableEq, Repr

/-- A lone hyphen is plain. -/
def Token.ofText (text : String) : Token :=
  match text.toList with
  | ['-', '-'] => .terminator
  | '-' :: '-' :: body =>
    let name := body.takeWhile (· ≠ '=')
    match body.dropWhile (· ≠ '=') with
    | [] => .long name none
    | _ :: value => .long name (some (String.ofList value))
  | '-' :: letter :: _ => .short letter
  | _ => .plain text

/-- A word is only judged when the next one is seen, for an option may still get its
value then. -/
inductive Pending where
  | nothing
  | program (text : String)
  | setting (s : Setting) (value : Option String)
  deriving DecidableEq, Repr

structure Draft where
  program : Option String
  settings : List (Setting × Nat)
  flags : List Flag
  pending : Pending
  terminated : Bool
  deriving DecidableEq, Repr

namespace Draft

def empty : Draft := ⟨none, [], [], .nothing, false⟩

/-- A second value is refused before it is looked at. -/
def store (d : Draft) (s : Setting) (text : String) : Except UsageFault Draft :=
  if (d.settings.lookup s).isSome then .error .repeated
  else
    match s.read? text with
    | some n => .ok { d with settings := (s, n) :: d.settings }
    | none => .error .refusedValue

def raise (d : Draft) (f : Flag) : Except UsageFault Draft :=
  if f ∈ d.flags then .error .repeated else .ok { d with flags := f :: d.flags }

def settle (d : Draft) : Except UsageFault Draft :=
  match d.pending with
  | .nothing => .ok d
  | .program "" => .error .missingValue
  | .program text => .ok { d with program := some text, pending := .nothing }
  | .setting _ none => .error .missingValue
  | .setting s (some text) => { d with pending := .nothing }.store s text

def hasProgram (d : Draft) : Bool :=
  match d.pending with
  | .program _ => true
  | _ => d.program.isSome

/-- There is one program; a second is as unknown as a wrong option. -/
def position (d : Draft) (text : String) : Except UsageFault Draft :=
  if d.hasProgram then .error .unknownArgument
  else d.settle.map ({ · with pending := .program text })

def option (d : Draft) (name : List Char) (value : Option String) : Except UsageFault Draft :=
  if name = "help".toList then
    match value with
    | none => d.settle >>= fun _ => .error .helpWanted
    | some _ => .error .unwantedValue
  else
    match Setting.all.find? (·.name.toList == name), Flag.all.find? (·.name.toList == name) with
    | some s, _ =>
      match value with
      | none => d.settle.map ({ · with pending := .setting s none })
      | some text => d.settle >>= (·.store s text)
    | none, some f =>
      match value with
      | none => d.settle >>= (·.raise f)
      | some _ => .error .unwantedValue
    | none, none => .error .unknownArgument

def take (d : Draft) (text : String) : Except UsageFault Draft :=
  if d.terminated then d.position text
  else
    match Token.ofText text with
    | .terminator => .ok { d with terminated := true }
    | .long name value => d.option name value
    | .short 'h' => d.settle >>= fun _ => .error .helpWanted
    | .short _ => .error .unknownArgument
    | .plain text =>
      match d.pending with
      | .setting s none => .ok { d with pending := .setting s (some text) }
      | _ => d.position text

def value (d : Draft) (s : Setting) (default : Nat) : Nat := (d.settings.lookup s).getD default

def finish (d : Draft) : Except UsageFault Arguments := do
  let d ← d.settle
  match d.program with
  | none => throw .missingProgram
  | some program =>
    return {
      program
      memorySize := UInt64.ofNat (d.value .memorySize 0x10000)
      loadAddress := UInt32.ofNat (d.value .loadAddress 0)
      steps := UInt64.ofNat (d.value .steps 64)
      strictOpcodes := decide (.strictOpcodes ∈ d.flags)
      dumpRegisters := decide (.dumpRegisters ∈ d.flags)
      dumpMemory := (d.settings.lookup .dumpMemory).map UInt32.ofNat
      dumpLength := UInt64.ofNat (d.value .dumpLength 16)
      json := decide (.json ∈ d.flags) }

end Draft

def Arguments.parse (words : List String) : Except UsageFault Arguments :=
  words.foldlM Draft.take Draft.empty >>= Draft.finish

end FrameMachine.Command
