import FrameMachine.Text

/-!
# Events and log levels

What a step tells an observer, how grave it is, and the threshold up to which it is shown. Events
do not act on the machine.
-/
namespace FrameMachine.Log

inductive Level where
  | error | warn | info | debug | trace
  deriving DecidableEq, Repr

namespace Level

def all : List Level := [error, warn, info, debug, trace]

/-- Zero is the gravest. -/
def rank : Level → Nat
  | error => 0 | warn => 1 | info => 2 | debug => 3 | trace => 4

def name : Level → String
  | error => "ERROR" | warn => "WARN" | info => "INFO" | debug => "DEBUG" | trace => "TRACE"

def ofName? (s : List Char) : Option Level :=
  all.find? fun level => level.name.toList == s.map Char.toUpper

end Level

inductive Threshold where
  | off
  | upTo (level : Level)
  deriving DecidableEq, Repr

structure UnknownLevel where
  text : String
  deriving DecidableEq, Repr

namespace Threshold

def admits : Threshold → Level → Bool
  | off, _ => false
  | upTo bound, level => level.rank ≤ bound.rank

def name : Threshold → String
  | off => "OFF"
  | upTo level => level.name

/-- A level's name, `off`, or one of the words for all and for nothing. Blanks
around the text do not count; only the names may be in any case. -/
def parse (text : String) : Except UnknownLevel Threshold :=
  let word := Blank.trim text.toList
  if word = "1".toList ∨ word = "true".toList ∨ word = "True".toList then .ok (upTo .trace)
  else if word = [] ∨ word = "0".toList ∨ word = "false".toList ∨ word = "False".toList then
    .ok off
  else if word.map Char.toUpper = "OFF".toList then .ok off
  else
    match Level.ofName? word with
    | some level => .ok (upTo level)
    | none => .error ⟨String.ofList word⟩

end Threshold

end FrameMachine.Log

namespace FrameMachine

inductive Event where
  | called (fp marker ret : UInt16)
  | returned (target args fp : UInt16)
  | ignored (opcode : UInt8) (addr : UInt16)
  deriving DecidableEq, Repr

namespace Event

def level : Event → Log.Level
  | called .. | returned .. => .trace
  | ignored .. => .debug

private def shown (w : UInt16) : String := "0x" ++ Numeral.upperHex 4 w.toNat

def message : Event → String
  | called fp marker ret =>
    let fp := shown fp
    let ret := shown ret
    s!"call frame fp={fp} marker={marker} ret={ret}"
  | returned target args fp =>
    let target := shown target
    let fp := shown fp
    s!"return to {target} args={args} fp={fp}"
  | ignored opcode addr =>
    let opcode := "0x" ++ Numeral.upperHex 2 opcode.toNat
    let addr := shown addr
    s!"ignoring unknown opcode {opcode} at {addr}"

end Event

end FrameMachine
