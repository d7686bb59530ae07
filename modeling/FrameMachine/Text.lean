/-!
# Numbers and addresses as text

Numbers are written in decimal, or in hexadecimal with a least number of places, and read in either
base below a limit. A refused text says which of its defects comes first when it is read from the
left. An address is a decimal number below `2 ^ 32`, or a hexadecimal one after `0x`; blanks around
it do not count.
-/
namespace FrameMachine.Blank

def isBlank (c : Char) : Bool :=
  let n := c.toNat
  (0x9 ≤ n && n ≤ 0xD) || n == 0x20 || n == 0x85 || n == 0xA0 || n == 0x1680 ||
    (0x2000 ≤ n && n ≤ 0x200A) || n == 0x2028 || n == 0x2029 || n == 0x202F ||
    n == 0x205F || n == 0x3000

def trim (s : List Char) : List Char :=
  ((s.dropWhile isBlank).reverse.dropWhile isBlank).reverse

end FrameMachine.Blank

namespace FrameMachine.Numeral

def decimal (n : Nat) : String := String.ofList (Nat.toDigits 10 n)

def hexDigits (places n : Nat) : List Char := (Nat.toDigits 16 n).leftpad places '0'

def lowerHex (places n : Nat) : String := String.ofList (hexDigits places n)

def upperHex (places n : Nat) : String :=
  String.ofList ((hexDigits places n).map Char.toUpper)

inductive Defect where
  | empty
  | invalidDigit
  | tooLarge
  deriving DecidableEq, Repr

def Defect.message : Defect → String
  | .empty => "cannot parse integer from empty string"
  | .invalidDigit => "invalid digit found in string"
  | .tooLarge => "number too large to fit in target type"

def digit? (base : Nat) (c : Char) : Option Nat :=
  let value :=
    if '0' ≤ c ∧ c ≤ '9' then c.toNat - '0'.toNat
    else if 'a' ≤ c ∧ c ≤ 'f' then c.toNat - 'a'.toNat + 10
    else if 'A' ≤ c ∧ c ≤ 'F' then c.toNat - 'A'.toNat + 10
    else base
  if value < base then some value else none

/-- Reads on from the value of the digits before. A digit is looked at before the
sum, so a bad one is reported where it would also be too much. -/
def readDigits (base limit value : Nat) : List Char → Except Defect Nat
  | [] => .ok value
  | c :: rest =>
    match digit? base c with
    | none => .error .invalidDigit
    | some d =>
      if value * base + d < limit then readDigits base limit (value * base + d) rest
      else .error .tooLarge

/-- One plus sign may stand in front of the digits, but not alone. -/
def read (base limit : Nat) : List Char → Except Defect Nat
  | [] => .error .empty
  | ['+'] => .error .invalidDigit
  | '+' :: digits => readDigits base limit 0 digits
  | digits => readDigits base limit 0 digits

end FrameMachine.Numeral

namespace FrameMachine.Address

structure Invalid where
  text : String
  defect : Numeral.Defect
  deriving DecidableEq, Repr

/-- The text is shown as it was given, blanks included. -/
def Invalid.message : Invalid → String
  | ⟨text, defect⟩ =>
    let reason := defect.message
    s!"invalid address '{text}': {reason}"

def readTrimmed : List Char → Except Numeral.Defect Nat
  | '0' :: 'x' :: digits => Numeral.read 16 UInt32.size digits
  | digits => Numeral.read 10 UInt32.size digits

def parse (text : String) : Except Invalid UInt32 :=
  match readTrimmed (Blank.trim text.toList) with
  | .ok n => .ok (UInt32.ofNat n)
  | .error defect => .error ⟨text, defect⟩

end FrameMachine.Address
