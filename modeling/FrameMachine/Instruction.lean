/-!
# Instructions

The twelve opcodes, their bytes and the fields that follow each of them, and an opcode together with
its fields. A word field takes two bytes, high byte first. Register fields are byte offsets into the
register file; a decoded one is even and below 24, but an instruction may carry any number.
-/
namespace FrameMachine

inductive OperandKind where
  | register
  | literal
  | address
  | shortAddress
  deriving DecidableEq, Repr

def OperandKind.width : OperandKind → Nat
  | .register | .shortAddress => 1
  | .literal | .address => 2

inductive Opcode where
  | movLitReg | movRegReg | movRegMem | movMemReg | addRegReg | jmpNotEq
  | pshLit | pshReg | popReg | calLit | calReg | ret
  deriving DecidableEq, Repr

namespace Opcode

/-- All opcodes, by ascending byte. -/
def all : List Opcode :=
  [movLitReg, movRegReg, movRegMem, movMemReg, addRegReg, jmpNotEq,
    pshLit, pshReg, popReg, calLit, calReg, ret]

def byte : Opcode → UInt8
  | movLitReg => 0x10
  | movRegReg => 0x11
  | movRegMem => 0x12
  | movMemReg => 0x13
  | addRegReg => 0x14
  | jmpNotEq => 0x15
  | pshLit => 0x17
  | pshReg => 0x18
  | popReg => 0x1A
  | calLit => 0x5A
  | calReg => 0x5B
  | ret => 0x5C

def ofByte? (b : UInt8) : Option Opcode := all.find? fun op => op.byte == b

theorem ofByte?_byte (op : Opcode) : ofByte? op.byte = some op := by
  cases op <;> rfl

theorem byte_of_ofByte? {b : UInt8} {op : Opcode} (h : ofByte? b = some op) : op.byte = b := by
  simpa using List.find?_some h

def mnemonic : Opcode → String
  | movLitReg => "MOV_LIT_REG"
  | movRegReg => "MOV_REG_REG"
  | movRegMem => "MOV_REG_MEM"
  | movMemReg => "MOV_MEM_REG"
  | addRegReg => "ADD_REG_REG"
  | jmpNotEq => "JMP_NOT_EQ"
  | pshLit => "PSH_LIT"
  | pshReg => "PSH_REG"
  | popReg => "POP_REG"
  | calLit => "CAL_LIT"
  | calReg => "CAL_REG"
  | ret => "RET"

/-- The fields after the opcode byte, in the order in which they are fetched. -/
def operands : Opcode → List OperandKind
  | movLitReg => [.literal, .register]
  | movRegReg => [.register, .register]
  | movRegMem => [.register, .address]
  | movMemReg => [.address, .register]
  | addRegReg => [.register, .register]
  | jmpNotEq => [.literal, .shortAddress]
  | pshLit => [.literal]
  | pshReg => [.register]
  | popReg => [.register]
  | calLit => [.address]
  | calReg => [.register]
  | ret => []

def encodedLength (op : Opcode) : Nat := op.operands.foldl (fun n kind => n + kind.width) 1

end Opcode

inductive Instruction where
  | movLitReg (value : UInt16) (dst : Nat)
  | movRegReg (src dst : Nat)
  | movRegMem (src : Nat) (addr : UInt16)
  | movMemReg (addr : UInt16) (dst : Nat)
  | addRegReg (lhs rhs : Nat)
  | jmpNotEq (value : UInt16) (target : UInt8)
  | pshLit (value : UInt16)
  | pshReg (src : Nat)
  | popReg (dst : Nat)
  | calLit (target : UInt16)
  | calReg (src : Nat)
  | ret
  deriving DecidableEq, Repr

inductive Operand where
  | register (offset : Nat)
  | literal (value : UInt16)
  | address (addr : UInt16)
  | shortAddress (addr : UInt8)
  deriving DecidableEq, Repr

def Operand.kind : Operand → OperandKind
  | .register _ => .register
  | .literal _ => .literal
  | .address _ => .address
  | .shortAddress _ => .shortAddress

namespace Instruction

def opcode : Instruction → Opcode
  | movLitReg .. => .movLitReg
  | movRegReg .. => .movRegReg
  | movRegMem .. => .movRegMem
  | movMemReg .. => .movMemReg
  | addRegReg .. => .addRegReg
  | jmpNotEq .. => .jmpNotEq
  | pshLit .. => .pshLit
  | pshReg .. => .pshReg
  | popReg .. => .popReg
  | calLit .. => .calLit
  | calReg .. => .calReg
  | ret => .ret

def operands : Instruction → List Operand
  | movLitReg value dst => [.literal value, .register dst]
  | movRegReg src dst => [.register src, .register dst]
  | movRegMem src addr => [.register src, .address addr]
  | movMemReg addr dst => [.address addr, .register dst]
  | addRegReg lhs rhs => [.register lhs, .register rhs]
  | jmpNotEq value target => [.literal value, .shortAddress target]
  | pshLit value => [.literal value]
  | pshReg src => [.register src]
  | popReg dst => [.register dst]
  | calLit target => [.address target]
  | calReg src => [.register src]
  | ret => []

theorem kinds_operands (i : Instruction) : i.operands.map Operand.kind = i.opcode.operands := by
  cases i <;> rfl

end Instruction

end FrameMachine
