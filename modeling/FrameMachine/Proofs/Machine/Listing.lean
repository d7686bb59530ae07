import FrameMachine.Proofs.Machine.Fetch

/-!
# Listing a program

A program that lies encoded in a memory is read back by fetching and decoding, instruction
by instruction and up to the last byte that `ip` reaches, whichever bytes were taken for its
registers.
-/
namespace FrameMachine

namespace Memory

variable {m : Memory} {a : Nat} {b : UInt8} {xs ys : List UInt8}

/-- The bytes lie in the memory from an address on. -/
def Holds (m : Memory) (a : Nat) : List UInt8 → Prop
  | [] => True
  | b :: rest => m.bytes[a]? = some b ∧ m.Holds (a + 1) rest

theorem holds_append : m.Holds a (xs ++ ys) ↔ m.Holds a xs ∧ m.Holds (a + xs.length) ys := by
  induction xs generalizing a with
  | nil => simp [Holds]
  | cons b rest ih =>
    rw [List.cons_append, Holds, Holds, ih, List.length_cons, and_assoc,
      show a + 1 + rest.length = a + (rest.length + 1) by omega]

theorem Holds.le_size (h : m.Holds a (b :: xs)) : a + (b :: xs).length ≤ m.size := by
  induction xs generalizing a b with
  | nil => exact (Array.getElem?_eq_some_iff.mp h.1).1
  | cons c rest ih =>
    have := ih h.2
    simp only [List.length_cons] at this ⊢
    omega

theorem byte_place_of_before {bytes : Array UInt8} {index k : Nat} {image : List UInt8}
    (h : k < index) : (place bytes index image)[k]? = bytes[k]? := by
  induction image generalizing bytes index with
  | nil => rfl
  | cons b rest ih =>
    rw [place, ih (Nat.lt_succ_of_lt h), Array.getElem?_setIfInBounds_ne (by omega)]

theorem holds_place {bytes : Array UInt8} {index : Nat} {image : List UInt8}
    (room : index + image.length ≤ bytes.size) :
    Holds ⟨place bytes index image⟩ index image := by
  induction image generalizing bytes index with
  | nil => trivial
  | cons b rest ih =>
    rw [List.length_cons] at room
    refine ⟨?_, ih (by rw [Array.size_setIfInBounds]; omega)⟩
    change (place (bytes.setIfInBounds index b) (index + 1) rest)[index]? = some b
    rw [byte_place_of_before (Nat.lt_succ_self index),
      Array.getElem?_setIfInBounds_self_of_lt (by omega)]

end Memory

namespace Machine

section Listing

variable {σ : Type} [Store σ]

/-- The instruction at `ip`, or nothing if the byte there is no opcode. -/
def fetchInstruction : Action σ (Option Instruction) := do
  let byte ← fetchByte
  match Opcode.ofByte? byte with
  | none => return none
  | some op => do
    let i ← decode op
    return some i

def fetchInstructions : Nat → Action σ (List (Option Instruction))
  | 0 => return []
  | n + 1 => do
    let i ← fetchInstruction
    let rest ← fetchInstructions n
    return i :: rest

end Listing

variable {m : Machine Memory} {a : Nat} {b : UInt8} {bytes rest : List UInt8} {operand : Operand}
  {operands : List Operand} {i : Instruction} {program : List Instruction}

theorem reg_ip_advanced_eq (hip : m.reg .ip = UInt16.ofNat a) (n : Nat) :
    (m.advanced n).reg .ip = UInt16.ofNat (a + n) := by
  rw [reg_ip_advanced, hip, UInt16.ofNat_add]

theorem toNat_ip (hip : m.reg .ip = UInt16.ofNat a) (low : a < 65536) : (m.reg .ip).toNat = a := by
  rw [hip, UInt16.toNat_ofNat']
  exact Nat.mod_eq_of_lt low

theorem fetchByte_of_holds (hip : m.reg .ip = UInt16.ofNat a) (low : a < 65536)
    (holds : m.store.Holds a (b :: rest)) : fetchByte m = .ok b (m.advanced 1) := by
  have inside := holds.le_size
  rw [List.length_cons] at inside
  rw [fetchByte_of_room (by rw [toNat_ip hip low]; omega), toNat_ip hip low,
    Array.getD_eq_getD_getElem?, holds.1, Option.getD_some]

theorem fetchOperand_of_holds (encodes : operand.Encodes bytes) (hip : m.reg .ip = UInt16.ofNat a)
    (room : a + bytes.length ≤ 65536) (holds : m.store.Holds a bytes) :
    fetchOperand operand.kind m = .ok operand (m.advanced bytes.length) := by
  have hlength := encodes.length_eq
  have hne : bytes ≠ [] := by
    cases encodes <;> exact List.cons_ne_nil _ _
  obtain ⟨b, rest, rfl⟩ := List.exists_cons_of_ne_nil hne
  have inside := holds.le_size
  rw [List.length_cons] at room
  have haddr := toNat_ip hip (by omega)
  rw [hlength] at inside
  rw [fetchOperand_of_room (by rwa [haddr]), haddr, hlength]
  congr 1
  cases encodes with
  | register b named =>
    rw [named, Operand.kind, Memory.operandAt, Array.getD_eq_getD_getElem?, holds.1]
    rfl
  | literal value =>
    have hword : m.store.HasWord a value := ⟨holds.1, holds.2.1⟩
    rw [Operand.kind, Memory.operandAt, hword.wordAt_eq]
  | address addr =>
    have hword : m.store.HasWord a addr := ⟨holds.1, holds.2.1⟩
    rw [Operand.kind, Memory.operandAt, hword.wordAt_eq]
  | shortAddress b =>
    rw [Operand.kind, Memory.operandAt, Array.getD_eq_getD_getElem?, holds.1]
    rfl

theorem fetchOperands_of_holds (laid : Laid Operand.Encodes operands bytes)
    (hip : m.reg .ip = UInt16.ofNat a) (room : a + bytes.length ≤ 65536)
    (holds : m.store.Holds a bytes) :
    fetchOperands (operands.map Operand.kind) m = .ok operands (m.advanced bytes.length) := by
  induction laid generalizing m a with
  | nil => exact congrArg (EStateM.Result.ok []) advanced_zero.symm
  | cons first next ih =>
    rw [List.length_append] at room
    obtain ⟨hfirst, hnext⟩ := Memory.holds_append.mp holds
    rw [List.map_cons, fetchOperands,
      bind_of_ok _ (fetchOperand_of_holds first hip (by omega) hfirst),
      bind_of_ok _ (ih (reg_ip_advanced_eq hip _) (by omega) hnext), pure_apply, advanced_advanced,
      List.length_append]

theorem fetchInstruction_of_holds (encodes : i.Encodes bytes) (hip : m.reg .ip = UInt16.ofNat a)
    (room : a + bytes.length ≤ 65536) (holds : m.store.Holds a bytes) :
    fetchInstruction m = .ok (some i) (m.advanced bytes.length) := by
  obtain ⟨fields, rfl, laid⟩ := encodes
  rw [List.length_cons] at room
  have hfields := fetchOperands_of_holds laid (reg_ip_advanced_eq hip 1) (by omega) holds.2
  rw [Instruction.kinds_operands, advanced_advanced] at hfields
  rw [fetchInstruction, bind_of_ok _ (fetchByte_of_holds hip (by omega) holds),
    Opcode.ofByte?_byte]
  change (decode i.opcode >>= fun j => pure (some j)) (m.advanced 1) = _
  rw [bind_of_ok _ (decode_of_fetchOperands hfields), pure_apply, List.length_cons, Nat.add_comm]

theorem fetchInstructions_of_holds (laid : Laid Instruction.Encodes program bytes)
    (hip : m.reg .ip = UInt16.ofNat a) (room : a + bytes.length ≤ 65536)
    (holds : m.store.Holds a bytes) :
    fetchInstructions program.length m = .ok (program.map some) (m.advanced bytes.length) := by
  induction laid generalizing m a with
  | nil => exact congrArg (EStateM.Result.ok []) advanced_zero.symm
  | cons first next ih =>
    rw [List.length_append] at room
    obtain ⟨hfirst, hnext⟩ := Memory.holds_append.mp holds
    rw [List.length_cons, fetchInstructions,
      bind_of_ok _ (fetchInstruction_of_holds first hip (by omega) hfirst),
      bind_of_ok _ (ih (reg_ip_advanced_eq hip _) (by omega) hnext), pure_apply, advanced_advanced,
      List.length_append, List.map_cons]

/-- Decoding undoes encoding. The program may be loaded anywhere in the 16-bit range, up to its
very end, and the registers may be named by any of their bytes. -/
theorem decoding_undoes_encoding (program : List Instruction)
    (regular : ∀ i ∈ program, i.Regular) :
    (∃ bytes, Laid Instruction.Encodes program bytes) ∧
    ∀ bytes, Laid Instruction.Encodes program bytes →
      bytes.length = (program.map fun i => i.opcode.encodedLength).sum ∧
      ∀ (m : Machine Memory) (a : UInt32), a.toNat + bytes.length ≤ min m.store.size 65536 →
        ∃ memory, m.store.load a bytes = .ok memory ∧
          let start := { m with store := memory }.setReg .ip a.toUInt16
          fetchInstructions program.length start = .ok (program.map some)
            (start.setReg .ip (UInt16.ofNat (a.toNat + bytes.length))) := by
  refine ⟨Laid.exists_of_forall fun i hi => (regular i hi).exists_encodes, fun bytes laid =>
    ⟨Instruction.length_program laid, fun m a room => ?_⟩⟩
  have inside : a.toNat + bytes.length ≤ m.store.size := Nat.le_trans room (Nat.min_le_left _ _)
  refine ⟨⟨Memory.place m.store.bytes a.toNat bytes⟩, (Memory.load_eq _ _ _).trans (if_pos inside), ?_⟩
  intro start
  have hip : start.reg .ip = UInt16.ofNat a.toNat := reg_setReg_self
  have holds : start.store.Holds a.toNat bytes := Memory.holds_place inside
  rw [fetchInstructions_of_holds laid hip (Nat.le_trans room (Nat.min_le_right _ _)) holds,
    advanced, hip, ← UInt16.ofNat_add]

/-- Twelve bytes at the very end of the range, with `r1`, `fp` and `ip` named by other bytes
than their own. -/
theorem program_at_the_end_is_listed :
    let program := [Instruction.movLitReg 0xBEEF 4, .jmpNotEq 0x1234 0x40, .movRegReg 22 0, .ret]
    let bytes : List UInt8 := [0x10, 0xBE, 0xEF, 14, 0x15, 0x12, 0x34, 0x40, 0x11, 251, 252, 0x5C]
    (∀ i ∈ program, i.Regular) ∧ Laid Instruction.Encodes program bytes ∧
      ∃ memory, (Memory.zero 65536).load 0xFFF4 bytes = .ok memory ∧
        let start := (⟨.initial 65536, memory, 0, .strict⟩ : Machine Memory).setReg .ip 0xFFF4
        fetchInstructions 4 start = .ok (program.map some) (start.setReg .ip 0) := by
  intro program bytes
  have regular : ∀ i ∈ program, i.Regular := by
    simp [program, Instruction.Regular, Instruction.operands]
  have mov : (Instruction.movLitReg 0xBEEF 4).Encodes [0x10, 0xBE, 0xEF, 14] :=
    ⟨_, rfl, .cons (Operand.Encodes.literal 0xBEEF)
      (.cons (Operand.Encodes.register 14 rfl) .nil)⟩
  have jmp : (Instruction.jmpNotEq 0x1234 0x40).Encodes [0x15, 0x12, 0x34, 0x40] :=
    ⟨_, rfl, .cons (Operand.Encodes.literal 0x1234)
      (.cons (Operand.Encodes.shortAddress 0x40) .nil)⟩
  have copy : (Instruction.movRegReg 22 0).Encodes [0x11, 251, 252] :=
    ⟨_, rfl, .cons (Operand.Encodes.register 251 rfl)
      (.cons (Operand.Encodes.register 252 rfl) .nil)⟩
  have ret : Instruction.ret.Encodes [0x5C] := ⟨_, rfl, .nil⟩
  have laid : Laid Instruction.Encodes program bytes :=
    .cons mov (.cons jmp (.cons copy (.cons ret .nil)))
  have room : (0xFFF4 : UInt32).toNat + bytes.length ≤ min (Memory.zero 65536).size 65536 := by
    rw [Memory.size_zero]
    decide
  obtain ⟨memory, hload, hlist⟩ := ((decoding_undoes_encoding program regular).2 bytes laid).2
    ⟨.initial 65536, .zero 65536, 0, .strict⟩ 0xFFF4 room
  have hstart : (0xFFF4 : UInt32).toUInt16 = 0xFFF4 := by decide
  have hend : UInt16.ofNat ((0xFFF4 : UInt32).toNat + bytes.length) = 0 := by decide
  rw [hstart, hend] at hlist
  exact ⟨regular, laid, memory, hload, hlist⟩

end Machine

end FrameMachine
