import FrameMachine.Instruction
import FrameMachine.Machine
import FrameMachine.Store.Basic
import Mathlib.Algebra.Ring.Nat

/-!
# Encoded and fetched fields

The bytes that stand for an instruction are its opcode byte and its fields in the order of the
opcode's table. A register field may be any of the bytes that name the register modulo twelve, so an
instruction has many encodings, all of one length. Decoding an opcode is fetching the fields of its
table one after the other. Over a memory a field is fetched whole or not at all: where it does not
fit, `ip` still points to it, and nothing but `ip` has changed. A field begins where the one before
it ends, modulo the 16-bit range; the two bytes of a word lie side by side even at its end.
-/
namespace FrameMachine

/-- The encodings of single items laid one after the other. -/
inductive Laid {α : Type} (encodes : α → List UInt8 → Prop) : List α → List UInt8 → Prop where
  | nil : Laid encodes [] []
  | cons {a bytes items rest} (first : encodes a bytes) (next : Laid encodes items rest) :
      Laid encodes (a :: items) (bytes ++ rest)

theorem Laid.exists_of_forall {α : Type} {encodes : α → List UInt8 → Prop} {items : List α}
    (h : ∀ a ∈ items, ∃ bytes, encodes a bytes) : ∃ bytes, Laid encodes items bytes := by
  induction items with
  | nil => exact ⟨[], .nil⟩
  | cons a items ih =>
    obtain ⟨bytes, first⟩ := h a List.mem_cons_self
    obtain ⟨rest, next⟩ := ih fun b hb => h b (List.mem_cons_of_mem _ hb)
    exact ⟨bytes ++ rest, .cons first next⟩

theorem Laid.length_eq {α : Type} {encodes : α → List UInt8 → Prop} {items : List α}
    {bytes : List UInt8} {size : α → Nat}
    (hsize : ∀ a bytes, encodes a bytes → bytes.length = size a) (h : Laid encodes items bytes) :
    bytes.length = (items.map size).sum := by
  induction h with
  | nil => rfl
  | cons first next ih => rw [List.length_append, hsize _ _ first, ih, List.map_cons, List.sum_cons]

inductive Operand.Encodes : Operand → List UInt8 → Prop where
  | register {offset} (b : UInt8) (named : offset = 2 * (b.toNat % 12)) :
      Encodes (.register offset) [b]
  | literal (value : UInt16) : Encodes (.literal value) [Word.high value, Word.low value]
  | address (addr : UInt16) : Encodes (.address addr) [Word.high addr, Word.low addr]
  | shortAddress (addr : UInt8) : Encodes (.shortAddress addr) [addr]

theorem Operand.Encodes.length_eq {operand : Operand} {bytes : List UInt8}
    (h : operand.Encodes bytes) : bytes.length = operand.kind.width := by
  cases h <;> rfl

namespace Instruction

variable {i j : Instruction} {bytes : List UInt8} {program : List Instruction}

def Encodes (i : Instruction) (bytes : List UInt8) : Prop :=
  ∃ fields, bytes = i.opcode.byte :: fields ∧ Laid Operand.Encodes i.operands fields

/-- Every register field is the offset of a register: an even one, and at most that of the
twelfth. -/
def Regular (i : Instruction) : Prop :=
  ∀ offset, Operand.register offset ∈ i.operands → offset % 2 = 0 ∧ offset ≤ 22

theorem Regular.inside {offset : Nat} (regular : i.Regular)
    (hmem : Operand.register offset ∈ i.operands) : offset + 1 < 24 := by
  have := (regular offset hmem).2
  omega

theorem Regular.exists_encodes (regular : i.Regular) : ∃ bytes, i.Encodes bytes := by
  have hfields : ∀ operand ∈ i.operands, ∃ bytes, operand.Encodes bytes := by
    intro operand hmem
    cases operand with
    | register offset =>
      obtain ⟨heven, hle⟩ := regular offset hmem
      have hbyte : (UInt8.ofNat (offset / 2)).toNat = offset / 2 := by
        rw [UInt8.toNat_ofNat']
        omega
      exact ⟨_, .register (UInt8.ofNat (offset / 2)) (by rw [hbyte]; omega)⟩
    | literal value => exact ⟨_, .literal value⟩
    | address addr => exact ⟨_, .address addr⟩
    | shortAddress addr => exact ⟨_, .shortAddress addr⟩
  obtain ⟨fields, laid⟩ := Laid.exists_of_forall hfields
  exact ⟨_, fields, rfl, laid⟩

theorem encodedLength_eq (op : Opcode) :
    op.encodedLength = 1 + (op.operands.map OperandKind.width).sum := by
  cases op <;> rfl

theorem Encodes.length_eq (h : i.Encodes bytes) : bytes.length = i.opcode.encodedLength := by
  obtain ⟨fields, rfl, laid⟩ := h
  have hfields := laid.length_eq fun _ _ hfield => hfield.length_eq
  rw [List.length_cons, hfields, encodedLength_eq, ← kinds_operands, List.map_map, Nat.add_comm]
  rfl

theorem length_program (h : Laid Encodes program bytes) :
    bytes.length = (program.map fun i => i.opcode.encodedLength).sum :=
  h.length_eq fun _ _ hi => hi.length_eq

theorem eq_of_operands (hop : i.opcode = j.opcode) (hfields : i.operands = j.operands) : i = j := by
  cases i <;> cases j <;> simp_all [opcode, operands]

end Instruction

variable {σ : Type}

def OperandKind.widths (kinds : List OperandKind) : Nat := (kinds.map width).sum

/-- The field of a kind that begins at an address. -/
def Memory.operandAt (m : Memory) (a : Nat) : OperandKind → Operand
  | .register => .register (Register.operandOffset (m.bytes.getD a 0))
  | .literal => .literal (m.wordAt a)
  | .address => .address (m.wordAt a)
  | .shortAddress => .shortAddress (m.bytes.getD a 0)

namespace Machine

section Fields

variable [Store σ] {op : Opcode} {m m' : Machine σ} {i : Instruction} {fields : List Operand}
  {fault : Fault} {byte : UInt8} {word : UInt16}

def fetchOperand : OperandKind → Action σ Operand
  | .register => do
    let offset ← fetchRegister
    return .register offset
  | .literal => do
    let value ← fetchWord
    return .literal value
  | .address => do
    let addr ← fetchWord
    return .address addr
  | .shortAddress => do
    let addr ← fetchByte
    return .shortAddress addr

def fetchOperands : List OperandKind → Action σ (List Operand)
  | [] => return []
  | kind :: kinds => do
    let operand ← fetchOperand kind
    let operands ← fetchOperands kinds
    return operand :: operands

theorem operands_decode (op : Opcode) :
    Instruction.operands <$> decode op = (fetchOperands op.operands : Action σ (List Operand)) := by
  cases op <;> simp [decode, fetchOperands, fetchOperand, Opcode.operands, Instruction.operands]

theorem opcode_decode (op : Opcode) :
    Instruction.opcode <$> (decode op : Action σ Instruction) = (fun _ => op) <$> decode op := by
  cases op <;> simp [decode, Instruction.opcode]

def advanced (m : Machine σ) (n : Nat) : Machine σ := m.setReg .ip (m.reg .ip + UInt16.ofNat n)

omit [Store σ] in
@[simp] theorem advanced_zero : m.advanced 0 = m := by
  simp [advanced]

omit [Store σ] in
@[simp] theorem advanced_advanced {n k : Nat} :
    (m.advanced n).advanced k = m.advanced (n + k) := by
  simp [advanced, UInt16.ofNat_add, UInt16.add_assoc]

omit [Store σ] in
@[simp] theorem store_advanced {n : Nat} : (m.advanced n).store = m.store := rfl

omit [Store σ] in
@[simp] theorem frameWords_advanced {n : Nat} : (m.advanced n).frameWords = m.frameWords := rfl

omit [Store σ] in
@[simp] theorem reg_ip_advanced {n : Nat} :
    (m.advanced n).reg .ip = m.reg .ip + UInt16.ofNat n := reg_setReg_self

omit [Store σ] in
theorem reg_advanced_of_ne {n : Nat} {r : Register} (h : .ip ≠ r) :
    (m.advanced n).reg r = m.reg r := reg_setReg_of_ne h

theorem fetchByte_of_ok (h : Store.readByte m.store (m.reg .ip).toUInt32 = .ok byte) :
    fetchByte m = .ok byte (m.advanced 1) := by
  have hread : readByte (m.reg .ip).toUInt32 m = .ok byte m := by rw [readByte, attempt, h]
  rw [fetchByte, getReg_bind, bind_of_ok _ hread]
  rfl

theorem fetchByte_of_error (h : Store.readByte m.store (m.reg .ip).toUInt32 = .error fault) :
    fetchByte m = .error fault m := by
  have hread : readByte (m.reg .ip).toUInt32 m = .error fault m := by rw [readByte, attempt, h]
  rw [fetchByte, getReg_bind, bind_of_error _ hread]

theorem decode_eq_ok (h : decode op m = .ok i m') :
    i.opcode = op ∧ fetchOperands op.operands m = .ok i.operands m' := by
  have hop := congrFun (opcode_decode (σ := σ) op) m
  rw [map_of_ok _ h, map_of_ok _ h] at hop
  have hfields := congrFun (operands_decode (σ := σ) op) m
  rw [map_of_ok _ h] at hfields
  exact ⟨(EStateM.Result.ok.inj hop).1, hfields.symm⟩

theorem decode_eq_error (h : decode op m = .error fault m') :
    fetchOperands op.operands m = .error fault m' := by
  rw [← operands_decode, map_of_error _ h]

theorem exists_decode_of_fetched (h : fetchOperands op.operands m = .ok fields m') :
    ∃ i, decode op m = .ok i m' ∧ i.opcode = op ∧ i.operands = fields := by
  cases hdecode : decode op m with
  | error fault left => cases (decode_eq_error hdecode).symm.trans h
  | ok i mid =>
    obtain ⟨hop, hfields⟩ := decode_eq_ok hdecode
    obtain ⟨rfl, rfl⟩ := EStateM.Result.ok.inj (hfields.symm.trans h)
    exact ⟨i, rfl, hop, rfl⟩

theorem decode_of_unfetched (h : fetchOperands op.operands m = .error fault m') :
    decode op m = .error fault m' := by
  cases hdecode : decode op m with
  | error reason left =>
    obtain ⟨rfl, rfl⟩ := EStateM.Result.error.inj ((decode_eq_error hdecode).symm.trans h)
    rfl
  | ok i mid => cases (decode_eq_ok hdecode).2.symm.trans h

theorem decode_of_fetchOperands (h : fetchOperands i.opcode.operands m = .ok i.operands m') :
    decode i.opcode m = .ok i m' := by
  obtain ⟨j, hdecode, hop, hfields⟩ := exists_decode_of_fetched h
  rwa [Instruction.eq_of_operands hop hfields] at hdecode

theorem fetchByte_eq_ok (h : fetchByte m = .ok byte m') : m' = m.advanced 1 := by
  rw [fetchByte, getReg_bind] at h
  obtain ⟨read, mid, hread, h⟩ := bind_eq_ok_iff.mp h
  obtain ⟨-, rfl⟩ := attempt_eq_ok hread
  cases h
  rfl

theorem fetchWord_eq_ok (h : fetchWord m = .ok word m') : m' = m.advanced 2 := by
  rw [fetchWord, getReg_bind] at h
  obtain ⟨read, mid, hread, h⟩ := bind_eq_ok_iff.mp h
  obtain ⟨-, rfl⟩ := attempt_eq_ok hread
  cases h
  rfl

theorem fetchOperand_eq_ok {kind : OperandKind} {field : Operand}
    (h : fetchOperand kind m = .ok field m') : m' = m.advanced kind.width := by
  cases kind with
  | register =>
    obtain ⟨offset, mid, h, hfield⟩ := bind_eq_ok_iff.mp h
    obtain ⟨read, left, h, hoffset⟩ := bind_eq_ok_iff.mp h
    cases hfield
    cases hoffset
    exact fetchByte_eq_ok h
  | literal | address =>
    obtain ⟨word, mid, h, hfield⟩ := bind_eq_ok_iff.mp h
    cases hfield
    exact fetchWord_eq_ok h
  | shortAddress =>
    obtain ⟨read, mid, h, hfield⟩ := bind_eq_ok_iff.mp h
    cases hfield
    exact fetchByte_eq_ok h

theorem fetchOperands_advance {kinds : List OperandKind} {fields : List Operand}
    (h : fetchOperands kinds m = .ok fields m') :
    m' = m.advanced (OperandKind.widths kinds) := by
  induction kinds generalizing m fields with
  | nil =>
    cases h
    exact advanced_zero.symm
  | cons kind kinds ih =>
    obtain ⟨field, mid, hfield, h⟩ := bind_eq_ok_iff.mp h
    obtain ⟨rest, last, hrest, h⟩ := bind_eq_ok_iff.mp h
    cases h
    obtain rfl := fetchOperand_eq_ok hfield
    obtain rfl := ih hrest
    exact advanced_advanced

theorem decode_advance (h : decode op (m.advanced 1) = .ok i m') :
    m' = m.advanced op.encodedLength := by
  obtain ⟨-, hfields⟩ := decode_eq_ok h
  obtain rfl := fetchOperands_advance hfields
  rw [advanced_advanced, Instruction.encodedLength_eq]
  rfl

end Fields

variable {m m' : Machine Memory} {op : Opcode} {kind : OperandKind} {kinds : List OperandKind}
  {fields : List Operand} {fault : Fault} {i : Instruction}

theorem fetchByte_of_room (h : (m.reg .ip).toNat + 1 ≤ m.store.size) :
    fetchByte m = .ok (m.store.bytes.getD (m.reg .ip).toNat 0) (m.advanced 1) := by
  apply fetchByte_of_ok
  have hread := m.store.readByte_eq (m.reg .ip).toUInt32
  rwa [UInt16.toNat_toUInt32, if_pos h] at hread

theorem fetchByte_refused (h : ¬ (m.reg .ip).toNat + 1 ≤ m.store.size) :
    fetchByte m = .error (.outOfBounds (m.reg .ip).toUInt32 1 m.store.size) m := by
  apply fetchByte_of_error
  have hread := m.store.readByte_eq (m.reg .ip).toUInt32
  rwa [UInt16.toNat_toUInt32, if_neg h] at hread

theorem fetchWord_of_room (h : (m.reg .ip).toNat + 2 ≤ m.store.size) :
    fetchWord m = .ok (m.store.wordAt (m.reg .ip).toNat) (m.advanced 2) := by
  have hread := readWord_apply m (m.reg .ip).toUInt32
  rw [UInt16.toNat_toUInt32, if_pos h] at hread
  rw [fetchWord, getReg_bind, bind_of_ok _ hread]
  rfl

theorem fetchWord_refused (h : ¬ (m.reg .ip).toNat + 2 ≤ m.store.size) :
    fetchWord m = .error (.outOfBounds (m.reg .ip).toUInt32 2 m.store.size) m := by
  have hread := readWord_apply m (m.reg .ip).toUInt32
  rw [UInt16.toNat_toUInt32, if_neg h] at hread
  rw [fetchWord, getReg_bind, bind_of_error _ hread]

theorem fetchOperand_of_room (h : (m.reg .ip).toNat + kind.width ≤ m.store.size) :
    fetchOperand kind m =
      .ok (m.store.operandAt (m.reg .ip).toNat kind) (m.advanced kind.width) := by
  cases kind with
  | register => exact bind_of_ok _ (bind_of_ok _ (fetchByte_of_room h))
  | literal => exact bind_of_ok _ (fetchWord_of_room h)
  | address => exact bind_of_ok _ (fetchWord_of_room h)
  | shortAddress => exact bind_of_ok _ (fetchByte_of_room h)

theorem fetchOperand_refused (h : ¬ (m.reg .ip).toNat + kind.width ≤ m.store.size) :
    fetchOperand kind m = .error (.outOfBounds (m.reg .ip).toUInt32 kind.width m.store.size) m := by
  cases kind with
  | register => exact bind_of_error _ (bind_of_error _ (fetchByte_refused h))
  | literal => exact bind_of_error _ (fetchWord_refused h)
  | address => exact bind_of_error _ (fetchWord_refused h)
  | shortAddress => exact bind_of_error _ (fetchByte_refused h)

theorem fetchOperands_eq_ok (h : fetchOperands kinds m = .ok fields m') :
    m' = m.advanced (OperandKind.widths kinds) ∧
      ∀ field ∈ fields, ∃ a kind, field = m.store.operandAt a kind := by
  refine ⟨fetchOperands_advance h, ?_⟩
  induction kinds generalizing m m' fields with
  | nil =>
    obtain ⟨rfl, -⟩ := EStateM.Result.ok.inj h
    exact nofun
  | cons kind kinds ih =>
    rw [fetchOperands] at h
    by_cases hr : (m.reg .ip).toNat + kind.width ≤ m.store.size
    · rw [bind_of_ok _ (fetchOperand_of_room hr)] at h
      obtain ⟨rest, mid, hrest, h⟩ := bind_eq_ok_iff.mp h
      obtain ⟨rfl, -⟩ := EStateM.Result.ok.inj h
      intro field hfield
      rcases List.mem_cons.mp hfield with rfl | hmem
      · exact ⟨_, kind, rfl⟩
      · exact ih hrest field hmem
    · rw [bind_of_error _ (fetchOperand_refused hr)] at h
      cases h

theorem fetchOperands_eq_error (h : fetchOperands kinds m = .error fault m') :
    ∃ before kind after, kinds = before ++ kind :: after ∧
      m' = m.advanced (OperandKind.widths before) ∧
      fault = .outOfBounds (m'.reg .ip).toUInt32 kind.width m.store.size ∧
      m.store.size < (m'.reg .ip).toNat + kind.width := by
  induction kinds generalizing m with
  | nil => cases h
  | cons kind kinds ih =>
    rw [fetchOperands] at h
    by_cases hr : (m.reg .ip).toNat + kind.width ≤ m.store.size
    · rw [bind_of_ok _ (fetchOperand_of_room hr)] at h
      obtain ⟨before, stop, after, rfl, rfl, hfault, hsize⟩ := ih (error_of_bind_pure h)
      exact ⟨kind :: before, stop, after, rfl, advanced_advanced, hfault, hsize⟩
    · rw [bind_of_error _ (fetchOperand_refused hr)] at h
      obtain ⟨rfl, rfl⟩ := EStateM.Result.error.inj h
      exact ⟨[], kind, kinds, rfl, advanced_zero.symm, rfl, Nat.lt_of_not_le hr⟩

/-- Operand bytes name registers, so a decoded instruction never misses the register file. -/
theorem regular_of_decode (h : decode op m = .ok i m') : i.Regular := by
  obtain ⟨-, hfields⟩ := decode_eq_ok h
  intro offset hmem
  obtain ⟨a, kind, hfield⟩ := (fetchOperands_eq_ok hfields).2 _ hmem
  cases kind with
  | register =>
    rw [Operand.register.inj hfield, Register.operandOffset]
    omega
  | literal | address | shortAddress => cases hfield

end Machine

/-- Where the field with an index begins, if the first one begins at `ip`. -/
def OperandKind.place (kinds : List OperandKind) (ip : UInt16) (i : Nat) : UInt16 :=
  ip + UInt16.ofNat (widths (kinds.take i))

/-- A field of the kind lies at the address with all of its bytes. -/
def Memory.HasField (memory : Memory) (addr : UInt16) (kind : OperandKind) : Prop :=
  addr.toNat + kind.width ≤ memory.size

namespace OperandKind

variable {kind : OperandKind} {kinds : List OperandKind} {ip : UInt16} {i : Nat}

@[simp] theorem place_zero : place kinds ip 0 = ip := by
  simp [place, widths]

@[simp] theorem place_cons_succ :
    place (kind :: kinds) ip (i + 1) = place kinds (ip + UInt16.ofNat kind.width) i := by
  simp only [place, widths, List.take_succ_cons, List.map_cons, List.sum_cons, UInt16.ofNat_add,
    UInt16.add_assoc]

theorem place_succ (h : i < kinds.length) :
    place kinds ip (i + 1) = place kinds ip i + UInt16.ofNat kinds[i].width := by
  induction kinds generalizing ip i with
  | nil => exact absurd h (Nat.not_lt_zero i)
  | cons kind kinds ih =>
    cases i with
    | zero => simp
    | succ i =>
      rw [List.length_cons, Nat.add_lt_add_iff_right] at h
      rw [place_cons_succ, place_cons_succ, ih h, List.getElem_cons_succ]

end OperandKind

open OperandKind

/-- A word at the end of the 16-bit range has its second byte after the end. -/
theorem Memory.operandAt_last {memory : Memory} {kind : OperandKind} (word : kind.width = 2) :
    memory.operandAt 0xFFFF kind ∈
      [Operand.literal, Operand.address].map fun field =>
        field (Word.ofBytes (memory.bytes.getD 0xFFFF 0) (memory.bytes.getD 0x10000 0)) := by
  cases kind with
  | register | shortAddress => cases word
  | literal => exact List.mem_cons_self
  | address => exact List.mem_cons_of_mem _ List.mem_cons_self

namespace Machine

variable {m : Machine Memory} {kinds : List OperandKind} {i : Nat}

theorem fetchOperands_of_hasField
    (fits : ∀ i (h : i < kinds.length), m.store.HasField (place kinds (m.reg .ip) i) kinds[i]) :
    fetchOperands kinds m =
      .ok (kinds.mapIdx fun i kind => m.store.operandAt (place kinds (m.reg .ip) i).toNat kind)
        (m.advanced (widths kinds)) := by
  induction kinds generalizing m with
  | nil =>
    rw [widths, List.map_nil, List.sum_nil, advanced_zero]
    rfl
  | cons kind kinds ih =>
    have here : (m.reg .ip).toNat + kind.width ≤ m.store.size := by
      simpa [Memory.HasField] using fits 0 (Nat.succ_pos _)
    have later : ∀ i (h : i < kinds.length), (m.advanced kind.width).store.HasField
        (place kinds ((m.advanced kind.width).reg .ip) i) kinds[i] := by
      intro i h
      simpa using fits (i + 1) (Nat.succ_lt_succ h)
    rw [fetchOperands, bind_of_ok _ (fetchOperand_of_room here), bind_of_ok _ (ih later),
      advanced_advanced, List.mapIdx_cons, place_zero]
    simp only [place_cons_succ, reg_ip_advanced]
    rfl

theorem fetchOperands_of_not_hasField (hi : i < kinds.length)
    (fits : ∀ j (h : j < i), m.store.HasField (place kinds (m.reg .ip) j) kinds[j])
    (outside : ¬ m.store.HasField (place kinds (m.reg .ip) i) kinds[i]) :
    fetchOperands kinds m =
      .error (.outOfBounds (place kinds (m.reg .ip) i).toUInt32 kinds[i].width m.store.size)
        (m.setReg .ip (place kinds (m.reg .ip) i)) := by
  induction kinds generalizing m i with
  | nil => exact absurd hi (Nat.not_lt_zero i)
  | cons kind kinds ih =>
    rw [fetchOperands]
    cases i with
    | zero =>
      rw [place_zero, List.getElem_cons_zero] at outside ⊢
      rw [bind_of_error _ (fetchOperand_refused outside), setReg_reg]
    | succ i =>
      have here : (m.reg .ip).toNat + kind.width ≤ m.store.size := by
        simpa [Memory.HasField] using fits 0 (Nat.succ_pos _)
      rw [List.length_cons, Nat.add_lt_add_iff_right] at hi
      have stop := ih (m := m.advanced kind.width) hi
        (fun j h => by simpa using fits (j + 1) (Nat.succ_lt_succ h)) (by simpa using outside)
      rw [bind_of_ok _ (fetchOperand_of_room here), bind_of_error _ stop, place_cons_succ,
        reg_ip_advanced, advanced, setReg_setReg]
      rfl

/-- Decoding reads the fields of the opcode's table, in their order and each at its place. If all
of them lie in the memory, it yields the instruction with that opcode and these fields, and `ip`
points past the last; otherwise it stops at the first that does not, with `ip` at that field. Either
way nothing but `ip` changes. From the last address of the 16-bit range a field of one byte leads on
to address zero, while a word is read beyond the range or, if the memory ends there, not at all. -/
theorem decode_follows_table (op : Opcode) (m : Machine Memory) :
    let kinds := op.operands
    let start (i : Nat) : UInt16 := place kinds (m.reg .ip) i
    ((∀ i (h : i < kinds.length), m.store.HasField (start i) kinds[i]) →
      ∃ instruction, decode op m = .ok instruction
          (m.setReg .ip (m.reg .ip + UInt16.ofNat (op.encodedLength - 1))) ∧
        instruction.opcode = op ∧
        instruction.operands = kinds.mapIdx fun i kind => m.store.operandAt (start i).toNat kind) ∧
    (∀ i (h : i < kinds.length),
      (∀ j (hj : j < i), m.store.HasField (start j) kinds[j]) →
      ¬ m.store.HasField (start i) kinds[i] →
        decode op m = .error (.outOfBounds (start i).toUInt32 kinds[i].width m.store.size)
          (m.setReg .ip (start i))) ∧
    (start 0 = m.reg .ip ∧ ∀ i (h : i < kinds.length),
      start (i + 1) = start i + UInt16.ofNat kinds[i].width ∧
      (start i = 0xFFFF → kinds[i].width = 1 → start (i + 1) = 0) ∧
      (start i = 0xFFFF → kinds[i].width = 2 →
        (m.store.HasField (start i) kinds[i] ↔ 0x10001 ≤ m.store.size) ∧
        m.store.operandAt (start i).toNat kinds[i] ∈
          [Operand.literal, Operand.address].map fun field =>
            field (Word.ofBytes (m.store.bytes.getD 0xFFFF 0) (m.store.bytes.getD 0x10000 0)))) := by
  intro kinds start
  refine ⟨fun fits => ?_, fun i h fits outside => ?_, place_zero, fun i h => ⟨place_succ h, ?_, ?_⟩⟩
  · obtain ⟨i, hdecode, hop, hfields⟩ := exists_decode_of_fetched (fetchOperands_of_hasField fits)
    have length : op.encodedLength - 1 = widths op.operands := by
      rw [Instruction.encodedLength_eq, Nat.add_sub_cancel_left]
      rfl
    rw [length]
    exact ⟨i, hdecode, hop, hfields⟩
  · exact decode_of_unfetched (fetchOperands_of_not_hasField h fits outside)
  · intro last byte
    have next : start (i + 1) = start i + UInt16.ofNat kinds[i].width := place_succ h
    rw [next, last, byte]
    rfl
  · intro last word
    rw [last]
    constructor
    · rw [Memory.HasField, word]
      exact Iff.rfl
    · exact Memory.operandAt_last word

end Machine

end FrameMachine
