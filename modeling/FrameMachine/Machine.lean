import FrameMachine.Instruction
import FrameMachine.Log
import FrameMachine.Register
import FrameMachine.Store.Basic

/-!
# The machine

Registers, a store that holds code and stack, and a count of the words pushed in the current frame.
An action may fault after part of it is done: the machine is then as the fault left it. Fetches
read at `ip` and move it on; the pointer wraps at the end of the 16-bit range, but the two bytes of
a word never do.

The stack grows downwards and `sp` points to the free word below it. A call pushes what it saves
and lets `fp` point below it as well, so that the frame lies at

    fp + 2            the frame marker
    fp + 4            the return address
    fp + 6 .. fp + 20 the saved registers, the last one first
    fp + 22           the number of arguments, pushed by the caller
    fp + 24 ..        the arguments, pushed by the caller

A return takes the frame at `fp` off the stack, and the arguments with it. There is no halt: a run
is as many steps as are asked for, or ends with the first fault.
-/
namespace FrameMachine

/-- What a step does with a byte that is no opcode: skip it, or fault. -/
inductive OpcodePolicy where
  | permissive
  | strict
  deriving DecidableEq, Repr

structure Machine (σ : Type) where
  registers : RegisterFile
  store : σ
  frameWords : UInt16
  policy : OpcodePolicy

abbrev Action (σ α : Type) := EStateM Fault (Machine σ) α

namespace Machine

variable {σ α : Type}

/-- An empty stack at the top of the store, and execution from address zero. -/
def initial [Store σ] (store : σ) (policy : OpcodePolicy) : Machine σ :=
  ⟨RegisterFile.initial (Store.size store), store, 0, policy⟩

def reg (m : Machine σ) (r : Register) : UInt16 := m.registers.get r

def setReg (m : Machine σ) (r : Register) (value : UInt16) : Machine σ :=
  { m with registers := m.registers.set r value }

/-- The machine takes part in a write of its store, which may fault half-way. -/
def onStore (write : EStateM Fault σ α) : Action σ α := fun ⟨registers, store, words, policy⟩ =>
  match write store with
  | .ok a store => .ok a ⟨registers, store, words, policy⟩
  | .error fault store => .error fault ⟨registers, store, words, policy⟩

def look (f : Machine σ → α) : Action σ α := fun m => .ok (f m) m

def attempt (f : Machine σ → Except Fault α) : Action σ α := fun m =>
  match f m with
  | .ok a => .ok a m
  | .error fault => .error fault m

def getReg (r : Register) : Action σ UInt16 := look fun m => m.reg r

def putReg (r : Register) (value : UInt16) : Action σ Unit := fun m => .ok () (m.setReg r value)

def getSlot (offset : Nat) : Action σ UInt16 := attempt fun m => m.registers.readSlot offset

def putSlot (offset : Nat) (value : UInt16) : Action σ Unit :=
  fun ⟨registers, store, words, policy⟩ =>
    match registers.writeSlot offset value with
    | .ok registers => .ok () ⟨registers, store, words, policy⟩
    | .error fault => .error fault ⟨registers, store, words, policy⟩

def setFrameWords (words : UInt16) : Action σ Unit := fun m => .ok () { m with frameWords := words }

variable [Store σ]

def readByte (addr : UInt32) : Action σ UInt8 := attempt fun m => Store.readByte m.store addr

def readWord (addr : UInt32) : Action σ UInt16 := attempt fun m => Store.readWord m.store addr

def writeWord (addr : UInt32) (value : UInt16) : Action σ Unit :=
  onStore (Store.writeWord addr value)

def fetchByte : Action σ UInt8 := do
  let ip ← getReg .ip
  let value ← readByte ip.toUInt32
  putReg .ip (ip + 1)
  return value

def fetchWord : Action σ UInt16 := do
  let ip ← getReg .ip
  let value ← readWord ip.toUInt32
  putReg .ip (ip + 2)
  return value

/-- The slot offset that the operand byte at `ip` stands for. -/
def fetchRegister : Action σ Nat := do
  let operand ← fetchByte
  return Register.operandOffset operand

def decode : Opcode → Action σ Instruction
  | .movLitReg => do
    let value ← fetchWord
    let dst ← fetchRegister
    return .movLitReg value dst
  | .movRegReg => do
    let src ← fetchRegister
    let dst ← fetchRegister
    return .movRegReg src dst
  | .movRegMem => do
    let src ← fetchRegister
    let addr ← fetchWord
    return .movRegMem src addr
  | .movMemReg => do
    let addr ← fetchWord
    let dst ← fetchRegister
    return .movMemReg addr dst
  | .addRegReg => do
    let lhs ← fetchRegister
    let rhs ← fetchRegister
    return .addRegReg lhs rhs
  | .jmpNotEq => do
    let value ← fetchWord
    let target ← fetchByte
    return .jmpNotEq value target
  | .pshLit => do
    let value ← fetchWord
    return .pshLit value
  | .pshReg => do
    let src ← fetchRegister
    return .pshReg src
  | .popReg => do
    let dst ← fetchRegister
    return .popReg dst
  | .calLit => do
    let target ← fetchWord
    return .calLit target
  | .calReg => do
    let src ← fetchRegister
    return .calReg src
  | .ret => return .ret

def push (value : UInt16) : Action σ Unit := do
  let sp ← getReg .sp
  writeWord sp.toUInt32 value
  putReg .sp (sp - 2)
  let words ← look frameWords
  setFrameWords (words + 1)

/-- The address does not wrap: there is no word above the top one. -/
def pop : Action σ UInt16 := do
  let sp ← getReg .sp
  let addr := sp.toUInt32 + 2
  let value ← readWord addr
  putReg .sp addr.toUInt16
  let words ← look frameWords
  setFrameWords (words - 1)
  return value

def pushRegisters : List Register → Action σ Unit
  | [] => return
  | r :: rest => do
    let value ← getReg r
    push value
    pushRegisters rest

def popRegisters : List Register → Action σ Unit
  | [] => return
  | r :: rest => do
    let value ← pop
    putReg r value
    popRegisters rest

def discard : Nat → Action σ Unit
  | 0 => return
  | n + 1 => do
    let _ ← pop
    discard n

/-- The marker is one more than the number of words pushed since the caller's frame was
entered, itself included. -/
def pushState : Action σ Event := do
  pushRegisters Register.saved
  let ret ← getReg .ip
  push ret
  let words ← look frameWords
  let marker := words + 2
  push marker
  let fp ← getReg .sp
  putReg .fp fp
  setFrameWords 0
  return .called fp marker ret

/-- The count of words goes on from the marker while the rest is popped. -/
def popState : Action σ Event := do
  let frame ← getReg .fp
  putReg .sp frame
  let marker ← pop
  setFrameWords marker
  let ret ← pop
  putReg .ip ret
  popRegisters Register.saved.reverse
  let args ← pop
  discard args.toNat
  putReg .fp (frame + marker)
  return .returned ret args (frame + marker)

def call (target : UInt16) : Action σ Event := do
  let event ← pushState
  putReg .ip target
  return event

def apply : Instruction → Action σ (Option Event)
  | .movLitReg value dst => do
    putSlot dst value
    return none
  | .movRegReg src dst => do
    let value ← getSlot src
    putSlot dst value
    return none
  | .movRegMem src addr => do
    let value ← getSlot src
    writeWord addr.toUInt32 value
    return none
  | .movMemReg addr dst => do
    let value ← readWord addr.toUInt32
    putSlot dst value
    return none
  | .addRegReg lhs rhs => do
    let a ← getSlot lhs
    let b ← getSlot rhs
    putReg .acc (a + b)
    return none
  | .jmpNotEq value target => do
    let acc ← getReg .acc
    if value ≠ acc then putReg .ip target.toUInt16
    return none
  | .pshLit value => do
    push value
    return none
  | .pshReg src => do
    let value ← getSlot src
    push value
    return none
  | .popReg dst => do
    let value ← pop
    putSlot dst value
    return none
  | .calLit target => do
    let event ← call target
    return some event
  | .calReg src => do
    let target ← getSlot src
    let event ← call target
    return some event
  | .ret => do
    let event ← popState
    return some event

/-- The byte has been fetched, so its address is the one before `ip`. -/
def meetUnknown (byte : UInt8) : Action σ (Option Event) := fun m =>
  let addr := m.reg .ip - 1
  match m.policy with
  | .strict => .error (.unknownOpcode byte addr) m
  | .permissive => .ok (some (.ignored byte addr)) m

def execute (byte : UInt8) : Action σ (Option Event) :=
  match Opcode.ofByte? byte with
  | none => meetUnknown byte
  | some op => do
    let instruction ← decode op
    apply instruction

def step : Action σ (Option Event) := do
  let byte ← fetchByte
  execute byte

/-- How a run ended: the events in order, and the number of its steps or the fault of the
last one. -/
structure Run (σ : Type) where
  events : Array Event
  result : Except Fault Nat
  machine : Machine σ

def Run.fault (r : Run σ) : Option Fault :=
  match r.result with
  | .ok _ => none
  | .error fault => some fault

def runOn (done : Nat) (events : Array Event) : Nat → Machine σ → Run σ
  | 0, m => ⟨events, .ok done, m⟩
  | n + 1, m =>
    match step m with
    | .ok none m => runOn (done + 1) events n m
    | .ok (some event) m => runOn (done + 1) (events.push event) n m
    | .error fault m => ⟨events, .error fault, m⟩

def run (n : Nat) (m : Machine σ) : Run σ := runOn 0 #[] n m

end Machine

namespace Machine

variable {σ α β : Type} {m m' : Machine σ} {r s : Register} {v w : UInt16}

@[simp] theorem reg_mk (f : RegisterFile) (store : σ) (words : UInt16) (policy : OpcodePolicy) :
    (⟨f, store, words, policy⟩ : Machine σ).reg r = f.get r := rfl

@[simp] theorem get_registers : m.registers.get r = m.reg r := rfl

@[simp] theorem reg_setReg_self : (m.setReg r v).reg r = v := RegisterFile.get_set_self _ _ _

theorem reg_setReg_of_ne (h : r ≠ s) : (m.setReg r v).reg s = m.reg s :=
  RegisterFile.get_set_of_ne _ _ h

@[simp] theorem setReg_setReg : (m.setReg r v).setReg r w = m.setReg r w := by
  simp [setReg]

@[simp] theorem setReg_reg : m.setReg r (m.reg r) = m := by
  simp only [setReg, reg, RegisterFile.set_get]

@[simp] theorem store_setReg : (m.setReg r v).store = m.store := rfl

@[simp] theorem frameWords_setReg : (m.setReg r v).frameWords = m.frameWords := rfl

theorem bind_of_ok {x : Action σ α} {a : α} (f : α → Action σ β) (h : x m = .ok a m') :
    (x >>= f) m = f a m' := by
  change EStateM.bind x f m = f a m'
  rw [EStateM.bind, h]

theorem bind_of_error {x : Action σ α} {fault : Fault} (f : α → Action σ β)
    (h : x m = .error fault m') : (x >>= f) m = .error fault m' := by
  change EStateM.bind x f m = .error fault m'
  rw [EStateM.bind, h]

theorem bind_eq_ok_iff {x : Action σ α} {f : α → Action σ β} {b : β} :
    (x >>= f) m = .ok b m' ↔ ∃ a mid, x m = .ok a mid ∧ f a mid = .ok b m' := by
  constructor
  · intro h
    cases hx : x m with
    | ok a mid => exact ⟨a, mid, rfl, by rwa [bind_of_ok f hx] at h⟩
    | error fault mid => rw [bind_of_error f hx] at h; cases h
  · rintro ⟨a, mid, hx, h⟩
    rw [bind_of_ok f hx, h]

theorem error_of_bind_pure {x : Action σ α} {g : α → β} {fault : Fault}
    (h : (x >>= fun a => pure (g a)) m = .error fault m') : x m = .error fault m' := by
  cases hx : x m with
  | ok a mid =>
    rw [bind_of_ok _ hx] at h
    cases h
  | error f mid =>
    rw [bind_of_error _ hx] at h
    obtain ⟨rfl, rfl⟩ := EStateM.Result.error.inj h
    rfl

theorem map_of_ok {x : Action σ α} {a : α} (f : α → β) (h : x m = .ok a m') :
    (f <$> x) m = .ok (f a) m' := by
  change EStateM.map f x m = .ok (f a) m'
  rw [EStateM.map, h]

theorem map_of_error {x : Action σ α} {fault : Fault} (f : α → β) (h : x m = .error fault m') :
    (f <$> x) m = .error fault m' := by
  change EStateM.map f x m = .error fault m'
  rw [EStateM.map, h]

theorem attempt_eq_ok {f : Machine σ → Except Fault α} {a : α}
    (h : attempt f m = .ok a m') : f m = .ok a ∧ m' = m := by
  rw [attempt] at h
  cases hf : f m with
  | ok b =>
    rw [hf] at h
    cases h
    exact ⟨rfl, rfl⟩
  | error fault =>
    rw [hf] at h
    cases h

@[simp] theorem pure_apply (a : α) : (pure a : Action σ α) m = .ok a m := rfl

@[simp] theorem look_bind (f : Machine σ → α) (g : α → Action σ β) :
    (look f >>= g) m = g (f m) m := rfl

@[simp] theorem getReg_bind (g : UInt16 → Action σ β) : (getReg r >>= g) m = g (m.reg r) m := rfl

@[simp] theorem putReg_bind (g : Unit → Action σ β) :
    (putReg r v >>= g) m = g () (m.setReg r v) := rfl

@[simp] theorem setFrameWords_bind (g : Unit → Action σ β) :
    (setFrameWords v >>= g) m = g () { m with frameWords := v } := rfl

theorem readWord_apply (m : Machine Memory) (addr : UInt32) :
    readWord addr m = if addr.toNat + 2 ≤ m.store.size then .ok (m.store.wordAt addr.toNat) m
      else .error (.outOfBounds addr 2 m.store.size) m := by
  have h : Store.readWord m.store addr = _ := m.store.readWord_eq addr
  rw [readWord, attempt, h]
  by_cases hr : addr.toNat + 2 ≤ m.store.size <;> simp [hr]

theorem writeWord_apply (m : Machine Memory) (addr : UInt32) (w : UInt16) :
    writeWord addr w m = if addr.toNat + 2 ≤ m.store.size
      then .ok () { m with store := m.store.putWord addr.toNat w }
      else .error (.outOfBounds addr 2 m.store.size) m := by
  obtain ⟨f, store, words, policy⟩ := m
  have h : Store.writeWord addr w store = _ := store.writeWord_eq addr w
  rw [writeWord, onStore]
  simp only [h]
  by_cases hr : addr.toNat + 2 ≤ store.size <;> simp [hr]

end Machine

end FrameMachine
