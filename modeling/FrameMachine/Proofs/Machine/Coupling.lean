import FrameMachine.Machine

/-!
# Coupled machines

Two machines, over stores of any two kinds, with equal registers and counts. Two actions
are coupled if from coupled machines they give the same answer or raise the same fault, and
leave coupled machines. As long as the two stores answer alike where the engine reaches,
every action of the engine is coupled with itself; only the meeting of an unknown byte
looks at the policies. An action coupled with itself on one machine shows what it keeps and
which faults it may raise.
-/
namespace FrameMachine

/-- What the stores and the policies of two machines have to do with each other, and which
faults both may raise. -/
structure Coupling (σ τ : Type) where
  stores : σ → τ → Prop
  policies : OpcodePolicy → OpcodePolicy → Prop
  faults : Fault → Prop

namespace Coupling

variable {σ τ α β : Type}

structure Machines (C : Coupling σ τ) (m : Machine σ) (n : Machine τ) : Prop where
  registers : m.registers = n.registers
  store : C.stores m.store n.store
  frameWords : m.frameWords = n.frameWords
  policy : C.policies m.policy n.policy

def Results (C : Coupling σ τ) (x : EStateM.Result Fault (Machine σ) α)
    (y : EStateM.Result Fault (Machine τ) α) : Prop :=
  (∃ a m n, x = .ok a m ∧ y = .ok a n ∧ C.Machines m n) ∨
    ∃ fault m n, x = .error fault m ∧ y = .error fault n ∧ C.faults fault ∧ C.Machines m n

def Actions (C : Coupling σ τ) (x : Action σ α) (y : Action τ α) : Prop :=
  ∀ m n, C.Machines m n → C.Results (x m) (y n)

/-- Two writes to the stores that come out alike. -/
def Writes (C : Coupling σ τ) (write : EStateM Fault σ α) (write' : EStateM Fault τ α) : Prop :=
  ∀ s t, C.stores s t →
    (∃ a s' t', write s = .ok a s' ∧ write' t = .ok a t' ∧ C.stores s' t') ∨
      ∃ fault s' t', write s = .error fault s' ∧ write' t = .error fault t' ∧
        C.faults fault ∧ C.stores s' t'

structure Bytes [Store σ] [Store τ] (C : Coupling σ τ) : Prop where
  same : ∀ s t addr, C.stores s t → addr.toNat ≤ 0xFFFF →
    Store.readByte s addr = Store.readByte t addr
  fault : ∀ s t addr fault, C.stores s t → addr.toNat ≤ 0xFFFF →
    Store.readByte s addr = .error fault → C.faults fault

/-- Words are accessed alike. Reads go two further than writes: a pop does not wrap. -/
structure Words [Store σ] [Store τ] (C : Coupling σ τ) : Prop where
  same : ∀ s t addr, C.stores s t → addr.toNat ≤ 0x10001 →
    Store.readWord s addr = Store.readWord t addr
  fault : ∀ s t addr fault, C.stores s t → addr.toNat ≤ 0x10001 →
    Store.readWord s addr = .error fault → C.faults fault
  write : ∀ addr value, addr.toNat ≤ 0xFFFF →
    C.Writes (Store.writeWord addr value) (Store.writeWord addr value)

/-- The slot is inside the register file, or its fault is one of those allowed. -/
def Slot (C : Coupling σ τ) (offset : Nat) : Prop :=
  offset % UInt32.size + 1 < 24 ∨ C.faults (RegisterFile.slotFault offset)

variable {C : Coupling σ τ}

theorem Actions.pure (a : α) : C.Actions (pure a) (pure a) :=
  fun m n h => Or.inl ⟨a, m, n, rfl, rfl, h⟩

theorem Actions.bind {x : Action σ α} {y : Action τ α} {f : α → Action σ β}
    {g : α → Action τ β} (hxy : C.Actions x y) (hfg : ∀ a, C.Actions (f a) (g a)) :
    C.Actions (x >>= f) (y >>= g) := by
  intro m n h
  rcases hxy m n h with ⟨a, m', n', hx, hy, h'⟩ | ⟨fault, m', n', hx, hy, hfault, h'⟩
  · rw [Machine.bind_of_ok f hx, Machine.bind_of_ok g hy]
    exact hfg a m' n' h'
  · rw [Machine.bind_of_error f hx, Machine.bind_of_error g hy]
    exact Or.inr ⟨fault, m', n', rfl, rfl, hfault, h'⟩

theorem actions_look {f : Machine σ → α} {g : Machine τ → α}
    (hfg : ∀ m n, C.Machines m n → f m = g n) : C.Actions (Machine.look f) (Machine.look g) :=
  fun m n h => Or.inl ⟨f m, m, n, rfl, by rw [hfg m n h]; rfl, h⟩

theorem actions_attempt {f : Machine σ → Except Fault α} {g : Machine τ → Except Fault α}
    (hfg : ∀ m n, C.Machines m n → f m = g n)
    (hfault : ∀ m n fault, C.Machines m n → f m = .error fault → C.faults fault) :
    C.Actions (Machine.attempt f) (Machine.attempt g) := by
  intro m n h
  unfold Machine.attempt
  rw [← hfg m n h]
  cases hf : f m with
  | ok a => exact Or.inl ⟨a, m, n, rfl, rfl, h⟩
  | error fault => exact Or.inr ⟨fault, m, n, rfl, rfl, hfault m n fault h hf, h⟩

theorem actions_getReg (r : Register) : C.Actions (Machine.getReg r) (Machine.getReg r) :=
  actions_look fun _ _ h => congrArg (RegisterFile.get · r) h.registers

theorem actions_frameWords :
    C.Actions (Machine.look Machine.frameWords) (Machine.look Machine.frameWords) :=
  actions_look fun _ _ h => h.frameWords

theorem actions_putReg (r : Register) (value : UInt16) :
    C.Actions (Machine.putReg r value) (Machine.putReg r value) := by
  intro m n h
  refine Or.inl ⟨(), _, _, rfl, rfl, ?_, h.store, h.frameWords, h.policy⟩
  exact congrArg (RegisterFile.set · r value) h.registers

theorem actions_setFrameWords (words : UInt16) :
    C.Actions (Machine.setFrameWords words) (Machine.setFrameWords words) :=
  fun _ _ h => Or.inl ⟨(), _, _, rfl, rfl, h.registers, h.store, rfl, h.policy⟩

theorem actions_getSlot {offset : Nat} (slot : C.Slot offset) :
    C.Actions (Machine.getSlot offset) (Machine.getSlot offset) := by
  refine actions_attempt (fun m n h => by rw [h.registers]) fun m n fault h hread => ?_
  rcases slot with inside | allowed
  · rw [RegisterFile.readSlot, dif_pos inside] at hread
    cases hread
  · rw [RegisterFile.readSlot] at hread
    split at hread
    · cases hread
    · cases hread
      exact allowed

theorem actions_putSlot {offset : Nat} (slot : C.Slot offset) (value : UInt16) :
    C.Actions (Machine.putSlot offset value) (Machine.putSlot offset value) := by
  rintro ⟨f, s, words, policy⟩ ⟨g, t, words', policy'⟩ ⟨hregs, hstore, hwords, hpolicy⟩
  obtain rfl : f = g := hregs
  simp only [Machine.putSlot, RegisterFile.writeSlot]
  by_cases inside : offset % UInt32.size + 1 < 24
  · simp only [dif_pos inside]
    exact Or.inl ⟨(), _, _, rfl, rfl, rfl, hstore, hwords, hpolicy⟩
  · simp only [dif_neg inside]
    exact Or.inr ⟨_, _, _, rfl, rfl, slot.resolve_left inside, rfl, hstore, hwords, hpolicy⟩

theorem Writes.bind {x : EStateM Fault σ α} {y : EStateM Fault τ α} {f : α → EStateM Fault σ β}
    {g : α → EStateM Fault τ β} (hxy : C.Writes x y) (hfg : ∀ a, C.Writes (f a) (g a)) :
    C.Writes (x >>= f) (y >>= g) := by
  intro s t h
  change (∃ a s' t', EStateM.bind x f s = _ ∧ EStateM.bind y g t = _ ∧ _) ∨
    ∃ fault s' t', EStateM.bind x f s = _ ∧ EStateM.bind y g t = _ ∧ _
  rcases hxy s t h with ⟨a, s', t', hx, hy, h'⟩ | ⟨fault, s', t', hx, hy, hfault, h'⟩
  · rw [EStateM.bind, EStateM.bind, hx, hy]
    exact hfg a s' t' h'
  · rw [EStateM.bind, EStateM.bind, hx, hy]
    exact Or.inr ⟨fault, s', t', rfl, rfl, hfault, h'⟩

theorem actions_onStore {write : EStateM Fault σ α} {write' : EStateM Fault τ α}
    (hwrite : C.Writes write write') : C.Actions (Machine.onStore write) (Machine.onStore write') := by
  rintro ⟨f, s, words, policy⟩ ⟨g, t, words', policy'⟩ ⟨hregs, hstore, hwords, hpolicy⟩
  rcases hwrite s t hstore with ⟨a, s', t', hs, ht, h⟩ | ⟨fault, s', t', hs, ht, hfault, h⟩
  · simp only [Machine.onStore, hs, ht]
    exact Or.inl ⟨a, _, _, rfl, rfl, hregs, h, hwords, hpolicy⟩
  · simp only [Machine.onStore, hs, ht]
    exact Or.inr ⟨fault, _, _, rfl, rfl, hfault, hregs, h, hwords, hpolicy⟩

theorem toNat_toUInt32_le (w : UInt16) : w.toUInt32.toNat ≤ 0xFFFF := by
  have := w.toNat_lt
  rw [UInt16.toNat_toUInt32]
  omega

section Engine

variable [Store σ] [Store τ]

theorem Bytes.readByte (bytes : C.Bytes) {addr : UInt32} (reach : addr.toNat ≤ 0xFFFF) :
    C.Actions (Machine.readByte addr) (Machine.readByte addr) :=
  actions_attempt (fun m n h => bytes.same m.store n.store addr h.store reach)
    fun m n fault h => bytes.fault m.store n.store addr fault h.store reach

theorem Words.readWord (words : C.Words) {addr : UInt32} (reach : addr.toNat ≤ 0x10001) :
    C.Actions (Machine.readWord addr) (Machine.readWord addr) :=
  actions_attempt (fun m n h => words.same m.store n.store addr h.store reach)
    fun m n fault h => words.fault m.store n.store addr fault h.store reach

theorem Words.writeWord (words : C.Words) {addr : UInt32} (reach : addr.toNat ≤ 0xFFFF)
    (value : UInt16) : C.Actions (Machine.writeWord addr value) (Machine.writeWord addr value) :=
  actions_onStore (words.write addr value reach)

omit [Store τ] in
theorem bytes_of_eq {C : Coupling σ σ} (stores : C.stores = Eq) (faults : ∀ fault, C.faults fault) :
    C.Bytes where
  same := by
    intro s t addr h _
    rw [stores] at h
    rw [h]
  fault := fun _ _ _ fault _ _ _ => faults fault

omit [Store τ] in
theorem words_of_eq {C : Coupling σ σ} (stores : C.stores = Eq) (faults : ∀ fault, C.faults fault) :
    C.Words where
  same := by
    intro s t addr h _
    rw [stores] at h
    rw [h]
  fault := fun _ _ _ fault _ _ _ => faults fault
  write := by
    intro addr value _ s t h
    rw [stores] at h ⊢
    subst h
    cases Store.writeWord addr value s with
    | ok a s' => exact Or.inl ⟨a, s', s', rfl, rfl, rfl⟩
    | error fault s' => exact Or.inr ⟨fault, s', s', rfl, rfl, faults fault, rfl⟩

theorem Bytes.fetchByte (bytes : C.Bytes) : C.Actions Machine.fetchByte Machine.fetchByte :=
  (actions_getReg .ip).bind fun ip =>
    (bytes.readByte (toNat_toUInt32_le ip)).bind fun value =>
      (actions_putReg .ip (ip + 1)).bind fun _ => .pure value

theorem Words.fetchWord (words : C.Words) : C.Actions Machine.fetchWord Machine.fetchWord :=
  (actions_getReg .ip).bind fun ip =>
    (words.readWord (Nat.le_trans (toNat_toUInt32_le ip) (by decide))).bind fun value =>
      (actions_putReg .ip (ip + 2)).bind fun _ => .pure value

theorem Bytes.fetchRegister (bytes : C.Bytes) :
    C.Actions Machine.fetchRegister Machine.fetchRegister :=
  bytes.fetchByte.bind fun operand => .pure (Register.operandOffset operand)

theorem actions_decode (bytes : C.Bytes) (words : C.Words) (op : Opcode) :
    C.Actions (Machine.decode op) (Machine.decode op) := by
  cases op with
  | movLitReg => exact words.fetchWord.bind fun _ => bytes.fetchRegister.bind fun _ => .pure _
  | movRegReg => exact bytes.fetchRegister.bind fun _ => bytes.fetchRegister.bind fun _ => .pure _
  | movRegMem => exact bytes.fetchRegister.bind fun _ => words.fetchWord.bind fun _ => .pure _
  | movMemReg => exact words.fetchWord.bind fun _ => bytes.fetchRegister.bind fun _ => .pure _
  | addRegReg => exact bytes.fetchRegister.bind fun _ => bytes.fetchRegister.bind fun _ => .pure _
  | jmpNotEq => exact words.fetchWord.bind fun _ => bytes.fetchByte.bind fun _ => .pure _
  | pshLit => exact words.fetchWord.bind fun _ => .pure _
  | pshReg => exact bytes.fetchRegister.bind fun _ => .pure _
  | popReg => exact bytes.fetchRegister.bind fun _ => .pure _
  | calLit => exact words.fetchWord.bind fun _ => .pure _
  | calReg => exact bytes.fetchRegister.bind fun _ => .pure _
  | ret => exact .pure _

theorem Words.push (words : C.Words) (value : UInt16) :
    C.Actions (Machine.push value) (Machine.push value) :=
  (actions_getReg .sp).bind fun sp =>
    (words.writeWord (toNat_toUInt32_le sp) value).bind fun _ =>
      (actions_putReg .sp (sp - 2)).bind fun _ =>
        actions_frameWords.bind fun count => actions_setFrameWords (count + 1)

theorem Words.pop (words : C.Words) : C.Actions Machine.pop Machine.pop := by
  refine (actions_getReg .sp).bind fun sp => (words.readWord ?_).bind fun value =>
    (actions_putReg .sp _).bind fun _ => actions_frameWords.bind fun count =>
      (actions_setFrameWords (count - 1)).bind fun _ => .pure value
  have := toNat_toUInt32_le sp
  rw [UInt32.toNat_add]
  simp only [UInt32.reduceToNat]
  omega

theorem Words.pushRegisters (words : C.Words) (rs : List Register) :
    C.Actions (Machine.pushRegisters rs) (Machine.pushRegisters rs) := by
  induction rs with
  | nil => exact .pure ()
  | cons r rs ih => exact (actions_getReg r).bind fun value => (words.push value).bind fun _ => ih

theorem Words.popRegisters (words : C.Words) (rs : List Register) :
    C.Actions (Machine.popRegisters rs) (Machine.popRegisters rs) := by
  induction rs with
  | nil => exact .pure ()
  | cons r rs ih => exact words.pop.bind fun value => (actions_putReg r value).bind fun _ => ih

theorem Words.discard (words : C.Words) (n : Nat) :
    C.Actions (Machine.discard n) (Machine.discard n) := by
  induction n with
  | zero => exact .pure ()
  | succ n ih => exact words.pop.bind fun _ => ih

theorem Words.pushState (words : C.Words) : C.Actions Machine.pushState Machine.pushState :=
  (words.pushRegisters Register.saved).bind fun _ =>
    (actions_getReg .ip).bind fun ret =>
      (words.push ret).bind fun _ =>
        actions_frameWords.bind fun count =>
          (words.push (count + 2)).bind fun _ =>
            (actions_getReg .sp).bind fun fp =>
              (actions_putReg .fp fp).bind fun _ =>
                (actions_setFrameWords 0).bind fun _ => .pure _

theorem Words.popState (words : C.Words) : C.Actions Machine.popState Machine.popState :=
  (actions_getReg .fp).bind fun frame =>
    (actions_putReg .sp frame).bind fun _ =>
      words.pop.bind fun marker =>
        (actions_setFrameWords marker).bind fun _ =>
          words.pop.bind fun ret =>
            (actions_putReg .ip ret).bind fun _ =>
              (words.popRegisters Register.saved.reverse).bind fun _ =>
                words.pop.bind fun args =>
                  (words.discard args.toNat).bind fun _ =>
                    (actions_putReg .fp (frame + marker)).bind fun _ => .pure _

theorem Words.call (words : C.Words) (target : UInt16) :
    C.Actions (Machine.call target) (Machine.call target) :=
  words.pushState.bind fun event => (actions_putReg .ip target).bind fun _ => .pure event

theorem Words.apply (words : C.Words) {i : Instruction}
    (slots : ∀ offset, .register offset ∈ i.operands → C.Slot offset) :
    C.Actions (Machine.apply i) (Machine.apply i) := by
  cases i with
  | movLitReg value dst =>
    exact (actions_putSlot (slots dst (by simp [Instruction.operands])) value).bind fun _ => .pure _
  | movRegReg src dst =>
    exact (actions_getSlot (slots src (by simp [Instruction.operands]))).bind fun value =>
      (actions_putSlot (slots dst (by simp [Instruction.operands])) value).bind fun _ => .pure _
  | movRegMem src addr =>
    exact (actions_getSlot (slots src (by simp [Instruction.operands]))).bind fun value =>
      (words.writeWord (toNat_toUInt32_le addr) value).bind fun _ => .pure _
  | movMemReg addr dst =>
    exact (words.readWord (Nat.le_trans (toNat_toUInt32_le addr) (by decide))).bind fun value =>
      (actions_putSlot (slots dst (by simp [Instruction.operands])) value).bind fun _ => .pure _
  | addRegReg lhs rhs =>
    exact (actions_getSlot (slots lhs (by simp [Instruction.operands]))).bind fun a =>
      (actions_getSlot (slots rhs (by simp [Instruction.operands]))).bind fun b =>
        (actions_putReg .acc (a + b)).bind fun _ => .pure _
  | jmpNotEq value target =>
    refine (actions_getReg .acc).bind fun acc => ?_
    by_cases differ : value ≠ acc
    · simp only [if_pos differ]
      exact (actions_putReg .ip target.toUInt16).bind fun _ => .pure _
    · simp only [if_neg differ]
      exact .pure _
  | pshLit value => exact (words.push value).bind fun _ => .pure _
  | pshReg src =>
    exact (actions_getSlot (slots src (by simp [Instruction.operands]))).bind fun value =>
      (words.push value).bind fun _ => .pure _
  | popReg dst =>
    exact words.pop.bind fun value =>
      (actions_putSlot (slots dst (by simp [Instruction.operands])) value).bind fun _ => .pure _
  | calLit target => exact (words.call target).bind fun event => .pure (some event)
  | calReg src =>
    exact (actions_getSlot (slots src (by simp [Instruction.operands]))).bind fun target =>
      (words.call target).bind fun event => .pure (some event)
  | ret => exact words.popState.bind fun event => .pure (some event)

/-- The execution of a known opcode never looks at the policies. -/
theorem actions_executeOpcode (bytes : C.Bytes) (words : C.Words) (slots : ∀ offset, C.Slot offset)
    (op : Opcode) : C.Actions (Machine.decode op >>= Machine.apply)
      (Machine.decode op >>= Machine.apply) :=
  (actions_decode bytes words op).bind fun _ => words.apply fun offset _ => slots offset

omit [Store σ] [Store τ] in
theorem actions_meetUnknown (policies : ∀ p q, C.policies p q → p = q)
    (faults : ∀ fault, C.faults fault) (byte : UInt8) :
    C.Actions (Machine.meetUnknown byte) (Machine.meetUnknown byte) := by
  intro m n h
  have hip : m.reg .ip = n.reg .ip := congrArg (RegisterFile.get · .ip) h.registers
  have hpolicy := policies _ _ h.policy
  unfold Machine.meetUnknown
  rw [← hip, ← hpolicy]
  cases m.policy with
  | strict => exact Or.inr ⟨_, m, n, rfl, rfl, faults _, h⟩
  | permissive => exact Or.inl ⟨_, m, n, rfl, rfl, h⟩

theorem actions_execute (bytes : C.Bytes) (words : C.Words)
    (policies : ∀ p q, C.policies p q → p = q) (faults : ∀ fault, C.faults fault) (byte : UInt8) :
    C.Actions (Machine.execute byte) (Machine.execute byte) := by
  unfold Machine.execute
  cases Opcode.ofByte? byte with
  | none => exact actions_meetUnknown policies faults byte
  | some op => exact actions_executeOpcode bytes words (fun _ => Or.inr (faults _)) op

theorem actions_step (bytes : C.Bytes) (words : C.Words)
    (policies : ∀ p q, C.policies p q → p = q) (faults : ∀ fault, C.faults fault) :
    C.Actions Machine.step Machine.step :=
  bytes.fetchByte.bind fun byte => actions_execute bytes words policies faults byte

theorem runOn_alike (step : C.Actions Machine.step Machine.step) (done : Nat)
    (events : Array Event) (n : Nat) {m : Machine σ} {m' : Machine τ} (h : C.Machines m m') :
    (Machine.runOn done events n m).events = (Machine.runOn done events n m').events ∧
      (Machine.runOn done events n m).result = (Machine.runOn done events n m').result ∧
      C.Machines (Machine.runOn done events n m).machine
        (Machine.runOn done events n m').machine := by
  induction n generalizing done events m m' with
  | zero => exact ⟨rfl, rfl, h⟩
  | succ n ih =>
    rw [Machine.runOn, Machine.runOn]
    rcases step m m' h with ⟨event, a, b, hm, hm', h'⟩ | ⟨fault, a, b, hm, hm', -, h'⟩
    · rw [hm, hm']
      cases event with
      | none => exact ih (done + 1) events h'
      | some event => exact ih (done + 1) (events.push event) h'
    · rw [hm, hm']
      exact ⟨rfl, rfl, h'⟩

theorem run_alike (step : C.Actions Machine.step Machine.step) (n : Nat) {m : Machine σ}
    {m' : Machine τ} (h : C.Machines m m') :
    (Machine.run n m).events = (Machine.run n m').events ∧
      (Machine.run n m).result = (Machine.run n m').result ∧
      C.Machines (Machine.run n m).machine (Machine.run n m').machine :=
  runOn_alike step 0 #[] n h

end Engine

end Coupling

end FrameMachine
