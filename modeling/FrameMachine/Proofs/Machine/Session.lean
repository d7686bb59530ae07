import FrameMachine.Proofs.Machine.Coupling
import FrameMachine.Register
import FrameMachine.Snapshot.Basic
import FrameMachine.Store.Sparse

/-!
# Sessions

Everything that can be asked of a machine from outside, and a session of such requests that
goes on after faults. No session tells a machine over a memory from one over a loan of it,
or from one over a store that knows bytes alone.
-/
namespace FrameMachine

inductive Request where
  | step
  | run (n : Nat)
  | execute (byte : UInt8)
  | decode (op : Opcode)
  | apply (i : Instruction)
  | fetchByte
  | fetchWord
  | fetchRegister
  | push (value : UInt16)
  | pop
  | pushState
  | popState
  | getReg (r : Register)
  | putReg (r : Register) (value : UInt16)
  | getSlot (offset : Nat)
  | putSlot (offset : Nat) (value : UInt16)
  | frameWords
  | policy
  | snapshot
  | restore (s : Snapshot)
  | dump
  | window (addr : UInt32) (length : Nat)
  | size
  | readByte (addr : UInt32)
  | readWord (addr : UInt32)
  | writeByte (addr : UInt32) (value : UInt8)
  | writeWord (addr : UInt32) (value : UInt16)

inductive Answer where
  | done
  | byte (value : UInt8)
  | word (value : UInt16)
  | number (n : Nat)
  | instruction (i : Instruction)
  | snapshot (s : Snapshot)
  | policy (p : OpcodePolicy)
  | text (shown : String)

structure Reply where
  outcome : Except Fault Answer
  events : List Event

namespace Machine

variable {σ α : Type}

def reply (x : Action σ α) (answer : α → Answer) (events : α → List Event) (m : Machine σ) :
    Reply × Machine σ :=
  match x m with
  | .ok a m => (⟨.ok (answer a), events a⟩, m)
  | .error fault m => (⟨.error fault, []⟩, m)

def quiet (x : Action σ α) (answer : α → Answer) : Machine σ → Reply × Machine σ :=
  reply x answer fun _ => []

variable [Store σ]

def perform : Request → Machine σ → Reply × Machine σ
  | .step => reply step (fun _ => .done) Option.toList
  | .run n => fun m =>
    let ran := run n m
    (⟨ran.result.map .number, ran.events.toList⟩, ran.machine)
  | .execute byte => reply (execute byte) (fun _ => .done) Option.toList
  | .decode op => quiet (decode op) .instruction
  | .apply i => reply (apply i) (fun _ => .done) Option.toList
  | .fetchByte => quiet fetchByte .byte
  | .fetchWord => quiet fetchWord .word
  | .fetchRegister => quiet fetchRegister .number
  | .push value => quiet (push value) fun _ => .done
  | .pop => quiet pop .word
  | .pushState => reply pushState (fun _ => .done) fun event => [event]
  | .popState => reply popState (fun _ => .done) fun event => [event]
  | .getReg r => quiet (getReg r) .word
  | .putReg r value => quiet (putReg r value) fun _ => .done
  | .getSlot offset => quiet (getSlot offset) .word
  | .putSlot offset value => quiet (putSlot offset value) fun _ => .done
  | .frameWords => quiet (look frameWords) .word
  | .policy => quiet (look policy) .policy
  | .snapshot => quiet (look snapshot) .snapshot
  | .restore s => quiet (fun m => .ok () (m.restore s)) fun _ => .done
  | .dump => quiet (look fun m => m.registers.dump) .text
  | .window addr length => quiet (attempt fun m => Store.window m.store addr length) .text
  | .size => quiet (look fun m => Store.size m.store) .number
  | .readByte addr => quiet (readByte addr) .byte
  | .readWord addr => quiet (readWord addr) .word
  | .writeByte addr value => quiet (onStore (Store.writeByte addr value)) fun _ => .done
  | .writeWord addr value => quiet (writeWord addr value) fun _ => .done

def session : List Request → Machine σ → List Reply × Machine σ
  | [], m => ([], m)
  | request :: rest, m =>
    let (reply, m) := perform request m
    let (replies, m) := session rest m
    (reply :: replies, m)

end Machine

namespace Coupling

variable {σ τ α : Type} [Store σ] [Store τ] {C : Coupling σ τ} {m : Machine σ} {n : Machine τ}

/-- Every access of one store comes out as the same access of the other one does. -/
structure Transparent (C : Coupling σ τ) : Prop where
  size : ∀ s t, C.stores s t → Store.size s = Store.size t
  readByte : ∀ s t addr, C.stores s t → Store.readByte s addr = Store.readByte t addr
  readWord : ∀ s t addr, C.stores s t → Store.readWord s addr = Store.readWord t addr
  writeByte : ∀ addr value, C.Writes (Store.writeByte addr value) (Store.writeByte addr value)
  writeWord : ∀ addr value, C.Writes (Store.writeWord addr value) (Store.writeWord addr value)
  policies : ∀ p q, C.policies p q → p = q
  faults : ∀ fault, C.faults fault

theorem Transparent.bytes (h : C.Transparent) : C.Bytes where
  same s t addr hst _ := h.readByte s t addr hst
  fault _ _ _ fault _ _ _ := h.faults fault

theorem Transparent.words (h : C.Transparent) : C.Words where
  same s t addr hst _ := h.readWord s t addr hst
  fault _ _ _ fault _ _ _ := h.faults fault
  write addr value _ := h.writeWord addr value

theorem Transparent.slot (h : C.Transparent) (offset : Nat) : C.Slot offset :=
  Or.inr (h.faults _)

omit [Store σ] [Store τ] in
theorem Actions.reply {x : Action σ α} {y : Action τ α} (hxy : C.Actions x y)
    (answer : α → Answer) (events : α → List Event) (h : C.Machines m n) :
    (Machine.reply x answer events m).1 = (Machine.reply y answer events n).1 ∧
      C.Machines (Machine.reply x answer events m).2 (Machine.reply y answer events n).2 := by
  unfold Machine.reply
  rcases hxy m n h with ⟨a, m', n', hm, hn, h'⟩ | ⟨fault, m', n', hm, hn, -, h'⟩
  · rw [hm, hn]
    exact ⟨rfl, h'⟩
  · rw [hm, hn]
    exact ⟨rfl, h'⟩

omit [Store σ] [Store τ] in
theorem actions_restore (s : Snapshot) :
    C.Actions (fun m => .ok () (m.restore s)) (fun m => .ok () (m.restore s)) := by
  intro m n h
  have hregs : s.apply m.registers = s.apply n.registers := by rw [h.registers]
  unfold Machine.restore
  exact Or.inl ⟨(), _, _, rfl, rfl, hregs, h.store, rfl, h.policy⟩

theorem Transparent.readOn (h : C.Transparent) {s : σ} {t : τ} (hst : C.stores s t)
    (addr : UInt32) (bytes : Array UInt8) (length : Nat) :
    Store.readOn s addr bytes length = Store.readOn t addr bytes length := by
  induction length generalizing addr bytes with
  | zero => rfl
  | succ length ih =>
    rw [Store.readOn, Store.readOn, h.readByte s t addr hst]
    simp only [ih]

theorem Transparent.window (h : C.Transparent) (addr : UInt32) (length : Nat) :
    C.Actions (Machine.attempt fun m => Store.window m.store addr length)
      (Machine.attempt fun m => Store.window m.store addr length) := by
  refine actions_attempt (fun m n hmn => ?_) fun _ _ fault _ _ => h.faults fault
  rw [Store.window, Store.window, h.readOn hmn.store]

theorem Transparent.step (h : C.Transparent) : C.Actions Machine.step Machine.step :=
  actions_step h.bytes h.words h.policies h.faults

theorem Transparent.perform (h : C.Transparent) (request : Request) (hmn : C.Machines m n) :
    (Machine.perform request m).1 = (Machine.perform request n).1 ∧
      C.Machines (Machine.perform request m).2 (Machine.perform request n).2 := by
  cases request with
  | step => exact h.step.reply _ _ hmn
  | run k =>
    obtain ⟨hevents, hresult, hmachine⟩ := run_alike h.step k hmn
    refine ⟨?_, hmachine⟩
    simp only [Machine.perform, hevents, hresult]
  | execute byte =>
    exact (actions_execute h.bytes h.words h.policies h.faults byte).reply _ _ hmn
  | decode op => exact (actions_decode h.bytes h.words op).reply _ _ hmn
  | apply i => exact (h.words.apply fun offset _ => h.slot offset).reply _ _ hmn
  | fetchByte => exact h.bytes.fetchByte.reply _ _ hmn
  | fetchWord => exact h.words.fetchWord.reply _ _ hmn
  | fetchRegister => exact h.bytes.fetchRegister.reply _ _ hmn
  | push value => exact (h.words.push value).reply _ _ hmn
  | pop => exact h.words.pop.reply _ _ hmn
  | pushState => exact h.words.pushState.reply _ _ hmn
  | popState => exact h.words.popState.reply _ _ hmn
  | getReg r => exact (actions_getReg r).reply _ _ hmn
  | putReg r value => exact (actions_putReg r value).reply _ _ hmn
  | getSlot offset => exact (actions_getSlot (h.slot offset)).reply _ _ hmn
  | putSlot offset value => exact (actions_putSlot (h.slot offset) value).reply _ _ hmn
  | frameWords => exact actions_frameWords.reply _ _ hmn
  | policy => exact (actions_look fun _ _ h' => h.policies _ _ h'.policy).reply _ _ hmn
  | snapshot =>
    refine (actions_look fun m n h' => ?_).reply _ _ hmn
    rw [Machine.snapshot, Machine.snapshot, h'.registers, h'.frameWords]
  | restore s => exact (actions_restore s).reply _ _ hmn
  | dump => exact (actions_look fun _ _ h' => by rw [h'.registers]).reply _ _ hmn
  | window addr length => exact (h.window addr length).reply _ _ hmn
  | size => exact (actions_look fun _ _ h' => h.size _ _ h'.store).reply _ _ hmn
  | readByte addr =>
    exact (actions_attempt (fun _ _ h' => h.readByte _ _ addr h'.store)
      fun _ _ fault _ _ => h.faults fault).reply _ _ hmn
  | readWord addr =>
    exact (actions_attempt (fun _ _ h' => h.readWord _ _ addr h'.store)
      fun _ _ fault _ _ => h.faults fault).reply _ _ hmn
  | writeByte addr value => exact (actions_onStore (h.writeByte addr value)).reply _ _ hmn
  | writeWord addr value => exact (actions_onStore (h.writeWord addr value)).reply _ _ hmn

theorem Transparent.session (h : C.Transparent) (requests : List Request)
    (hmn : C.Machines m n) :
    (Machine.session requests m).1 = (Machine.session requests n).1 ∧
      C.Machines (Machine.session requests m).2 (Machine.session requests n).2 := by
  induction requests generalizing m n with
  | nil => exact ⟨rfl, hmn⟩
  | cons request rest ih =>
    obtain ⟨hreply, hnext⟩ := h.perform request hmn
    obtain ⟨hreplies, hend⟩ := ih hnext
    refine ⟨?_, hend⟩
    simp only [Machine.session, hreply, hreplies]

end Coupling

variable {σ : Type} [Store σ] {Valid : σ → Prop}

/-- A store beside a memory that it shows. -/
def showing (Valid : σ → Prop) : Coupling σ Memory where
  stores s m := Valid s ∧ Shows s m ∧ m.size ≤ UInt32.size
  policies p q := p = q
  faults _ := True

namespace ByteOnly

variable {s : σ} {m : Memory}

theorem readWord_alike (only : ByteOnly σ Valid) (h : (showing Valid).stores s m) (addr : UInt32) :
    Store.readWord s addr = m.readWord addr := by
  obtain ⟨-, shows, small⟩ := h
  have hread : Store.readByte s = m.readByte := funext shows.read
  rw [only.readWord, shows.size, hread, Memory.readWordByBytes_eq small]

theorem writeByte_alike (only : ByteOnly σ Valid) (addr : UInt32) (v : UInt8) :
    (showing Valid).Writes (Store.writeByte addr v) (Memory.writeByte addr v) := by
  rintro s m ⟨valid, shows, small⟩
  have hmemory := m.writeByte_eq addr v
  by_cases inside : addr.toNat + 1 ≤ m.size
  · rw [if_pos inside] at hmemory
    obtain ⟨s', hs, valid', hsize, hread⟩ :=
      only.writeInside s addr v valid (by rw [shows.size]; exact inside)
    refine Or.inl ⟨(), s', _, hs, hmemory, valid', ⟨?_, fun b => ?_⟩, ?_⟩
    · rw [hsize, shows.size, Memory.size_putByte]
    · rw [hread, Memory.readByte_putByte inside, shows.read]
    · rwa [Memory.size_putByte]
  · rw [if_neg inside] at hmemory
    obtain ⟨s', hs, valid', hsize, hread⟩ :=
      only.writeOutside s addr v valid (by rw [shows.size]; omega)
    rw [shows.size] at hs hsize
    exact Or.inr ⟨_, s', m, hs, hmemory, trivial, valid',
      ⟨hsize, fun b => (hread b).trans (shows.read b)⟩, small⟩

theorem writeWord_alike (only : ByteOnly σ Valid) (addr : UInt32) (w : UInt16) :
    (showing Valid).Writes (Store.writeWord addr w) (Memory.writeWord addr w) := by
  intro s m h
  have shows : Shows s m := h.2.1
  rw [only.writeWord, ← Memory.writeWordByBytes_eq h.2.2, Store.writeWordByBytes,
    Store.writeWordByBytes, shows.size]
  cases checkRange addr 2 m.size with
  | error fault => exact Or.inr ⟨fault, s, m, rfl, rfl, trivial, h⟩
  | ok _ =>
    exact (only.writeByte_alike addr _).bind (fun _ => only.writeByte_alike (addr + 1) _) s m h

end ByteOnly

theorem ByteOnly.transparent (only : ByteOnly σ Valid) : (showing Valid).Transparent where
  size _ _ h := h.2.1.size
  readByte _ _ addr h := h.2.1.read addr
  readWord _ _ addr h := only.readWord_alike h addr
  writeByte := only.writeByte_alike
  writeWord := only.writeWord_alike
  policies _ _ h := h
  faults _ := trivial

/-- A loan beside the store that is lent. -/
def lending : Coupling (Loan σ) σ where
  stores l s := l.lent = s
  policies p q := p = q
  faults _ := True

omit [Store σ] in
theorem lending_writes (write : EStateM Fault σ Unit) :
    (lending (σ := σ)).Writes (Loan.lending write) write := by
  rintro ⟨s⟩ _ rfl
  cases hs : write s with
  | ok a s' => exact Or.inl ⟨a, ⟨s'⟩, s', by simp only [Loan.lending, hs], rfl, rfl⟩
  | error fault s' =>
    exact Or.inr ⟨fault, ⟨s'⟩, s', by simp only [Loan.lending, hs], rfl, trivial, rfl⟩

theorem lending_transparent : (lending (σ := σ)).Transparent where
  size := by
    rintro ⟨s⟩ _ rfl
    rfl
  readByte := by
    rintro ⟨s⟩ _ addr rfl
    rfl
  readWord := by
    rintro ⟨s⟩ _ addr rfl
    rfl
  writeByte _ _ := lending_writes _
  writeWord _ _ := lending_writes _
  policies _ _ h := h
  faults _ := trivial

/-- A store that knows bytes alone, and a loan of a memory, beside the memory itself. Words
read and write alike at every address, and so does every session, faults included. -/
theorem sessions_cannot_tell_stores_apart (only : ByteOnly σ Valid) (s : σ) (memory : Memory)
    (valid : Valid s) (shows : Shows s memory) (small : memory.size ≤ UInt32.size) :
    (∀ addr, Store.readWord s addr = memory.readWord addr) ∧
    (∀ addr value,
      (∃ s' memory', Store.writeWord addr value s = .ok () s' ∧
        Memory.writeWord addr value memory = .ok () memory' ∧ Shows s' memory') ∨
      ∃ fault s' memory', Store.writeWord addr value s = .error fault s' ∧
        Memory.writeWord addr value memory = .error fault memory' ∧ Shows s' memory') ∧
    (∀ addr, checkRange addr 2 (Store.size s) = .ok () → (addr + 1).toNat = addr.toNat + 1) ∧
    ∀ (f : RegisterFile) (words : UInt16) (policy : OpcodePolicy) (requests : List Request),
      let onMemory := Machine.session requests (⟨f, memory, words, policy⟩ : Machine Memory)
      let onLoan := Machine.session requests (⟨f, ⟨memory⟩, words, policy⟩ : Machine (Loan Memory))
      let onBytes := Machine.session requests (⟨f, s, words, policy⟩ : Machine σ)
      (onLoan.1 = onMemory.1 ∧ onLoan.2.registers = onMemory.2.registers ∧
        onLoan.2.frameWords = onMemory.2.frameWords ∧ onLoan.2.store.lent = onMemory.2.store) ∧
      onBytes.1 = onMemory.1 ∧ onBytes.2.registers = onMemory.2.registers ∧
      onBytes.2.frameWords = onMemory.2.frameWords ∧ Shows onBytes.2.store onMemory.2.store := by
  have hstores : (showing Valid).stores s memory := ⟨valid, shows, small⟩
  refine ⟨only.readWord_alike hstores, fun addr value => ?_, fun addr h => ?_,
    fun f words policy requests => ?_⟩
  · rcases only.writeWord_alike addr value s memory hstores with
      ⟨_, s', memory', hs, hm, h⟩ | ⟨fault, s', memory', hs, hm, -, h⟩
    · exact Or.inl ⟨s', memory', hs, hm, h.2.1⟩
    · exact Or.inr ⟨fault, s', memory', hs, hm, h.2.1⟩
  · rw [shows.size] at h
    exact Memory.toNat_add_one small h
  · have hloan : lending.Machines (⟨f, ⟨memory⟩, words, policy⟩ : Machine (Loan Memory))
        ⟨f, memory, words, policy⟩ := ⟨rfl, rfl, rfl, rfl⟩
    have hbytes : (showing Valid).Machines ⟨f, s, words, policy⟩ ⟨f, memory, words, policy⟩ :=
      ⟨rfl, hstores, rfl, rfl⟩
    obtain ⟨hreplies, h⟩ := lending_transparent.session requests hloan
    obtain ⟨hreplies', h'⟩ := only.transparent.session requests hbytes
    exact ⟨⟨hreplies, h.registers, h.frameWords, h.store⟩,
      hreplies', h'.registers, h'.frameWords, h'.store.2.1⟩

theorem sparse_store_answers_as_memory :
    let requests := [.push 0x1234, .pop, .writeByte 4 0x17, .readWord 3, .readWord 4, .step]
    let zeroed : Machine Memory := ⟨.initial 5, .zero 5, 0, .strict⟩
    let sparse : Machine Sparse := ⟨.initial 5, .empty 5 [], 0, .strict⟩
    ByteOnly Sparse (fun s => s.holes = []) ∧ (Sparse.empty 5 []).holes = [] ∧
      Shows (Sparse.empty 5 []) (Memory.zero 5) ∧ (Memory.zero 5).size ≤ UInt32.size ∧
      (Machine.session requests sparse).1 = (Machine.session requests zeroed).1 := by
  intro requests zeroed sparse
  have small : (Memory.zero 5).size ≤ UInt32.size := by decide
  obtain ⟨-, -, -, sessions⟩ := sessions_cannot_tell_stores_apart Sparse.byteOnly
    (Sparse.empty 5 []) (Memory.zero 5) rfl (Sparse.shows_empty 5) small
  exact ⟨Sparse.byteOnly, rfl, Sparse.shows_empty 5, small,
    (sessions (.initial 5) 0 .strict requests).2.1⟩

end FrameMachine
