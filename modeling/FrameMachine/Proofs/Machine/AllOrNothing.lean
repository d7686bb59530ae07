import FrameMachine.Proofs.Machine.Steps
import FrameMachine.Proofs.Stack.Words

/-!
# All or nothing

What a failure leaves of an instruction. Calls and returns move many words and may stop half-way.
Every other instruction goes through or changes nothing, but for one: a pop has taken its word off
the stack before it finds that the slot for it lies outside the register file. No decoded
instruction has such a slot, so a failed step only moves `ip`, past the bytes that it could fetch.
-/
namespace FrameMachine

def Opcode.framing : List Opcode := [.calLit, .calReg, .ret]

namespace Machine

variable {σ α β : Type}

/-- A failure of the action leaves the machine as it was. -/
def AllOrNothing (x : Action σ α) : Prop :=
  ∀ m fault left, x m = .error fault left → left = m

def Observes (x : Action σ α) : Prop :=
  ∀ m, (∃ a, x m = .ok a m) ∨ ∃ fault, x m = .error fault m

def Infallible (x : Action σ α) : Prop :=
  ∀ m, ∃ a m', x m = .ok a m'

variable {x : Action σ α} {f : α → Action σ β}

theorem Observes.bind (hx : Observes x) (hf : ∀ a, AllOrNothing (f a)) :
    AllOrNothing (x >>= f) := by
  intro m fault left h
  rcases hx m with ⟨a, ok⟩ | ⟨first, failed⟩
  · rw [bind_of_ok f ok] at h
    exact hf a m fault left h
  · rw [bind_of_error f failed] at h
    cases h
    rfl

theorem AllOrNothing.bind (hx : AllOrNothing x) (hf : ∀ a, Infallible (f a)) :
    AllOrNothing (x >>= f) := by
  intro m fault left h
  cases hm : x m with
  | ok a mid =>
    obtain ⟨b, m', ok⟩ := hf a mid
    rw [bind_of_ok f hm, ok] at h
    cases h
  | error first mid =>
    obtain rfl : mid = m := hx m first mid hm
    rw [bind_of_error f hm] at h
    cases h
    rfl

theorem Infallible.bind (hx : Infallible x) (hf : ∀ a, Infallible (f a)) :
    Infallible (x >>= f) := by
  intro m
  obtain ⟨a, mid, ok⟩ := hx m
  rw [bind_of_ok f ok]
  exact hf a mid

theorem Infallible.allOrNothing (hx : Infallible x) : AllOrNothing x := by
  intro m fault left h
  obtain ⟨a, m', ok⟩ := hx m
  cases ok.symm.trans h

theorem infallible_pure (a : α) : Infallible (pure a : Action σ α) :=
  fun m => ⟨a, m, rfl⟩

theorem infallible_putReg (r : Register) (v : UInt16) : Infallible (putReg r v : Action σ Unit) :=
  fun m => ⟨(), m.setReg r v, rfl⟩

theorem observes_getReg (r : Register) : Observes (getReg r : Action σ UInt16) :=
  fun m => Or.inl ⟨m.reg r, rfl⟩

theorem observes_attempt (g : Machine σ → Except Fault α) : Observes (attempt g) := by
  intro m
  cases h : g m with
  | ok a =>
    left
    exact ⟨a, by rw [attempt, h]⟩
  | error fault =>
    right
    exact ⟨fault, by rw [attempt, h]⟩

theorem putSlot_failed {offset : Nat} {v : UInt16} {m left : Machine σ} {fault : Fault}
    (h : putSlot offset v m = .error fault left) : 22 < offset % UInt32.size ∧ left = m := by
  rw [putSlot, RegisterFile.writeSlot] at h
  by_cases inside : offset % UInt32.size + 1 < 24
  · simp only [dif_pos inside] at h
    cases h
  · simp only [dif_neg inside] at h
    cases h
    exact ⟨by omega, rfl⟩

theorem allOrNothing_putSlot (offset : Nat) (v : UInt16) :
    AllOrNothing (putSlot offset v : Action σ Unit) :=
  fun _ _ _ h => (putSlot_failed h).2

theorem allOrNothing_writeWord (addr : UInt32) (v : UInt16) :
    AllOrNothing (writeWord addr v : Action Memory Unit) := by
  intro m fault left h
  rw [writeWord_apply] at h
  split at h
  · cases h
  · cases h
    rfl

theorem allOrNothing_push (v : UInt16) : AllOrNothing (push v : Action Memory Unit) := by
  intro m fault left h
  rw [push_apply] at h
  split at h
  · cases h
  · cases h
    rfl

theorem apply_allOrNothing {i : Instruction} (plain : i.opcode ∉ Opcode.framing)
    (no_pop : i.opcode ≠ .popReg) : AllOrNothing (apply i : Action Memory (Option Event)) := by
  cases i with
  | movLitReg value dst =>
    exact (allOrNothing_putSlot dst value).bind fun _ => infallible_pure none
  | movRegReg src dst =>
    apply (observes_attempt _).bind
    intro value
    exact (allOrNothing_putSlot dst value).bind fun _ => infallible_pure none
  | movRegMem src addr =>
    apply (observes_attempt _).bind
    intro value
    exact (allOrNothing_writeWord _ value).bind fun _ => infallible_pure none
  | movMemReg addr dst =>
    apply (observes_attempt _).bind
    intro value
    exact (allOrNothing_putSlot dst value).bind fun _ => infallible_pure none
  | addRegReg lhs rhs =>
    apply (observes_attempt _).bind
    intro a
    apply (observes_attempt _).bind
    intro b
    exact ((infallible_putReg .acc (a + b)).bind fun _ => infallible_pure none).allOrNothing
  | jmpNotEq value target =>
    apply (observes_getReg .acc).bind
    intro acc
    apply Infallible.allOrNothing
    by_cases differ : value ≠ acc
    · simp only [if_pos differ]
      exact (infallible_putReg .ip target.toUInt16).bind fun _ => infallible_pure none
    · simp only [if_neg differ]
      exact (infallible_pure ()).bind fun _ => infallible_pure none
  | pshLit value =>
    exact (allOrNothing_push value).bind fun _ => infallible_pure none
  | pshReg src =>
    apply (observes_attempt _).bind
    intro value
    exact (allOrNothing_push value).bind fun _ => infallible_pure none
  | popReg dst => exact absurd rfl no_pop
  | calLit target => exact absurd (show Opcode.calLit ∈ Opcode.framing by decide) plain
  | calReg src => exact absurd (show Opcode.calReg ∈ Opcode.framing by decide) plain
  | ret => exact absurd (show Opcode.ret ∈ Opcode.framing by decide) plain

variable {m left : Machine Memory} {i : Instruction} {fault : Fault} {dst : Nat}

/-- The instruction pops a word that is there into a slot that is not. -/
def PopsAstray (m : Machine Memory) (i : Instruction) : Prop :=
  ∃ dst word, i = .popReg dst ∧ m.store.readWord ((m.reg .sp).toUInt32 + 2) = .ok word ∧
    22 < dst % UInt32.size

theorem pop_of_read {word : UInt16}
    (read : m.store.readWord ((m.reg .sp).toUInt32 + 2) = .ok word) :
    pop m = .ok word m.popped := by
  have hread : readWord ((m.reg .sp).toUInt32 + 2) m = .ok word m := by
    change Store.readWord m.store ((m.reg .sp).toUInt32 + 2) = _ at read
    rw [readWord, attempt, read]
  have hsp : ((m.reg .sp).toUInt32 + 2).toUInt16 = m.reg .sp + 2 := by simp
  rw [pop, getReg_bind, bind_of_ok _ hread, hsp]
  rfl

theorem pop_of_unread (unread : m.store.readWord ((m.reg .sp).toUInt32 + 2) = .error fault) :
    pop m = .error fault m := by
  have hread : readWord ((m.reg .sp).toUInt32 + 2) m = .error fault m := by
    change Store.readWord m.store ((m.reg .sp).toUInt32 + 2) = _ at unread
    rw [readWord, attempt, unread]
  rw [pop, getReg_bind, bind_of_error _ hread]

theorem apply_of_popsAstray (astray : m.PopsAstray i) :
    ∃ fault, apply i m = .error fault m.popped := by
  obtain ⟨dst, word, rfl, read, outside⟩ := astray
  have refused : ¬ dst % UInt32.size + 1 < 24 := by omega
  have hput : putSlot dst word m.popped = .error (RegisterFile.slotFault dst) m.popped := by
    rw [putSlot, RegisterFile.writeSlot]
    simp only [dif_neg refused]
  refine ⟨RegisterFile.slotFault dst, ?_⟩
  change (pop >>= fun v => putSlot dst v >>= fun _ => pure none) m = _
  rw [bind_of_ok _ (pop_of_read read), bind_of_error _ hput]

theorem popReg_failed (not_astray : ¬ m.PopsAstray (.popReg dst))
    (h : apply (.popReg dst) m = .error fault left) : left = m := by
  change (pop >>= fun v => putSlot dst v >>= fun _ => pure none) m = _ at h
  cases read : m.store.readWord ((m.reg .sp).toUInt32 + 2) with
  | error first =>
    rw [bind_of_error _ (pop_of_unread read)] at h
    cases h
    rfl
  | ok word =>
    rw [bind_of_ok _ (pop_of_read read)] at h
    obtain ⟨outside, -⟩ := putSlot_failed (error_of_bind_pure h)
    exact absurd ⟨dst, word, rfl, read, outside⟩ not_astray

theorem apply_failed (plain : i.opcode ∉ Opcode.framing) (not_astray : ¬ m.PopsAstray i)
    (h : apply i m = .error fault left) : left = m := by
  by_cases is_pop : i.opcode = .popReg
  · obtain ⟨dst, rfl⟩ : ∃ dst, i = .popReg dst := by
      cases i <;> cases is_pop
      exact ⟨_, rfl⟩
    exact popReg_failed not_astray h
  · exact apply_allOrNothing plain is_pop m fault left h

/-- The slot of a decoded instruction lies inside the register file. -/
theorem not_popsAstray (regular : i.Regular) : ¬ m.PopsAstray i := by
  rintro ⟨dst, word, rfl, -, outside⟩
  have inside := (regular dst List.mem_cons_self).2
  have cut := Nat.mod_le dst UInt32.size
  omega

theorem step_failed
    (plain : ∀ op ∈ Opcode.framing, m.store.readByte (m.reg .ip).toUInt32 ≠ .ok op.byte)
    (h : step m = .error fault left) : left = m.advanced m.fetchedBytes := by
  rcases upcoming_cases m with ⟨i, -, regular, read, hstep⟩ | ⟨-, hleft⟩
  · rw [hstep] at h
    have hplain : i.opcode ∉ Opcode.framing := fun framing => plain _ framing read
    exact apply_failed hplain (not_popsAstray regular) h
  · rwa [stepped_of_error h] at hleft

/-- An instruction other than a call or a return that fails has changed nothing, except that a
pop into a slot outside the register file has popped. A step that fails on anything but a call or
a return has moved `ip` past the bytes that it could fetch, and has changed nothing else. -/
theorem failures_leave_nothing_half_done (m : Machine Memory) :
    (∀ i fault left, i.opcode ∉ Opcode.framing → apply i m = .error fault left →
      (m.PopsAstray i →
        left = ⟨m.registers.set .sp (m.reg .sp + 2), m.store, m.frameWords - 1, m.policy⟩) ∧
      (¬ m.PopsAstray i → left = m)) ∧
    ∀ fault left,
      (∀ op ∈ Opcode.framing, m.store.readByte (m.reg .ip).toUInt32 ≠ .ok op.byte) →
      step m = .error fault left →
        left = m.setReg .ip (m.reg .ip + UInt16.ofNat m.fetchedBytes) ∧
        ((∀ byte, m.store.readByte (m.reg .ip).toUInt32 ≠ .ok byte) → left = m) := by
  constructor
  · intro i fault left plain h
    constructor
    · intro astray
      obtain ⟨_, h'⟩ := apply_of_popsAstray astray
      exact (EStateM.Result.error.inj (h.symm.trans h')).2
    · intro not_astray
      exact apply_failed plain not_astray h
  · intro fault left plain h
    have hleft := step_failed plain h
    refine ⟨hleft, fun unread => ?_⟩
    cases read : m.store.readByte (m.reg .ip).toUInt32 with
    | ok byte => exact absurd read (unread byte)
    | error first =>
      have none_fetched : m.fetchedBytes = 0 := by rw [fetchedBytes, read]
      rw [hleft, none_fetched, advanced_zero]

/-- A pop past the register file, whose slot offset does not fit into 32 bits, and a move cut
short by the end of the memory. -/
theorem stray_pop_and_cut_move_fail :
    let m : Machine Memory := ⟨((RegisterFile.initial 8).set .sp 2).set .ip 5,
      ⟨#[0, 0, 0, 0, 0xAB, 0x10, 0xBE, 0xEF]⟩, 7, .strict⟩
    let pop := Instruction.popReg 0x100000017
    pop.opcode ∉ Opcode.framing ∧ m.PopsAstray pop ∧
      (∃ fault, apply pop m = .error fault ⟨m.registers.set .sp 4, m.store, 6, .strict⟩) ∧
      (∀ op ∈ Opcode.framing, m.store.readByte (m.reg .ip).toUInt32 ≠ .ok op.byte) ∧
      m.fetchedBytes = 3 ∧
      step m = .error (.outOfBounds 8 1 8) (m.setReg .ip (m.reg .ip + UInt16.ofNat 3)) := by
  intro m pop
  have plain : pop.opcode ∉ Opcode.framing := by decide
  have outside : 22 < 0x100000017 % UInt32.size := by simp [UInt32.size]
  have astray : m.PopsAstray pop := ⟨0x100000017, 0xAB10, rfl, by decide, outside⟩
  have plain_step :
      ∀ op ∈ Opcode.framing, m.store.readByte (m.reg .ip).toUInt32 ≠ .ok op.byte := by decide
  have fetched : m.fetchedBytes = 3 := by decide
  obtain ⟨applied, stepped⟩ := failures_leave_nothing_half_done m
  obtain ⟨fault, failed⟩ := apply_of_popsAstray astray
  have popped := (applied pop fault m.popped plain failed).1 astray
  -- the move's word is the last one of the memory, so that its register is missing
  have read : Store.readByte m.store (m.reg .ip).toUInt32 = .ok Opcode.movLitReg.byte := by decide
  have word := fetchWord_of_room (m := m.advanced 1) (by decide)
  rw [advanced_advanced] at word
  have at_end : ((m.advanced 3).reg .ip).toUInt32 = 8 := by decide
  have past := fetchByte_refused (m := m.advanced 3) (by decide)
  rw [at_end] at past
  have undecoded : decode .movLitReg (m.advanced 1) =
      .error (.outOfBounds 8 1 8) (m.advanced 3) :=
    (bind_of_ok _ word).trans (bind_of_error _ (bind_of_error _ past))
  have cut : step m = .error (.outOfBounds 8 1 8) (m.advanced 3) :=
    (step_of_opcode read (Opcode.ofByte?_byte _)).trans (bind_of_error _ undecoded)
  have moved := (stepped _ _ plain_step cut).1
  have hsp : m.reg .sp + 2 = 4 := by decide
  have hwords : m.frameWords - 1 = 6 := by decide
  rw [popped, hsp, hwords] at failed
  rw [moved, fetched] at cut
  exact ⟨plain, astray, ⟨fault, failed⟩, plain_step, fetched, cut⟩

end Machine

end FrameMachine
