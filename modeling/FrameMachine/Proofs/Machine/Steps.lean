import FrameMachine.Proofs.Machine.Fetch
import FrameMachine.Proofs.Machine.Listing

/-!
# Rows of steps

What a step does by the byte at `ip`, the machine after any number of steps, failed ones included,
and the end of a run: all steps succeed, or the first that faults ends it. Over a memory a step is
known before it is done, from the instruction that lies at `ip`, if there is a whole one, and the
number of bytes that can be fetched for it.
-/
namespace FrameMachine.Machine

variable {σ : Type} [Store σ] {m : Machine σ} {byte : UInt8} {n : Nat}

theorem step_of_unread {fault : Fault}
    (h : Store.readByte m.store (m.reg .ip).toUInt32 = .error fault) :
    step m = .error fault m := bind_of_error _ (fetchByte_of_error h)

theorem step_of_unknown (h : Store.readByte m.store (m.reg .ip).toUInt32 = .ok byte)
    (unknown : Opcode.ofByte? byte = none) : step m = meetUnknown byte (m.advanced 1) := by
  rw [step, bind_of_ok _ (fetchByte_of_ok h), execute, unknown]

omit [Store σ] in
/-- The byte lies just before `ip` by then, also if `ip` has wrapped. -/
theorem meetUnknown_advanced : meetUnknown byte (m.advanced 1) =
    match m.policy with
    | .strict => .error (.unknownOpcode byte (m.reg .ip)) (m.advanced 1)
    | .permissive => .ok (some (.ignored byte (m.reg .ip))) (m.advanced 1) := by
  have hip : (m.advanced 1).reg .ip - 1 = m.reg .ip := by
    rw [advanced, reg_setReg_self]
    exact UInt16.add_sub_cancel _ _
  rw [meetUnknown, hip]
  rfl

theorem step_of_opcode {op : Opcode} (h : Store.readByte m.store (m.reg .ip).toUInt32 = .ok byte)
    (known : Opcode.ofByte? byte = some op) :
    step m = (decode op >>= apply) (m.advanced 1) := by
  rw [step, bind_of_ok _ (fetchByte_of_ok h), execute, known]

/-- The machine as a step leaves it, whether the step succeeds or faults. -/
def stepped (m : Machine σ) : Machine σ :=
  match step m with
  | .ok _ m => m
  | .error _ m => m

def after : Nat → Machine σ → Machine σ
  | 0, m => m
  | n + 1, m => after n m.stepped

theorem stepped_of_ok {event : Option Event} {m' : Machine σ} (h : step m = .ok event m') :
    m.stepped = m' := by
  rw [stepped, h]

theorem stepped_of_error {fault : Fault} {m' : Machine σ} (h : step m = .error fault m') :
    m.stepped = m' := by
  rw [stepped, h]

/-- The event that the next step tells of. A failed step tells of none. -/
def told (m : Machine σ) : Option Event :=
  match step m with
  | .ok event _ => event
  | .error _ _ => none

theorem told_of_ok {event : Option Event} (h : step m = .ok event m') : m.told = event := by
  rw [told, h]

/-- The events of a row of steps that goes on after its faults. -/
def emitted : Nat → Machine σ → List Event
  | 0, _ => []
  | n + 1, m => m.told.toList ++ emitted n m.stepped

theorem after_induction {P : Machine σ → Prop} (kept : ∀ m, P m → P m.stepped) (start : P m)
    (n : Nat) : P (after n m) := by
  induction n generalizing m with
  | zero => exact start
  | succ n ih => exact ih (kept m start)

def Succeeds (m : Machine σ) : Prop := ∃ event m', step m = .ok event m'

theorem not_succeeds_of_error {fault : Fault} {m' : Machine σ} (h : step m = .error fault m') : ¬ m.Succeeds := by
  rintro ⟨event, left, ok⟩
  cases h.symm.trans ok

theorem all_succeed_next {event : Option Event} {m' : Machine σ}
    (all : ∀ k < n + 1, (after k m).Succeeds) (ok : step m = .ok event m') :
    ∀ k < n, (after k m').Succeeds := by
  intro k hk
  have later := all (k + 1) (Nat.succ_lt_succ hk)
  rwa [after, stepped_of_ok ok] at later

theorem after_succ (n : Nat) (m : Machine σ) : after (n + 1) m = (after n m).stepped := by
  induction n generalizing m with
  | zero => rfl
  | succ n ih => exact ih m.stepped

/-- The step after `k` successful ones faults. -/
structure FaultsAt (m : Machine σ) (k : Nat) (fault : Fault) (left : Machine σ) : Prop where
  before : ∀ j < k, (after j m).Succeeds
  here : step (after k m) = .error fault left

theorem succeeds_or_faults (m : Machine σ) :
    m.Succeeds ∨ ∃ fault left, step m = .error fault left := by
  cases h : step m with
  | ok event m' => exact Or.inl ⟨event, m', h⟩
  | error fault left => exact Or.inr ⟨fault, left, rfl⟩

theorem all_succeed_or_faultsAt (n : Nat) (m : Machine σ) :
    (∀ k < n, (after k m).Succeeds) ∨ ∃ k < n, ∃ fault left, m.FaultsAt k fault left := by
  induction n with
  | zero => exact Or.inl nofun
  | succ n ih =>
    rcases ih with before | ⟨k, hk, first⟩
    · rcases succeeds_or_faults (after n m) with now | ⟨fault, left, now⟩
      · left
        intro k hk
        rcases Nat.lt_succ_iff_lt_or_eq.mp hk with earlier | rfl
        · exact before k earlier
        · exact now
      · exact Or.inr ⟨n, Nat.lt_succ_self n, fault, left, before, now⟩
    · exact Or.inr ⟨k, Nat.lt_succ_of_lt hk, first⟩

theorem FaultsAt.next {k : Nat} {fault : Fault} {left m' : Machine σ} {event : Option Event}
    (first : m.FaultsAt (k + 1) fault left) (ok : step m = .ok event m') :
    m'.FaultsAt k fault left := by
  obtain ⟨before, here⟩ := first
  refine ⟨all_succeed_next before ok, ?_⟩
  rwa [after, stepped_of_ok ok] at here

theorem runOn_add (done : Nat) (events : Array Event) (k : Nat)
    (all : ∀ j < n, (after j m).Succeeds) :
    runOn done events (n + k) m =
      runOn (done + n) (events ++ (emitted n m).toArray) k (after n m) := by
  induction n generalizing done events m with
  | zero => simp [emitted, after]
  | succ n ih =>
    obtain ⟨event, m', ok⟩ : m.Succeeds := all 0 (Nat.succ_pos n)
    have rest := all_succeed_next all ok
    have length : n + 1 + k = n + k + 1 := Nat.add_right_comm n 1 k
    have count : done + (n + 1) = done + 1 + n := Nat.add_right_comm done n 1
    rw [length, runOn, ok, after, emitted, told_of_ok ok, stepped_of_ok ok, count]
    cases event with
    | none => exact ih (done + 1) events rest
    | some event => simpa using ih (done + 1) (events.push event) rest

theorem run_of_all_succeed (all : ∀ k < n, (after k m).Succeeds) :
    run n m = ⟨(emitted n m).toArray, .ok n, after n m⟩ := by
  have ran := runOn_add 0 #[] 0 all
  rwa [runOn, Array.empty_append, Nat.zero_add, Nat.add_zero] at ran

theorem run_of_faultsAt {k : Nat} {fault : Fault} {left : Machine σ} (hk : k < n)
    (first : m.FaultsAt k fault left) : run n m = ⟨(emitted k m).toArray, .error fault, left⟩ := by
  obtain ⟨j, rfl⟩ : ∃ j, n = k + (j + 1) := ⟨n - k - 1, by omega⟩
  have ran := runOn_add 0 #[] (j + 1) first.before
  rwa [runOn, first.here, Array.empty_append] at ran

theorem run_cases (n : Nat) (m : Machine σ) :
    ((∀ k < n, (after k m).Succeeds) ∧ run n m = ⟨(emitted n m).toArray, .ok n, after n m⟩) ∨
      ∃ k < n, ∃ fault left, m.FaultsAt k fault left ∧
        run n m = ⟨(emitted k m).toArray, .error fault, left⟩ := by
  rcases all_succeed_or_faultsAt n m with all | ⟨k, hk, fault, left, first⟩
  · exact Or.inl ⟨all, run_of_all_succeed all⟩
  · exact Or.inr ⟨k, hk, fault, left, first, run_of_faultsAt hk first⟩

theorem run_fault_eq_none_iff : (run n m).fault = none ↔ ∀ k < n, (after k m).Succeeds := by
  rcases run_cases n m with ⟨all, ran⟩ | ⟨k, hk, fault, left, first, ran⟩
  · apply iff_of_true _ all
    rw [ran, Run.fault]
  · apply iff_of_false
    · rw [ran, Run.fault]
      exact nofun
    · exact fun all => not_succeeds_of_error first.here (all k hk)

theorem run_machine (h : (run n m).fault = none) : (run n m).machine = after n m := by
  rw [run_of_all_succeed (run_fault_eq_none_iff.mp h)]

/-- Every run, whether it ends with a fault or not, ends after some number of steps. -/
theorem exists_run_machine_eq (n : Nat) (m : Machine σ) :
    ∃ k ≤ n, (run n m).machine = after k m := by
  rcases run_cases n m with ⟨-, ran⟩ | ⟨k, hk, fault, left, first, ran⟩
  · exact ⟨n, Nat.le_refl n, by rw [ran]⟩
  · exact ⟨k + 1, hk, by rw [ran, after_succ, stepped_of_error first.here]⟩

end FrameMachine.Machine

namespace FrameMachine

def Opcode.fieldsAfter (byte : UInt8) : List OperandKind :=
  match ofByte? byte with
  | some op => op.operands
  | none => []

/-- Of the fields from an address on, those before the first that does not fit. The address
wraps between two fields, but never within one. -/
def Memory.fitting (memory : Memory) (addr : UInt16) : List OperandKind → List OperandKind
  | [] => []
  | kind :: kinds =>
    if addr.toNat + kind.width ≤ memory.size
    then kind :: memory.fitting (addr + UInt16.ofNat kind.width) kinds
    else []

namespace Machine

/-- The bytes that the next step can fetch: the one at `ip`, and the fields after it that fit. -/
def fetchedBytes (m : Machine Memory) : Nat :=
  match m.store.readByte (m.reg .ip).toUInt32 with
  | .error _ => 0
  | .ok byte =>
    1 + OperandKind.widths (m.store.fitting (m.reg .ip + 1) (Opcode.fieldsAfter byte))

/-- The instruction at `ip`, if the byte there is an opcode and all of its fields fit. -/
def upcoming (m : Machine Memory) : Option Instruction :=
  match fetchInstruction m with
  | .ok found _ => found
  | .error _ _ => none

variable {m m' : Machine Memory} {kinds : List OperandKind} {fields : List Operand} {fault : Fault}
  {byte : UInt8} {op : Opcode} {i : Instruction}

theorem fitting_of_fetched (h : fetchOperands kinds m = .ok fields m') :
    m.store.fitting (m.reg .ip) kinds = kinds := by
  induction kinds generalizing m m' fields with
  | nil => rfl
  | cons kind kinds ih =>
    rw [fetchOperands] at h
    by_cases hr : (m.reg .ip).toNat + kind.width ≤ m.store.size
    · rw [bind_of_ok _ (fetchOperand_of_room hr)] at h
      obtain ⟨rest, mid, hrest, -⟩ := bind_eq_ok_iff.mp h
      have hkinds := ih hrest
      rw [reg_ip_advanced] at hkinds
      rw [Memory.fitting, if_pos hr]
      exact congrArg (kind :: ·) hkinds
    · rw [bind_of_error _ (fetchOperand_refused hr)] at h
      cases h

/-- A fetch that ends early has moved `ip` past the fields that fit. -/
theorem left_of_unfetched (h : fetchOperands kinds m = .error fault m') :
    m' = m.advanced (OperandKind.widths (m.store.fitting (m.reg .ip) kinds)) := by
  induction kinds generalizing m with
  | nil => cases h
  | cons kind kinds ih =>
    rw [fetchOperands] at h
    by_cases hr : (m.reg .ip).toNat + kind.width ≤ m.store.size
    · rw [bind_of_ok _ (fetchOperand_of_room hr)] at h
      have hleft := ih (error_of_bind_pure h)
      rw [reg_ip_advanced, advanced_advanced] at hleft
      rw [Memory.fitting, if_pos hr]
      exact hleft
    · rw [bind_of_error _ (fetchOperand_refused hr)] at h
      obtain ⟨-, rfl⟩ := EStateM.Result.error.inj h
      rw [Memory.fitting, if_neg hr]
      exact advanced_zero.symm

theorem fetchedBytes_of_opcode (read : m.store.readByte (m.reg .ip).toUInt32 = .ok byte)
    (known : Opcode.ofByte? byte = some op) : m.fetchedBytes =
      1 + OperandKind.widths ((m.advanced 1).store.fitting ((m.advanced 1).reg .ip) op.operands) := by
  rw [fetchedBytes, read, reg_ip_advanced]
  simp only [Opcode.fieldsAfter, known]
  rfl

theorem upcoming_of_unread (unread : m.store.readByte (m.reg .ip).toUInt32 = .error fault) :
    m.upcoming = none ∧ m.stepped = m.advanced m.fetchedBytes := by
  constructor
  · have hfetch : fetchInstruction m = .error fault m := bind_of_error _ (fetchByte_of_error unread)
    rw [upcoming, hfetch]
  · have none_fetched : m.fetchedBytes = 0 := by rw [fetchedBytes, unread]
    rw [none_fetched, advanced_zero, stepped_of_error (step_of_unread unread)]

theorem upcoming_of_unknown (read : m.store.readByte (m.reg .ip).toUInt32 = .ok byte)
    (unknown : Opcode.ofByte? byte = none) :
    m.upcoming = none ∧ m.stepped = m.advanced m.fetchedBytes := by
  constructor
  · have hfetch : fetchInstruction m = .ok none (m.advanced 1) := by
      rw [fetchInstruction, bind_of_ok _ (fetchByte_of_ok read), unknown]
      rfl
    rw [upcoming, hfetch]
  · have one_fetched : m.fetchedBytes = 1 := by
      rw [fetchedBytes, read]
      simp only [Opcode.fieldsAfter, unknown]
      rfl
    have hstep := (step_of_unknown (m := m) read unknown).trans meetUnknown_advanced
    rw [one_fetched, stepped, hstep]
    cases m.policy with
    | permissive => rfl
    | strict => rfl

theorem upcoming_of_undecoded (read : m.store.readByte (m.reg .ip).toUInt32 = .ok byte)
    (known : Opcode.ofByte? byte = some op) (h : decode op (m.advanced 1) = .error fault m') :
    m.upcoming = none ∧ m.stepped = m.advanced m.fetchedBytes := by
  constructor
  · have hfetch : fetchInstruction m = .error fault m' := by
      rw [fetchInstruction, bind_of_ok _ (fetchByte_of_ok read), known]
      exact bind_of_error _ h
    rw [upcoming, hfetch]
  · have hstep := (step_of_opcode (m := m) read known).trans (bind_of_error _ h)
    have hleft := left_of_unfetched (decode_eq_error h)
    rw [advanced_advanced] at hleft
    rw [stepped_of_error hstep, fetchedBytes_of_opcode read known, hleft]

theorem upcoming_of_decoded (read : m.store.readByte (m.reg .ip).toUInt32 = .ok byte)
    (known : Opcode.ofByte? byte = some op) (h : decode op (m.advanced 1) = .ok i m') :
    m.upcoming = some i ∧ i.opcode.byte = byte ∧ step m = apply i (m.advanced m.fetchedBytes) := by
  obtain ⟨hop, hfields⟩ := decode_eq_ok h
  obtain ⟨hleft, -⟩ := fetchOperands_eq_ok hfields
  refine ⟨?_, ?_, ?_⟩
  · have hfetch : fetchInstruction m = .ok (some i) m' := by
      rw [fetchInstruction, bind_of_ok _ (fetchByte_of_ok read), known]
      exact bind_of_ok _ h
    rw [upcoming, hfetch]
  · rw [hop]
    exact Opcode.byte_of_ofByte? known
  · have hstep := (step_of_opcode (m := m) read known).trans (bind_of_ok _ h)
    rw [advanced_advanced] at hleft
    rw [hstep, fetchedBytes_of_opcode read known, fitting_of_fetched hfields, hleft]

theorem upcoming_cases (m : Machine Memory) :
    (∃ i, m.upcoming = some i ∧ i.Regular ∧
      m.store.readByte (m.reg .ip).toUInt32 = .ok i.opcode.byte ∧
      step m = apply i (m.advanced m.fetchedBytes)) ∨
    (m.upcoming = none ∧ m.stepped = m.advanced m.fetchedBytes) := by
  cases read : m.store.readByte (m.reg .ip).toUInt32 with
  | error fault => exact Or.inr (upcoming_of_unread read)
  | ok byte =>
    cases known : Opcode.ofByte? byte with
    | none => exact Or.inr (upcoming_of_unknown read known)
    | some op =>
      cases h : decode op (m.advanced 1) with
      | error fault left => exact Or.inr (upcoming_of_undecoded read known h)
      | ok i left =>
        obtain ⟨found, rfl, hstep⟩ := upcoming_of_decoded read known h
        exact Or.inl ⟨i, found, regular_of_decode h, rfl, hstep⟩

end Machine

end FrameMachine
