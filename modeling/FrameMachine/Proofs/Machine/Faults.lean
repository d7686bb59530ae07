import FrameMachine.Proofs.Machine.Coupling
import FrameMachine.Proofs.Machine.Steps

/-!
# The faults of execution and the two policies

Which faults the steps of a machine over a memory can raise, from any state. An unknown opcode is
reported under the strict policy only. All other faults are accesses of the memory that leave it,
and no address lies beyond `0x10001`, the highest from which a pop can read. The register file is
never missed. A strict machine beside a permissive one differs in what it tells of a byte that is
no opcode, and in nothing that it does, as long as it goes on after its faults.
-/
namespace FrameMachine.Machine

variable {m m' left : Machine Memory} {i : Instruction} {fault : Fault} {size : Nat}
  {policy : OpcodePolicy}

/-- A refused access to a word within the engine's reach. -/
def WordFault (size : Nat) (fault : Fault) : Prop :=
  ∃ addr, fault = .outOfBounds addr 2 size ∧ size < addr.toNat + 2 ∧ addr.toNat ≤ 0x10001

structure Kept (m m' : Machine Memory) : Prop where
  size : m'.store.size = m.store.size
  policy : m'.policy = m.policy

theorem Kept.trans {a b c : Machine Memory} (h : Kept a b) (h' : Kept b c) : Kept a c :=
  ⟨h'.size.trans h.size, h'.policy.trans h.policy⟩

def itself (size : Nat) (policy : OpcodePolicy) : Coupling Memory Memory where
  stores s t := s = t ∧ s.size = size
  policies p q := p = q ∧ p = policy
  faults := WordFault size

theorem itself_words : (itself size policy).Words where
  same := by
    rintro s t addr ⟨rfl, -⟩ -
    rfl
  fault := by
    rintro s t addr fault ⟨rfl, rfl⟩ reach h
    change s.readWord addr = .error fault at h
    rw [Memory.readWord_eq] at h
    split at h
    case isTrue => cases h
    case isFalse outside =>
      cases h
      exact ⟨addr, rfl, Nat.lt_of_not_le outside, reach⟩
  write := by
    rintro addr value reach s t ⟨rfl, rfl⟩
    have hwrite := s.writeWord_eq addr value
    by_cases inside : addr.toNat + 2 ≤ s.size
    · rw [if_pos inside] at hwrite
      exact Or.inl ⟨(), _, _, hwrite, hwrite, rfl, Memory.size_putWord⟩
    · rw [if_neg inside] at hwrite
      have hfault : WordFault s.size (.outOfBounds addr 2 s.size) :=
        ⟨addr, rfl, Nat.lt_of_not_le inside, Nat.le_trans reach (by decide)⟩
      exact Or.inr ⟨_, s, s, hwrite, hwrite, hfault, rfl, rfl⟩

/-- An instruction whose registers exist faults in the memory only. -/
theorem apply_keeps (regular : i.Regular) (m : Machine Memory) :
    (∃ event m', apply i m = .ok event m' ∧ Kept m m') ∨
      ∃ fault m', apply i m = .error fault m' ∧ WordFault m.store.size fault ∧ Kept m m' := by
  have hslots : ∀ offset, .register offset ∈ i.operands →
      (itself m.store.size m.policy).Slot offset := by
    intro offset hmem
    have inside := regular.inside hmem
    exact Or.inl (by rwa [RegisterFile.cut_of_inside inside])
  have hself : (itself m.store.size m.policy).Machines m m :=
    ⟨rfl, ⟨rfl, rfl⟩, rfl, ⟨rfl, rfl⟩⟩
  rcases itself_words.apply hslots m m hself with
    ⟨event, m', n', hm, hn, h⟩ | ⟨fault, m', n', hm, hn, hfault, h⟩
  · exact Or.inl ⟨event, m', hm, h.store.2, h.policy.2⟩
  · exact Or.inr ⟨fault, m', hm, hfault, h.store.2, h.policy.2⟩

/-- Where the step from a machine fetches a single byte: its opcode, or a narrow field of it. -/
inductive FetchesByte (m : Machine Memory) : UInt16 → Prop where
  | opcode : FetchesByte m (m.reg .ip)
  | field {byte op before kind after} (read : m.store.readByte (m.reg .ip).toUInt32 = .ok byte)
      (known : Opcode.ofByte? byte = some op) (place : op.operands = before ++ kind :: after)
      (narrow : kind.width = 1) :
      FetchesByte m (m.reg .ip + UInt16.ofNat (1 + OperandKind.widths before))

/-- A step from `m` that is refused an access, and what it leaves. -/
structure Refused (m left : Machine Memory) (addr : UInt32) (width : Nat) : Prop where
  outside : m.store.size < addr.toNat + width
  reach : addr.toNat ≤ 0x10001
  width : width = 2 ∨ width = 1 ∧ addr = (left.reg .ip).toUInt32 ∧ FetchesByte m (left.reg .ip)

theorem Refused.size_lt {addr : UInt32} {width : Nat} (h : Refused m left addr width) :
    m.store.size < 0x10003 := by
  have := h.outside
  have := h.reach
  rcases h.width with hw | ⟨hw, -⟩ <;> omega

theorem step_of_no_room (outside : m.store.size < (m.reg .ip).toNat + 1) :
    step m = .error (.outOfBounds (m.reg .ip).toUInt32 1 m.store.size) m ∧
      Refused m m (m.reg .ip).toUInt32 1 := by
  have hread := m.store.readByte_eq (m.reg .ip).toUInt32
  rw [UInt16.toNat_toUInt32, if_neg (Nat.not_le_of_lt outside)] at hread
  refine ⟨step_of_unread hread, ?_, ?_, Or.inr ⟨rfl, rfl, .opcode⟩⟩
  · rwa [UInt16.toNat_toUInt32]
  · exact Nat.le_trans (Coupling.toNat_toUInt32_le _) (by decide)

theorem refused_of_decode {byte : UInt8} {op : Opcode}
    (read : m.store.readByte (m.reg .ip).toUInt32 = .ok byte) (known : Opcode.ofByte? byte = some op)
    (h : decode op (m.advanced 1) = .error fault left) :
    ∃ addr width, fault = .outOfBounds addr width m.store.size ∧ Refused m left addr width ∧
      Kept m left := by
  obtain ⟨before, kind, after, place, rfl, rfl, outside⟩ :=
    fetchOperands_eq_error (decode_eq_error h)
  refine ⟨_, _, rfl, ⟨?_, ?_, ?_⟩, rfl, rfl⟩
  · rw [UInt16.toNat_toUInt32]
    exact outside
  · exact Nat.le_trans (Coupling.toNat_toUInt32_le _) (by decide)
  · rw [advanced_advanced, reg_ip_advanced]
    cases kind with
    | register | shortAddress => exact Or.inr ⟨rfl, rfl, .field read known place rfl⟩
    | literal | address => exact Or.inl rfl

theorem step_of_known_cases {byte : UInt8} {op : Opcode}
    (read : m.store.readByte (m.reg .ip).toUInt32 = .ok byte)
    (known : Opcode.ofByte? byte = some op) :
    (∃ event m', step m = .ok event m' ∧ Kept m m') ∨
      ∃ addr width left, step m = .error (.outOfBounds addr width m.store.size) left ∧
        Refused m left addr width ∧ Kept m left := by
  have hstep := step_of_opcode (m := m) read known
  cases hdecode : decode op (m.advanced 1) with
  | error fault left =>
    rw [bind_of_error _ hdecode] at hstep
    obtain ⟨addr, width, rfl, refused, kept⟩ := refused_of_decode read known hdecode
    exact Or.inr ⟨addr, width, left, hstep, refused, kept⟩
  | ok i mid =>
    rw [bind_of_ok _ hdecode] at hstep
    obtain ⟨rfl, -⟩ := fetchOperands_eq_ok (decode_eq_ok hdecode).2
    rcases apply_keeps (regular_of_decode hdecode) _ with
      ⟨event, m', happly, kept⟩ | ⟨fault, left, happly, ⟨addr, rfl, outside, reach⟩, kept⟩
    · exact Or.inl ⟨event, m', hstep.trans happly, kept.size, kept.policy⟩
    · exact Or.inr ⟨addr, 2, left, hstep.trans happly, ⟨outside, reach, Or.inl rfl⟩,
        kept.size, kept.policy⟩

theorem step_cases (m : Machine Memory) :
    (∃ event m', step m = .ok event m' ∧ Kept m m') ∨
    (∃ byte, step m = .error (.unknownOpcode byte (m.reg .ip)) (m.advanced 1) ∧
      m.policy = .strict ∧ m.store.readByte (m.reg .ip).toUInt32 = .ok byte ∧
      Opcode.ofByte? byte = none) ∨
    ∃ addr width left, step m = .error (.outOfBounds addr width m.store.size) left ∧
      Refused m left addr width ∧ Kept m left := by
  have hread := m.store.readByte_eq (m.reg .ip).toUInt32
  rw [UInt16.toNat_toUInt32] at hread
  by_cases inside : (m.reg .ip).toNat + 1 ≤ m.store.size
  case neg =>
    obtain ⟨hstep, refused⟩ := step_of_no_room (Nat.lt_of_not_le inside)
    exact Or.inr (Or.inr ⟨_, 1, m, hstep, refused, rfl, rfl⟩)
  rw [if_pos inside] at hread
  generalize m.store.bytes.getD (m.reg .ip).toNat 0 = byte at hread
  cases hop : Opcode.ofByte? byte with
  | some op =>
    rcases step_of_known_cases hread hop with done | refused
    · exact Or.inl done
    · exact Or.inr (Or.inr refused)
  | none =>
    have hstep := (step_of_unknown (m := m) hread hop).trans meetUnknown_advanced
    cases hpolicy : m.policy with
    | permissive =>
      rw [hpolicy] at hstep
      exact Or.inl ⟨_, _, hstep, rfl, rfl⟩
    | strict =>
      rw [hpolicy] at hstep
      exact Or.inr (Or.inl ⟨byte, hstep, rfl, hread, hop⟩)

theorem kept_stepped (m : Machine Memory) : Kept m m.stepped := by
  rcases step_cases m with ⟨_, m', h, kept⟩ | ⟨_, h, -⟩ | ⟨_, _, left, h, -, kept⟩
  · rwa [stepped_of_ok h]
  · rw [stepped_of_error h]
    exact ⟨rfl, rfl⟩
  · rwa [stepped_of_error h]

theorem kept_after (m : Machine Memory) (n : Nat) : Kept m (after n m) :=
  after_induction (fun m' h => h.trans (kept_stepped m')) ⟨rfl, rfl⟩ n

theorem step_unknown_iff {byte : UInt8} {addr : UInt16} :
    (∃ left, step m = .error (.unknownOpcode byte addr) left) ↔
      m.policy = .strict ∧ addr = m.reg .ip ∧
      m.store.readByte addr.toUInt32 = .ok byte ∧ Opcode.ofByte? byte = none := by
  constructor
  · rintro ⟨left, hstep⟩
    rcases step_cases m with ⟨_, _, h, -⟩ | ⟨_, h, hpolicy, hread, hop⟩ | ⟨_, _, _, h, -⟩
    · cases hstep.symm.trans h
    · cases hstep.symm.trans h
      exact ⟨hpolicy, rfl, hread, hop⟩
    · cases hstep.symm.trans h
  · rintro ⟨hpolicy, rfl, hread, hop⟩
    have hstep := (step_of_unknown (m := m) hread hop).trans meetUnknown_advanced
    rw [hpolicy] at hstep
    exact ⟨_, hstep⟩

theorem step_refused {addr : UInt32} {width : Nat}
    (h : step m = .error (.outOfBounds addr width size) left) :
    size = m.store.size ∧ Refused m left addr width := by
  rcases step_cases m with ⟨_, _, h', -⟩ | ⟨_, h', -⟩ | ⟨_, _, _, h', refused, -⟩
  · cases h.symm.trans h'
  · cases h.symm.trans h'
  · cases h.symm.trans h'
    exact ⟨rfl, refused⟩

theorem fault_of_permissive (permissive : m.policy = .permissive)
    (h : step m = .error fault left) : ∃ addr width, fault = .outOfBounds addr width m.store.size := by
  rcases step_cases m with ⟨_, _, h', -⟩ | ⟨_, _, strict, -⟩ | ⟨addr, width, _, h', -⟩
  · cases h.symm.trans h'
  · rw [permissive] at strict
    cases strict
  · cases h.symm.trans h'
    exact ⟨addr, width, rfl⟩

/-- A memory that holds all that the engine can reach stops no permissive machine. -/
theorem succeeds_of_large (large : 0x10003 ≤ m.store.size) (permissive : m.policy = .permissive) :
    m.Succeeds := by
  cases h : step m with
  | ok event m' => exact ⟨event, m', h⟩
  | error fault left =>
    obtain ⟨addr, width, rfl⟩ := fault_of_permissive permissive h
    exact absurd (step_refused h).2.size_lt (Nat.not_lt_of_le large)

/-- The faults of any row of steps, failed ones included, from any state of a machine over a
memory. Decoded instructions never miss the register file. A memory of `0x10003` bytes is
large enough for every access, and one of 65536 bytes for all but the words at its end. -/
theorem execution_faults_classified (m : Machine Memory) (n : Nat) :
    let now := after n m
    (∀ byte addr, (∃ left, step now = .error (.unknownOpcode byte addr) left) ↔
      m.policy = .strict ∧ addr = now.reg .ip ∧
      now.store.readByte addr.toUInt32 = .ok byte ∧ Opcode.ofByte? byte = none) ∧
    (∀ fault left, step now = .error fault left →
      (∃ byte addr, fault = .unknownOpcode byte addr) ∨
      ∃ addr width, fault = .outOfBounds addr width m.store.size ∧
        m.store.size < addr.toNat + width ∧ addr.toNat ≤ 0x10001 ∧
        (width = 2 ∨ width = 1 ∧ addr = (left.reg .ip).toUInt32 ∧
          FetchesByte now (left.reg .ip))) ∧
    (∀ op (mid : Machine Memory) i left, decode op mid = .ok i left →
      ∀ offset, .register offset ∈ i.operands → ∀ f : RegisterFile,
        (∃ w, f.readSlot offset = .ok w) ∧ ∀ v, ∃ g, f.writeSlot offset v = .ok g) ∧
    (0x10003 ≤ m.store.size →
      (∀ addr width size left, step now ≠ .error (.outOfBounds addr width size) left) ∧
      (m.policy = .permissive → (run n m).result = .ok n)) ∧
    (m.store.size = 65536 →
      ∀ addr width size left, step now = .error (.outOfBounds addr width size) left →
        width = 2 ∧ (addr = 0xFFFF ∨ addr = 0x10000 ∨ addr = 0x10001)) := by
  intro now
  have kept : Kept m now := kept_after m n
  refine ⟨fun byte addr => ?_, fun fault left h => ?_, fun op mid i left h => ?_,
    fun large => ⟨fun addr width size left h => ?_, fun permissive => ?_⟩,
    fun full addr width size left h => ?_⟩
  · rw [← kept.policy]
    exact step_unknown_iff
  · rcases step_cases now with ⟨_, _, h', -⟩ | ⟨_, h', -⟩ | ⟨addr, width, _, h', refused, -⟩
    · cases h.symm.trans h'
    · cases h.symm.trans h'
      exact Or.inl ⟨_, _, rfl⟩
    · cases h.symm.trans h'
      exact Or.inr ⟨addr, width, by rw [kept.size], kept.size ▸ refused.outside, refused.reach,
        refused.width⟩
  · intro offset hmem f
    have inside := (regular_of_decode h).inside hmem
    exact ⟨⟨_, f.readSlot_of_inside inside⟩, fun v => ⟨_, f.writeSlot_of_inside v inside⟩⟩
  · have hsize := (step_refused h).2.size_lt
    rw [kept.size] at hsize
    exact Nat.not_lt_of_le large hsize
  · rw [run_of_all_succeed]
    intro k _
    have hk := kept_after m k
    exact succeeds_of_large (hk.size ▸ large) (hk.policy.trans permissive)
  · obtain ⟨-, refused⟩ := step_refused h
    have outside := refused.outside
    rw [kept.size, full] at outside
    have reach := refused.reach
    rcases refused.width with rfl | ⟨rfl, rfl, -⟩
    · refine ⟨rfl, ?_⟩
      simp only [← UInt32.toNat_inj, UInt32.reduceToNat]
      omega
    · have := Coupling.toNat_toUInt32_le (left.reg .ip)
      omega

end FrameMachine.Machine

namespace FrameMachine

theorem Event.message_ignored (byte : UInt8) (addr : UInt16) :
    (Event.ignored byte addr).message = "ignoring unknown opcode 0x" ++
      Numeral.upperHex 2 byte.toNat ++ " at 0x" ++ Numeral.upperHex 4 addr.toNat := by
  have hopcode : "ignoring unknown opcode 0x" = "ignoring unknown opcode " ++ "0x" := by decide
  have haddr : " at 0x" = " at " ++ "0x" := by decide
  change "ignoring unknown opcode " ++ ("0x" ++ Numeral.upperHex 2 byte.toNat) ++ " at " ++
    ("0x" ++ Numeral.upperHex 4 addr.toNat) = _
  rw [hopcode, haddr]
  simp only [String.append_assoc]

namespace Machine

variable {σ : Type} [Store σ] {s p : Machine σ} {n : Nat}

/-- The byte at `ip` can be read and is no opcode. -/
def MeetsUnknown (m : Machine σ) (byte : UInt8) : Prop :=
  Store.readByte m.store (m.reg .ip).toUInt32 = .ok byte ∧ Opcode.ofByte? byte = none

/-- A strict machine beside a permissive one that is like it. -/
def rivals : Coupling σ σ where
  stores s t := s = t
  policies p q := p = .strict ∧ q = .permissive
  faults _ := True

omit [Store σ] in
theorem rivals_machines_iff : rivals.Machines s p ↔
    s = { p with policy := .strict } ∧ p.policy = .permissive := by
  constructor
  · rintro ⟨hregs, hstore, hwords, hs, hp⟩
    obtain ⟨f, store, words, policy⟩ := s
    cases hregs
    cases hstore
    cases hwords
    cases hs
    exact ⟨rfl, hp⟩
  · rintro ⟨rfl, hp⟩
    exact ⟨rfl, rfl, rfl, rfl, hp⟩

theorem rivals_bytes : (rivals (σ := σ)).Bytes := Coupling.bytes_of_eq rfl fun _ => trivial

theorem rivals_words : (rivals (σ := σ)).Words := Coupling.words_of_eq rfl fun _ => trivial

theorem rivals_read (h : rivals.Machines s p) :
    Store.readByte s.store (s.reg .ip).toUInt32 = Store.readByte p.store (p.reg .ip).toUInt32 := by
  obtain ⟨rfl, -⟩ := rivals_machines_iff.mp h
  rfl

omit [Store σ] in
theorem rivals_advanced (h : rivals.Machines s p) (k : Nat) :
    rivals.Machines (s.advanced k) (p.advanced k) := by
  obtain ⟨rfl, hp⟩ := rivals_machines_iff.mp h
  exact ⟨rfl, rfl, rfl, rfl, hp⟩

theorem rivals_step_of_unknown (h : rivals.Machines s p) {byte : UInt8}
    (unknown : p.MeetsUnknown byte) :
    step s = .error (.unknownOpcode byte (s.reg .ip)) (s.advanced 1) ∧
      step p = .ok (some (.ignored byte (p.reg .ip))) (p.advanced 1) := by
  obtain ⟨hread, hop⟩ := unknown
  constructor
  · rw [step_of_unknown ((rivals_read h).trans hread) hop, meetUnknown_advanced, h.policy.1]
  · rw [step_of_unknown hread hop, meetUnknown_advanced, h.policy.2]

theorem rivals_step_of_known (h : rivals.Machines s p) (known : ∀ byte, ¬ p.MeetsUnknown byte) :
    rivals.Results (step s) (step p) := by
  cases hread : Store.readByte p.store (p.reg .ip).toUInt32 with
  | error fault =>
    have hs := step_of_unread ((rivals_read h).trans hread)
    exact Or.inr ⟨fault, s, p, hs, step_of_unread hread, trivial, h⟩
  | ok byte =>
    cases hop : Opcode.ofByte? byte with
    | none => exact absurd ⟨hread, hop⟩ (known byte)
    | some op =>
      rw [step_of_opcode ((rivals_read h).trans hread) hop, step_of_opcode hread hop]
      exact Coupling.actions_executeOpcode rivals_bytes rivals_words (fun _ => Or.inr trivial) op
        _ _ (rivals_advanced h 1)

theorem rivals_stepped (h : rivals.Machines s p) : rivals.Machines s.stepped p.stepped := by
  by_cases unknown : ∃ byte, p.MeetsUnknown byte
  · obtain ⟨byte, unknown⟩ := unknown
    obtain ⟨hs, hp⟩ := rivals_step_of_unknown h unknown
    rw [stepped_of_error hs, stepped_of_ok hp]
    exact rivals_advanced h 1
  · rcases rivals_step_of_known h (not_exists.mp unknown) with
      ⟨_, s', p', hs, hp, h'⟩ | ⟨_, s', p', hs, hp, -, h'⟩
    · rwa [stepped_of_ok hs, stepped_of_ok hp]
    · rwa [stepped_of_error hs, stepped_of_error hp]

theorem rivals_after (h : rivals.Machines s p) (n : Nat) :
    rivals.Machines (after n s) (after n p) := by
  induction n generalizing s p with
  | zero => exact h
  | succ n ih => exact ih (rivals_stepped h)

theorem rivals_succeeds_iff (h : rivals.Machines s p) :
    s.Succeeds ↔ p.Succeeds ∧ ∀ byte, ¬ p.MeetsUnknown byte := by
  by_cases unknown : ∃ byte, p.MeetsUnknown byte
  · obtain ⟨byte, unknown⟩ := unknown
    obtain ⟨hs, -⟩ := rivals_step_of_unknown h unknown
    exact iff_of_false (not_succeeds_of_error hs) fun hp => hp.2 byte unknown
  · have known := not_exists.mp unknown
    rcases rivals_step_of_known h known with
      ⟨event, s', p', hs, hp, -⟩ | ⟨_, s', p', hs, hp, -, -⟩
    · exact iff_of_true ⟨event, s', hs⟩ ⟨⟨event, p', hp⟩, known⟩
    · exact iff_of_false (not_succeeds_of_error hs) fun h => not_succeeds_of_error hp h.1

theorem rivals_run_iff (h : rivals.Machines s p) : (run n s).fault = none ↔
    (run n p).fault = none ∧ ∀ k < n, ∀ byte, ¬ (after k p).MeetsUnknown byte := by
  simp only [run_fault_eq_none_iff, fun k => rivals_succeeds_iff (rivals_after h k)]
  exact ⟨fun hs => ⟨fun k hk => (hs k hk).1, fun k hk => (hs k hk).2⟩,
    fun hp k hk => ⟨hp.1 k hk, hp.2 k hk⟩⟩

/-- Two machines that start alike but for the policy stay so, step after step and past their
faults. A strict run succeeds where the permissive one does without a byte skipped. -/
theorem policies_run_in_lockstep (f : RegisterFile) (store : Memory) (words : UInt16) (n : Nat) :
    let strict : Machine Memory := ⟨f, store, words, .strict⟩
    let permissive : Machine Memory := ⟨f, store, words, .permissive⟩
    let s := after n strict
    let p := after n permissive
    s = { p with policy := .strict } ∧
    (∀ byte, p.MeetsUnknown byte →
      let record := Event.ignored byte (p.reg .ip)
      step s = .error (.unknownOpcode byte (s.reg .ip)) (s.setReg .ip (s.reg .ip + 1)) ∧
      step p = .ok (some record) (p.setReg .ip (p.reg .ip + 1)) ∧
      record.level = .debug ∧
      record.message = "ignoring unknown opcode 0x" ++ Numeral.upperHex 2 byte.toNat ++ " at 0x" ++
        Numeral.upperHex 4 (p.reg .ip).toNat) ∧
    ((∀ byte, ¬ p.MeetsUnknown byte) →
      (∃ event s' p', step s = .ok event s' ∧ step p = .ok event p') ∨
      ∃ addr width size s' p', step s = .error (.outOfBounds addr width size) s' ∧
        step p = .error (.outOfBounds addr width size) p') ∧
    ((run n strict).fault = none ↔ (run n permissive).fault = none ∧
      ∀ k < n, ∀ byte, ¬ (after k permissive).MeetsUnknown byte) ∧
    ((run n strict).fault = none →
      (run n strict).machine = { (run n permissive).machine with policy := .strict }) := by
  intro strict permissive s p
  have hstart : rivals.Machines strict permissive := rivals_machines_iff.mpr ⟨rfl, rfl⟩
  have h : rivals.Machines s p := rivals_after hstart n
  have hrun := rivals_run_iff (n := n) hstart
  refine ⟨(rivals_machines_iff.mp h).1, fun byte unknown => ?_, fun known => ?_, hrun, fun hs => ?_⟩
  · obtain ⟨hs, hp⟩ := rivals_step_of_unknown h unknown
    exact ⟨hs, hp, rfl, Event.message_ignored _ _⟩
  · rcases rivals_step_of_known h known with
      ⟨event, s', p', hs, hp, -⟩ | ⟨fault, s', p', hs, hp, -, -⟩
    · exact Or.inl ⟨event, s', p', hs, hp⟩
    · obtain ⟨addr, width, rfl⟩ := fault_of_permissive h.policy.2 hp
      exact Or.inr ⟨addr, width, _, s', p', hs, hp⟩
  · rw [run_machine hs, run_machine (hrun.mp hs).1]
    exact (rivals_machines_iff.mp h).1

end Machine

end FrameMachine
