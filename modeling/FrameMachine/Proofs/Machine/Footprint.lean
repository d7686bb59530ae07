import FrameMachine.Proofs.Machine.Coupling
import FrameMachine.Proofs.Machine.Steps
import FrameMachine.Proofs.Stack.Frame

/-!
# Footprints and reach

What a step may change, told before it from the instruction at `ip` and from `sp`. It does not
matter whether the step goes through: one that stops half-way has changed less of the same. A
destination may be any register, `ip`, `sp` and `fp` included, and the words of a call go on at the
top of the 16-bit range when `sp` wraps.

Addresses have 16 bits, but they do not all wrap in the same place. The second byte of a word may
lie one further, and a pop may read a word that begins two further. No step writes from `0x10001`
on, and none reads from `0x10003` on: what lies there neither changes nor matters.
-/
namespace FrameMachine

/-- What may change besides `ip`, which every step may move. -/
structure Footprint where
  bytes : List Nat
  registers : List Register
  counter : Bool
  deriving DecidableEq, Repr

/-- The second byte of a word does not wrap. -/
def wordBytes (addr : UInt16) : List Nat := [addr.toNat, addr.toNat + 1]

/-- The ten words of a call, from `sp` downwards. -/
def callBytes (sp : UInt16) : List Nat :=
  (List.range 10).flatMap fun k => wordBytes (sp - 2 * UInt16.ofNat k)

def Register.atOffset (offset : Nat) : List Register := all.filter fun r => r.offset = offset

def Instruction.footprint (sp : UInt16) : Instruction → Footprint
  | movLitReg _ dst => ⟨[], Register.atOffset dst, false⟩
  | movRegReg _ dst => ⟨[], Register.atOffset dst, false⟩
  | movRegMem _ addr => ⟨wordBytes addr, [], false⟩
  | movMemReg _ dst => ⟨[], Register.atOffset dst, false⟩
  | addRegReg .. => ⟨[], [.acc], false⟩
  | jmpNotEq .. => ⟨[], [], false⟩
  | pshLit _ => ⟨wordBytes sp, [.sp], true⟩
  | pshReg _ => ⟨wordBytes sp, [.sp], true⟩
  | popReg dst => ⟨[], .sp :: Register.atOffset dst, true⟩
  | calLit _ => ⟨callBytes sp, [.sp, .fp], true⟩
  | calReg _ => ⟨callBytes sp, [.sp, .fp], true⟩
  | ret => ⟨[], .sp :: .fp :: Register.saved, true⟩

/-- What the next step may change: `ip` alone if no instruction lies there. -/
def Machine.footprint (m : Machine Memory) : Footprint :=
  match m.upcoming with
  | some i => i.footprint (m.reg .sp)
  | none => ⟨[], [], false⟩

namespace Footprint

/-- From one machine to the other nothing has changed but what is in the footprint. -/
structure Confines (f : Footprint) (m m' : Machine Memory) : Prop where
  bytes : ∀ k, k ∉ f.bytes → m'.store.bytes[k]? = m.store.bytes[k]?
  registers : ∀ r, r ≠ .ip → r ∉ f.registers → m'.reg r = m.reg r
  frameWords : f.counter = false → m'.frameWords = m.frameWords
  size : m'.store.size = m.store.size
  policy : m'.policy = m.policy

variable {f : Footprint} {m m' a b c : Machine Memory} {r : Register} {v : UInt16}

theorem Confines.refl (f : Footprint) (m : Machine Memory) : f.Confines m m :=
  ⟨fun _ _ => rfl, fun _ _ _ => rfl, fun _ => rfl, rfl, rfl⟩

theorem Confines.trans (h : f.Confines a b) (h' : f.Confines b c) : f.Confines a c := by
  constructor
  · intro k hk
    rw [h'.bytes k hk, h.bytes k hk]
  · intro r hip hr
    rw [h'.registers r hip hr, h.registers r hip hr]
  · intro hcount
    rw [h'.frameWords hcount, h.frameWords hcount]
  · rw [h'.size, h.size]
  · rw [h'.policy, h.policy]

theorem confines_setReg (h : r = .ip ∨ r ∈ f.registers) : f.Confines m (m.setReg r v) := by
  refine ⟨fun _ _ => rfl, ?_, fun _ => rfl, rfl, rfl⟩
  intro s hip hs
  apply Machine.reg_setReg_of_ne
  rintro rfl
  rcases h with rfl | hr
  · exact hip rfl
  · exact hs hr

theorem confines_advanced (n : Nat) : f.Confines m (m.advanced n) := confines_setReg (Or.inl rfl)

theorem confines_frameWords (counts : f.counter = true) :
    f.Confines m { m with frameWords := v } := by
  refine ⟨fun _ _ => rfl, fun _ _ _ => rfl, ?_, rfl, rfl⟩
  rw [counts]
  exact nofun

theorem confines_putWord {addr : UInt16} (h : wordBytes addr ⊆ f.bytes) :
    f.Confines m { m with store := m.store.putWord addr.toNat v } := by
  refine ⟨?_, fun _ _ _ => rfl, fun _ => rfl, Memory.size_putWord, rfl⟩
  intro k hk
  have hfirst : k ≠ addr.toNat := fun e => hk (h (e ▸ List.mem_cons_self))
  have hsecond : k ≠ addr.toNat + 1 := fun e => hk (h (e ▸ by simp [wordBytes]))
  exact Memory.byte_putWord_of_apart (by omega)

/-- The footprint covers what every push and pop moves. -/
structure Stacks (f : Footprint) : Prop where
  sp : .sp ∈ f.registers
  counter : f.counter = true

theorem Stacks.pushed (h : f.Stacks) (hbytes : wordBytes (m.reg .sp) ⊆ f.bytes) :
    f.Confines m (m.pushed v) := by
  have hword : f.Confines m { m with store := m.store.putWord (m.reg .sp).toNat v } :=
    confines_putWord hbytes
  have hsp : f.Confines _ (Machine.setReg _ .sp (m.reg .sp - 2)) :=
    hword.trans (confines_setReg (Or.inr h.sp))
  exact hsp.trans (confines_frameWords h.counter)

theorem Stacks.popped (h : f.Stacks) : f.Confines m m.popped := by
  have hsp : f.Confines m (m.setReg .sp (m.reg .sp + 2)) := confines_setReg (Or.inr h.sp)
  exact hsp.trans (confines_frameWords h.counter)

/-- An action that starts from `m` stays within the footprint, whether it goes through or not. -/
def Bounds {α : Type} (f : Footprint) (x : Action Memory α) (m : Machine Memory) : Prop :=
  match x m with
  | .ok _ m' => f.Confines m m'
  | .error _ m' => f.Confines m m'

variable {α β : Type} {x : Action Memory α} {g : α → Action Memory β}

theorem Bounds.of_ok {u : α} (h : f.Bounds x m) (ok : x m = .ok u m') : f.Confines m m' := by
  unfold Bounds at h
  rwa [ok] at h

theorem Bounds.of_error {fault : Fault} (h : f.Bounds x m) (failed : x m = .error fault m') :
    f.Confines m m' := by
  unfold Bounds at h
  rwa [failed] at h

theorem Bounds.bind (hx : f.Bounds x m) (hg : ∀ u m', x m = .ok u m' → f.Bounds (g u) m') :
    f.Bounds (x >>= g) m := by
  unfold Bounds
  cases h : x m with
  | error fault mid =>
    rw [Machine.bind_of_error g h]
    exact hx.of_error h
  | ok u mid =>
    have first := hx.of_ok h
    have second := hg u mid h
    rw [Machine.bind_of_ok g h]
    cases h' : g u mid with
    | ok w m' => exact first.trans (second.of_ok h')
    | error fault m' => exact first.trans (second.of_error h')

theorem bounds_pure (u : α) : f.Bounds (pure u) m := Confines.refl f m

theorem Bounds.bind_pure (hx : f.Bounds x m) (u : α → β) :
    f.Bounds (x >>= fun a => pure (u a)) m := by
  apply hx.bind
  intro a m' _
  exact bounds_pure (u a)

theorem bounds_look (view : Machine Memory → α) : f.Bounds (Machine.look view) m :=
  Confines.refl f m

theorem bounds_attempt_bind {view : Machine Memory → Except Fault α}
    (hg : ∀ u, f.Bounds (g u) m) : f.Bounds (Machine.attempt view >>= g) m := by
  cases h : view m with
  | ok u =>
    have looked : Machine.attempt view m = .ok u m := by rw [Machine.attempt, h]
    unfold Bounds
    rw [Machine.bind_of_ok g looked]
    exact hg u
  | error fault =>
    have looked : Machine.attempt view m = .error fault m := by rw [Machine.attempt, h]
    unfold Bounds
    rw [Machine.bind_of_error g looked]
    exact Confines.refl f m

theorem bounds_putReg (h : r = .ip ∨ r ∈ f.registers) : f.Bounds (Machine.putReg r v) m :=
  confines_setReg h

theorem bounds_setFrameWords (counts : f.counter = true) :
    f.Bounds (Machine.setFrameWords v) m := confines_frameWords counts

theorem bounds_writeWord {addr : UInt16} (h : wordBytes addr ⊆ f.bytes) :
    f.Bounds (Machine.writeWord addr.toUInt32 v) m := by
  unfold Bounds
  rw [Machine.writeWord_apply, UInt16.toNat_toUInt32]
  by_cases room : addr.toNat + 2 ≤ m.store.size
  · rw [if_pos room]
    exact confines_putWord h
  · rw [if_neg room]
    exact Confines.refl f m

theorem Stacks.push (h : f.Stacks) (hbytes : wordBytes (m.reg .sp) ⊆ f.bytes) :
    f.Bounds (Machine.push v) m := by
  unfold Bounds
  rw [Machine.push_apply]
  by_cases room : (m.reg .sp).toNat + 2 ≤ m.store.size
  · rw [if_pos room]
    exact h.pushed hbytes
  · rw [if_neg room]
    exact Confines.refl f m

theorem Stacks.pop (h : f.Stacks) : f.Bounds Machine.pop m := by
  unfold Bounds
  rw [Machine.pop_apply]
  by_cases room : (m.reg .sp).toNat + 4 ≤ m.store.size
  · rw [if_pos room]
    exact h.popped
  · rw [if_neg room]
    exact Confines.refl f m

theorem Stacks.popRegisters (h : f.Stacks) {rs : List Register} (hrs : rs ⊆ f.registers) :
    f.Bounds (Machine.popRegisters rs) m := by
  induction rs generalizing m with
  | nil => exact bounds_pure ()
  | cons r rs ih =>
    have hr : r ∈ f.registers := hrs List.mem_cons_self
    have hrest : rs ⊆ f.registers := fun s hs => hrs (List.mem_cons_of_mem _ hs)
    apply h.pop.bind
    intro value m' _
    apply (bounds_putReg (Or.inr hr)).bind
    intro _ m'' _
    exact ih hrest

theorem Stacks.discard (h : f.Stacks) (n : Nat) : f.Bounds (Machine.discard n) m := by
  induction n generalizing m with
  | zero => exact bounds_pure ()
  | succ n ih =>
    apply h.pop.bind
    intro _ m' _
    exact ih

theorem Stacks.pushAll (h : f.Stacks) {vs : List UInt16}
    (hbytes : ∀ k < vs.length, wordBytes (m.reg .sp - 2 * UInt16.ofNat k) ⊆ f.bytes) :
    f.Bounds (Machine.pushAll vs) m := by
  induction vs generalizing m with
  | nil => exact bounds_pure ()
  | cons v vs ih =>
    have here := hbytes 0 (Nat.succ_pos _)
    have hzero : m.reg .sp - 2 * UInt16.ofNat 0 = m.reg .sp := by simp
    rw [hzero] at here
    apply (h.push here).bind
    intro _ m' ok
    obtain ⟨-, rfl⟩ := Machine.push_eq_ok_iff.mp ok
    apply ih
    intro k hk
    -- seen from below the first word, the next word is the first one
    have below := hbytes (k + 1) (Nat.succ_lt_succ hk)
    have hnext : m.reg .sp - 2 * UInt16.ofNat (k + 1) =
        m.reg .sp - 2 - 2 * UInt16.ofNat k := by
      rw [UInt16.ofNat_add]
      grind
    rwa [hnext, ← Machine.reg_sp_pushed (v := v)] at below

theorem Stacks.pushState (h : f.Stacks) (hfp : .fp ∈ f.registers)
    (hbytes : ∀ k < 10, wordBytes (m.reg .sp - 2 * UInt16.ofNat k) ⊆ f.bytes) :
    f.Bounds Machine.pushState m := by
  have hall : f.Bounds (Machine.pushAll m.prologue) m := h.pushAll hbytes
  unfold Bounds
  rw [Machine.pushState_apply]
  cases hpush : Machine.pushAll m.prologue m with
  | error fault left => exact hall.of_error hpush
  | ok _ p =>
    have hp := hall.of_ok hpush
    rw [Machine.pushAll_eq_ok hpush] at hp
    have hentered := hp.trans (confines_setReg (v := m.reg .sp - 20) (Or.inr hfp))
    exact hentered.trans (confines_frameWords h.counter)

theorem Stacks.popState (h : f.Stacks) (hfp : .fp ∈ f.registers)
    (hsaved : Register.saved ⊆ f.registers) : f.Bounds Machine.popState m := by
  have hreverse : Register.saved.reverse ⊆ f.registers :=
    fun r hr => hsaved (List.mem_reverse.mp hr)
  apply (bounds_look _).bind
  intro frame _ _
  apply (bounds_putReg (Or.inr h.sp)).bind
  intro _ _ _
  apply h.pop.bind
  intro marker _ _
  apply (bounds_setFrameWords h.counter).bind
  intro _ _ _
  apply h.pop.bind
  intro target _ _
  apply (bounds_putReg (Or.inl rfl)).bind
  intro _ _ _
  apply (h.popRegisters hreverse).bind
  intro _ _ _
  apply h.pop.bind
  intro args _ _
  apply (h.discard args.toNat).bind
  intro _ _ _
  exact (bounds_putReg (Or.inr hfp)).bind_pure _

variable {i : Instruction}

theorem exists_register (regular : i.Regular) (offset : Nat)
    (hmem : .register offset ∈ i.operands) : ∃ r : Register, offset = r.offset := by
  -- decoded offsets are even and at most that of the last register
  obtain ⟨heven, hle⟩ := regular offset hmem
  obtain ⟨r, index⟩ := Register.exists_index (show offset / 2 < 12 by omega)
  refine ⟨r, ?_⟩
  rw [Register.offset, index]
  omega

theorem mem_atOffset (r : Register) : r ∈ Register.atOffset r.offset := by
  simp [Register.atOffset, Register.mem_all]

theorem bounds_putSlot (h : r ∈ f.registers) : f.Bounds (Machine.putSlot r.offset v) m := by
  have hslot : m.registers.writeSlot r.offset v = .ok (m.registers.set r v) :=
    RegisterFile.writeSlot_of_inside _ _ r.offset_add_one_lt
  have hput : Machine.putSlot r.offset v m = .ok () (m.setReg r v) := by
    rw [Machine.putSlot, hslot]
    rfl
  unfold Bounds
  rw [hput]
  exact confines_setReg (Or.inr h)

theorem wordBytes_subset_callBytes {sp : UInt16} {k : Nat} (hk : k < 10) :
    wordBytes (sp - 2 * UInt16.ofNat k) ⊆ callBytes sp := by
  intro b hb
  exact List.mem_flatMap.mpr ⟨k, List.mem_range.mpr hk, hb⟩

theorem bounds_call (h : f.Stacks) (hfp : .fp ∈ f.registers)
    (hbytes : callBytes (m.reg .sp) ⊆ f.bytes) (target : UInt16) :
    f.Bounds (Machine.call target) m := by
  have hwords : ∀ k < 10, wordBytes (m.reg .sp - 2 * UInt16.ofNat k) ⊆ f.bytes :=
    fun k hk b hb => hbytes (wordBytes_subset_callBytes hk hb)
  apply (h.pushState hfp hwords).bind
  intro event _ _
  exact (bounds_putReg (Or.inl rfl)).bind_pure _

theorem bounds_apply (regular : i.Regular) (m : Machine Memory) :
    (i.footprint (m.reg .sp)).Bounds (Machine.apply i) m := by
  cases i with
  | movLitReg value dst =>
    obtain ⟨r, rfl⟩ := exists_register regular dst (by simp [Instruction.operands])
    exact (bounds_putSlot (mem_atOffset r)).bind_pure _
  | movRegReg src dst =>
    obtain ⟨r, rfl⟩ := exists_register regular dst (by simp [Instruction.operands])
    apply bounds_attempt_bind
    intro value
    exact (bounds_putSlot (mem_atOffset r)).bind_pure _
  | movRegMem src addr =>
    apply bounds_attempt_bind
    intro value
    exact (bounds_writeWord (List.Subset.refl _)).bind_pure _
  | movMemReg addr dst =>
    obtain ⟨r, rfl⟩ := exists_register regular dst (by simp [Instruction.operands])
    apply bounds_attempt_bind
    intro value
    exact (bounds_putSlot (mem_atOffset r)).bind_pure _
  | addRegReg lhs rhs =>
    apply bounds_attempt_bind
    intro a
    apply bounds_attempt_bind
    intro b
    exact (bounds_putReg (Or.inr List.mem_cons_self)).bind_pure _
  | jmpNotEq value target =>
    apply (bounds_look _).bind
    intro acc _ _
    by_cases differ : value ≠ acc
    · simp only [if_pos differ]
      exact (bounds_putReg (Or.inl rfl)).bind_pure _
    · simp only [if_neg differ]
      exact bounds_pure none
  | pshLit value =>
    have stack : ((Instruction.pshLit value).footprint (m.reg .sp)).Stacks :=
      ⟨List.mem_cons_self, rfl⟩
    exact (stack.push (List.Subset.refl _)).bind_pure _
  | pshReg src =>
    have stack : ((Instruction.pshReg src).footprint (m.reg .sp)).Stacks :=
      ⟨List.mem_cons_self, rfl⟩
    apply bounds_attempt_bind
    intro value
    exact (stack.push (List.Subset.refl _)).bind_pure _
  | popReg dst =>
    have stack : ((Instruction.popReg dst).footprint (m.reg .sp)).Stacks :=
      ⟨List.mem_cons_self, rfl⟩
    obtain ⟨r, rfl⟩ := exists_register regular dst (by simp [Instruction.operands])
    apply stack.pop.bind
    intro value _ _
    exact (bounds_putSlot (List.mem_cons_of_mem _ (mem_atOffset r))).bind_pure _
  | calLit target =>
    have stack : ((Instruction.calLit target).footprint (m.reg .sp)).Stacks :=
      ⟨List.mem_cons_self, rfl⟩
    have hfp : .fp ∈ (Instruction.footprint (m.reg .sp) (.calLit target)).registers := by
      simp [Instruction.footprint]
    exact (bounds_call stack hfp (List.Subset.refl _) target).bind_pure _
  | calReg src =>
    have stack : ((Instruction.calReg src).footprint (m.reg .sp)).Stacks :=
      ⟨List.mem_cons_self, rfl⟩
    apply bounds_attempt_bind
    intro target
    have hfp : .fp ∈ (Instruction.footprint (m.reg .sp) (.calReg src)).registers := by
      simp [Instruction.footprint]
    exact (bounds_call stack hfp (List.Subset.refl _) target).bind_pure _
  | ret =>
    have stack : (Instruction.ret.footprint (m.reg .sp)).Stacks := ⟨List.mem_cons_self, rfl⟩
    have hsaved : Register.saved ⊆ (Instruction.ret.footprint (m.reg .sp)).registers :=
      fun r hr => List.mem_cons_of_mem _ (List.mem_cons_of_mem _ hr)
    exact (stack.popState (by simp [Instruction.footprint]) hsaved).bind_pure _

theorem Bounds.stepped {x : Action Memory (Option Event)} (h : f.Bounds x m)
    (hstep : Machine.step a = x m) : f.Confines m a.stepped := by
  cases hx : x m with
  | ok event m' =>
    rw [Machine.stepped_of_ok (hstep.trans hx)]
    exact h.of_ok hx
  | error fault m' =>
    rw [Machine.stepped_of_error (hstep.trans hx)]
    exact h.of_error hx

end Footprint

namespace Machine

variable {m : Machine Memory} {k n : Nat}

theorem confines_stepped (m : Machine Memory) : m.footprint.Confines m m.stepped := by
  unfold footprint
  rcases upcoming_cases m with ⟨i, found, regular, -, hstep⟩ | ⟨missing, hstep⟩
  · rw [found]
    have hsp : (m.advanced m.fetchedBytes).reg .sp = m.reg .sp := reg_setReg_of_ne nofun
    have happly := Footprint.bounds_apply regular (m.advanced m.fetchedBytes)
    rw [hsp] at happly
    exact (Footprint.confines_advanced _).trans (happly.stepped hstep)
  · rw [missing, hstep]
    exact Footprint.confines_advanced _

theorem byte_after (h : ∀ j < n, k ∉ (after j m).footprint.bytes) :
    (after n m).store.bytes[k]? = m.store.bytes[k]? := by
  induction n with
  | zero => rfl
  | succ n ih =>
    have before := ih fun j hj => h j (Nat.lt_succ_of_lt hj)
    have now := (confines_stepped (after n m)).bytes k (h n (Nat.lt_succ_self n))
    rw [after_succ, now, before]

/-- A step, also one that faults, changes nothing but `ip` and what is in the footprint of the
instruction at `ip`. -/
theorem steps_stay_in_footprint (m : Machine Memory) :
    (∀ k, k ∉ m.footprint.bytes → m.stepped.store.bytes[k]? = m.store.bytes[k]?) ∧
    (∀ r, r ≠ .ip → r ∉ m.footprint.registers → m.stepped.reg r = m.reg r) ∧
    (m.footprint.counter = false → m.stepped.frameWords = m.frameWords) ∧
    m.stepped.store.size = m.store.size ∧ m.stepped.policy = m.policy ∧
    (m.footprint = ⟨[], [], false⟩ ∨ ∃ i, m.footprint = i.footprint (m.reg .sp) ∧
      m.store.readByte (m.reg .ip).toUInt32 = .ok i.opcode.byte ∧
      step m = apply i (m.advanced m.fetchedBytes)) := by
  have h := confines_stepped m
  refine ⟨h.bytes, h.registers, h.frameWords, h.size, h.policy, ?_⟩
  unfold footprint
  rcases upcoming_cases m with ⟨i, found, -, read, hstep⟩ | ⟨missing, -⟩
  · rw [found]
    exact Or.inr ⟨i, rfl, read, hstep⟩
  · rw [missing]
    exact Or.inl rfl

end Machine

theorem wordBytes_le {addr : UInt16} {k : Nat} (h : k ∈ wordBytes addr) : k ≤ 0x10000 := by
  have haddr := addr.toNat_lt
  simp only [wordBytes, List.mem_cons, List.not_mem_nil, or_false] at h
  omega

theorem callBytes_le {sp : UInt16} {k : Nat} (h : k ∈ callBytes sp) : k ≤ 0x10000 := by
  obtain ⟨j, -, hk⟩ := List.mem_flatMap.mp h
  exact wordBytes_le hk

/-- The bound is met: a call that wraps can push a word to the top address. -/
example : 0x10000 ∈ callBytes 1 := by decide

theorem Instruction.footprint_le {i : Instruction} {sp : UInt16} {k : Nat}
    (h : k ∈ (i.footprint sp).bytes) : k ≤ 0x10000 := by
  cases i with
  | movRegMem src addr => exact wordBytes_le h
  | pshLit value => exact wordBytes_le h
  | pshReg src => exact wordBytes_le h
  | calLit target => exact callBytes_le h
  | calReg src => exact callBytes_le h
  | movLitReg | movRegReg | movMemReg | addRegReg | jmpNotEq | popReg | ret => cases h

theorem Machine.footprint_le {m : Machine Memory} {k : Nat} (h : k ∈ m.footprint.bytes) :
    k ≤ 0x10000 := by
  unfold footprint at h
  cases found : m.upcoming with
  | none =>
    rw [found] at h
    cases h
  | some i =>
    rw [found] at h
    exact Instruction.footprint_le h

theorem Machine.byte_after_of_unreached {k : Nat} (far : 0x10001 ≤ k) (m : Machine Memory)
    (n : Nat) : (after n m).store.bytes[k]? = m.store.bytes[k]? := by
  apply byte_after
  intro j _ hk
  exact absurd (footprint_le hk) (by omega)

theorem Machine.byte_run_of_unreached {k : Nat} (far : 0x10001 ≤ k) (m : Machine Memory)
    (n : Nat) : (run n m).machine.store.bytes[k]? = m.store.bytes[k]? := by
  obtain ⟨j, -, stop⟩ := exists_run_machine_eq n m
  rw [stop]
  exact byte_after_of_unreached far m j

namespace Memory

/-- Both memories hold all bytes in reach, and the same ones. -/
structure AgreeInReach (s t : Memory) : Prop where
  left : 0x10003 ≤ s.size
  right : 0x10003 ≤ t.size
  bytes : ∀ k < 0x10003, s.bytes[k]? = t.bytes[k]?

variable {s t : Memory} {addr : UInt32} {value : UInt16}

theorem AgreeInReach.readByte (h : s.AgreeInReach t) (reach : addr.toNat ≤ 0xFFFF) :
    s.readByte addr = t.readByte addr := by
  have hbyte := h.bytes addr.toNat (by omega)
  have hleft : addr.toNat + 1 ≤ s.size := by have := h.left; omega
  have hright : addr.toNat + 1 ≤ t.size := by have := h.right; omega
  rw [readByte_eq, readByte_eq, if_pos hleft, if_pos hright, Array.getD_eq_getD_getElem?, hbyte,
    Array.getD_eq_getD_getElem?]

theorem AgreeInReach.readWord (h : s.AgreeInReach t) (reach : addr.toNat ≤ 0x10001) :
    s.readWord addr = t.readWord addr := by
  have hfirst := h.bytes addr.toNat (by omega)
  have hsecond := h.bytes (addr.toNat + 1) (by omega)
  have hleft : addr.toNat + 2 ≤ s.size := by have := h.left; omega
  have hright : addr.toNat + 2 ≤ t.size := by have := h.right; omega
  have hword : s.wordAt addr.toNat = t.wordAt addr.toNat := by
    simp only [wordAt, Array.getD_eq_getD_getElem?, hfirst, hsecond]
  rw [readWord_eq, readWord_eq, if_pos hleft, if_pos hright, hword]

theorem AgreeInReach.putWord (h : s.AgreeInReach t) {a : Nat} (reach : a ≤ 0xFFFF) :
    (s.putWord a value).AgreeInReach (t.putWord a value) := by
  constructor
  · rw [size_putWord]
    exact h.left
  · rw [size_putWord]
    exact h.right
  · intro k hk
    have hs : (s.putWord a value).HasWord a value := by
      apply hasWord_putWord
      have := h.left
      omega
    have ht : (t.putWord a value).HasWord a value := by
      apply hasWord_putWord
      have := h.right
      omega
    -- apart from the word written, both memories are as before; in it, both hold the value
    by_cases apart : k < a ∨ a + 1 < k
    · rw [byte_putWord_of_apart apart, byte_putWord_of_apart apart]
      exact h.bytes k hk
    · rcases (by omega : k = a ∨ k = a + 1) with rfl | rfl
      · rw [hs.1, ht.1]
      · rw [hs.2, ht.2]

end Memory

def inReach : Coupling Memory Memory where
  stores := Memory.AgreeInReach
  policies p q := p = q
  faults _ := True

theorem inReach_bytes : inReach.Bytes where
  same := fun _ _ _ h reach => Memory.AgreeInReach.readByte h reach
  fault := fun _ _ _ _ _ _ _ => trivial

theorem inReach_words : inReach.Words where
  same := fun _ _ _ h reach => Memory.AgreeInReach.readWord h reach
  fault := fun _ _ _ _ _ _ _ => trivial
  write := by
    intro addr value reach s t h
    have hleft : addr.toNat + 2 ≤ s.size := by have := h.left; omega
    have hright : addr.toNat + 2 ≤ t.size := by have := h.right; omega
    left
    refine ⟨(), s.putWord addr.toNat value, t.putWord addr.toNat value, ?_, ?_, h.putWord reach⟩
    · exact (Memory.writeWord_eq s addr value).trans (if_pos hleft)
    · exact (Memory.writeWord_eq t addr value).trans (if_pos hright)

theorem inReach_step : inReach.Actions Machine.step Machine.step :=
  Coupling.actions_step inReach_bytes inReach_words (fun _ _ h => h) fun _ => trivial

namespace Machine

/-- No run changes a byte from `0x10001` on, and two runs that start with the same registers, count,
policy and first `0x10003` bytes do the same, whatever the other bytes are and however many. -/
theorem memory_beyond_reach_is_inert :
    (∀ (m : Machine Memory) (n k : Nat), 0x10001 ≤ k →
      (run n m).machine.store.bytes[k]? = m.store.bytes[k]? ∧
      (after n m).store.bytes[k]? = m.store.bytes[k]?) ∧
    ∀ m m' : Machine Memory, 0x10003 ≤ m.store.size → 0x10003 ≤ m'.store.size →
      m.registers = m'.registers → m.frameWords = m'.frameWords → m.policy = m'.policy →
      (∀ k < 0x10003, m.store.bytes[k]? = m'.store.bytes[k]?) → ∀ n,
        (run n m).result = (run n m').result ∧
        (run n m).events = (run n m').events ∧
        (run n m).machine.registers = (run n m').machine.registers ∧
        (run n m).machine.frameWords = (run n m').machine.frameWords ∧
        ∀ k < 0x10003, (run n m).machine.store.bytes[k]? = (run n m').machine.store.bytes[k]? := by
  constructor
  · intro m n k far
    exact ⟨byte_run_of_unreached far m n, byte_after_of_unreached far m n⟩
  · intro m m' left right hregs hwords hpolicy hbytes n
    have start : inReach.Machines m m' := ⟨hregs, ⟨left, right, hbytes⟩, hwords, hpolicy⟩
    obtain ⟨events, result, stop⟩ := Coupling.run_alike inReach_step n start
    exact ⟨result, events, stop.registers, stop.frameWords, stop.store.bytes⟩

def justReachable : Machine Memory := .initial (Memory.zero 0x10003) .strict

def withByteBeyond (byte : UInt8) : Machine Memory :=
  { justReachable with store := ⟨justReachable.store.bytes.push byte⟩ }

/-- The byte beyond is not missed where there is none. -/
theorem byte_beyond_goes_unseen :
    0x10003 ≤ justReachable.store.size ∧ 0x10003 ≤ (withByteBeyond 0xFF).store.size ∧
    (run 9 justReachable).result = (run 9 (withByteBeyond 0xFF)).result ∧
    (run 9 justReachable).machine.registers = (run 9 (withByteBeyond 0xFF)).machine.registers ∧
    (run 9 (withByteBeyond 0xFF)).machine.store.bytes[0x10003]? = some 0xFF := by
  have hsize : justReachable.store.bytes.size = 0x10003 := Memory.size_zero 0x10003
  have left : 0x10003 ≤ justReachable.store.size := Nat.le_of_eq hsize.symm
  have right : 0x10003 ≤ (withByteBeyond 0xFF).store.size := by
    change 0x10003 ≤ (justReachable.store.bytes.push 0xFF).size
    rw [Array.size_push, hsize]
    decide
  have hbytes : ∀ k < 0x10003,
      justReachable.store.bytes[k]? = (withByteBeyond 0xFF).store.bytes[k]? := by
    intro k hk
    change _ = (justReachable.store.bytes.push 0xFF)[k]?
    rw [Array.getElem?_push, if_neg (by omega)]
  have hlast : (withByteBeyond 0xFF).store.bytes[0x10003]? = some 0xFF := by
    change (justReachable.store.bytes.push 0xFF)[0x10003]? = _
    rw [Array.getElem?_push, if_pos hsize.symm]
  obtain ⟨inert, alike⟩ := memory_beyond_reach_is_inert
  obtain ⟨result, -, registers, -, -⟩ :=
    alike justReachable (withByteBeyond 0xFF) left right rfl rfl rfl hbytes 9
  have kept := (inert (withByteBeyond 0xFF) 9 0x10003 (by decide)).1
  exact ⟨left, right, result, registers, kept.trans hlast⟩

end Machine

end FrameMachine
