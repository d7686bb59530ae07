import FrameMachine.Machine
import Mathlib.Data.List.Induction

/-!
# Pushing and popping words

What one push and one pop do to a machine over a memory, exactly when they are refused, and what
rows of them do. A row of pushes writes downwards from `sp`. Its words lie apart from each other,
even where `sp` wraps between two of them, and as long as it does not, they lie apart from all
bytes around the row. A pop right after a push gives its word back as long as the push leaves `sp`
above zero; otherwise `sp` has wrapped, and the pop looks past the 16-bit addresses.
-/
namespace FrameMachine.Machine

variable {m m' back : Machine Memory} {r : Register} {v : UInt16} {vs : List UInt16} {i k n : Nat}

def pushed (m : Machine Memory) (v : UInt16) : Machine Memory :=
  ⟨m.registers.set .sp (m.reg .sp - 2), m.store.putWord (m.reg .sp).toNat v,
    m.frameWords + 1, m.policy⟩

def popped (m : Machine Memory) : Machine Memory :=
  ⟨m.registers.set .sp (m.reg .sp + 2), m.store, m.frameWords - 1, m.policy⟩

theorem push_apply (m : Machine Memory) (v : UInt16) :
    push v m = if (m.reg .sp).toNat + 2 ≤ m.store.size then .ok () (m.pushed v)
      else .error (.outOfBounds (m.reg .sp).toUInt32 2 m.store.size) m := by
  have h := writeWord_apply m (m.reg .sp).toUInt32 v
  rw [UInt16.toNat_toUInt32] at h
  rw [push, getReg_bind]
  by_cases hr : (m.reg .sp).toNat + 2 ≤ m.store.size
  · rw [if_pos hr] at h
    rw [if_pos hr, bind_of_ok _ h]
    rfl
  · rw [if_neg hr] at h
    rw [if_neg hr, bind_of_error _ h]

/-- The address of the word to be popped is not wrapped, so the bound is on `sp` itself. -/
theorem pop_apply (m : Machine Memory) :
    pop m = if (m.reg .sp).toNat + 4 ≤ m.store.size
      then .ok (m.store.wordAt ((m.reg .sp).toNat + 2)) m.popped
      else .error (.outOfBounds ((m.reg .sp).toUInt32 + 2) 2 m.store.size) m := by
  have lt := (m.reg .sp).toNat_lt
  have ha : ((m.reg .sp).toUInt32 + 2).toNat = (m.reg .sp).toNat + 2 := by
    rw [UInt32.toNat_add, UInt16.toNat_toUInt32]
    simp only [UInt32.reduceToNat]
    omega
  have hw : ((m.reg .sp).toUInt32 + 2).toUInt16 = m.reg .sp + 2 := by
    simp
  have h := readWord_apply m ((m.reg .sp).toUInt32 + 2)
  rw [ha] at h
  rw [pop, getReg_bind]
  by_cases hr : (m.reg .sp).toNat + 4 ≤ m.store.size
  · rw [if_pos hr] at h
    rw [if_pos hr, bind_of_ok _ h, hw]
    rfl
  · rw [if_neg hr] at h
    rw [if_neg hr, bind_of_error _ h]

theorem push_of_room (top : (m.reg .sp).toNat + 2 ≤ m.store.size) :
    push v m = .ok () (m.pushed v) := by
  rw [push_apply, if_pos top]

theorem push_refused (h : ¬ (m.reg .sp).toNat + 2 ≤ m.store.size) :
    push v m = .error (.outOfBounds (m.reg .sp).toUInt32 2 m.store.size) m := by
  rw [push_apply, if_neg h]

theorem pop_of_room (h : (m.reg .sp).toNat + 4 ≤ m.store.size) :
    pop m = .ok (m.store.wordAt ((m.reg .sp).toNat + 2)) m.popped := by
  rw [pop_apply, if_pos h]

theorem pop_at {a : Nat} (hsp : (m.reg .sp).toNat = a) (h : a + 4 ≤ m.store.size) :
    pop m = .ok (m.store.wordAt (a + 2)) m.popped := hsp ▸ pop_of_room (hsp ▸ h)

theorem pop_refused (h : ¬ (m.reg .sp).toNat + 4 ≤ m.store.size) :
    pop m = .error (.outOfBounds ((m.reg .sp).toUInt32 + 2) 2 m.store.size) m := by
  rw [pop_apply, if_neg h]

theorem pop_bind_ne_ok {α : Type} {f : UInt16 → Action Memory α} {a : Nat} {b : α}
    (hsp : (m.reg .sp).toNat = a) (h : ¬ a + 4 ≤ m.store.size) : (pop >>= f) m ≠ .ok b m' := by
  rw [bind_of_error f (pop_refused (hsp ▸ h))]
  exact nofun

theorem push_eq_ok_iff : push v m = .ok () m' ↔
    (m.reg .sp).toNat + 2 ≤ m.store.size ∧ m' = m.pushed v := by
  by_cases h : (m.reg .sp).toNat + 2 ≤ m.store.size
  · simp [push_of_room h, h, eq_comm]
  · simp [push_refused h, h]

theorem pop_eq_ok_iff : pop m = .ok v m' ↔ (m.reg .sp).toNat + 4 ≤ m.store.size ∧
    v = m.store.wordAt ((m.reg .sp).toNat + 2) ∧ m' = m.popped := by
  by_cases h : (m.reg .sp).toNat + 4 ≤ m.store.size
  · simp [pop_of_room h, h, eq_comm]
  · simp [pop_refused h, h]

@[simp] theorem reg_sp_pushed : (m.pushed v).reg .sp = m.reg .sp - 2 := by
  simp [pushed]

theorem reg_pushed_of_ne (h : .sp ≠ r) : (m.pushed v).reg r = m.reg r :=
  RegisterFile.get_set_of_ne _ _ h

@[simp] theorem store_pushed : (m.pushed v).store = m.store.putWord (m.reg .sp).toNat v := rfl

@[simp] theorem frameWords_pushed : (m.pushed v).frameWords = m.frameWords + 1 := rfl

@[simp] theorem reg_sp_popped : m.popped.reg .sp = m.reg .sp + 2 := by
  simp [popped]

theorem reg_popped_of_ne (h : .sp ≠ r) : m.popped.reg r = m.reg r :=
  RegisterFile.get_set_of_ne _ _ h

@[simp] theorem store_popped : m.popped.store = m.store := rfl

@[simp] theorem frameWords_popped : m.popped.frameWords = m.frameWords - 1 := rfl

theorem toNat_sp_pushed (h : 2 ≤ (m.reg .sp).toNat) :
    ((m.pushed v).reg .sp).toNat = (m.reg .sp).toNat - 2 := by
  have := (m.reg .sp).toNat_lt
  rw [reg_sp_pushed, UInt16.toNat_sub]
  simp only [UInt16.reduceToNat]
  omega

theorem toNat_sp_popped (h : (m.reg .sp).toNat + 2 < 65536) :
    (m.popped.reg .sp).toNat = (m.reg .sp).toNat + 2 := by
  rw [reg_sp_popped, UInt16.toNat_add]
  simp only [UInt16.reduceToNat]
  omega

theorem reg_fp_initial {store : Memory} {policy : OpcodePolicy} :
    (initial store policy).reg .fp = UInt16.ofNat store.size - 2 := RegisterFile.get_set_self _ _ _

theorem reg_sp_initial {store : Memory} {policy : OpcodePolicy} :
    (initial store policy).reg .sp = UInt16.ofNat store.size - 2 :=
  (RegisterFile.get_set_of_ne _ _ (by decide)).trans (RegisterFile.get_set_self _ _ _)

def pushedAll (m : Machine Memory) (vs : List UInt16) : Machine Memory := vs.foldl pushed m

@[simp] theorem pushedAll_nil : m.pushedAll [] = m := rfl

@[simp] theorem pushedAll_cons : m.pushedAll (v :: vs) = (m.pushed v).pushedAll vs := rfl

theorem pushedAll_append (vs ws : List UInt16) :
    m.pushedAll (vs ++ ws) = (m.pushedAll vs).pushedAll ws := List.foldl_append

theorem reg_sp_pushedAll :
    (m.pushedAll vs).reg .sp = m.reg .sp - 2 * UInt16.ofNat vs.length := by
  induction vs generalizing m with
  | nil => simp
  | cons v vs ih =>
    rw [pushedAll_cons, ih, reg_sp_pushed, List.length_cons, UInt16.ofNat_add]
    grind

theorem reg_pushedAll_of_ne (h : .sp ≠ r) : (m.pushedAll vs).reg r = m.reg r := by
  induction vs generalizing m with
  | nil => rfl
  | cons v vs ih => rw [pushedAll_cons, ih, reg_pushed_of_ne h]

theorem frameWords_pushedAll :
    (m.pushedAll vs).frameWords = m.frameWords + UInt16.ofNat vs.length := by
  induction vs generalizing m with
  | nil => simp
  | cons v vs ih =>
    rw [pushedAll_cons, ih, frameWords_pushed, List.length_cons, UInt16.ofNat_add]
    grind

@[simp] theorem size_pushedAll : (m.pushedAll vs).store.size = m.store.size := by
  induction vs generalizing m with
  | nil => rfl
  | cons v vs ih => rw [pushedAll_cons, ih, store_pushed, Memory.size_putWord]

/-- Where a row of pushes writes the word with an index. -/
def pushPlace (m : Machine Memory) (k : Nat) : Nat := (m.reg .sp - 2 * UInt16.ofNat k).toNat

@[simp] theorem pushPlace_zero : m.pushPlace 0 = (m.reg .sp).toNat := by
  simp [pushPlace]

theorem pushPlace_pushed : (m.pushed v).pushPlace k = m.pushPlace (k + 1) := by
  have next : m.reg .sp - 2 - 2 * UInt16.ofNat k = m.reg .sp - 2 * UInt16.ofNat (k + 1) := by
    rw [UInt16.ofNat_add]
    grind
  rw [pushPlace, pushPlace, reg_sp_pushed, next]

/-- Below zero the places go on at the top of the 16-bit range. -/
theorem pushPlace_eq (hk : k < 32768) : m.pushPlace k =
    if 2 * k ≤ (m.reg .sp).toNat then (m.reg .sp).toNat - 2 * k
    else (m.reg .sp).toNat + 65536 - 2 * k := by
  have := (m.reg .sp).toNat_lt
  rw [pushPlace, UInt16.toNat_sub, UInt16.toNat_mul, UInt16.toNat_ofNat']
  simp only [UInt16.reduceToNat]
  split <;> omega

theorem pushPlace_of_room (room : 2 * k ≤ (m.reg .sp).toNat) :
    m.pushPlace k = (m.reg .sp).toNat - 2 * k := by
  have := (m.reg .sp).toNat_lt
  rw [pushPlace_eq (by omega), if_pos room]

/-- No two words of a row share a byte, even where `sp` wraps between them. -/
theorem pushPlace_apart (hi : i < 32768) (hk : k < 32768) (ne : i ≠ k) :
    m.pushPlace i + 1 < m.pushPlace k ∨ m.pushPlace k + 1 < m.pushPlace i := by
  have := (m.reg .sp).toNat_lt
  rw [pushPlace_eq hi, pushPlace_eq hk]
  split <;> split <;> omega

theorem toNat_sp_pushedAll_eq_pushPlace :
    ((m.pushedAll vs).reg .sp).toNat = m.pushPlace vs.length := by
  rw [reg_sp_pushedAll, pushPlace]

theorem toNat_sp_pushedAll (m : Machine Memory) (vs : List UInt16)
    (room : 2 * vs.length ≤ (m.reg .sp).toNat) :
    ((m.pushedAll vs).reg .sp).toNat = (m.reg .sp).toNat - 2 * vs.length := by
  rw [toNat_sp_pushedAll_eq_pushPlace, pushPlace_of_room room]

theorem byte_pushedAll (apart : ∀ i < vs.length, k ≠ m.pushPlace i ∧ k ≠ m.pushPlace i + 1) :
    (m.pushedAll vs).store.bytes[k]? = m.store.bytes[k]? := by
  induction vs generalizing m with
  | nil => rfl
  | cons v vs ih =>
    have here := apart 0 (Nat.succ_pos _)
    rw [pushPlace_zero] at here
    have later : ∀ i < vs.length, k ≠ (m.pushed v).pushPlace i ∧ k ≠ (m.pushed v).pushPlace i + 1 := by
      intro i hi
      rw [pushPlace_pushed]
      exact apart (i + 1) (Nat.succ_lt_succ hi)
    rw [pushedAll_cons, ih later, store_pushed, Memory.byte_putWord_of_apart (by omega)]

theorem hasWord_pushedAll_of_fits (short : vs.length ≤ 32768) (hi : i < vs.length)
    (fits : m.pushPlace i + 2 ≤ m.store.size) :
    (m.pushedAll vs).store.HasWord (m.pushPlace i) vs[i] := by
  induction vs using List.reverseRecOn with
  | nil => exact absurd hi (Nat.not_lt_zero i)
  | append_singleton vs v ih =>
    simp only [List.length_append, List.length_singleton] at short hi
    rw [pushedAll_append, pushedAll_cons, pushedAll_nil, store_pushed,
      toNat_sp_pushedAll_eq_pushPlace]
    rcases Nat.lt_or_ge i vs.length with before | last
    · rw [List.getElem_append_left before]
      exact (ih (by omega) before).putWord (pushPlace_apart (by omega) (by omega) (by omega))
    · obtain rfl : i = vs.length := by omega
      rw [List.getElem_concat_length rfl]
      exact Memory.hasWord_putWord (by rwa [size_pushedAll])

theorem byte_pushedAll_of_apart (room : 2 * vs.length ≤ (m.reg .sp).toNat + 2)
    (h : k + 2 * vs.length < (m.reg .sp).toNat + 2 ∨ (m.reg .sp).toNat + 2 ≤ k) :
    (m.pushedAll vs).store.bytes[k]? = m.store.bytes[k]? := by
  apply byte_pushedAll
  intro i hi
  rw [pushPlace_of_room (by omega)]
  omega

theorem hasWord_pushedAll (room : 2 * vs.length ≤ (m.reg .sp).toNat + 2)
    (top : (m.reg .sp).toNat + 2 ≤ m.store.size) (hi : i < vs.length) :
    (m.pushedAll vs).store.HasWord ((m.reg .sp).toNat - 2 * i) vs[i] := by
  have := (m.reg .sp).toNat_lt
  have place : m.pushPlace i = (m.reg .sp).toNat - 2 * i := pushPlace_of_room (by omega)
  rw [← place]
  exact hasWord_pushedAll_of_fits (by omega) hi (by omega)

/-- Pushes the words in their order, so that the last one ends up lowest. -/
def pushAll {σ : Type} [Store σ] : List UInt16 → Action σ Unit
  | [] => return
  | v :: vs => do
    push v
    pushAll vs

theorem pushAll_append {vs ws : List UInt16} :
    pushAll (vs ++ ws) m = (pushAll vs >>= fun _ => pushAll ws) m := by
  induction vs generalizing m with
  | nil => rfl
  | cons v vs ih =>
    rw [List.cons_append, pushAll, pushAll, bind_assoc]
    cases h : push v m with
    | ok _ m' => rw [bind_of_ok _ h, bind_of_ok _ h, ih]
    | error fault m' => rw [bind_of_error _ h, bind_of_error _ h]

theorem pushAll_eq_ok {u : Unit} (h : pushAll vs m = .ok u m') : m' = m.pushedAll vs := by
  induction vs generalizing m with
  | nil =>
    cases h
    rfl
  | cons v vs ih =>
    obtain ⟨_, mid, hpush, hrest⟩ := bind_eq_ok_iff.mp h
    obtain ⟨-, rfl⟩ := push_eq_ok_iff.mp hpush
    exact ih hrest

theorem pushAll_of_fits (fits : ∀ i < vs.length, m.pushPlace i + 2 ≤ m.store.size) :
    pushAll vs m = .ok () (m.pushedAll vs) := by
  induction vs generalizing m with
  | nil => rfl
  | cons v vs ih =>
    have top : (m.reg .sp).toNat + 2 ≤ m.store.size := by
      simpa using fits 0 (Nat.succ_pos _)
    rw [pushAll, bind_of_ok _ (push_of_room top), pushedAll_cons]
    apply ih
    intro i hi
    rw [pushPlace_pushed, store_pushed, Memory.size_putWord]
    exact fits (i + 1) (Nat.succ_lt_succ hi)

theorem pushAll_refused (hk : k < vs.length) (fits : ∀ i < k, m.pushPlace i + 2 ≤ m.store.size)
    (outside : m.store.size < m.pushPlace k + 2) :
    pushAll vs m = .error
      (.outOfBounds ((m.pushedAll (vs.take k)).reg .sp).toUInt32 2 m.store.size)
      (m.pushedAll (vs.take k)) := by
  induction vs generalizing m k with
  | nil => exact absurd hk (Nat.not_lt_zero k)
  | cons v vs ih =>
    rw [pushAll]
    cases k with
    | zero =>
      rw [pushPlace_zero] at outside
      exact bind_of_error _ (push_refused (Nat.not_le_of_lt outside))
    | succ k =>
      have top : (m.reg .sp).toNat + 2 ≤ m.store.size := by
        simpa using fits 0 (Nat.succ_pos _)
      have size : (m.pushed v).store.size = m.store.size := Memory.size_putWord
      rw [List.length_cons, Nat.add_lt_add_iff_right] at hk
      have stop := ih (m := m.pushed v) hk
        (fun i hi => by rw [pushPlace_pushed, size]; exact fits (i + 1) (Nat.succ_lt_succ hi))
        (by rwa [pushPlace_pushed, size])
      rw [bind_of_ok _ (push_of_room top), stop, size, List.take_succ_cons, pushedAll_cons]

/-- The last of the pushes may let `sp` wrap. -/
theorem pushAll_of_room (room : 2 * vs.length ≤ (m.reg .sp).toNat + 2)
    (top : (m.reg .sp).toNat + 2 ≤ m.store.size) :
    pushAll vs m = .ok () (m.pushedAll vs) := by
  apply pushAll_of_fits
  intro i hi
  rw [pushPlace_of_room (by omega)]
  omega

/-- The machine is as it was, but for the word where `sp` points to. -/
structure RestoredBelow (m back : Machine Memory) : Prop where
  registers : back.registers = m.registers
  frameWords : back.frameWords = m.frameWords
  policy : back.policy = m.policy
  size : back.store.size = m.store.size
  bytes : ∀ k, k < (m.reg .sp).toNat ∨ (m.reg .sp).toNat + 1 < k →
    back.store.bytes[k]? = m.store.bytes[k]?

theorem restoredBelow_popped_pushed : m.RestoredBelow (m.pushed v).popped := by
  have hsp : (m.pushed v).reg .sp + 2 = m.reg .sp := by
    rw [reg_sp_pushed, UInt16.sub_add_cancel]
  constructor
  · change ((m.registers.set .sp _).set .sp ((m.pushed v).reg .sp + 2)) = m.registers
    rw [hsp, RegisterFile.set_set]
    exact RegisterFile.set_get
  · rw [frameWords_popped, frameWords_pushed, UInt16.add_sub_cancel]
  · rfl
  · rw [store_popped, store_pushed, Memory.size_putWord]
  · intro k apart
    rw [store_popped, store_pushed]
    exact Memory.byte_putWord_of_apart apart

theorem toNat_sp_pushed_of_wraps (low : (m.reg .sp).toNat < 2) :
    ((m.pushed v).reg .sp).toNat = (m.reg .sp).toNat + 65534 := by
  rw [reg_sp_pushed, UInt16.toNat_sub]
  simp only [UInt16.reduceToNat]
  omega

theorem pop_pushed (high : 2 ≤ (m.reg .sp).toNat)
    (top : (m.reg .sp).toNat + 2 ≤ m.store.size) :
    pop (m.pushed v) = .ok v (m.pushed v).popped := by
  have hsp := toNat_sp_pushed (v := v) high
  have room : (m.reg .sp).toNat - 2 + 4 ≤ (m.pushed v).store.size := by
    rw [store_pushed, Memory.size_putWord]
    omega
  have word : (m.pushed v).store.wordAt ((m.reg .sp).toNat - 2 + 2) = v := by
    rw [Nat.sub_add_cancel high]
    exact (Memory.hasWord_putWord top).wordAt_eq
  rw [pop_at hsp room, word]

/-- The pop passes by the word that was pushed and takes one that the push has not written. -/
theorem pop_pushed_of_wraps (low : (m.reg .sp).toNat < 2)
    (room : (m.reg .sp).toNat + 0x10002 ≤ m.store.size) :
    pop (m.pushed v) = .ok (m.store.wordAt ((m.reg .sp).toNat + 0x10000)) (m.pushed v).popped := by
  have hsp := toNat_sp_pushed_of_wraps (v := v) low
  have fits : (m.reg .sp).toNat + 65534 + 4 ≤ (m.pushed v).store.size := by
    rw [store_pushed, Memory.size_putWord]
    omega
  rw [pop_at hsp fits, store_pushed, Memory.wordAt_putWord_of_apart (by omega)]

theorem pop_pushed_refused (low : (m.reg .sp).toNat < 2)
    (short : m.store.size < (m.reg .sp).toNat + 0x10002) :
    pop (m.pushed v) =
      .error (.outOfBounds (0x10000 + (m.reg .sp).toUInt32) 2 m.store.size) (m.pushed v) := by
  have hsp := toNat_sp_pushed_of_wraps (v := v) low
  have addr : ((m.pushed v).reg .sp).toUInt32 + 2 = 0x10000 + (m.reg .sp).toUInt32 := by
    apply UInt32.toNat_inj.mp
    rw [UInt32.toNat_add, UInt32.toNat_add, UInt16.toNat_toUInt32, UInt16.toNat_toUInt32, hsp]
    simp only [UInt32.reduceToNat]
    omega
  rw [pop_refused (by rw [hsp, store_pushed, Memory.size_putWord]; omega), addr, store_pushed,
    Memory.size_putWord]

/-- From every state in which a push succeeds, at `sp` two or more: the pop after it gives the word
back and restores the machine but for that word. Below two the pop restores the machine as well if
it finds a word past the 16-bit addresses, which is the one it gives, and it faults if not. -/
theorem pop_after_push (pushes : push v m = .ok () m') :
    (2 ≤ (m.reg .sp).toNat → ∃ back, pop m' = .ok v back ∧ m.RestoredBelow back) ∧
    ((m.reg .sp).toNat < 2 → if (m.reg .sp).toNat + 0x10002 ≤ m.store.size
      then ∃ back, pop m' = .ok (m.store.wordAt ((m.reg .sp).toNat + 0x10000)) back ∧
        m.RestoredBelow back
      else pop m' =
        .error (.outOfBounds (0x10000 + (m.reg .sp).toUInt32) 2 m.store.size) m') := by
  obtain ⟨top, rfl⟩ := push_eq_ok_iff.mp pushes
  constructor
  · intro high
    exact ⟨_, pop_pushed high top, restoredBelow_popped_pushed⟩
  · intro low
    by_cases room : (m.reg .sp).toNat + 0x10002 ≤ m.store.size
    · rw [if_pos room]
      exact ⟨_, pop_pushed_of_wraps low room, restoredBelow_popped_pushed⟩
    · rw [if_neg room]
      exact pop_pushed_refused low (Nat.lt_of_not_le room)

/-- A memory of one word is full with the first push, and its word cannot be popped. -/
theorem full_stack_keeps_its_word : ¬ ∀ (m m' : Machine Memory) (v : UInt16),
    push v m = .ok () m' → ∃ back, pop m' = .ok v back ∧ m.RestoredBelow back := by
  intro roundTrip
  have pushes : push 7 (initial (Memory.zero 2) .strict) =
      .ok () ((initial (Memory.zero 2) .strict).pushed 7) := push_of_room (by decide)
  have refused := pop_pushed_refused (m := initial (Memory.zero 2) .strict) (v := 7)
    (by decide) (by decide)
  obtain ⟨back, pops, -⟩ := roundTrip _ _ _ pushes
  cases refused.symm.trans pops

/-- The lowest place at which the round trip goes well, in the smallest memory that has it. -/
theorem word_comes_back_at_two :
    let m : Machine Memory := (initial (Memory.zero 4) .strict).setReg .r1 9
    ∃ m' back, push 7 m = .ok () m' ∧ (m.reg .sp).toNat = 2 ∧ pop m' = .ok 7 back ∧
      m.RestoredBelow back := by
  intro m
  have pushes : push 7 m = .ok () (m.pushed 7) := push_of_room (by decide)
  obtain ⟨back, pops, restored⟩ := (pop_after_push pushes).1 (by decide)
  exact ⟨_, back, pushes, by decide, pops, restored⟩

end FrameMachine.Machine
