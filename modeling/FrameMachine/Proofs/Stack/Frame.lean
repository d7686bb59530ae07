import FrameMachine.Proofs.Stack.Words

/-!
# Frames

What a call writes below `sp` and what a return takes from above `fp`. A call pushes
the ten words of its prologue; the caller has staged the arguments and their number
before. A return succeeds exactly if the frame and as many words as its count says lie
inside the memory, and a frame left intact gives back what the call saved.
-/
namespace FrameMachine.Machine

variable {m m' : Machine Memory} {r : Register} {rs : List Register} {event : Event} {i k n : Nat}

/-- The words that a call pushes, in their order. The marker is the last of them. -/
def prologue (m : Machine Memory) : List UInt16 :=
  Register.saved.map m.reg ++ [m.reg .ip, m.frameWords + 11]

def entered (m : Machine Memory) : Machine Memory :=
  { (m.pushedAll m.prologue).setReg .fp (m.reg .sp - 20) with frameWords := 0 }

@[simp] theorem length_prologue : m.prologue.length = 10 := rfl

theorem store_entered : m.entered.store = (m.pushedAll m.prologue).store := by
  rw [entered, store_setReg]

theorem reg_fp_entered : m.entered.reg .fp = m.reg .sp - 20 := by
  rw [entered, reg_mk, get_registers, reg_setReg_self]

@[simp] theorem frameWords_entered : m.entered.frameWords = 0 := rfl

theorem pushRegisters_eq_pushAll (h : .sp ∉ rs) :
    pushRegisters rs m = pushAll (rs.map m.reg) m := by
  induction rs generalizing m with
  | nil => rfl
  | cons r rs ih =>
    have hsp : .sp ≠ r := fun e => h (e ▸ List.mem_cons_self)
    have hrest : .sp ∉ rs := fun e => h (List.mem_cons_of_mem _ e)
    rw [pushRegisters, getReg_bind, List.map_cons, pushAll]
    by_cases top : (m.reg .sp).toNat + 2 ≤ m.store.size
    · rw [bind_of_ok _ (push_of_room top), bind_of_ok _ (push_of_room top), ih hrest]
      have same : rs.map (m.pushed (m.reg r)).reg = rs.map m.reg :=
        List.map_congr_left fun s hs => reg_pushed_of_ne fun e => hrest (e ▸ hs)
      rw [same]
    · rw [bind_of_error _ (push_refused top), bind_of_error _ (push_refused top)]

theorem pushedAll_prologue : m.pushedAll m.prologue =
    ((m.pushedAll (Register.saved.map m.reg)).pushed (m.reg .ip)).pushed (m.frameWords + 11) := by
  rw [prologue, pushedAll_append, pushedAll_cons, pushedAll_cons, pushedAll_nil]

theorem pushState_apply (m : Machine Memory) : pushState m =
    match pushAll m.prologue m with
    | .ok _ _ => .ok (.called (m.reg .sp - 20) (m.frameWords + 11) (m.reg .ip)) m.entered
    | .error fault left => .error fault left := by
  have hregs : pushRegisters Register.saved m = pushAll (Register.saved.map m.reg) m :=
    pushRegisters_eq_pushAll (by decide)
  rw [prologue, pushAll_append, pushState]
  cases h : pushAll (Register.saved.map m.reg) m with
  | error fault left => rw [bind_of_error _ (hregs.trans h), bind_of_error _ h]
  | ok _ p =>
    have hp : p = m.pushedAll (Register.saved.map m.reg) := pushAll_eq_ok h
    have hip : p.reg .ip = m.reg .ip := by rw [hp, reg_pushedAll_of_ne (by decide)]
    have hsp : p.reg .sp = m.reg .sp - 2 * 8 := by rw [hp, reg_sp_pushedAll]; rfl
    have hwords : p.frameWords = m.frameWords + 8 := by rw [hp, frameWords_pushedAll]; rfl
    have hentered : m.entered = { ((p.pushed (m.reg .ip)).pushed (m.frameWords + 11)).setReg .fp
        (m.reg .sp - 20) with frameWords := 0 } := by rw [entered, pushedAll_prologue, hp]
    have hmarker : p.frameWords + 1 + 2 = m.frameWords + 11 := by grind
    have hfp : p.reg .sp - 2 - 2 = m.reg .sp - 20 := by grind
    rw [bind_of_ok _ (hregs.trans h), bind_of_ok _ h, getReg_bind, hip, pushAll, pushAll, pushAll]
    cases hret : push (m.reg .ip) p with
    | error fault left => rw [bind_of_error _ hret, bind_of_error _ hret]
    | ok _ q =>
      obtain ⟨-, rfl⟩ := push_eq_ok_iff.mp hret
      rw [bind_of_ok _ hret, bind_of_ok _ hret, look_bind, frameWords_pushed, hmarker]
      cases hmark : push (m.frameWords + 11) (p.pushed (m.reg .ip)) with
      | error fault left => rw [bind_of_error _ hmark, bind_of_error _ hmark]
      | ok _ q =>
        obtain ⟨-, rfl⟩ := push_eq_ok_iff.mp hmark
        rw [bind_of_ok _ hmark, bind_of_ok _ hmark, getReg_bind, putReg_bind, setFrameWords_bind,
          pure_apply, pure_apply, reg_sp_pushed, reg_sp_pushed, hfp, hentered]

theorem pushState_of_room (room : 18 ≤ (m.reg .sp).toNat)
    (top : (m.reg .sp).toNat + 2 ≤ m.store.size) :
    pushState m = .ok (.called (m.reg .sp - 20) (m.frameWords + 11) (m.reg .ip)) m.entered := by
  rw [pushState_apply, pushAll_of_room (show 2 * 10 ≤ _ by omega) top]

theorem pushState_refused (hk : k < 10) (fits : ∀ i < k, m.pushPlace i + 2 ≤ m.store.size)
    (outside : m.store.size < m.pushPlace k + 2) :
    pushState m = .error
      (.outOfBounds ((m.pushedAll (m.prologue.take k)).reg .sp).toUInt32 2 m.store.size)
      (m.pushedAll (m.prologue.take k)) := by
  rw [pushState_apply, pushAll_refused hk fits outside]

theorem pushState_refused_at_once (outside : m.store.size < (m.reg .sp).toNat + 2) :
    pushState m = .error (.outOfBounds (m.reg .sp).toUInt32 2 m.store.size) m := by
  have refused := pushState_refused (m := m) (k := 0) (by decide)
    (fun _ h => absurd h (Nat.not_lt_zero _)) (by rwa [pushPlace_zero])
  rwa [List.take_zero, pushedAll_nil] at refused

theorem pushState_eq_ok_iff (room : 18 ≤ (m.reg .sp).toNat) : pushState m = .ok event m' ↔
    (m.reg .sp).toNat + 2 ≤ m.store.size ∧
      event = .called (m.reg .sp - 20) (m.frameWords + 11) (m.reg .ip) ∧ m' = m.entered := by
  by_cases top : (m.reg .sp).toNat + 2 ≤ m.store.size
  · rw [pushState_of_room room top]
    constructor
    · intro h
      obtain ⟨rfl, rfl⟩ := EStateM.Result.ok.inj h
      exact ⟨top, rfl, rfl⟩
    · rintro ⟨-, rfl, rfl⟩
      rfl
  · rw [pushState_refused_at_once (Nat.lt_of_not_le top)]
    exact iff_of_false nofun fun h => top h.1

def dropped (m : Machine Memory) : Nat → Machine Memory
  | 0 => m
  | n + 1 => m.popped.dropped n

def loaded (m : Machine Memory) : List Register → Machine Memory
  | [] => m
  | r :: rs => (m.popped.setReg r (m.store.wordAt ((m.reg .sp).toNat + 2))).loaded rs

theorem reg_sp_dropped : (m.dropped n).reg .sp = m.reg .sp + 2 * UInt16.ofNat n := by
  induction n generalizing m with
  | zero => simp [dropped]
  | succ n ih =>
    rw [dropped, ih, reg_sp_popped, UInt16.ofNat_add]
    grind

theorem reg_dropped_of_ne (h : .sp ≠ r) : (m.dropped n).reg r = m.reg r := by
  induction n generalizing m with
  | zero => rfl
  | succ n ih => rw [dropped, ih, reg_popped_of_ne h]

@[simp] theorem store_dropped : (m.dropped n).store = m.store := by
  induction n generalizing m with
  | zero => rfl
  | succ n ih => rw [dropped, ih, store_popped]

theorem frameWords_dropped : (m.dropped n).frameWords = m.frameWords - UInt16.ofNat n := by
  induction n generalizing m with
  | zero => simp [dropped]
  | succ n ih =>
    rw [dropped, ih, frameWords_popped, UInt16.ofNat_add]
    grind

theorem reg_sp_loaded (h : .sp ∉ rs) :
    (m.loaded rs).reg .sp = m.reg .sp + 2 * UInt16.ofNat rs.length := by
  induction rs generalizing m with
  | nil => simp [loaded]
  | cons r rs ih =>
    have hne : r ≠ .sp := fun e => h (e ▸ List.mem_cons_self)
    rw [loaded, ih fun e => h (List.mem_cons_of_mem _ e), reg_setReg_of_ne hne, reg_sp_popped,
      List.length_cons, UInt16.ofNat_add]
    grind

theorem reg_loaded_of_not_mem (hr : r ∉ rs) (hsp : .sp ≠ r) :
    (m.loaded rs).reg r = m.reg r := by
  induction rs generalizing m with
  | nil => rfl
  | cons s rs ih =>
    have hne : s ≠ r := fun e => hr (e ▸ List.mem_cons_self)
    rw [loaded, ih fun e => hr (List.mem_cons_of_mem _ e), reg_setReg_of_ne hne,
      reg_popped_of_ne hsp]

@[simp] theorem store_loaded : (m.loaded rs).store = m.store := by
  induction rs generalizing m with
  | nil => rfl
  | cons r rs ih => rw [loaded, ih, store_setReg, store_popped]

theorem frameWords_loaded :
    (m.loaded rs).frameWords = m.frameWords - UInt16.ofNat rs.length := by
  induction rs generalizing m with
  | nil => simp [loaded]
  | cons r rs ih =>
    rw [loaded, ih, frameWords_setReg, frameWords_popped, List.length_cons, UInt16.ofNat_add]
    grind

theorem discard_eq_ok_iff (small : m.store.size ≤ 65536)
    (top : (m.reg .sp).toNat + 2 ≤ m.store.size) :
    discard n m = .ok () m' ↔
      (m.reg .sp).toNat + 2 + 2 * n ≤ m.store.size ∧ m' = m.dropped n := by
  induction n generalizing m with
  | zero =>
    rw [discard, pure_apply, dropped]
    simp [top, eq_comm]
  | succ n ih =>
    rw [discard, dropped]
    by_cases hr : (m.reg .sp).toNat + 4 ≤ m.store.size
    · have hsp := toNat_sp_popped (m := m) (by omega)
      rw [bind_of_ok _ (pop_of_room hr), ih (m := m.popped) small (by rw [hsp]; exact hr), hsp,
        store_popped, show (m.reg .sp).toNat + 2 + 2 + 2 * n =
          (m.reg .sp).toNat + 2 + 2 * (n + 1) by omega]
    · rw [bind_of_error _ (pop_refused hr)]
      constructor
      · intro h; cases h
      · rintro ⟨h, -⟩; omega

theorem popRegisters_eq_ok_iff (h : .sp ∉ rs) (small : m.store.size ≤ 65536)
    (top : (m.reg .sp).toNat + 2 ≤ m.store.size) :
    popRegisters rs m = .ok () m' ↔
      (m.reg .sp).toNat + 2 + 2 * rs.length ≤ m.store.size ∧ m' = m.loaded rs := by
  induction rs generalizing m with
  | nil =>
    rw [popRegisters, pure_apply, loaded]
    simp [top, eq_comm]
  | cons r rs ih =>
    have hne : r ≠ .sp := fun e => h (e ▸ List.mem_cons_self)
    have hrest : .sp ∉ rs := fun e => h (List.mem_cons_of_mem _ e)
    rw [popRegisters, loaded, List.length_cons]
    by_cases hr : (m.reg .sp).toNat + 4 ≤ m.store.size
    · have hsp : ∀ v, ((m.popped.setReg r v).reg .sp).toNat = (m.reg .sp).toNat + 2 := by
        intro v
        rw [reg_setReg_of_ne hne, toNat_sp_popped (by omega)]
      rw [bind_of_ok _ (pop_of_room hr), putReg_bind,
        ih (m := m.popped.setReg r _) hrest small (by rw [hsp]; exact hr), hsp,
        store_setReg, store_popped, show (m.reg .sp).toNat + 2 + 2 + 2 * rs.length =
          (m.reg .sp).toNat + 2 + 2 * (rs.length + 1) by omega]
    · rw [bind_of_error _ (pop_refused hr)]
      constructor
      · intro h; cases h
      · rintro ⟨h, -⟩; omega

theorem reg_loaded (nodup : rs.Nodup) (h : .sp ∉ rs) (hi : i < rs.length)
    (room : (m.reg .sp).toNat + 2 * rs.length < 65536) :
    (m.loaded rs).reg rs[i] = m.store.wordAt ((m.reg .sp).toNat + 2 + 2 * i) := by
  induction rs generalizing m i with
  | nil => simp at hi
  | cons r rs ih =>
    obtain ⟨hr, nodup⟩ := List.nodup_cons.mp nodup
    have hne : r ≠ .sp := fun e => h (e ▸ List.mem_cons_self)
    have hrest : .sp ∉ rs := fun e => h (List.mem_cons_of_mem _ e)
    rw [List.length_cons] at hi room
    cases i with
    | zero => exact (reg_loaded_of_not_mem hr hne.symm).trans reg_setReg_self
    | succ i =>
      have hsp := toNat_sp_popped (m := m) (by omega)
      rw [loaded, List.getElem_cons_succ, ih nodup hrest (by omega)
        (by rw [reg_setReg_of_ne hne]; omega), reg_setReg_of_ne hne, hsp]
      rw [store_setReg, store_popped,
        show (m.reg .sp).toNat + 2 + 2 + 2 * i = (m.reg .sp).toNat + 2 + 2 * (i + 1) by omega]

def marker (m : Machine Memory) : UInt16 := m.store.wordAt ((m.reg .fp).toNat + 2)

def returnAddress (m : Machine Memory) : UInt16 := m.store.wordAt ((m.reg .fp).toNat + 4)

def argCount (m : Machine Memory) : UInt16 := m.store.wordAt ((m.reg .fp).toNat + 22)

def unmarked (m : Machine Memory) : Machine Memory :=
  { (m.setReg .sp (m.reg .fp)).popped with frameWords := m.marker }

def resumed (m : Machine Memory) : Machine Memory :=
  (m.unmarked.popped.setReg .ip m.returnAddress).loaded Register.saved.reverse

/-- The machine after a return that meets no fault. -/
def unwound (m : Machine Memory) : Machine Memory :=
  (m.resumed.popped.dropped m.argCount.toNat).setReg .fp (m.reg .fp + m.marker)

theorem reg_sp_unmarked : m.unmarked.reg .sp = m.reg .fp + 2 := by
  rw [unmarked, reg_mk, get_registers, reg_sp_popped, reg_setReg_self]

theorem reg_sp_resumed : m.resumed.reg .sp = m.reg .fp + 20 := by
  have h : m.resumed.reg .sp = (m.unmarked.popped.setReg .ip m.returnAddress).reg .sp + 2 * 8 :=
    reg_sp_loaded (by decide)
  rw [h, reg_setReg_of_ne (by decide), reg_sp_popped, reg_sp_unmarked]
  grind

theorem toNat_sp_unmarked (h : (m.reg .fp).toNat + 2 < 65536) :
    (m.unmarked.reg .sp).toNat = (m.reg .fp).toNat + 2 := by
  rw [reg_sp_unmarked, UInt16.toNat_add]
  simp only [UInt16.reduceToNat]
  omega

theorem toNat_sp_resumed (h : (m.reg .fp).toNat + 20 < 65536) :
    (m.resumed.reg .sp).toNat = (m.reg .fp).toNat + 20 := by
  rw [reg_sp_resumed, UInt16.toNat_add]
  simp only [UInt16.reduceToNat]
  omega

@[simp] theorem store_unmarked : m.unmarked.store = m.store := rfl

@[simp] theorem store_resumed : m.resumed.store = m.store := store_loaded

@[simp] theorem store_unwound : m.unwound.store = m.store := by
  rw [unwound, store_setReg, store_dropped, store_popped, store_resumed]

theorem reg_sp_unwound : m.unwound.reg .sp = m.reg .fp + 22 + 2 * m.argCount := by
  rw [unwound, reg_setReg_of_ne (by decide), reg_sp_dropped, reg_sp_popped, reg_sp_resumed,
    UInt16.ofNat_toNat]
  grind

theorem reg_fp_unwound : m.unwound.reg .fp = m.reg .fp + m.marker := reg_setReg_self

/-- Below its end a return changes only what it takes from the frame. -/
theorem reg_unwound_of_ne (hfp : .fp ≠ r) (hsp : .sp ≠ r) : m.unwound.reg r = m.resumed.reg r := by
  rw [unwound, reg_setReg_of_ne hfp, reg_dropped_of_ne hsp, reg_popped_of_ne hsp]

theorem reg_ip_unwound : m.unwound.reg .ip = m.returnAddress := by
  rw [reg_unwound_of_ne (by decide) (by decide), resumed,
    reg_loaded_of_not_mem (by decide) (by decide), reg_setReg_self]

theorem reg_acc_unwound : m.unwound.reg .acc = m.reg .acc := by
  rw [reg_unwound_of_ne (by decide) (by decide), resumed,
    reg_loaded_of_not_mem (by decide) (by decide), reg_setReg_of_ne (by decide),
    reg_popped_of_ne (by decide), unmarked, reg_mk, get_registers, reg_popped_of_ne (by decide),
    reg_setReg_of_ne (by decide)]

theorem reg_saved_unwound (room : (m.reg .fp).toNat + 24 ≤ 65536) (hr : r ∈ Register.saved) :
    m.unwound.reg r = m.store.wordAt ((m.reg .fp).toNat + 24 - 2 * r.index) := by
  have hplace : ∀ s ∈ Register.saved, .fp ≠ s ∧ .sp ≠ s ∧ s.index ≤ 9 ∧
      Register.saved.reverse[9 - s.index]? = some s := by decide
  obtain ⟨hfp, hsp, hle, hi⟩ := hplace r hr
  obtain ⟨hi, hget⟩ := List.getElem?_eq_some_iff.mp hi
  have hstart : ((m.unmarked.popped.setReg .ip m.returnAddress).reg .sp).toNat =
      (m.reg .fp).toNat + 4 := by
    rw [reg_setReg_of_ne (by decide), toNat_sp_popped (by rw [toNat_sp_unmarked] <;> omega),
      toNat_sp_unmarked (by omega)]
  have h := reg_loaded (m := m.unmarked.popped.setReg .ip m.returnAddress) (by decide)
    (by decide) hi (by rw [hstart]; change _ + 2 * 8 < _; omega)
  rw [hget, hstart] at h
  rw [reg_unwound_of_ne hfp hsp, resumed, h, store_setReg, store_popped, store_unmarked]
  congr 1
  omega

theorem frameWords_unwound : m.unwound.frameWords = m.marker - 10 - m.argCount := by
  have h : m.resumed.frameWords = m.marker - 1 - 8 := frameWords_loaded
  rw [unwound, frameWords_setReg, frameWords_dropped, frameWords_popped, h, UInt16.ofNat_toNat]
  grind

/-- A return succeeds exactly if the frame and the words that it counts as arguments lie
inside the memory. -/
theorem popState_eq_ok_iff (small : m.store.size ≤ 65536) :
    popState m = .ok event m' ↔
      (m.reg .fp).toNat + 24 + 2 * m.argCount.toNat ≤ m.store.size ∧
      event = .returned m.returnAddress m.argCount (m.reg .fp + m.marker) ∧ m' = m.unwound := by
  let atFrame := m.setReg .sp (m.reg .fp)
  let atRegisters := m.unmarked.popped.setReg .ip m.returnAddress
  rw [popState, getReg_bind, putReg_bind]
  -- the marker
  have hframe : (atFrame.reg .sp).toNat = (m.reg .fp).toNat := congrArg _ reg_setReg_self
  by_cases h₁ : (m.reg .fp).toNat + 4 ≤ m.store.size
  case neg => exact iff_of_false (pop_bind_ne_ok hframe h₁) (by omega)
  rw [bind_of_ok _ (pop_at hframe h₁), setFrameWords_bind]
  -- the return address
  change (pop >>= _) m.unmarked = _ ↔ _
  have hunmarked := toNat_sp_unmarked (m := m) (by omega)
  by_cases h₂ : (m.reg .fp).toNat + 2 + 4 ≤ m.store.size
  case neg => exact iff_of_false (pop_bind_ne_ok hunmarked h₂) (by omega)
  rw [bind_of_ok _ (pop_at hunmarked h₂), putReg_bind]
  -- the saved registers
  change (popRegisters Register.saved.reverse >>= _) atRegisters = _ ↔ _
  have hregs : (atRegisters.reg .sp).toNat = (m.reg .fp).toNat + 4 := by
    rw [reg_setReg_of_ne (by decide), toNat_sp_popped (by omega), hunmarked]
  have hload {mid} : popRegisters Register.saved.reverse atRegisters = .ok () mid ↔
      (m.reg .fp).toNat + 22 ≤ m.store.size ∧ mid = m.resumed := by
    rw [popRegisters_eq_ok_iff (m := atRegisters) (by decide) small (by rw [hregs]; exact h₂),
      hregs]
    exact Iff.rfl
  by_cases h₃ : (m.reg .fp).toNat + 22 ≤ m.store.size
  case neg =>
    refine iff_of_false (fun h => ?_) (by omega)
    obtain ⟨_, _, hmid, -⟩ := bind_eq_ok_iff.mp h
    exact h₃ (hload.mp hmid).1
  rw [bind_of_ok _ (hload.mpr ⟨h₃, rfl⟩)]
  -- the count
  have hresumed := toNat_sp_resumed (m := m) (by omega)
  by_cases h₄ : (m.reg .fp).toNat + 20 + 4 ≤ m.resumed.store.size
  case neg =>
    rw [store_resumed] at h₄
    exact iff_of_false (pop_bind_ne_ok hresumed (by rwa [store_resumed])) (by omega)
  rw [bind_of_ok _ (pop_at hresumed h₄), store_resumed]
  rw [store_resumed] at h₄
  -- the arguments
  change (discard m.argCount.toNat >>= _) m.resumed.popped = _ ↔ _
  have hpopped : (m.resumed.popped.reg .sp).toNat = (m.reg .fp).toNat + 22 := by
    rw [toNat_sp_popped (by omega), hresumed]
  have hdrop {mid} : discard m.argCount.toNat m.resumed.popped = .ok () mid ↔
      (m.reg .fp).toNat + 24 + 2 * m.argCount.toNat ≤ m.store.size ∧
      mid = m.resumed.popped.dropped m.argCount.toNat := by
    rw [discard_eq_ok_iff (by rwa [store_popped, store_resumed])
      (by rw [hpopped, store_popped, store_resumed]; exact h₄), hpopped, store_popped,
      store_resumed]
  rw [bind_eq_ok_iff]
  constructor
  · rintro ⟨_, mid, hmid, h⟩
    obtain ⟨room, rfl⟩ := hdrop.mp hmid
    cases h
    exact ⟨room, rfl, rfl⟩
  · rintro ⟨room, rfl, rfl⟩
    exact ⟨(), _, hdrop.mpr ⟨room, rfl⟩, rfl⟩

end FrameMachine.Machine
