import FrameMachine.Proofs.Stack.Frame

/-!
# One call and its return

A call pushes ten words, and `sp` may wrap below any of them. It goes through exactly if all ten fit
into the memory; if one does not, the words before it stay pushed, and nothing else of the call has
happened. A caller stages its arguments and calls; whatever the callee does, a return that finds the
frame as the call left it puts the caller back. The frame pointer is not among the things put back:
it moves up by the marker, which counts words and not bytes.
-/
namespace FrameMachine.Machine

variable {m m' site : Machine Memory} {mem mem' : Memory} {args : List UInt16}
  {r : Register} {f n : Nat}

/-- What a caller does before a call: it pushes the arguments, then their number. -/
def stage {σ : Type} [Store σ] (args : List UInt16) : Action σ Unit := do
  pushAll args
  push (UInt16.ofNat args.length)

def staged (m : Machine Memory) (args : List UInt16) : Machine Memory :=
  (m.pushedAll args).pushed (UInt16.ofNat args.length)

theorem stage_of_room (room : 2 * args.length ≤ (m.reg .sp).toNat)
    (top : (m.reg .sp).toNat + 2 ≤ m.store.size) : stage args m = .ok () (m.staged args) := by
  have hsp := toNat_sp_pushedAll m args room
  rw [stage, bind_of_ok _ (pushAll_of_room (by omega) top), staged]
  exact push_of_room (by rw [hsp, size_pushedAll]; omega)

@[simp] theorem size_staged : (m.staged args).store.size = m.store.size := by
  rw [staged, store_pushed, Memory.size_putWord, size_pushedAll]

theorem reg_sp_staged :
    (m.staged args).reg .sp = m.reg .sp - 2 * UInt16.ofNat args.length - 2 := by
  rw [staged, reg_sp_pushed, reg_sp_pushedAll]

theorem toNat_sp_staged (m : Machine Memory) (args : List UInt16)
    (room : 2 * args.length + 2 ≤ (m.reg .sp).toNat) :
    ((m.staged args).reg .sp).toNat = (m.reg .sp).toNat - 2 * args.length - 2 := by
  have hsp := toNat_sp_pushedAll m args (by omega)
  rw [staged, toNat_sp_pushed (by omega), hsp]

theorem reg_staged_of_ne (h : .sp ≠ r) : (m.staged args).reg r = m.reg r := by
  rw [staged, reg_pushed_of_ne h, reg_pushedAll_of_ne h]

theorem frameWords_staged :
    (m.staged args).frameWords = m.frameWords + UInt16.ofNat args.length + 1 := by
  rw [staged, frameWords_pushed, frameWords_pushedAll]

theorem byte_staged_of_above {k : Nat} (room : 2 * args.length ≤ (m.reg .sp).toNat)
    (hk : (m.reg .sp).toNat + 2 ≤ k) : (m.staged args).store.bytes[k]? = m.store.bytes[k]? := by
  have hsp := toNat_sp_pushedAll m args room
  rw [staged, store_pushed, Memory.byte_putWord_of_apart (by omega),
    byte_pushedAll_of_apart (by omega) (Or.inr hk)]

theorem hasWord_staged (room : 2 * args.length ≤ (m.reg .sp).toNat)
    (top : (m.reg .sp).toNat + 2 ≤ m.store.size) :
    (m.staged args).store.HasWord ((m.reg .sp).toNat - 2 * args.length)
      (UInt16.ofNat args.length) := by
  have hsp := toNat_sp_pushedAll m args room
  rw [staged, store_pushed, hsp]
  exact Memory.hasWord_putWord (by rw [size_pushedAll]; omega)

/-- The frame that a call on `site` leaves below `n` arguments, for a frame pointer `f`. -/
structure HasFrame (mem : Memory) (f : Nat) (site : Machine Memory) (n : Nat) : Prop where
  marker : mem.HasWord (f + 2) (site.frameWords + 11)
  ret : mem.HasWord (f + 4) (site.reg .ip)
  saved : ∀ r ∈ Register.saved, mem.HasWord (f + 24 - 2 * r.index) (site.reg r)
  count : mem.HasWord (f + 22) (UInt16.ofNat n)
  within : f + 24 + 2 * n ≤ mem.size

theorem HasFrame.of_bytes (h : HasFrame mem f site n) (size : mem'.size = mem.size)
    (same : ∀ k, f + 2 ≤ k → k < f + 24 → mem'.bytes[k]? = mem.bytes[k]?) :
    HasFrame mem' f site n := by
  have word {a : Nat} {w : UInt16} (hw : mem.HasWord a w) (hlo : f + 2 ≤ a) (hhi : a + 2 ≤ f + 24) :
      mem'.HasWord a w := hw.of_bytes (same a hlo (by omega)) (same (a + 1) (by omega) (by omega))
  have index : ∀ r ∈ Register.saved, 2 ≤ r.index ∧ r.index ≤ 9 := by decide
  constructor
  · exact word h.marker (by omega) (by omega)
  · exact word h.ret (by omega) (by omega)
  · intro r hr
    obtain ⟨hlo, hhi⟩ := index r hr
    exact word (h.saved r hr) (by omega) (by omega)
  · exact word h.count (by omega) (by omega)
  · rw [size]; exact h.within

theorem toNat_fp_entered (room : 20 ≤ (site.reg .sp).toNat) :
    (site.entered.reg .fp).toNat = (site.reg .sp).toNat - 20 := by
  have := (site.reg .sp).toNat_lt
  rw [reg_fp_entered, UInt16.toNat_sub]
  simp only [UInt16.reduceToNat]
  omega

theorem hasWord_entered {i : Nat} {w : UInt16} (room : 18 ≤ (site.reg .sp).toNat)
    (top : (site.reg .sp).toNat + 2 ≤ site.store.size) (hi : site.prologue[i]? = some w) :
    site.entered.store.HasWord ((site.reg .sp).toNat - 2 * i) w := by
  obtain ⟨hlt, rfl⟩ := List.getElem?_eq_some_iff.mp hi
  rw [store_entered]
  exact hasWord_pushedAll (by rw [length_prologue]; omega) top hlt

theorem hasFrame_entered (room : 20 ≤ (site.reg .sp).toNat)
    (within : (site.reg .sp).toNat + 4 + 2 * n ≤ site.store.size)
    (count : site.store.HasWord ((site.reg .sp).toNat + 2) (UInt16.ofNat n)) :
    HasFrame site.entered.store (site.entered.reg .fp).toNat site n := by
  have hfp := toNat_fp_entered room
  have word {a i : Nat} {w : UInt16} (hi : site.prologue[i]? = some w)
      (ha : a + 2 * i = (site.reg .sp).toNat) : site.entered.store.HasWord a w := by
    have h := hasWord_entered (by omega) (by omega) hi
    rwa [show (site.reg .sp).toNat - 2 * i = a by omega] at h
  have place : ∀ r ∈ Register.saved, 2 ≤ r.index ∧ r.index ≤ 9 ∧
      Register.saved[r.index - 2]? = some r := by decide
  have above {k : Nat} (h : (site.reg .sp).toNat + 2 ≤ k) :
      site.entered.store.bytes[k]? = site.store.bytes[k]? := by
    rw [store_entered]
    exact byte_pushedAll_of_apart (by rw [length_prologue]; omega) (Or.inr h)
  rw [hfp]
  constructor
  · exact word (i := 9) rfl (by omega)
  · exact word (i := 8) rfl (by omega)
  · intro r hr
    obtain ⟨hlo, hhi, hget⟩ := place r hr
    refine word (i := r.index - 2) ?_ (by omega)
    rw [prologue, List.getElem?_append_left (by change _ < 8; omega), List.getElem?_map, hget,
      Option.map_some]
  · rw [show (site.reg .sp).toNat - 20 + 22 = (site.reg .sp).toNat + 2 by omega]
    exact count.of_bytes (above (by omega)) (above (by omega))
  · rw [store_entered, size_pushedAll]
    omega

/-- What a caller has staged is still there when it calls: `sp`, the counter and the two bytes
of the count. All else may have changed. -/
structure StillStaged (ready site : Machine Memory) : Prop where
  size : site.store.size = ready.store.size
  sp : site.reg .sp = ready.reg .sp
  frameWords : site.frameWords = ready.frameWords
  count : ∀ k, (ready.reg .sp).toNat + 2 ≤ k → k < (ready.reg .sp).toNat + 4 →
    site.store.bytes[k]? = ready.store.bytes[k]?

namespace StillStaged

theorem refl (m : Machine Memory) : StillStaged m m := ⟨rfl, rfl, rfl, fun _ _ _ => rfl⟩

variable (h : StillStaged (m.staged args) site)
include h

theorem size_site : site.store.size = m.store.size := by
  rw [h.size, size_staged]

theorem frameWords_site : site.frameWords = m.frameWords + UInt16.ofNat args.length + 1 := by
  rw [h.frameWords, frameWords_staged]

theorem fp_entered : site.entered.reg .fp = m.reg .sp - 2 * UInt16.ofNat args.length - 22 := by
  rw [reg_fp_entered, h.sp, reg_sp_staged]
  grind

theorem toNat_sp_site (room : 2 * args.length + 2 ≤ (m.reg .sp).toNat) :
    (site.reg .sp).toNat = (m.reg .sp).toNat - 2 * args.length - 2 := by
  rw [h.sp, toNat_sp_staged m args room]

theorem hasFrame (room : 2 * args.length + 22 ≤ (m.reg .sp).toNat)
    (top : (m.reg .sp).toNat + 2 ≤ m.store.size) :
    HasFrame site.entered.store (site.entered.reg .fp).toNat site args.length := by
  have hs := h.toNat_sp_site (by omega)
  have count : (m.staged args).store.HasWord _ _ := hasWord_staged (by omega) top
  have kept := h.count
  rw [← h.sp] at kept
  refine hasFrame_entered (by omega) (by rw [h.size_site]; omega) ?_
  rw [show (site.reg .sp).toNat + 2 = (m.reg .sp).toNat - 2 * args.length by omega]
  exact count.of_bytes (kept _ (by omega) (by omega)) (kept _ (by omega) (by omega))

end StillStaged

/-- What a return leaves behind when it starts from the frame of a call on `site`. -/
structure ReturnsTo (site : Machine Memory) (n : Nat) (m m' : Machine Memory) : Prop where
  saved : ∀ r ∈ Register.saved, m'.reg r = site.reg r
  ip : m'.reg .ip = site.reg .ip
  sp : m'.reg .sp = m.reg .fp + 22 + 2 * UInt16.ofNat n
  fp : m'.reg .fp = m.reg .fp + (site.frameWords + 11)
  acc : m'.reg .acc = m.reg .acc
  store : m'.store = m.store
  frameWords : m'.frameWords = site.frameWords + 1 - UInt16.ofNat n

theorem popState_of_hasFrame (small : m.store.size ≤ 65536)
    (h : HasFrame m.store (m.reg .fp).toNat site n) :
    ∃ event m', popState m = .ok event m' ∧ ReturnsTo site n m m' := by
  have within := h.within
  have hmarker : m.marker = site.frameWords + 11 := h.marker.wordAt_eq
  have hret : m.returnAddress = site.reg .ip := h.ret.wordAt_eq
  have hcount : m.argCount = UInt16.ofNat n := h.count.wordAt_eq
  have hn : m.argCount.toNat = n := by
    rw [hcount, UInt16.toNat_ofNat']
    omega
  refine ⟨_, m.unwound, (popState_eq_ok_iff small).mpr ⟨by rw [hn]; exact within, rfl, rfl⟩, ?_⟩
  constructor
  · intro r hr
    rw [reg_saved_unwound (by omega) hr]
    exact (h.saved r hr).wordAt_eq
  · rw [reg_ip_unwound, hret]
  · rw [reg_sp_unwound, hcount]
  · rw [reg_fp_unwound, hmarker]
  · exact reg_acc_unwound
  · exact store_unwound
  · rw [frameWords_unwound, hmarker, hcount]
    grind

/-- A call is possible wherever there is room for its frame, and a return that starts from
that frame, with nothing else of the machine kept, restores the caller. -/
theorem return_restores_caller (m : Machine Memory) (args : List UInt16)
    (small : m.store.size ≤ 65536) (top : (m.reg .sp).toNat + 2 ≤ m.store.size)
    (room : 2 * args.length + 22 ≤ (m.reg .sp).toNat) :
    ∃ ready, stage args m = .ok () ready ∧ (∀ r, r ≠ .sp → ready.reg r = m.reg r) ∧
      ∀ site, StillStaged ready site →
        ∃ called callee, pushState site = .ok called callee ∧
          ∀ later : Machine Memory, later.store.size = callee.store.size →
            (∀ k, (callee.reg .fp).toNat + 2 ≤ k →
              k < (callee.reg .fp).toNat + 24 + 2 * args.length →
              later.store.bytes[k]? = callee.store.bytes[k]?) →
            later.reg .fp = callee.reg .fp →
            ∃ returned back, popState later = .ok returned back ∧
              (∀ r ∈ Register.saved, back.reg r = site.reg r) ∧ back.reg .ip = site.reg .ip ∧
              back.reg .sp = m.reg .sp ∧ back.reg .acc = later.reg .acc ∧
              back.store = later.store ∧
              back.reg .fp = callee.reg .fp + (m.frameWords + UInt16.ofNat args.length + 12) ∧
              back.frameWords = m.frameWords + 2 := by
  refine ⟨_, stage_of_room (by omega) top, fun r h => reg_staged_of_ne h.symm, ?_⟩
  intro site staged
  have hs := staged.toNat_sp_site (by omega)
  have hsize := staged.size_site
  refine ⟨_, _, pushState_of_room (by omega) (by omega), ?_⟩
  intro later size same hfp
  have frame := (staged.hasFrame room top).of_bytes size fun k hlo hhi => same k hlo (by omega)
  rw [← hfp] at frame
  have hlater : later.store.size ≤ 65536 := by
    rw [size, store_entered, size_pushedAll, hsize]
    exact small
  obtain ⟨event, back, hback, h⟩ := popState_of_hasFrame hlater frame
  refine ⟨event, back, hback, h.saved, h.ip, ?_, h.acc, h.store, ?_, ?_⟩
  · rw [h.sp, hfp, staged.fp_entered]
    grind
  · rw [h.fp, hfp, staged.frameWords_site]
    grind
  · rw [h.frameWords, staged.frameWords_site]
    grind

/-- Two arguments in a memory of 64 bytes, and a callee that spoils `r1` and `ip`. -/
theorem two_argument_call_returns :
    let m := (initial (Memory.zero 64) .strict).setReg .r1 5
    m.store.size ≤ 65536 ∧ (m.reg .sp).toNat + 2 ≤ m.store.size ∧ 2 * 2 + 22 ≤ (m.reg .sp).toNat ∧
      ∃ ready called callee returned back, stage [7, 9] m = .ok () ready ∧
        pushState ready = .ok called callee ∧
        popState ((callee.setReg .r1 99).setReg .ip 40) = .ok returned back ∧
        back.reg .r1 = 5 ∧ back.reg .ip = 0 ∧ back.reg .sp = 62 ∧ back.frameWords = 2 := by
  let m := (initial (Memory.zero 64) .strict).setReg .r1 5
  have small : m.store.size ≤ 65536 := by decide
  have top : (m.reg .sp).toNat + 2 ≤ m.store.size := by decide
  have room : 2 * 2 + 22 ≤ (m.reg .sp).toNat := by decide
  obtain ⟨ready, hready, keep, h⟩ := return_restores_caller m [7, 9] small top room
  obtain ⟨called, callee, hcall, h⟩ := h ready (StillStaged.refl ready)
  have hfp : ((callee.setReg .r1 99).setReg .ip 40).reg .fp = callee.reg .fp := by
    rw [reg_setReg_of_ne (by decide), reg_setReg_of_ne (by decide)]
  obtain ⟨returned, back, hback, saved, hip, hsp, -, -, -, hwords⟩ :=
    h ((callee.setReg .r1 99).setReg .ip 40) rfl (fun _ _ _ => rfl) hfp
  refine ⟨small, top, room, ready, called, callee, returned, back, hready, hcall, hback, ?_⟩
  refine ⟨?_, ?_, ?_, hwords⟩
  · rw [saved .r1 (by decide), keep .r1 (by decide)]
    decide
  · rw [hip, keep .ip (by decide)]
    decide
  · rw [hsp]
    decide

variable {vs : List UInt16} {k : Nat}

/-- The words lie in the store where a row of pushes writes them, high byte first, and all other
bytes are those of the machine. -/
structure StoresRow (m : Machine Memory) (vs : List UInt16) (store : Memory) : Prop where
  words : ∀ k (h : k < vs.length), store.HasWord (m.pushPlace k) vs[k]
  others : ∀ b, (∀ k < vs.length, b ≠ m.pushPlace k ∧ b ≠ m.pushPlace k + 1) →
    store.bytes[b]? = m.store.bytes[b]?

theorem storesRow_pushedAll (short : vs.length ≤ 32768)
    (fits : ∀ k < vs.length, m.pushPlace k + 2 ≤ m.store.size) :
    m.StoresRow vs (m.pushedAll vs).store :=
  ⟨fun k hk => hasWord_pushedAll_of_fits short hk (fits k hk), fun _ apart => byte_pushedAll apart⟩

/-- Whether all ten words of a call fit. Where `sp` wraps, the words go on at the top of the 16-bit
range, which holds whole words only for an even `sp` and a memory that has all of the range. -/
def HoldsCall (m : Machine Memory) : Prop :=
  (m.reg .sp).toNat + 2 ≤ m.store.size ∧
    (18 ≤ (m.reg .sp).toNat ∨ (m.reg .sp).toNat % 2 = 0 ∧ m.store.size = 65536)

theorem HoldsCall.fits (holds : m.HoldsCall) (hk : k < 10) : m.pushPlace k + 2 ≤ m.store.size := by
  obtain ⟨top, room⟩ := holds
  rw [pushPlace_eq (by omega)]
  split <;> omega

theorem pushState_of_holdsCall (holds : m.HoldsCall) :
    pushState m = .ok (.called (m.reg .sp - 20) (m.frameWords + 11) (m.reg .ip)) m.entered := by
  rw [pushState_apply, pushAll_of_fits fun _ => holds.fits]

theorem pushPlace_at_wrap (low : (m.reg .sp).toNat < 18) :
    m.pushPlace ((m.reg .sp).toNat / 2 + 1) = 0xFFFE + (m.reg .sp).toNat % 2 := by
  rw [pushPlace_eq (by omega)]
  split <;> omega

theorem pushPlace_fits_before_wrap (top : (m.reg .sp).toNat + 2 ≤ m.store.size)
    (hk : k < (m.reg .sp).toNat / 2 + 1) : m.pushPlace k + 2 ≤ m.store.size := by
  rw [pushPlace_of_room (by omega)]
  omega

theorem reg_entered_of_ne {r : Register} (sp : r ≠ .sp) (fp : r ≠ .fp) :
    m.entered.reg r = m.reg r := by
  rw [entered, reg_mk, get_registers, reg_setReg_of_ne fp.symm, reg_pushedAll_of_ne sp.symm]

theorem reg_sp_entered : m.entered.reg .sp = m.reg .sp - 20 := by
  rw [entered, reg_mk, get_registers, reg_setReg_of_ne (by decide), reg_sp_pushedAll]
  rfl

/-- How a call of `target` ends: as its prologue does, and at the target only if that goes through. -/
def callEnding (m : Machine Memory) (target : UInt16) :
    EStateM.Result Fault (Machine Memory) (Option Event) :=
  match pushState m with
  | .ok event m' => .ok (some event) (m'.setReg .ip target)
  | .error fault left => .error fault left

theorem call_bind_some (m : Machine Memory) (target : UInt16) :
    (call target >>= fun event => pure (some event)) m = m.callEnding target := by
  cases h : pushState m with
  | ok event m' =>
    have done : call target m = .ok event (m'.setReg .ip target) := bind_of_ok _ h
    rw [bind_of_ok _ done, callEnding, h]
    rfl
  | error fault left =>
    have failed : call target m = .error fault left := bind_of_error _ h
    rw [bind_of_error _ failed, callEnding, h]

theorem apply_calLit (m : Machine Memory) (target : UInt16) :
    apply (.calLit target) m = m.callEnding target := call_bind_some m target

/-- The target is read before the prologue changes any register. -/
theorem apply_calReg (m : Machine Memory) (r : Register) :
    apply (.calReg r.offset) m = m.callEnding (m.reg r) := by
  have target : getSlot r.offset m = .ok (m.reg r) m := by
    have inside := m.registers.readSlot_of_inside r.offset_add_one_lt
    rw [getSlot, attempt, inside]
    rfl
  exact (bind_of_ok _ target).trans (call_bind_some m _)

/-- The prologue of a call, from every state. The words of a prologue that goes through lie below
each other from `sp` on, modulo the 16-bit range. One that starts where no word fits changes
nothing. Any other that fails has let `sp` wrap and stopped there. -/
theorem call_prologue_stores_row (m : Machine Memory) (small : m.store.size ≤ 65536) :
    let s := (m.reg .sp).toNat
    let size := m.store.size
    let words := Register.saved.map m.reg ++ [m.reg .ip, m.frameWords + 11]
    ((∃ event m', pushState m = .ok event m') ↔
      s + 2 ≤ size ∧ (18 ≤ s ∨ s % 2 = 0 ∧ size = 65536)) ∧
    (∀ event m', pushState m = .ok event m' →
      m.StoresRow words m'.store ∧ m'.reg .sp = m.reg .sp - 20 ∧ m'.reg .fp = m.reg .sp - 20 ∧
      m'.frameWords = 0 ∧ ∀ r, r ≠ .sp → r ≠ .fp → m'.reg r = m.reg r) ∧
    (size < s + 2 → pushState m = .error (.outOfBounds (m.reg .sp).toUInt32 2 size) m) ∧
    (s + 2 ≤ size → ¬ (18 ≤ s ∨ s % 2 = 0 ∧ size = 65536) →
      ∃ left, pushState m = .error (.outOfBounds (left.reg .sp).toUInt32 2 size) left ∧
        m.StoresRow (words.take (s / 2 + 1)) left.store ∧
        (left.reg .sp).toNat = 0xFFFE + s % 2 ∧
        left.frameWords = m.frameWords + UInt16.ofNat (s / 2 + 1) ∧
        ∀ r, r ≠ .sp → left.reg r = m.reg r) ∧
    (∀ target, apply (.calLit target) m = m.callEnding target) ∧
    ∀ r : Register, apply (.calReg r.offset) m = m.callEnding (m.reg r) := by
  intro s size words
  -- a prologue that does not fit is refused, at once or after `sp` has wrapped
  have refused (top : s + 2 ≤ size) (short : ¬ (18 ≤ s ∨ s % 2 = 0 ∧ size = 65536)) :
      pushState m = .error (.outOfBounds
          ((m.pushedAll (words.take (s / 2 + 1))).reg .sp).toUInt32 2 size)
        (m.pushedAll (words.take (s / 2 + 1))) := by
    have wraps : m.pushPlace (s / 2 + 1) = 0xFFFE + s % 2 := pushPlace_at_wrap (by omega)
    exact pushState_refused (by omega) (fun _ => pushPlace_fits_before_wrap top) (by omega)
  refine ⟨⟨?_, ?_⟩, ?_, pushState_refused_at_once, ?_, apply_calLit m, apply_calReg m⟩
  · rintro ⟨event, m', done⟩
    by_cases top : s + 2 ≤ size
    · refine ⟨top, ?_⟩
      by_contra short
      cases done.symm.trans (refused top short)
    · cases done.symm.trans (pushState_refused_at_once (Nat.lt_of_not_le top))
  · intro holds
    exact ⟨_, _, pushState_of_holdsCall holds⟩
  · intro event m' done
    have holds : m.HoldsCall := by
      by_contra not_held
      by_cases top : s + 2 ≤ size
      · cases done.symm.trans (refused top fun room => not_held ⟨top, room⟩)
      · cases done.symm.trans (pushState_refused_at_once (Nat.lt_of_not_le top))
    obtain ⟨-, rfl⟩ := EStateM.Result.ok.inj ((pushState_of_holdsCall holds).symm.trans done)
    refine ⟨?_, reg_sp_entered, reg_fp_entered, rfl, fun r sp fp => reg_entered_of_ne sp fp⟩
    rw [store_entered]
    exact storesRow_pushedAll (Nat.le_of_lt (by decide : 10 < 32768)) fun _ => holds.fits
  · intro top short
    have low : s < 18 := by omega
    have count : (words.take (s / 2 + 1)).length = s / 2 + 1 := by
      rw [List.length_take]
      change min (s / 2 + 1) 10 = _
      omega
    refine ⟨_, refused top short, storesRow_pushedAll (by omega) ?_, ?_, ?_, ?_⟩
    · intro k hk
      rw [count] at hk
      exact pushPlace_fits_before_wrap top hk
    · rw [toNat_sp_pushedAll_eq_pushPlace, count]
      exact pushPlace_at_wrap low
    · rw [frameWords_pushedAll, count]
    · intro r hr
      exact reg_pushedAll_of_ne hr.symm

/-- In a memory of six bytes three words of a call fit. In one of the whole 16-bit range a call from
the second-lowest place wraps, and when it jumps by `sp`, it jumps to where `sp` was before. -/
theorem cut_and_wrapping_calls :
    let cut := (initial (Memory.zero 6) .strict).setReg .r2 7
    let whole := ((initial (Memory.zero 65536) .strict).setReg .sp 2).setReg .ip 40
    cut.store.size ≤ 65536 ∧ whole.store.size ≤ 65536 ∧
      (∃ left, pushState cut = .error (.outOfBounds 0xFFFE 2 6) left ∧
        left.store.HasWord 2 7 ∧ left.frameWords = 3 ∧ left.reg .ip = 0) ∧
      ∃ event m', apply (.calReg Register.sp.offset) whole = .ok (some event) m' ∧
        m'.reg .ip = 2 ∧ m'.reg .sp = 65518 ∧ m'.store.HasWord 65522 40 := by
  intro cut whole
  have small : cut.store.size ≤ 65536 := by decide
  have size : whole.store.size = 65536 := Memory.size_zero 65536
  have sp : whole.reg .sp = 2 := by
    rw [reg_setReg_of_ne (by decide), reg_setReg_self]
  have ip : whole.reg .ip = 40 := reg_setReg_self
  refine ⟨small, Nat.le_of_eq size, ?_, ?_⟩
  · obtain ⟨-, -, -, wrapped, -⟩ := call_prologue_stores_row cut small
    obtain ⟨left, failed, row, hsp, words, others⟩ := wrapped (by decide) (by decide)
    have top : (left.reg .sp).toUInt32 = 0xFFFE := by
      apply UInt32.toNat_inj.mp
      rw [UInt16.toNat_toUInt32, hsp]
      decide
    rw [top] at failed
    have place : cut.pushPlace 1 = 2 := by decide
    have second : cut.reg .r2 = 7 := reg_setReg_self
    have stored := row.words 1 (by decide)
    rw [place, List.getElem_take] at stored
    have count : cut.frameWords + UInt16.ofNat ((cut.reg .sp).toNat / 2 + 1) = 3 := by decide
    have ip : cut.reg .ip = 0 := by decide
    exact ⟨left, failed, second ▸ stored, words.trans count, (others .ip (by decide)).trans ip⟩
  · obtain ⟨succeeds, stores, -, -, -, calls⟩ :=
      call_prologue_stores_row whole (Nat.le_of_eq size)
    obtain ⟨event, m', done⟩ := succeeds.mpr (by rw [sp, size]; decide)
    obtain ⟨row, hsp, -, -, -⟩ := stores event m' done
    have jumped := calls .sp
    rw [callEnding, done, sp] at jumped
    refine ⟨event, _, jumped, reg_setReg_self, ?_, ?_⟩
    · rw [reg_setReg_of_ne (by decide), hsp, sp]
      rfl
    · have stored := row.words 8 (by decide)
      have place : whole.pushPlace 8 = 65522 := by
        rw [pushPlace, sp]
        rfl
      rw [place] at stored
      exact ip ▸ stored

end FrameMachine.Machine
