import FrameMachine.Proofs.Stack.Call

/-!
# Nested calls

Chains of calls that are all under way, and what it takes for as many returns to unwind
them. Each return restores its caller as long as it starts from the caller's own frame;
it then leaves `fp` where the count of words says, so the return after it finds the next
frame only if that count happens to be the distance in bytes. Counters that count what
lies between `sp` and `fp` never do.
-/
namespace FrameMachine

/-- A call under way: the caller before it staged the arguments, the machine that made the
call, and the one that the callee was given. -/
structure Call where
  caller : Machine Memory
  args : List UInt16
  site : Machine Memory
  callee : Machine Memory

namespace Call

/-- The convention: there is room, the arguments and their number are pushed, and the caller
calls with these on top of the stack. -/
structure Follows (c : Call) : Prop where
  top : (c.caller.reg .sp).toNat + 2 ≤ c.caller.store.size
  room : 2 * c.args.length + 22 ≤ (c.caller.reg .sp).toNat
  staged : ∃ ready, Machine.stage c.args c.caller = .ok () ready ∧ Machine.StillStaged ready c.site
  fp : c.site.reg .fp = c.caller.reg .fp
  entered : ∃ event, Machine.pushState c.site = .ok event c.callee

/-- The bytes of the call's frame, arguments included. -/
def Owns (c : Call) (k : Nat) : Prop :=
  (c.callee.reg .fp).toNat + 2 ≤ k ∧ k < (c.callee.reg .fp).toNat + 24 + 2 * c.args.length

/-- The memory holds the call's frame as the call left it. -/
structure Intact (c : Call) (m : Machine Memory) : Prop where
  size : m.store.size = c.callee.store.size
  bytes : ∀ k, c.Owns k → m.store.bytes[k]? = c.callee.store.bytes[k]?

/-- What the caller must find again after the return. -/
structure Restored (c : Call) (m : Machine Memory) : Prop where
  saved : ∀ r ∈ Register.saved, m.reg r = c.site.reg r
  ip : m.reg .ip = c.site.reg .ip
  sp : m.reg .sp = c.caller.reg .sp

/-- The frame pointer after the return: that of the callee, and the marker on top. -/
def fpAfter (c : Call) : UInt16 :=
  c.callee.reg .fp + (c.caller.frameWords + UInt16.ofNat c.args.length + 12)

/-- The marker is the distance from the callee's frame pointer to the caller's. -/
def Aligned (c : Call) : Prop :=
  c.caller.reg .sp + c.caller.frameWords =
    c.caller.reg .fp + UInt16.ofNat c.args.length + 10

instance (c : Call) : Decidable c.Aligned := inferInstanceAs (Decidable (_ = _))

end Call

namespace Machine

/-- The counter counts the words between `sp` and `fp`. -/
def Counted (m : Machine Memory) : Prop :=
  (m.reg .fp).toNat = (m.reg .sp).toNat + 2 * m.frameWords.toNat

/-- What code may do while the calls are under way: neither `fp` nor a byte of their frames
changes. Pushes and pops of its own are among it. -/
structure Undisturbed (calls : List Call) (m m' : Machine Memory) : Prop where
  size : m'.store.size = m.store.size
  fp : m'.reg .fp = m.reg .fp
  bytes : ∀ c ∈ calls, ∀ k, c.Owns k → m'.store.bytes[k]? = m.store.bytes[k]?

/-- The calls that are under way on a machine, the innermost first. Between two calls `sp` may
move, but not back above the frames. -/
inductive Nested : List Call → Machine Memory → Prop where
  | start (m : Machine Memory) (small : m.store.size ≤ 65536) : Nested [] m
  | call {calls : List Call} {m m' : Machine Memory} {target : UInt16} {event : Event} (c : Call)
      (outer : Nested calls m) (between : Undisturbed calls m c.site)
      (below : calls ≠ [] → (c.caller.reg .sp).toNat ≤ (c.caller.reg .fp).toNat)
      (follows : c.Follows) (jump : Machine.call target c.site = .ok event m') :
      Nested (c :: calls) m'

/-- As many returns as there are calls restore the callers in turn, and each but the last
leaves the frame pointer that the caller, itself a callee, had. Code may run in between. -/
def Unwinds : List Call → Machine Memory → Prop
  | [], _ => True
  | c :: calls, m => ∃ event back, popState m = .ok event back ∧ c.Restored back ∧
      (calls ≠ [] → back.reg .fp = c.caller.reg .fp) ∧
      ∀ later, Undisturbed calls back later → Unwinds calls later

variable {calls : List Call} {c : Call} {m m' m'' : Machine Memory}

theorem Undisturbed.refl (calls : List Call) (m : Machine Memory) : Undisturbed calls m m :=
  ⟨rfl, rfl, fun _ _ _ _ => rfl⟩

theorem Undisturbed.trans (h : Undisturbed calls m m') (k : Undisturbed calls m' m'') :
    Undisturbed calls m m'' :=
  ⟨k.size.trans h.size, k.fp.trans h.fp,
    fun c hc i hi => (k.bytes c hc i hi).trans (h.bytes c hc i hi)⟩

end Machine

namespace Call

open Machine

variable {c : Call} {m : Machine Memory} {k : Nat}

theorem Follows.stillStaged (h : c.Follows) : StillStaged (c.caller.staged c.args) c.site := by
  have room := h.room
  obtain ⟨ready, hready, still⟩ := h.staged
  rw [stage_of_room (by omega) h.top] at hready
  cases hready
  exact still

theorem Follows.toNat_sp_site (h : c.Follows) :
    (c.site.reg .sp).toNat = (c.caller.reg .sp).toNat - 2 * c.args.length - 2 := by
  have room := h.room
  exact h.stillStaged.toNat_sp_site (by omega)

theorem Follows.callee_eq (h : c.Follows) : c.callee = c.site.entered := by
  have room := h.room
  have hs := h.toNat_sp_site
  obtain ⟨event, hentered⟩ := h.entered
  exact ((pushState_eq_ok_iff (by omega)).mp hentered).2.2

theorem Follows.fp_callee (h : c.Follows) : c.callee.reg .fp =
    c.caller.reg .sp - 2 * UInt16.ofNat c.args.length - 22 := by
  rw [h.callee_eq, h.stillStaged.fp_entered]

theorem Follows.toNat_fp_callee (h : c.Follows) : (c.callee.reg .fp).toNat + 22 +
    2 * c.args.length = (c.caller.reg .sp).toNat := by
  have room := h.room
  have hs := h.toNat_sp_site
  rw [h.callee_eq, toNat_fp_entered (by omega)]
  omega

theorem Follows.size_callee (h : c.Follows) : c.callee.store.size = c.site.store.size := by
  rw [h.callee_eq, store_entered, size_pushedAll]

theorem Follows.byte_callee (h : c.Follows) (hk : (c.caller.reg .sp).toNat + 2 ≤ k) :
    c.callee.store.bytes[k]? = c.site.store.bytes[k]? := by
  have room := h.room
  have hs := h.toNat_sp_site
  rw [h.callee_eq, store_entered,
    byte_pushedAll_of_apart (by rw [length_prologue]; omega) (Or.inr (by omega))]

theorem Follows.hasFrame (h : c.Follows) (intact : c.Intact m)
    (fp : m.reg .fp = c.callee.reg .fp) :
    HasFrame m.store (m.reg .fp).toNat c.site c.args.length := by
  have frame := h.stillStaged.hasFrame h.room h.top
  rw [← h.callee_eq] at frame
  rw [fp]
  exact frame.of_bytes intact.size fun k hlo hhi => intact.bytes k ⟨hlo, by omega⟩

/-- The return from an intact frame: the caller is restored, but for a frame pointer that the
marker has moved. -/
theorem Follows.popState (h : c.Follows) (small : m.store.size ≤ 65536) (intact : c.Intact m)
    (fp : m.reg .fp = c.callee.reg .fp) :
    ∃ event back, Machine.popState m = .ok event back ∧ c.Restored back ∧
      back.store = m.store ∧ back.reg .fp = c.fpAfter := by
  obtain ⟨event, back, hback, hr⟩ := popState_of_hasFrame small (h.hasFrame intact fp)
  refine ⟨event, back, hback, ⟨hr.saved, hr.ip, ?_⟩, hr.store, ?_⟩
  · rw [hr.sp, fp, h.fp_callee]
    grind
  · rw [hr.fp, fp, h.stillStaged.frameWords_site, fpAfter]
    grind

theorem Follows.fpAfter_eq_iff (h : c.Follows) : c.fpAfter = c.caller.reg .fp ↔ c.Aligned := by
  rw [fpAfter, h.fp_callee, Aligned]
  grind

theorem Follows.eq_of_call {target : UInt16} {event : Event} (h : c.Follows)
    (jump : Machine.call target c.site = .ok event m) : m = c.callee.setReg .ip target := by
  obtain ⟨called, hcall⟩ := h.entered
  rw [Machine.call, bind_of_ok _ hcall, putReg_bind, pure_apply] at jump
  exact (EStateM.Result.ok.inj jump).2.symm

theorem Follows.words_lt (h : c.Follows) (counted : c.caller.Counted) :
    c.caller.frameWords.toNat + c.args.length + 11 < 32768 := by
  have room := h.room
  have hfp := (c.caller.reg .fp).toNat_lt
  rw [Machine.Counted] at counted
  omega

/-- Where a counter counts the words between `sp` and `fp`, the marker, which counts words as
well, falls short of the distance. -/
theorem Follows.not_aligned (h : c.Follows) (counted : c.caller.Counted) : ¬ c.Aligned := by
  intro aligned
  have words := h.words_lt counted
  have hsp := (c.caller.reg .sp).toNat_lt
  rw [Machine.Counted] at counted
  have sums := congrArg UInt16.toNat aligned
  simp only [UInt16.toNat_add, UInt16.toNat_ofNat', UInt16.reduceToNat] at sums
  omega

end Call

namespace Machine

variable {calls : List Call} {c : Call} {m m' back : Machine Memory}

theorem Nested.size_le (h : Nested calls m) : m.store.size ≤ 65536 := by
  induction h with
  | start m small => exact small
  | call c outer between below follows jump ih =>
    rw [follows.eq_of_call jump, store_setReg, follows.size_callee, between.size]
    exact ih

theorem Nested.fp_le (h : Nested calls m) :
    ∀ c ∈ calls, (m.reg .fp).toNat ≤ (c.callee.reg .fp).toNat := by
  induction h with
  | start m small =>
    intro c hc
    cases hc
  | call c outer between below follows jump ih =>
    intro d hd
    rw [follows.eq_of_call jump, reg_setReg_of_ne (by decide)]
    rcases List.mem_cons.mp hd with rfl | hd
    · exact Nat.le_refl _
    · have hfp := follows.toNat_fp_callee
      have hsp := below (List.ne_nil_of_mem hd)
      have hout := ih d hd
      rw [← between.fp, follows.fp] at hout
      omega

section Innermost

variable {target : UInt16} (outer : Nested calls m) (between : Undisturbed calls m c.site)
  (below : calls ≠ [] → (c.caller.reg .sp).toNat ≤ (c.caller.reg .fp).toNat) (follows : c.Follows)
include outer between follows

/-- The return from the innermost call, whatever the callee did to its own registers. -/
theorem Nested.popState (kept : Undisturbed (c :: calls) (c.callee.setReg .ip target) m') :
    ∃ event back, Machine.popState m' = .ok event back ∧ c.Restored back ∧
      back.store = m'.store ∧ back.reg .fp = c.fpAfter := by
  have size : m'.store.size = c.callee.store.size := by rw [kept.size, store_setReg]
  have intact : c.Intact m' := by
    refine ⟨size, fun k hk => ?_⟩
    rw [kept.bytes c List.mem_cons_self k hk, store_setReg]
  have fp : m'.reg .fp = c.callee.reg .fp := by rw [kept.fp, reg_setReg_of_ne (by decide)]
  refine follows.popState ?_ intact fp
  rw [size, follows.size_callee, between.size]
  exact outer.size_le

include below

theorem Nested.byte_callee {d : Call} {k : Nat} (hd : d ∈ calls) (hk : d.Owns k) :
    c.callee.store.bytes[k]? = m.store.bytes[k]? := by
  have hsp := below (List.ne_nil_of_mem hd)
  have hfp := outer.fp_le d hd
  rw [← between.fp, follows.fp] at hfp
  have above : (c.caller.reg .sp).toNat + 2 ≤ k := by
    have := hk.1
    omega
  rw [follows.byte_callee above, between.bytes d hd k hk]

theorem Nested.undisturbed_back
    (kept : Undisturbed (c :: calls) (c.callee.setReg .ip target) m')
    (store : back.store = m'.store) (fp : back.reg .fp = c.caller.reg .fp) :
    Undisturbed calls m back := by
  constructor
  · rw [store, kept.size, store_setReg, follows.size_callee, between.size]
  · rw [fp, ← follows.fp, between.fp]
  · intro d hd k hk
    rw [store, kept.bytes d (List.mem_cons_of_mem c hd) k hk, store_setReg]
    exact outer.byte_callee between below follows hd hk

end Innermost

theorem Nested.unwinds_iff (h : Nested calls m) (later : Undisturbed calls m m') :
    Unwinds calls m' ↔ ∀ c ∈ calls.dropLast, c.Aligned := by
  induction h generalizing m' with
  | start m small => exact iff_of_true trivial nofun
  | @call calls m _ _ _ c outer between below follows jump ih =>
    rw [follows.eq_of_call jump] at later
    obtain ⟨event, back, hback, restored, store, hfp⟩ := outer.popState between follows later
    have haligned := follows.fpAfter_eq_iff
    rw [← hfp] at haligned
    rw [Unwinds]
    by_cases last : calls = []
    · subst last
      refine iff_of_true ⟨event, back, hback, restored, fun h => absurd rfl h, ?_⟩ nofun
      intro _ _
      trivial
    rw [List.dropLast_cons_of_ne_nil last, List.forall_mem_cons]
    constructor
    · rintro ⟨event', back', hback', -, fp, rest⟩
      obtain ⟨-, rfl⟩ := EStateM.Result.ok.inj (hback.symm.trans hback')
      have aligned := haligned.mp (fp last)
      have handed := outer.undisturbed_back between below follows later store (fp last)
      exact ⟨aligned, (ih handed).mp (rest back (Undisturbed.refl calls back))⟩
    · rintro ⟨aligned, inner⟩
      have fp := haligned.mpr aligned
      have handed := outer.undisturbed_back between below follows later store fp
      exact ⟨event, back, hback, restored, fun _ => fp,
        fun _ kept => (ih (handed.trans kept)).mpr inner⟩

theorem Nested.follows (h : Nested calls m) : ∀ c ∈ calls, c.Follows := by
  induction h with
  | start m small => exact nofun
  | call c outer between below follows jump ih =>
    intro d hd
    rcases List.mem_cons.mp hd with rfl | hd
    · exact follows
    · exact ih d hd

theorem Nested.not_aligned_of_counted (h : Nested calls m)
    (counted : ∀ c ∈ calls.dropLast, c.caller.Counted) :
    (∀ c ∈ calls.dropLast, c.Aligned) ↔ calls.length ≤ 1 := by
  have length := calls.length_dropLast
  constructor
  · intro aligned
    by_contra deep
    obtain ⟨c, hc⟩ := List.exists_mem_of_length_pos (l := calls.dropLast) (by omega)
    exact (h.follows c (List.dropLast_subset calls hc)).not_aligned (counted c hc) (aligned c hc)
  · intro shallow c hc
    have := List.length_pos_of_mem hc
    omega

/-- The innermost return restores its caller, and nested calls unwind exactly if the marker of
each but the outermost is the distance between the two frames. No marker is where the
callers' counters count the words between `sp` and `fp`: there nothing deeper than a single
call unwinds. -/
theorem nested_calls_unwind_iff (h : Nested calls m) (later : Undisturbed calls m m') :
    (∀ c ∈ calls.head?, ∃ event back, popState m' = .ok event back ∧ c.Restored back ∧
      back.reg .fp = c.fpAfter) ∧
    (Unwinds calls m' ↔ ∀ c ∈ calls.dropLast, c.Aligned) ∧
    ((∀ c ∈ calls.dropLast, c.caller.Counted) → (Unwinds calls m' ↔ calls.length ≤ 1)) := by
  refine ⟨?_, h.unwinds_iff later, fun counted =>
    (h.unwinds_iff later).trans (h.not_aligned_of_counted counted)⟩
  intro c hc
  cases h with
  | start => cases hc
  | call d outer between below follows jump =>
    obtain rfl : d = c := Option.some.inj hc
    rw [follows.eq_of_call jump] at later
    obtain ⟨event, back, hback, restored, -, hfp⟩ := outer.popState between follows later
    exact ⟨event, back, hback, restored, hfp⟩

end Machine

def Call.direct (m : Machine Memory) (args : List UInt16) : Call :=
  ⟨m, args, m.staged args, (m.staged args).entered⟩

namespace Machine

variable {calls : List Call} {m : Machine Memory} {args : List UInt16}

theorem pushState_direct (room : 2 * args.length + 22 ≤ (m.reg .sp).toNat)
    (top : (m.reg .sp).toNat + 2 ≤ m.store.size) :
    ∃ event, pushState (m.staged args) = .ok event (Call.direct m args).callee := by
  have hs := toNat_sp_staged m args (by omega)
  exact ⟨_, pushState_of_room (by omega) (by rw [size_staged]; omega)⟩

theorem direct_follows (room : 2 * args.length + 22 ≤ (m.reg .sp).toNat)
    (top : (m.reg .sp).toNat + 2 ≤ m.store.size) : (Call.direct m args).Follows where
  top := top
  room := room
  staged := by
    have ready : stage args m = .ok () (m.staged args) := stage_of_room (by omega) top
    exact ⟨m.staged args, ready, StillStaged.refl _⟩
  fp := reg_staged_of_ne (by decide)
  entered := pushState_direct room top

theorem Nested.undisturbed_staged (h : Nested calls m)
    (below : calls ≠ [] → (m.reg .sp).toNat ≤ (m.reg .fp).toNat)
    (room : 2 * args.length ≤ (m.reg .sp).toNat) : Undisturbed calls m (m.staged args) := by
  refine ⟨size_staged, reg_staged_of_ne (by decide), fun d hd k hk => ?_⟩
  have hsp := below (List.ne_nil_of_mem hd)
  have hfp := h.fp_le d hd
  have hlo := hk.1
  exact byte_staged_of_above room (by omega)

theorem Nested.deeper (h : Nested calls m)
    (below : calls ≠ [] → (m.reg .sp).toNat ≤ (m.reg .fp).toNat)
    (room : 2 * args.length + 22 ≤ (m.reg .sp).toNat)
    (top : (m.reg .sp).toNat + 2 ≤ m.store.size) (target : UInt16) :
    Nested (Call.direct m args :: calls) ((m.staged args).entered.setReg .ip target) := by
  obtain ⟨event, hcall⟩ := pushState_direct room top
  have jump : Machine.call target (m.staged args) =
      .ok event ((Call.direct m args).callee.setReg .ip target) := by
    rw [Machine.call, bind_of_ok _ hcall, putReg_bind, pure_apply]
  exact .call _ h (h.undisturbed_staged below (by omega)) below (direct_follows room top) jump

end Machine

namespace Call

def outermost : Call := .direct (Machine.initial (Memory.zero 64) .strict) []

def innermost : Call := .direct (outermost.callee.setReg .ip 0) []

end Call

namespace Machine

open Call

def twoDeep : Machine Memory := innermost.callee.setReg .ip 0

theorem nested_twoDeep : Nested [innermost, outermost] twoDeep := by
  have once : Nested [outermost] (outermost.callee.setReg .ip 0) :=
    (Nested.start (initial (Memory.zero 64) .strict) (by decide)).deeper nofun (by decide)
      (by decide) 0
  exact once.deeper (fun _ => by decide +kernel) (by decide +kernel) (by decide +kernel) 0

/-- Neither return faults, and still the second does not restore the machine. -/
theorem nested_calls_counterexample :
    Nested [innermost, outermost] twoDeep ∧ ¬ Unwinds [innermost, outermost] twoDeep ∧
      ∃ first back second last, popState twoDeep = .ok first back ∧
        popState back = .ok second last ∧ ¬ outermost.Restored last := by
  have small := nested_twoDeep.size_le
  have first := (popState_eq_ok_iff (m := twoDeep) small).mpr ⟨by decide +kernel, rfl, rfl⟩
  have second := (popState_eq_ok_iff (m := twoDeep.unwound) (by rwa [store_unwound])).mpr
    ⟨by decide +kernel, rfl, rfl⟩
  refine ⟨nested_twoDeep, fun h => ?_, _, _, _, _, first, second, fun h => ?_⟩
  · have misses : ¬ innermost.Aligned := by decide +kernel
    have aligned := (nested_twoDeep.unwinds_iff (Undisturbed.refl _ _)).mp h
    exact misses (aligned innermost List.mem_cons_self)
  · have hsp : twoDeep.unwound.unwound.reg .sp ≠ outermost.caller.reg .sp := by decide +kernel
    exact hsp h.sp

/-- The callee spoils `r1`; the first return puts it back, and leaves `fp` at 30, not at 40. -/
theorem two_nested_calls_do_not_unwind :
    Nested [innermost, outermost] twoDeep ∧
      Undisturbed [innermost, outermost] twoDeep (twoDeep.setReg .r1 7) ∧
      innermost.caller.Counted ∧ ¬ Unwinds [innermost, outermost] (twoDeep.setReg .r1 7) ∧
      ∃ event back, popState (twoDeep.setReg .r1 7) = .ok event back ∧
        innermost.Restored back ∧ back.reg .fp = 30 ∧ innermost.caller.reg .fp = 40 := by
  have kept : Undisturbed [innermost, outermost] twoDeep (twoDeep.setReg .r1 7) :=
    ⟨by rw [store_setReg], reg_setReg_of_ne (by decide), fun _ _ _ _ => by rw [store_setReg]⟩
  have counted : innermost.caller.Counted := by
    rw [Counted]
    decide +kernel
  obtain ⟨returns, -, shallow⟩ := nested_calls_unwind_iff nested_twoDeep kept
  obtain ⟨event, back, hback, restored, hfp⟩ := returns innermost rfl
  refine ⟨nested_twoDeep, kept, counted, fun h => ?_, event, back, hback, restored, ?_, ?_⟩
  · have callers : ∀ c ∈ [innermost, outermost].dropLast, c.caller.Counted :=
      fun c hc => List.mem_singleton.mp hc ▸ counted
    exact absurd ((shallow callers).mp h) (by decide)
  · rw [hfp]
    decide +kernel
  · decide +kernel

end Machine

end FrameMachine
