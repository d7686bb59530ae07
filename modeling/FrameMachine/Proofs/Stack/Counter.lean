import FrameMachine.Proofs.Stack.Nesting

/-!
# The counter of words

Whether `frameWords` counts the words of the current frame, that is `fp = sp + 2 * frameWords`.
Pushes, pops and calls keep the relation. A return takes the counter and the move of `fp`
from one marker, and the relation survives only one value of it. The marker that a call
has written is that value only if its caller's counter was out of range.
-/
namespace FrameMachine

/-- A return from a call that is under way. -/
structure Return where
  call : Call
  start : Machine Memory

/-- The return matches its call, whose frame is intact. -/
structure Return.Matches (r : Return) : Prop where
  follows : r.call.Follows
  intact : r.call.Intact r.start

namespace Machine

/-- The frame has as many words as the counter says, up to wrap-around. -/
def Balanced (m : Machine Memory) : Prop := m.reg .fp = m.reg .sp + 2 * m.frameWords

/-- Bracketed runs from a fresh machine, with the calls still under way, the innermost first,
and the return that the current frame was last entered by, if it was entered by one. -/
inductive Bracketed : List Call → Option Return → Machine Memory → Prop where
  | fresh (store : Memory) (policy : OpcodePolicy) (small : store.size ≤ 65536) :
      Bracketed [] none (initial store policy)
  | push {calls : List Call} {last : Option Return} {m m' : Machine Memory} {v : UInt16}
      (run : Bracketed calls last m) (pushes : Machine.push v m = .ok () m') :
      Bracketed calls last m'
  | pop {calls : List Call} {last : Option Return} {m m' : Machine Memory} {v : UInt16}
      (run : Bracketed calls last m) (pops : Machine.pop m = .ok v m') : Bracketed calls last m'
  | call {calls : List Call} {last : Option Return} {event : Event} (c : Call)
      (run : Bracketed calls last c.site) (room : 20 ≤ (c.site.reg .sp).toNat)
      (called : pushState c.site = .ok event c.callee) : Bracketed (c :: calls) none c.callee
  | ret {calls : List Call} {last : Option Return} {event : Event} {m' : Machine Memory}
      (r : Return) (run : Bracketed (r.call :: calls) last r.start) (intact : r.Matches)
      (returns : popState r.start = .ok event m') : Bracketed calls (some r) m'

variable {m : Machine Memory} {v : UInt16} {calls : List Call} {last : Option Return} {r : Return}

theorem balanced_initial {store : Memory} {policy : OpcodePolicy} :
    (initial store policy).Balanced := by
  have hwords : (initial store policy).frameWords = 0 := rfl
  rw [Balanced, reg_fp_initial, reg_sp_initial, hwords]
  grind

theorem balanced_pushed : (m.pushed v).Balanced ↔ m.Balanced := by
  rw [Balanced, Balanced, reg_pushed_of_ne (by decide), reg_sp_pushed, frameWords_pushed]
  grind

theorem balanced_popped : m.popped.Balanced ↔ m.Balanced := by
  rw [Balanced, Balanced, reg_popped_of_ne (by decide), reg_sp_popped, frameWords_popped]
  grind

theorem balanced_entered : m.entered.Balanced := by
  have hsp : m.entered.reg .sp = m.reg .sp - 20 := by
    rw [entered, reg_mk, get_registers, reg_setReg_of_ne (by decide), reg_sp_pushedAll,
      length_prologue]
    rfl
  rw [Balanced, reg_fp_entered, hsp, frameWords_entered]
  grind

/-- The marker moves `fp` once, and through the counter it counts twice. -/
theorem balanced_unwound : m.unwound.Balanced ↔ m.marker = 0xFFFE := by
  rw [Balanced, reg_fp_unwound, reg_sp_unwound, frameWords_unwound]
  grind

structure Accounted (last : Option Return) (m : Machine Memory) : Prop where
  small : m.store.size ≤ 65536
  balanced : m.Balanced ↔ ∀ r ∈ last, r.start.marker = 0xFFFE
  intact : ∀ r ∈ last, r.Matches

theorem Bracketed.accounted (run : Bracketed calls last m) : Accounted last m := by
  induction run with
  | fresh store policy small => exact ⟨small, iff_of_true balanced_initial nofun, nofun⟩
  | push run pushes ih =>
    obtain ⟨-, rfl⟩ := push_eq_ok_iff.mp pushes
    refine ⟨?_, balanced_pushed.trans ih.balanced, ih.intact⟩
    rw [store_pushed, Memory.size_putWord]
    exact ih.small
  | pop run pops ih =>
    obtain ⟨-, -, rfl⟩ := pop_eq_ok_iff.mp pops
    exact ⟨ih.small, balanced_popped.trans ih.balanced, ih.intact⟩
  | call c run room called ih =>
    obtain ⟨-, -, hcallee⟩ := (pushState_eq_ok_iff (by omega)).mp called
    rw [hcallee]
    refine ⟨?_, iff_of_true balanced_entered nofun, nofun⟩
    rw [store_entered, size_pushedAll]
    exact ih.small
  | ret r run intact returns ih =>
    obtain ⟨-, -, rfl⟩ := (popState_eq_ok_iff ih.small).mp returns
    refine ⟨?_, balanced_unwound.trans ?_, ?_⟩
    · rw [store_unwound]
      exact ih.small
    · constructor
      · intro hmarker s hs
        exact Option.some.inj hs ▸ hmarker
      · intro h
        exact h r rfl
    · intro s hs
      exact Option.some.inj hs ▸ intact

end Machine

open Machine

theorem Return.Matches.marker_eq {r : Return} (h : r.Matches)
    (fp : r.start.reg .fp = r.call.callee.reg .fp) :
    r.start.marker = r.call.caller.frameWords + UInt16.ofNat r.call.args.length + 12 := by
  have frame := h.follows.hasFrame h.intact fp
  rw [marker, frame.marker.wordAt_eq, h.follows.stillStaged.frameWords_site]
  grind

theorem Return.Matches.marker_ne {r : Return} (h : r.Matches)
    (fp : r.start.reg .fp = r.call.callee.reg .fp) (counted : r.call.caller.Counted) :
    r.start.marker ≠ 0xFFFE := by
  intro hmarker
  have words := h.follows.words_lt counted
  have sums := congrArg UInt16.toNat ((h.marker_eq fp).symm.trans hmarker)
  simp only [UInt16.toNat_add, UInt16.toNat_ofNat', UInt16.reduceToNat] at sums
  omega

namespace Machine

variable {m : Machine Memory} {calls : List Call} {last : Option Return}

/-- Along bracketed runs the counter counts the words of the frame exactly if no return has
entered it, or one that read the marker `0xFFFE`. From its own frame a return reads the words
of the caller, of the call and two more; so it breaks the relation wherever the caller's
counter was right. -/
theorem counter_counts_words_iff (run : Bracketed calls last m) :
    (m.Balanced ↔ ∀ r ∈ last, r.start.marker = 0xFFFE) ∧
      ∀ r ∈ last, r.start.reg .fp = r.call.callee.reg .fp →
        r.start.marker = r.call.caller.frameWords + UInt16.ofNat r.call.args.length + 12 ∧
        (r.call.caller.Counted → ¬ m.Balanced) := by
  have accounted := run.accounted
  refine ⟨accounted.balanced, fun r hr fp => ?_⟩
  have intact := accounted.intact r hr
  refine ⟨intact.marker_eq fp, fun counted balanced => ?_⟩
  exact intact.marker_ne fp counted (accounted.balanced.mp balanced r hr)

end Machine

/-- The return right after a call, on the machine as the call left it. -/
def Return.direct (m : Machine Memory) (args : List UInt16) : Return :=
  ⟨.direct m args, (Call.direct m args).callee⟩

namespace Machine

variable {m : Machine Memory} {calls : List Call} {last : Option Return} {args vs : List UInt16}

theorem Bracketed.pushedAll (run : Bracketed calls last m)
    (room : 2 * vs.length ≤ (m.reg .sp).toNat) (top : (m.reg .sp).toNat + 2 ≤ m.store.size) :
    Bracketed calls last (m.pushedAll vs) := by
  induction vs generalizing m with
  | nil => exact run
  | cons v vs ih =>
    rw [List.length_cons] at room
    have hsp := toNat_sp_pushed (m := m) (v := v) (by omega)
    rw [pushedAll_cons]
    refine ih (run.push (push_of_room top)) (by omega) ?_
    rw [store_pushed, Memory.size_putWord]
    omega

theorem Bracketed.direct (run : Bracketed calls last m)
    (room : 2 * args.length + 22 ≤ (m.reg .sp).toNat)
    (top : (m.reg .sp).toNat + 2 ≤ m.store.size) :
    Bracketed (Call.direct m args :: calls) none (Return.direct m args).start := by
  have hp := toNat_sp_pushedAll m args (by omega)
  have hs := toNat_sp_staged m args (by omega)
  have staged : Bracketed calls last (Call.direct m args).site := by
    refine (run.pushedAll (by omega) top).push (push_of_room ?_)
    rw [size_pushedAll]
    omega
  obtain ⟨event, called⟩ := pushState_direct room top
  refine .call _ staged ?_ called
  change 20 ≤ ((m.staged args).reg .sp).toNat
  omega

theorem direct_matches (room : 2 * args.length + 22 ≤ (m.reg .sp).toNat)
    (top : (m.reg .sp).toNat + 2 ≤ m.store.size) : (Return.direct m args).Matches :=
  ⟨direct_follows room top, rfl, fun _ _ => rfl⟩

theorem Bracketed.direct_ret (run : Bracketed calls last m)
    (room : 2 * args.length + 22 ≤ (m.reg .sp).toNat)
    (top : (m.reg .sp).toNat + 2 ≤ m.store.size) :
    Bracketed calls (some (.direct m args)) (Return.direct m args).start.unwound := by
  obtain ⟨follows, intact⟩ := direct_matches room top
  have small : (Return.direct m args).start.store.size ≤ 65536 := by
    rw [intact.size, follows.size_callee, follows.stillStaged.size_site]
    exact run.accounted.small
  obtain ⟨event, back, hback, -⟩ := follows.popState small intact rfl
  obtain ⟨-, -, rfl⟩ := (popState_eq_ok_iff small).mp hback
  exact .ret _ (run.direct room top) ⟨follows, intact⟩ hback

def oneArgument : Return := .direct (initial (Memory.zero 64) .strict) [7]

theorem bracketed_oneArgument : Bracketed [] (some oneArgument) oneArgument.start.unwound :=
  (Bracketed.fresh (Memory.zero 64) .strict (by decide)).direct_ret (by decide) (by decide)

/-- The return leaves two words on the counter of an empty frame, and `fp` below `sp`. -/
theorem counter_counts_words_counterexample :
    ∃ m, Bracketed [] (some oneArgument) m ∧ m.reg .sp = 62 ∧ m.reg .fp = 51 ∧
      m.frameWords = 2 ∧ ¬ m.Balanced := by
  refine ⟨_, bracketed_oneArgument, by decide +kernel, by decide +kernel, by decide +kernel, ?_⟩
  rw [Balanced]
  decide +kernel

/-- A push after the return does not mend the counter. -/
theorem one_argument_call_unbalances :
    Bracketed [] (some oneArgument) (oneArgument.start.unwound.pushed 9) ∧
      oneArgument.start.reg .fp = oneArgument.call.callee.reg .fp ∧
      oneArgument.call.caller.Counted ∧ oneArgument.start.marker = 13 ∧
      ¬ (oneArgument.start.unwound.pushed 9).Balanced := by
  have run : Bracketed [] (some oneArgument) (oneArgument.start.unwound.pushed 9) :=
    bracketed_oneArgument.push (push_of_room (by decide +kernel))
  have counted : oneArgument.call.caller.Counted := by
    rw [Counted]
    decide +kernel
  obtain ⟨-, own⟩ := counter_counts_words_iff run
  obtain ⟨hmarker, unbalanced⟩ := own oneArgument rfl rfl
  refine ⟨run, rfl, counted, ?_, unbalanced counted⟩
  rw [hmarker]
  decide +kernel

end Machine

end FrameMachine
